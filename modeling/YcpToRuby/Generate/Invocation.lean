import YcpToRuby.Generate.Binding
import YcpToRuby.Generate.Reading
import YcpToRuby.Text.Affix

/-!
# Calls, builtins, closures and terms
-/

set_option autoImplicit false

namespace YcpToRuby.Generate

open Ruby (Node)
open Scope (Context Frame)
open Ycp (BlockInfo CallCategory QualifiedName Symbol Variable)

/-! ## Calls -/

inductive Argument where
  | value (node : Node)
  | reference (target : Variable)

def Argument.isReference : Argument → Bool
  | value _ => false
  | reference _ => true

def argument (ctx : Context) (reading : Reading) : Generated Argument :=
  match reading.node with
  | .reference target => .ok (.reference target)
  | _ => .value <$> reading.value ctx

def callNode (ctx : Context) (target : QualifiedName) (category : CallCategory)
    (args : List Node) : Node :=
  match category with
  | .var => .invoke (some (nameNode ctx target)) "call" args
  | .function =>
    match target.ns with
    | some ns =>
      if isForeign ctx ns then .invoke (some (.constant ns)) target.name args
      else .invoke none target.name args
    | none =>
      if ctx.isLocal target.name then
        .invoke (some (.var (ctx.localName target.name))) "call" args
      else .invoke none target.name args

def holderName (target : Variable) : String :=
  Scope.escape (target.name.name ++ "_ref")

def resultName (target : QualifiedName) : String :=
  Scope.escape (target.name ++ "_result")

def Argument.node : Argument → Node
  | value node => node
  | reference target => .var (holderName target)

def copyIn (ctx : Context) : Argument → Option Node
  | .value _ => none
  | .reference target =>
    some (.assign (.var (holderName target))
      (.invoke none "arg_ref" [valueNode ctx target.name]))

def copyOut (ctx : Context) : Argument → Option Node
  | .value _ => none
  | .reference target =>
    some (.assign (assignmentTarget ctx target.name) (heldBy (.var (holderName target))))

/-- A call with reference arguments:
`(x_ref = arg_ref(x); f_result = f(x_ref); x = x_ref.value; f_result)`. -/
def referenceCall (ctx : Context) (target : QualifiedName) (category : CallCategory)
    (args : List Argument) : Node :=
  let result := Node.var (resultName target)
  .group (args.filterMap (copyIn ctx) ++
    [.assign result (callNode ctx target category (args.map Argument.node))] ++
    args.filterMap (copyOut ctx) ++ [result])

def callWith (ctx : Context) (target : QualifiedName) (category : CallCategory)
    (args : List Argument) : Node :=
  if args.any Argument.isReference then referenceCall ctx target category args
  else callNode ctx target category (args.map Argument.node)

/-! ## Closures -/

def localNames (ctx : Context) (params : List Symbol) : List String :=
  params.map fun param => ctx.localName param.name

def blockLiteral (info : BlockInfo) (body : List Reading) (ctx : Context) : Generated Node := do
  let inner := ctx.inside (.block info)
  return .block (localNames inner info.params) (.sequence (← statements body inner))

def valueLiteral (params : List Symbol) (value : Reading) (ctx : Context) : Generated Node := do
  let inner := ctx.inside (.returnExpr params)
  return .block (localNames inner params) (.statements [← value.value inner])

def lambda (block : Node) : Node :=
  (Node.command none "lambda" []).withBlock block

/-! ## Builtins -/

def builtinNamespaces : List (String × Node) := [
  ("SCR", .constant "SCR"),
  ("WFM", .constant "WFM"),
  ("float", .const (some (.constant "Builtins")) "Float"),
  ("list", .const (some (.constant "Builtins")) "List"),
  ("multiset", .const (some (.constant "Builtins")) "Multiset")]

def builtinReceiver (name : String) : Generated (Node × String) :=
  match Text.cutLast name.toList with
  | none => .ok (.constant "Builtins", name)
  | some (before, after) =>
    let ns := String.ofList before
    match builtinNamespaces.lookup ns with
    | some receiver => .ok (receiver, String.ofList after)
    | none => invalid (.unknownNamespace ns name)

/-! ## Terms -/

def widgetTerms : List String := [
  "BarGraph", "Bottom", "BusyIndicator", "ButtonBox", "Cell", "CheckBox", "CheckBoxFrame",
  "ColoredLabel", "ComboBox", "DateField", "DownloadProgress", "DumbTab", "Empty", "Frame",
  "HBox", "HCenter", "HSpacing", "HSquash", "HStretch", "HVCenter", "HVSquash", "HVStretch",
  "HWeight", "Header", "Heading", "IconButton", "Id", "Image", "InputField", "IntField",
  "Item", "Label", "Left", "LogView", "MarginBox", "MenuButton", "MinHeight", "MinSize",
  "MinWidth", "MultiLineEdit", "MultiSelectionBox", "Opt", "PackageSelector", "Password",
  "PartitionSplitter", "ProgressBar", "PushButton", "RadioButton", "RadioButtonGroup",
  "ReplacePoint", "RichText", "Right", "SelectionBox", "Slider", "Table", "TextEntry",
  "TimeField", "Top", "Tree", "VBox", "VCenter", "VMultiProgressMeter", "VSpacing", "VSquash",
  "VStretch", "VWeight", "Wizard"]

def termNode (ctx : Context) (name : String) (args : List Node) : Node :=
  if widgetTerms.contains name && (ctx.lookup? name).isNone then .invoke none name args
  else .invoke none "term" (.symbol name :: args)

end YcpToRuby.Generate
