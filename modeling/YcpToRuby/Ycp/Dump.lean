import YcpToRuby.Json.Value
import YcpToRuby.Ycp.Node

/-!
# YCP programs as JSON

A node is an object with one key that names its form, or just that name when the form has no
parts. Absent parts are `null`.
-/

set_option autoImplicit false

namespace YcpToRuby.Ycp

def CompareOp.label : CompareOp → String
  | eq => "Eq"
  | ne => "Ne"
  | lt => "Lt"
  | gt => "Gt"
  | le => "Le"
  | ge => "Ge"

def BinaryOp.label : BinaryOp → String
  | add => "Add"
  | sub => "Sub"
  | mul => "Mul"
  | div => "Div"
  | mod => "Mod"
  | bitAnd => "BitAnd"
  | bitOr => "BitOr"
  | bitXor => "BitXor"
  | shl => "Shl"
  | shr => "Shr"
  | and => "And"
  | or => "Or"

def UnaryOp.label : UnaryOp → String
  | not => "Not"
  | neg => "Neg"
  | bitNot => "BitNot"

def BlockKind.label : BlockKind → String
  | stmt => "Stmt"
  | function => "Def"
  | unspec => "Unspec"
  | module => "Module"
  | file => "File"

def LoopKind.label : LoopKind → String
  | whileTrue => "While"
  | doWhile => "Do"
  | repeatUntil => "Repeat"

def Symbol.toJson (symbol : Symbol) : Json :=
  .record [("global", .bool symbol.isGlobal), ("category", .text symbol.category.tag),
    ("ty", .text symbol.type), ("name", .text symbol.name)]

def symbolJsons (symbols : List Symbol) : Json :=
  .array (symbols.map Symbol.toJson)

def QualifiedName.fields (name : QualifiedName) : List (String × Json) :=
  [("ns", .ofOption .text name.ns), ("name", .text name.name)]

def Variable.toJson (v : Variable) : Json :=
  .record (v.name.fields ++
    [("category", .text v.category.tag), ("ty", .ofOption .text v.type)])

def form (name : String) (fields : List (String × Json)) : Json :=
  .record [(name, .record fields)]

mutual

def Node.toJson : Node → Json
  | .const type value =>
    form "Const" [("ty", .text type.tag), ("value", .ofOption .text value)]
  | .locale text => form "Locale" [("text", .text text)]
  | .list elements => form "List" [("elements", .array (nodeJsons elements))]
  | .map entries => form "Map" [("entries", .array (entryJsons entries))]
  | .var target => .record [("Variable", target.toJson)]
  | .assign target value => form "Assign" (target.fields ++ [("value", value.toJson)])
  | .bracket target index value =>
    form "Bracket" [("target", target.toJson), ("index", index.toJson), ("value", value.toJson)]
  | .index value index fallback =>
    form "Index" [("value", value.toJson), ("index", index.toJson),
      ("default", fallback.toJson)]
  | .call target category type args =>
    form "Call" (target.fields ++ [("category", .text category.tag),
      ("ty", .ofOption .text type), ("args", .array (nodeJsons args))])
  | .builtin name args closure =>
    form "Builtin" [("name", .text name), ("args", .array (nodeJsons args)),
      ("closure", closureJson closure)]
  | .compare op lhs rhs =>
    form "Compare" [("op", .text op.label), ("lhs", lhs.toJson), ("rhs", rhs.toJson)]
  | .binary op lhs rhs =>
    form "Binary" [("op", .text op.label), ("lhs", lhs.toJson), ("rhs", rhs.toJson)]
  | .unary op operand => form "Unary" [("op", .text op.label), ("operand", operand.toJson)]
  | .ternary condition thenValue elseValue =>
    form "Ternary" [("cond", condition.toJson), ("then", thenValue.toJson),
      ("otherwise", elseValue.toJson)]
  | .isType type operand => form "Is" [("ty", .text type), ("operand", operand.toJson)]
  | .propagate source target operand =>
    form "Propagate" [("from", .text source), ("to", .text target), ("operand", operand.toJson)]
  | .reference target => form "Reference" [("target", target.toJson)]
  | .returnExpr params value =>
    form "ReturnExpr" [("params", symbolJsons params), ("value", value.toJson)]
  | .term name args => form "Term" [("name", .text name), ("args", .array (nodeJsons args))]
  | .block block => .record [("Block", block.toJson)]
  | .ifElse condition thenBody elseBody =>
    form "If" [("cond", condition.toJson), ("then", optionJson thenBody),
      ("otherwise", optionJson elseBody)]
  | .loop kind condition body =>
    form kind.label [("cond", condition.toJson), ("body", body.toJson)]
  | .breakLoop => .text "Break"
  | .continueLoop => .text "Continue"
  | .ret value => form "Return" [("value", optionJson value)]
  | .switch condition cases default =>
    form "Switch" [("cond", condition.toJson), ("cases", .array (caseJsons cases)),
      ("default", defaultJson default)]
  | .funDef name params body =>
    form "FunDef" [("name", .text name), ("params", symbolJsons params), ("body", body.toJson)]
  | .importModule name => form "Import" [("name", .text name)]
  | .includeFile name skip => form "Include" [("name", .text name), ("skip", .bool skip)]
  | .textdomain name => form "Textdomain" [("name", .text name)]
  | .typedef => .text "Typedef"
  | .filename name => form "Filename" [("name", .text name)]

def Block.toJson : Block → Json
  | .mk info statements =>
    .record [("kind", .text info.kind.label), ("name", .ofOption .text info.name),
      ("filename", .ofOption .text info.filename), ("params", symbolJsons info.params),
      ("symbols", symbolJsons info.symbols), ("statements", .array (nodeJsons statements))]

def nodeJsons : List Node → List Json
  | [] => []
  | node :: rest => node.toJson :: nodeJsons rest

def optionJson : Option Node → Json
  | none => .null
  | some node => node.toJson

def entryJsons : List (Node × Node) → List Json
  | [] => []
  | (key, value) :: rest =>
    .record [("key", key.toJson), ("value", value.toJson)] :: entryJsons rest

def closureJson : Option Closure → Json
  | none => .null
  | some (.block block) => .record [("Block", block.toJson)]
  | some (.value params value) =>
    form "Return" [("params", symbolJsons params), ("value", value.toJson)]

def caseJsons : List (Node × Block) → List Json
  | [] => []
  | (value, body) :: rest =>
    .record [("value", value.toJson), ("body", body.toJson)] :: caseJsons rest

def defaultJson : Option Block → Json
  | none => .null
  | some body => .record [("body", body.toJson)]

end

end YcpToRuby.Ycp
