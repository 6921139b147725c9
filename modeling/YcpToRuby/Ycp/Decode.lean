import YcpToRuby.Text.Affix
import YcpToRuby.Tree.Basic
import YcpToRuby.Ycp.Malformed
import YcpToRuby.Ycp.Node

/-!
# YCP programs from attributed trees

Each kind lays its parts out in attributes and children. Children that group others (`cond`,
`params`, `key`, …) are found by their kind, and the first of a kind counts. The first thing that
is wrong, in the order in which the parts are named here, is reported.
-/

set_option autoImplicit false

namespace YcpToRuby.Ycp

abbrev Decoded := Except Malformed

/-! ## Attributes -/

section

variable (kind : String) (attrs : Attributes)

def requiredAttribute (name : String) : Decoded String :=
  match attrs.get? name with
  | some text => .ok text
  | none => .error (.missingAttribute kind name)

def taggedAttribute {α : Type} (all : List α) (tag : α → String) (name : String) : Decoded α := do
  let text ← requiredAttribute kind attrs name
  match all.find? fun member => tag member == text with
  | some member => .ok member
  | none => .error (.unrecognized kind name text)

def booleanAttribute (name : String) : Decoded Bool :=
  match attrs.get? name with
  | none => .ok false
  | some text =>
    if text = "false" ∨ text = "0" then .ok false
    else if text = "true" ∨ text = "1" then .ok true
    else .error (.notBoolean kind name text)

def splitName (text : String) : Decoded QualifiedName :=
  match Text.cutFirst text.toList with
  | none => .ok ⟨none, text⟩
  | some (ns, name) =>
    if ns.isEmpty || name.isEmpty || (Text.cutFirst name).isSome then .error (.qualifiedName text)
    else .ok ⟨some (String.ofList ns), String.ofList name⟩

def qualifiedName : Decoded QualifiedName := do
  let name ← requiredAttribute kind attrs "name"
  match attrs.get? "ns" with
  | some ns => if ns.isEmpty then splitName name else .ok ⟨some ns, name⟩
  | none => splitName name

def decodeConstant : Decoded Node := do
  let type ← taggedAttribute kind attrs ConstType.all ConstType.tag "type"
  match type, attrs.get? "value" with
  | .void, value => .ok (.const .void value)
  | type, some value => .ok (.const type (some value))
  | _, none => .error (.missingAttribute kind "value")

end

def decodeVariable : Tree → Decoded Variable
  | .node kind attrs _ => do
    if kind ≠ "variable" ∧ kind ≠ "entry" then throw (.notVariable kind)
    let name ← qualifiedName kind attrs
    let category ← match attrs.get? "category" with
      | some _ => taggedAttribute kind attrs Category.all Category.tag "category"
      | none => .ok .var
    return ⟨name, category, attrs.get? "type"⟩

def decodeSymbol : Tree → Decoded Symbol
  | .node kind attrs _ => do
    if kind ≠ "symbol" then throw (.notSymbol kind)
    let isGlobal ← booleanAttribute kind attrs "global"
    let category ← taggedAttribute kind attrs SymbolCategory.all SymbolCategory.tag "category"
    let name ← requiredAttribute kind attrs "name"
    return ⟨isGlobal, category, (attrs.get? "type").getD "", name⟩

def decodeSymbols : List Tree → Decoded (List Symbol)
  | [] => .ok []
  | tree :: rest => do
    let symbol ← decodeSymbol tree
    let symbols ← decodeSymbols rest
    return symbol :: symbols

def symbolsUnder (part : String) (children : List Tree) : Decoded (List Symbol) :=
  match children.find? fun child => child.kind == part with
  | some list => decodeSymbols list.children
  | none => .ok []

/-! ## Nodes -/

def clauseBlock (statements : List Node) : Block :=
  match statements with
  | [.block block] =>
    if block.info.kind = .stmt then block else .mk { kind := .stmt } statements
  | _ => .mk { kind := .stmt } statements

def closureOf : Node → Decoded Closure
  | .block block =>
    if block.info.kind = .unspec then .ok (.block block) else .error (.callback Kind.block.tag)
  | .returnExpr params value => .ok (.value params value)
  | node => .error (.callback node.kind.tag)

def blockOf (kind : String) (attrs : Attributes) (children : List Tree)
    (statements : Decoded (List Node)) : Decoded Block := do
  let blockKind ← taggedAttribute kind attrs BlockKind.all BlockKind.tag "kind"
  let statements ← statements
  let params ← symbolsUnder "params" children
  let symbols ← symbolsUnder "symbols" children
  return .mk
    { kind := blockKind, name := attrs.get? "name", filename := attrs.get? "filename", params,
      symbols }
    statements

def declarations : List String := ["symbols", "params"]

def decodeVariableNode (tree : Tree) : Decoded Node :=
  .var <$> decodeVariable tree

mutual

def decode : Tree → Decoded Node
  | .node kind attrs children =>
    match Kind.ofTag? kind with
    | none => .error (.unknownKind kind)
    | some .const => decodeConstant kind attrs
    | some .locale => .locale <$> requiredAttribute kind attrs "text"
    | some .list => .list <$> decodeExcept [] children
    | some .map => .map <$> decodeEntries children
    | some .var | some .entry => decodeVariableNode (.node kind attrs children)
    | some .assign => do
      let target ← qualifiedName kind attrs
      match children with
      | [value] => return .assign target (← decode value)
      | _ => throw (.childCount kind (.exactly 1) children.length)
    | some .bracket =>
      match children with
      | [target, index, value] => do
        return .bracket (← decodeVariable target) (← decode index) (← decode value)
      | _ => throw (.childCount kind (.exactly 3) children.length)
    | some .index =>
      match children with
      | [value, index, fallback] => do
        return .index (← decode value) (← decode index) (← decode fallback)
      | _ => throw (.childCount kind (.exactly 3) children.length)
    | some .call => do
      let target ← qualifiedName kind attrs
      let category ← taggedAttribute kind attrs CallCategory.all CallCategory.tag "category"
      return .call target category (attrs.get? "type") (← decodeExcept [] children)
    | some .builtin => do
      let (args, closure) ← decodeArguments kind attrs false children
      return .builtin (← requiredAttribute kind attrs "name") args closure
    | some .compare =>
      match children with
      | [lhs, rhs] => do
        let op ← taggedAttribute kind attrs CompareOp.all CompareOp.tag "op"
        return .compare op (← decode lhs) (← decode rhs)
      | _ => throw (.childCount kind (.exactly 2) children.length)
    | some .binary =>
      match children with
      | [lhs, rhs] => do
        let op ← taggedAttribute kind attrs BinaryOp.all BinaryOp.tag "op"
        return .binary op (← decode lhs) (← decode rhs)
      | _ => throw (.childCount kind (.exactly 2) children.length)
    | some .unary =>
      match children with
      | [operand] => do
        let op ← taggedAttribute kind attrs UnaryOp.all UnaryOp.tag "op"
        return .unary op (← decode operand)
      | _ => throw (.childCount kind (.exactly 1) children.length)
    | some .ternary =>
      match children with
      | [condition, thenValue, elseValue] => do
        return .ternary (← decode condition) (← decode thenValue) (← decode elseValue)
      | _ => throw (.childCount kind (.exactly 3) children.length)
    | some .isType =>
      match children with
      | [operand] => do
        return .isType (← requiredAttribute kind attrs "type") (← decode operand)
      | _ => throw (.childCount kind (.exactly 1) children.length)
    | some .propagate =>
      match children with
      | [operand] => do
        return .propagate (← requiredAttribute kind attrs "from")
          (← requiredAttribute kind attrs "to") (← decode operand)
      | _ => throw (.childCount kind (.exactly 1) children.length)
    | some .reference =>
      match children with
      | [target] => .reference <$> decodeVariable target
      | _ => throw (.childCount kind (.exactly 1) children.length)
    | some .returnExpr => do
      let params ← symbolsUnder "params" children
      let cause := .childCount kind .oneExpression children.length
      if (children.filter fun child => child.kind != "params").length ≠ 1 then throw cause
      return .returnExpr params (← decodeFirstExcept cause "params" children)
    | some .term => do
      return .term (← requiredAttribute kind attrs "name") (← decodeExcept [] children)
    | some .block => .block <$> blockOf kind attrs children (decodeExcept declarations children)
    | some .ifElse => do
      return .ifElse (← decodePart kind "cond" children) (← decodePart? "then" children)
        (← decodePart? "else" children)
    | some .whileLoop => do
      return .loop .whileTrue (← decodePart kind "cond" children)
        (← decodePart kind "body" children)
    | some .doLoop => do
      return .loop .doWhile (← decodePart kind "cond" children)
        (← decodePart kind "body" children)
    | some .repeatLoop => do
      return .loop .repeatUntil (← decodePart kind "cond" children)
        (← decodePart kind "body" children)
    | some .breakLoop => .ok .breakLoop
    | some .continueLoop => .ok .continueLoop
    | some .ret =>
      match children with
      | [] => .ok (.ret none)
      | [value] => do return .ret (some (← decode value))
      | _ => throw (.childCount kind .atMostOne children.length)
    | some .switch => do
      let (cases, default) ← decodeClauses false children
      return .switch (← decodePart kind "cond" children) cases default
    | some .funDef => do
      let name ← requiredAttribute kind attrs "name"
      let body ← decodeBody kind children
      if body.info.kind ≠ .function then throw (.functionBody name)
      return .funDef name (← symbolsUnder "params" children) body
    | some .importModule => .importModule <$> requiredAttribute kind attrs "name"
    | some .includeFile => do
      return .includeFile (← requiredAttribute kind attrs "name")
        (← booleanAttribute kind attrs "skip")
    | some .textdomain => .textdomain <$> requiredAttribute kind attrs "name"
    | some .typedef => .ok .typedef
    | some .filename => .filename <$> requiredAttribute kind attrs "name"

def decodeExcept (skipped : List String) : List Tree → Decoded (List Node)
  | [] => .ok []
  | tree :: rest =>
    if skipped.contains tree.kind then decodeExcept skipped rest
    else do
      let node ← decode tree
      let nodes ← decodeExcept skipped rest
      return node :: nodes

def decodeFirstExcept (cause : Malformed) (skipped : String) : List Tree → Decoded Node
  | [] => .error cause
  | tree :: rest =>
    if tree.kind = skipped then decodeFirstExcept cause skipped rest else decode tree

def decodeOnly (kind : String) : List Tree → Decoded Node
  | [tree] => decode tree
  | trees => .error (.childCount kind (.exactly 1) trees.length)

def decodePart? (part : String) : List Tree → Decoded (Option Node)
  | [] => .ok none
  | .node kind _ inner :: rest =>
    if kind = part then some <$> decodeOnly kind inner else decodePart? part rest

def decodePart (kind part : String) : List Tree → Decoded Node
  | [] => .error (.missingPart kind part)
  | .node child _ inner :: rest =>
    if child = part then decodeOnly child inner else decodePart kind part rest

def decodeEntries : List Tree → Decoded (List (Node × Node))
  | [] => .ok []
  | .node kind _ inner :: rest => do
    if kind ≠ "element" then throw (.notElement kind)
    let key ← decodePart kind "key" inner
    let value ← decodePart kind "value" inner
    let entries ← decodeEntries rest
    return (key, value) :: entries

def decodeClosure : Tree → Decoded Closure
  | .node kind _ inner => do closureOf (← decodeOnly kind inner)

def decodeArguments (kind : String) (attrs : Attributes) (met : Bool) :
    List Tree → Decoded (List Node × Option Closure)
  | [] => .ok ([], none)
  | tree :: rest =>
    if tree.kind ≠ "callback" then do
      let arg ← decode tree
      let (args, closure) ← decodeArguments kind attrs met rest
      return (arg :: args, closure)
    else if met then do
      throw (.secondCallback (← requiredAttribute kind attrs "name"))
    else do
      let closure ← decodeClosure tree
      let (args, _) ← decodeArguments kind attrs true rest
      return (args, some closure)

def decodeBody (kind : String) : List Tree → Decoded Block
  | [] => .error (.missingPart kind "block")
  | .node child attrs inner :: rest =>
    if child = "block" then blockOf child attrs inner (decodeExcept declarations inner)
    else decodeBody kind rest

def decodeClauses (met : Bool) : List Tree → Decoded (List (Node × Block) × Option Block)
  | [] => .ok ([], none)
  | .node kind _ inner :: rest =>
    if kind = "cond" then decodeClauses met rest
    else if kind = "case" then do
      let value ← decodePart kind "value" inner
      let body ← decodeExcept ["value"] inner
      let (cases, default) ← decodeClauses met rest
      return ((value, clauseBlock body) :: cases, default)
    else if kind = "default" then do
      if met then throw .secondDefault
      let body ← decodeExcept [] inner
      let (cases, _) ← decodeClauses true rest
      return (cases, some (clauseBlock body))
    else throw (.insideSwitch kind)

end

end YcpToRuby.Ycp
