import YcpToRuby.Json.Value
import YcpToRuby.Number.Shortest
import YcpToRuby.Ruby.Node

/-!
# Ruby trees as JSON

A node is an object with one key that names its form, or just that name when the form has no
parts. Absent parts are `null`. How a float is shown is left to the caller.
-/

set_option autoImplicit false

namespace YcpToRuby.Ruby

def UnaryOp.label : UnaryOp → String
  | not => "Not"
  | neg => "Neg"
  | bitNot => "BitNot"

def BinaryOp.label : BinaryOp → String
  | eq => "Eq"
  | ne => "Ne"
  | lt => "Lt"
  | gt => "Gt"
  | le => "Le"
  | ge => "Ge"
  | add => "Add"
  | sub => "Sub"
  | mul => "Mul"
  | div => "Div"
  | mod => "Mod"
  | pow => "Pow"
  | bitAnd => "BitAnd"
  | bitOr => "BitOr"
  | bitXor => "BitXor"
  | shl => "Shl"
  | shr => "Shr"
  | and => "And"
  | or => "Or"

def LoopKind.label : LoopKind → String
  | whileTrue => "While"
  | untilTrue => "Until"

def jsonFloatNotation : Number.Notation := ⟨-4, 16, .toEven, true⟩

def jsonFloat : Number.Binary64 → Json
  | .finite negative significand exponent =>
    .number (jsonFloatNotation.write negative significand exponent)
  | _ => .null

def form (name : String) (content : Json) : Json :=
  .record [(name, content)]

def Literal.toJson (float : Number.Binary64 → Json) : Literal → Json
  | nil => .text "Nil"
  | bool value => form "Bool" (.bool value)
  | integer value => form "Integer" (.number (toString value))
  | .float value => form "Float" (float value)
  | symbol name => form "Symbol" (.text name)
  | string text => form "String" (.text text)

section

variable (float : Number.Binary64 → Json)

mutual

def Node.toJson : Node → Json
  | .program body => form "Program" (.record [("statements", body.toJson)])
  | .classDef name superclass body =>
    form "Class" (.record [("name", .text name), ("superclass", optionJson superclass),
      ("body", body.toJson)])
  | .moduleDef name body => form "Module" (.record [("name", .text name), ("body", body.toJson)])
  | .methodDef name params body =>
    form "Def" (.record [("name", .text name), ("args", .texts params), ("body", body.toJson)])
  | .sequence entries => form "Statements" (.array (entryJsons entries))
  | .beginEnd body => form "Begin" (.record [("statements", body.toJson)])
  | .ifElse condition thenBody elseBody =>
    form "If" (.record [("condition", condition.toJson), ("then", thenBody.toJson),
      ("else_", optionJson elseBody)])
  | .unlessElse condition thenBody elseBody =>
    form "Unless" (.record [("condition", condition.toJson), ("then", thenBody.toJson),
      ("else_", optionJson elseBody)])
  | .caseWhen subject clauses elseBody =>
    form "Case" (.record [("expression", subject.toJson), ("whens", .array (clauseJsons clauses)),
      ("else_", optionJson elseBody)])
  | .loop kind condition body =>
    form kind.label (.record [("condition", condition.toJson), ("body", body.toJson)])
  | .breakLoop => .text "Break"
  | .next value => form "Next" (.record [("value", optionJson value)])
  | .ret value => form "Return" (.record [("value", optionJson value)])
  | .group items => form "Expressions" (.array (nodeJsons items))
  | .assign target value =>
    form "Assignment" (.record [("lhs", target.toJson), ("rhs", value.toJson)])
  | .unary op operand =>
    form "UnaryOperator" (.record [("op", .text op.label), ("expression", operand.toJson)])
  | .binary op lhs rhs =>
    form "BinaryOperator" (.record [("op", .text op.label), ("lhs", lhs.toJson),
      ("rhs", rhs.toJson)])
  | .ternary condition thenValue elseValue =>
    form "Ternary" (.record [("condition", condition.toJson), ("then", thenValue.toJson),
      ("else_", elseValue.toJson)])
  | .call receiver name args block parens =>
    form "MethodCall" (.record [("receiver", optionJson receiver), ("name", .text name),
      ("args", .array (nodeJsons args)), ("block", optionJson block), ("parens", .bool parens)])
  | .block params body =>
    form "Block" (.record [("args", .texts params), ("statements", body.toJson)])
  | .const scope name =>
    form "ConstAccess" (.record [("receiver", optionJson scope), ("name", .text name)])
  | .var name => form "Variable" (.record [("name", .text name)])
  | .self => .text "SelfRef"
  | .literal value => form "Literal" (value.toJson float)
  | .array items => form "Array" (.array (nodeJsons items))
  | .hash entries => form "Hash" (.array (pairJsons entries))

def optionJson : Option Node → Json
  | none => .null
  | some node => node.toJson

def nodeJsons : List Node → List Json
  | [] => []
  | node :: rest => node.toJson :: nodeJsons rest

def entryJsons : List (Option Node) → List Json
  | [] => []
  | none :: rest => .null :: entryJsons rest
  | some node :: rest => node.toJson :: entryJsons rest

def pairJsons : List (Node × Node) → List Json
  | [] => []
  | (key, value) :: rest =>
    .record [("key", key.toJson), ("value", value.toJson)] :: pairJsons rest

def clauseJsons : List (List Node × Node) → List Json
  | [] => []
  | (values, body) :: rest =>
    .record [("values", .array (nodeJsons values)), ("body", body.toJson)] :: clauseJsons rest

end

end

end YcpToRuby.Ruby
