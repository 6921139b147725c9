import YcpToRuby.Ruby.Node
import YcpToRuby.Ycp.Kind

/-!
# Operators and indexing

Equality and the logical operators are those of Ruby. All others go through the `Ops` module of
the runtime, which defines them for mixed and for missing values.
-/

set_option autoImplicit false

namespace YcpToRuby.Generate

open Ruby (Node)

def moduleCall (receiver name : String) (args : List Node) : Node :=
  .invoke (some (.constant receiver)) name args

def opsCall (name : String) (args : List Node) : Node :=
  moduleCall "Ops" name args

def compareNode (op : Ycp.CompareOp) (lhs rhs : Node) : Node :=
  match op with
  | .eq => .binary .eq lhs rhs
  | .ne => .binary .ne lhs rhs
  | .lt => opsCall "less_than" [lhs, rhs]
  | .gt => opsCall "greater_than" [lhs, rhs]
  | .le => opsCall "less_or_equal" [lhs, rhs]
  | .ge => opsCall "greater_or_equal" [lhs, rhs]

def binaryNode (op : Ycp.BinaryOp) (lhs rhs : Node) : Node :=
  match op with
  | .and => .binary .and lhs rhs
  | .or => .binary .or lhs rhs
  | .add => opsCall "add" [lhs, rhs]
  | .sub => opsCall "subtract" [lhs, rhs]
  | .mul => opsCall "multiply" [lhs, rhs]
  | .div => opsCall "divide" [lhs, rhs]
  | .mod => opsCall "modulo" [lhs, rhs]
  | .bitAnd => opsCall "bitwise_and" [lhs, rhs]
  | .bitOr => opsCall "bitwise_or" [lhs, rhs]
  | .bitXor => opsCall "bitwise_xor" [lhs, rhs]
  | .shl => opsCall "shift_left" [lhs, rhs]
  | .shr => opsCall "shift_right" [lhs, rhs]

def unaryNode (op : Ycp.UnaryOp) (operand : Node) : Node :=
  match op with
  | .not => .unary .not operand
  | .neg => opsCall "unary_minus" [operand]
  | .bitNot => opsCall "bitwise_not" [operand]

def typeTest (type : String) (operand : Node) : Node :=
  opsCall "is" [operand, .string type]

def conversion (source target : String) (operand : Node) : Node :=
  moduleCall "Convert" "convert" [operand,
    .hash [(.symbol "from", .string source), (.symbol "to", .string target)]]

end YcpToRuby.Generate
