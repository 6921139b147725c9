/-!
# Ruby operators

Spelling and binding strength; a greater number binds tighter. Comparison operators do not chain,
and `**` groups to the right.
-/

set_option autoImplicit false

namespace YcpToRuby.Ruby

inductive UnaryOp where
  | not
  | neg
  | bitNot
  deriving DecidableEq, Repr

def UnaryOp.symbol : UnaryOp → String
  | not => "!"
  | neg => "-"
  | bitNot => "~"

def UnaryOp.precedence : UnaryOp → Nat
  | not | bitNot => 15
  | neg => 13

inductive BinaryOp where
  | eq
  | ne
  | lt
  | gt
  | le
  | ge
  | add
  | sub
  | mul
  | div
  | mod
  | pow
  | bitAnd
  | bitOr
  | bitXor
  | shl
  | shr
  | and
  | or
  deriving DecidableEq, Repr

namespace BinaryOp

def symbol : BinaryOp → String
  | eq => "=="
  | ne => "!="
  | lt => "<"
  | gt => ">"
  | le => "<="
  | ge => ">="
  | add => "+"
  | sub => "-"
  | mul => "*"
  | div => "/"
  | mod => "%"
  | pow => "**"
  | bitAnd => "&"
  | bitOr => "|"
  | bitXor => "^"
  | shl => "<<"
  | shr => ">>"
  | and => "&&"
  | or => "||"

def precedence : BinaryOp → Nat
  | pow => 14
  | mul | div | mod => 12
  | add | sub => 11
  | shl | shr => 10
  | bitAnd => 9
  | bitOr | bitXor => 8
  | lt | gt | le | ge => 7
  | eq | ne => 6
  | and => 5
  | or => 4

def isNonAssociative : BinaryOp → Bool
  | eq | ne | lt | gt | le | ge => true
  | _ => false

def leftStrength (op : BinaryOp) : Nat :=
  if op.isNonAssociative || op == pow then op.precedence + 1 else op.precedence

def rightStrength (op : BinaryOp) : Nat :=
  if op == pow then op.precedence else op.precedence + 1

end BinaryOp

end YcpToRuby.Ruby
