import Mathlib.Logic.Function.Basic
import YcpToRuby.Ycp.Kind

/-!
# Values, stores and outcomes

What both languages run on. The values and the operators of the runtime are parameters: the `Ops`
module is not part of this library, and an operator may have no result for some operands. A
statement ends normally, or by a jump that the construct around it has to deal with.
-/

set_option autoImplicit false

namespace YcpToRuby.Meaning

structure Runtime (V : Type) where
  nil : V
  bool : Bool → V
  integer : Int → V
  string : String → V
  holds : V → Bool
  equal : V → V → Bool
  compare : Ycp.CompareOp → V → V → Option V
  binary : Ycp.BinaryOp → V → V → Option V
  unary : Ycp.UnaryOp → V → Option V

abbrev Store (V : Type) := String → V

inductive Outcome (V : Type) where
  | normal
  | broken
  | continued
  | returned (value : V)
  deriving DecidableEq, Repr

def Outcome.reachesTest {V : Type} : Outcome V → Bool
  | normal | continued => true
  | broken | returned _ => false

end YcpToRuby.Meaning
