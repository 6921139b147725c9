import YcpToRuby.Proofs.Generate.Success
import YcpToRuby.Proofs.Meaning.Ruby
import YcpToRuby.Proofs.Meaning.Ycp
import YcpToRuby.Proofs.Scope.Transparent

/-!
# Generated expressions compute the same values

Among transparent frames every variable is renamed by escaping alone. The store of the generated
program holds each variable under its escaped name and whatever else it holds stays as it is.
-/

set_option autoImplicit false

namespace YcpToRuby.Meaning

open Scope (Context escape escape_injective)
open Generate

variable {V : Type}

noncomputable def renamed (base σ : Store V) : Store V :=
  Function.extend escape σ base

theorem renamed_escape (base σ : Store V) (name : String) :
    renamed base σ (escape name) = σ name :=
  escape_injective.extend_apply σ base name

theorem renamed_update (base σ : Store V) (name : String) (v : V) :
    Function.update (renamed base σ) (escape name) v =
      renamed base (Function.update σ name v) := by
  funext y
  by_cases hy : ∃ x, escape x = y
  · obtain ⟨x, rfl⟩ := hy
    by_cases hx : x = name
    · subst hx
      simp [renamed_escape]
    · have hne : escape x ≠ escape name := fun h => hx (escape_injective h)
      simp [renamed_escape, hx, hne]
  · have hne : y ≠ escape name := fun h => hy ⟨name, h.symm⟩
    simp [renamed, Function.extend_apply' _ _ _ hy, hne]

end YcpToRuby.Meaning

namespace YcpToRuby.Ycp

inductive PlainExpression : Node → Prop
  | const {type : ConstType} {text : Option String} (h : type ∈ [.void, .bool, .int, .string]) :
      PlainExpression (.const type text)
  | var {name : String} {type : Option String} : PlainExpression (.var ⟨⟨none, name⟩, .var, type⟩)
  | assign {name : String} {value : Node} (h : PlainExpression value) :
      PlainExpression (.assign ⟨none, name⟩ value)
  | compare {op : CompareOp} {lhs rhs : Node} (hl : PlainExpression lhs)
      (hr : PlainExpression rhs) : PlainExpression (.compare op lhs rhs)
  | binary {op : BinaryOp} {lhs rhs : Node} (hl : PlainExpression lhs)
      (hr : PlainExpression rhs) : PlainExpression (.binary op lhs rhs)
  | unary {op : UnaryOp} {operand : Node} (h : PlainExpression operand) :
      PlainExpression (.unary op operand)
  | ternary {condition thenValue elseValue : Node} (hc : PlainExpression condition)
      (ht : PlainExpression thenValue) (he : PlainExpression elseValue) :
      PlainExpression (.ternary condition thenValue elseValue)

end YcpToRuby.Ycp

namespace YcpToRuby.Meaning

open Scope (Context escape escape_injective)
open Generate

variable {V : Type}

noncomputable def withRenamed {α : Type} (base : Store V) (result : α × Store V) : α × Store V :=
  (result.1, renamed base result.2)

def SameValue (rt : Runtime V) (base : Store V) (e : Ycp.Node) (r : Ruby.Node) : Prop :=
  ∀ σ, Ruby.evaluate rt r (renamed base σ) = (Ycp.evaluate rt e σ).map (withRenamed base)

variable {rt : Runtime V} {base : Store V}

/-- Two computations that start with the same value stay in step when what follows does. -/
theorem bind_withRenamed {α β : Type} {x : Option (α × Store V)} {y : Option (α × Store V)}
    {f g : α × Store V → Option (β × Store V)} (hx : y = x.map (withRenamed base))
    (hf : ∀ a σ, f (a, renamed base σ) = (g (a, σ)).map (withRenamed base)) :
    (y >>= f) = (x >>= g).map (withRenamed base) := by
  subst hx
  cases x with
  | none => rfl
  | some p => exact hf p.1 p.2

section Operators

variable {e lhs rhs : Ycp.Node} {r a b : Ruby.Node}

theorem sameValue_of_strict (op : V → V → Option V)
    (hl : SameValue rt base lhs a) (hr : SameValue rt base rhs b)
    (he : ∀ σ, Ycp.evaluate rt e σ = do
      let (x, σ) ← Ycp.evaluate rt lhs σ
      let (y, σ) ← Ycp.evaluate rt rhs σ
      return (← op x y, σ))
    (hruby : ∀ ρ, Ruby.evaluate rt r ρ = do
      let (x, ρ) ← Ruby.evaluate rt a ρ
      let (y, ρ) ← Ruby.evaluate rt b ρ
      return (← op x y, ρ)) : SameValue rt base e r := by
  intro σ
  rw [he, hruby]
  apply bind_withRenamed (hl σ)
  intro x σ₁
  apply bind_withRenamed (hr σ₁)
  intro y σ₂
  cases hop : op x y <;> simp [hop, withRenamed]

theorem evaluate_opsCall_two (name : String) (ρ : Store V) :
    Ruby.evaluate rt (opsCall name [a, b]) ρ = do
      let (x, ρ) ← Ruby.evaluate rt a ρ
      let (y, ρ) ← Ruby.evaluate rt b ρ
      return (← Ruby.opsMethod rt name [x, y], ρ) := by
  simp [opsCall, moduleCall, Ruby.Node.invoke, Ruby.Node.constant, Ruby.evaluate, Ruby.evaluateAll,
    Option.bind_assoc]

theorem sameValue_compare (op : Ycp.CompareOp) (hl : SameValue rt base lhs a)
    (hr : SameValue rt base rhs b) :
    SameValue rt base (.compare op lhs rhs) (compareNode op a b) := by
  refine sameValue_of_strict (Ycp.compareValues rt op) hl hr (fun σ => rfl) fun ρ => ?_
  cases op with
  | eq => simp [compareNode, Ruby.evaluate, Ycp.compareValues]
  | ne => simp [compareNode, Ruby.evaluate, Ycp.compareValues]
  | lt => exact evaluate_opsCall_two "less_than" ρ
  | gt => exact evaluate_opsCall_two "greater_than" ρ
  | le => exact evaluate_opsCall_two "less_or_equal" ρ
  | ge => exact evaluate_opsCall_two "greater_or_equal" ρ

theorem sameValue_binary (op : Ycp.BinaryOp) (hl : SameValue rt base lhs a)
    (hr : SameValue rt base rhs b) :
    SameValue rt base (.binary op lhs rhs) (binaryNode op a b) := by
  have hstrict (name : String) (hop : op ≠ .and ∧ op ≠ .or)
      (hmethod : ∀ x y, Ruby.opsMethod rt name [x, y] = rt.binary op x y) :
      SameValue rt base (.binary op lhs rhs) (opsCall name [a, b]) := by
    refine sameValue_of_strict (rt.binary op) hl hr (fun σ => ?_) fun ρ => ?_
    · simp [Ycp.evaluate, hop]
    · rw [evaluate_opsCall_two]
      simp only [hmethod]
  cases op with
  | and =>
    intro σ
    apply bind_withRenamed (hl σ)
    intro x σ₁
    by_cases hx : rt.holds x
    · simpa [hx] using hr σ₁
    · simp [hx, withRenamed]
  | or =>
    intro σ
    apply bind_withRenamed (hl σ)
    intro x σ₁
    by_cases hx : rt.holds x
    · simp [hx, withRenamed]
    · simpa [hx] using hr σ₁
  | add => exact hstrict "add" (by decide) fun _ _ => rfl
  | sub => exact hstrict "subtract" (by decide) fun _ _ => rfl
  | mul => exact hstrict "multiply" (by decide) fun _ _ => rfl
  | div => exact hstrict "divide" (by decide) fun _ _ => rfl
  | mod => exact hstrict "modulo" (by decide) fun _ _ => rfl
  | bitAnd => exact hstrict "bitwise_and" (by decide) fun _ _ => rfl
  | bitOr => exact hstrict "bitwise_or" (by decide) fun _ _ => rfl
  | bitXor => exact hstrict "bitwise_xor" (by decide) fun _ _ => rfl
  | shl => exact hstrict "shift_left" (by decide) fun _ _ => rfl
  | shr => exact hstrict "shift_right" (by decide) fun _ _ => rfl

theorem sameValue_unary (op : Ycp.UnaryOp) (h : SameValue rt base e a) :
    SameValue rt base (.unary op e) (unaryNode op a) := by
  have hops (name : String) (hmethod : ∀ x, Ruby.opsMethod rt name [x] = Ycp.unaryValue rt op x) :
      SameValue rt base (.unary op e) (opsCall name [a]) := by
    intro σ
    have hcall : Ruby.evaluate rt (opsCall name [a]) (renamed base σ) = do
        let (x, ρ) ← Ruby.evaluate rt a (renamed base σ)
        return (← Ycp.unaryValue rt op x, ρ) := by
      simp [opsCall, moduleCall, Ruby.Node.invoke, Ruby.Node.constant, Ruby.evaluate,
        Ruby.evaluateAll, Option.bind_assoc, hmethod]
    rw [hcall]
    apply bind_withRenamed (h σ)
    intro x σ₁
    cases hop : Ycp.unaryValue rt op x <;> simp [hop, withRenamed]
  cases op with
  | not =>
    intro σ
    apply bind_withRenamed (h σ)
    intro x σ₁
    rfl
  | neg => exact hops "unary_minus" fun _ => rfl
  | bitNot => exact hops "bitwise_not" fun _ => rfl

theorem sameValue_ternary {c : Ycp.Node} {rc : Ruby.Node} (hc : SameValue rt base c rc)
    (hl : SameValue rt base lhs a) (hr : SameValue rt base rhs b) :
    SameValue rt base (.ternary c lhs rhs) (.ternary rc a b) := by
  intro σ
  apply bind_withRenamed (hc σ)
  intro x σ₁
  by_cases hx : rt.holds x
  · simpa [hx] using hl σ₁
  · simpa [hx] using hr σ₁

theorem sameValue_assign (name : String) (h : SameValue rt base e a) :
    SameValue rt base (.assign ⟨none, name⟩ e) (.assign (.var (escape name)) a) := by
  intro σ
  apply bind_withRenamed (h σ)
  intro x σ₁
  simp [withRenamed, renamed_update]

end Operators

theorem sameValue_const {type : Ycp.ConstType} {text : Option String} {r : Ruby.Node}
    (htype : type ∈ [.void, .bool, .int, .string]) (h : constant type text = .ok r) :
    SameValue rt base (.const type text) r := by
  have hvalue (v : V) (hr : ∀ ρ, Ruby.evaluate rt r ρ = some (v, ρ))
      (hv : Ycp.constantValue rt type text = some v) :
      SameValue rt base (.const type text) r := by
    intro σ
    simp [Ycp.evaluate, hr, hv, withRenamed]
  cases type with
  | void =>
    obtain rfl : Ruby.Node.nil = r := by simpa [constant] using h
    exact hvalue rt.nil (fun ρ => rfl) rfl
  | bool =>
    cases text with
    | none => simp [constant, invalid] at h
    | some text =>
      simp only [constant, booleanNode] at h
      split at h
      · obtain rfl : Ruby.Node.literal (.bool true) = r := by simpa using h
        exact hvalue (rt.bool true) (fun ρ => rfl) (by simp [Ycp.constantValue, *])
      · split at h
        · obtain rfl : Ruby.Node.literal (.bool false) = r := by simpa using h
          exact hvalue (rt.bool false) (fun ρ => rfl) (by simp [Ycp.constantValue, *])
        · simp [invalid] at h
  | int =>
    cases text with
    | none => simp [constant, invalid] at h
    | some text =>
      simp only [constant, integerNode] at h
      split at h
      · rename_i n hn
        obtain rfl : Ruby.Node.literal (.integer n) = r := by simpa using h
        exact hvalue (rt.integer n) (fun ρ => rfl) (by simp [Ycp.constantValue, hn])
      · simp [invalid] at h
  | string =>
    cases text with
    | none => simp [constant, invalid] at h
    | some text =>
      obtain rfl : Ruby.Node.string text = r := by simpa [constant] using h
      exact hvalue (rt.string text) (fun ρ => rfl) rfl
  | float => simp at htype
  | symbol => simp at htype
  | path => simp at htype

theorem sameValue_of_value {ctx : Context} (hctx : ctx.IsTransparent) {e : Ycp.Node}
    (he : Ycp.PlainExpression e) {r : Ruby.Node} (h : (reading e).value ctx = .ok r) :
    SameValue rt base e r := by
  induction he generalizing r with
  | const htype => exact sameValue_const htype (by simpa [reading, Reading.expression] using h)
  | @var name type =>
    obtain rfl : Ruby.Node.var (escape name) = r := by
      simpa [reading, Reading.expression, variableNode, nameNode, hctx.resolve_eq_escape] using h
    intro σ
    simp [Ruby.evaluate, Ycp.evaluate, withRenamed, renamed_escape]
  | @assign name value _ ih =>
    obtain ⟨v, hv, rfl⟩ := assign_value_eq_ok.mp h
    have htarget : assignmentTarget ctx ⟨none, name⟩ = .var (escape name) := by
      simp [assignmentTarget, referenceValue?, targetNode, nameNode, hctx.lookup?_eq_none,
        hctx.resolve_eq_escape]
    rw [htarget]
    exact sameValue_assign name (ih hv)
  | @compare op lhs rhs _ _ ihl ihr =>
    obtain ⟨a, ha, b, hb, rfl⟩ := compare_value_eq_ok.mp h
    exact sameValue_compare op (ihl ha) (ihr hb)
  | @binary op lhs rhs _ _ ihl ihr =>
    obtain ⟨a, ha, b, hb, rfl⟩ := binary_value_eq_ok.mp h
    exact sameValue_binary op (ihl ha) (ihr hb)
  | @unary op operand _ ih =>
    obtain ⟨a, ha, rfl⟩ := unary_value_eq_ok.mp h
    exact sameValue_unary op (ih ha)
  | @ternary condition thenValue elseValue _ _ _ ihc iht ihe =>
    obtain ⟨c, hc, a, ha, b, hb, rfl⟩ := ternary_value_eq_ok.mp h
    exact sameValue_ternary (ihc hc) (iht ha) (ihe hb)

end YcpToRuby.Meaning
