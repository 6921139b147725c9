import YcpToRuby.Proofs.Meaning.Runtime
import YcpToRuby.Ruby.Node

/-!
# Running Ruby statements

The part of Ruby that conditionals, loops, jumps and operators are generated into. A method of `Ops`
is read as the operator that it stands for. A `case` runs the body of the first clause with an equal
value and no other. A loop over a `begin` runs its body before the first test.
-/

set_option autoImplicit false

namespace YcpToRuby.Ruby

open Meaning (Outcome Runtime Store)

variable {V : Type}

/-! ## Expressions -/

def opsMethod (rt : Runtime V) : String → List V → Option V
  | "less_than", [a, b] => rt.compare .lt a b
  | "greater_than", [a, b] => rt.compare .gt a b
  | "less_or_equal", [a, b] => rt.compare .le a b
  | "greater_or_equal", [a, b] => rt.compare .ge a b
  | "add", [a, b] => rt.binary .add a b
  | "subtract", [a, b] => rt.binary .sub a b
  | "multiply", [a, b] => rt.binary .mul a b
  | "divide", [a, b] => rt.binary .div a b
  | "modulo", [a, b] => rt.binary .mod a b
  | "bitwise_and", [a, b] => rt.binary .bitAnd a b
  | "bitwise_or", [a, b] => rt.binary .bitOr a b
  | "bitwise_xor", [a, b] => rt.binary .bitXor a b
  | "shift_left", [a, b] => rt.binary .shl a b
  | "shift_right", [a, b] => rt.binary .shr a b
  | "unary_minus", [a] => rt.unary .neg a
  | "bitwise_not", [a] => rt.unary .bitNot a
  | _, _ => none

def literalValue (rt : Runtime V) : Literal → Option V
  | .nil => some rt.nil
  | .bool b => some (rt.bool b)
  | .integer n => some (rt.integer n)
  | .string text => some (rt.string text)
  | _ => none

mutual

def evaluate (rt : Runtime V) : Node → Store V → Option (V × Store V)
  | .literal value, ρ => (literalValue rt value).map (·, ρ)
  | .var name, ρ => some (ρ name, ρ)
  | .assign (.var name) value, ρ => do
    let (v, ρ) ← evaluate rt value ρ
    return (v, Function.update ρ name v)
  | .unary .not operand, ρ => do
    let (a, ρ) ← evaluate rt operand ρ
    return (rt.bool !(rt.holds a), ρ)
  | .binary .eq lhs rhs, ρ => do
    let (a, ρ) ← evaluate rt lhs ρ
    let (b, ρ) ← evaluate rt rhs ρ
    return (rt.bool (rt.equal a b), ρ)
  | .binary .ne lhs rhs, ρ => do
    let (a, ρ) ← evaluate rt lhs ρ
    let (b, ρ) ← evaluate rt rhs ρ
    return (rt.bool !(rt.equal a b), ρ)
  | .binary .and lhs rhs, ρ => do
    let (a, ρ) ← evaluate rt lhs ρ
    if rt.holds a then evaluate rt rhs ρ else return (a, ρ)
  | .binary .or lhs rhs, ρ => do
    let (a, ρ) ← evaluate rt lhs ρ
    if rt.holds a then return (a, ρ) else evaluate rt rhs ρ
  | .ternary condition thenValue elseValue, ρ => do
    let (c, ρ) ← evaluate rt condition ρ
    if rt.holds c then evaluate rt thenValue ρ else evaluate rt elseValue ρ
  | .call (some (.const none "Ops")) name args none true, ρ => do
    let (vs, ρ) ← evaluateAll rt args ρ
    return (← opsMethod rt name vs, ρ)
  | _, _ => none

def evaluateAll (rt : Runtime V) : List Node → Store V → Option (List V × Store V)
  | [], ρ => some ([], ρ)
  | node :: rest, ρ => do
    let (v, ρ) ← evaluate rt node ρ
    let (vs, ρ) ← evaluateAll rt rest ρ
    return (v :: vs, ρ)

end

def matchesAny (rt : Runtime V) (v : V) : List Node → Store V → Option (Bool × Store V)
  | [], ρ => some (false, ρ)
  | node :: rest, ρ => do
    let (w, ρ) ← evaluate rt node ρ
    if rt.equal w v then return (true, ρ) else matchesAny rt v rest ρ

def select (rt : Runtime V) (v : V) (elseBody : Option Node) :
    List (List Node × Node) → Store V → Option (Option Node × Store V)
  | [], ρ => some (elseBody, ρ)
  | (values, body) :: rest, ρ => do
    let (found, ρ) ← matchesAny rt v values ρ
    if found then return (some body, ρ) else select rt v elseBody rest ρ

/-! ## Statements -/

def goesOn : LoopKind → Bool → Bool
  | .whileTrue, holds => holds
  | .untilTrue, holds => !holds

def isBegin : Node → Bool
  | .beginEnd _ => true
  | _ => false

inductive Phrase where
  | statement (node : Node)
  | entries (entries : List (Option Node))
  | test (kind : LoopKind) (condition body : Node)
  | pass (kind : LoopKind) (condition body : Node)

inductive Runs (rt : Runtime V) : Phrase → Store V → Outcome V → Store V → Prop
  | expression {e : Node} {v : V} {ρ ρ' : Store V} :
      evaluate rt e ρ = some (v, ρ') → Runs rt (.statement e) ρ .normal ρ'
  | sequence {entries : List (Option Node)} {o : Outcome V} {ρ ρ' : Store V} :
      Runs rt (.entries entries) ρ o ρ' → Runs rt (.statement (.sequence entries)) ρ o ρ'
  | done {ρ : Store V} : Runs rt (.entries []) ρ .normal ρ
  | absent {rest : List (Option Node)} {o : Outcome V} {ρ ρ' : Store V} :
      Runs rt (.entries rest) ρ o ρ' → Runs rt (.entries (none :: rest)) ρ o ρ'
  | next {s : Node} {rest : List (Option Node)} {o : Outcome V} {ρ ρ₁ ρ' : Store V} :
      Runs rt (.statement s) ρ .normal ρ₁ → Runs rt (.entries rest) ρ₁ o ρ' →
      Runs rt (.entries (some s :: rest)) ρ o ρ'
  | exit {s : Node} {rest : List (Option Node)} {o : Outcome V} {ρ ρ' : Store V} :
      Runs rt (.statement s) ρ o ρ' → o ≠ .normal → Runs rt (.entries (some s :: rest)) ρ o ρ'
  | ifTrue {condition thenBody : Node} {elseBody : Option Node} {v : V} {o : Outcome V}
      {ρ ρ₁ ρ' : Store V} :
      evaluate rt condition ρ = some (v, ρ₁) → rt.holds v = true →
      Runs rt (.statement thenBody) ρ₁ o ρ' →
      Runs rt (.statement (.ifElse condition thenBody elseBody)) ρ o ρ'
  | ifFalse {condition thenBody : Node} {elseBody : Option Node} {v : V} {o : Outcome V}
      {ρ ρ₁ ρ' : Store V} :
      evaluate rt condition ρ = some (v, ρ₁) → rt.holds v = false →
      Runs rt (.entries [elseBody]) ρ₁ o ρ' →
      Runs rt (.statement (.ifElse condition thenBody elseBody)) ρ o ρ'
  | unlessFalse {condition thenBody : Node} {elseBody : Option Node} {v : V} {o : Outcome V}
      {ρ ρ₁ ρ' : Store V} :
      evaluate rt condition ρ = some (v, ρ₁) → rt.holds v = false →
      Runs rt (.statement thenBody) ρ₁ o ρ' →
      Runs rt (.statement (.unlessElse condition thenBody elseBody)) ρ o ρ'
  | unlessTrue {condition thenBody : Node} {elseBody : Option Node} {v : V} {o : Outcome V}
      {ρ ρ₁ ρ' : Store V} :
      evaluate rt condition ρ = some (v, ρ₁) → rt.holds v = true →
      Runs rt (.entries [elseBody]) ρ₁ o ρ' →
      Runs rt (.statement (.unlessElse condition thenBody elseBody)) ρ o ρ'
  | caseWhen {subject : Node} {clauses : List (List Node × Node)} {elseBody body : Option Node}
      {v : V} {o : Outcome V} {ρ ρ₁ ρ₂ ρ' : Store V} :
      evaluate rt subject ρ = some (v, ρ₁) → select rt v elseBody clauses ρ₁ = some (body, ρ₂) →
      Runs rt (.entries [body]) ρ₂ o ρ' →
      Runs rt (.statement (.caseWhen subject clauses elseBody)) ρ o ρ'
  | testFirst {kind : LoopKind} {condition body : Node} {o : Outcome V} {ρ ρ' : Store V} :
      isBegin body = false → Runs rt (.test kind condition body) ρ o ρ' →
      Runs rt (.statement (.loop kind condition body)) ρ o ρ'
  | bodyFirst {kind : LoopKind} {condition body : Node} {o : Outcome V} {ρ ρ' : Store V} :
      Runs rt (.pass kind condition body) ρ o ρ' →
      Runs rt (.statement (.loop kind condition (.beginEnd body))) ρ o ρ'
  | stop {kind : LoopKind} {condition body : Node} {v : V} {ρ ρ' : Store V} :
      evaluate rt condition ρ = some (v, ρ') → goesOn kind (rt.holds v) = false →
      Runs rt (.test kind condition body) ρ .normal ρ'
  | again {kind : LoopKind} {condition body : Node} {v : V} {o : Outcome V} {ρ ρ₁ ρ' : Store V} :
      evaluate rt condition ρ = some (v, ρ₁) → goesOn kind (rt.holds v) = true →
      Runs rt (.pass kind condition body) ρ₁ o ρ' → Runs rt (.test kind condition body) ρ o ρ'
  | latch {kind : LoopKind} {condition body : Node} {o o' : Outcome V} {ρ ρ₁ ρ' : Store V} :
      Runs rt (.statement body) ρ o ρ₁ → o.reachesTest = true →
      Runs rt (.test kind condition body) ρ₁ o' ρ' → Runs rt (.pass kind condition body) ρ o' ρ'
  | breakOut {kind : LoopKind} {condition body : Node} {ρ ρ' : Store V} :
      Runs rt (.statement body) ρ .broken ρ' → Runs rt (.pass kind condition body) ρ .normal ρ'
  | returnOut {kind : LoopKind} {condition body : Node} {v : V} {ρ ρ' : Store V} :
      Runs rt (.statement body) ρ (.returned v) ρ' →
      Runs rt (.pass kind condition body) ρ (.returned v) ρ'
  | breakLoop {ρ : Store V} : Runs rt (.statement .breakLoop) ρ .broken ρ
  | nextLoop {ρ : Store V} : Runs rt (.statement (.next none)) ρ .continued ρ
  | ret {ρ : Store V} : Runs rt (.statement (.ret none)) ρ (.returned rt.nil) ρ
  | retValue {e : Node} {v : V} {ρ ρ' : Store V} :
      evaluate rt e ρ = some (v, ρ') → Runs rt (.statement (.ret (some e))) ρ (.returned v) ρ'

/-! ## What a run says -/

variable {rt : Runtime V} {ρ ρ' : Store V} {o : Outcome V}

theorem runs_nil : Runs rt (.entries []) ρ o ρ' ↔ o = .normal ∧ ρ' = ρ := by
  constructor
  · intro h
    cases h
    exact ⟨rfl, rfl⟩
  · rintro ⟨rfl, rfl⟩
    exact .done

theorem runs_none {rest : List (Option Node)} :
    Runs rt (.entries (none :: rest)) ρ o ρ' ↔ Runs rt (.entries rest) ρ o ρ' := by
  constructor
  · intro h
    cases h with
    | absent h => exact h
  · exact .absent

theorem runs_some {s : Node} {rest : List (Option Node)} :
    Runs rt (.entries (some s :: rest)) ρ o ρ' ↔
      (∃ ρ₁, Runs rt (.statement s) ρ .normal ρ₁ ∧ Runs rt (.entries rest) ρ₁ o ρ') ∨
        Runs rt (.statement s) ρ o ρ' ∧ o ≠ .normal := by
  constructor
  · intro h
    cases h with
    | next hs hrest => exact Or.inl ⟨_, hs, hrest⟩
    | exit hs ho => exact Or.inr ⟨hs, ho⟩
  · rintro (⟨ρ₁, hs, hrest⟩ | ⟨hs, ho⟩)
    · exact .next hs hrest
    · exact .exit hs ho

theorem runs_singleton {s : Node} :
    Runs rt (.entries [some s]) ρ o ρ' ↔ Runs rt (.statement s) ρ o ρ' := by
  rw [runs_some]
  constructor
  · rintro (⟨ρ₁, hs, hrest⟩ | ⟨hs, -⟩)
    · obtain ⟨rfl, rfl⟩ := runs_nil.mp hrest
      exact hs
    · exact hs
  · intro hs
    by_cases ho : o = .normal
    · subst ho
      exact Or.inl ⟨ρ', hs, .done⟩
    · exact Or.inr ⟨hs, ho⟩

theorem runs_append {first rest : List (Option Node)} :
    Runs rt (.entries (first ++ rest)) ρ o ρ' ↔
      (∃ ρ₁, Runs rt (.entries first) ρ .normal ρ₁ ∧ Runs rt (.entries rest) ρ₁ o ρ') ∨
        Runs rt (.entries first) ρ o ρ' ∧ o ≠ .normal := by
  induction first generalizing ρ with
  | nil =>
    rw [List.nil_append]
    constructor
    · intro h
      exact Or.inl ⟨ρ, .done, h⟩
    · rintro (⟨ρ₁, hnil, h⟩ | ⟨hnil, ho⟩)
      · obtain ⟨-, rfl⟩ := runs_nil.mp hnil
        exact h
      · exact absurd (runs_nil.mp hnil).1 ho
  | cons entry first ih =>
    cases entry with
    | none => simpa only [List.cons_append, runs_none] using ih
    | some s =>
      rw [List.cons_append, runs_some]
      constructor
      · rintro (⟨ρ₁, hs, h⟩ | ⟨hs, ho⟩)
        · rcases ih.mp h with ⟨ρ₂, hfirst, hrest⟩ | ⟨hfirst, ho⟩
          · exact Or.inl ⟨ρ₂, .next hs hfirst, hrest⟩
          · exact Or.inr ⟨.next hs hfirst, ho⟩
        · exact Or.inr ⟨.exit hs ho, ho⟩
      · rintro (⟨ρ₂, h, hrest⟩ | ⟨h, ho⟩)
        · rcases runs_some.mp h with ⟨ρ₁, hs, hfirst⟩ | ⟨-, hn⟩
          · exact Or.inl ⟨ρ₁, hs, ih.mpr (Or.inl ⟨ρ₂, hfirst, hrest⟩)⟩
          · exact absurd rfl hn
        · rcases runs_some.mp h with ⟨ρ₁, hs, hfirst⟩ | ⟨hs, -⟩
          · exact Or.inl ⟨ρ₁, hs, ih.mpr (Or.inr ⟨hfirst, ho⟩)⟩
          · exact Or.inr ⟨hs, ho⟩

def isValue : Node → Bool
  | .literal _ | .var _ | .assign .. | .unary .. | .binary .. | .ternary .. | .call .. => true
  | _ => false

theorem runs_value {r : Node} (hr : isValue r = true) :
    Runs rt (.statement r) ρ o ρ' ↔ o = .normal ∧ ∃ v, evaluate rt r ρ = some (v, ρ') := by
  constructor
  · intro h
    cases h with
    | expression he => exact ⟨rfl, _, he⟩
    | _ => simp [isValue] at hr
  · rintro ⟨rfl, v, he⟩
    exact .expression he

attribute [local simp] evaluate isBegin

theorem runs_sequence {entries : List (Option Node)} :
    Runs rt (.statement (.sequence entries)) ρ o ρ' ↔ Runs rt (.entries entries) ρ o ρ' := by
  constructor
  · intro h
    cases h with
    | expression he => simp at he
    | sequence h => exact h
  · exact .sequence

theorem runs_ifElse {condition thenBody : Node} {elseBody : Option Node} :
    Runs rt (.statement (.ifElse condition thenBody elseBody)) ρ o ρ' ↔
      ∃ v ρ₁, evaluate rt condition ρ = some (v, ρ₁) ∧
        Runs rt (.entries [if rt.holds v then some thenBody else elseBody]) ρ₁ o ρ' := by
  constructor
  · intro h
    cases h with
    | expression he => simp at he
    | ifTrue hc hv h => exact ⟨_, _, hc, by simpa [hv] using runs_singleton.mpr h⟩
    | ifFalse hc hv h => exact ⟨_, _, hc, by simpa [hv] using h⟩
  · rintro ⟨v, ρ₁, hc, h⟩
    cases hv : rt.holds v with
    | true => exact .ifTrue hc hv (runs_singleton.mp (by simpa [hv] using h))
    | false => exact .ifFalse hc hv (by simpa [hv] using h)

theorem runs_unlessElse {condition thenBody : Node} {elseBody : Option Node} :
    Runs rt (.statement (.unlessElse condition thenBody elseBody)) ρ o ρ' ↔
      ∃ v ρ₁, evaluate rt condition ρ = some (v, ρ₁) ∧
        Runs rt (.entries [if rt.holds v then elseBody else some thenBody]) ρ₁ o ρ' := by
  constructor
  · intro h
    cases h with
    | expression he => simp at he
    | unlessFalse hc hv h => exact ⟨_, _, hc, by simpa [hv] using runs_singleton.mpr h⟩
    | unlessTrue hc hv h => exact ⟨_, _, hc, by simpa [hv] using h⟩
  · rintro ⟨v, ρ₁, hc, h⟩
    cases hv : rt.holds v with
    | true => exact .unlessTrue hc hv (by simpa [hv] using h)
    | false => exact .unlessFalse hc hv (runs_singleton.mp (by simpa [hv] using h))

theorem runs_caseWhen {subject : Node} {clauses : List (List Node × Node)}
    {elseBody : Option Node} :
    Runs rt (.statement (.caseWhen subject clauses elseBody)) ρ o ρ' ↔
      ∃ v ρ₁, evaluate rt subject ρ = some (v, ρ₁) ∧
        ∃ body ρ₂, select rt v elseBody clauses ρ₁ = some (body, ρ₂) ∧
          Runs rt (.entries [body]) ρ₂ o ρ' := by
  constructor
  · intro h
    cases h with
    | expression he => simp at he
    | caseWhen hs hb h => exact ⟨_, _, hs, _, _, hb, h⟩
  · rintro ⟨v, ρ₁, hs, body, ρ₂, hb, h⟩
    exact .caseWhen hs hb h

theorem runs_loop_begin {kind : LoopKind} {condition body : Node} :
    Runs rt (.statement (.loop kind condition (.beginEnd body))) ρ o ρ' ↔
      Runs rt (.pass kind condition body) ρ o ρ' := by
  constructor
  · intro h
    cases h with
    | expression he => simp at he
    | testFirst hb _ => simp at hb
    | bodyFirst h => exact h
  · exact .bodyFirst

theorem runs_loop_test {kind : LoopKind} {condition body : Node} (hb : isBegin body = false) :
    Runs rt (.statement (.loop kind condition body)) ρ o ρ' ↔
      Runs rt (.test kind condition body) ρ o ρ' := by
  constructor
  · intro h
    cases h with
    | expression he => simp at he
    | testFirst _ h => exact h
    | bodyFirst _ => simp at hb
  · exact .testFirst hb

theorem runs_breakLoop : Runs rt (.statement .breakLoop) ρ o ρ' ↔ o = .broken ∧ ρ' = ρ := by
  constructor
  · intro h
    cases h with
    | expression he => simp at he
    | breakLoop => exact ⟨rfl, rfl⟩
  · rintro ⟨rfl, rfl⟩
    exact .breakLoop

theorem runs_next : Runs rt (.statement (.next none)) ρ o ρ' ↔ o = .continued ∧ ρ' = ρ := by
  constructor
  · intro h
    cases h with
    | expression he => simp at he
    | nextLoop => exact ⟨rfl, rfl⟩
  · rintro ⟨rfl, rfl⟩
    exact .nextLoop

theorem runs_ret : Runs rt (.statement (.ret none)) ρ o ρ' ↔ o = .returned rt.nil ∧ ρ' = ρ := by
  constructor
  · intro h
    cases h with
    | expression he => simp at he
    | ret => exact ⟨rfl, rfl⟩
  · rintro ⟨rfl, rfl⟩
    exact .ret

theorem runs_retValue {e : Node} :
    Runs rt (.statement (.ret (some e))) ρ o ρ' ↔
      ∃ v, evaluate rt e ρ = some (v, ρ') ∧ o = .returned v := by
  constructor
  · intro h
    cases h with
    | expression he => simp at he
    | retValue he => exact ⟨_, he, rfl⟩
  · rintro ⟨v, he, rfl⟩
    exact .retValue he

end YcpToRuby.Ruby
