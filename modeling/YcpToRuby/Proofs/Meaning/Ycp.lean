import YcpToRuby.Number.Digits
import YcpToRuby.Proofs.Meaning.Runtime
import YcpToRuby.Ycp.Node

/-!
# Running YCP statements

Expressions are evaluated from the left, and assignments among them change the store. Statements
have a big-step semantics. A `break` ends the innermost loop or switch; a clause of a switch that
ends normally falls through to the next one, and the default clause comes last.
-/

set_option autoImplicit false

namespace YcpToRuby.Ycp

open Meaning (Outcome Runtime Store)

variable {V : Type}

/-! ## Expressions -/

def constantValue (rt : Runtime V) : ConstType → Option String → Option V
  | .void, _ => some rt.nil
  | .bool, some text =>
    if text = "true" then some (rt.bool true)
    else if text = "false" then some (rt.bool false)
    else none
  | .int, some text => (Number.signed64? text).map rt.integer
  | .string, some text => some (rt.string text)
  | _, _ => none

def compareValues (rt : Runtime V) : CompareOp → V → V → Option V
  | .eq, a, b => some (rt.bool (rt.equal a b))
  | .ne, a, b => some (rt.bool !(rt.equal a b))
  | op, a, b => rt.compare op a b

def unaryValue (rt : Runtime V) : UnaryOp → V → Option V
  | .not, a => some (rt.bool !(rt.holds a))
  | op, a => rt.unary op a

def evaluate (rt : Runtime V) : Node → Store V → Option (V × Store V)
  | .const type value, σ => (constantValue rt type value).map (·, σ)
  | .var ⟨⟨none, name⟩, .var, _⟩, σ => some (σ name, σ)
  | .assign ⟨none, name⟩ value, σ => do
    let (v, σ) ← evaluate rt value σ
    return (v, Function.update σ name v)
  | .compare op lhs rhs, σ => do
    let (a, σ) ← evaluate rt lhs σ
    let (b, σ) ← evaluate rt rhs σ
    return (← compareValues rt op a b, σ)
  | .binary .and lhs rhs, σ => do
    let (a, σ) ← evaluate rt lhs σ
    if rt.holds a then evaluate rt rhs σ else return (a, σ)
  | .binary .or lhs rhs, σ => do
    let (a, σ) ← evaluate rt lhs σ
    if rt.holds a then return (a, σ) else evaluate rt rhs σ
  | .binary op lhs rhs, σ => do
    let (a, σ) ← evaluate rt lhs σ
    let (b, σ) ← evaluate rt rhs σ
    return (← rt.binary op a b, σ)
  | .unary op operand, σ => do
    let (a, σ) ← evaluate rt operand σ
    return (← unaryValue rt op a, σ)
  | .ternary condition thenValue elseValue, σ => do
    let (c, σ) ← evaluate rt condition σ
    if rt.holds c then evaluate rt thenValue σ else evaluate rt elseValue σ
  | _, _ => none

def select (rt : Runtime V) (v : V) (default : Option Block) :
    List (Node × Block) → Store V → Option (List (List Node) × Store V)
  | [], σ => some (default.toList.map Block.statements, σ)
  | (value, body) :: rest, σ => do
    let (w, σ) ← evaluate rt value σ
    if rt.equal w v then
      return (body.statements :: (rest.map Prod.snd ++ default.toList).map Block.statements, σ)
    else select rt v default rest σ

/-! ## Statements -/

def goesOn : LoopKind → Bool → Bool
  | .whileTrue, holds | .doWhile, holds => holds
  | .repeatUntil, holds => !holds

inductive Phrase where
  | statement (node : Node)
  | statements (nodes : List Node)
  | clauses (bodies : List (List Node))
  | test (kind : LoopKind) (condition body : Node)
  | pass (kind : LoopKind) (condition body : Node)

inductive Runs (rt : Runtime V) : Phrase → Store V → Outcome V → Store V → Prop
  | expression {e : Node} {v : V} {σ σ' : Store V} :
      evaluate rt e σ = some (v, σ') → Runs rt (.statement e) σ .normal σ'
  | block {info : BlockInfo} {body : List Node} {o : Outcome V} {σ σ' : Store V} :
      info.kind = .stmt → Runs rt (.statements body) σ o σ' →
      Runs rt (.statement (.block (.mk info body))) σ o σ'
  | done {σ : Store V} : Runs rt (.statements []) σ .normal σ
  | next {s : Node} {rest : List Node} {o : Outcome V} {σ σ₁ σ' : Store V} :
      Runs rt (.statement s) σ .normal σ₁ → Runs rt (.statements rest) σ₁ o σ' →
      Runs rt (.statements (s :: rest)) σ o σ'
  | exit {s : Node} {rest : List Node} {o : Outcome V} {σ σ' : Store V} :
      Runs rt (.statement s) σ o σ' → o ≠ .normal → Runs rt (.statements (s :: rest)) σ o σ'
  | ifTrue {condition : Node} {thenBody elseBody : Option Node} {v : V} {o : Outcome V}
      {σ σ₁ σ' : Store V} :
      evaluate rt condition σ = some (v, σ₁) → rt.holds v = true →
      Runs rt (.statements thenBody.toList) σ₁ o σ' →
      Runs rt (.statement (.ifElse condition thenBody elseBody)) σ o σ'
  | ifFalse {condition : Node} {thenBody elseBody : Option Node} {v : V} {o : Outcome V}
      {σ σ₁ σ' : Store V} :
      evaluate rt condition σ = some (v, σ₁) → rt.holds v = false →
      Runs rt (.statements elseBody.toList) σ₁ o σ' →
      Runs rt (.statement (.ifElse condition thenBody elseBody)) σ o σ'
  | whileLoop {condition body : Node} {o : Outcome V} {σ σ' : Store V} :
      Runs rt (.test .whileTrue condition body) σ o σ' →
      Runs rt (.statement (.loop .whileTrue condition body)) σ o σ'
  | bodyFirst {kind : LoopKind} {condition body : Node} {o : Outcome V} {σ σ' : Store V} :
      kind ≠ .whileTrue → Runs rt (.pass kind condition body) σ o σ' →
      Runs rt (.statement (.loop kind condition body)) σ o σ'
  | stop {kind : LoopKind} {condition body : Node} {v : V} {σ σ' : Store V} :
      evaluate rt condition σ = some (v, σ') → goesOn kind (rt.holds v) = false →
      Runs rt (.test kind condition body) σ .normal σ'
  | again {kind : LoopKind} {condition body : Node} {v : V} {o : Outcome V} {σ σ₁ σ' : Store V} :
      evaluate rt condition σ = some (v, σ₁) → goesOn kind (rt.holds v) = true →
      Runs rt (.pass kind condition body) σ₁ o σ' → Runs rt (.test kind condition body) σ o σ'
  | latch {kind : LoopKind} {condition body : Node} {o o' : Outcome V} {σ σ₁ σ' : Store V} :
      Runs rt (.statement body) σ o σ₁ → o.reachesTest = true →
      Runs rt (.test kind condition body) σ₁ o' σ' → Runs rt (.pass kind condition body) σ o' σ'
  | breakOut {kind : LoopKind} {condition body : Node} {σ σ' : Store V} :
      Runs rt (.statement body) σ .broken σ' → Runs rt (.pass kind condition body) σ .normal σ'
  | returnOut {kind : LoopKind} {condition body : Node} {v : V} {σ σ' : Store V} :
      Runs rt (.statement body) σ (.returned v) σ' →
      Runs rt (.pass kind condition body) σ (.returned v) σ'
  | breakLoop {σ : Store V} : Runs rt (.statement .breakLoop) σ .broken σ
  | continueLoop {σ : Store V} : Runs rt (.statement .continueLoop) σ .continued σ
  | ret {σ : Store V} : Runs rt (.statement (.ret none)) σ (.returned rt.nil) σ
  | retValue {e : Node} {v : V} {σ σ' : Store V} :
      evaluate rt e σ = some (v, σ') → Runs rt (.statement (.ret (some e))) σ (.returned v) σ'
  | switch {condition : Node} {cases : List (Node × Block)} {default : Option Block} {v : V}
      {bodies : List (List Node)} {o : Outcome V} {σ σ₁ σ₂ σ' : Store V} :
      evaluate rt condition σ = some (v, σ₁) → select rt v default cases σ₁ = some (bodies, σ₂) →
      Runs rt (.clauses bodies) σ₂ o σ' →
      Runs rt (.statement (.switch condition cases default)) σ o σ'
  | noClause {σ : Store V} : Runs rt (.clauses []) σ .normal σ
  | fallThrough {body : List Node} {rest : List (List Node)} {o : Outcome V} {σ σ₁ σ' : Store V} :
      Runs rt (.statements body) σ .normal σ₁ → Runs rt (.clauses rest) σ₁ o σ' →
      Runs rt (.clauses (body :: rest)) σ o σ'
  | breakClause {body : List Node} {rest : List (List Node)} {σ σ' : Store V} :
      Runs rt (.statements body) σ .broken σ' → Runs rt (.clauses (body :: rest)) σ .normal σ'
  | exitClause {body : List Node} {rest : List (List Node)} {o : Outcome V} {σ σ' : Store V} :
      Runs rt (.statements body) σ o σ' → o ≠ .normal → o ≠ .broken →
      Runs rt (.clauses (body :: rest)) σ o σ'

/-! ## What a run says -/

variable {rt : Runtime V} {σ σ' : Store V} {o : Outcome V}

attribute [local simp] evaluate

theorem runs_nil : Runs rt (.statements []) σ o σ' ↔ o = .normal ∧ σ' = σ := by
  constructor
  · intro h
    cases h
    exact ⟨rfl, rfl⟩
  · rintro ⟨rfl, rfl⟩
    exact .done

theorem runs_noClause : Runs rt (.clauses []) σ o σ' ↔ o = .normal ∧ σ' = σ := by
  constructor
  · intro h
    cases h
    exact ⟨rfl, rfl⟩
  · rintro ⟨rfl, rfl⟩
    exact .noClause

theorem runs_cons {s : Node} {rest : List Node} :
    Runs rt (.statements (s :: rest)) σ o σ' ↔
      (∃ σ₁, Runs rt (.statement s) σ .normal σ₁ ∧ Runs rt (.statements rest) σ₁ o σ') ∨
        Runs rt (.statement s) σ o σ' ∧ o ≠ .normal := by
  constructor
  · intro h
    cases h with
    | next hs hrest => exact Or.inl ⟨_, hs, hrest⟩
    | exit hs ho => exact Or.inr ⟨hs, ho⟩
  · rintro (⟨σ₁, hs, hrest⟩ | ⟨hs, ho⟩)
    · exact .next hs hrest
    · exact .exit hs ho

theorem runs_singleton {s : Node} :
    Runs rt (.statements [s]) σ o σ' ↔ Runs rt (.statement s) σ o σ' := by
  rw [runs_cons]
  constructor
  · rintro (⟨σ₁, hs, hrest⟩ | ⟨hs, -⟩)
    · obtain ⟨rfl, rfl⟩ := runs_nil.mp hrest
      exact hs
    · exact hs
  · intro hs
    by_cases ho : o = .normal
    · subst ho
      exact Or.inl ⟨σ', hs, .done⟩
    · exact Or.inr ⟨hs, ho⟩

theorem runs_append {first rest : List Node} :
    Runs rt (.statements (first ++ rest)) σ o σ' ↔
      (∃ σ₁, Runs rt (.statements first) σ .normal σ₁ ∧ Runs rt (.statements rest) σ₁ o σ') ∨
        Runs rt (.statements first) σ o σ' ∧ o ≠ .normal := by
  induction first generalizing σ with
  | nil =>
    rw [List.nil_append]
    constructor
    · intro h
      exact Or.inl ⟨σ, .done, h⟩
    · rintro (⟨σ₁, hnil, h⟩ | ⟨hnil, ho⟩)
      · obtain ⟨-, rfl⟩ := runs_nil.mp hnil
        exact h
      · exact absurd (runs_nil.mp hnil).1 ho
  | cons s first ih =>
    rw [List.cons_append, runs_cons]
    constructor
    · rintro (⟨σ₁, hs, h⟩ | ⟨hs, ho⟩)
      · rcases ih.mp h with ⟨σ₂, hfirst, hrest⟩ | ⟨hfirst, ho⟩
        · exact Or.inl ⟨σ₂, .next hs hfirst, hrest⟩
        · exact Or.inr ⟨.next hs hfirst, ho⟩
      · exact Or.inr ⟨.exit hs ho, ho⟩
    · rintro (⟨σ₂, h, hrest⟩ | ⟨h, ho⟩)
      · rcases runs_cons.mp h with ⟨σ₁, hs, hfirst⟩ | ⟨-, hn⟩
        · exact Or.inl ⟨σ₁, hs, ih.mpr (Or.inl ⟨σ₂, hfirst, hrest⟩)⟩
        · exact absurd rfl hn
      · rcases runs_cons.mp h with ⟨σ₁, hs, hfirst⟩ | ⟨hs, -⟩
        · exact Or.inl ⟨σ₁, hs, ih.mpr (Or.inr ⟨hfirst, ho⟩)⟩
        · exact Or.inr ⟨hs, ho⟩

theorem runs_block {info : BlockInfo} {body : List Node} (hkind : info.kind = .stmt) :
    Runs rt (.statement (.block (.mk info body))) σ o σ' ↔ Runs rt (.statements body) σ o σ' := by
  constructor
  · intro h
    cases h with
    | expression he => simp at he
    | block _ h => exact h
  · exact .block hkind

theorem runs_ifElse {condition : Node} {thenBody elseBody : Option Node} :
    Runs rt (.statement (.ifElse condition thenBody elseBody)) σ o σ' ↔
      ∃ v σ₁, evaluate rt condition σ = some (v, σ₁) ∧
        Runs rt (.statements (if rt.holds v then thenBody else elseBody).toList) σ₁ o σ' := by
  constructor
  · intro h
    cases h with
    | expression he => simp at he
    | ifTrue hc hv h => exact ⟨_, _, hc, by simpa [hv] using h⟩
    | ifFalse hc hv h => exact ⟨_, _, hc, by simpa [hv] using h⟩
  · rintro ⟨v, σ₁, hc, h⟩
    cases hv : rt.holds v with
    | true => exact .ifTrue hc hv (by simpa [hv] using h)
    | false => exact .ifFalse hc hv (by simpa [hv] using h)

def loopStart (kind : LoopKind) (condition body : Node) : Phrase :=
  match kind with
  | .whileTrue => .test kind condition body
  | .doWhile | .repeatUntil => .pass kind condition body

theorem runs_loop {kind : LoopKind} {condition body : Node} :
    Runs rt (.statement (.loop kind condition body)) σ o σ' ↔
      Runs rt (loopStart kind condition body) σ o σ' := by
  constructor
  · intro h
    cases h with
    | expression he => simp at he
    | whileLoop h => exact h
    | bodyFirst hkind h => cases kind with
      | whileTrue => exact absurd rfl hkind
      | doWhile => exact h
      | repeatUntil => exact h
  · intro h
    cases kind with
    | whileTrue => exact .whileLoop h
    | doWhile => exact .bodyFirst (by decide) h
    | repeatUntil => exact .bodyFirst (by decide) h

theorem runs_breakLoop : Runs rt (.statement .breakLoop) σ o σ' ↔ o = .broken ∧ σ' = σ := by
  constructor
  · intro h
    cases h with
    | expression he => simp at he
    | breakLoop => exact ⟨rfl, rfl⟩
  · rintro ⟨rfl, rfl⟩
    exact .breakLoop

theorem runs_continueLoop :
    Runs rt (.statement .continueLoop) σ o σ' ↔ o = .continued ∧ σ' = σ := by
  constructor
  · intro h
    cases h with
    | expression he => simp at he
    | continueLoop => exact ⟨rfl, rfl⟩
  · rintro ⟨rfl, rfl⟩
    exact .continueLoop

theorem runs_ret : Runs rt (.statement (.ret none)) σ o σ' ↔ o = .returned rt.nil ∧ σ' = σ := by
  constructor
  · intro h
    cases h with
    | expression he => simp at he
    | ret => exact ⟨rfl, rfl⟩
  · rintro ⟨rfl, rfl⟩
    exact .ret

theorem runs_retValue {e : Node} :
    Runs rt (.statement (.ret (some e))) σ o σ' ↔
      ∃ v, evaluate rt e σ = some (v, σ') ∧ o = .returned v := by
  constructor
  · intro h
    cases h with
    | expression he => simp at he
    | retValue he => exact ⟨_, he, rfl⟩
  · rintro ⟨v, he, rfl⟩
    exact .retValue he

theorem runs_switch {condition : Node} {cases : List (Node × Block)} {default : Option Block} :
    Runs rt (.statement (.switch condition cases default)) σ o σ' ↔
      ∃ v σ₁, evaluate rt condition σ = some (v, σ₁) ∧
        ∃ bodies σ₂, select rt v default cases σ₁ = some (bodies, σ₂) ∧
          Runs rt (.clauses bodies) σ₂ o σ' := by
  constructor
  · intro h
    cases h with
    | expression he => simp at he
    | switch hc hs h => exact ⟨_, _, hc, _, _, hs, h⟩
  · rintro ⟨v, σ₁, hc, bodies, σ₂, hs, h⟩
    exact .switch hc hs h

/-! ## Breaks do not leave what they end -/

def Phrase.catchesBreak : Phrase → Bool
  | .clauses _ | .test .. | .pass .. => true
  | .statement _ | .statements _ => false

theorem Runs.ne_broken {p : Phrase} (h : Runs rt p σ o σ') (hp : p.catchesBreak = true) :
    o ≠ .broken := by
  induction h with
  | stop => simp
  | again _ _ _ ih => exact ih rfl
  | latch _ _ _ _ ih => exact ih rfl
  | breakOut => simp
  | returnOut => simp
  | noClause => simp
  | fallThrough _ _ _ ih => exact ih rfl
  | breakClause => simp
  | exitClause _ _ hbroken => exact hbroken
  | _ => simp [Phrase.catchesBreak] at hp

/-! ## Clauses that do not fall through -/

variable {body : List Node} {rest : List (List Node)}

def NeverBreaks (rt : Runtime V) (body : List Node) : Prop :=
  ∀ σ σ', ¬ Runs rt (.statements body) σ .broken σ'

theorem runs_last_clause (hb : NeverBreaks rt body) :
    Runs rt (.clauses [body]) σ o σ' ↔ Runs rt (.statements body) σ o σ' := by
  constructor
  · intro h
    cases h with
    | fallThrough h hrest =>
      cases hrest
      exact h
    | breakClause h => exact absurd h (hb _ _)
    | exitClause h _ _ => exact h
  · intro h
    by_cases ho : o = .normal
    · subst ho
      exact .fallThrough h .noClause
    · refine .exitClause h ho ?_
      rintro rfl
      exact hb _ _ h

theorem runs_clause_of_break (hb : NeverBreaks rt body) :
    Runs rt (.clauses ((body ++ [.breakLoop]) :: rest)) σ o σ' ↔
      Runs rt (.statements body) σ o σ' := by
  have hall {o : Outcome V} {σ' : Store V} :
      Runs rt (.statements (body ++ [.breakLoop])) σ o σ' ↔
        o = .broken ∧ Runs rt (.statements body) σ .normal σ' ∨
          o ≠ .normal ∧ Runs rt (.statements body) σ o σ' := by
    rw [runs_append]
    simp only [runs_singleton, runs_breakLoop]
    constructor
    · rintro (⟨σ₁, h, rfl, rfl⟩ | ⟨h, ho⟩)
      · exact Or.inl ⟨rfl, h⟩
      · exact Or.inr ⟨ho, h⟩
    · rintro (⟨rfl, h⟩ | ⟨ho, h⟩)
      · exact Or.inl ⟨σ', h, rfl, rfl⟩
      · exact Or.inr ⟨h, ho⟩
  constructor
  · intro h
    cases h with
    | fallThrough h _ =>
      rcases hall.mp h with ⟨ho, -⟩ | ⟨ho, -⟩
      · cases ho
      · exact absurd rfl ho
    | breakClause h =>
      rcases hall.mp h with ⟨-, h⟩ | ⟨-, h⟩
      · exact h
      · exact absurd h (hb _ _)
    | exitClause h _ hbroken =>
      rcases hall.mp h with ⟨ho, -⟩ | ⟨-, h⟩
      · exact absurd ho hbroken
      · exact h
  · intro h
    by_cases ho : o = .normal
    · subst ho
      exact .breakClause (hall.mpr (Or.inl ⟨rfl, h⟩))
    · refine .exitClause (hall.mpr (Or.inr ⟨ho, h⟩)) ho ?_
      rintro rfl
      exact hb _ _ h

theorem runs_clause_of_return {value : Option Node}
    (hb : NeverBreaks rt (body ++ [.ret value])) :
    Runs rt (.clauses ((body ++ [.ret value]) :: rest)) σ o σ' ↔
      Runs rt (.statements (body ++ [.ret value])) σ o σ' := by
  have hreturns {o : Outcome V} {σ σ' : Store V} (h : Runs rt (.statement (.ret value)) σ o σ') :
      o ≠ .normal := by
    cases value with
    | none => simp [(runs_ret.mp h).1]
    | some e =>
      obtain ⟨v, -, rfl⟩ := runs_retValue.mp h
      simp
  have hnever {o : Outcome V} {σ' : Store V}
      (h : Runs rt (.statements (body ++ [.ret value])) σ o σ') : o ≠ .normal := by
    rcases runs_append.mp h with ⟨σ₁, -, h⟩ | ⟨-, ho⟩
    · exact hreturns (runs_singleton.mp h)
    · exact ho
  constructor
  · intro h
    cases h with
    | fallThrough h _ => exact absurd rfl (hnever h)
    | breakClause h => exact absurd h (hb _ _)
    | exitClause h _ _ => exact h
  · intro h
    refine .exitClause h (hnever h) ?_
    rintro rfl
    exact hb _ _ h

end YcpToRuby.Ycp
