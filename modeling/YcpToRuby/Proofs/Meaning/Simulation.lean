import YcpToRuby.Proofs.Meaning.Expression

/-!
# Phrases that run alike

A generated phrase simulates a phrase of the source when, from the renamed store, it ends exactly as
the source does, and in the renamed store. This module shows how sequences, conditionals, loops and
switches keep the simulation of their parts. A clause of a switch that ends in `break` or `return`
never falls through, which is what lets a clause of a `case` stand for it.
-/

set_option autoImplicit false

namespace YcpToRuby.Meaning

open Generate (ClauseEnd ConditionalOf loopNode splice)

variable {V : Type} {rt : Runtime V} {base σ : Store V} {ρ' : Store V} {o : Outcome V}

def SameRuns (rt : Runtime V) (base : Store V) (p : Ycp.Phrase) (q : Ruby.Phrase) : Prop :=
  ∀ σ o ρ', Ruby.Runs rt q (renamed base σ) o ρ' ↔
    ∃ σ', ρ' = renamed base σ' ∧ Ycp.Runs rt p σ o σ'

theorem SameValue.evaluate_eq_some {e : Ycp.Node} {r : Ruby.Node} (h : SameValue rt base e r)
    {v : V} :
    Ruby.evaluate rt r (renamed base σ) = some (v, ρ') ↔
      ∃ σ', ρ' = renamed base σ' ∧ Ycp.evaluate rt e σ = some (v, σ') := by
  rw [h σ, Option.map_eq_some_iff]
  constructor
  · rintro ⟨⟨w, σ'⟩, he, heq⟩
    obtain ⟨rfl, rfl⟩ := Prod.mk.inj heq
    exact ⟨σ', rfl, he⟩
  · rintro ⟨σ', rfl, he⟩
    exact ⟨(v, σ'), he, rfl⟩

/-- Phrases that leave the store as it is and always end alike. -/
theorem sameRuns_of_outcome {p : Ycp.Phrase} {q : Ruby.Phrase} (result : Outcome V)
    (hp : ∀ σ o σ', Ycp.Runs rt p σ o σ' ↔ o = result ∧ σ' = σ)
    (hq : ∀ ρ o ρ', Ruby.Runs rt q ρ o ρ' ↔ o = result ∧ ρ' = ρ) : SameRuns rt base p q := by
  intro σ o ρ'
  rw [hq]
  constructor
  · rintro ⟨rfl, rfl⟩
    exact ⟨σ, rfl, (hp _ _ _).mpr ⟨rfl, rfl⟩⟩
  · rintro ⟨σ', rfl, h⟩
    obtain ⟨rfl, rfl⟩ := (hp _ _ _).mp h
    exact ⟨rfl, rfl⟩

/-! ## Sequences -/

section Sequences

theorem runs_splice {result : Option Ruby.Node} {ρ : Store V} :
    Ruby.Runs rt (.entries (splice result)) ρ o ρ' ↔ Ruby.Runs rt (.entries [result]) ρ o ρ' := by
  unfold splice
  split
  · rw [Ruby.runs_singleton, Ruby.runs_sequence]
  · rfl

theorem SameRuns.sequence {p : Ycp.Phrase} {entries : List (Option Ruby.Node)}
    (h : SameRuns rt base p (.entries entries)) :
    SameRuns rt base p (.statement (.sequence entries)) := by
  intro σ o ρ'
  rw [Ruby.runs_sequence]
  exact h σ o ρ'

theorem SameRuns.splice {p : Ycp.Phrase} {result : Option Ruby.Node}
    (h : SameRuns rt base p (.entries [result])) :
    SameRuns rt base p (.entries (splice result)) := by
  intro σ o ρ'
  rw [runs_splice]
  exact h σ o ρ'

theorem sameRuns_nil : SameRuns rt base (.statements []) (.entries []) :=
  sameRuns_of_outcome .normal (fun _ _ _ => Ycp.runs_nil) fun _ _ _ => Ruby.runs_nil

theorem sameRuns_none : SameRuns rt base (.statements []) (.entries [none]) := by
  intro σ o ρ'
  rw [Ruby.runs_none]
  exact sameRuns_nil σ o ρ'

theorem SameRuns.cons {s : Ycp.Node} {rest : List Ycp.Node} {first others : List (Option Ruby.Node)}
    (hs : SameRuns rt base (.statement s) (.entries first))
    (hrest : SameRuns rt base (.statements rest) (.entries others)) :
    SameRuns rt base (.statements (s :: rest)) (.entries (first ++ others)) := by
  intro σ o ρ'
  rw [Ruby.runs_append]
  constructor
  · rintro (⟨ρ₁, hfirst, hothers⟩ | ⟨hfirst, ho⟩)
    · obtain ⟨σ₁, rfl, hs₁⟩ := (hs _ _ _).mp hfirst
      obtain ⟨σ', rfl, hrest'⟩ := (hrest _ _ _).mp hothers
      exact ⟨σ', rfl, .next hs₁ hrest'⟩
    · obtain ⟨σ', rfl, hs'⟩ := (hs _ _ _).mp hfirst
      exact ⟨σ', rfl, .exit hs' ho⟩
  · rintro ⟨σ', rfl, h⟩
    rcases Ycp.runs_cons.mp h with ⟨σ₁, hs₁, hrest'⟩ | ⟨hs', ho⟩
    · exact Or.inl ⟨renamed base σ₁, (hs _ _ _).mpr ⟨σ₁, rfl, hs₁⟩,
        (hrest _ _ _).mpr ⟨σ', rfl, hrest'⟩⟩
    · exact Or.inr ⟨(hs _ _ _).mpr ⟨σ', rfl, hs'⟩, ho⟩

theorem SameRuns.singleton {s : Ycp.Node} {q : Ruby.Phrase}
    (h : SameRuns rt base (.statement s) q) : SameRuns rt base (.statements [s]) q := by
  intro σ o ρ'
  simp only [Ycp.runs_singleton]
  exact h σ o ρ'

theorem SameRuns.block {info : Ycp.BlockInfo} {body : List Ycp.Node} {q : Ruby.Phrase}
    (hkind : info.kind = .stmt) (h : SameRuns rt base (.statements body) q) :
    SameRuns rt base (.statement (.block (.mk info body))) q := by
  intro σ o ρ'
  simp only [Ycp.runs_block hkind]
  exact h σ o ρ'

end Sequences

/-! ## Conditionals -/

section Conditionals

variable {test : Ruby.Node} {thenBody elseBody : Option Ruby.Node} {r : Ruby.Node}

theorem runs_conditional (h : ConditionalOf test thenBody elseBody r) {ρ : Store V} :
    Ruby.Runs rt (.statement r) ρ o ρ' ↔
      ∃ v ρ₁, Ruby.evaluate rt test ρ = some (v, ρ₁) ∧
        Ruby.Runs rt (.entries [if rt.holds v then thenBody else elseBody]) ρ₁ o ρ' := by
  cases h with
  | ifElse => exact Ruby.runs_ifElse
  | elseOnly => exact Ruby.runs_unlessElse
  | nothing =>
    rw [Ruby.runs_ifElse]
    have hempty {ρ₁ : Store V} : Ruby.Runs rt (.entries [some (.sequence [])]) ρ₁ o ρ' ↔
        Ruby.Runs rt (.entries [none]) ρ₁ o ρ' := by
      rw [Ruby.runs_singleton, Ruby.runs_sequence, Ruby.runs_none]
    constructor
    · rintro ⟨v, ρ₁, hv, h⟩
      refine ⟨v, ρ₁, hv, ?_⟩
      cases hholds : rt.holds v with
      | true => simpa [hholds, hempty] using h
      | false => simpa [hholds] using h
    · rintro ⟨v, ρ₁, hv, h⟩
      refine ⟨v, ρ₁, hv, ?_⟩
      cases hholds : rt.holds v with
      | true => simpa [hholds, hempty] using h
      | false => simpa [hholds] using h

theorem SameRuns.conditional {condition : Ycp.Node} {thenPart elsePart : Option Ycp.Node}
    (hr : ConditionalOf test thenBody elseBody r) (hc : SameValue rt base condition test)
    (ht : SameRuns rt base (.statements thenPart.toList) (.entries [thenBody]))
    (he : SameRuns rt base (.statements elsePart.toList) (.entries [elseBody])) :
    SameRuns rt base (.statement (.ifElse condition thenPart elsePart)) (.statement r) := by
  have hbranch (holds : Bool) :
      SameRuns rt base (.statements (if holds then thenPart else elsePart).toList)
        (.entries [if holds then thenBody else elseBody]) := by
    cases holds with
    | true => exact ht
    | false => exact he
  intro σ o ρ'
  simp only [runs_conditional hr, hc.evaluate_eq_some, Ycp.runs_ifElse]
  constructor
  · rintro ⟨v, ρ₁, ⟨σ₁, rfl, hv⟩, h⟩
    obtain ⟨σ', rfl, h'⟩ := (hbranch _ _ _ _).mp h
    exact ⟨σ', rfl, v, σ₁, hv, h'⟩
  · rintro ⟨σ', rfl, v, σ₁, hv, h⟩
    exact ⟨v, renamed base σ₁, ⟨σ₁, rfl, hv⟩, (hbranch _ _ _ _).mpr ⟨σ', rfl, h⟩⟩

end Conditionals

/-! ## Loops -/

section Loops

def testKind : Ycp.LoopKind → Ruby.LoopKind
  | .whileTrue | .doWhile => .whileTrue
  | .repeatUntil => .untilTrue

theorem goesOn_testKind (kind : Ycp.LoopKind) (holds : Bool) :
    Ruby.goesOn (testKind kind) holds = Ycp.goesOn kind holds := by
  cases kind <;> rfl

inductive SamePlace (kind : Ycp.LoopKind) (condition body : Ycp.Node) (test r : Ruby.Node) :
    Ycp.Phrase → Ruby.Phrase → Prop
  | test : SamePlace kind condition body test r (.test kind condition body)
      (.test (testKind kind) test r)
  | pass : SamePlace kind condition body test r (.pass kind condition body)
      (.pass (testKind kind) test r)

variable {kind : Ycp.LoopKind} {condition body : Ycp.Node} {test r : Ruby.Node}

theorem SamePlace.runs_ycp (hc : SameValue rt base condition test)
    (hb : SameRuns rt base (.statement body) (.statement r)) {p : Ycp.Phrase} {q : Ruby.Phrase}
    (hpq : SamePlace kind condition body test r p q) {ρ : Store V} (h : Ruby.Runs rt q ρ o ρ')
    (hρ : ρ = renamed base σ) : ∃ σ', ρ' = renamed base σ' ∧ Ycp.Runs rt p σ o σ' := by
  induction h generalizing p σ with
  | stop htest hstop =>
    subst hρ
    cases hpq
    obtain ⟨σ', rfl, hv⟩ := hc.evaluate_eq_some.mp htest
    exact ⟨σ', rfl, .stop hv (by rwa [← goesOn_testKind])⟩
  | again htest hgoes _ ih =>
    subst hρ
    cases hpq
    obtain ⟨σ₁, rfl, hv⟩ := hc.evaluate_eq_some.mp htest
    obtain ⟨σ', rfl, hpass⟩ := ih .pass rfl
    exact ⟨σ', rfl, .again hv (by rwa [← goesOn_testKind]) hpass⟩
  | latch hbody hreaches _ _ ih =>
    subst hρ
    cases hpq
    obtain ⟨σ₁, rfl, hbody'⟩ := (hb _ _ _).mp hbody
    obtain ⟨σ', rfl, htest⟩ := ih .test rfl
    exact ⟨σ', rfl, .latch hbody' hreaches htest⟩
  | breakOut hbody _ =>
    subst hρ
    cases hpq
    obtain ⟨σ', rfl, hbody'⟩ := (hb _ _ _).mp hbody
    exact ⟨σ', rfl, .breakOut hbody'⟩
  | returnOut hbody _ =>
    subst hρ
    cases hpq
    obtain ⟨σ', rfl, hbody'⟩ := (hb _ _ _).mp hbody
    exact ⟨σ', rfl, .returnOut hbody'⟩
  | _ => cases hpq

theorem SamePlace.runs_ruby (hc : SameValue rt base condition test)
    (hb : SameRuns rt base (.statement body) (.statement r)) {p : Ycp.Phrase} {q : Ruby.Phrase}
    (hpq : SamePlace kind condition body test r p q) {σ' : Store V} (h : Ycp.Runs rt p σ o σ') :
    Ruby.Runs rt q (renamed base σ) o (renamed base σ') := by
  induction h generalizing q with
  | stop hv hstop =>
    cases hpq
    exact .stop (hc.evaluate_eq_some.mpr ⟨_, rfl, hv⟩) (by rwa [goesOn_testKind])
  | again hv hgoes _ ih =>
    cases hpq
    exact .again (hc.evaluate_eq_some.mpr ⟨_, rfl, hv⟩) (by rwa [goesOn_testKind]) (ih .pass)
  | latch hbody hreaches _ _ ih =>
    cases hpq
    exact .latch ((hb _ _ _).mpr ⟨_, rfl, hbody⟩) hreaches (ih .test)
  | breakOut hbody _ =>
    cases hpq
    exact .breakOut ((hb _ _ _).mpr ⟨_, rfl, hbody⟩)
  | returnOut hbody _ =>
    cases hpq
    exact .returnOut ((hb _ _ _).mpr ⟨_, rfl, hbody⟩)
  | _ => cases hpq

theorem SamePlace.sameRuns (hc : SameValue rt base condition test)
    (hb : SameRuns rt base (.statement body) (.statement r)) {p : Ycp.Phrase} {q : Ruby.Phrase}
    (hpq : SamePlace kind condition body test r p q) : SameRuns rt base p q := by
  intro σ o ρ'
  constructor
  · intro h
    exact hpq.runs_ycp hc hb h rfl
  · rintro ⟨σ', rfl, h⟩
    exact hpq.runs_ruby hc hb h

theorem SameRuns.loop {entries : List (Option Ruby.Node)} (hc : SameValue rt base condition test)
    (hb : SameRuns rt base (.statement body) (.entries entries)) :
    SameRuns rt base (.statement (.loop kind condition body))
      (.statement (loopNode kind test (.sequence entries))) := by
  have hplace {p : Ycp.Phrase} {q : Ruby.Phrase}
      (hpq : SamePlace kind condition body test (.sequence entries) p q) : SameRuns rt base p q :=
    hpq.sameRuns hc hb.sequence
  intro σ o ρ'
  simp only [Ycp.runs_loop]
  cases kind with
  | whileTrue =>
    rw [loopNode, Ruby.runs_loop_test rfl]
    exact hplace .test σ o ρ'
  | doWhile =>
    rw [loopNode, Ruby.runs_loop_begin]
    exact hplace .pass σ o ρ'
  | repeatUntil =>
    rw [loopNode, Ruby.runs_loop_begin]
    exact hplace .pass σ o ρ'

end Loops

/-! ## Switches -/

section Switches

variable {body kept : List Ycp.Node} {entries : List (Option Ruby.Node)}

theorem SameRuns.clause (hend : ClauseEnd body kept) (hkept : Ycp.NeverBreaks rt kept)
    (h : SameRuns rt base (.statements kept) (.entries entries)) (rest : List (List Ycp.Node)) :
    SameRuns rt base (.clauses (body :: rest)) (.entries entries) := by
  intro σ o ρ'
  cases hend with
  | byBreak =>
    simp only [Ycp.runs_clause_of_break hkept]
    exact h σ o ρ'
  | byReturn =>
    simp only [Ycp.runs_clause_of_return hkept]
    exact h σ o ρ'

theorem SameRuns.lastClause (hend : body = kept ++ [.breakLoop] ∨ body = kept)
    (hkept : Ycp.NeverBreaks rt kept)
    (h : SameRuns rt base (.statements kept) (.entries entries)) :
    SameRuns rt base (.clauses [body]) (.entries entries) := by
  rcases hend with rfl | rfl
  · exact SameRuns.clause .byBreak hkept h []
  · intro σ o ρ'
    simp only [Ycp.runs_last_clause hkept]
    exact h σ o ρ'

theorem sameRuns_noClause : SameRuns rt base (.clauses []) (.entries [none]) :=
  sameRuns_of_outcome .normal (fun _ _ _ => Ycp.runs_noClause)
    fun _ _ _ => Ruby.runs_none.trans Ruby.runs_nil

def SameClause (rt : Runtime V) (base : Store V) (c : Ycp.Node × Ycp.Block)
    (clause : List Ruby.Node × Ruby.Node) : Prop :=
  ∃ test, clause.1 = [test] ∧ SameValue rt base c.1 test ∧
    ∀ rest, SameRuns rt base (.clauses (c.2.statements :: rest)) (.entries [some clause.2])

variable {cases : List (Ycp.Node × Ycp.Block)} {default : Option Ycp.Block}
  {clauses : List (List Ruby.Node × Ruby.Node)} {elseBody : Option Ruby.Node}

theorem select_iff (hclauses : List.Forall₂ (SameClause rt base) cases clauses)
    (hdefault : SameRuns rt base (.clauses (default.toList.map Ycp.Block.statements))
      (.entries [elseBody])) (v : V) :
    (∃ r ρ₁, Ruby.select rt v elseBody clauses (renamed base σ) = some (r, ρ₁) ∧
        Ruby.Runs rt (.entries [r]) ρ₁ o ρ') ↔
      ∃ σ', ρ' = renamed base σ' ∧
        ∃ bodies σ₁, Ycp.select rt v default cases σ = some (bodies, σ₁) ∧
          Ycp.Runs rt (.clauses bodies) σ₁ o σ' := by
  induction hclauses generalizing σ with
  | nil => simpa [Ruby.select, Ycp.select] using hdefault σ o ρ'
  | @cons c clause restCases restClauses hclause _ ih =>
    obtain ⟨value, block⟩ := c
    obtain ⟨values, r⟩ := clause
    obtain ⟨test, rfl, htest, hbody⟩ := hclause
    cases hv : Ycp.evaluate rt value σ with
    | none => simp [Ruby.select, Ruby.matchesAny, Ycp.select, htest σ, hv]
    | some result =>
      obtain ⟨w, σ₁⟩ := result
      cases heq : rt.equal w v with
      | true =>
        simpa [Ruby.select, Ruby.matchesAny, Ycp.select, htest σ, hv, withRenamed, heq]
          using hbody _ σ₁ o ρ'
      | false =>
        simpa [Ruby.select, Ruby.matchesAny, Ycp.select, htest σ, hv, withRenamed, heq]
          using ih

theorem SameRuns.switch {condition : Ycp.Node} {subject : Ruby.Node}
    (hc : SameValue rt base condition subject)
    (hclauses : List.Forall₂ (SameClause rt base) cases clauses)
    (hdefault : SameRuns rt base (.clauses (default.toList.map Ycp.Block.statements))
      (.entries [elseBody])) :
    SameRuns rt base (.statement (.switch condition cases default))
      (.statement (.caseWhen subject clauses elseBody)) := by
  intro σ o ρ'
  simp only [Ruby.runs_caseWhen, hc.evaluate_eq_some, Ycp.runs_switch]
  constructor
  · rintro ⟨v, ρ₁, ⟨σ₁, rfl, hv⟩, h⟩
    obtain ⟨σ', rfl, h'⟩ := (select_iff hclauses hdefault v).mp h
    exact ⟨σ', rfl, v, σ₁, hv, h'⟩
  · rintro ⟨σ', rfl, v, σ₁, hv, h⟩
    exact ⟨v, renamed base σ₁, ⟨σ₁, rfl, hv⟩,
      (select_iff hclauses hdefault v).mpr ⟨σ', rfl, h⟩⟩

end Switches

end YcpToRuby.Meaning
