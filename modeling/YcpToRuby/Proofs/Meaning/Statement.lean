import YcpToRuby.Proofs.Meaning.Simulation

/-!
# Generated statements run as the source does

Statements are taken from a part of the language in which nothing is declared and all state is in
variables. Wherever the generator accepts such a statement, the Ruby statement has exactly the runs
of the source: the same outcomes, the same stores up to the renaming, and a run that does not end on
either side when there is none on the other.
-/

set_option autoImplicit false

namespace YcpToRuby.Ycp

open Meaning (Outcome Runtime Store)

inductive PlainStatement : Node → Prop
  | expression {e : Node} (h : PlainExpression e) : PlainStatement e
  | block {info : BlockInfo} {body : List Node} (hinfo : info.IsBare)
      (h : ∀ s ∈ body, PlainStatement s) : PlainStatement (.block (.mk info body))
  | ifElse {condition : Node} {thenBody elseBody : Option Node} (hc : PlainExpression condition)
      (ht : ∀ s ∈ thenBody, PlainStatement s) (he : ∀ s ∈ elseBody, PlainStatement s) :
      PlainStatement (.ifElse condition thenBody elseBody)
  | loop {kind : LoopKind} {condition body : Node} (hc : PlainExpression condition)
      (h : PlainStatement body) : PlainStatement (.loop kind condition body)
  | breakLoop : PlainStatement .breakLoop
  | continueLoop : PlainStatement .continueLoop
  | ret {value : Option Node} (h : ∀ e ∈ value, PlainExpression e) : PlainStatement (.ret value)
  | switch {condition : Node} {cases : List (Node × Block)} {default : Option Block}
      (hc : PlainExpression condition) (hvalues : ∀ c ∈ cases, PlainExpression c.1)
      (hinfos : ∀ c ∈ cases, c.2.info.IsBare) (hinfo : ∀ block ∈ default, block.info.IsBare)
      (hcases : ∀ c ∈ cases, ∀ s ∈ c.2.statements, PlainStatement s)
      (hdefault : ∀ block ∈ default, ∀ s ∈ block.statements, PlainStatement s) :
      PlainStatement (.switch condition cases default)

variable {V : Type} {rt : Runtime V} {σ σ' : Store V} {o : Outcome V}

theorem runs_plainExpression {e : Node} (he : PlainExpression e) :
    Runs rt (.statement e) σ o σ' ↔ o = .normal ∧ ∃ v, evaluate rt e σ = some (v, σ') := by
  constructor
  · intro h
    cases h with
    | expression h => exact ⟨rfl, _, h⟩
    | _ => cases he
  · rintro ⟨rfl, v, h⟩
    exact .expression h

theorem neverBreaks_of_forall {body : List Node} (h : ∀ s ∈ body, NeverBreaks rt [s]) :
    NeverBreaks rt body := by
  induction body with
  | nil =>
    intro σ σ' hrun
    cases (runs_nil.mp hrun).1
  | cons s rest ih =>
    intro σ σ' hrun
    rcases runs_cons.mp hrun with ⟨σ₁, -, hrest⟩ | ⟨hs, -⟩
    · exact ih (fun s hs => h s (List.mem_cons_of_mem _ hs)) _ _ hrest
    · exact h s List.mem_cons_self _ _ (runs_singleton.mpr hs)

end YcpToRuby.Ycp

namespace YcpToRuby.Meaning

open Scope (Context)
open Generate

variable {V : Type} {rt : Runtime V} {base : Store V} {ctx : Context}

/-! ## Accepted statements do not break out of a clause -/

/-- Directly inside a clause of a switch the generator accepts no `break`, so none gets out. -/
theorem neverBreaks_of_statement (hctx : ctx.IsTransparent) (hleaves : ctx.breakLeavesClause = true)
    {s : Ycp.Node} (hs : Ycp.PlainStatement s) {result : Option Ruby.Node}
    (h : (reading s).statement ctx = .ok result) : Ycp.NeverBreaks rt [s] := by
  induction hs generalizing ctx result with
  | expression he =>
    intro σ σ' hrun
    cases ((Ycp.runs_plainExpression he).mp (Ycp.runs_singleton.mp hrun)).1
  | block hinfo _ ih =>
    obtain ⟨entries, hentries, -⟩ := (block_statement_eq_ok hinfo.1).mp h
    have hbody := Ycp.neverBreaks_of_forall fun s hs => by
      obtain ⟨result, hresult⟩ := statement_of_statements hentries s hs
      have hleaves := ctx.breakLeavesClause_inside_bare hinfo
      exact ih s hs (hctx.inside_bare hinfo) (by rwa [hleaves]) hresult
    intro σ σ' hrun
    exact hbody _ _ ((Ycp.runs_block hinfo.1).mp (Ycp.runs_singleton.mp hrun))
  | ifElse _ _ _ iht ihe =>
    obtain ⟨r, hr, -⟩ := solid_statement_eq_ok.mp h
    obtain ⟨test, -, thenBody, elseBody, hthen, helse, -⟩ := conditional_eq_ok hr
    intro σ σ' hrun
    obtain ⟨v, σ₁, -, hbranch⟩ := Ycp.runs_ifElse.mp (Ycp.runs_singleton.mp hrun)
    refine Ycp.neverBreaks_of_forall (fun s hs => ?_) _ _ hbranch
    split at hs
    · obtain ⟨result, hresult⟩ := hthen.statement_eq_ok s (Option.mem_toList.mp hs)
      exact iht s (Option.mem_toList.mp hs) hctx hleaves hresult
    · obtain ⟨result, hresult⟩ := helse.statement_eq_ok s (Option.mem_toList.mp hs)
      exact ihe s (Option.mem_toList.mp hs) hctx hleaves hresult
  | @loop kind _ _ _ _ _ =>
    intro σ σ' hrun
    have hloop := Ycp.runs_loop.mp (Ycp.runs_singleton.mp hrun)
    exact hloop.ne_broken (by cases kind <;> rfl) rfl
  | breakLoop =>
    obtain ⟨r, hr, -⟩ := solid_statement_eq_ok.mp h
    have hnot := (breakNode_eq_ok hctx hr).2
    rw [hleaves] at hnot
    cases hnot
  | continueLoop =>
    intro σ σ' hrun
    cases (Ycp.runs_continueLoop.mp (Ycp.runs_singleton.mp hrun)).1
  | @ret value _ =>
    intro σ σ' hrun
    cases value with
    | none => cases (Ycp.runs_ret.mp (Ycp.runs_singleton.mp hrun)).1
    | some e =>
      obtain ⟨v, -, hv⟩ := Ycp.runs_retValue.mp (Ycp.runs_singleton.mp hrun)
      cases hv
  | switch =>
    intro σ σ' hrun
    obtain ⟨v, σ₁, -, bodies, σ₂, -, hclauses⟩ := Ycp.runs_switch.mp (Ycp.runs_singleton.mp hrun)
    exact hclauses.ne_broken rfl rfl

/-! ## The simulation -/

theorem plain_statement_eq_ok {e : Ycp.Node} (he : Ycp.PlainExpression e)
    {result : Option Ruby.Node} :
    (reading e).statement ctx = .ok result ↔
      ∃ r, (reading e).value ctx = .ok r ∧ some r = result := by
  cases he <;>
  · rw [reading]
    exact expression_statement_eq_ok

theorem isValue_constant {type : Ycp.ConstType} {text : Option String} {r : Ruby.Node}
    (h : constant type text = .ok r) : Ruby.isValue r = true := by
  unfold constant at h
  split at h
  · cases h
    rfl
  · cases h
  · unfold booleanNode at h
    grind [Ruby.isValue, invalid]
  · unfold integerNode at h
    grind [Ruby.isValue, invalid]
  · unfold floatNode at h
    grind [Ruby.isValue, invalid]
  · cases h
    rfl
  · cases h
    rfl
  · cases h
    rfl

theorem isValue_of_value (hctx : ctx.IsTransparent) {e : Ycp.Node} (he : Ycp.PlainExpression e)
    {r : Ruby.Node} (h : (reading e).value ctx = .ok r) : Ruby.isValue r = true := by
  cases he with
  | const _ => exact isValue_constant (by simpa [reading, Reading.expression] using h)
  | @var name _ =>
    obtain rfl : Ruby.Node.var (Scope.escape name) = r := by
      simpa [reading, Reading.expression, variableNode, nameNode, hctx.resolve_eq_escape] using h
    rfl
  | assign _ =>
    obtain ⟨v, -, rfl⟩ := assign_value_eq_ok.mp h
    rfl
  | @compare op =>
    obtain ⟨a, -, b, -, rfl⟩ := compare_value_eq_ok.mp h
    cases op <;> rfl
  | @binary op =>
    obtain ⟨a, -, b, -, rfl⟩ := binary_value_eq_ok.mp h
    cases op <;> rfl
  | @unary op =>
    obtain ⟨a, -, rfl⟩ := unary_value_eq_ok.mp h
    cases op <;> rfl
  | ternary =>
    obtain ⟨c, -, a, -, b, -, rfl⟩ := ternary_value_eq_ok.mp h
    rfl

theorem SameRuns.expression {e : Ycp.Node} (he : Ycp.PlainExpression e) {r : Ruby.Node}
    (hr : Ruby.isValue r = true) (h : SameValue rt base e r) :
    SameRuns rt base (.statement e) (.statement r) := by
  intro σ o ρ'
  simp only [Ruby.runs_value hr, Ycp.runs_plainExpression he, h.evaluate_eq_some]
  constructor
  · rintro ⟨rfl, v, σ', rfl, hv⟩
    exact ⟨σ', rfl, rfl, v, hv⟩
  · rintro ⟨σ', rfl, rfl, v, hv⟩
    exact ⟨rfl, v, σ', rfl, hv⟩

theorem SameRuns.retValue {e : Ycp.Node} {r : Ruby.Node} (h : SameValue rt base e r) :
    SameRuns rt base (.statement (.ret (some e))) (.statement (.ret (some r))) := by
  intro σ o ρ'
  simp only [Ruby.runs_retValue, Ycp.runs_retValue, h.evaluate_eq_some]
  constructor
  · rintro ⟨v, ⟨σ', rfl, hv⟩, rfl⟩
    exact ⟨σ', rfl, v, hv, rfl⟩
  · rintro ⟨σ', rfl, v, hv, rfl⟩
    exact ⟨v, ⟨σ', rfl, hv⟩, rfl⟩

theorem SameRuns.entry {p : Ycp.Phrase} {r : Ruby.Node} (h : SameRuns rt base p (.statement r)) :
    SameRuns rt base p (.entries [some r]) := by
  intro σ o ρ'
  rw [Ruby.runs_singleton]
  exact h σ o ρ'

def KeepsRuns (rt : Runtime V) (base : Store V) (ctx : Context) (s : Ycp.Node) : Prop :=
  ∀ result, (reading s).statement ctx = .ok result →
    SameRuns rt base (.statement s) (.entries [result])

theorem sameRuns_of_statements {body : List Ycp.Node} {entries : List (Option Ruby.Node)}
    (hkeeps : ∀ s ∈ body, KeepsRuns rt base ctx s)
    (h : statements (body.map reading) ctx = .ok entries) :
    SameRuns rt base (.statements body) (.entries entries) := by
  induction body generalizing entries with
  | nil =>
    obtain rfl := statements_nil_eq_ok.mp h
    exact sameRuns_nil
  | cons s rest ih =>
    obtain ⟨result, hs, others, hrest, rfl⟩ := statements_cons_eq_ok.mp h
    have hfirst := hkeeps s List.mem_cons_self result hs
    exact hfirst.splice.cons (ih (fun s hs => hkeeps s (List.mem_cons_of_mem _ hs)) hrest)

theorem sameRuns_of_branch {part : Option Ycp.Node} {result : Option Ruby.Node}
    (hkeeps : ∀ s ∈ part, KeepsRuns rt base ctx s) (h : BranchOf ctx part result) :
    SameRuns rt base (.statements part.toList) (.entries [result]) := by
  cases h with
  | absent => exact sameRuns_none
  | empty hkind => exact (sameRuns_none.block hkind).singleton
  | sequence h => exact (hkeeps _ rfl _ h).splice.sequence.entry.singleton
  | chained h => exact (hkeeps _ rfl _ h).singleton

/-! ## Clauses -/

section Clauses

variable {clause : Scope.Clause} {info : Ycp.BlockInfo} {body kept : List Ycp.Node}
  {entries : List (Option Ruby.Node)}

/-- What is generated for the kept statements of a clause runs as they do, and none of them breaks
out of the clause. -/
theorem kept_statements (hctx : ctx.IsTransparent) (hinfo : info.IsBare)
    (hplain : ∀ s ∈ kept, Ycp.PlainStatement s)
    (hkeeps : ∀ s ∈ kept, ∀ ctx : Context, ctx.IsTransparent → KeepsRuns rt base ctx s)
    (h : statements (kept.map reading) ((ctx.inside (.clause clause)).inside (.block info)) =
      .ok entries) :
    Ycp.NeverBreaks rt kept ∧ SameRuns rt base (.statements kept) (.entries entries) := by
  have htransparent := (hctx.inside_clause clause).inside_bare hinfo
  have hleaves : ((ctx.inside (.clause clause)).inside (.block info)).breakLeavesClause = true := by
    rw [Context.breakLeavesClause_inside_bare _ hinfo, Context.breakLeavesClause_inside_clause]
  constructor
  · apply Ycp.neverBreaks_of_forall
    intro s hs
    obtain ⟨result, hresult⟩ := statement_of_statements h s hs
    exact neverBreaks_of_statement htransparent hleaves (hplain s hs) hresult
  · exact sameRuns_of_statements (fun s hs => hkeeps s hs _ htransparent) h

theorem sameClause_of_caseClause {value : Ycp.Node} {r : List Ruby.Node × Ruby.Node}
    (hctx : ctx.IsTransparent) (hvalue : Ycp.PlainExpression value) (hinfo : info.IsBare)
    (hplain : ∀ s ∈ body, Ycp.PlainStatement s)
    (hkeeps : ∀ s ∈ body, ∀ ctx : Context, ctx.IsTransparent → KeepsRuns rt base ctx s)
    (h : caseClause (reading value) info (body.map reading) ctx = .ok r) :
    SameClause rt base (value, .mk info body) r := by
  obtain ⟨test, entries, rfl, htest, kept, hend, hentries⟩ := caseClause_eq_ok h
  have hsub : kept ⊆ body := hend.subset
  obtain ⟨hnever, hsame⟩ := kept_statements hctx hinfo (fun s hs => hplain s (hsub hs))
    (fun s hs => hkeeps s (hsub hs)) hentries
  exact ⟨test, rfl, sameValue_of_value hctx hvalue htest,
    fun rest => (SameRuns.clause hend hnever hsame rest).sequence.entry⟩

theorem sameRuns_of_defaultClause {default : Option Ycp.Block} {result : Option Ruby.Node}
    (hctx : ctx.IsTransparent) (hinfo : ∀ block ∈ default, block.info.IsBare)
    (hplain : ∀ block ∈ default, ∀ s ∈ block.statements, Ycp.PlainStatement s)
    (hkeeps : ∀ block ∈ default, ∀ s ∈ block.statements, ∀ ctx : Context, ctx.IsTransparent →
      KeepsRuns rt base ctx s)
    (h : defaultClause (default.map fun block => (block.info, block.statements.map reading)) ctx =
      .ok result) :
    SameRuns rt base (.clauses (default.toList.map Ycp.Block.statements)) (.entries [result]) := by
  cases default with
  | none =>
    obtain rfl : none = result := by simpa [defaultClause] using h
    exact sameRuns_noClause
  | some block =>
    obtain ⟨kept, hend, hkept⟩ := defaultClause_eq_ok h
    rcases hkept with ⟨rfl, rfl⟩ | ⟨entries, rfl, hentries⟩
    · exact SameRuns.lastClause hend (Ycp.neverBreaks_of_forall (by simp)) sameRuns_none
    · have hsub : kept ⊆ block.statements := by
        rcases hend with hbody | hbody <;> simp [hbody]
      obtain ⟨hnever, hsame⟩ := kept_statements hctx (hinfo block rfl)
        (fun s hs => hplain block rfl s (hsub hs)) (fun s hs => hkeeps block rfl s (hsub hs))
        hentries
      exact (SameRuns.lastClause hend hnever hsame).sequence.entry

end Clauses

/-! ## The simulation -/

theorem keepsRuns_of_plain {s : Ycp.Node} (hs : Ycp.PlainStatement s) (hctx : ctx.IsTransparent) :
    KeepsRuns rt base ctx s := by
  induction hs generalizing ctx with
  | expression he =>
    intro result h
    obtain ⟨r, hr, rfl⟩ := (plain_statement_eq_ok he).mp h
    exact (SameRuns.expression he (isValue_of_value hctx he hr)
      (sameValue_of_value hctx he hr)).entry
  | block hinfo _ ih =>
    intro result h
    obtain ⟨entries, hentries, rfl⟩ := (block_statement_eq_ok hinfo.1).mp h
    have hbody := sameRuns_of_statements (fun s hs => ih s hs (hctx.inside_bare hinfo)) hentries
    exact (hbody.block hinfo.1).sequence.entry
  | ifElse hc _ _ iht ihe =>
    intro result h
    obtain ⟨r, hr, rfl⟩ := solid_statement_eq_ok.mp h
    obtain ⟨test, htest, thenBody, elseBody, hthen, helse, hshape⟩ := conditional_eq_ok hr
    exact (SameRuns.conditional hshape (sameValue_of_value hctx hc htest)
      (sameRuns_of_branch (fun s hs => iht s hs hctx) hthen)
      (sameRuns_of_branch (fun s hs => ihe s hs hctx) helse)).entry
  | @loop kind _ _ hc _ ih =>
    intro result h
    obtain ⟨r, hr, rfl⟩ := solid_statement_eq_ok.mp h
    obtain ⟨test, htest, bodyResult, hbody, rfl⟩ := loop_eq_ok.mp hr
    have hbody' := ih (hctx.inside_loop kind) bodyResult hbody
    exact (SameRuns.loop (sameValue_of_value hctx hc htest) hbody'.splice).entry
  | breakLoop =>
    intro result h
    obtain ⟨r, hr, rfl⟩ := solid_statement_eq_ok.mp h
    obtain ⟨rfl, -⟩ := breakNode_eq_ok hctx hr
    exact (sameRuns_of_outcome .broken (fun _ _ _ => Ycp.runs_breakLoop)
      fun _ _ _ => Ruby.runs_breakLoop).entry
  | continueLoop =>
    intro result h
    obtain ⟨r, hr, rfl⟩ := solid_statement_eq_ok.mp h
    obtain rfl : Ruby.Node.next none = r := by simpa using hr
    exact (sameRuns_of_outcome .continued (fun _ _ _ => Ycp.runs_continueLoop)
      fun _ _ _ => Ruby.runs_next).entry
  | @ret value he =>
    intro result h
    obtain ⟨r, hr, rfl⟩ := solid_statement_eq_ok.mp h
    simp only [optionReading_eq_map, returnStatement] at hr
    cases value with
    | none =>
      obtain rfl : Ruby.Node.ret none = r := by
        simpa [returnNode_eq_ret hctx] using hr
      exact (sameRuns_of_outcome (.returned rt.nil) (fun _ _ _ => Ycp.runs_ret)
        fun _ _ _ => Ruby.runs_ret).entry
    | some e =>
      obtain ⟨v, hv, rfl⟩ : ∃ v, (reading e).value ctx = .ok v ∧ Ruby.Node.ret (some v) = r := by
        simpa [returnNode_eq_ret hctx] using hr
      exact (SameRuns.retValue (sameValue_of_value hctx (he e rfl) hv)).entry
  | switch hc hvalues hinfos hinfo hcases hdefault ihcases ihdefault =>
    intro result h
    obtain ⟨r, hr, rfl⟩ := solid_statement_eq_ok.mp h
    obtain ⟨subject, hsubject, clauses, hclauses, elseBody, helse, rfl⟩ := switch_eq_ok.mp hr
    have hsame := (List.forall₂_and_left _ _).mpr ⟨fun c hmem => hmem, hclauses⟩
    refine (SameRuns.switch (sameValue_of_value hctx hc hsubject) (hsame.imp ?_)
      (sameRuns_of_defaultClause hctx hinfo hdefault
        (fun block hblock s hs ctx hctx => ihdefault block hblock s hs hctx) helse)).entry
    rintro ⟨value, info, body⟩ clause ⟨hmem, hclause⟩
    exact sameClause_of_caseClause hctx (hvalues _ hmem) (hinfos _ hmem) (hcases _ hmem)
      (fun s hs ctx hctx => ihcases _ hmem s hs hctx) hclause

theorem exists_node_of_plain {s : Ycp.Node} (hs : Ycp.PlainStatement s) {result : Option Ruby.Node}
    (h : (reading s).statement ctx = .ok result) : ∃ r, result = some r := by
  cases hs with
  | expression he =>
    obtain ⟨r, -, rfl⟩ := (plain_statement_eq_ok he).mp h
    exact ⟨r, rfl⟩
  | block hinfo _ =>
    obtain ⟨entries, -, rfl⟩ := (block_statement_eq_ok hinfo.1).mp h
    exact ⟨_, rfl⟩
  | _ =>
    obtain ⟨r, -, rfl⟩ := solid_statement_eq_ok.mp h
    exact ⟨r, rfl⟩

/-- Outside all frames, an accepted statement becomes one Ruby statement. From every renamed store
that statement has exactly the outcomes of the source, and it ends in the renamed stores. -/
theorem runs_generated_iff {s : Ycp.Node} (hs : Ycp.PlainStatement s) (exportPrivate : Bool)
    {result : Option Ruby.Node} (h : (reading s).statement ⟨[], exportPrivate⟩ = .ok result) :
    ∃ r, result = some r ∧
      ∀ {V : Type} (rt : Runtime V) (base σ : Store V) (o : Outcome V) (ρ' : Store V),
        Ruby.Runs rt (.statement r) (renamed base σ) o ρ' ↔
          ∃ σ', ρ' = renamed base σ' ∧ Ycp.Runs rt (.statement s) σ o σ' := by
  have hctx : Context.IsTransparent ⟨[], exportPrivate⟩ := by
    simp [Context.IsTransparent]
  obtain ⟨r, rfl⟩ := exists_node_of_plain hs h
  refine ⟨r, rfl, fun rt base σ o ρ' => ?_⟩
  rw [← Ruby.runs_singleton]
  exact keepsRuns_of_plain hs hctx (some r) h σ o ρ'

/-- `do { switch (end) { case 1: n = end; break; default: if (n) {} else continue; } }
while (n);` -/
def turns : Ycp.Node :=
  let read name := Ycp.Node.var ⟨⟨none, name⟩, .var, none⟩
  let info : Ycp.BlockInfo := { kind := .stmt }
  .loop .doWhile (read "n") (.block (.mk info [
    .switch (read "end")
      [(.const .int (some "1"), .mk info [.assign ⟨none, "n"⟩ (read "end"), .breakLoop])]
      (some (.mk info [.ifElse (read "n") (some (.block (.mk info []))) (some .continueLoop)]))]))

def turnsNode : Ruby.Node :=
  .loop .whileTrue (.var "n") (.beginEnd (.sequence [
    some (.caseWhen (.var "_end")
      [([.literal (.integer 1)], .sequence [some (.assign (.var "n") (.var "_end"))])]
      (some (.sequence [some (.unlessElse (.var "n") (.sequence [some (.next none)]) none)])))]))

theorem plainStatement_turns : Ycp.PlainStatement turns := by
  have hinfo : Ycp.BlockInfo.IsBare { kind := .stmt } := ⟨rfl, rfl, rfl⟩
  have hempty : Ycp.PlainStatement (.block (.mk { kind := .stmt } [])) := .block hinfo (by simp)
  refine .loop .var (.block hinfo ?_)
  simp only [List.mem_singleton, forall_eq]
  refine .switch .var ?_ ?_ ?_ ?_ ?_
  · simpa using Ycp.PlainExpression.const (by decide)
  · simpa [Ycp.Block.info] using hinfo
  · simpa [Ycp.Block.info] using hinfo
  · simpa [Ycp.Block.statements] using
      And.intro (Ycp.PlainStatement.expression (.assign .var)) Ycp.PlainStatement.breakLoop
  · simpa [Ycp.Block.statements] using
      Ycp.PlainStatement.ifElse .var (by simpa using hempty) (by simpa using .continueLoop)

theorem runs_turnsNode_iff :
    (reading turns).statement ⟨[], false⟩ = .ok (some turnsNode) ∧
      ∀ {V : Type} (rt : Runtime V) (base σ : Store V) (o : Outcome V) (ρ' : Store V),
        Ruby.Runs rt (.statement turnsNode) (renamed base σ) o ρ' ↔
          ∃ σ', ρ' = renamed base σ' ∧ Ycp.Runs rt (.statement turns) σ o σ' := by
  have h : (reading turns).statement ⟨[], false⟩ = .ok (some turnsNode) := by rfl
  obtain ⟨r, hr, hruns⟩ := runs_generated_iff plainStatement_turns false h
  obtain rfl := Option.some.inj hr
  exact ⟨h, hruns⟩

end YcpToRuby.Meaning
