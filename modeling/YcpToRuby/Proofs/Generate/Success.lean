import YcpToRuby.Generate.Node
import YcpToRuby.Proofs.Steps

/-!
# What a success of generation says

Generation stops at its first failure. A success therefore says that every part succeeded, and how
the results were put together. Each lemma opens one construct; later arguments take a success apart
with these and do not unfold the generator.
-/

set_option autoImplicit false

namespace YcpToRuby.Generate

open Scope (Context)
open Ycp (Node)

variable {ctx : Context} {r : Ruby.Node}

/-! ## Values -/

/-- A constant becomes a literal, or the call that makes a path. -/
theorem constant_forms {type : Ycp.ConstType} {value : Option String}
    (h : constant type value = .ok r) :
    (∃ literal, r = .literal literal) ∨ ∃ text, r = .invoke none "path" [.string text] := by
  unfold constant at h
  split at h
  case h_2 => cases h
  case h_3 text =>
    unfold booleanNode at h
    split at h
    · exact Or.inl ⟨_, (Except.ok.inj h).symm⟩
    · split at h <;> cases h
      exact Or.inl ⟨_, rfl⟩
  case h_4 text =>
    unfold integerNode at h
    split at h <;> cases h
    exact Or.inl ⟨_, rfl⟩
  case h_5 text =>
    unfold floatNode at h
    split at h
    · split at h <;> cases h
      exact Or.inl ⟨_, rfl⟩
    · cases h
  case h_8 text => exact Or.inr ⟨text, (Except.ok.inj h).symm⟩
  all_goals exact Or.inl ⟨_, (Except.ok.inj h).symm⟩

/-- A builtin is a method of a constant, which may stand in `Builtins`. -/
theorem builtinReceiver_forms {name method : String}
    (h : builtinReceiver name = .ok (r, method)) :
    ∃ module, r = .constant module ∨ r = .const (some (.constant "Builtins")) module := by
  unfold builtinReceiver at h
  split at h
  · cases h
    exact ⟨_, Or.inl rfl⟩
  · simp only at h
    split at h <;> cases h
    rename_i hlookup
    obtain ⟨before, rest, hlist, -⟩ := List.lookup_eq_some_iff.mp hlookup
    have hmem : (_, r) ∈ builtinNamespaces := hlist ▸ List.mem_append_cons_self
    simp only [builtinNamespaces, List.mem_cons, Prod.mk.injEq, List.not_mem_nil, or_false] at hmem
    rcases hmem with ⟨-, rfl⟩ | ⟨-, rfl⟩ | ⟨-, rfl⟩ | ⟨-, rfl⟩ | ⟨-, rfl⟩
    · exact ⟨_, Or.inl rfl⟩
    · exact ⟨_, Or.inl rfl⟩
    · exact ⟨_, Or.inr rfl⟩
    · exact ⟨_, Or.inr rfl⟩
    · exact ⟨_, Or.inr rfl⟩

section Operators

attribute [local simp] reading Reading.expression

theorem assign_value_eq_ok {target : Ycp.QualifiedName} {value : Node} :
    (reading (.assign target value)).value ctx = .ok r ↔
      ∃ v, (reading value).value ctx = .ok v ∧ .assign (assignmentTarget ctx target) v = r := by
  simp

theorem compare_value_eq_ok {op : Ycp.CompareOp} {lhs rhs : Node} :
    (reading (.compare op lhs rhs)).value ctx = .ok r ↔
      ∃ a, (reading lhs).value ctx = .ok a ∧ ∃ b, (reading rhs).value ctx = .ok b ∧
        compareNode op a b = r := by
  simp

theorem binary_value_eq_ok {op : Ycp.BinaryOp} {lhs rhs : Node} :
    (reading (.binary op lhs rhs)).value ctx = .ok r ↔
      ∃ a, (reading lhs).value ctx = .ok a ∧ ∃ b, (reading rhs).value ctx = .ok b ∧
        binaryNode op a b = r := by
  simp

theorem unary_value_eq_ok {op : Ycp.UnaryOp} {operand : Node} :
    (reading (.unary op operand)).value ctx = .ok r ↔
      ∃ a, (reading operand).value ctx = .ok a ∧ unaryNode op a = r := by
  simp

theorem ternary_value_eq_ok {condition thenValue elseValue : Node} :
    (reading (.ternary condition thenValue elseValue)).value ctx = .ok r ↔
      ∃ c, (reading condition).value ctx = .ok c ∧ ∃ a, (reading thenValue).value ctx = .ok a ∧
        ∃ b, (reading elseValue).value ctx = .ok b ∧ .ternary c a b = r := by
  simp

end Operators

/-- Of all blocks only a closure is a value. -/
theorem block_value_eq_ok {info : Ycp.BlockInfo} {body : List Node} :
    (reading (.block (.mk info body))).value ctx = .ok r ↔
      info.kind = .unspec ∧ ∃ b, blockLiteral info (readings body) ctx = .ok b ∧ lambda b = r := by
  rw [reading]
  cases hkind : info.kind <;>
    simp [blockReading, hkind, Reading.expression, Reading.solid, Reading.statementOnly, invalid]

/-! ## Statements -/

variable {result : Option Ruby.Node}

theorem solid_statement_eq_ok {node : Node} {statement : Context → Generated Ruby.Node} :
    (Reading.solid node statement).statement ctx = .ok result ↔
      ∃ r, statement ctx = .ok r ∧ some r = result := by
  simp [Reading.solid, Reading.statementOnly]

theorem solid_statement_eq_some {node : Node} {statement : Context → Generated Ruby.Node} :
    (Reading.solid node statement).statement ctx = .ok (some r) ↔ statement ctx = .ok r := by
  simp [solid_statement_eq_ok]

theorem solid_statement_ne_none {node : Node} {statement : Context → Generated Ruby.Node} :
    (Reading.solid node statement).statement ctx ≠ .ok none := by
  simp [solid_statement_eq_ok]

theorem expression_statement_eq_ok {node : Node} {value : Context → Generated Ruby.Node} :
    (Reading.expression node value).statement ctx = .ok result ↔
      ∃ r, value ctx = .ok r ∧ some r = result := by
  simp [Reading.expression]

theorem body_eq_ok {reading : Reading} :
    reading.body ctx = .ok r ↔
      ∃ result, reading.statement ctx = .ok result ∧ .sequence (splice result) = r := by
  simp [Reading.body]

theorem statements_nil_eq_ok {entries : List (Option Ruby.Node)} :
    statements [] ctx = .ok entries ↔ [] = entries := by
  simp [statements]

theorem statements_cons_eq_ok {first : Reading} {rest : List Reading}
    {entries : List (Option Ruby.Node)} :
    statements (first :: rest) ctx = .ok entries ↔
      ∃ result, first.statement ctx = .ok result ∧
        ∃ others, statements rest ctx = .ok others ∧ splice result ++ others = entries := by
  simp only [statements, List.mapM_cons, bind_eq_ok, pure_eq_ok]
  constructor
  · rintro ⟨_, ⟨result, hresult, results, hresults, rfl⟩, rfl⟩
    exact ⟨result, hresult, _, ⟨results, hresults, rfl⟩, rfl⟩
  · rintro ⟨result, hresult, _, ⟨results, hresults, rfl⟩, rfl⟩
    exact ⟨_, ⟨result, hresult, results, hresults, rfl⟩, rfl⟩

theorem statement_of_statements {nodes : List Node} {entries : List (Option Ruby.Node)}
    (h : statements (nodes.map reading) ctx = .ok entries) :
    ∀ s ∈ nodes, ∃ result, (reading s).statement ctx = .ok result := by
  induction nodes generalizing entries with
  | nil => simp
  | cons first rest ih =>
    obtain ⟨result, hfirst, others, hrest, -⟩ := statements_cons_eq_ok.mp h
    intro s hs
    rcases List.mem_cons.mp hs with rfl | hs
    · exact ⟨result, hfirst⟩
    · exact ih hrest s hs

/-- A block that is no closure becomes the sequence of its statements, and a file inside another one
becomes nothing. -/
theorem nonclosure_statement_eq_ok {info : Ycp.BlockInfo} {body : List Node}
    (hkind : info.kind ≠ .unspec) :
    (reading (.block (.mk info body))).statement ctx = .ok result ↔
      (info.kind = .stmt ∨ info.kind = .function) ∧
        ∃ entries, statements (body.map reading) (ctx.inside (.block info)) = .ok entries ∧
          some (.sequence entries) = result := by
  rw [reading, readings_eq_map]
  cases hfound : info.kind with
  | unspec => exact absurd hfound hkind
  | stmt | function | module | file =>
    simp [blockReading, hfound, solid_statement_eq_ok, invalid]

theorem block_statement_eq_ok {info : Ycp.BlockInfo} {body : List Node}
    (hkind : info.kind = .stmt) :
    (reading (.block (.mk info body))).statement ctx = .ok result ↔
      ∃ entries, statements (body.map reading) (ctx.inside (.block info)) = .ok entries ∧
        some (.sequence entries) = result := by
  rw [nonclosure_statement_eq_ok (by simp [hkind]), and_iff_right (Or.inl hkind)]

/-! ## Branches and loops -/

inductive BranchOf (ctx : Context) : Option Node → Option Ruby.Node → Prop
  | absent : BranchOf ctx none none
  | empty {info : Ycp.BlockInfo} (hkind : info.kind = .stmt) :
      BranchOf ctx (some (.block (.mk info []))) none
  | sequence {s : Node} {result : Option Ruby.Node}
      (h : (reading s).statement ctx = .ok result) :
      BranchOf ctx (some s) (some (.sequence (splice result)))
  | chained {s : Node} {result : Option Ruby.Node}
      (h : (reading s).statement ctx = .ok result) : BranchOf ctx (some s) result

theorem isEmptyBlock_eq_true {s : Node} (h : isEmptyBlock s = true) :
    ∃ info : Ycp.BlockInfo, info.kind = .stmt ∧ s = .block (.mk info []) := by
  unfold isEmptyBlock at h
  split at h
  · exact ⟨_, by simpa using h, rfl⟩
  · cases h

theorem branchOf_of_body {s : Node} (h : (reading s).body ctx = .ok r) :
    BranchOf ctx (some s) (some r) := by
  obtain ⟨result, hresult, rfl⟩ := body_eq_ok.mp h
  exact .sequence hresult

theorem branchOf_of_branch {part : Option Node} (h : branch (part.map reading) ctx = .ok result) :
    BranchOf ctx part result := by
  cases part with
  | none =>
    obtain rfl : none = result := by simpa [branch] using h
    exact .absent
  | some s =>
    simp only [Option.map_some, branch, node_reading] at h
    split at h
    · rename_i hempty
      obtain ⟨info, hkind, rfl⟩ := isEmptyBlock_eq_true hempty
      obtain rfl : none = result := by simpa using h
      exact .empty hkind
    · obtain ⟨body, hbody, rfl⟩ := map_eq_ok.mp h
      exact branchOf_of_body hbody

theorem branchOf_of_elseBranch {part : Option Node}
    (h : elseBranch (part.map reading) ctx = .ok result) : BranchOf ctx part result := by
  cases part with
  | none =>
    obtain rfl : none = result := by simpa [elseBranch] using h
    exact .absent
  | some s =>
    simp only [Option.map_some, elseBranch, node_reading] at h
    split at h
    · exact .chained h
    · obtain ⟨body, hbody, rfl⟩ := map_eq_ok.mp h
      exact branchOf_of_body hbody

theorem BranchOf.statement_eq_ok {part : Option Node} (h : BranchOf ctx part result) :
    ∀ s ∈ part, ∃ result, (reading s).statement ctx = .ok result := by
  cases h with
  | absent => simp
  | empty hkind =>
    rintro s ⟨⟩
    exact ⟨_, (block_statement_eq_ok hkind).mpr ⟨[], statements_nil_eq_ok.mpr rfl, rfl⟩⟩
  | sequence h =>
    rintro s ⟨⟩
    exact ⟨_, h⟩
  | chained h =>
    rintro s ⟨⟩
    exact ⟨_, h⟩

inductive ConditionalOf (test : Ruby.Node) : Option Ruby.Node → Option Ruby.Node → Ruby.Node → Prop
  | ifElse {thenBody : Ruby.Node} {elseBody : Option Ruby.Node} :
      ConditionalOf test (some thenBody) elseBody (.ifElse test thenBody elseBody)
  | elseOnly {elseBody : Ruby.Node} :
      ConditionalOf test none (some elseBody) (.unlessElse test elseBody none)
  | nothing : ConditionalOf test none none (.ifElse test (.sequence []) none)

theorem conditional_eq_ok {condition : Node} {thenPart elsePart : Option Node}
    (h : conditional (reading condition) (optionReading thenPart) (optionReading elsePart) ctx =
      .ok r) :
    ∃ test, (reading condition).value ctx = .ok test ∧
      ∃ thenBody elseBody, BranchOf ctx thenPart thenBody ∧ BranchOf ctx elsePart elseBody ∧
        ConditionalOf test thenBody elseBody r := by
  simp only [optionReading_eq_map, conditional, bind_eq_ok] at h
  obtain ⟨test, htest, thenBody, hthen, h⟩ := h
  refine ⟨test, htest, thenBody, ?_⟩
  cases thenBody with
  | some body =>
    obtain ⟨elseBody, helse, h⟩ := bind_eq_ok.mp h
    obtain rfl := pure_eq_ok.mp h
    exact ⟨elseBody, branchOf_of_branch hthen, branchOf_of_elseBranch helse, .ifElse⟩
  | none =>
    cases elsePart with
    | some s =>
      obtain ⟨elseBody, helse, h⟩ := bind_eq_ok.mp h
      obtain rfl := pure_eq_ok.mp h
      exact ⟨some elseBody, branchOf_of_branch hthen, branchOf_of_body helse, .elseOnly⟩
    | none =>
      obtain rfl := pure_eq_ok.mp h
      exact ⟨none, branchOf_of_branch hthen, .absent, .nothing⟩

theorem loop_eq_ok {kind : Ycp.LoopKind} {condition body : Node} :
    loop kind (reading condition) (reading body) ctx = .ok r ↔
      ∃ test, (reading condition).value ctx = .ok test ∧
        ∃ result, (reading body).statement (ctx.inside (.loop kind)) = .ok result ∧
          loopNode kind test (.sequence (splice result)) = r := by
  simp [loop, body_eq_ok]

/-! ## Switches -/

theorem caseReadings_eq_map (cases : List (Node × Ycp.Block)) :
    caseReadings cases =
      cases.map fun c => (reading c.1, c.2.info, c.2.statements.map reading) := by
  induction cases with
  | nil => simp [caseReadings]
  | cons c rest ih =>
    obtain ⟨value, info, body⟩ := c
    simp [caseReadings, readings_eq_map, ih, Ycp.Block.info, Ycp.Block.statements]

theorem defaultReading_eq_map (default : Option Ycp.Block) :
    defaultReading default =
      default.map fun block => (block.info, block.statements.map reading) := by
  cases default with
  | none => simp [defaultReading]
  | some block =>
    obtain ⟨info, body⟩ := block
    simp [defaultReading, readings_eq_map, Ycp.Block.info, Ycp.Block.statements]

theorem isBreak_eq_true {s : Node} (h : isBreak s = true) : s = .breakLoop := by
  unfold isBreak at h
  split at h
  · rfl
  · cases h

theorem isReturn_eq_true {s : Node} (h : isReturn s = true) : ∃ value, s = .ret value := by
  unfold isReturn at h
  split at h
  · exact ⟨_, rfl⟩
  · cases h

inductive ClauseEnd : List Node → List Node → Prop
  | byBreak {kept : List Node} : ClauseEnd (kept ++ [.breakLoop]) kept
  | byReturn {init : List Node} {value : Option Node} :
      ClauseEnd (init ++ [.ret value]) (init ++ [.ret value])

theorem ClauseEnd.subset {body kept : List Node} (h : ClauseEnd body kept) : kept ⊆ body := by
  cases h with
  | byBreak => exact List.subset_append_left _ _
  | byReturn => exact List.Subset.refl _

theorem withoutBreak_map (body : List Node) :
    ∃ kept, withoutBreak (body.map reading) = kept.map reading ∧
      (body = kept ++ [.breakLoop] ∨
        body = kept ∧ (leavesSwitch (body.map reading) = true → ClauseEnd body kept)) := by
  rcases List.eq_nil_or_concat body with rfl | ⟨init, last, rfl⟩
  · exact ⟨[], rfl, Or.inr ⟨rfl, by simp [leavesSwitch]⟩⟩
  · rw [List.concat_eq_append]
    by_cases hbreak : isBreak last = true
    · obtain rfl := isBreak_eq_true hbreak
      exact ⟨init, by simp [withoutBreak, node_reading, hbreak], Or.inl rfl⟩
    · refine ⟨init ++ [last], by simp [withoutBreak, node_reading, hbreak], Or.inr ⟨rfl, ?_⟩⟩
      intro hleaves
      have hreturn : isReturn last = true := by
        simpa [leavesSwitch, node_reading, hbreak] using hleaves
      obtain ⟨value, rfl⟩ := isReturn_eq_true hreturn
      exact .byReturn

theorem clauseBody_eq_ok {clause : Scope.Clause} {info : Ycp.BlockInfo} {body : List Reading} :
    clauseBody clause info body ctx = .ok r ↔
      ∃ entries,
        statements body ((ctx.inside (.clause clause)).inside (.block info)) = .ok entries ∧
          .sequence entries = r := by
  simp [clauseBody]

theorem caseClause_eq_ok {value : Node} {info : Ycp.BlockInfo} {body : List Node}
    {clause : List Ruby.Node × Ruby.Node}
    (h : caseClause (reading value) info (body.map reading) ctx = .ok clause) :
    ∃ test entries, clause = ([test], .sequence entries) ∧ (reading value).value ctx = .ok test ∧
      ∃ kept, ClauseEnd body kept ∧
        statements (kept.map reading)
          ((ctx.inside (.clause (.case value.describe))).inside (.block info)) = .ok entries := by
  simp only [caseClause, node_reading] at h
  split at h
  · rename_i hleaves
    obtain ⟨kept, hkept, hend⟩ := withoutBreak_map body
    simp only [hkept, bind_eq_ok, clauseBody_eq_ok, pure_eq_ok] at h
    obtain ⟨test, htest, _, ⟨entries, hentries, rfl⟩, rfl⟩ := h
    refine ⟨test, entries, rfl, htest, kept, ?_, hentries⟩
    rcases hend with rfl | ⟨-, hend⟩
    · exact .byBreak
    · exact hend hleaves
  · simp [unsupported] at h

theorem defaultClause_eq_ok {info : Ycp.BlockInfo} {body : List Node}
    (h : defaultClause (some (info, body.map reading)) ctx = .ok result) :
    ∃ kept, (body = kept ++ [.breakLoop] ∨ body = kept) ∧
      (kept = [] ∧ result = none ∨
        ∃ entries, result = some (.sequence entries) ∧
          statements (kept.map reading)
            ((ctx.inside (.clause .default)).inside (.block info)) = .ok entries) := by
  obtain ⟨kept, hkept, hend⟩ := withoutBreak_map body
  refine ⟨kept, hend.imp_right And.left, ?_⟩
  simp only [defaultClause, hkept] at h
  split at h
  · rename_i hempty
    obtain rfl : none = result := by simpa using h
    exact Or.inl ⟨by simpa using hempty, rfl⟩
  · simp only [map_eq_ok, clauseBody_eq_ok] at h
    obtain ⟨_, ⟨entries, hentries, rfl⟩, rfl⟩ := h
    exact Or.inr ⟨entries, rfl, hentries⟩

theorem switch_eq_ok {condition : Node} {cases : List (Node × Ycp.Block)}
    {default : Option Ycp.Block} :
    switch (reading condition) (caseReadings cases) (defaultReading default) ctx = .ok r ↔
      ∃ subject, (reading condition).value ctx = .ok subject ∧
        ∃ clauses, List.Forall₂ (fun c clause =>
            caseClause (reading c.1) c.2.info (c.2.statements.map reading) ctx = .ok clause)
            cases clauses ∧
          ∃ elseBody, defaultClause
              (default.map fun block => (block.info, block.statements.map reading)) ctx =
              .ok elseBody ∧
            .caseWhen subject clauses elseBody = r := by
  simp only [switch, bind_eq_ok, pure_eq_ok, mapM_eq_ok, caseReadings_eq_map,
    defaultReading_eq_map, List.forall₂_map_left_iff]

end YcpToRuby.Generate
