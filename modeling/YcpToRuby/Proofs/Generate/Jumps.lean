import YcpToRuby.Proofs.Generate.ValueJumps

/-!
# Where the jumps of a program end up

Every jump of a generated tree is the image of one jump of the program, and what encloses it is read
off the path to that jump. So the place of a jump in the Ruby tree and the frames that decided its
form are compared without looking at the tree.
-/

set_option autoImplicit false

namespace YcpToRuby.Generate

open Scope (Clause Context)
open Ruby (Enclosure IsLoopJump exists_mem_filterMap)
open Ycp (Block BlockInfo Node Occurs Position caseParts clauseParts occurs_iff)

variable {settings : Settings} {path : List Position} {m : Ruby.Node} {around : List Enclosure}
variable {n : Node} {r : Ruby.Node}

/-! ## Branches, clauses and functions -/

theorem BranchOf.hasJump_iff {part : Option Node} {result : Option Ruby.Node}
    (h : BranchOf (contextAt settings path) part result) :
    (∃ r ∈ result, r.HasJump m around) ↔
      ∃ s ∈ part, MadeJump (made settings (.branch :: path) s) m around := by
  cases h with
  | absent => simp
  | empty hkind =>
    rename_i info
    have hempty : (reading (.block (.mk info []))).statement (contextAt settings path) =
        .ok (some (.sequence [])) :=
      (block_statement_eq_ok hkind).mpr ⟨[], rfl, rfl⟩
    simp [hempty]
  | sequence h => simp [h, MadeJump]
  | chained h => simp [h, MadeJump]

theorem ConditionalOf.hasJump_iff {test r : Ruby.Node} {thenBody elseBody : Option Ruby.Node}
    (h : ConditionalOf test thenBody elseBody r) :
    r.HasJump m around ↔ test.HasJump m around ∨ (∃ n ∈ thenBody, n.HasJump m around) ∨
      ∃ n ∈ elseBody, n.HasJump m around := by
  cases h <;> simp

theorem ConditionalOf.not_isLoopJump {test r : Ruby.Node} {thenBody elseBody : Option Ruby.Node}
    (h : ConditionalOf test thenBody elseBody r) : ¬ IsLoopJump r := by
  cases h <;> rintro ⟨⟩

theorem enclosure?_of_mem_clauseParts {clause : Clause} {block : Block} {part : Position × Node}
    (h : part ∈ clauseParts clause block) : (enclosure? part.1).toList = [.clauseBody] := by
  simp only [clauseParts, List.mem_append, List.mem_map] at h
  rcases h with ⟨s, -, rfl⟩ | ⟨s, -, rfl⟩
  · rfl
  · rfl

theorem hasJump_of_clause {clause : Clause} {block : Block} {entries : List (Option Ruby.Node)}
    (h : statements (withoutBreak (block.statements.map reading))
      (((contextAt settings path).inside (.clause clause)).inside (.block block.info)) =
        .ok entries) :
    (∃ inner, (Ruby.Node.sequence entries).HasJump m inner ∧ around = inner ++ [.clauseBody]) ↔
      PartJump settings path (clauseParts clause block) m around := by
  obtain ⟨kept, hkept, hmade⟩ := exists_withoutBreak settings path clause block
  rw [← contextAt_clauseBody, hkept] at h
  simp only [hasJump_of_statements rfl (by simp) h]
  constructor
  · rintro ⟨inner, ⟨n, hn, r, hr, hjump⟩, rfl⟩
    obtain ⟨part, hpart, hpartMade⟩ := (hmade _ (by simp)).mpr ⟨n, hn, hr⟩
    exact ⟨part, hpart, inner, ⟨r, hpartMade, hjump⟩,
      by rw [enclosure?_of_mem_clauseParts hpart]⟩
  · rintro ⟨part, hpart, inner, ⟨r, hr, hjump⟩, rfl⟩
    obtain ⟨n, hn, hnMade⟩ := (hmade _ (by simp)).mp ⟨part, hpart, hr⟩
    exact ⟨inner, ⟨n, hn, r, hnMade, hjump⟩, by rw [enclosure?_of_mem_clauseParts hpart]⟩

theorem hasJump_of_caseClause {c : Node × Block} {clause : List Ruby.Node × Ruby.Node}
    (h : caseClause (reading c.1) c.2.info (c.2.statements.map reading)
      (contextAt settings path) = .ok clause) :
    ((∃ n ∈ clause.1, n.HasJump m around) ∨
        ∃ inner, clause.2.HasJump m inner ∧ around = inner ++ [.clauseBody]) ↔
      PartJump settings path (caseParts c) m around := by
  simp only [caseClause, node_reading] at h
  split at h
  · simp only [clauseBody, bind_eq_ok, pure_eq_ok] at h
    obtain ⟨test, htest, _, ⟨entries, hentries, rfl⟩, rfl⟩ := h
    simp only [hasJump_of_clause hentries, caseParts, partJump_cons, hasJump_of_value htest]
    simp [enclosure?]
  · cases h

theorem hasJump_of_defaultClause {default : Option Block} {result : Option Ruby.Node}
    (h : defaultClause (default.map fun block => (block.info, block.statements.map reading))
      (contextAt settings path) = .ok result) :
    (∃ n ∈ result, ∃ inner, n.HasJump m inner ∧ around = inner ++ [.clauseBody]) ↔
      PartJump settings path (default.toList.flatMap (clauseParts .default)) m around := by
  cases default with
  | none =>
    cases h
    simp
  | some block =>
    simp only [Option.map_some, defaultClause] at h
    split at h
    · rename_i hempty
      cases h
      have hnone : statements (withoutBreak (block.statements.map reading))
          (((contextAt settings path).inside (.clause .default)).inside (.block block.info)) =
            .ok [] := by
        rw [List.isEmpty_iff.mp hempty]
        rfl
      simp [← hasJump_of_clause hnone]
    · simp only [map_eq_ok, clauseBody_eq_ok] at h
      obtain ⟨_, ⟨entries, hentries, rfl⟩, rfl⟩ := h
      simp [← hasJump_of_clause hentries]

theorem assembles_switch {condition : Node} {cases : List (Node × Block)} {default : Option Block}
    (h : switch (reading condition) (caseReadings cases) (defaultReading default)
      (contextAt settings path) = .ok r) :
    Assembles settings path (.switch condition cases default) r := by
  rw [caseReadings_eq_map, defaultReading_eq_map] at h
  simp only [switch, List.mapM_map, bind_eq_ok, pure_eq_ok] at h
  obtain ⟨subject, hsubject, clauses, hclauses, elseBody, helse, rfl⟩ := h
  refine ⟨by rintro ⟨⟩, fun m around => ?_⟩
  have hcases :
      (∃ clause ∈ clauses, (∃ n ∈ clause.1, n.HasJump m around) ∨
        ∃ inner, clause.2.HasJump m inner ∧ around = inner ++ [.clauseBody]) ↔
      ∃ c ∈ cases, PartJump settings path (caseParts c) m around := by
    rw [exists_mem_of_mapM_eq_ok hclauses]
    refine exists_congr fun c => and_congr_right fun hc => ?_
    obtain ⟨clause, hclause⟩ := exists_ok_of_mapM_eq_ok hclauses c hc
    simp only [hclause, Except.ok.injEq, exists_eq_left']
    exact hasJump_of_caseClause hclause
  simp only [Ruby.Node.hasJump_caseWhen, hcases, hasJump_of_defaultClause helse, Node.parts,
    partJump_cons, partJump_append, partJump_flatMap, hasJump_of_value hsubject]
  simp [enclosure?]

theorem not_hasJump_copies (ctx : Context) (params : List Ycp.Symbol) :
    ¬ (Ruby.Node.sequence ((params.filter needsCopy).map fun param =>
      copyParam (ctx.localName param.name))).HasJump m around := by
  rw [Ruby.Node.hasJump_sequence]
  rintro ⟨node, hnode, hjump⟩
  obtain ⟨param, -, hparam⟩ := List.mem_map.mp hnode
  cases hparam
  simp at hjump

theorem assembles_functionDef {name : String} {params : List Ycp.Symbol} {info : BlockInfo}
    {body : List Node}
    (h : functionDef name params info (body.map reading) (contextAt settings path) = .ok r) :
    Assembles settings path (.funDef name params (.mk info body)) r := by
  unfold functionDef at h
  split at h
  · cases h
  · split at h
    · cases h
    · simp only [← contextAt_functionBody, bind_eq_ok, pure_eq_ok] at h
      obtain ⟨entries, hentries, rfl⟩ := h
      refine ⟨by rintro ⟨⟩, fun m around => ?_⟩
      rw [Ruby.Node.hasJump_methodDef, Ruby.Node.hasJump_sequence_append,
        hasJump_of_statements rfl (by simp) hentries, or_iff_right (not_hasJump_copies _ _)]
      simp [Node.parts, Block.statements, Block.info, enclosure?]

/-! ## Statements -/

theorem not_hasJump_textdomainNode (name : String) :
    ¬ (textdomainNode name).HasJump m around := by
  simp [textdomainNode, Ruby.Node.hasJump_command_none]

theorem assembles_block {info : BlockInfo} {body : List Node} (hkind : info.kind ≠ .unspec)
    (h : (reading (.block (.mk info body))).statement (contextAt settings path) = .ok (some r)) :
    Assembles settings path (.block (.mk info body)) r := by
  obtain ⟨-, entries, hentries, hr⟩ := (nonclosure_statement_eq_ok hkind).mp h
  obtain rfl := Option.some.inj hr
  rw [← contextAt_blockBody] at hentries
  refine ⟨by rintro ⟨⟩, fun m around => ?_⟩
  rw [hasJump_of_statements rfl (by simp) hentries]
  simp [Node.parts, Block.parts, Block.info, Block.statements, enclosure?, hkind]

inductive IsSourceJump : Node → Prop
  | breakLoop : IsSourceJump .breakLoop
  | continueLoop : IsSourceJump .continueLoop
  | ret (value : Option Node) : IsSourceJump (.ret value)

theorem IsSourceJump.isValue_eq_false (h : IsSourceJump n) : n.isValue = false := by
  cases h <;> rfl

theorem assembles_statement (hn : n.IsSound) (hjump : ¬ IsSourceJump n)
    (h : (reading n).statement (contextAt settings path) = .ok (some r)) :
    Assembles settings path n r := by
  cases hvalue : n.isValue with
  | true =>
    rw [statement_eq_value hvalue, map_eq_ok] at h
    obtain ⟨v, hv, hr⟩ := h
    cases hr
    exact assembles_value hn hv
  | false =>
    cases n <;> simp only [Node.isValue, Bool.true_eq_false] at hvalue
    case block block =>
      obtain ⟨info, body⟩ := block
      exact assembles_block (of_decide_eq_false hvalue) h
    case ifElse condition thenBody elseBody =>
      obtain ⟨test, htest, thenResult, elseResult, hthen, helse, hof⟩ :=
        conditional_eq_ok (solid_statement_eq_some.mp h)
      refine ⟨hof.not_isLoopJump, fun m around => ?_⟩
      rw [hof.hasJump_iff, hthen.hasJump_iff, helse.hasJump_iff]
      simp [Node.parts, htest, enclosure?]
    case loop kind condition body =>
      obtain ⟨test, htest, result, hresult, rfl⟩ := loop_eq_ok.mp (solid_statement_eq_some.mp h)
      refine ⟨by cases kind <;> rintro ⟨⟩, fun m around => ?_⟩
      cases kind <;> simp [loopNode, Node.parts, htest, hresult, enclosure?, MadeJump]
    case breakLoop => exact absurd .breakLoop hjump
    case continueLoop => exact absurd .continueLoop hjump
    case ret value => exact absurd (.ret value) hjump
    case switch condition cases default =>
      exact assembles_switch (solid_statement_eq_some.mp h)
    case funDef name params body =>
      obtain ⟨info, statements⟩ := body
      rw [reading, readings_eq_map] at h
      exact assembles_functionDef (solid_statement_eq_some.mp h)
    case importModule name =>
      cases h
      exact .of_leaf rfl fun m around => by simp [importNode]
    case includeFile name skip =>
      cases skip <;> cases h
      exact .of_leaf rfl fun m around => by simp
    case textdomain name =>
      cases h
      exact .of_leaf rfl fun m around => not_hasJump_textdomainNode name
    case typedef => cases h
    case filename name => cases h

/-! ## Whole files -/

def Part.HasJump (p : Part) (m : Ruby.Node) (around : List Enclosure) : Prop :=
  match p with
  | .textdomain node | .function node => node.HasJump m around
  | .main entries => (Ruby.Node.sequence entries).HasJump m around

def Sections.HasJump (parts : Sections) (m : Ruby.Node) (around : List Enclosure) : Prop :=
  (∃ t ∈ parts.textdomains, t.HasJump m around) ∨
    (Ruby.Node.sequence parts.main).HasJump m around ∨
    ∃ f ∈ parts.functions, f.HasJump m around

theorem Sections.hasJump_ofParts (ps : List Part) :
    (ofParts ps).HasJump m around ↔ ∃ p ∈ ps, p.HasJump m around := by
  have hpart (p : Part) : p.HasJump m around ↔
      (∃ t ∈ p.textdomain?, t.HasJump m around) ∨
        (Ruby.Node.sequence p.mainEntries).HasJump m around ∨
        ∃ f ∈ p.function?, f.HasJump m around := by
    cases p <;> simp [Part.HasJump, Part.textdomain?, Part.mainEntries, Part.function?]
  simp only [HasJump, ofParts, exists_mem_filterMap, Ruby.Node.hasJump_sequence_flatMap, hpart,
    and_or_left, exists_or]

/-- The jumps of what a statement adds to the class are those of the statement. -/
theorem hasJump_of_part {ctx : Context} {s : Node} {p : Part} (h : part ctx s = .ok p) :
    p.HasJump m around ↔ MadeJump ((reading s).statement ctx) m around := by
  unfold part at h
  split at h
  · cases h
    simp [Part.HasJump, reading, Reading.solid, Reading.statementOnly]
  · obtain ⟨r, hr, rfl⟩ := map_eq_ok.mp h
    simp [Part.HasJump, reading, Reading.solid, Reading.statementOnly, hr]
  · cases h
    simp [Part.HasJump, reading, Reading.statementOnly]
  · cases h
    simp [Part.HasJump, reading, Reading.statementOnly]
  · simp only [bind_eq_ok, pure_eq_ok] at h
    obtain ⟨result, hresult, rfl⟩ := h
    simp [Part.HasJump, hresult, MadeJump]

theorem hasJump_of_sections {info : BlockInfo} {body : List Node} {parts : Sections}
    (h : sections ((contextAt settings []).inside (.block info)) body = .ok parts) :
    parts.HasJump m around ↔
      ∃ s ∈ body, MadeJump (made settings [.blockBody info] s) m around := by
  obtain ⟨ps, hps, rfl⟩ := map_eq_ok.mp h
  rw [Sections.hasJump_ofParts, exists_mem_of_mapM_eq_ok hps]
  refine exists_congr fun s => and_congr_right fun hs => ?_
  obtain ⟨p, hp⟩ := exists_ok_of_mapM_eq_ok hps s hs
  simp only [hp, Except.ok.injEq, exists_eq_left']
  rw [hasJump_of_part hp, made_statement rfl (by simp), contextAt_blockBody]

theorem not_hasJump_of_publishCall {exportPrivate : Bool} {symbol : Ycp.Symbol} {r : Ruby.Node}
    (h : publishCall exportPrivate symbol = some r) : ¬ r.HasJump m around := by
  unfold publishCall at h
  split at h
  · obtain ⟨kind, -, rfl⟩ := Option.map_eq_some_iff.mp h
    split <;> simp [Ruby.Node.hasJump_command_none]
  · cases h

theorem hasJump_moduleProgram (name : String) (info : BlockInfo) (exportPrivate : Bool)
    (parts : Sections) :
    (moduleProgram name info exportPrivate parts).HasJump m around ↔
      parts.HasJump m around := by
  have hpublish : ¬ ∃ r ∈ info.symbols.filterMap (publishCall exportPrivate),
      r.HasJump m around := by
    rintro ⟨r, hr, hjump⟩
    obtain ⟨symbol, -, hsymbol⟩ := List.mem_filterMap.mp hr
    exact not_hasJump_of_publishCall hsymbol hjump
  have hmain : (∃ n ∈ if parts.main.any Option.isSome then [mainMethod parts.main] else [],
      n.HasJump m around) ↔ (Ruby.Node.sequence parts.main).HasJump m around := by
    split
    · simp [mainMethod]
    · rename_i hnone
      have hentries : ∀ entry ∈ parts.main, entry = none := by simpa using hnone
      constructor
      · simp
      · intro hjump
        obtain ⟨n, hn, -⟩ := (Ruby.Node.hasJump_sequence _).mp hjump
        cases hentries _ hn
  have hrun : ¬ ∃ n ∈ if parts.main.any Option.isSome then
      [Ruby.Node.command (some (.constant name)) "main" []] else [], n.HasJump m around := by
    split <;> simp
  simp only [moduleProgram, Ruby.Node.hasJump_program, Ruby.Node.hasJump_statements,
    List.mem_cons, List.mem_append, List.not_mem_nil, or_false, or_and_right, exists_or,
    exists_eq_left, Ruby.Node.hasJump_moduleDef, Ruby.Node.hasJump_classDef, hmain, hpublish, hrun]
  simp [Sections.HasJump, Ruby.Node.hasJump_command_none, or_assoc]

theorem hasJump_clientProgram (className : String) (parts : Sections) :
    (clientProgram className parts).HasJump m around ↔ parts.HasJump m around := by
  have hresult : (Ruby.Node.sequence (withResult parts.main)).HasJump m around ↔
      (Ruby.Node.sequence parts.main).HasJump m around := by
    unfold withResult
    split
    · split <;> simp [Ruby.Node.nil, or_and_right, exists_or]
    · simp [Ruby.Node.nil, or_and_right, exists_or]
  simp [Sections.HasJump, clientProgram, mainMethod, or_and_right, exists_or, hresult,
    -Ruby.Node.hasJump_sequence]

/-- Only nodes without parts leave nothing behind. -/
theorem parts_eq_nil_of_statement {ctx : Context} (h : (reading n).statement ctx = .ok none) :
    n.parts = [] := by
  cases hvalue : n.isValue with
  | true =>
    rw [statement_eq_value hvalue, map_eq_ok] at h
    obtain ⟨_, -, hnone⟩ := h
    cases hnone
  | false =>
    cases n <;> simp only [Node.isValue, Bool.true_eq_false] at hvalue
    case includeFile | typedef | filename => rfl
    case block block =>
      obtain ⟨info, body⟩ := block
      obtain ⟨-, entries, -, hnone⟩ :=
        (nonclosure_statement_eq_ok (of_decide_eq_false hvalue)).mp h
      cases hnone
    case funDef name params body =>
      obtain ⟨info, statements⟩ := body
      exact absurd h solid_statement_ne_none
    all_goals exact absurd h solid_statement_ne_none

theorem assembles_file {info : BlockInfo} {body : List Node} {parts : Sections}
    (hkind : info.kind ≠ .unspec)
    (h : sections ((contextAt settings []).inside (.block info)) body = .ok parts)
    (hnot : ¬ IsLoopJump r) (hr : ∀ m around, r.HasJump m around ↔ parts.HasJump m around) :
    Assembles settings [] (.block (.mk info body)) r := by
  refine ⟨hnot, fun m around => ?_⟩
  rw [hr, hasJump_of_sections h]
  simp [Node.parts, Block.parts, Block.statements, Block.info, enclosure?, hkind]

theorem assembles_unit (hn : n.IsSound) (hjump : ¬ IsSourceJump n)
    (h : unit settings n = .ok r) : Assembles settings [] n r := by
  have hfragment (h : (do return ((← (reading n).statement (contextAt settings [])).getD
      (.sequence [])) : Generated Ruby.Node) = .ok r) : Assembles settings [] n r := by
    simp only [bind_eq_ok, pure_eq_ok] at h
    obtain ⟨result, hresult, rfl⟩ := h
    cases result with
    | some r => exact assembles_statement hn hjump hresult
    | none => exact .of_leaf (parts_eq_nil_of_statement hresult) fun m around => by simp
  unfold unit at h
  split at h
  · rename_i info body
    split at h
    · rename_i hkind
      unfold moduleUnit at h
      split at h
      · cases h
      · obtain ⟨parts, hparts, rfl⟩ := map_eq_ok.mp h
        exact assembles_file (by simp [hkind]) hparts (by rintro ⟨⟩) fun m around =>
          hasJump_moduleProgram _ _ _ _
    · rename_i hkind
      unfold clientUnit at h
      split at h
      · cases h
      · simp only [bind_eq_ok, pure_eq_ok] at h
        obtain ⟨className, -, parts, hparts, rfl⟩ := h
        exact assembles_file (by simp [hkind]) hparts (by rintro ⟨⟩) fun m around =>
          hasJump_clientProgram _ _
    · exact hfragment h
  · exact hfragment h

/-! ## One node -/

/-- What is generated for a node at its place, jumps apart, has the jumps of its parts. -/
theorem assembles_made (hn : n.IsSound) (hjump : ¬ IsSourceJump n)
    (h : made settings path n = .ok (some r)) : Assembles settings path n r := by
  unfold made at h
  split at h
  · obtain ⟨_, hunit, hr⟩ := map_eq_ok.mp h
    cases hr
    exact assembles_unit hn hjump hunit
  · cases h
  · cases h
  · split at h
    · obtain ⟨_, hvalue, hr⟩ := map_eq_ok.mp h
      cases hr
      exact assembles_value hn hvalue
    · exact assembles_statement hn hjump h

theorem parts_eq_nil_of_made (h : made settings path n = .ok none) : n.parts = [] := by
  unfold made at h
  split at h
  · obtain ⟨_, -, hnone⟩ := map_eq_ok.mp h
    cases hnone
  · rfl
  · rfl
  · split at h
    · obtain ⟨_, -, hnone⟩ := map_eq_ok.mp h
      cases hnone
    · exact parts_eq_nil_of_statement h

inductive JumpOf (settings : Settings) (path : List Position) : Node → Ruby.Node → Prop
  | breakLoop {r : Ruby.Node} (h : breakNode (contextAt settings path) = .ok r) :
      JumpOf settings path .breakLoop r
  | continueLoop : JumpOf settings path .continueLoop (.next none)
  | ret : JumpOf settings path (.ret none) (returnNode none (contextAt settings path))
  | retValue {value : Node} {v : Ruby.Node}
      (h : (reading value).value (contextAt settings path) = .ok v) :
      JumpOf settings path (.ret (some value)) (returnNode (some v) (contextAt settings path))

theorem jumpOf_of_statement (hjump : IsSourceJump n) {result : Option Ruby.Node}
    (h : (reading n).statement (contextAt settings path) = .ok result) :
    ∃ r, result = some r ∧ JumpOf settings path n r := by
  cases hjump with
  | breakLoop =>
    obtain ⟨r, hr, rfl⟩ := solid_statement_eq_ok.mp h
    exact ⟨r, rfl, .breakLoop hr⟩
  | continueLoop =>
    obtain ⟨r, hr, rfl⟩ := solid_statement_eq_ok.mp h
    cases hr
    exact ⟨_, rfl, .continueLoop⟩
  | ret value =>
    obtain ⟨r, hr, rfl⟩ := solid_statement_eq_ok.mp h
    cases value with
    | none =>
      cases hr
      exact ⟨_, rfl, .ret⟩
    | some value =>
      obtain ⟨v, hv, hr⟩ := bind_eq_ok.mp hr
      cases hr
      exact ⟨_, rfl, .retValue hv⟩

theorem jumpOf_of_made (hjump : IsSourceJump n) (h : made settings path n = .ok (some r)) :
    JumpOf settings path n r := by
  unfold made at h
  split at h
  · obtain ⟨_, hunit, hr⟩ := map_eq_ok.mp h
    cases hr
    unfold unit at hunit
    split at hunit
    · cases hjump
    · obtain ⟨_, hresult, hr⟩ := bind_eq_ok.mp hunit
      obtain ⟨_, rfl, hof⟩ :=
        @jumpOf_of_statement settings [] _ hjump _ hresult
      cases hr
      exact hof
  · cases h
  · cases h
  · rw [value_eq_error hjump.isValue_eq_false] at h
    split at h
    · cases h
    · obtain ⟨_, hr, hof⟩ := jumpOf_of_statement hjump h
      cases hr
      exact hof

theorem returnNode_forms (value : Option Ruby.Node) (ctx : Context) :
    returnNode value ctx = .next value ∨ returnNode value ctx = .ret value := by
  unfold returnNode
  split
  · split
    · exact Or.inl rfl
    · exact Or.inr rfl
  · exact Or.inr rfl

theorem breakNode_forms {ctx : Context} (h : breakNode ctx = .ok r) :
    r = .breakLoop ∨ r = Ruby.raiseBreak := by
  unfold breakNode at h
  split at h <;> cases h
  · exact Or.inr rfl
  · exact Or.inl rfl

theorem JumpOf.hasJump_iff (h : JumpOf settings path n r) :
    r.HasJump m around ↔
      (IsLoopJump r ∧ m = r ∧ around = []) ∨ PartJump settings path n.parts m around := by
  cases h with
  | breakLoop h =>
    rcases breakNode_forms h with rfl | rfl
    · simp [Node.parts, IsLoopJump.breakLoop]
    · simp [Node.parts, IsLoopJump.raiseBreak]
  | continueLoop => simp [Node.parts, IsLoopJump.next]
  | ret =>
    rcases returnNode_forms none (contextAt settings path) with hr | hr
    · simp [hr, Node.parts, IsLoopJump.next]
    · simp [hr, Node.parts]
      rintro ⟨⟩
  | @retValue value v h =>
    have hvalue : PartJump settings path (Node.ret (some value)).parts m around ↔
        v.HasJump m around := by
      simp [Node.parts, h, enclosure?]
    rw [hvalue]
    rcases returnNode_forms (some v) (contextAt settings path) with hr | hr
    · simp [hr, IsLoopJump.next]
    · simp [hr]
      rintro ⟨⟩

/-- The jumps of what a node becomes: the node itself, and the jumps of its parts. -/
theorem madeJump_iff (hn : n.IsSound) {result : Option Ruby.Node}
    (h : made settings path n = .ok result) :
    MadeJump (made settings path n) m around ↔
      (IsLoopJump m ∧ made settings path n = .ok (some m) ∧ around = []) ∨
        PartJump settings path n.parts m around := by
  rw [h]
  cases result with
  | none => simp [parts_eq_nil_of_made h]
  | some r =>
    have hstep : r.HasJump m around ↔
        (IsLoopJump r ∧ m = r ∧ around = []) ∨ PartJump settings path n.parts m around := by
      by_cases hjump : IsSourceJump n
      · exact (jumpOf_of_made hjump h).hasJump_iff
      · have hassembles := assembles_made hn hjump h
        simp [hassembles.hasJump_iff, hassembles.not_isLoopJump]
    rw [madeJump_ok_some, hstep]
    refine or_congr_left ⟨?_, ?_⟩
    · rintro ⟨hr, rfl, rfl⟩
      exact ⟨hr, rfl, rfl⟩
    · rintro ⟨hm, hr, rfl⟩
      cases hr
      exact ⟨hm, rfl, rfl⟩

/-! ## Whole programs -/

theorem exists_made_of_mem_parts (hpath : ∀ pos ∈ path, pos.IsSound) {result : Option Ruby.Node}
    (h : made settings path n = .ok result) {part : Position × Node} (hpart : part ∈ n.parts) :
    ∃ result, made settings (part.1 :: path) part.2 = .ok result := by
  have hnone := (failsBy_made settings n hpath).exists_ok_iff.mp ⟨result, h⟩
  cases hmade : made settings (part.1 :: path) part.2 with
  | ok result => exact ⟨result, rfl⟩
  | error f => exact absurd (Or.inr ⟨part, hpart, hmade⟩) (hnone f)

theorem filterMap_enclosure?_concat (path : List Position) (pos : Position) :
    (path ++ [pos]).filterMap enclosure? =
      path.filterMap enclosure? ++ (enclosure? pos).toList := by
  cases h : enclosure? pos <;> simp [h]

/-- The jumps of what a node becomes are what the nodes that occur in it become, each enclosed in
what its path says. -/
theorem madeJump_iff_occurs (hn : n.WellFormed) (hpath : ∀ pos ∈ path, pos.IsSound)
    {result : Option Ruby.Node} (h : made settings path n = .ok result) :
    MadeJump (made settings path n) m around ↔
      IsLoopJump m ∧ ∃ s inner, Occurs s inner n ∧ made settings (inner ++ path) s = .ok (some m) ∧
        around = inner.filterMap enclosure? := by
  induction n using Node.induction_parts generalizing path around result with
  | step n ih =>
    obtain ⟨hsound, hparts⟩ := Node.wellFormed_iff.mp hn
    -- A part stands one position further in, and what that position encloses comes last.
    have hbelow : ∀ part ∈ n.parts, ∀ around,
        MadeJump (made settings (part.1 :: path) part.2) m around ↔
          IsLoopJump m ∧ ∃ s inner, Occurs s inner part.2 ∧
            made settings (inner ++ part.1 :: path) s = .ok (some m) ∧
            around = inner.filterMap enclosure? := by
      intro part hpart around
      obtain ⟨result, hmade⟩ := exists_made_of_mem_parts hpath h hpart
      exact ih part hpart (hparts part hpart)
        (List.forall_mem_cons.mpr ⟨hsound.position hpart, hpath⟩) hmade
    rw [madeJump_iff hsound h]
    constructor
    · rintro (⟨hm, hmade, rfl⟩ | ⟨part, hpart, inner, hjump, rfl⟩)
      · exact ⟨hm, n, [], .here, hmade, rfl⟩
      · obtain ⟨hm, s, inner, hs, hmade, rfl⟩ := (hbelow part hpart inner).mp hjump
        refine ⟨hm, s, _, .inside hpart hs, by simpa using hmade, ?_⟩
        rw [filterMap_enclosure?_concat]
    · rintro ⟨hm, s, inner, hs, hmade, rfl⟩
      rcases occurs_iff.mp hs with ⟨rfl, rfl⟩ | ⟨part, hpart, below, hpartOccurs, rfl⟩
      · exact Or.inl ⟨hm, hmade, rfl⟩
      · refine Or.inr ⟨part, hpart, _, ?_, filterMap_enclosure?_concat below part.1⟩
        exact (hbelow part hpart _).mpr ⟨hm, s, below, hpartOccurs, by simpa using hmade, rfl⟩

/-- Everything that occurs in a generated program is generated. -/
theorem exists_made_of_occurs (hn : n.WellFormed) (hpath : ∀ pos ∈ path, pos.IsSound)
    {result : Option Ruby.Node} (h : made settings path n = .ok result) {s : Node}
    {inner : List Position} (hs : Occurs s inner n) :
    ∃ result, made settings (inner ++ path) s = .ok result := by
  induction hs generalizing path result with
  | here => exact ⟨result, h⟩
  | @inside n part inner hpart hs ih =>
    obtain ⟨hsound, hparts⟩ := Node.wellFormed_iff.mp hn
    obtain ⟨result, hmade⟩ := exists_made_of_mem_parts hpath h hpart
    have hpath' : ∀ pos ∈ part.1 :: path, pos.IsSound :=
      List.forall_mem_cons.mpr ⟨hsound.position hpart, hpath⟩
    simpa using ih (hparts part hpart) hpath' hmade

/-- The jumps of a generated tree are what the nodes of the program become. -/
theorem hasJump_unit_iff (hn : n.WellFormed) (h : unit settings n = .ok r) :
    r.HasJump m around ↔
      IsLoopJump m ∧ ∃ s path, Occurs s path n ∧ made settings path s = .ok (some m) ∧
        around = path.filterMap enclosure? := by
  have hmade : made settings [] n = .ok (some r) := map_eq_ok.mpr ⟨r, h, rfl⟩
  have hroot := @madeJump_iff_occurs settings [] m around n hn (by simp) _ hmade
  rw [hmade, madeJump_ok_some] at hroot
  simpa using hroot

/-- Every jump of a generated tree is what a jump of the program becomes. -/
theorem exists_jumpOf_of_hasJump (hn : n.WellFormed) (h : unit settings n = .ok r)
    (hjump : r.HasJump m around) :
    ∃ s path, Occurs s path n ∧ JumpOf settings path s m ∧
      around = path.filterMap enclosure? := by
  obtain ⟨hm, s, path, hs, hmade, haround⟩ := (hasJump_unit_iff hn h).mp hjump
  refine ⟨s, path, hs, ?_, haround⟩
  by_contra hnot
  have hsource : ¬ IsSourceJump s := fun hsource => hnot (jumpOf_of_made hsource hmade)
  exact (assembles_made (hn s path hs) hsource hmade).not_isLoopJump hm

/-- Every jump of the program stands in the generated tree, if anything is generated for it. -/
theorem exists_jumpOf_of_occurs (hn : n.WellFormed) (h : unit settings n = .ok r) {s : Node}
    (hs : Occurs s path n) (hsource : IsSourceJump s) :
    made settings path s = .ok none ∨ ∃ m, JumpOf settings path s m ∧
      (IsLoopJump m → r.HasJump m (path.filterMap enclosure?)) := by
  have hroot : made settings [] n = .ok (some r) := map_eq_ok.mpr ⟨r, h, rfl⟩
  obtain ⟨result, hmade⟩ := @exists_made_of_occurs settings [] n hn (by simp) _ hroot s path hs
  rw [List.append_nil] at hmade
  cases result with
  | none => exact Or.inl hmade
  | some m =>
    refine Or.inr ⟨m, jumpOf_of_made hsource hmade, fun hm => ?_⟩
    exact (hasJump_unit_iff hn h).mpr ⟨hm, s, path, hs, hmade, rfl⟩

end YcpToRuby.Generate
