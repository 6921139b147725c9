import YcpToRuby.Generate.Unit
import YcpToRuby.Proofs.Generate.Success
import YcpToRuby.Proofs.Ycp.WellFormed

/-!
# Exactly which failures

Every failure of generation is the fault of one node at its place: of what the node is, or of the
path on which it stands. A node fails exactly by its own faults and by the failures of its parts, so
a program fails exactly by the faults of the nodes that occur in it.
-/

set_option autoImplicit false

namespace YcpToRuby.Generate

open Scope (Clause Context Frame)
open Ycp (Block BlockInfo Capture Closure Node Occurs Position Variable caseParts clauseParts
  occurs_iff)

/-! ## Places -/

section Places

variable (settings : Settings)

def contextAt (path : List Position) : Context :=
  { frames := path.reverse.flatMap Position.frames, exportPrivate := settings.exportPrivate }

/-- What is generated for a node at a path. The root is a whole unit. A reference among the
arguments of a call is no value of its own, and the `break` at the end of a clause is dropped. -/
def made (path : List Position) (n : Node) : Generated (Option Ruby.Node) :=
  match path, n with
  | [], n => some <$> unit settings n
  | .argument :: _, .reference _ => .ok none
  | .clauseEnd .. :: _, .breakLoop => .ok none
  | pos :: _, n =>
    if pos.isValue then some <$> (reading n).value (contextAt settings path)
    else (reading n).statement (contextAt settings path)

end Places

variable {settings : Settings} {path : List Position} {f : Failure}

@[simp] theorem contextAt_value :
    contextAt settings (.value :: path) = contextAt settings path := by
  simp [contextAt, Position.frames]

@[simp] theorem contextAt_argument :
    contextAt settings (.argument :: path) = contextAt settings path := by
  simp [contextAt, Position.frames]

@[simp] theorem contextAt_branch :
    contextAt settings (.branch :: path) = contextAt settings path := by
  simp [contextAt, Position.frames]

@[simp] theorem contextAt_closureValue (params : List Ycp.Symbol) :
    contextAt settings (.closureValue params :: path) =
      (contextAt settings path).inside (.returnExpr params) := by
  simp [contextAt, Position.frames, Context.inside]

@[simp] theorem contextAt_loopBody (kind : Ycp.LoopKind) :
    contextAt settings (.loopBody kind :: path) =
      (contextAt settings path).inside (.loop kind) := by
  simp [contextAt, Position.frames, Context.inside]

@[simp] theorem contextAt_blockBody (info : BlockInfo) :
    contextAt settings (.blockBody info :: path) =
      (contextAt settings path).inside (.block info) := by
  simp [contextAt, Position.frames, Context.inside]

@[simp] theorem contextAt_clauseBody (clause : Clause) (info : BlockInfo) :
    contextAt settings (.clauseBody clause info :: path) =
      ((contextAt settings path).inside (.clause clause)).inside (.block info) := by
  simp [contextAt, Position.frames, Context.inside]

@[simp] theorem contextAt_clauseEnd (clause : Clause) (info : BlockInfo) :
    contextAt settings (.clauseEnd clause info :: path) =
      ((contextAt settings path).inside (.clause clause)).inside (.block info) := by
  simp [contextAt, Position.frames, Context.inside]

@[simp] theorem contextAt_functionBody (name : String) (params : List Ycp.Symbol)
    (info : BlockInfo) :
    contextAt settings (.functionBody name params info :: path) =
      (contextAt settings path).inside (.function name params info) := by
  simp [contextAt, Position.frames, Context.inside]

@[simp] theorem made_value (n : Node) :
    made settings (.value :: path) n = some <$> (reading n).value (contextAt settings path) := by
  simp [made, Position.isValue]

@[simp] theorem made_closureValue (params : List Ycp.Symbol) (n : Node) :
    made settings (.closureValue params :: path) n =
      some <$> (reading n).value ((contextAt settings path).inside (.returnExpr params)) := by
  simp [made, Position.isValue]

theorem made_argument (n : Node) :
    made settings (.argument :: path) n = match n with
      | .reference _ => .ok none
      | n => some <$> (reading n).value (contextAt settings path) := by
  cases n <;> simp [made, Position.isValue]

theorem made_cons {pos : Position} {n : Node}
    (hreference : ∀ target, n = .reference target → pos ≠ .argument)
    (hend : n = .breakLoop → ∀ clause info, pos ≠ .clauseEnd clause info) :
    made settings (pos :: path) n =
      if pos.isValue then some <$> (reading n).value (contextAt settings (pos :: path))
      else (reading n).statement (contextAt settings (pos :: path)) := by
  rw [made]
  · exact hreference
  · intro clause info hn hpos
    exact hend hn clause info hpos

theorem made_statement {pos : Position} {n : Node} (hvalue : pos.isValue = false)
    (hend : n = .breakLoop → ∀ clause info, pos ≠ .clauseEnd clause info) :
    made settings (pos :: path) n = (reading n).statement (contextAt settings (pos :: path)) := by
  rw [made_cons _ hend, if_neg (by simp [hvalue])]
  rintro target - rfl
  cases hvalue

@[simp] theorem made_branch (n : Node) :
    made settings (.branch :: path) n = (reading n).statement (contextAt settings path) := by
  rw [made_statement rfl (by simp), contextAt_branch]

@[simp] theorem made_loopBody (kind : Ycp.LoopKind) (n : Node) :
    made settings (.loopBody kind :: path) n =
      (reading n).statement ((contextAt settings path).inside (.loop kind)) := by
  rw [made_statement rfl (by simp), contextAt_loopBody]

/-! ## Faults -/

def InsideFunction (path : List Position) : Prop :=
  ∃ name params info, Position.functionBody name params info ∈ path

def UnitFault (info : BlockInfo) (f : Failure) : Prop :=
  match info.kind with
  | .module => info.name = none ∧ f = .invalid .namelessModule
  | .file =>
    match info.filename with
    | none => f = .invalid .clientWithoutFile
    | some filename => clientClass filename = .error f
  | _ => False

def EndsClause (statements : List Node) : Prop :=
  ∃ last ∈ statements.getLast?, last = .breakLoop ∨ ∃ value, last = .ret value

def isFile (info : BlockInfo) : Bool :=
  info.kind = .module ∨ info.kind = .file

def OwnFault (path : List Position) (n : Node) (f : Failure) : Prop :=
  match n with
  | .const type value => constant type value = .error f
  | .var target | .bracket target _ _ =>
    target.category = .function ∧ target.type = none ∧
      f = .invalid (.untypedFunction target.name.name)
  | .builtin name _ _ => builtinReceiver name = .error f
  | .reference target =>
    path.head? ≠ some .argument ∧ f = .invalid (.looseReference target.name.name)
  | .block block =>
    if path = [] then UnitFault block.info f
    else isFile block.info ∧ f = .invalid (.innerFileBlock block.info.kind)
  | .breakLoop =>
    (∀ clause info, path.head? ≠ some (.clauseEnd clause info)) ∧
      ∃ clause, path.findSome? Position.capture? = some (.clause clause) ∧
        f = .unsupported (.breakInside clause)
  | .switch _ cases _ =>
    ∃ c ∈ cases, ¬ EndsClause c.2.statements ∧
      f = .unsupported (.fallThrough (.case c.1.describe))
  | .funDef name _ body =>
    InsideFunction path ∧ f = .unsupported (.nestedFunction name) ∨
      body.info.kind ≠ .function ∧ f = .invalid (.functionBody name)
  | _ => False

def Fault (path : List Position) (n : Node) (f : Failure) : Prop :=
  (path.head?.any Position.isValue ∧ n.isValue = false ∧ f = .invalid (.notAValue n.kind)) ∨
    OwnFault path n f

/-! ## Frames along a path -/

theorem innermost?_contextAt (kinds : List Scope.FrameKind) :
    (contextAt settings path).innermost? kinds =
      path.findSome? fun pos =>
        pos.frames.reverse.find? fun frame => kinds.contains frame.kind := by
  simp [contextAt, Context.innermost?, List.reverse_flatMap, List.find?_flatMap, Function.comp_def]

theorem inFunction_contextAt :
    (contextAt settings path).inFunction = true ↔ InsideFunction path := by
  simp only [Context.inFunction, contextAt, List.any_eq_true, List.mem_flatMap, List.mem_reverse,
    beq_iff_eq, InsideFunction]
  constructor
  · rintro ⟨frame, ⟨pos, hpos, hframe⟩, hkind⟩
    cases pos <;> simp [Position.frames] at hframe <;> grind [Frame.kind]
  · rintro ⟨name, params, info, hmem⟩
    exact ⟨_, ⟨_, hmem, List.mem_singleton.mpr rfl⟩, rfl⟩

/-- Only the nearest loop, closure or clause decides what a `break` becomes. -/
theorem breakNode_contextAt (hpath : ∀ pos ∈ path, pos.IsSound) :
    breakNode (contextAt settings path) =
      match path.findSome? Position.capture? with
      | some .closure => .ok (.command none "raise" [.constant "Break"])
      | some (.clause clause) => unsupported (.breakInside clause)
      | _ => .ok .breakLoop := by
  rw [breakNode, innermost?_contextAt]
  induction path with
  | nil => rfl
  | cons pos path ih =>
    have ih := ih fun pos hpos => hpath pos (List.mem_cons_of_mem _ hpos)
    have hpos := hpath pos List.mem_cons_self
    cases pos
    case loopBody kind => rfl
    case blockBody info =>
      by_cases hkind : info.kind = .unspec
      · simp [Position.frames, Position.capture?, Frame.kind, hkind]
      · simpa [List.findSome?_cons, Position.frames, Position.capture?, Frame.kind, hkind] using ih
    case clauseBody clause info | clauseEnd clause info =>
      have hkind : info.kind = .stmt := hpos
      simp [List.findSome?_cons, Position.frames, Position.capture?, Frame.kind, hkind]
    all_goals
      simpa [List.findSome?_cons, Position.frames, Position.capture?, Frame.kind] using ih

/-! ## Values and statements -/

def PartFault (settings : Settings) (path : List Position) (parts : List (Position × Node))
    (f : Failure) : Prop :=
  ∃ part ∈ parts, made settings (part.1 :: path) part.2 = .error f

@[simp] theorem partFault_nil : ¬ PartFault settings path [] f := by
  simp [PartFault]

@[simp] theorem partFault_cons {part : Position × Node} {parts : List (Position × Node)} :
    PartFault settings path (part :: parts) f ↔
      made settings (part.1 :: path) part.2 = .error f ∨ PartFault settings path parts f := by
  simp [PartFault]

@[simp] theorem partFault_append {parts others : List (Position × Node)} :
    PartFault settings path (parts ++ others) f ↔
      PartFault settings path parts f ∨ PartFault settings path others f := by
  simp [PartFault, or_and_right, exists_or]

@[simp] theorem partFault_map {pos : Position} {nodes : List Node} :
    PartFault settings path (nodes.map (Prod.mk pos)) f ↔
      ∃ n ∈ nodes, made settings (pos :: path) n = .error f := by
  simp [PartFault]

@[simp] theorem partFault_flatMap {α : Type} {xs : List α} {parts : α → List (Position × Node)} :
    PartFault settings path (xs.flatMap parts) f ↔
      ∃ x ∈ xs, PartFault settings path (parts x) f := by
  simp only [PartFault, List.mem_flatMap]
  grind

def keyReading (index : Node) : Reading :=
  match index with
  | .list [key] => reading key
  | path => reading path

theorem reading_bracket (target : Variable) (index value : Node) :
    reading (.bracket target index value) = .expression (.bracket target index value) fun ctx => do
      return opsCall "set" [← variableNode ctx target, ← (keyReading index).value ctx,
        ← (reading value).value ctx] := by
  rw [reading.eq_def]
  rfl

theorem reading_index (value index fallback : Node) :
    reading (.index value index fallback) = .expression (.index value index fallback) fun ctx => do
      return opsCall "get" [← (reading value).value ctx, ← (keyReading index).value ctx,
        ← (reading fallback).value ctx] := by
  rw [reading.eq_def]
  rfl

theorem exists_closureReading (closure : Closure) :
    ∃ literal, closureReading (some closure) = some literal := by
  rcases closure with ⟨info, body⟩ | ⟨params, value⟩
  · exact ⟨_, rfl⟩
  · exact ⟨_, rfl⟩

theorem statement_eq_value {n : Node} (h : n.isValue = true) (ctx : Context) :
    (reading n).statement ctx = some <$> (reading n).value ctx := by
  cases n <;> simp only [Node.isValue, Bool.false_eq_true] at h
  case block body =>
    obtain ⟨info, statements⟩ := body
    have hkind : info.kind = .unspec := of_decide_eq_true h
    simp [reading, blockReading, hkind, Reading.expression]
  case bracket => rw [reading_bracket, Reading.expression]
  case index => rw [reading_index, Reading.expression]
  all_goals rfl

theorem value_eq_error {n : Node} (h : n.isValue = false) (ctx : Context) :
    (reading n).value ctx = .error (.invalid (.notAValue n.kind)) := by
  cases n <;> simp only [Node.isValue, Bool.true_eq_false] at h
  case block body =>
    obtain ⟨info, statements⟩ := body
    have hkind : info.kind ≠ .unspec := of_decide_eq_false h
    cases hkind' : info.kind <;>
      simp_all [reading, blockReading, Reading.solid, Reading.statementOnly, invalid]
  case funDef name params body =>
    obtain ⟨info, statements⟩ := body
    rfl
  all_goals rfl

theorem keyReading_value_eq_error {index : Node} {ctx : Context} :
    (keyReading index).value ctx = .error f ↔ (reading index).value ctx = .error f := by
  unfold keyReading
  split
  · simp [reading, readings, Reading.expression, values]
  · rfl

/-! ## What each construct fails by -/

section Constructs

variable (settings path)

theorem failsBy_value (n : Node) :
    FailsBy ((reading n).value (contextAt settings path))
      fun f => made settings (.value :: path) n = .error f :=
  (FailsBy.self _).congr fun f => by simp

theorem failsBy_values (nodes : List Node) :
    FailsBy (values (nodes.map reading) (contextAt settings path))
      (PartFault settings path (nodes.map (Prod.mk .value))) :=
  (FailsBy.mapM fun _ _ => .self _).congr fun f => by simp

theorem failsBy_keyReading (index : Node) :
    FailsBy ((keyReading index).value (contextAt settings path))
      fun f => made settings (.value :: path) index = .error f :=
  (FailsBy.self _).congr fun f => by simp [keyReading_value_eq_error]

theorem failsBy_entries (entries : List (Node × Node)) :
    FailsBy
      ((entryReadings entries).mapM fun entry => do
        return (← entry.1.value (contextAt settings path),
          ← entry.2.value (contextAt settings path)))
      (PartFault settings path
        (entries.flatMap fun entry => [(.value, entry.1), (.value, entry.2)])) := by
  have hentry (entry : Reading × Reading) (ctx : Context) :
      FailsBy (do return (← entry.1.value ctx, ← entry.2.value ctx))
        fun f => entry.1.value ctx = .error f ∨ entry.2.value ctx = .error f :=
    .bind (.self _) fun key _ => (FailsBy.self _).map (Prod.mk key)
  refine (FailsBy.mapM fun entry _ => hentry entry _).congr fun f => ?_
  simp [entryReadings_eq_map]

theorem failsBy_arguments (args : List Node) :
    FailsBy ((args.map reading).mapM (argument (contextAt settings path)))
      (PartFault settings path (args.map (Prod.mk .argument))) := by
  refine (FailsBy.mapM fun _ _ => .self _).congr fun f => ?_
  simp only [partFault_map, List.mem_map, exists_exists_and_eq_and]
  refine exists_congr fun n => and_congr_right fun _ => ?_
  rw [made_argument, argument, node_reading]
  cases n <;> simp

theorem failsBy_variableNode (ctx : Context) (v : Variable) :
    FailsBy (variableNode ctx v) fun f => v.category = .function ∧ v.type = none ∧
      f = .invalid (.untypedFunction v.name.name) := by
  unfold variableNode
  split
  · exact .ok fun f => by simp_all
  · exact .ok fun f => by simp_all
  · split
    · exact .ok fun f => by simp_all
    · exact .error (by simp_all)

theorem failsBy_statements (pos : Position) (nodes : List Node) (hvalue : pos.isValue = false)
    (hend : .breakLoop ∈ nodes → ∀ clause info, pos ≠ .clauseEnd clause info) :
    FailsBy (statements (nodes.map reading) (contextAt settings (pos :: path)))
      (PartFault settings path (nodes.map (Prod.mk pos))) := by
  refine ((FailsBy.mapM fun _ _ => .self _).map _).congr fun f => ?_
  simp only [partFault_map, List.mem_map, exists_exists_and_eq_and]
  refine exists_congr fun n => and_congr_right fun hn => ?_
  rw [made_statement hvalue fun hbreak => hend (hbreak ▸ hn)]

theorem failsBy_closure (closure : Closure) (literal : Context → Generated Ruby.Node)
    (h : closureReading (some closure) = some literal) :
    FailsBy (literal (contextAt settings path)) (PartFault settings path closure.parts) := by
  cases closure with
  | block block =>
    obtain ⟨info, body⟩ := block
    obtain rfl : blockLiteral info (body.map reading) = literal := by
      simpa [closureReading, readings_eq_map] using h
    have hbody := failsBy_statements settings path (.blockBody info) body rfl (by simp)
    rw [contextAt_blockBody] at hbody
    exact hbody.map _
  | value params value =>
    obtain rfl : valueLiteral params (reading value) = literal := by
      simpa [closureReading] using h
    refine ((FailsBy.self _).map _).congr fun f => ?_
    simp [Closure.parts]

theorem failsBy_branch (s : Option Node) (ctx : Context) :
    FailsBy (branch (s.map reading) ctx)
      fun f => ∃ n ∈ s, (reading n).statement ctx = .error f := by
  cases s with
  | none => exact .ok (by simp)
  | some s =>
    simp only [Option.map_some, branch, node_reading, Option.mem_def, Option.some.injEq,
      exists_eq_left']
    split
    · rename_i hempty
      obtain ⟨info, hkind, rfl⟩ := isEmptyBlock_eq_true hempty
      refine .ok fun f hf => ?_
      simp [reading, readings, blockReading, hkind, Reading.solid, Reading.statementOnly,
        statements] at hf
    · exact ((FailsBy.self _).map _).map _

theorem failsBy_elseBranch (s : Option Node) (ctx : Context) :
    FailsBy (elseBranch (s.map reading) ctx)
      fun f => ∃ n ∈ s, (reading n).statement ctx = .error f := by
  cases s with
  | none => exact .ok (by simp)
  | some s =>
    simp only [Option.map_some, elseBranch, Option.mem_def, Option.some.injEq, exists_eq_left']
    split
    · exact .self _
    · exact ((FailsBy.self _).map _).map _

theorem failsBy_conditional (condition : Node) (thenBody elseBody : Option Node) :
    FailsBy
      (conditional (reading condition) (thenBody.map reading) (elseBody.map reading)
        (contextAt settings path))
      (PartFault settings path ((.value, condition) ::
        (thenBody.toList ++ elseBody.toList).map (Prod.mk .branch))) := by
  have hconditional :
      FailsBy
        (conditional (reading condition) (thenBody.map reading) (elseBody.map reading)
          (contextAt settings path))
        fun f => made settings (.value :: path) condition = .error f ∨
          (∃ n ∈ thenBody, (reading n).statement (contextAt settings path) = .error f) ∨
          ∃ n ∈ elseBody, (reading n).statement (contextAt settings path) = .error f := by
    refine .bind (failsBy_value settings path condition) fun test _ =>
      .bind (failsBy_branch thenBody _) fun first _ => ?_
    cases first with
    | some body => exact (failsBy_elseBranch elseBody _).map _
    | none =>
      cases elseBody with
      | none => exact .ok (by simp)
      | some s => exact (((FailsBy.self _).map _).map _).congr fun f => by simp
  exact hconditional.congr fun f => by simp

theorem failsBy_loop (kind : Ycp.LoopKind) (condition body : Node) :
    FailsBy (loop kind (reading condition) (reading body) (contextAt settings path))
      (PartFault settings path [(.value, condition), (.loopBody kind, body)]) := by
  refine (FailsBy.bind (failsBy_value settings path condition) fun test _ =>
    ((FailsBy.self _).map _).map _).congr fun f => ?_
  simp

/-- The statements of a clause without its final `break`. What is generated for them and for the
parts of the clause is the same, up to the nothing that becomes of that `break`. -/
theorem exists_withoutBreak (clause : Clause) (block : Block) :
    ∃ kept : List Node, withoutBreak (block.statements.map reading) = kept.map reading ∧
      ∀ x, x ≠ .ok none →
        ((∃ part ∈ clauseParts clause block, made settings (part.1 :: path) part.2 = x) ↔
          ∃ s ∈ kept, made settings (.clauseBody clause block.info :: path) s = x) := by
  rcases List.eq_nil_or_concat block.statements with hnil | ⟨init, last, hconcat⟩
  · exact ⟨[], by simp [hnil, withoutBreak], by simp [clauseParts, hnil]⟩
  · rw [List.concat_eq_append] at hconcat
    by_cases hbreak : isBreak last = true
    · obtain rfl := isBreak_eq_true hbreak
      refine ⟨init, by simp [withoutBreak, hconcat, node_reading, isBreak], fun x hx => ?_⟩
      simp [clauseParts, hconcat, made, or_and_right, exists_or, hx.symm]
    · have hlast : last ≠ .breakLoop := by
        rintro rfl
        exact hbreak rfl
      have hsame : made settings (.clauseEnd clause block.info :: path) last =
          made settings (.clauseBody clause block.info :: path) last := by
        rw [made_statement rfl (fun h => absurd h hlast), made_statement rfl (by simp),
          contextAt_clauseEnd, contextAt_clauseBody]
      refine ⟨init ++ [last], by simp [withoutBreak, hconcat, node_reading, hbreak],
        fun x _ => ?_⟩
      simp [clauseParts, hconcat, hsame, or_and_right, exists_or]

/-- The `break` at the end of a clause never fails. -/
theorem failsBy_clauseStatements (clause : Clause) (block : Block) :
    FailsBy
      (statements (withoutBreak (block.statements.map reading))
        (((contextAt settings path).inside (.clause clause)).inside (.block block.info)))
      (PartFault settings path (clauseParts clause block)) := by
  obtain ⟨kept, hkept, hmade⟩ := exists_withoutBreak settings path clause block
  rw [← contextAt_clauseBody, hkept]
  have hbody := failsBy_statements settings path (.clauseBody clause block.info) kept rfl (by simp)
  refine hbody.congr fun f => ?_
  rw [PartFault, hmade _ (by simp), partFault_map]

theorem endsClause_iff (nodes : List Node) :
    EndsClause nodes ↔ leavesSwitch (nodes.map reading) = true := by
  simp only [EndsClause, leavesSwitch, List.getLast?_map]
  cases nodes.getLast? with
  | none => simp
  | some last =>
    have hbreak : isBreak last = true ↔ last = .breakLoop :=
      ⟨isBreak_eq_true, fun h => h ▸ rfl⟩
    have hreturn : isReturn last = true ↔ ∃ value, last = .ret value := by
      refine ⟨isReturn_eq_true, ?_⟩
      rintro ⟨value, rfl⟩
      rfl
    simp [node_reading, hbreak, hreturn]

theorem failsBy_caseClause (c : Node × Block) :
    FailsBy
      (caseClause (reading c.1) c.2.info (c.2.statements.map reading) (contextAt settings path))
      fun f => (¬ EndsClause c.2.statements ∧
          f = .unsupported (.fallThrough (.case c.1.describe))) ∨
        PartFault settings path (caseParts c) f := by
  simp only [caseClause, node_reading, endsClause_iff]
  split
  · rename_i hends
    refine (FailsBy.bind (failsBy_value settings path c.1) fun test _ =>
      ((failsBy_clauseStatements settings path _ c.2).map _).map _).congr fun f => ?_
    simp [hends, caseParts]
  · rename_i hends
    exact .error (Or.inl ⟨hends, rfl⟩)

theorem failsBy_defaultClause (default : Option Block) :
    FailsBy
      (defaultClause (default.map fun block => (block.info, block.statements.map reading))
        (contextAt settings path))
      (PartFault settings path (default.toList.flatMap (clauseParts .default))) := by
  cases default with
  | none => exact .ok (by simp)
  | some block =>
    have hbody := failsBy_clauseStatements settings path .default block
    simp only [Option.map_some, defaultClause]
    split
    · rename_i hempty
      rw [List.isEmpty_iff.mp hempty] at hbody
      refine .ok fun f hf => ?_
      exact hbody.ne_ok f (by simpa using hf) [] (by simp [statements])
    · exact ((hbody.map _).map _).congr fun f => by simp

theorem failsBy_switch (condition : Node) (cases : List (Node × Block)) (default : Option Block) :
    FailsBy
      (switch (reading condition) (caseReadings cases) (defaultReading default)
        (contextAt settings path))
      fun f => (∃ c ∈ cases, ¬ EndsClause c.2.statements ∧
          f = .unsupported (.fallThrough (.case c.1.describe))) ∨
        PartFault settings path (Node.switch condition cases default).parts f := by
  rw [caseReadings_eq_map, defaultReading_eq_map, switch]
  have hcases : FailsBy
      ((cases.map fun c => (reading c.1, c.2.info, c.2.statements.map reading)).mapM
        fun c => caseClause c.1 c.2.1 c.2.2 (contextAt settings path))
      fun f => ∃ c ∈ cases, (¬ EndsClause c.2.statements ∧
          f = .unsupported (.fallThrough (.case c.1.describe))) ∨
        PartFault settings path (caseParts c) f := by
    rw [List.mapM_map]
    exact .mapM fun c _ => failsBy_caseClause settings path c
  refine (FailsBy.bind (failsBy_value settings path condition) fun subject _ =>
    FailsBy.bind hcases fun clauses _ =>
      (failsBy_defaultClause settings path default).map _).congr fun f => ?_
  simp only [Node.parts, partFault_cons, partFault_append, partFault_flatMap, and_or_left,
    exists_or]
  grind

theorem failsBy_functionDef (name : String) (params : List Ycp.Symbol) (info : BlockInfo)
    (body : List Node) :
    FailsBy (functionDef name params info (body.map reading) (contextAt settings path))
      fun f => (InsideFunction path ∧ f = .unsupported (.nestedFunction name) ∨
          info.kind ≠ .function ∧ f = .invalid (.functionBody name)) ∨
        PartFault settings path (body.map (Prod.mk (.functionBody name params info))) f := by
  have hbody := failsBy_statements settings path (.functionBody name params info) body rfl
    (by simp)
  rw [contextAt_functionBody] at hbody
  unfold functionDef
  split
  · rename_i hinside
    exact .error (Or.inl (Or.inl ⟨inFunction_contextAt.mp hinside, rfl⟩))
  · rename_i hinside
    rw [inFunction_contextAt] at hinside
    split
    · rename_i hkind
      exact .error (Or.inl (Or.inr ⟨hkind, rfl⟩))
    · rename_i hkind
      exact (hbody.map _).congr fun f => by simp_all

theorem failsBy_block (info : BlockInfo) (body : List Node)
    (hfile : path = [] → isFile info = false) :
    FailsBy ((reading (.block (.mk info body))).statement (contextAt settings path))
      fun f => OwnFault path (.block (.mk info body)) f ∨
        PartFault settings path (Node.block (.mk info body)).parts f := by
  have hbody := failsBy_statements settings path (.blockBody info) body rfl (by simp)
  rw [contextAt_blockBody] at hbody
  have hown (h : isFile info = false) (f : Failure) :
      ¬ OwnFault path (.block (.mk info body)) f := by
    cases hkind : info.kind <;> simp_all [OwnFault, UnitFault, isFile, Block.info]
  rw [reading, readings_eq_map, blockReading]
  split
  · rename_i hkind
    have hliteral := failsBy_closure settings path (.block (.mk info body)) _ rfl
    rw [readings_eq_map] at hliteral
    exact ((hliteral.map _).map _).congr fun f => by
      simp [hown (by simp [isFile, hkind]) f, Node.parts, Closure.parts]
  · rename_i hkind
    exact ((hbody.map _).map _).congr fun f => by
      simp [hown (by simp [isFile, hkind]) f, Node.parts, Block.parts, Block.statements, Block.info]
  · rename_i hkind
    exact ((hbody.map _).map _).congr fun f => by
      simp [hown (by simp [isFile, hkind]) f, Node.parts, Block.parts, Block.statements, Block.info]
  all_goals
    rename_i hkind
    have hpath : path ≠ [] := fun h => by simpa [isFile, hkind] using hfile h
    exact .error (Or.inl (by simp [OwnFault, hpath, isFile, Block.info, hkind]))

theorem failsBy_attached (closure : Option Closure) (call : Ruby.Node) :
    FailsBy
      (match closureReading closure with
        | none => return call
        | some block => do return call.withBlock (← block (contextAt settings path)))
      (PartFault settings path (closure.toList.flatMap Closure.parts)) := by
  cases closure with
  | none => exact .ok (by simp)
  | some closure =>
    obtain ⟨literal, hliteral⟩ := exists_closureReading closure
    rw [hliteral]
    exact ((failsBy_closure settings path closure literal hliteral).map _).congr fun f => by simp

theorem failsBy_breakNode (hpath : ∀ pos ∈ path, pos.IsSound) :
    FailsBy (breakNode (contextAt settings path))
      fun f => ∃ clause, path.findSome? Position.capture? = some (.clause clause) ∧
        f = .unsupported (.breakInside clause) := by
  rw [breakNode_contextAt hpath]
  split
  · rename_i hcapture
    exact .ok fun f => by simp [hcapture]
  · rename_i clause hcapture
    exact .error ⟨clause, hcapture, rfl⟩
  · rename_i hcapture
    refine .ok fun f => ?_
    rintro ⟨clause, hclause, -⟩
    exact hcapture clause hclause

end Constructs

/-! ## One node -/

/-- A node that is read as a statement fails by its own faults and by those of its parts. -/
theorem failsBy_statement (settings : Settings) {path : List Position} {n : Node}
    (hpath : ∀ pos ∈ path, pos.IsSound)
    (hreference : ∀ target, n = .reference target → path.head? ≠ some .argument)
    (hbreak : n = .breakLoop → ∀ clause info, path.head? ≠ some (.clauseEnd clause info))
    (hfile : ∀ block, n = .block block → path = [] → isFile block.info = false) :
    FailsBy ((reading n).statement (contextAt settings path))
      fun f => OwnFault path n f ∨ PartFault settings path n.parts f := by
  cases n
  case const type value =>
    exact ((FailsBy.self _).map _).congr fun f => by simp [OwnFault, Node.parts]
  case locale text => exact .ok fun f => by simp [OwnFault, Node.parts]
  case list elements =>
    rw [reading, readings_eq_map]
    exact (((failsBy_values settings path elements).map _).map _).congr fun f => by
      simp [OwnFault, Node.parts]
  case map entries =>
    rw [reading]
    exact (((failsBy_entries settings path entries).map _).map _).congr fun f => by
      simp [OwnFault, Node.parts]
  case var target =>
    rw [reading]
    exact ((failsBy_variableNode _ target).map _).congr fun f => by simp [OwnFault, Node.parts]
  case assign target value =>
    rw [reading]
    exact (((failsBy_value settings path value).map _).map _).congr fun f => by
      simp [OwnFault, Node.parts]
  case bracket target index value =>
    rw [reading_bracket]
    refine ((FailsBy.bind (failsBy_variableNode _ target) fun _ _ =>
      FailsBy.bind (failsBy_keyReading settings path index) fun _ _ =>
        (failsBy_value settings path value).map _).map _).congr fun f => ?_
    simp [OwnFault, Node.parts]
  case index value index fallback =>
    rw [reading_index]
    refine ((FailsBy.bind (failsBy_value settings path value) fun _ _ =>
      FailsBy.bind (failsBy_keyReading settings path index) fun _ _ =>
        (failsBy_value settings path fallback).map _).map _).congr fun f => ?_
    simp [OwnFault, Node.parts]
  case call target category type args =>
    rw [reading, readings_eq_map]
    exact (((failsBy_arguments settings path args).map _).map _).congr fun f => by
      simp [OwnFault, Node.parts]
  case builtin name args closure =>
    rw [reading, readings_eq_map]
    refine ((FailsBy.bind (.self (builtinReceiver name)) fun _ _ =>
      FailsBy.bind (failsBy_values settings path args) fun _ _ =>
        failsBy_attached settings path closure _).map _).congr fun f => ?_
    simp [OwnFault, Node.parts]
  case compare op lhs rhs | binary op lhs rhs =>
    rw [reading]
    refine ((FailsBy.bind (failsBy_value settings path lhs) fun _ _ =>
        (failsBy_value settings path rhs).map _).map _).congr fun f => ?_
    simp [OwnFault, Node.parts]
  case unary op operand | isType type operand | propagate source target operand =>
    rw [reading]
    exact (((failsBy_value settings path operand).map _).map _).congr fun f => by
      simp [OwnFault, Node.parts]
  case ternary condition thenValue elseValue =>
    rw [reading]
    refine ((FailsBy.bind (failsBy_value settings path condition) fun _ _ =>
      FailsBy.bind (failsBy_value settings path thenValue) fun _ _ =>
        (failsBy_value settings path elseValue).map _).map _).congr fun f => ?_
    simp [OwnFault, Node.parts]
  case reference target =>
    exact .error (Or.inl ⟨hreference target rfl, rfl⟩)
  case returnExpr params value =>
    rw [reading]
    have hvalue := failsBy_closure settings path (.value params value) _ rfl
    exact ((hvalue.map _).map _).congr fun f => by simp [OwnFault, Node.parts, Closure.parts]
  case term name args =>
    rw [reading, readings_eq_map]
    exact (((failsBy_values settings path args).map _).map _).congr fun f => by
      simp [OwnFault, Node.parts]
  case block block =>
    obtain ⟨info, body⟩ := block
    exact failsBy_block settings path info body (hfile _ rfl)
  case ifElse condition thenBody elseBody =>
    rw [reading, optionReading_eq_map, optionReading_eq_map]
    exact ((failsBy_conditional settings path condition thenBody elseBody).map _).congr fun f => by
      simp [OwnFault, Node.parts]
  case loop kind condition body =>
    rw [reading]
    exact ((failsBy_loop settings path kind condition body).map _).congr fun f => by
      simp [OwnFault, Node.parts]
  case breakLoop =>
    rw [reading]
    exact ((failsBy_breakNode settings path hpath).map _).congr fun f => by
      simp [OwnFault, Node.parts, hbreak rfl]
  case ret value =>
    rw [reading, optionReading_eq_map]
    cases value with
    | none => exact .ok fun f => by simp [OwnFault, Node.parts]
    | some value =>
      exact (((failsBy_value settings path value).map _).map _).congr fun f => by
        simp [OwnFault, Node.parts]
  case switch condition cases default =>
    rw [reading]
    exact (failsBy_switch settings path condition cases default).map _
  case funDef name params body =>
    obtain ⟨info, statements⟩ := body
    rw [reading, readings_eq_map]
    exact (failsBy_functionDef settings path name params info statements).map _
  all_goals exact .ok fun f => by simp [OwnFault, Node.parts]

theorem failsBy_part (ctx : Context) (n : Node) :
    FailsBy (part ctx n) fun f => (reading n).statement ctx = .error f := by
  unfold part
  split
  · exact .ok fun f => by simp [reading, Reading.solid, Reading.statementOnly]
  · exact ((FailsBy.self _).map _).congr fun f => by
      simp [reading, Reading.solid, Reading.statementOnly]
  · exact .ok fun f => by simp [reading, Reading.statementOnly]
  · exact .ok fun f => by simp [reading, Reading.statementOnly]
  · exact (FailsBy.self _).map _

theorem failsBy_sections (settings : Settings) (info : BlockInfo) (body : List Node) :
    FailsBy (sections ((contextAt settings []).inside (.block info)) body)
      (PartFault settings [] (body.map (Prod.mk (.blockBody info)))) := by
  refine ((FailsBy.mapM fun n _ => failsBy_part _ n).map _).congr fun f => ?_
  simp only [partFault_map]
  refine exists_congr fun n => and_congr_right fun _ => ?_
  rw [made_statement rfl (by simp), contextAt_blockBody]

/-- The root fails by its own faults and by those of its parts. -/
theorem failsBy_unit (settings : Settings) (n : Node) :
    FailsBy (unit settings n) fun f => OwnFault [] n f ∨ PartFault settings [] n.parts f := by
  have hfragment (hfile : ∀ block, n = .block block → isFile block.info = false) :
      FailsBy (do return ((← (reading n).statement (contextAt settings [])).getD (.sequence [])))
        fun f => OwnFault [] n f ∨ PartFault settings [] n.parts f :=
    (failsBy_statement settings (by simp) (by simp) (by simp) fun block h _ => hfile block h).map _
  unfold unit
  split
  · rename_i info body
    have hbody := failsBy_sections settings info body
    split
    · rename_i hkind
      unfold moduleUnit
      split
      · rename_i hname
        exact .error (Or.inl (by simp [OwnFault, UnitFault, Block.info, hkind, hname]))
      · rename_i hname
        exact (hbody.map _).congr fun f => by
          simp [OwnFault, UnitFault, Block.info, hkind, hname, Node.parts, Block.parts,
            Block.statements]
    · rename_i hkind
      unfold clientUnit
      split
      · rename_i hfilename
        exact .error (Or.inl (by simp [OwnFault, UnitFault, Block.info, hkind, hfilename]))
      · rename_i hfilename
        refine (FailsBy.bind (.self (clientClass _)) fun _ _ => hbody.map _).congr fun f => ?_
        simp [OwnFault, UnitFault, Block.info, hkind, hfilename, Node.parts, Block.parts,
          Block.statements]
    · rename_i hmodule hclient
      apply hfragment
      rintro block ⟨⟩
      simpa [isFile] using ⟨hmodule, hclient⟩
  · rename_i hblock
    apply hfragment
    rintro ⟨info, body⟩ rfl
    exact absurd rfl (hblock info body)

/-- A node at its place fails by its own faults and by those of its parts. -/
theorem failsBy_made (settings : Settings) {path : List Position} (n : Node)
    (hpath : ∀ pos ∈ path, pos.IsSound) :
    FailsBy (made settings path n) fun f => Fault path n f ∨ PartFault settings path n.parts f := by
  cases path with
  | nil => exact ((failsBy_unit settings n).map _).congr fun f => by simp [Fault]
  | cons pos path =>
    by_cases hargument : pos = .argument ∧ ∃ target, n = .reference target
    · obtain ⟨rfl, target, rfl⟩ := hargument
      exact .ok fun f => by simp [Fault, OwnFault, Node.isValue, Node.parts]
    by_cases hdropped : n = .breakLoop ∧ ∃ clause info, pos = .clauseEnd clause info
    · obtain ⟨rfl, clause, info, rfl⟩ := hdropped
      exact .ok fun f => by simp [Fault, OwnFault, Position.isValue, Node.parts]
    rw [made_cons (by grind) (by grind)]
    have hstatement : FailsBy ((reading n).statement (contextAt settings (pos :: path)))
        fun f => OwnFault (pos :: path) n f ∨ PartFault settings (pos :: path) n.parts f :=
      failsBy_statement settings hpath (by grind) (by grind) (by simp)
    cases hn : n.isValue with
    | true =>
      rw [← statement_eq_value hn, ite_self]
      exact hstatement.congr fun f => by simp [Fault, hn]
    | false =>
      split
      · rename_i hpos
        rw [value_eq_error hn]
        exact .error (Or.inl (Or.inl ⟨by simpa using hpos, hn, rfl⟩))
      · rename_i hpos
        exact hstatement.congr fun f => by simp [Fault, hpos]

/-! ## Whole programs -/

/-- What is generated for a node at its place fails by the faults of the nodes that occur in it. -/
theorem failsBy_occurring (settings : Settings) {n : Node} (hn : n.WellFormed)
    {path : List Position} (hpath : ∀ pos ∈ path, pos.IsSound) :
    FailsBy (made settings path n)
      fun f => ∃ m inner, Occurs m inner n ∧ Fault (inner ++ path) m f := by
  induction n using Node.induction_parts generalizing path with
  | step n ih =>
    obtain ⟨hsound, hparts⟩ := Node.wellFormed_iff.mp hn
    have hbelow : ∀ part ∈ n.parts, FailsBy (made settings (part.1 :: path) part.2)
        fun f => ∃ m inner, Occurs m inner part.2 ∧ Fault (inner ++ part.1 :: path) m f := by
      intro part hpart
      apply ih part hpart (hparts part hpart)
      intro pos hpos
      rcases List.mem_cons.mp hpos with rfl | hpos
      · exact hsound.position hpart
      · exact hpath pos hpos
    refine ((failsBy_made settings n hpath).trans hbelow).congr fun f => ?_
    constructor
    · rintro ⟨m, inner, hm, hfault⟩
      rcases occurs_iff.mp hm with ⟨rfl, rfl⟩ | ⟨part, hpart, below, hbelow, rfl⟩
      · exact Or.inl hfault
      · exact Or.inr ⟨part, hpart, m, below, hbelow, by simpa using hfault⟩
    · rintro (hfault | ⟨part, hpart, m, inner, hm, hfault⟩)
      · exact ⟨n, [], .here, hfault⟩
      · exact ⟨m, _, .inside hpart hm, by simpa using hfault⟩

/-- Generation fails exactly by the faults of the nodes of the program. -/
theorem unit_failsBy (settings : Settings) {n : Node} (hn : n.WellFormed) :
    FailsBy (unit settings n) fun f => ∃ m path, Occurs m path n ∧ Fault path m f := by
  have hsound : ∀ pos ∈ ([] : List Position), pos.IsSound := by simp
  have hroot := failsBy_occurring settings hn hsound
  simp only [List.append_nil, made] at hroot
  exact hroot.of_map

end YcpToRuby.Generate
