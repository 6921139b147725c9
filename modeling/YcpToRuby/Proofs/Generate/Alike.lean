import YcpToRuby.Proofs.Generate.Faults
import YcpToRuby.Proofs.Scope.Alike
import YcpToRuby.Proofs.Ycp.Encode

/-!
# Generation in contexts that are alike

What becomes of a node depends on the context through its answers only. So a node that opens no
frames but the given ones becomes the same in contexts that are alike behind those frames, and it
fails with the same cause. Two uses are made of it: a statement block that declares nothing can be
taken away from around its statements, and what is exported does not matter inside a file.
-/

set_option autoImplicit false

namespace YcpToRuby

namespace Ycp

open Scope (Clause Frame)

def Closure.frame : Closure → Frame
  | block body => .block body.info
  | value params _ => .returnExpr params

def clauseFrames (clause : Clause) (block : Block) : List Frame :=
  [.clause clause, .block block.info]

namespace Node

def opened : Node → List Frame
  | builtin _ _ closure => closure.toList.map Closure.frame
  | returnExpr params _ => [.returnExpr params]
  | block body =>
    if body.info.kind = .module ∨ body.info.kind = .file then [] else [.block body.info]
  | loop kind _ _ => [.loop kind]
  | switch _ cases default =>
    cases.flatMap (fun c => clauseFrames (.case c.1.describe) c.2) ++
      default.toList.flatMap (clauseFrames .default)
  | funDef name params body => [.function name params body.info]
  | _ => []

def OpensOnly (entered : Frame → Prop) (n : Node) : Prop :=
  ∀ m path, Occurs m path n → ∀ frame ∈ m.opened, entered frame

theorem opensOnly_iff {entered : Frame → Prop} {n : Node} :
    n.OpensOnly entered ↔
      (∀ frame ∈ n.opened, entered frame) ∧ ∀ part ∈ n.parts, part.2.OpensOnly entered :=
  forall_occurs_iff

/-- Where every block has the kind that its place asks for, no module is opened. -/
theorem IsSound.kind_of_mem_opened {n : Node} (h : n.IsSound) :
    ∀ frame ∈ n.opened, frame.kind ≠ .block .module := by
  intro frame hframe
  cases n <;> simp only [opened, List.not_mem_nil] at hframe
  case builtin name args closure =>
    simp only [List.mem_map, Option.mem_toList] at hframe
    obtain ⟨c, rfl, rfl⟩ := hframe
    cases c with
    | block body => simp [Closure.frame, Frame.kind, h body rfl]
    | value params value => simp [Closure.frame, Frame.kind]
  case block body =>
    split at hframe
    · cases hframe
    · rename_i hkind
      obtain rfl := List.mem_singleton.mp hframe
      simpa [Frame.kind] using (not_or.mp hkind).1
  case switch condition cases default =>
    simp only [List.mem_append, List.mem_flatMap, Option.mem_toList, clauseFrames, List.mem_cons,
      List.not_mem_nil, or_false] at hframe
    rcases hframe with ⟨c, hc, rfl | rfl⟩ | ⟨block, hblock, rfl | rfl⟩
    · simp [Frame.kind]
    · simp [Frame.kind, h.1 c hc]
    · simp [Frame.kind]
    · simp [Frame.kind, h.2 block hblock]
  all_goals
    obtain rfl := List.mem_singleton.mp hframe
    simp [Frame.kind]

theorem WellFormed.opensOnly {n : Node} (h : n.WellFormed) :
    n.OpensOnly fun frame => frame.kind ≠ .block .module :=
  fun m path hm => (h m path hm).kind_of_mem_opened

end Node

end Ycp

namespace Generate

open Scope (Context Frame)
open Ycp (Block BlockInfo Closure Node)

/-! ## Names and jumps -/

section Answers

variable {a b : Context} (h : a.SameAnswers b)
include h

theorem isLocal_congr (name : String) : a.isLocal name = b.isLocal name := by
  simp only [Context.isLocal, h.locals]

theorem localName_congr (name : String) : a.localName name = b.localName name := by
  simp only [Context.localName, h.locals]

theorem resolve_congr (name : String) : a.resolve name = b.resolve name := by
  have hglobal : a.isGlobal name = b.isGlobal name := by
    simp only [Context.isGlobal, isLocal_congr h, h.globals]
  have hname : a.globalName name = b.globalName name := by
    simp only [Context.globalName, h.globals]
  rw [Context.resolve, Context.resolve, hglobal, hname, localName_congr h]

theorem localNames_congr (params : List Ycp.Symbol) :
    localNames a params = localNames b params := by
  simp only [localNames, localName_congr h]

theorem isForeign_congr (ns : String) : isForeign a ns = isForeign b ns := by
  simp only [isForeign, h.moduleName?]

theorem nameNode_congr (name : Ycp.QualifiedName) : nameNode a name = nameNode b name := by
  simp only [nameNode, isForeign_congr h, resolve_congr h]

theorem referenceValue?_congr (name : Ycp.QualifiedName) :
    referenceValue? a name = referenceValue? b name := by
  simp only [referenceValue?, h.lookup?, resolve_congr h]

theorem valueNode_congr (name : Ycp.QualifiedName) : valueNode a name = valueNode b name := by
  simp only [valueNode, referenceValue?_congr h, nameNode_congr h]

theorem assignmentTarget_congr (name : Ycp.QualifiedName) :
    assignmentTarget a name = assignmentTarget b name := by
  simp only [assignmentTarget, targetNode, referenceValue?_congr h, nameNode_congr h,
    isForeign_congr h]

theorem variableNode_congr (v : Ycp.Variable) : variableNode a v = variableNode b v := by
  simp only [variableNode, functionGetter, nameNode_congr h, isForeign_congr h, isLocal_congr h,
    localName_congr h]

theorem callNode_congr (target : Ycp.QualifiedName) (category : Ycp.CallCategory)
    (args : List Ruby.Node) :
    callNode a target category args = callNode b target category args := by
  simp only [callNode, nameNode_congr h, isForeign_congr h, isLocal_congr h, localName_congr h]

theorem callWith_congr (target : Ycp.QualifiedName) (category : Ycp.CallCategory) :
    callWith a target category = callWith b target category := by
  have hin : copyIn a = copyIn b := by
    funext arg
    cases arg <;> simp only [copyIn, valueNode_congr h]
  have hout : copyOut a = copyOut b := by
    funext arg
    cases arg <;> simp only [copyOut, assignmentTarget_congr h]
  funext args
  simp only [callWith, referenceCall, hin, hout, callNode_congr h]

theorem termNode_congr (name : String) : termNode a name = termNode b name := by
  funext args
  simp only [termNode, h.lookup?]

theorem breakNode_congr : breakNode a = breakNode b := by
  simp only [breakNode, h.innermost? [.loop, .block .unspec, .clause] (by simp)]

theorem returnNode_congr (value : Option Ruby.Node) : returnNode value a = returnNode value b := by
  simp only [returnNode,
    h.innermost? [.function, .block .function, .block .file, .block .unspec] (by simp)]

end Answers

/-! ## Parts -/

structure Reading.SameIn (a b : Context) (r : Reading) : Prop where
  value : r.value a = r.value b
  statement : r.statement a = r.statement b

def Indifferent (entered : Frame → Prop) (n : Node) : Prop :=
  ∀ a b : Context, a.Alike entered b → (reading n).SameIn a b

section Parts

variable {a b : Context}

theorem values_congr {nodes : List Node} (h : ∀ n ∈ nodes, (reading n).SameIn a b) :
    values (nodes.map reading) a = values (nodes.map reading) b := by
  rw [values, values, List.mapM_map, List.mapM_map]
  exact mapM_congr fun n hn => (h n hn).value

theorem statements_congr {nodes : List Node} (h : ∀ n ∈ nodes, (reading n).SameIn a b) :
    statements (nodes.map reading) a = statements (nodes.map reading) b := by
  have hentries : (nodes.map reading).mapM (fun reading => reading.statement a) =
      (nodes.map reading).mapM (fun reading => reading.statement b) := by
    rw [List.mapM_map, List.mapM_map]
    exact mapM_congr fun n hn => (h n hn).statement
  rw [statements, statements, hentries]

theorem entries_congr {entries : List (Node × Node)}
    (h : ∀ entry ∈ entries, (reading entry.1).SameIn a b ∧ (reading entry.2).SameIn a b) :
    ((entryReadings entries).mapM fun entry => do
        return (← entry.1.value a, ← entry.2.value a)) =
      (entryReadings entries).mapM fun entry => do
        return (← entry.1.value b, ← entry.2.value b) := by
  rw [entryReadings_eq_map, List.mapM_map, List.mapM_map]
  apply mapM_congr
  intro entry hentry
  obtain ⟨hkey, hvalue⟩ := h entry hentry
  simp only [Function.comp_apply, hkey.value, hvalue.value]

theorem arguments_congr {args : List Node} (h : ∀ n ∈ args, (reading n).SameIn a b) :
    (args.map reading).mapM (argument a) = (args.map reading).mapM (argument b) := by
  rw [List.mapM_map, List.mapM_map]
  apply mapM_congr
  intro n hn
  simp only [Function.comp_apply, argument, (h n hn).value]

theorem keyReading_congr {index : Node} (h : (reading index).SameIn a b) :
    (keyReading index).value a = (keyReading index).value b := by
  unfold keyReading
  split
  · rename_i key
    have hpath (ctx : Context) : (reading (.list [key])).value ctx =
        (fun v => Ruby.Node.array [v]) <$> (reading key).value ctx := by
      simp only [reading, readings, Reading.expression, values, List.mapM_cons, List.mapM_nil]
      cases (reading key).value ctx <;> rfl
    have hsame := h.value
    rw [hpath, hpath] at hsame
    exact map_injective (fun _ _ heq => by simpa using heq) hsame
  · exact h.value

theorem body_congr {s : Node} (h : (reading s).SameIn a b) :
    (reading s).body a = (reading s).body b := by
  simp only [Reading.body, h.statement]

theorem branch_congr {s : Option Node} (h : ∀ n ∈ s, (reading n).SameIn a b) :
    branch (s.map reading) a = branch (s.map reading) b := by
  cases s with
  | none => rfl
  | some s => simp only [Option.map_some, branch, body_congr (h s rfl)]

theorem elseBranch_congr {s : Option Node} (h : ∀ n ∈ s, (reading n).SameIn a b) :
    elseBranch (s.map reading) a = elseBranch (s.map reading) b := by
  cases s with
  | none => rfl
  | some s =>
    simp only [Option.map_some, elseBranch, body_congr (h s rfl), (h s rfl).statement]

theorem conditional_congr {condition : Node} {thenBody elseBody : Option Node}
    (hcondition : (reading condition).SameIn a b) (hthen : ∀ n ∈ thenBody, (reading n).SameIn a b)
    (helse : ∀ n ∈ elseBody, (reading n).SameIn a b) :
    conditional (reading condition) (thenBody.map reading) (elseBody.map reading) a =
      conditional (reading condition) (thenBody.map reading) (elseBody.map reading) b := by
  rw [conditional, conditional, hcondition.value, branch_congr hthen]
  apply bind_congr
  intro test
  apply bind_congr
  intro first
  cases first with
  | some body => simp only [elseBranch_congr helse]
  | none =>
    cases elseBody with
    | none => rfl
    | some s => simp only [Option.map_some, body_congr (helse s rfl)]

theorem exists_kept_statements (body : List Node) :
    ∃ kept, withoutBreak (body.map reading) = kept.map reading ∧ kept ⊆ body := by
  obtain ⟨kept, hkept, rfl | ⟨rfl, -⟩⟩ := withoutBreak_map body
  · exact ⟨kept, hkept, List.subset_append_left _ _⟩
  · exact ⟨body, hkept, List.Subset.refl _⟩

end Parts

section Frames

variable {entered : Frame → Prop} {a b : Context} (h : a.Alike entered b)
include h

theorem blockLiteral_congr {info : BlockInfo} {body : List Node}
    (hframe : entered (.block info)) (hbody : ∀ s ∈ body, Indifferent entered s) :
    blockLiteral info (body.map reading) a = blockLiteral info (body.map reading) b := by
  have hinner := h.inside hframe
  simp only [blockLiteral, localNames_congr hinner.sameAnswers,
    statements_congr fun s hs => hbody s hs _ _ hinner]

theorem valueLiteral_congr {params : List Ycp.Symbol} {value : Node}
    (hframe : entered (.returnExpr params)) (hvalue : Indifferent entered value) :
    valueLiteral params (reading value) a = valueLiteral params (reading value) b := by
  have hinner := h.inside hframe
  simp only [valueLiteral, localNames_congr hinner.sameAnswers, (hvalue _ _ hinner).value]

theorem closure_congr {closure : Closure} {literal : Context → Generated Ruby.Node}
    (hliteral : closureReading (some closure) = some literal) (hframe : entered closure.frame)
    (hparts : ∀ part ∈ closure.parts, Indifferent entered part.2) : literal a = literal b := by
  cases closure with
  | block block =>
    obtain ⟨info, body⟩ := block
    obtain rfl : blockLiteral info (body.map reading) = literal := by
      simpa [closureReading, readings_eq_map] using hliteral
    apply blockLiteral_congr h hframe
    simpa [Closure.parts, Block.parts, Block.statements] using hparts
  | value params value =>
    obtain rfl : valueLiteral params (reading value) = literal := by
      simpa [closureReading] using hliteral
    apply valueLiteral_congr h hframe
    simpa [Closure.parts] using hparts

theorem attached_congr {closure : Option Closure} (call : Ruby.Node)
    (hframe : ∀ c ∈ closure, entered c.frame)
    (hparts : ∀ c ∈ closure, ∀ part ∈ c.parts, Indifferent entered part.2) :
    (match closureReading closure with
      | none => return call
      | some block => do return call.withBlock (← block a)) =
      (match closureReading closure with
      | none => return call
      | some block => do return call.withBlock (← block b) : Generated Ruby.Node) := by
  cases closure with
  | none => rfl
  | some closure =>
    obtain ⟨literal, hliteral⟩ := exists_closureReading closure
    rw [hliteral]
    simp only [closure_congr h hliteral (hframe closure rfl) (hparts closure rfl)]

theorem loop_congr {kind : Ycp.LoopKind} {condition body : Node} (hframe : entered (.loop kind))
    (hcondition : Indifferent entered condition) (hbody : Indifferent entered body) :
    loop kind (reading condition) (reading body) a =
      loop kind (reading condition) (reading body) b := by
  simp only [loop, (hcondition a b h).value, body_congr (hbody _ _ (h.inside hframe))]

theorem clauseBody_congr {clause : Scope.Clause} {info : BlockInfo} {kept : List Node}
    (hframes : ∀ frame ∈ [Frame.clause clause, .block info], entered frame)
    (hkept : ∀ s ∈ kept, Indifferent entered s) :
    clauseBody clause info (kept.map reading) a = clauseBody clause info (kept.map reading) b := by
  have hinner := (h.inside (hframes (.clause clause) (by simp))).inside
    (hframes (.block info) (by simp))
  simp only [clauseBody, statements_congr fun s hs => hkept s hs _ _ hinner]

theorem caseClause_congr {c : Node × Block} (hvalue : Indifferent entered c.1)
    (hframes : ∀ frame ∈ Ycp.clauseFrames (.case c.1.describe) c.2, entered frame)
    (hbody : ∀ s ∈ c.2.statements, Indifferent entered s) :
    caseClause (reading c.1) c.2.info (c.2.statements.map reading) a =
      caseClause (reading c.1) c.2.info (c.2.statements.map reading) b := by
  obtain ⟨kept, hkept, hsubset⟩ := exists_kept_statements c.2.statements
  have hkeptSame := clauseBody_congr h hframes fun s hs => hbody s (hsubset hs)
  simp only [caseClause, node_reading, (hvalue a b h).value, hkept, hkeptSame]

theorem defaultClause_congr {default : Option Block}
    (hframes : ∀ block ∈ default, ∀ frame ∈ Ycp.clauseFrames .default block, entered frame)
    (hbody : ∀ block ∈ default, ∀ s ∈ block.statements, Indifferent entered s) :
    defaultClause (default.map fun block => (block.info, block.statements.map reading)) a =
      defaultClause (default.map fun block => (block.info, block.statements.map reading)) b := by
  cases default with
  | none => rfl
  | some block =>
    obtain ⟨kept, hkept, hsubset⟩ := exists_kept_statements block.statements
    have hkeptSame := clauseBody_congr h (hframes block rfl)
      fun s hs => hbody block rfl s (hsubset hs)
    simp only [Option.map_some, defaultClause, hkept, hkeptSame]

theorem switch_congr {condition : Node} {cases : List (Node × Block)} {default : Option Block}
    (hframes : ∀ c ∈ cases, ∀ frame ∈ Ycp.clauseFrames (.case c.1.describe) c.2, entered frame)
    (hdefaultFrames : ∀ block ∈ default, ∀ frame ∈ Ycp.clauseFrames .default block, entered frame)
    (hcondition : Indifferent entered condition)
    (hcases : ∀ c ∈ cases, ∀ part ∈ Ycp.caseParts c, Indifferent entered part.2)
    (hdefault : ∀ block ∈ default, ∀ part ∈ Ycp.clauseParts .default block,
      Indifferent entered part.2) :
    switch (reading condition) (caseReadings cases) (defaultReading default) a =
      switch (reading condition) (caseReadings cases) (defaultReading default) b := by
  have hclauses : (caseReadings cases).mapM (fun c => caseClause c.1 c.2.1 c.2.2 a) =
      (caseReadings cases).mapM fun c => caseClause c.1 c.2.1 c.2.2 b := by
    rw [caseReadings_eq_map, List.mapM_map, List.mapM_map]
    apply mapM_congr
    intro c hc
    obtain ⟨hvalue, hclause⟩ := List.forall_mem_cons.mp (hcases c hc)
    exact caseClause_congr h hvalue (hframes c hc) (Ycp.forall_statements_of_clauseParts hclause)
  have hlast : defaultClause (defaultReading default) a =
      defaultClause (defaultReading default) b := by
    rw [defaultReading_eq_map]
    apply defaultClause_congr h hdefaultFrames
    intro block hblock
    exact Ycp.forall_statements_of_clauseParts (hdefault block hblock)
  rw [switch, switch, (hcondition a b h).value, hlast]
  apply bind_congr
  intro subject
  exact congrArg (· >>= _) hclauses

theorem functionDef_congr {name : String} {params : List Ycp.Symbol} {info : BlockInfo}
    {body : List Node} (hframe : entered (.function name params info))
    (hbody : ∀ s ∈ body, Indifferent entered s) :
    functionDef name params info (body.map reading) a =
      functionDef name params info (body.map reading) b := by
  have hinner := h.inside hframe
  simp only [functionDef, h.sameAnswers.inFunction, localName_congr hinner.sameAnswers,
    localNames_congr hinner.sameAnswers, statements_congr fun s hs => hbody s hs _ _ hinner]

end Frames

/-! ## Every node -/

section Statement

variable {entered : Frame → Prop} {a b : Context}

theorem block_statement_congr (h : a.Alike entered b) {info : BlockInfo} {body : List Node}
    (hframe : info.kind ≠ .module → info.kind ≠ .file → entered (.block info))
    (hbody : ∀ s ∈ body, Indifferent entered s) :
    (reading (.block (.mk info body))).statement a =
      (reading (.block (.mk info body))).statement b := by
  rw [reading, readings_eq_map]
  cases hkind : info.kind <;>
    simp only [blockReading, hkind, Reading.expression, Reading.solid, Reading.statementOnly]
  case unspec =>
    rw [blockLiteral_congr h (hframe (by simp [hkind]) (by simp [hkind])) hbody]
  case stmt | function =>
    have hinner := h.inside (hframe (by simp [hkind]) (by simp [hkind]))
    rw [statements_congr fun s hs => hbody s hs _ _ hinner]

theorem statement_congr (h : a.Alike entered b) {n : Node}
    (hopened : ∀ frame ∈ n.opened, entered frame)
    (hparts : ∀ part ∈ n.parts, Indifferent entered part.2) :
    (reading n).statement a = (reading n).statement b := by
  have hsame : ∀ part ∈ n.parts, (reading part.2).SameIn a b := fun part hpart =>
    hparts part hpart a b h
  have hanswers := h.sameAnswers
  cases n <;> simp only [Node.parts, Node.opened] at hsame hparts hopened
  case list elements | term name elements =>
    simp only [reading, readings_eq_map, Reading.expression, termNode_congr hanswers,
      values_congr (by simpa using hsame)]
  case map entries =>
    have hentries : ∀ entry ∈ entries,
        (reading entry.1).SameIn a b ∧ (reading entry.2).SameIn a b := by
      intro entry hentry
      simp only [List.forall_mem_flatMap, List.forall_mem_cons] at hsame
      exact ⟨(hsame entry hentry).1, (hsame entry hentry).2.1⟩
    simp only [reading, Reading.expression, entries_congr hentries]
  case var target => simp only [reading, Reading.expression, variableNode_congr hanswers]
  case assign target value =>
    simp only [reading, Reading.expression, assignmentTarget_congr hanswers,
      (hsame (.value, value) (by simp)).value]
  case bracket target index value =>
    simp only [reading_bracket, Reading.expression, variableNode_congr hanswers,
      keyReading_congr (hsame (.value, index) (by simp)),
      (hsame (.value, value) (by simp)).value]
  case index value index fallback =>
    simp only [reading_index, Reading.expression, (hsame (.value, value) (by simp)).value,
      keyReading_congr (hsame (.value, index) (by simp)),
      (hsame (.value, fallback) (by simp)).value]
  case call target category type args =>
    simp only [reading, readings_eq_map, Reading.expression, callWith_congr hanswers,
      arguments_congr (by simpa using hsame)]
  case builtin name args closure =>
    rw [List.forall_mem_append] at hsame hparts
    have hvalues : values (args.map reading) a = values (args.map reading) b :=
      values_congr (by simpa using hsame.1)
    rw [reading, readings_eq_map]
    apply congrArg (some <$> ·)
    apply bind_congr
    intro receiver
    simp only [hvalues]
    apply bind_congr
    intro vs
    apply attached_congr h
    · simpa using hopened
    · intro c hc part hpart
      exact hparts.2 part (List.mem_flatMap.mpr ⟨c, Option.mem_toList.mpr hc, hpart⟩)
  case compare op lhs rhs | binary op lhs rhs =>
    simp only [reading, Reading.expression, (hsame (.value, lhs) (by simp)).value,
      (hsame (.value, rhs) (by simp)).value]
  case unary op operand | isType op operand | propagate source op operand =>
    simp only [reading, Reading.expression, (hsame (.value, operand) (by simp)).value]
  case ternary condition thenValue elseValue =>
    simp only [reading, Reading.expression, (hsame (.value, condition) (by simp)).value,
      (hsame (.value, thenValue) (by simp)).value, (hsame (.value, elseValue) (by simp)).value]
  case returnExpr params value =>
    simp only [reading, Reading.expression,
      valueLiteral_congr h (hopened (.returnExpr params) (by simp))
         (hparts (.closureValue params, value) (by simp))]
  case block block =>
    obtain ⟨info, body⟩ := block
    apply block_statement_congr h
    · intro hmodule hfile
      exact hopened _ (by simp [Block.info, hmodule, hfile])
    · simpa [Block.parts, Block.statements] using hparts
  case ifElse condition thenBody elseBody =>
    rw [List.map_append, List.forall_mem_cons, List.forall_mem_append] at hsame
    obtain ⟨hcondition, hthen, helse⟩ := hsame
    rw [reading, optionReading_eq_map, optionReading_eq_map]
    simp only [Reading.solid, Reading.statementOnly,
      conditional_congr hcondition (by simpa using hthen) (by simpa using helse)]
  case loop kind condition body =>
    simp only [reading, Reading.solid, Reading.statementOnly,
      loop_congr h (hopened (.loop kind) (by simp)) (hparts (.value, condition) (by simp))
        (hparts (.loopBody kind, body) (by simp))]
  case breakLoop =>
    simp only [reading, Reading.solid, Reading.statementOnly, breakNode_congr hanswers]
  case ret value =>
    cases value with
    | none =>
      simp only [reading, optionReading, Reading.solid, Reading.statementOnly, returnStatement,
        returnNode_congr hanswers]
    | some value =>
      simp only [reading, optionReading, Reading.solid, Reading.statementOnly, returnStatement,
        returnNode_congr hanswers, (hsame (.value, value) (by simp)).value]
  case switch condition cases default =>
    rw [List.forall_mem_cons, List.forall_mem_append, List.forall_mem_flatMap,
      List.forall_mem_flatMap] at hparts
    rw [List.forall_mem_append, List.forall_mem_flatMap, List.forall_mem_flatMap] at hopened
    obtain ⟨hcondition, hcases, hdefault⟩ := hparts
    exact congrArg (some <$> ·) (switch_congr h hopened.1 (by simpa using hopened.2)
      hcondition hcases (by simpa using hdefault))
  case funDef name params body =>
    obtain ⟨info, body⟩ := body
    have hbody : ∀ s ∈ body, Indifferent entered s := by
      simpa [Block.statements] using hparts
    simp only [reading, readings_eq_map, Reading.solid, Reading.statementOnly,
      functionDef_congr h (hopened (.function name params info) (by simp [Block.info])) hbody]
  all_goals rfl

/-- For a node that can be a value the statement decides, any other one is never a value. -/
theorem sameIn_of_statement {n : Node} (h : (reading n).statement a = (reading n).statement b) :
    (reading n).SameIn a b := by
  cases hvalue : n.isValue with
  | true =>
    rw [statement_eq_value hvalue, statement_eq_value hvalue] at h
    have hsome := map_injective (fun _ _ => Option.some.inj) h
    exact ⟨hsome, by rw [statement_eq_value hvalue, statement_eq_value hvalue, hsome]⟩
  | false => exact ⟨by rw [value_eq_error hvalue, value_eq_error hvalue], h⟩

/-- A node that opens only the given frames becomes the same in contexts that are alike behind
them. -/
theorem indifferent {n : Node} (hn : n.OpensOnly entered) : Indifferent entered n := by
  induction n using Node.induction_parts with
  | step n ih =>
    obtain ⟨hopened, hparts⟩ := Node.opensOnly_iff.mp hn
    intro a b h
    apply sameIn_of_statement
    exact statement_congr h hopened fun part hpart => ih part hpart (hparts part hpart)

end Statement

/-! ## Braces that declare nothing -/

theorem statements_block (ctx : Context) {info : BlockInfo} (hkind : info.kind = .stmt)
    (ss : List Node) :
    statements (readings [.block (.mk info ss)]) ctx =
      statements (readings ss) (ctx.inside (.block info)) := by
  simp only [readings, reading, blockReading, hkind, Reading.solid, Reading.statementOnly,
    statements, List.mapM_cons, List.mapM_nil]
  cases (readings ss).mapM fun reading => reading.statement (ctx.inside (.block info)) with
  | error failure => rfl
  | ok entries => simp [splice, Functor.map, Except.map, bind, Except.bind, pure, Except.pure]

/-- A statement block that declares nothing can be taken away from around its statements: what they
become, or why nothing becomes of them, is the same in every context. -/
theorem statements_within_bare_block (ctx : Context) {info : BlockInfo} (hinfo : info.IsBare)
    {ss : List Node} (hss : ∀ s ∈ ss, ∃ tree, Ycp.decode tree = .ok s) :
    statements (readings [.block (.mk info ss)]) ctx = statements (readings ss) ctx := by
  rw [statements_block ctx hinfo.1, readings_eq_map]
  apply statements_congr
  intro s hs
  obtain ⟨tree, hdecode⟩ := hss s hs
  have hopens := (Node.wellFormed_of_decode hdecode).opensOnly
  exact indifferent hopens _ _ (Context.alike_inside_bare ctx hinfo)

def countAndStop : List Node := [
  .assign ⟨none, "count"⟩ (.const .int (some "1")),
  .call ⟨some "Counter", "report"⟩ .function none [],
  .builtin "foreach" [] (some (.block (.mk { kind := .unspec } [.breakLoop])))]

def counterContext : Context :=
  ({} : Context).inside (.block {
    kind := .module
    name := some "Counter"
    symbols := [⟨true, .var, "integer", "count"⟩] })

theorem countAndStop_within_bare_block :
    (∀ s ∈ countAndStop, Ycp.decode s.encode = .ok s) ∧
      statements (readings [.block (.mk { kind := .stmt } countAndStop)]) counterContext =
        statements (readings countAndStop) counterContext := by
  have hdecode : ∀ s ∈ countAndStop, Ycp.decode s.encode = .ok s := by
    simp only [countAndStop, List.forall_mem_cons, List.not_mem_nil, false_imp_iff, implies_true,
      and_true]
    exact ⟨rfl, rfl, rfl⟩
  exact ⟨hdecode, statements_within_bare_block counterContext ⟨rfl, rfl, rfl⟩
    fun s hs => ⟨s.encode, hdecode s hs⟩⟩

end Generate

end YcpToRuby
