import YcpToRuby.Proofs.Generate.Jumps
import YcpToRuby.Proofs.Generate.Translatable

/-!
# Where jumps land

What a jump becomes is decided by the frames around it. Where it lands in Ruby is decided by the
loops, block literals and clauses around it there. Between a statement and the closure around it
there are only places of statements, and on these the two are compared position by position.
-/

set_option autoImplicit false

namespace YcpToRuby.Generate

open Ruby (Enclosure)
open Ycp (Block BlockInfo Capture Node Occurs Position decode occurs_iff)

variable {settings : Settings} {path : List Position} {n m : Node}

/-! ## Paths of statements -/

/-- Up to the closure around it, or else up to the root, a path leads through places of statements
only. -/
inductive StatementPath : List Position → Prop
  | root : StatementPath []
  | closure {info : BlockInfo} (path : List Position) (hkind : info.kind = .unspec) :
      StatementPath (.blockBody info :: path)
  | step {pos : Position} {path : List Position} (hvalue : pos.isValue = false)
      (h : StatementPath path) : StatementPath (pos :: path)

/-- Only a closure is a value with statements as parts. -/
theorem closure_of_mem_parts (hn : n.IsSound) {pos : Position} (hpart : (pos, m) ∈ n.parts)
    (hpos : pos.isValue = false) (hvalue : n.isValue = true) :
    ∃ info, pos = .blockBody info ∧ info.kind = .unspec := by
  cases n <;> simp only [Node.isValue, Bool.false_eq_true] at hvalue
  case block block =>
    obtain ⟨s, -, hs⟩ := List.mem_map.mp hpart
    cases hs
    exact ⟨block.info, rfl, of_decide_eq_true hvalue⟩
  case builtin name args closure =>
    simp only [Node.parts, List.mem_append, List.mem_map, List.mem_flatMap,
      Option.mem_toList] at hpart
    rcases hpart with ⟨e, -, he⟩ | ⟨c, hc, hpart⟩
    · cases he
      cases hpos
    · cases c with
      | block block =>
        obtain ⟨s, -, hs⟩ := List.mem_map.mp hpart
        cases hs
        exact ⟨block.info, rfl, hn block hc⟩
      | value params value =>
        cases List.mem_singleton.mp hpart
        cases hpos
  case const | locale | var | reference => cases hpart
  all_goals
    simp only [Node.parts, List.mem_cons, List.mem_map, List.mem_flatMap, List.not_mem_nil,
      or_false, Prod.mk.injEq] at hpart
    grind [Position.isValue]

/-- Statements stand on paths of statements. -/
theorem Translatable.statementPath (h : Translatable n) (hn : n.WellFormed)
    (hm : m.isValue = false) (hoccurs : Occurs m path n) : StatementPath path := by
  induction path generalizing m with
  | nil => exact .root
  | cons pos path ih =>
    have hpos : pos.isValue = false := by
      by_contra hpos
      simp [h.value m pos path hoccurs (by simpa using hpos)] at hm
    obtain ⟨parent, hparent, hpart⟩ := hoccurs.exists_parent
    cases hvalue : parent.isValue with
    | false => exact .step hpos (ih hvalue hparent)
    | true =>
      obtain ⟨info, rfl, hkind⟩ := closure_of_mem_parts (hn parent path hparent) hpart hpos hvalue
      exact .closure path hkind

/-! ## What a `break` leaves -/

def enclosureOf : Capture → Enclosure
  | .loop => .loopBody
  | .closure => .blockLiteral
  | .clause _ => .clauseBody

theorem StatementPath.findSome?_enclosure? (h : StatementPath path) :
    path.findSome? enclosure? = (path.findSome? Position.capture?).map enclosureOf := by
  induction h with
  | root => rfl
  | closure path hkind => simp [enclosure?, Position.capture?, hkind, enclosureOf]
  | @step pos path hvalue h ih =>
    cases pos
    case value | argument | closureValue => cases hvalue
    case blockBody info =>
      by_cases hkind : info.kind = .unspec
      · simp [enclosure?, Position.capture?, hkind, enclosureOf]
      · simpa [enclosure?, Position.capture?, hkind] using ih
    case branch | functionBody =>
      simpa [List.findSome?_cons, enclosure?, Position.capture?] using ih
    case loopBody | clauseBody | clauseEnd => rfl

/-! ## What a `return` leaves -/

def leavesClosure? : Position → Option Bool
  | .functionBody .. => some false
  | .blockBody info =>
    match info.kind with
    | .unspec => some true
    | .function | .file => some false
    | _ => none
  | _ => none

theorem returnNode_eq_ite (value : Option Ruby.Node) (ctx : Scope.Context) :
    returnNode value ctx =
      if (ctx.innermost? [.function, .block .function, .block .file, .block .unspec]).map
        (fun frame => decide (frame.kind = .block .unspec)) = some true
      then .next value else .ret value := by
  unfold returnNode
  generalize ctx.innermost? [.function, .block .function, .block .file, .block .unspec] = found
  cases found with
  | none => simp
  | some frame => cases frame <;> simp [Scope.Frame.kind]

/-- Only the nearest closure, method or file decides what a `return` becomes. -/
theorem returnNode_contextAt (hpath : ∀ pos ∈ path, pos.IsSound) (value : Option Ruby.Node) :
    returnNode value (contextAt settings path) =
      if path.findSome? leavesClosure? = some true then .next value else .ret value := by
  rw [returnNode_eq_ite, innermost?_contextAt, List.map_findSome?, ← List.head?_filterMap,
    ← List.head?_filterMap, List.filterMap_congr]
  intro pos hpos
  cases pos
  case clauseBody clause info | clauseEnd clause info =>
    have hkind : info.kind = .stmt := hpath _ hpos
    simp [Position.frames, leavesClosure?, Scope.Frame.kind, hkind]
  case blockBody info =>
    cases hkind : info.kind <;> simp [Position.frames, leavesClosure?, Scope.Frame.kind, hkind]
  all_goals rfl

def LeavesThroughLoop (path : List Position) : Prop :=
  ∃ inner kind outer, path = inner ++ .loopBody kind :: outer ∧
    inner.findSome? leavesClosure? = none ∧ outer.findSome? leavesClosure? = some true

theorem leavesThroughLoop_cons {pos : Position} :
    LeavesThroughLoop (pos :: path) ↔
      (∃ kind, pos = .loopBody kind) ∧ path.findSome? leavesClosure? = some true ∨
        leavesClosure? pos = none ∧ LeavesThroughLoop path := by
  constructor
  · rintro ⟨inner, kind, outer, hpath, hinner, houter⟩
    cases inner with
    | nil =>
      cases hpath
      exact Or.inl ⟨⟨kind, rfl⟩, houter⟩
    | cons first inner =>
      cases hpath
      obtain ⟨hfirst, hinner⟩ : leavesClosure? pos = none ∧
          inner.findSome? leavesClosure? = none := by simpa using hinner
      exact Or.inr ⟨hfirst, inner, kind, outer, rfl, by simpa using hinner, houter⟩
  · rintro (⟨⟨kind, rfl⟩, hpath⟩ | ⟨hpos, inner, kind, outer, rfl, hinner, houter⟩)
    · exact ⟨[], kind, path, rfl, rfl, hpath⟩
    · exact ⟨pos :: inner, kind, outer, rfl, by simpa [hpos] using hinner, houter⟩

theorem LeavesThroughLoop.findSome?_eq (h : LeavesThroughLoop path) :
    path.findSome? leavesClosure? = some true := by
  obtain ⟨inner, kind, outer, rfl, hinner, houter⟩ := h
  simp [List.findSome?_append, hinner, houter, List.findSome?_cons, leavesClosure?]

/-- Of the loops and block literals around a `return` that leaves a closure, the nearest one is a
block literal unless a loop stands in between. -/
theorem StatementPath.head?_enclosures_iff (h : StatementPath path)
    (hclosure : path.findSome? leavesClosure? = some true) :
    ((path.filterMap enclosure?).filter (· ≠ .clauseBody)).head? = some .blockLiteral ↔
      ¬ LeavesThroughLoop path := by
  induction h with
  | root => cases hclosure
  | closure path hkind => simp [enclosure?, leavesThroughLoop_cons, leavesClosure?, hkind]
  | @step pos path hvalue h ih =>
    cases pos
    case value | argument | closureValue => cases hvalue
    case functionBody => cases hclosure
    case blockBody info =>
      cases hkind : info.kind
      case unspec => simp [enclosure?, leavesThroughLoop_cons, leavesClosure?, hkind]
      case function | file => simp [leavesClosure?, hkind] at hclosure
      all_goals
        simp only [List.findSome?_cons, leavesClosure?, hkind] at hclosure
        simpa [enclosure?, leavesThroughLoop_cons, leavesClosure?, hkind] using ih hclosure
    case loopBody kind =>
      simp only [List.findSome?_cons, leavesClosure?] at hclosure
      simp [enclosure?, leavesThroughLoop_cons, hclosure]
    all_goals
      simp only [List.findSome?_cons, leavesClosure?] at hclosure
      simpa [enclosure?, leavesThroughLoop_cons, leavesClosure?] using ih hclosure

/-! ## Jumps of each form -/

theorem JumpOf.breakNode_eq {s : Node} {j : Ruby.Node} (h : JumpOf settings path s j)
    (hj : j = .breakLoop ∨ j = Ruby.raiseBreak) :
    s = .breakLoop ∧ breakNode (contextAt settings path) = .ok j := by
  have hreturn (value : Option Ruby.Node) :
      returnNode value (contextAt settings path) ≠ .breakLoop ∧
        returnNode value (contextAt settings path) ≠ Ruby.raiseBreak := by
    rcases returnNode_forms value (contextAt settings path) with hvalue | hvalue
    · rw [hvalue]
      exact ⟨by rintro ⟨⟩, by rintro ⟨⟩⟩
    · rw [hvalue]
      exact ⟨by rintro ⟨⟩, by rintro ⟨⟩⟩
  cases h with
  | breakLoop h => exact ⟨rfl, h⟩
  | continueLoop => rcases hj with hj | hj <;> cases hj
  | ret => exact absurd hj (not_or.mpr (hreturn none))
  | retValue h => exact absurd hj (not_or.mpr (hreturn _))

theorem JumpOf.returnNode_eq {s : Node} {j v : Ruby.Node} (h : JumpOf settings path s j)
    (hj : j = .next (some v)) :
    (∃ value, s = .ret (some value)) ∧ returnNode (some v) (contextAt settings path) = j := by
  cases h with
  | breakLoop h =>
    rcases breakNode_forms h with rfl | rfl
    · cases hj
    · cases hj
  | continueLoop => cases hj
  | ret =>
    rcases returnNode_forms none (contextAt settings path) with hvalue | hvalue
    · cases hvalue.symm.trans hj
    · cases hvalue.symm.trans hj
  | @retValue value w h =>
    refine ⟨⟨value, rfl⟩, ?_⟩
    rcases returnNode_forms (some w) (contextAt settings path) with hvalue | hvalue
    · cases hvalue.symm.trans hj
      rfl
    · cases hvalue.symm.trans hj

/-! ## Whole programs -/

/-- The breaks of a generated tree: which one a `break` becomes, and what encloses it, go by what it
leaves. -/
theorem exists_capture_of_hasJump (hn : n.WellFormed) (htranslatable : Translatable n)
    {r : Ruby.Node} (hr : unit settings n = .ok r) {j : Ruby.Node}
    (hj : j = .breakLoop ∨ j = Ruby.raiseBreak) {around : List Enclosure}
    (hjump : r.HasJump j around) :
    ∃ capture : Option Capture, around.head? = capture.map enclosureOf ∧
      (match capture with
        | some .closure => .ok Ruby.raiseBreak
        | some (.clause clause) => unsupported (.breakInside clause)
        | _ => .ok .breakLoop) = (.ok j : Generated Ruby.Node) := by
  obtain ⟨s, path, hs, hof, rfl⟩ := exists_jumpOf_of_hasJump hn hr hjump
  obtain ⟨rfl, hnode⟩ := hof.breakNode_eq hj
  rw [breakNode_contextAt (hn.position hs)] at hnode
  refine ⟨path.findSome? Position.capture?, ?_, hnode⟩
  rw [List.head?_filterMap]
  exact (htranslatable.statementPath hn rfl hs).findSome?_enclosure?

/-- Every `break` of Ruby stands in the loop that it leaves, or in nothing at all; every exception
for a `break` stands in the block literal that it leaves. -/
theorem breaks_stand_in_what_they_leave {tree : Tree} {n : Node} (h : decode tree = .ok n)
    {settings : Settings} {r : Ruby.Node} (hr : unit settings n = .ok r) :
    (∀ around, Ruby.Occurs .breakLoop around r → around.head? = some .loopBody ∨ around = []) ∧
      ∀ around, Ruby.Occurs Ruby.raiseBreak around r → around.head? = some .blockLiteral := by
  have hn := Node.wellFormed_of_decode h
  have htranslatable := (exists_unit_iff hn settings).mp ⟨r, hr⟩
  constructor
  · intro around hoccurs
    obtain ⟨capture, hhead, hnode⟩ :=
      exists_capture_of_hasJump hn htranslatable hr (Or.inl rfl) ⟨.breakLoop, hoccurs⟩
    match capture with
    | none => exact Or.inr (List.head?_eq_none_iff.mp hhead)
    | some .loop => exact Or.inl hhead
    | some .closure | some (.clause clause) => cases hnode
  · intro around hoccurs
    obtain ⟨capture, hhead, hnode⟩ :=
      exists_capture_of_hasJump hn htranslatable hr (Or.inr rfl) ⟨.raiseBreak, hoccurs⟩
    match capture with
    | some .closure => exact hhead
    | none | some .loop | some (.clause clause) => cases hnode

def nestedBreaks : Node :=
  .loop .whileTrue (.const .bool (some "true"))
    (.block (.mk { kind := .stmt } [
      .builtin "foreach" [] (some (.block (.mk { kind := .unspec } [.breakLoop]))),
      .breakLoop]))

def nestedBreaksNode : Ruby.Node :=
  .loop .whileTrue (.literal (.bool true)) (.sequence [
    some (.call (some (.constant "Builtins")) "foreach" []
      (some (.block [] (.sequence [some Ruby.raiseBreak]))) true),
    some .breakLoop])

theorem breaks_of_nestedBreaks :
    Ruby.Occurs .breakLoop [.loopBody] nestedBreaksNode ∧
      Ruby.Occurs Ruby.raiseBreak [.blockLiteral, .loopBody] nestedBreaksNode ∧
      (∀ around, Ruby.Occurs .breakLoop around nestedBreaksNode →
        around.head? = some .loopBody ∨ around = []) ∧
      ∀ around, Ruby.Occurs Ruby.raiseBreak around nestedBreaksNode →
        around.head? = some .blockLiteral := by
  have hdecode : decode nestedBreaks.encode = .ok nestedBreaks := rfl
  have hunit : unit {} nestedBreaks = .ok nestedBreaksNode := rfl
  have hbreak : nestedBreaksNode.HasJump .breakLoop [.loopBody] := by simp [nestedBreaksNode]
  have hraise : nestedBreaksNode.HasJump Ruby.raiseBreak [.blockLiteral, .loopBody] := by
    simp [nestedBreaksNode]
  exact ⟨hbreak.2, hraise.2, breaks_stand_in_what_they_leave hdecode hunit⟩

/-- Every `next` with a value leaves a block literal, and not a turn of a loop, exactly if no
`return` with a value stands in a loop of the closure that it leaves. -/
theorem returns_leave_closures_iff {tree : Tree} {n : Node} (h : decode tree = .ok n)
    {settings : Settings} {r : Ruby.Node} (hr : unit settings n = .ok r) :
    (∀ value around, Ruby.Occurs (.next (some value)) around r →
        (around.filter (· ≠ .clauseBody)).head? = some .blockLiteral) ↔
      ∀ value path, Occurs (.ret (some value)) path n → ¬ LeavesThroughLoop path := by
  have hn := Node.wellFormed_of_decode h
  have htranslatable := (exists_unit_iff hn settings).mp ⟨r, hr⟩
  constructor
  · intro hall value path hs hthrough
    have hclosure := hthrough.findSome?_eq
    have hpath := htranslatable.statementPath hn rfl hs
    rcases exists_jumpOf_of_occurs hn hr hs (.ret _) with hnone | ⟨j, hof, hjump⟩
    · cases parts_eq_nil_of_made hnone
    · cases hof with
      | @retValue _ v hv =>
        rw [returnNode_contextAt (hn.position hs), if_pos hclosure] at hjump
        have hhead := hall v _ (hjump (.next _)).2
        exact (hpath.head?_enclosures_iff hclosure).mp hhead hthrough
  · intro hall v around hoccurs
    obtain ⟨s, path, hs, hof, rfl⟩ := exists_jumpOf_of_hasJump hn hr ⟨.next _, hoccurs⟩
    obtain ⟨⟨value, rfl⟩, hnext⟩ := hof.returnNode_eq rfl
    have hclosure : path.findSome? leavesClosure? = some true := by
      by_contra hnot
      rw [returnNode_contextAt (hn.position hs), if_neg hnot] at hnext
      cases hnext
    have hpath := htranslatable.statementPath hn rfl hs
    exact (hpath.head?_enclosures_iff hclosure).mpr (hall value path hs)

def loopAroundClosure : Node :=
  .loop .whileTrue (.const .bool (some "true"))
    (.block (.mk { kind := .unspec } [.ret (some (.const .int (some "1")))]))

theorem returns_of_loopAroundClosure :
    ∃ r, unit {} loopAroundClosure = .ok r ∧
      ∀ value around, Ruby.Occurs (.next (some value)) around r →
        (around.filter (· ≠ .clauseBody)).head? = some .blockLiteral := by
  have hdecode : decode loopAroundClosure.encode = .ok loopAroundClosure := rfl
  refine ⟨_, rfl, (returns_leave_closures_iff hdecode rfl).mpr ?_⟩
  have hleaf {value : Node} {path : List Position} (type : Ycp.ConstType) (text : String) :
      ¬ Occurs (.ret (some value)) path (.const type (some text)) := by
    rw [occurs_iff]
    simp [Node.parts]
  intro value path hs
  unfold loopAroundClosure at hs
  cases hs with
  | inside hpart hbody =>
    rcases List.mem_pair.mp hpart with rfl | rfl
    · exact absurd hbody (hleaf _ _)
    cases hbody with
    | inside hpart hret =>
      obtain rfl := List.mem_singleton.mp hpart
      cases hret with
      | here => simp [leavesThroughLoop_cons, leavesClosure?, Block.info]
      | inside hpart hvalue =>
        obtain rfl := List.mem_singleton.mp hpart
        exact absurd hvalue (hleaf _ _)

def closureAroundLoop : Node :=
  .block (.mk { kind := .unspec } [
    .loop .whileTrue (.const .bool (some "true")) (.ret (some (.const .int (some "1"))))])

/-- The value is handed to the loop. -/
theorem return_of_closureAroundLoop_stays :
    ∃ tree n r value around, decode tree = .ok n ∧ unit {} n = .ok r ∧
      Ruby.Occurs (.next (some value)) around r ∧
      (around.filter (· ≠ .clauseBody)).head? ≠ some .blockLiteral := by
  have hnext : (lambda (.block [] (.sequence [some (.loop .whileTrue (.literal (.bool true))
      (.sequence [some (.next (some (.literal (.integer 1))))]))]))).HasJump
        (.next (some (.literal (.integer 1)))) [.loopBody, .blockLiteral] := by
    simp
  exact ⟨closureAroundLoop.encode, closureAroundLoop, _, _, _, rfl, rfl, hnext.2, by decide⟩

end YcpToRuby.Generate
