import Mathlib.Logic.Basic
import YcpToRuby.Generate.Binding
import YcpToRuby.Proofs.Scope.Nesting

/-!
# The declaration behind a name

Looking a name up goes through the frames from the innermost one. Calling it local or global goes by
the names on the two sides of the boundary, which is the position of the outermost frame that starts
a local scope. Both mean one declaration: the name is local if the innermost frame that declares it
stands at the boundary or inside, and global if it stands outside. Whether a name is a reference is
asked of the declaration that is found, and the Ruby name of its holder depends on the side of the
boundary. So reading and writing the name go to the variable of that declaration.
-/

set_option autoImplicit false

namespace YcpToRuby.Scope

open Ycp (Symbol)

/-! ## Declarations in a frame -/

namespace Frame

def LastDeclares (frame : Frame) (name : String) (symbol : Symbol) : Prop :=
  symbol.name = name ∧ ∃ before after, frame.symbols = before ++ symbol :: after ∧
    ∀ later ∈ after, later.name ≠ name

theorem LastDeclares.mem_names {frame : Frame} {name : String} {symbol : Symbol}
    (h : frame.LastDeclares name symbol) : name ∈ frame.names := by
  obtain ⟨hname, before, after, hsymbols, -⟩ := h
  simp [names, hsymbols, hname]

end Frame

namespace Context

theorem declarationIn?_eq_some_iff {name : String} {frame : Frame} {symbol : Symbol} :
    declarationIn? name frame = some symbol ↔ frame.LastDeclares name symbol := by
  rw [declarationIn?, List.getLast?_filter, List.find?_eq_some_iff_append]
  constructor
  · rintro ⟨hname, after, before, hsymbols, hafter⟩
    rw [List.reverse_eq_iff] at hsymbols
    exact ⟨by simpa using hname, before.reverse, after.reverse, by simpa using hsymbols,
      by simpa using hafter⟩
  · rintro ⟨hname, before, after, hsymbols, hafter⟩
    exact ⟨by simpa using hname, after.reverse, before.reverse, by simp [hsymbols],
      by simpa using hafter⟩

theorem declarationIn?_eq_none_iff {name : String} {frame : Frame} :
    declarationIn? name frame = none ↔ name ∉ frame.names := by
  simp [declarationIn?, Frame.names]

/-! ## The innermost frame that declares a name -/

/-- Among the frames, counted from the outermost one, the frame at the position declares the name,
and no frame further inside does. -/
structure InnermostAt (ctx : Context) (name : String) (i : Nat) (frame : Frame) : Prop where
  frame_at : ctx.frames[i]? = some frame
  declares : name ∈ frame.names
  not_inside : ∀ j other, i < j → ctx.frames[j]? = some other → name ∉ other.names

variable {ctx : Context} {name : String} {i : Nat} {frame : Frame}

theorem innermostAt_length {outer inner : List Frame}
    (hframes : ctx.frames = outer ++ frame :: inner) (hdeclares : name ∈ frame.names)
    (hinner : ∀ other ∈ inner, name ∉ other.names) :
    ctx.InnermostAt name outer.length frame where
  frame_at := by simp [hframes]
  declares := hdeclares
  not_inside j other hj hother := by
    obtain ⟨k, rfl⟩ := Nat.exists_eq_add_of_lt hj
    rw [hframes, Nat.add_assoc, List.getElem?_append_right (Nat.le_add_right _ _),
      Nat.add_sub_cancel_left, List.getElem?_cons_succ] at hother
    exact hinner other (List.mem_of_getElem? hother)

theorem InnermostAt.exists_frames (h : ctx.InnermostAt name i frame) :
    ∃ outer inner, ctx.frames = outer ++ frame :: inner ∧
      ∀ other ∈ inner, name ∉ other.names := by
  obtain ⟨hi, hframe⟩ := List.getElem?_eq_some_iff.mp h.frame_at
  refine ⟨ctx.frames.take i, ctx.frames.drop (i + 1), ?_, ?_⟩
  · rw [← hframe, List.getElem_cons_drop, List.take_append_drop]
  · intro other hother
    obtain ⟨k, hk⟩ := List.mem_iff_getElem?.mp hother
    rw [List.getElem?_drop] at hk
    exact h.not_inside _ other (by omega) hk

/-- Looking a name up gives the last declaration in the innermost frame that has one. -/
theorem lookup?_eq_some_iff {symbol : Symbol} :
    ctx.lookup? name = some symbol ↔
      ∃ i frame, ctx.InnermostAt name i frame ∧ frame.LastDeclares name symbol := by
  rw [lookup?, List.findSome?_eq_some_iff]
  constructor
  · rintro ⟨inner, frame, outer, hframes, hfound, hinner⟩
    have hlast := declarationIn?_eq_some_iff.mp hfound
    have hsplit : ctx.frames = outer.reverse ++ frame :: inner.reverse := by
      simpa using List.reverse_eq_iff.mp hframes
    refine ⟨_, frame, innermostAt_length hsplit hlast.mem_names ?_, hlast⟩
    intro other hother
    exact declarationIn?_eq_none_iff.mp (hinner other (List.mem_reverse.mp hother))
  · rintro ⟨i, frame, hinnermost, hlast⟩
    obtain ⟨outer, inner, hsplit, hinner⟩ := hinnermost.exists_frames
    refine ⟨inner.reverse, frame, outer.reverse, by simp [hsplit],
      declarationIn?_eq_some_iff.mpr hlast, ?_⟩
    intro other hother
    exact declarationIn?_eq_none_iff.mpr (hinner other (List.mem_reverse.mp hother))

/-! ## The boundary -/

def boundary (ctx : Context) : Nat :=
  ctx.frames.findIdx Frame.startsLocalScope

theorem localFrames_eq_drop (ctx : Context) : ctx.localFrames = ctx.frames.drop ctx.boundary := by
  simp [localFrames, boundary, List.dropWhile_eq_drop_findIdx_not]

theorem mem_locals_iff :
    name ∈ ctx.locals ↔
      ∃ i frame, ctx.boundary ≤ i ∧ ctx.frames[i]? = some frame ∧ name ∈ frame.names := by
  rw [locals, localFrames_eq_drop, List.mem_flatMap]
  constructor
  · rintro ⟨frame, hframe, hname⟩
    obtain ⟨k, hk⟩ := List.mem_iff_getElem?.mp hframe
    rw [List.getElem?_drop] at hk
    exact ⟨ctx.boundary + k, frame, Nat.le_add_right _ _, hk, hname⟩
  · rintro ⟨i, frame, hi, hframe, hname⟩
    refine ⟨frame, List.mem_iff_getElem?.mpr ⟨i - ctx.boundary, ?_⟩, hname⟩
    rwa [List.getElem?_drop, Nat.add_sub_cancel' hi]

/-- Every declared name is on one side of the boundary. -/
theorem globals_append_locals (ctx : Context) :
    ctx.globals ++ ctx.locals = ctx.frames.flatMap Frame.names := by
  rw [globals, locals, ← List.flatMap_append, globalFrames, localFrames,
    List.takeWhile_append_dropWhile]

theorem isSome_lookup?_iff :
    (ctx.lookup? name).isSome = true ↔ name ∈ ctx.globals ++ ctx.locals := by
  rw [globals_append_locals, lookup?, List.findSome?_isSome_iff]
  simp only [List.mem_flatMap, List.mem_reverse, Option.isSome_iff_ne_none, ne_eq,
    declarationIn?_eq_none_iff, Decidable.not_not]

namespace InnermostAt

theorem le_of_declares (h : ctx.InnermostAt name i frame) {j : Nat} {other : Frame}
    (hother : ctx.frames[j]? = some other) (hname : name ∈ other.names) : j ≤ i := by
  apply Nat.le_of_not_lt
  intro hlt
  exact h.not_inside j other hlt hother hname

/-- No frame that declares the name stands further inside, so the position is at the boundary or
inside as soon as one local frame declares it. -/
theorem isLocal_iff (h : ctx.InnermostAt name i frame) :
    ctx.isLocal name = true ↔ ctx.boundary ≤ i := by
  rw [isLocal_eq_true_iff, mem_locals_iff]
  constructor
  · rintro ⟨j, other, hj, hother, hname⟩
    exact Nat.le_trans hj (h.le_of_declares hother hname)
  · intro hi
    exact ⟨i, frame, hi, h.frame_at, h.declares⟩

theorem isGlobal_iff (h : ctx.InnermostAt name i frame) :
    ctx.isGlobal name = true ↔ i < ctx.boundary := by
  have hdeclared : name ∈ ctx.globals ++ ctx.locals := by
    rw [globals_append_locals]
    exact List.mem_flatMap.mpr ⟨frame, List.mem_of_getElem? h.frame_at, h.declares⟩
  have hnot : name ∉ ctx.locals ↔ i < ctx.boundary := by
    rw [← isLocal_eq_true_iff, h.isLocal_iff, Nat.not_le]
  rw [isGlobal_eq_true_iff, hnot]
  constructor
  · exact And.left
  · intro hi
    exact ⟨hi, (List.mem_append.mp hdeclared).resolve_right (hnot.mpr hi)⟩

theorem resolve_eq (h : ctx.InnermostAt name i frame) :
    ctx.resolve name = if i < ctx.boundary then ctx.globalName name else ctx.localName name := by
  simp only [resolve, h.isGlobal_iff]

end InnermostAt

theorem xor_isLocal_isGlobal_iff :
    Xor (ctx.isLocal name = true) (ctx.isGlobal name = true) ↔
      name ∈ ctx.globals ++ ctx.locals := by
  rw [isLocal_eq_true_iff, isGlobal_eq_true_iff, List.mem_append, Xor]
  by_cases hlocal : name ∈ ctx.locals <;> simp [hlocal]

end Context

end YcpToRuby.Scope

namespace YcpToRuby.Generate

open Ruby (Node)
open Scope (Context Frame)
open Scope.Context (isSome_lookup?_iff lookup?_eq_some_iff xor_isLocal_isGlobal_iff)
open Ycp (Symbol)

/-! ## Reading and writing what is declared -/

def variableAt (ctx : Context) (name : String) (i : Nat) : Node :=
  .var (if i < ctx.boundary then ctx.globalName name else ctx.localName name)

def declaredNode (ctx : Context) (i : Nat) (symbol : Symbol) : Node :=
  if symbol.isReference then heldBy (variableAt ctx symbol.name i)
  else variableAt ctx symbol.name i

/-- A name without a namespace is read and written as what its innermost declaration stands for. -/
theorem valueNode_and_target_of_innermostAt {ctx : Context} {name : String} {i : Nat}
    {frame : Frame} {symbol : Symbol} (h : ctx.InnermostAt name i frame)
    (hlast : frame.LastDeclares name symbol) :
    valueNode ctx ⟨none, name⟩ = declaredNode ctx i symbol ∧
      assignmentTarget ctx ⟨none, name⟩ = declaredNode ctx i symbol := by
  have hfound : ctx.lookup? name = some symbol := lookup?_eq_some_iff.mpr ⟨i, frame, h, hlast⟩
  have hnamed : nameNode ctx ⟨none, name⟩ = variableAt ctx name i := by
    rw [nameNode, h.resolve_eq, variableAt]
  have hname : symbol.name = name := hlast.1
  have hheld : referenceValue? ctx ⟨none, name⟩ =
      if symbol.isReference then some (heldBy (variableAt ctx name i)) else none := by
    simp only [referenceValue?, hfound, h.resolve_eq, variableAt]
  rw [valueNode, assignmentTarget, targetNode, hnamed, hheld, declaredNode, hname]
  cases symbol.isReference <;> exact ⟨rfl, rfl⟩

/-- A name is found exactly when it is either local or global. What is found is the last declaration
in the innermost frame that declares the name. That frame stands at the boundary or inside for a
local name, and outside for a global one. So the name is read and written as what that declaration
stands for. -/
theorem lookup?_agrees_with_boundary (ctx : Context) (name : String) :
    ((ctx.lookup? name).isSome = true ↔
        Xor (ctx.isLocal name = true) (ctx.isGlobal name = true)) ∧
      ∀ symbol, ctx.lookup? name = some symbol →
        ∃ i frame, ctx.InnermostAt name i frame ∧ frame.LastDeclares name symbol ∧
          (ctx.boundary ≤ i ↔ ctx.isLocal name = true) ∧
          (i < ctx.boundary ↔ ctx.isGlobal name = true) ∧
          valueNode ctx ⟨none, name⟩ = declaredNode ctx i symbol ∧
          assignmentTarget ctx ⟨none, name⟩ = declaredNode ctx i symbol := by
  constructor
  · rw [isSome_lookup?_iff, xor_isLocal_isGlobal_iff]
  · intro symbol hfound
    obtain ⟨i, frame, hinnermost, hlast⟩ := lookup?_eq_some_iff.mp hfound
    exact ⟨i, frame, hinnermost, hlast, hinnermost.isLocal_iff.symm,
      hinnermost.isGlobal_iff.symm, valueNode_and_target_of_innermostAt hinnermost hlast⟩

def moduleLoop : Context where
  frames := [
    .block { kind := .module, name := some "M",
             symbols := [⟨true, .var, "integer", "x"⟩, ⟨false, .var, "integer", "counter"⟩] },
    .function "f" [⟨false, .reference, "integer &", "x"⟩]
      { kind := .function, symbols := [⟨false, .var, "integer", "i"⟩] },
    .loop .whileTrue,
    .block { kind := .stmt, symbols := [⟨false, .var, "string", "k"⟩] }]

theorem lookup?_moduleLoop_sides :
    (Xor (moduleLoop.isLocal "x" = true) (moduleLoop.isGlobal "x" = true) ∧
      ∃ i frame, moduleLoop.InnermostAt "x" i frame ∧
        frame.LastDeclares "x" ⟨false, .reference, "integer &", "x"⟩ ∧ moduleLoop.boundary ≤ i) ∧
    (Xor (moduleLoop.isLocal "counter" = true) (moduleLoop.isGlobal "counter" = true) ∧
      ∃ i frame, moduleLoop.InnermostAt "counter" i frame ∧
        frame.LastDeclares "counter" ⟨false, .var, "integer", "counter"⟩ ∧
        i < moduleLoop.boundary) := by
  have hx : moduleLoop.lookup? "x" = some ⟨false, .reference, "integer &", "x"⟩ := by decide
  have hcounter : moduleLoop.lookup? "counter" = some ⟨false, .var, "integer", "counter"⟩ := by
    decide
  constructor
  · obtain ⟨hpresent, hframe⟩ := lookup?_agrees_with_boundary moduleLoop "x"
    obtain ⟨i, frame, hinnermost, hlast, hlocal, -⟩ := hframe _ hx
    exact ⟨hpresent.mp (by simp [hx]), i, frame, hinnermost, hlast, hlocal.mpr (by decide)⟩
  · obtain ⟨hpresent, hframe⟩ := lookup?_agrees_with_boundary moduleLoop "counter"
    obtain ⟨i, frame, hinnermost, hlast, -, hglobal, -⟩ := hframe _ hcounter
    exact ⟨hpresent.mp (by simp [hcounter]), i, frame, hinnermost, hlast, hglobal.mpr (by decide)⟩

end YcpToRuby.Generate
