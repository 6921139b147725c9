import YcpToRuby.Proofs.Scope.Transparent
import YcpToRuby.Scope.Context

/-!
# Contexts that nothing tells apart

A node asks the context for the names that are declared, for the module, and for the frame that a
jump leaves. Two contexts are alike behind some frames if all these questions have the same answers,
also after any number of those frames is entered. Frames alone decide the answers, so a context with
other settings is alike; so is one with a statement block that declares nothing put innermost, as
long as no module is entered behind it.
-/

set_option autoImplicit false

namespace YcpToRuby.Scope

open Ycp (BlockInfo)

theorem Frame.names_of_isBare {info : BlockInfo} (h : info.IsBare) :
    (Frame.block info).names = [] := by
  have ht : (Frame.block info).IsTransparent := h
  rw [Frame.names, ht.symbols_eq_nil]
  rfl

theorem Frame.startsLocalScope_of_isBare {info : BlockInfo} (h : info.IsBare) :
    (Frame.block info).startsLocalScope = false := by
  simp [Frame.startsLocalScope, Frame.kind, h.1]

namespace Context

def within (ctx : Context) (frames : List Frame) : Context :=
  { ctx with frames := ctx.frames ++ frames }

@[simp] theorem within_nil (ctx : Context) : ctx.within [] = ctx := by
  simp [within]

@[simp] theorem inside_within (ctx : Context) (frame : Frame) (frames : List Frame) :
    (ctx.inside frame).within frames = ctx.within (frame :: frames) := by
  simp [within, inside]

structure SameAnswers (a b : Context) : Prop where
  moduleName? : a.moduleName? = b.moduleName?
  inFunction : a.inFunction = b.inFunction
  locals : a.locals = b.locals
  globals : a.globals = b.globals
  lookup? : ∀ name, a.lookup? name = b.lookup? name
  innermost? : ∀ kinds, .block .stmt ∉ kinds → a.innermost? kinds = b.innermost? kinds

def Alike (entered : Frame → Prop) (a b : Context) : Prop :=
  ∀ frames, (∀ frame ∈ frames, entered frame) → SameAnswers (a.within frames) (b.within frames)

namespace Alike

variable {entered : Frame → Prop} {a b : Context}

theorem sameAnswers (h : Alike entered a b) : SameAnswers a b := by
  simpa using h [] (by simp)

theorem inside (h : Alike entered a b) {frame : Frame} (hframe : entered frame) :
    Alike entered (a.inside frame) (b.inside frame) := by
  intro frames hframes
  rw [inside_within, inside_within]
  apply h
  intro f hf
  rcases List.mem_cons.mp hf with rfl | hf
  · exact hframe
  · exact hframes f hf

end Alike

/-- What is exported does not show in any answer. -/
theorem alike_of_frames_eq {a b : Context} (h : a.frames = b.frames) (entered : Frame → Prop) :
    Alike entered a b := by
  intro frames _
  have hwithin : (a.within frames).frames = (b.within frames).frames := by
    simp [within, h]
  exact {
    moduleName? := by simp only [moduleName?, hwithin]
    inFunction := by simp only [inFunction, hwithin]
    locals := by simp only [locals, localFrames, hwithin]
    globals := by simp only [globals, globalFrames, hwithin]
    lookup? := fun name => by simp only [lookup?, hwithin]
    innermost? := fun kinds _ => by simp only [innermost?, hwithin] }

section Bare

variable (outer inner : List Frame) {info : BlockInfo}

theorem names_localFrames_bare (h : info.IsBare) :
    ((outer ++ .block info :: inner).dropWhile fun f => !f.startsLocalScope).flatMap Frame.names =
      ((outer ++ inner).dropWhile fun f => !f.startsLocalScope).flatMap Frame.names := by
  have hstart := Frame.startsLocalScope_of_isBare h
  have hnames := Frame.names_of_isBare h
  rw [List.dropWhile_append, List.dropWhile_append]
  by_cases hglobal : (outer.dropWhile fun f => !f.startsLocalScope).isEmpty = true
  · rw [if_pos hglobal, if_pos hglobal, List.dropWhile_cons_of_pos (by simp [hstart])]
  · rw [if_neg hglobal, if_neg hglobal]
    simp [hnames]

theorem names_globalFrames_bare (h : info.IsBare) :
    ((outer ++ .block info :: inner).takeWhile fun f => !f.startsLocalScope).flatMap Frame.names =
      ((outer ++ inner).takeWhile fun f => !f.startsLocalScope).flatMap Frame.names := by
  have hstart := Frame.startsLocalScope_of_isBare h
  have hnames := Frame.names_of_isBare h
  rw [List.takeWhile_append, List.takeWhile_append]
  by_cases hglobal :
      (outer.takeWhile fun f => !f.startsLocalScope).length = outer.length
  · rw [if_pos hglobal, if_pos hglobal, List.takeWhile_cons_of_pos (by simp [hstart])]
    simp [hnames]
  · rw [if_neg hglobal, if_neg hglobal]

end Bare

theorem moduleName?_eq_none {ctx : Context}
    (h : ∀ frame ∈ ctx.frames, frame.kind ≠ .block .module) : ctx.moduleName? = none := by
  unfold moduleName?
  split
  · rename_i info rest hframes
    have hfirst := h (.block info) (by simp [hframes])
    rw [if_neg]
    simpa [Frame.kind] using hfirst
  · rfl

/-- The module is the outermost frame, so in an empty context a statement block would hide a module
that is entered next. -/
theorem moduleName?_within_bare (ctx : Context) {info : BlockInfo} (h : info.IsBare)
    {frames : List Frame} (hframes : ∀ frame ∈ frames, frame.kind ≠ .block .module) :
    (ctx.within (.block info :: frames)).moduleName? = (ctx.within frames).moduleName? := by
  obtain ⟨outer, exportPrivate⟩ := ctx
  cases outer with
  | cons first rest => cases first <;> rfl
  | nil =>
    have hbare : (Frame.block info).kind ≠ .block .module := by simp [Frame.kind, h.1]
    have hall : ∀ frame ∈ Frame.block info :: frames, frame.kind ≠ .block .module :=
      List.forall_mem_cons.mpr ⟨hbare, hframes⟩
    rw [moduleName?_eq_none hall, moduleName?_eq_none hframes]

/-- A statement block that declares nothing shows in no answer, unless a module is entered. -/
theorem alike_inside_bare (ctx : Context) {info : BlockInfo} (h : info.IsBare) :
    Alike (fun frame => frame.kind ≠ .block .module) (ctx.inside (.block info)) ctx := by
  intro frames hframes
  rw [inside_within]
  have hsymbols : (Frame.block info).symbols = [] := by
    have ht : (Frame.block info).IsTransparent := h
    exact ht.symbols_eq_nil
  have hkind : (Frame.block info).kind = .block .stmt := by simp [Frame.kind, h.1]
  exact {
    moduleName? := moduleName?_within_bare ctx h hframes
    inFunction := by
      have hfunction : (FrameKind.block .stmt == FrameKind.function) = false := rfl
      simp [inFunction, within, hkind, hfunction]
    locals := names_localFrames_bare ctx.frames frames h
    globals := names_globalFrames_bare ctx.frames frames h
    lookup? := fun name => by
      simp [lookup?, within, List.findSome?_append, declarationIn?, hsymbols]
    innermost? := fun kinds hstmt => by
      simp [innermost?, within, List.find?_append, hkind, hstmt] }

end Context

end YcpToRuby.Scope
