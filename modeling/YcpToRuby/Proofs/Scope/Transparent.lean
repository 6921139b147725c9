import YcpToRuby.Generate.Control
import YcpToRuby.Proofs.Scope.Naming
import YcpToRuby.Scope.Context

/-!
# Frames that declare nothing

Loops, clauses of a switch and statement blocks without declarations bind no name and start no local
scope. Among such frames a variable has its escaped name and a `return` leaves the function; only a
`break` can tell them apart.
-/

set_option autoImplicit false

namespace YcpToRuby

def Ycp.BlockInfo.IsBare (info : Ycp.BlockInfo) : Prop :=
  info.kind = .stmt ∧ info.params = [] ∧ info.symbols = []

namespace Scope

def Frame.IsTransparent : Frame → Prop
  | .loop _ | .clause _ => True
  | .block info => info.IsBare
  | .function .. | .returnExpr _ => False

theorem Frame.IsTransparent.symbols_eq_nil {frame : Frame} (h : frame.IsTransparent) :
    frame.symbols = [] := by
  cases frame with
  | block info =>
    obtain ⟨-, hparams, hsymbols⟩ := h
    simp [Frame.symbols, Frame.declared, hparams, hsymbols]
  | function name params body => exact absurd h id
  | loop kind => rfl
  | returnExpr params => exact absurd h id
  | clause c => rfl

namespace Context

def IsTransparent (ctx : Context) : Prop :=
  ∀ frame ∈ ctx.frames, frame.IsTransparent

theorem IsTransparent.inside {ctx : Context} {frame : Frame} (h : ctx.IsTransparent)
    (hframe : frame.IsTransparent) : (ctx.inside frame).IsTransparent := by
  intro f hf
  rcases List.mem_append.mp hf with hf | hf
  · exact h f hf
  · rw [List.mem_singleton.mp hf]
    exact hframe

variable {ctx : Context}

theorem IsTransparent.inside_bare (h : ctx.IsTransparent) {info : Ycp.BlockInfo}
    (hinfo : info.IsBare) : (ctx.inside (.block info)).IsTransparent := by
  apply h.inside
  exact hinfo

theorem IsTransparent.inside_loop (h : ctx.IsTransparent) (kind : Ycp.LoopKind) :
    (ctx.inside (.loop kind)).IsTransparent := by
  apply h.inside
  trivial

theorem IsTransparent.inside_clause (h : ctx.IsTransparent) (clause : Clause) :
    (ctx.inside (.clause clause)).IsTransparent := by
  apply h.inside
  trivial

theorem IsTransparent.names_eq_nil (h : ctx.IsTransparent) {frames : List Frame}
    (hsub : frames ⊆ ctx.frames) : frames.flatMap Frame.names = [] := by
  rw [List.flatMap_eq_nil_iff]
  intro frame hf
  simp [Frame.names, (h frame (hsub hf)).symbols_eq_nil]

theorem IsTransparent.resolve_eq_escape (h : ctx.IsTransparent) (name : String) :
    ctx.resolve name = escape name := by
  have hlocals : ctx.locals = [] := h.names_eq_nil (List.dropWhile_suffix _).subset
  have hglobals : ctx.globals = [] := h.names_eq_nil (List.takeWhile_prefix _).subset
  simp [resolve, isGlobal, localName, suffixed, hlocals, hglobals]

theorem IsTransparent.lookup?_eq_none (h : ctx.IsTransparent) (name : String) :
    ctx.lookup? name = none := by
  simp only [lookup?, List.findSome?_eq_none_iff, List.mem_reverse]
  intro frame hf
  simp [declarationIn?, (h frame hf).symbols_eq_nil]

def breakLeavesClause (ctx : Context) : Bool :=
  match ctx.innermost? [.loop, .block .unspec, .clause] with
  | some (.clause _) => true
  | _ => false

theorem breakLeavesClause_inside_clause (ctx : Context) (clause : Clause) :
    (ctx.inside (.clause clause)).breakLeavesClause = true := by
  simp [breakLeavesClause, innermost?, Context.inside, Frame.kind]

theorem breakLeavesClause_inside_bare (ctx : Context) {info : Ycp.BlockInfo}
    (h : info.IsBare) : (ctx.inside (.block info)).breakLeavesClause = ctx.breakLeavesClause := by
  simp [breakLeavesClause, innermost?, Context.inside, Frame.kind, h.1]

end Context

end Scope

namespace Generate

open Scope (Context)

variable {ctx : Context}

theorem breakNode_eq_ok (h : ctx.IsTransparent) {r : Ruby.Node} (hr : breakNode ctx = .ok r) :
    r = .breakLoop ∧ ctx.breakLeavesClause = false := by
  unfold breakNode at hr
  unfold Context.breakLeavesClause
  split at hr
  · rename_i info hfound
    have hkind := List.find?_some hfound
    have hmem := List.mem_reverse.mp (List.mem_of_find?_eq_some hfound)
    have hbare := h _ hmem
    simp [Scope.Frame.kind, hbare.1] at hkind
  · simp [unsupported] at hr
  · rename_i hother
    constructor
    · simpa using hr.symm
    · split
      · rename_i hclause
        exact absurd hclause (hother _)
      · rfl

theorem returnNode_eq_ret (h : ctx.IsTransparent) (value : Option Ruby.Node) :
    returnNode value ctx = .ret value := by
  have hnone :
      ctx.innermost? [.function, .block .function, .block .file, .block .unspec] = none := by
    simp only [Context.innermost?, List.find?_eq_none, List.mem_reverse]
    intro frame hf
    have ht := h frame hf
    cases frame with
    | block info => simp [Scope.Frame.kind, ht.1]
    | function name params body => exact absurd ht id
    | loop kind => simp [Scope.Frame.kind]
    | returnExpr params => exact absurd ht id
    | clause c => simp [Scope.Frame.kind]
  simp [returnNode, hnone]

end Generate

end YcpToRuby
