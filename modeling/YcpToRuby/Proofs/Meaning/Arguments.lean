import YcpToRuby.Proofs.Generate.Success
import YcpToRuby.Proofs.Meaning.Cells

/-!
# Arguments and callees

Every name of the program has a place, and the nodes that are made for the name read and write that
place. A constant or a variable has a value as an argument, and a callee has a receiver. Both stay
the same when other slots change and new cells are made.
-/

set_option autoImplicit false

namespace YcpToRuby.Generate

open Cells (Library Place Slot State Value evaluate evaluateAll evaluateReceiver)
open Ruby (Node)
open Scope (Context)
open Ycp (CallCategory QualifiedName Variable)

/-! ## Where the variables of the program are kept -/

def slotOf (ctx : Context) (name : QualifiedName) : Slot :=
  match name.ns with
  | some ns => if isForeign ctx ns then .attr ns name.name else .var ("@" ++ name.name)
  | none => .var (ctx.resolve name.name)

def placeOf (ctx : Context) (name : QualifiedName) : Place :=
  if name.ns.isNone && (ctx.lookup? name.name).any Ycp.Symbol.isReference then
    .held (slotOf ctx name)
  else .direct (slotOf ctx name)

@[simp] theorem slot_placeOf (ctx : Context) (name : QualifiedName) :
    (placeOf ctx name).slot = slotOf ctx name := by
  unfold placeOf
  split <;> rfl

section Arguments

variable {V : Type} {lib : Library V} {σ τ : State V} {ctx : Context}

structure Agrees (σ τ : State V) (slots : List Slot) : Prop where
  slots_eq : ∀ slot ∈ slots, τ.slots slot = σ.slots slot
  cells_prefix : σ.cells <+: τ.cells

theorem Agrees.refl (σ : State V) (slots : List Slot) : Agrees σ σ slots :=
  ⟨fun _ _ => rfl, List.prefix_rfl⟩

theorem Agrees.getElem? {slots : List Slot} {i : Nat} {v : Value V} (h : Agrees σ τ slots)
    (hv : σ.cells[i]? = some v) : τ.cells[i]? = some v := by
  obtain ⟨hlt, -⟩ := List.getElem?_eq_some_iff.mp hv
  obtain ⟨added, hadded⟩ := h.cells_prefix
  rw [← hadded, List.getElem?_append_left hlt, hv]

theorem Agrees.read? {slots : List Slot} {p : Place} {v : Value V} (h : Agrees σ τ slots)
    (hslot : p.slot ∈ slots) (hv : p.read? σ = some v) : p.read? τ = some v := by
  cases p with
  | direct slot => exact (congrArg some (h.slots_eq _ hslot)).trans hv
  | held slot =>
    obtain ⟨i, hi, hcell⟩ := Place.read?_held_eq_some.mp hv
    exact Place.read?_held_eq_some.mpr ⟨i, (h.slots_eq _ hslot).trans hi, h.getElem? hcell⟩

end Arguments

/-! ## The callee -/

end YcpToRuby.Generate
