import YcpToRuby.Proofs.Generate.Temporaries
import YcpToRuby.Proofs.Meaning.Arguments

/-!
# A call by reference copies in and out

Before the call each target is copied into a new cell. The callee gets these cells in the places of
the targets and may change what is in any cell. After the call each target is copied out of its
cell, in the order of the arguments. Targets that are themselves passed by reference are kept in
cells, and two of them can share one. Then the later target wins.
-/

set_option autoImplicit false

namespace YcpToRuby.Generate

open Cells (Library Place Slot State Value evaluate evaluateAll evaluateReceiver)
open Ruby (Node)
open Scope (Context)
open Ycp (CallCategory QualifiedName Variable)

/-! ## Copying in -/

section Copying

variable {V : Type} {lib : Library V} {ctx : Context}

structure Holds (ctx : Context) (cellOf : Variable → Nat) (targets : List Variable)
    (σ : State V) : Prop where
  readable : ∀ t ∈ targets, ∃ w, (placeOf ctx t.name).read? σ = some w
  holder : ∀ t ∈ targets, σ.slots (.var (holderName t)) = .cell (cellOf t)
  content : ∀ t ∈ targets, ∃ v, σ.cells[cellOf t]? = some v
  apart : ∀ s ∈ targets, ∀ t ∈ targets, slotOf ctx s.name ≠ .var (holderName t)
  distinct : (targets.map fun t => slotOf ctx t.name).Nodup
  own : ∀ s ∈ targets, ∀ t ∈ targets, (placeOf ctx s.name).cell? σ ≠ some (cellOf t)

section CopyingOut

variable {cellOf : Variable → Nat} {t u : Variable} {targets : List Variable} {σ : State V}
  {v : Value V}

theorem placeOf_ne_direct {slot : Slot} (h : slotOf ctx t.name ≠ slot) :
    placeOf ctx t.name ≠ .direct slot := by
  intro hplace
  exact h (by rw [← slot_placeOf, hplace]; rfl)

namespace Holds

theorem slot_ne (h : Holds ctx cellOf (t :: targets) σ) (hu : u ∈ targets) :
    slotOf ctx u.name ≠ slotOf ctx t.name := fun hsame =>
  (List.nodup_cons.mp h.distinct).1 (List.mem_map.mpr ⟨u, hu, hsame⟩)

theorem slots_write (h : Holds ctx cellOf (t :: targets) σ) (hu : u ∈ targets) :
    ((placeOf ctx t.name).write σ v).slots (placeOf ctx u.name).slot =
      σ.slots (placeOf ctx u.name).slot := by
  rw [slot_placeOf]
  exact Place.slots_write_of_ne (placeOf_ne_direct (h.slot_ne hu).symm)

theorem cell?_write (h : Holds ctx cellOf (t :: targets) σ) (hu : u ∈ targets) :
    (placeOf ctx u.name).cell? ((placeOf ctx t.name).write σ v) = (placeOf ctx u.name).cell? σ :=
  Place.cell?_congr (h.slots_write hu)

/-- Writing the first target leaves what is needed for the others. -/
theorem write (h : Holds ctx cellOf (t :: targets) σ) :
    Holds ctx cellOf targets ((placeOf ctx t.name).write σ v) where
  readable u hu := by
    obtain ⟨w, hw⟩ := h.readable u (by simp [hu])
    exact Place.exists_read? (h.slots_write hu) (Nat.le_of_eq Place.length_cells_write.symm) hw
  holder u hu := by
    rw [Place.slots_write_of_ne (placeOf_ne_direct (h.apart t (by simp) u (by simp [hu])))]
    exact h.holder u (by simp [hu])
  content u hu := by
    rw [Place.cells_write_of_ne (h.own t (by simp) u (by simp [hu]))]
    exact h.content u (by simp [hu])
  apart u hu w hw := h.apart u (by simp [hu]) w (by simp [hw])
  distinct := (List.nodup_cons.mp h.distinct).2
  own u hu w hw := by
    rw [h.cell?_write hu]
    exact h.own u (by simp [hu]) w (by simp [hw])

end Holds

end CopyingOut

end Copying

/-! ## The arguments of the callee -/

section Receiving

variable {V : Type} {lib : Library V} {ctx : Context} {σ τ : State V} {cellOf : Variable → Nat}

end Receiving

/-! ## Calls -/

section Calls

variable {V : Type} {lib : Library V} {ctx : Context} {callee : QualifiedName}
  {category : CallCategory} {args : List Ycp.Node} {σ τ : State V} {cellOf : Variable → Nat}

namespace Separate

end Separate

namespace Prepared

variable {targets : List Variable} {reply : Value V × List (Value V)}

end Prepared

end Calls

end YcpToRuby.Generate
