import Mathlib.Logic.Function.Basic
import YcpToRuby.Ruby.Node

/-!
# Running calls by reference

A cell holds one value, and a value can be a cell. `arg_ref` makes a new cell, and `value` reads and
writes it. What else a method does is a parameter: it gets its arguments and the contents of all
cells, and answers with a result and new contents. Cells are numbered in the order in which they
were made, and none goes away.
-/

set_option autoImplicit false

namespace YcpToRuby.Cells

open Ruby (Literal Node)

inductive Value (V : Type) where
  | plain (value : V)
  | module (name : String)
  | cell (index : Nat)
  deriving DecidableEq, Repr

inductive Slot where
  | var (name : String)
  | attr (module name : String)
  deriving DecidableEq, Repr

structure State (V : Type) where
  slots : Slot → Value V
  cells : List (Value V)

variable {V : Type}

namespace State

def set (σ : State V) (slot : Slot) (v : Value V) : State V :=
  { σ with slots := Function.update σ.slots slot v }

def member? (σ : State V) : Option (Value V) → String → Option (Value V)
  | some (.module m), name => some (σ.slots (.attr m name))
  | some (.cell i), "value" => σ.cells[i]?
  | _, _ => none

def setMember? (σ : State V) : Value V → String → Value V → Option (State V)
  | .module m, name, v => some (σ.set (.attr m name) v)
  | .cell i, "value", v =>
    if i < σ.cells.length then some { σ with cells := σ.cells.set i v } else none
  | _, _, _ => none

end State

/-! ## Methods -/

def isMaker : Option (Value V) → String → Bool
  | none, name => ["path", "fun_ref", "method"].contains name
  | some (.module _), name => name == "method"
  | _, _ => false

structure Library (V : Type) where
  literal : Literal → V
  make : Option (Value V) → String → List (Value V) → Value V
  method : Option (Value V) → String → List (Value V) → List (Value V) → Value V × List (Value V)
  length_le : ∀ receiver name args cells,
    cells.length ≤ (method receiver name args cells).2.length

namespace Library

def call (lib : Library V) (receiver : Option (Value V)) (name : String) (args : List (Value V))
    (cells : List (Value V)) : Value V × List (Value V) :=
  if isMaker receiver name then (lib.make receiver name args, cells)
  else
    match receiver, name, args with
    | none, "arg_ref", [v] => (.cell cells.length, cells ++ [v])
    | receiver, name, args => lib.method receiver name args cells

def send (lib : Library V) (receiver : Option (Value V)) (name : String) :
    List (Value V) → State V → Option (Value V × State V)
  | [], σ => (σ.member? receiver name).map (·, σ)
  | args, σ =>
    let reply := lib.call receiver name args σ.cells
    some (reply.1, { σ with cells := reply.2 })

theorem send_of_ne_nil (lib : Library V) (receiver : Option (Value V)) (name : String)
    {args : List (Value V)} (h : args ≠ []) (σ : State V) :
    lib.send receiver name args σ =
      some ((lib.call receiver name args σ.cells).1,
        { σ with cells := (lib.call receiver name args σ.cells).2 }) := by
  cases args with
  | nil => exact absurd rfl h
  | cons arg args => rfl

end Library

/-! ## Expressions -/

mutual

def evaluate (lib : Library V) : Node → State V → Option (Value V × State V)
  | .literal value, σ => some (.plain (lib.literal value), σ)
  | .const none name, σ => some (.module name, σ)
  | .var name, σ => some (σ.slots (.var name), σ)
  | .call receiver name args none _, σ => do
    let r ← evaluateReceiver lib receiver σ
    let vs ← evaluateAll lib args r.2
    lib.send r.1 name vs.1 vs.2
  | .assign (.var name) value, σ => do
    let v ← evaluate lib value σ
    return (v.1, v.2.set (.var name) v.1)
  | .assign (.call (some receiver) name [] none false) value, σ => do
    let r ← evaluate lib receiver σ
    let v ← evaluate lib value r.2
    return (v.1, ← v.2.setMember? r.1 name v.1)
  | .group items, σ => do
    let vs ← evaluateAll lib items σ
    return (vs.1.getLastD (.plain (lib.literal .nil)), vs.2)
  | _, _ => none

def evaluateReceiver (lib : Library V) :
    Option Node → State V → Option (Option (Value V) × State V)
  | none, σ => some (none, σ)
  | some node, σ => (evaluate lib node σ).map fun r => (some r.1, r.2)

def evaluateAll (lib : Library V) : List Node → State V → Option (List (Value V) × State V)
  | [], σ => some ([], σ)
  | node :: rest, σ =>
    (evaluate lib node σ).bind fun v =>
      (evaluateAll lib rest v.2).map fun vs => (v.1 :: vs.1, vs.2)

end

section Evaluation

variable {lib : Library V} {σ τ : State V} {v : Value V}

attribute [local simp] evaluate evaluateReceiver evaluateAll

theorem evaluate_call (receiver : Option Node) (name : String) (args : List Node) (parens : Bool) :
    evaluate lib (.call receiver name args none parens) σ =
      (evaluateReceiver lib receiver σ).bind fun r =>
        (evaluateAll lib args r.2).bind fun vs => lib.send r.1 name vs.1 vs.2 := by
  rw [evaluate]
  rfl

theorem evaluate_literal (value : Literal) :
    evaluate lib (.literal value) σ = some (.plain (lib.literal value), σ) := by
  simp

theorem evaluateReceiver_constant (name : String) :
    evaluateReceiver lib (some (.constant name)) σ = some (some (.module name), σ) := by
  simp [Node.constant]

end Evaluation

/-! ## Places -/

def Slot.node : Slot → Node
  | var name => .var name
  | attr m name => .invoke (some (.constant m)) name []

def Slot.target : Slot → Node
  | var name => .var name
  | attr m name => .command (some (.constant m)) name []

inductive Place where
  | direct (slot : Slot)
  | held (slot : Slot)
  deriving DecidableEq, Repr

namespace Place

def slot : Place → Slot
  | direct slot | held slot => slot

def node : Place → Node
  | direct slot => slot.node
  | held slot => .command (some slot.node) "value" []

def target : Place → Node
  | direct slot => slot.target
  | held slot => .command (some slot.node) "value" []

def cell? : Place → State V → Option Nat
  | direct _, _ => none
  | held slot, σ =>
    match σ.slots slot with
    | .cell i => some i
    | _ => none

def read? : Place → State V → Option (Value V)
  | direct slot, σ => some (σ.slots slot)
  | held slot, σ => ((held slot).cell? σ).bind (σ.cells[·]?)

def write : Place → State V → Value V → State V
  | direct slot, σ, v => σ.set slot v
  | held slot, σ, v =>
    match (held slot).cell? σ with
    | some i => { σ with cells := σ.cells.set i v }
    | none => σ

variable {σ τ : State V} {v w : Value V} {p : Place}

theorem cell?_held_eq_some {slot : Slot} {i : Nat} :
    (held slot).cell? σ = some i ↔ σ.slots slot = .cell i := by
  unfold cell?
  split
  · contradiction
  · rename_i heq
    obtain rfl := Place.held.inj heq
    split <;> simp_all

theorem read?_held_eq_some {slot : Slot} :
    (held slot).read? σ = some v ↔ ∃ i, σ.slots slot = .cell i ∧ σ.cells[i]? = some v := by
  simp only [read?, Option.bind_eq_some_iff, cell?_held_eq_some]

theorem cell?_congr (hslot : τ.slots p.slot = σ.slots p.slot) : p.cell? τ = p.cell? σ := by
  cases p with
  | direct slot => rfl
  | held slot =>
    change τ.slots slot = σ.slots slot at hslot
    simp only [cell?, hslot]

/-- A place can be read as long as its slot stays and no cell goes away. -/
theorem exists_read? (hslot : τ.slots p.slot = σ.slots p.slot)
    (hlength : σ.cells.length ≤ τ.cells.length) (h : p.read? σ = some v) :
    ∃ w, p.read? τ = some w := by
  cases p with
  | direct slot => exact ⟨_, rfl⟩
  | held slot =>
    obtain ⟨i, hi, hcell⟩ := read?_held_eq_some.mp h
    obtain ⟨hlt, -⟩ := List.getElem?_eq_some_iff.mp hcell
    have hlt' : i < τ.cells.length := by omega
    exact ⟨_, read?_held_eq_some.mpr ⟨i, hslot.trans hi, List.getElem?_eq_getElem hlt'⟩⟩

theorem slots_write_of_ne {slot : Slot} (h : p ≠ direct slot) :
    (p.write σ v).slots slot = σ.slots slot := by
  cases p with
  | direct other =>
    have hne : slot ≠ other := by
      rintro rfl
      exact h rfl
    exact Function.update_of_ne hne _ _
  | held other =>
    simp only [write]
    split <;> rfl

theorem cells_write_of_ne {i : Nat} (h : p.cell? σ ≠ some i) :
    (p.write σ v).cells[i]? = σ.cells[i]? := by
  cases p with
  | direct slot => rfl
  | held slot =>
    simp only [write]
    split
    · rename_i j hj
      have hne : j ≠ i := by
        rintro rfl
        exact h hj
      exact List.getElem?_set_ne hne
    · rfl

theorem length_cells_write : (p.write σ v).cells.length = σ.cells.length := by
  cases p with
  | direct slot => rfl
  | held slot =>
    simp only [write]
    split
    · exact List.length_set
    · rfl

end Place

section Places

variable {lib : Library V} {σ : State V} {v w : Value V} {p : Place}

end Places

end YcpToRuby.Cells
