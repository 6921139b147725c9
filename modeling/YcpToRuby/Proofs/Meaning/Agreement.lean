import YcpToRuby.Proofs.Meaning.Cells
import YcpToRuby.Proofs.Meaning.Ruby

/-!
# Two ways to run an expression

Operators and control flow run on a store of plain values, and calls by reference on a state with
cells. Literals, variables, assignments to variables and calls of `Ops` belong to both. A state that
holds a store in its variables gives such an expression the value that the store gives it, and holds
the new store afterwards.
-/

set_option autoImplicit false

namespace YcpToRuby.Cells

open Meaning (Runtime Store)
open Ruby (Literal Node literalValue opsMethod)

variable {V : Type}

/-! ## States that hold a store -/

def State.storing (σ : State V) (ρ : Store V) : State V where
  slots
    | .var name => .plain (ρ name)
    | .attr m name => σ.slots (.attr m name)
  cells := σ.cells

theorem State.storing_update (σ : State V) (ρ : Store V) (name : String) (v : V) :
    σ.storing (Function.update ρ name v) = (σ.storing ρ).set (.var name) (.plain v) := by
  have hslots : (σ.storing (Function.update ρ name v)).slots =
      Function.update (σ.storing ρ).slots (.var name) (.plain v) := by
    funext slot
    cases slot with
    | var other =>
      by_cases h : other = name
      · subst h
        simp [storing]
      · simp [storing, h]
    | attr m other => simp [storing]
  rw [State.set, ← hslots]
  rfl

/-! ## Libraries that compute as a runtime does -/

structure Library.Follows (lib : Library V) (rt : Runtime V) : Prop where
  literal : ∀ value v, literalValue rt value = some v → lib.literal value = v
  ops : ∀ name args v cells, opsMethod rt name args = some v →
    lib.call (some (.module "Ops")) name (args.map .plain) cells = (.plain v, cells)

def Value.plain? : Value V → Option V
  | plain v => some v
  | _ => none

def Library.ofRuntime (rt : Runtime V) : Library V where
  literal value := (literalValue rt value).getD rt.nil
  make _ _ _ := .plain rt.nil
  method _ name args cells :=
    (.plain ((opsMethod rt name (args.filterMap Value.plain?)).getD rt.nil), cells)
  length_le _ _ _ _ := Nat.le_refl _

theorem filterMap_plain? (vs : List V) : (vs.map Value.plain).filterMap Value.plain? = vs := by
  rw [List.filterMap_map]
  exact List.filterMap_some

theorem ne_nil_of_opsMethod {rt : Runtime V} {name : String} {args : List V} {v : V}
    (h : opsMethod rt name args = some v) : args ≠ [] := by
  rintro rfl
  unfold opsMethod at h
  split at h <;> contradiction

theorem Library.ofRuntime_follows (rt : Runtime V) : (ofRuntime rt).Follows rt where
  literal value v h := by simp [ofRuntime, h]
  ops name args v cells h := by
    have hmaker : isMaker (some (.module "Ops") : Option (Value V)) name = false := by
      by_contra hname
      obtain rfl : name = "method" := by simpa [isMaker] using hname
      have hnone : opsMethod rt "method" args = none := rfl
      rw [hnone] at h
      contradiction
    have hcall : (ofRuntime rt).call (some (.module "Ops")) name (args.map .plain) cells =
        (ofRuntime rt).method (some (.module "Ops")) name (args.map .plain) cells := by
      simp [call, hmaker]
    rw [hcall]
    simp only [ofRuntime, filterMap_plain?, h, Option.getD_some]

/-! ## Agreement -/

section Agreement

variable {lib : Library V} {rt : Runtime V} {σ : State V} {ρ : Store V}

def SameResult (lib : Library V) (rt : Runtime V) (σ : State V) (node : Node)
    (ρ : Store V) : Prop :=
  ∀ v ρ' w τ, Ruby.evaluate rt node ρ = some (v, ρ') →
    evaluate lib node (σ.storing ρ) = some (w, τ) → w = .plain v ∧ τ = σ.storing ρ'

def SameResults (lib : Library V) (rt : Runtime V) (σ : State V) (nodes : List Node)
    (ρ : Store V) : Prop :=
  ∀ vs ρ' ws τ, Ruby.evaluateAll rt nodes ρ = some (vs, ρ') →
    evaluateAll lib nodes (σ.storing ρ) = some (ws, τ) →
      ws = vs.map .plain ∧ τ = σ.storing ρ'

theorem sameResult_literal (hlib : lib.Follows rt) (value : Literal) :
    SameResult lib rt σ (.literal value) ρ := by
  intro v ρ' w τ hruby hcells
  simp only [Ruby.evaluate, Option.map_eq_some_iff, Prod.mk.injEq] at hruby
  obtain ⟨v, hv, rfl, rfl⟩ := hruby
  rw [evaluate_literal, hlib.literal value v hv] at hcells
  cases hcells
  exact ⟨rfl, rfl⟩

theorem sameResult_var (name : String) : SameResult lib rt σ (.var name) ρ := by
  intro v ρ' w τ hruby hcells
  simp only [Ruby.evaluate] at hruby
  cases hruby
  rw [evaluate] at hcells
  cases hcells
  exact ⟨rfl, rfl⟩

theorem sameResult_assign (name : String) {value : Node} (h : SameResult lib rt σ value ρ) :
    SameResult lib rt σ (.assign (.var name) value) ρ := by
  intro v ρ' w τ hruby hcells
  simp only [Ruby.evaluate, Option.bind_eq_bind, Option.bind_eq_some_iff] at hruby
  obtain ⟨⟨v, ρ₁⟩, hv, hruby⟩ := hruby
  cases hruby
  simp only [evaluate, Option.bind_eq_bind, Option.bind_eq_some_iff] at hcells
  obtain ⟨⟨w, τ₁⟩, hw, hcells⟩ := hcells
  cases hcells
  obtain ⟨rfl, rfl⟩ := h v ρ₁ w τ₁ hv hw
  exact ⟨rfl, (σ.storing_update ρ₁ name v).symm⟩

theorem sameResult_ops (hlib : lib.Follows rt) (name : String) {args : List Node}
    (h : SameResults lib rt σ args ρ) :
    SameResult lib rt σ (.call (some (.const none "Ops")) name args none true) ρ := by
  intro v ρ' w τ hruby hcells
  simp only [Ruby.evaluate, Option.bind_eq_bind, Option.bind_eq_some_iff] at hruby
  obtain ⟨⟨vs, ρ₁⟩, hvs, v, hv, hruby⟩ := hruby
  cases hruby
  rw [evaluate_call, ← Node.constant, evaluateReceiver_constant] at hcells
  simp only [Option.bind_some, Option.bind_eq_some_iff] at hcells
  obtain ⟨⟨ws, τ₁⟩, hws, hsend⟩ := hcells
  obtain ⟨rfl, rfl⟩ := h vs ρ₁ ws τ₁ hvs hws
  have hargs : vs.map Value.plain ≠ [] := by simpa using ne_nil_of_opsMethod hv
  rw [lib.send_of_ne_nil _ name hargs, hlib.ops name vs v _ hv] at hsend
  cases hsend
  exact ⟨rfl, rfl⟩

theorem sameResults_nil : SameResults lib rt σ [] ρ := by
  intro vs ρ' ws τ hruby hcells
  cases hruby
  cases hcells
  exact ⟨rfl, rfl⟩

theorem sameResults_cons {node : Node} {rest : List Node} (h : SameResult lib rt σ node ρ)
    (hrest : ∀ ρ, SameResults lib rt σ rest ρ) : SameResults lib rt σ (node :: rest) ρ := by
  intro vs ρ' ws τ hruby hcells
  simp only [Ruby.evaluateAll, Option.bind_eq_bind, Option.bind_eq_some_iff] at hruby
  obtain ⟨⟨v, ρ₁⟩, hv, ⟨vs, ρ₂⟩, hvs, hruby⟩ := hruby
  cases hruby
  simp only [evaluateAll, Option.bind_eq_some_iff, Option.map_eq_some_iff] at hcells
  obtain ⟨⟨w, τ₁⟩, hw, ⟨ws, τ₂⟩, hws, hcells⟩ := hcells
  cases hcells
  obtain ⟨rfl, rfl⟩ := h v ρ₁ w τ₁ hv hw
  obtain ⟨rfl, rfl⟩ := hrest ρ₁ vs ρ₂ ws τ₂ hvs hws
  exact ⟨rfl, rfl⟩

/-- An expression that has a value in the store and in a state that holds the store has the same
value in both, and the state then holds the store that the expression leaves. -/
theorem evaluate_agrees (hlib : lib.Follows rt) (σ : State V) (node : Node) (ρ : Store V) :
    SameResult lib rt σ node ρ := by
  refine Ruby.evaluate.induct (SameResult lib rt σ) (SameResults lib rt σ)
    (fun value _ => sameResult_literal hlib value) (fun name _ => sameResult_var name)
    (fun name _ _ ih => sameResult_assign name ih) ?_ ?_ ?_ ?_ ?_ ?_
    (fun name _ _ ih => sameResult_ops hlib name ih) ?other (fun _ => sameResults_nil)
    (fun _ _ _ ih ihrest => sameResults_cons ih ihrest) node ρ
  case other =>
    intros
    intro v ρ' w τ hruby
    simp_all [Ruby.evaluate]
  all_goals
    intros
    intro v ρ' w τ hruby hcells
    simp [evaluate] at hcells

end Agreement

end YcpToRuby.Cells
