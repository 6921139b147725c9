import Mathlib.Data.List.Forall2

/-!
# Steps that can fail

A computation in `Except` stops at its first failure. A success of a chain of steps says that every
step succeeded; a failure is the failure of one of them.
-/

set_option autoImplicit false

namespace YcpToRuby

variable {ε α β : Type} {x : Except ε α} {b : β} {e : ε}

@[simp] theorem bind_eq_ok {f : α → Except ε β} :
    (x >>= f) = .ok b ↔ ∃ a, x = .ok a ∧ f a = .ok b := by
  cases x <;> simp [bind, Except.bind]

@[simp] theorem bind_eq_error {f : α → Except ε β} :
    (x >>= f) = .error e ↔ x = .error e ∨ ∃ a, x = .ok a ∧ f a = .error e := by
  cases x <;> simp [bind, Except.bind]

@[simp] theorem map_eq_ok {f : α → β} : (f <$> x) = .ok b ↔ ∃ a, x = .ok a ∧ f a = b := by
  cases x <;> simp [Functor.map, Except.map]

@[simp] theorem map_eq_error {f : α → β} : (f <$> x) = .error e ↔ x = .error e := by
  cases x <;> simp [Functor.map, Except.map]

theorem map_injective {f : α → β} (hf : Function.Injective f) :
    Function.Injective fun x : Except ε α => f <$> x := by
  intro x y h
  cases x <;> cases y <;> simp only [Functor.map, Except.map] at h
  · exact congrArg _ (Except.error.inj h)
  · cases h
  · cases h
  · exact congrArg _ (hf (Except.ok.inj h))

@[simp] theorem pure_eq_ok {a : β} : (pure a : Except ε β) = .ok b ↔ a = b := by
  simp [pure, Except.pure]

@[simp] theorem pure_ne_error {a : β} : (pure a : Except ε β) ≠ .error e := by
  simp [pure, Except.pure]

@[simp] theorem throw_ne_ok : (throw e : Except ε β) ≠ .ok b := by
  simp [throw, throwThe, MonadExceptOf.throw]

@[simp] theorem mapError_eq_ok {δ : Type} {f : ε → δ} {a : α} :
    x.mapError f = .ok a ↔ x = .ok a := by
  cases x <;> simp [Except.mapError]

@[simp] theorem mapError_eq_error {δ : Type} {f : ε → δ} {d : δ} :
    x.mapError f = .error d ↔ ∃ e, x = .error e ∧ f e = d := by
  cases x <;> simp [Except.mapError]

theorem exists_error_iff : (∃ e, x = .error e) ↔ ¬ ∃ a, x = .ok a := by
  cases x <;> simp

theorem mapM_eq_ok {f : α → Except ε β} {xs : List α} {ys : List β} :
    xs.mapM f = .ok ys ↔ List.Forall₂ (fun x y => f x = .ok y) xs ys := by
  induction xs generalizing ys with
  | nil =>
    rw [List.mapM_nil, pure_eq_ok, List.forall₂_nil_left_iff]
    exact eq_comm
  | cons x xs ih =>
    simp only [List.mapM_cons, bind_eq_ok, pure_eq_ok, List.forall₂_cons_left_iff, ih]
    constructor
    · rintro ⟨y, hy, zs, hzs, rfl⟩
      exact ⟨y, zs, hy, hzs, rfl⟩
    · rintro ⟨y, zs, hy, hzs, rfl⟩
      exact ⟨y, hy, zs, hzs, rfl⟩

theorem mapM_congr {f g : α → Except ε β} {xs : List α} (h : ∀ x ∈ xs, f x = g x) :
    xs.mapM f = xs.mapM g := by
  induction xs with
  | nil => rfl
  | cons x xs ih =>
    obtain ⟨hx, hxs⟩ := List.forall_mem_cons.mp h
    rw [List.mapM_cons, List.mapM_cons, hx, ih hxs]

theorem exists_mem_of_mapM_eq_ok {f : α → Except ε β} {xs : List α} {ys : List β}
    (h : xs.mapM f = .ok ys) {p : β → Prop} :
    (∃ y ∈ ys, p y) ↔ ∃ x ∈ xs, ∃ y, f x = .ok y ∧ p y := by
  rw [mapM_eq_ok] at h
  induction h with
  | nil => simp
  | cons hx _ ih => simp [ih, hx]

theorem exists_ok_of_mapM_eq_ok {f : α → Except ε β} {xs : List α} {ys : List β}
    (h : xs.mapM f = .ok ys) : ∀ x ∈ xs, ∃ y, f x = .ok y := by
  rw [mapM_eq_ok] at h
  induction h with
  | nil => simp
  | cons hx _ ih => simpa using ⟨⟨_, hx⟩, ih⟩

theorem exists_of_mem_of_mapM_eq_ok {f : α → Except ε β} {xs : List α} {ys : List β}
    (h : xs.mapM f = .ok ys) {y : β} (hy : y ∈ ys) : ∃ x ∈ xs, f x = .ok y := by
  obtain ⟨x, hx, _, hfx, rfl⟩ := (exists_mem_of_mapM_eq_ok h).mp ⟨y, hy, rfl⟩
  exact ⟨x, hx, hfx⟩

theorem exists_of_mapM_eq_error {f : α → Except ε β} {xs : List α}
    (h : xs.mapM f = .error e) : ∃ x ∈ xs, f x = .error e := by
  induction xs with
  | nil => simp at h
  | cons x xs ih =>
    simp only [List.mapM_cons, bind_eq_error, pure_ne_error, and_false, exists_false,
      or_false] at h
    rcases h with h | ⟨_, -, h⟩
    · exact ⟨x, List.mem_cons_self, h⟩
    · obtain ⟨y, hy, h⟩ := ih h
      exact ⟨y, List.mem_cons_of_mem _ hy, h⟩

/-! ## Exactly which failures -/

structure FailsBy (x : Except ε α) (fault : ε → Prop) : Prop where
  fault_of_error : ∀ e, x = .error e → fault e
  ne_ok : ∀ e, fault e → ∀ a, x ≠ .ok a

namespace FailsBy

variable {fault other : ε → Prop}

theorem self (x : Except ε α) : FailsBy x fun e => x = .error e where
  fault_of_error _ h := h
  ne_ok e h a hok := by simp [h] at hok

theorem ok {a : α} (h : ∀ e, ¬ fault e) : FailsBy (.ok a : Except ε α) fault where
  fault_of_error _ he := by cases he
  ne_ok e he := absurd he (h e)

theorem error (h : fault e) : FailsBy (.error e : Except ε α) fault where
  fault_of_error _ he := by
    cases he
    exact h
  ne_ok _ _ _ hok := by cases hok

theorem congr (h : FailsBy x fault) (hiff : ∀ e, other e ↔ fault e) : FailsBy x other where
  fault_of_error e he := (hiff e).mpr (h.fault_of_error e he)
  ne_ok e he := h.ne_ok e ((hiff e).mp he)

theorem exists_ok_iff (h : FailsBy x fault) : (∃ a, x = .ok a) ↔ ∀ e, ¬ fault e := by
  constructor
  · rintro ⟨a, ha⟩ e he
    exact h.ne_ok e he a ha
  · intro hnone
    cases x with
    | ok a => exact ⟨a, rfl⟩
    | error e => exact absurd (h.fault_of_error e rfl) (hnone e)

theorem map (h : FailsBy x fault) (f : α → β) : FailsBy (f <$> x) fault where
  fault_of_error e he := h.fault_of_error e (map_eq_error.mp he)
  ne_ok e he b hb := by
    obtain ⟨a, ha, -⟩ := map_eq_ok.mp hb
    exact h.ne_ok e he a ha

theorem of_map {f : α → β} (h : FailsBy (f <$> x) fault) : FailsBy x fault where
  fault_of_error e he := h.fault_of_error e (map_eq_error.mpr he)
  ne_ok e he a ha := h.ne_ok e he (f a) (map_eq_ok.mpr ⟨a, ha, rfl⟩)

theorem bind {f : α → Except ε β} (h : FailsBy x fault)
    (hf : ∀ a, x = .ok a → FailsBy (f a) other) :
    FailsBy (x >>= f) fun e => fault e ∨ other e where
  fault_of_error e he := by
    rcases bind_eq_error.mp he with hx | ⟨a, ha, he⟩
    · exact Or.inl (h.fault_of_error e hx)
    · exact Or.inr ((hf a ha).fault_of_error e he)
  ne_ok e he b hb := by
    obtain ⟨a, ha, hb⟩ := bind_eq_ok.mp hb
    rcases he with he | he
    · exact h.ne_ok e he a ha
    · exact (hf a ha).ne_ok e he b hb

theorem mapM {f : α → Except ε β} {faults : α → ε → Prop} {xs : List α}
    (h : ∀ x ∈ xs, FailsBy (f x) (faults x)) :
    FailsBy (xs.mapM f) fun e => ∃ x ∈ xs, faults x e where
  fault_of_error e he := by
    obtain ⟨x, hx, he⟩ := exists_of_mapM_eq_error he
    exact ⟨x, hx, (h x hx).fault_of_error e he⟩
  ne_ok e he ys hys := by
    obtain ⟨x, hx, he⟩ := he
    obtain ⟨y, hy⟩ := exists_ok_of_mapM_eq_ok hys x hx
    exact (h x hx).ne_ok e he y hy

/-- The failures of other computations are replaced by what those fail by. -/
theorem trans {ι : Type} {indices : List ι} {y : ι → Except ε β} {faults : ι → ε → Prop}
    (h : FailsBy x fun e => fault e ∨ ∃ i ∈ indices, y i = .error e)
    (hy : ∀ i ∈ indices, FailsBy (y i) (faults i)) :
    FailsBy x fun e => fault e ∨ ∃ i ∈ indices, faults i e where
  fault_of_error e he := by
    rcases h.fault_of_error e he with hfault | ⟨i, hi, he⟩
    · exact Or.inl hfault
    · exact Or.inr ⟨i, hi, (hy i hi).fault_of_error e he⟩
  ne_ok e he a ha := by
    rcases he with hfault | ⟨i, hi, hfault⟩
    · exact h.ne_ok e (Or.inl hfault) a ha
    · cases hyi : y i with
      | ok b => exact (hy i hi).ne_ok e hfault b hyi
      | error e' => exact h.ne_ok e' (Or.inr ⟨i, hi, hyi⟩) a ha

end FailsBy

end YcpToRuby
