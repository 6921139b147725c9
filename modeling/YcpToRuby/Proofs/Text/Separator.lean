import Mathlib.Data.List.Infix
import YcpToRuby.Text.Affix

/-!
# Separators of a text

A text is divided at its first separator or at its last one. Both ways find a separator exactly when
there is one. What the first stands behind holds none, and what the last stands before holds none,
not even with the second colon in front.
-/

set_option autoImplicit false

namespace YcpToRuby.Text

/-! ## The first separator -/

/-- The first separator is found, with no other one before it. -/
theorem of_cutFirst_eq_some {cs before after : List Char}
    (h : cutFirst cs = some (before, after)) :
    cs = before ++ ':' :: ':' :: after ∧ ¬ [':', ':'] <:+: before := by
  fun_induction cutFirst cs generalizing before with
  | case1 => cases h
  | case2 rest =>
    cases h
    exact ⟨rfl, by decide⟩
  | case3 c rest hc ih =>
    obtain ⟨⟨inner, last⟩, hrest, heq⟩ := Option.map_eq_some_iff.mp h
    obtain ⟨rfl, rfl⟩ := Prod.mk.inj heq
    obtain ⟨hcs, hnone⟩ := ih hrest
    refine ⟨by rw [hcs]; rfl, ?_⟩
    rw [List.infix_cons_iff, not_or]
    refine ⟨?_, hnone⟩
    rintro ⟨tail, htail⟩
    obtain ⟨rfl, rfl⟩ : ':' = c ∧ ':' :: tail = inner := by simpa using htail
    exact hc (tail ++ ':' :: ':' :: last) rfl hcs

theorem cutFirst_eq_none_iff (cs : List Char) :
    cutFirst cs = none ↔ ¬ [':', ':'] <:+: cs := by
  fun_induction cutFirst cs with
  | case1 => simp
  | case2 rest =>
    simp only [reduceCtorEq, false_iff, not_not]
    exact ⟨[], rest, rfl⟩
  | case3 c rest hc ih =>
    simp only [Option.map_eq_none_iff, ih, List.infix_cons_iff, not_or, iff_and_self]
    rintro - ⟨rest', h⟩
    obtain ⟨rfl, rfl⟩ : ':' = c ∧ ':' :: rest' = rest := by simpa using h
    exact hc rest' rfl rfl

/-! ## The last separator -/

theorem of_cutLast_eq_some {cs before after : List Char} (h : cutLast cs = some (before, after)) :
    cs = before ++ ':' :: ':' :: after ∧ cutLast (':' :: after) = none := by
  fun_induction cutLast cs generalizing before with
  | case1 => cases h
  | case2 c rest inner last hrest ih =>
    cases h
    obtain ⟨hcs, hlast⟩ := ih hrest
    exact ⟨by rw [hcs, List.cons_append], hlast⟩
  | case3 last hrest ih =>
    cases h
    exact ⟨rfl, hrest⟩
  | case4 => cases h

theorem cutLast_append (before : List Char) {after : List Char}
    (h : cutLast (':' :: after) = none) :
    cutLast (before ++ ':' :: ':' :: after) = some (before, after) := by
  induction before with
  | nil => rw [List.nil_append, cutLast, h]
  | cons c rest ih => simp [cutLast, ih]

theorem isSome_cutLast (before after : List Char) :
    (cutLast (before ++ ':' :: ':' :: after)).isSome := by
  induction before with
  | nil =>
    rw [List.nil_append, cutLast]
    split <;> rfl
  | cons c rest ih =>
    obtain ⟨cut, hcut⟩ := Option.isSome_iff_exists.mp ih
    simp [cutLast, hcut]

theorem cutLast_eq_none_iff (cs : List Char) : cutLast cs = none ↔ ¬ [':', ':'] <:+: cs := by
  constructor
  · rintro hnone ⟨before, after, rfl⟩
    have hsome := isSome_cutLast before after
    simp_all
  · intro h
    cases hcut : cutLast cs with
    | none => rfl
    | some cut =>
      obtain ⟨before, after⟩ := cut
      exact absurd ⟨before, after, by simp [(of_cutLast_eq_some hcut).1]⟩ h

end YcpToRuby.Text
