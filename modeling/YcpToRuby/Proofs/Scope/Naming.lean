import Mathlib.Data.List.Nodup
import Mathlib.Data.List.Perm.Subperm
import Mathlib.Logic.Function.Basic
import Mathlib.Tactic.Push
import YcpToRuby.Scope.Naming

/-!
# What the search for a name finds

Numbered names are distinct for distinct numbers, so that a list of declared names cannot hold all
candidates of the bounded search. The number it ends with is therefore the least one that is free,
which is all that later arguments use, and a search without a bound stops there as well. Escaping
keeps distinct names distinct, because nothing that is left as it is starts with the underscore that
escaping puts in front.
-/

set_option autoImplicit false

namespace YcpToRuby.Scope

def numbered (name : String) (n : Nat) : String :=
  name ++ toString n

theorem toString_nat_injective : Function.Injective (toString : Nat → String) := by
  intro m n h
  simp only [Nat.toString_eq_ofList_toDigits] at h
  have hd : Nat.toDigits 10 m = Nat.toDigits 10 n := String.ofList_injective h
  have hm := congrArg (Nat.ofDigitChars 10 · 0) hd
  simpa only [Nat.ofDigitChars_ten_toDigits] using hm

theorem numbered_injective (name : String) : Function.Injective (numbered name) := by
  intro m n h
  have ht : toString m = toString n := by simpa [numbered] using h
  exact toString_nat_injective ht

theorem numbered_ne_self (name : String) (n : Nat) : numbered name n ≠ name := by
  intro h
  simp [numbered] at h

theorem le_freshNumber (name : String) (declared : List String) (candidates n : Nat) :
    n ≤ freshNumber name declared candidates n := by
  induction candidates generalizing n with
  | zero => exact Nat.le_refl _
  | succ candidates ih =>
    have hnext := ih (n + 1)
    unfold freshNumber
    split <;> omega

theorem declared_of_lt_freshNumber (name : String) (declared : List String)
    (candidates n k : Nat) (hn : n ≤ k) (hk : k < freshNumber name declared candidates n) :
    numbered name k ∈ declared := by
  induction candidates generalizing n with
  | zero =>
    simp only [freshNumber] at hk
    omega
  | succ candidates ih =>
    unfold freshNumber at hk
    split at hk
    · rename_i hm
      rcases Nat.eq_or_lt_of_le hn with rfl | hlt
      · simpa [numbered] using hm
      · exact ih (n + 1) hlt hk
    · omega

theorem freshNumber_cases (name : String) (declared : List String) (candidates n : Nat) :
    freshNumber name declared candidates n = n + candidates ∨
      numbered name (freshNumber name declared candidates n) ∉ declared := by
  induction candidates generalizing n with
  | zero => exact Or.inl rfl
  | succ candidates ih =>
    unfold freshNumber
    split
    · rcases ih (n + 1) with h | h
      · exact Or.inl (by omega)
      · exact Or.inr h
    · rename_i hm
      exact Or.inr (by simpa [numbered] using hm)

/-- One candidate more than there are declared names cannot all be declared. -/
theorem exists_undeclared (name : String) (declared : List String) (n : Nat) :
    ∃ k, n ≤ k ∧ k ≤ n + declared.length ∧ numbered name k ∉ declared := by
  by_contra hall
  push Not at hall
  let candidates := (List.range (declared.length + 1)).map fun i => numbered name (n + i)
  have hnodup : candidates.Nodup := by
    apply List.Nodup.map _ List.nodup_range
    intro i j h
    have hij := numbered_injective name h
    omega
  have hsub : candidates ⊆ declared := by
    intro c hc
    obtain ⟨i, hi, rfl⟩ := List.mem_map.mp hc
    have hlt := List.mem_range.mp hi
    exact hall (n + i) (by omega) (by omega)
  have hlen := (List.subperm_of_subset hnodup hsub).length_le
  simp only [candidates, List.length_map, List.length_range] at hlen
  omega

theorem freshNumber_undeclared (name : String) (declared : List String) (n : Nat) :
    numbered name (freshNumber name declared declared.length n) ∉ declared := by
  rcases freshNumber_cases name declared declared.length n with hend | hfresh
  · obtain ⟨k, hn, hk, hundeclared⟩ := exists_undeclared name declared n
    have hke : k = n + declared.length := by
      by_contra hne
      exact hundeclared
        (declared_of_lt_freshNumber name declared declared.length n k hn (by omega))
    rw [hend, ← hke]
    exact hundeclared
  · exact hfresh

def IsLeastFree (name : String) (declared : List String) (n : Nat) : Prop :=
  declared.count name ≤ n ∧ numbered name n ∉ declared ∧
    ∀ k, declared.count name ≤ k → k < n → numbered name k ∈ declared

theorem IsLeastFree.unique {name : String} {declared : List String} {m n : Nat}
    (hm : IsLeastFree name declared m) (hn : IsLeastFree name declared n) : m = n := by
  rcases Nat.lt_trichotomy m n with hlt | heq | hgt
  · exact absurd (hn.2.2 m hm.1 hlt) hm.2.1
  · exact heq
  · exact absurd (hm.2.2 n hn.1 hgt) hn.2.1

/-- Some number that is not greater than this is free. -/
theorem IsLeastFree.le_count_add_length {name : String} {declared : List String} {n : Nat}
    (h : IsLeastFree name declared n) : n ≤ declared.count name + declared.length := by
  obtain ⟨k, hlow, hhigh, hfree⟩ := exists_undeclared name declared (declared.count name)
  by_contra hlt
  exact hfree (h.2.2 k hlow (by omega))

inductive StopsAt (name : String) (declared : List String) : Nat → Nat → Prop
  | free {n : Nat} (h : numbered name n ∉ declared) : StopsAt name declared n n
  | taken {n m : Nat} (h : numbered name n ∈ declared) (next : StopsAt name declared (n + 1) m) :
      StopsAt name declared n m

theorem stopsAt_iff {name : String} {declared : List String} {n m : Nat} :
    StopsAt name declared n m ↔ n ≤ m ∧ numbered name m ∉ declared ∧
      ∀ k, n ≤ k → k < m → numbered name k ∈ declared := by
  constructor
  · intro h
    induction h with
    | free h => exact ⟨Nat.le_refl _, h, fun k hk hlt => by omega⟩
    | taken h next ih =>
      obtain ⟨hle, hfree, htaken⟩ := ih
      refine ⟨by omega, hfree, fun k hk hlt => ?_⟩
      rcases Nat.eq_or_lt_of_le hk with rfl | hnext
      · exact h
      · exact htaken k hnext hlt
  · rintro ⟨hle, hfree, htaken⟩
    induction hsteps : m - n generalizing n with
    | zero =>
      obtain rfl : n = m := by omega
      exact .free hfree
    | succ steps ih =>
      have hn := htaken n (by omega) (by omega)
      exact .taken hn (ih (by omega) (fun k hk hlt => htaken k (by omega) hlt) (by omega))

theorem suffixed_of_count_le_one {name : String} {declared : List String}
    (h : declared.count name ≤ 1) : suffixed name declared = name := by
  simp [suffixed, h]

theorem suffixed_of_two_le_count {name : String} {declared : List String}
    (h : 2 ≤ declared.count name) :
    ∃ n, suffixed name declared = numbered name n ∧ IsLeastFree name declared n := by
  refine ⟨freshNumber name declared declared.length (declared.count name), ?_, ?_, ?_, ?_⟩
  · simp [suffixed, numbered, show ¬ declared.count name ≤ 1 by omega]
  · exact le_freshNumber name declared _ _
  · exact freshNumber_undeclared name declared _
  · exact declared_of_lt_freshNumber name declared _ _

theorem suffixed_eq_numbered_iff {name : String} {declared : List String} {n : Nat}
    (h : 2 ≤ declared.count name) :
    suffixed name declared = numbered name n ↔ IsLeastFree name declared n := by
  obtain ⟨m, hm, hleast⟩ := suffixed_of_two_le_count h
  constructor
  · intro hs
    have hmn := numbered_injective name (hm.symm.trans hs)
    exact hmn ▸ hleast
  · intro hn
    rw [hm, hleast.unique hn]

/-- A declared name is numbered exactly when it is declared several times. -/
theorem suffixed_cases {name : String} {declared : List String} (h : name ∈ declared) :
    declared.count name = 1 ∧ suffixed name declared = name ∨
      2 ≤ declared.count name ∧ ∃ n, suffixed name declared = numbered name n := by
  have hpos := List.count_pos_iff.mpr h
  rcases Nat.lt_or_ge (declared.count name) 2 with hone | htwo
  · exact Or.inl ⟨by omega, suffixed_of_count_le_one (by omega)⟩
  · obtain ⟨n, hn, -⟩ := suffixed_of_two_le_count htwo
    exact Or.inr ⟨htwo, n, hn⟩

theorem needsEscape_underscore (name : String) : needsEscape ("_" ++ name) = true := by
  simp [needsEscape]

theorem escape_injective : Function.Injective escape := by
  intro a b h
  unfold escape at h
  split at h <;> split at h
  · simpa using h
  · rename_i hb
    exact absurd (h ▸ needsEscape_underscore a) hb
  · rename_i ha _
    exact absurd (h.symm ▸ needsEscape_underscore b) ha
  · exact h

/-! ## Names that end in no digit -/

def EndsPlain (name : String) : Prop :=
  ∀ c ∈ name.toList.getLast?, c.isDigit = false

theorem endsPlain_append {suffix : String} (h : EndsPlain suffix) (hne : suffix ≠ "")
    (name : String) : EndsPlain (name ++ suffix) := by
  intro c hc
  have hlist : suffix.toList ≠ [] := by simpa using hne
  rw [String.toList_append, List.getLast?_append_of_ne_nil _ hlist] at hc
  exact h c hc

/-- No numbered name ends in such a name. -/
theorem numbered_ne_of_endsPlain {base : String} (h : EndsPlain base) (name : String) (n : Nat) :
    numbered name n ≠ base := by
  rintro rfl
  have hdigits : (toString n).toList = Nat.toDigits 10 n := by simp
  have hne : Nat.toDigits 10 n ≠ [] := Nat.toDigits_ne_nil
  have hlast := List.getLast?_eq_getLast_of_ne_nil hne
  have hdigit : ((Nat.toDigits 10 n).getLast hne).isDigit = true :=
    Nat.isDigit_of_mem_toDigits (by decide) (by decide) (List.getLast_mem hne)
  have hplain := h ((Nat.toDigits 10 n).getLast hne) (by
    rw [numbered, String.toList_append, hdigits, List.getLast?_append_of_ne_nil _ hne, hlast]
    rfl)
  rw [hdigit] at hplain
  cases hplain

end YcpToRuby.Scope
