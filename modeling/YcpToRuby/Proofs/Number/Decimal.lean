import Mathlib.Data.List.Basic
import Mathlib.Data.List.Induction
import Mathlib.Data.Nat.Digits.Defs
import YcpToRuby.Number.Digits

/-!
# Decimal numbers

The reader of signed numbers accepts an optional sign, a run of digits and nothing else, and gives
the number that the digits denote by their places. Printed numbers denote themselves, and have no
zero in front.
-/

set_option autoImplicit false

namespace YcpToRuby.Number

/-! ## Signs and digits -/

theorem natural?_eq_some_iff {ds : List Char} {n : Nat} :
    natural? ds = some n ↔ ds ≠ [] ∧ (∀ c ∈ ds, c.isDigit) ∧ ofDigits ds = n := by
  unfold natural?
  split
  · rename_i h
    simp_all
  · rename_i h
    simp_all

theorem exists_splitSign (cs : List Char) :
    ∃ sign, cs = sign ++ (splitSign cs).2 ∧
      (sign = [] ∧ (splitSign cs).1 = false ∨ sign = ['+'] ∧ (splitSign cs).1 = false ∨
        sign = ['-'] ∧ (splitSign cs).1 = true) := by
  unfold splitSign
  split
  · exact ⟨['-'], rfl, by simp⟩
  · exact ⟨['+'], rfl, by simp⟩
  · exact ⟨[], rfl, by simp⟩

/-- A text that starts with a digit has no sign. -/
theorem splitSign_of_isDigit {digits : List Char}
    (hdigits : ∀ c ∈ digits, c.isDigit) : splitSign digits = (false, digits) := by
  unfold splitSign
  split
  · exact absurd (hdigits '-' List.mem_cons_self) (by decide)
  · exact absurd (hdigits '+' List.mem_cons_self) (by decide)
  · rfl

theorem fitsSigned64_iff (n : Int) : fitsSigned64 n = true ↔ -2 ^ 63 ≤ n ∧ n < 2 ^ 63 := by
  simp [fitsSigned64]

def IsSigned64 (text : String) : Prop :=
  ∃ sign digits negative, text.toList = sign ++ digits ∧
    (sign = [] ∧ negative = false ∨ sign = ['+'] ∧ negative = false ∨
      sign = ['-'] ∧ negative = true) ∧
    digits ≠ [] ∧ (∀ c ∈ digits, c.isDigit) ∧
    -2 ^ 63 ≤ withSign negative (ofDigits digits) ∧ withSign negative (ofDigits digits) < 2 ^ 63

theorem signed64?_isSome_iff (text : String) : (signed64? text).isSome ↔ IsSigned64 text := by
  have hread : (signed64? text).isSome ↔
      ∃ n, natural? (splitSign text.toList).2 = some n ∧
        fitsSigned64 (withSign (splitSign text.toList).1 n) = true := by
    cases hnatural : natural? (splitSign text.toList).2 <;> simp [signed64?, hnatural]
  rw [hread]
  simp only [natural?_eq_some_iff, fitsSigned64_iff]
  constructor
  · rintro ⟨n, ⟨hne, hdigits, rfl⟩, hlow, hhigh⟩
    obtain ⟨sign, htext, hsign⟩ := exists_splitSign text.toList
    exact ⟨sign, _, _, htext, hsign, hne, hdigits, hlow, hhigh⟩
  · rintro ⟨sign, digits, negative, htext, hsign, hne, hdigits, hlow, hhigh⟩
    have hsplit : splitSign text.toList = (negative, digits) := by
      rw [htext]
      rcases hsign with ⟨rfl, rfl⟩ | ⟨rfl, rfl⟩ | ⟨rfl, rfl⟩
      · exact splitSign_of_isDigit hdigits
      · rfl
      · rfl
    rw [hsplit]
    exact ⟨_, ⟨hne, hdigits, rfl⟩, hlow, hhigh⟩

/-! ## Decimal texts -/

def placeValue (ds : List Char) : Nat :=
  Nat.ofDigits 10 (ds.reverse.map digitValue)

structure IsRun (ds : List Char) : Prop where
  ne_nil : ds ≠ []
  digits : ∀ c ∈ ds, '0' ≤ c ∧ c ≤ '9'

inductive IsDecimal : List Char → Int → Prop
  | unsigned {ds : List Char} (h : IsRun ds) : IsDecimal ds (placeValue ds)
  | plus {ds : List Char} (h : IsRun ds) : IsDecimal ('+' :: ds) (placeValue ds)
  | minus {ds : List Char} (h : IsRun ds) : IsDecimal ('-' :: ds) (-(placeValue ds : Int))

theorem ofDigits_eq_placeValue (ds : List Char) : ofDigits ds = placeValue ds := by
  induction ds using List.reverseRecOn with
  | nil => rfl
  | append_singleton ds c ih =>
    simp only [ofDigits, placeValue] at ih ⊢
    simp [Nat.ofDigits_cons, ih]
    omega

theorem isRun_iff {ds : List Char} : IsRun ds ↔ ds ≠ [] ∧ ∀ c ∈ ds, c.isDigit = true := by
  have hdigit (c : Char) : c.isDigit = true ↔ '0' ≤ c ∧ c ≤ '9' := by
    rw [Char.isDigit_iff_toNat]
    rfl
  simp only [hdigit]
  exact ⟨fun h => ⟨h.ne_nil, h.digits⟩, fun h => ⟨h.1, h.2⟩⟩

/-- A decimal text is a run of digits after its sign, and denotes what the sign makes of them. -/
theorem isDecimal_iff {cs : List Char} {value : Int} :
    IsDecimal cs value ↔
      IsRun (splitSign cs).2 ∧ value = withSign (splitSign cs).1 (placeValue (splitSign cs).2) := by
  constructor
  · rintro (h | h | h)
    · rw [splitSign_of_isDigit (isRun_iff.mp h).2]
      exact ⟨h, rfl⟩
    · exact ⟨h, rfl⟩
    · exact ⟨h, rfl⟩
  · rintro ⟨hrun, rfl⟩
    obtain ⟨sign, htext, hsign⟩ := exists_splitSign cs
    generalize splitSign cs = split at *
    rcases hsign with ⟨rfl, hnegative⟩ | ⟨rfl, hnegative⟩ | ⟨rfl, hnegative⟩
    · rw [htext, hnegative]
      exact .unsigned hrun
    · rw [htext, hnegative]
      exact .plus hrun
    · rw [htext, hnegative]
      exact .minus hrun

theorem IsDecimal.unique {cs : List Char} {m n : Int} (hm : IsDecimal cs m) (hn : IsDecimal cs n) :
    m = n :=
  (isDecimal_iff.mp hm).2.trans (isDecimal_iff.mp hn).2.symm

theorem signed64?_eq_some_iff {text : String} {value : Int} :
    signed64? text = some value ↔
      IsDecimal text.toList value ∧ -2 ^ 63 ≤ value ∧ value < 2 ^ 63 := by
  rw [isDecimal_iff, ← fitsSigned64_iff]
  simp only [signed64?, Option.bind_eq_some_iff, natural?_eq_some_iff, ← and_assoc, ← isRun_iff,
    ofDigits_eq_placeValue]
  constructor
  · rintro ⟨n, ⟨hrun, rfl⟩, hvalue⟩
    split at hvalue
    · rename_i hfit
      obtain rfl := Option.some.inj hvalue
      exact ⟨⟨hrun, rfl⟩, hfit⟩
    · cases hvalue
  · rintro ⟨⟨hrun, rfl⟩, hfit⟩
    exact ⟨_, ⟨hrun, rfl⟩, if_pos hfit⟩

/-! ## Integers of Ruby -/

/-- An integer of Ruby in base ten. It has no sign but a minus, and no zero in front of its digits,
which would change the base. -/
inductive IsInteger : List Char → Int → Prop
  | natural {ds : List Char} (h : IsRun ds) (hbase : ds.head? = some '0' → ds = ['0']) :
      IsInteger ds (placeValue ds)
  | negative {ds : List Char} (h : IsRun ds) (hbase : ds.head? = some '0' → ds = ['0']) :
      IsInteger ('-' :: ds) (-(placeValue ds : Int))

theorem isRun_toDigits (n : Nat) : IsRun (Nat.toDigits 10 n) := by
  refine isRun_iff.mpr ⟨by simp, fun c hc => ?_⟩
  exact Nat.isDigit_of_mem_toDigits (by decide) (by decide) hc

theorem placeValue_toDigits (n : Nat) : placeValue (Nat.toDigits 10 n) = n := by
  rw [← ofDigits_eq_placeValue]
  exact Nat.ofDigitChars_ten_toDigits

/-- Only the number zero starts with a zero. -/
theorem eq_zero_of_head?_toDigits {n : Nat} (h : (Nat.toDigits 10 n).head? = some '0') :
    n = 0 := by
  induction n using Nat.strongRecOn with
  | ind n ih =>
    rcases Nat.lt_or_ge n 10 with hlt | hge
    · have hsmall : ∀ d < 10, d.digitChar = '0' → d = 0 := by decide
      rw [Nat.toDigits_of_lt_base hlt] at h
      exact hsmall n hlt (by simpa using h)
    · rw [Nat.toDigits_of_base_le (by decide) hge,
        List.head?_append_of_ne_nil _ Nat.toDigits_ne_nil] at h
      have hquotient := ih (n / 10) (by omega) h
      omega

theorem toDigits_base (n : Nat) (h : (Nat.toDigits 10 n).head? = some '0') :
    Nat.toDigits 10 n = ['0'] := by
  rw [eq_zero_of_head?_toDigits h]
  rfl

theorem isInteger_toString (n : Int) : IsInteger (toString n).toList n := by
  have hdigits (n : Nat) : (toString n).toList = Nat.toDigits 10 n := by simp
  cases n with
  | ofNat n =>
    have h := IsInteger.natural (isRun_toDigits n) (toDigits_base n)
    rw [placeValue_toDigits, ← hdigits] at h
    exact h
  | negSucc n =>
    have h := IsInteger.negative (isRun_toDigits (n + 1)) (toDigits_base (n + 1))
    rw [placeValue_toDigits, ← hdigits] at h
    change IsInteger ("-" ++ toString (n + 1)).toList (-((n + 1 : Nat) : Int))
    rw [String.toList_append]
    exact h

end YcpToRuby.Number
