import YcpToRuby.Number.Digits
import YcpToRuby.Ruby.Quoted

/-!
# Reading quoted literals

The characters of a double-quoted literal are read one by one. An escape stands for one character; a
`#` that would start an interpolation is refused, because the value of the literal would then not be
known. Reading what `quotedBody` writes gives the text back and stops at the closing quote.
-/

set_option autoImplicit false

namespace YcpToRuby.Ruby

inductive QuoteMode where
  | plain
  | escape
  | codeStart
  | code (value : Nat)

def escapeMeaning? : Char → Option Char
  | 'n' => some '\n'
  | 't' => some '\t'
  | 'r' => some '\r'
  | 'e' => some '\x1b'
  | '\x22' => some '\x22'
  | '\\' => some '\\'
  | '#' => some '#'
  | _ => none

def withChar (c : Char) (result : List Char × List Char) : List Char × List Char :=
  (c :: result.1, result.2)

def unquote? : QuoteMode → List Char → Option (List Char × List Char)
  | _, [] => none
  | .plain, c :: rest =>
    if c == '\x22' then some ([], rest)
    else if c == '\\' then unquote? .escape rest
    else if c == '#' && startsInterpolation rest.head? then none
    else (unquote? .plain rest).map (withChar c)
  | .escape, c :: rest =>
    if c == 'u' then unquote? .codeStart rest
    else (escapeMeaning? c).bind fun meaning => (unquote? .plain rest).map (withChar meaning)
  | .codeStart, c :: rest => if c == '\x7b' then unquote? (.code 0) rest else none
  | .code value, c :: rest =>
    if c == '\x7d' then (unquote? .plain rest).map (withChar (Char.ofNat value))
    else (Number.hexValue? c).bind fun digit => unquote? (.code (16 * value + digit)) rest

theorem length_of_unquote? {mode : QuoteMode} {cs text rest : List Char}
    (h : unquote? mode cs = some (text, rest)) : rest.length < cs.length := by
  induction cs generalizing mode text with
  | nil => simp [unquote?] at h
  | cons c cs ih =>
    have hkept {mode : QuoteMode} {d : Char}
        (h : (unquote? mode cs).map (withChar d) = some (text, rest)) :
        rest.length < (c :: cs).length := by
      obtain ⟨⟨inner, tail⟩, hinner, heq⟩ := Option.map_eq_some_iff.mp h
      obtain ⟨-, rfl⟩ := Prod.mk.inj heq
      exact Nat.lt_succ_of_lt (ih hinner)
    cases mode with
    | plain =>
      simp only [unquote?] at h
      split at h
      · simp only [Option.some.injEq, Prod.mk.injEq] at h
        simp [← h.2]
      · split at h
        · exact Nat.lt_succ_of_lt (ih h)
        · split at h
          · cases h
          · exact hkept h
    | escape =>
      simp only [unquote?] at h
      split at h
      · exact Nat.lt_succ_of_lt (ih h)
      · obtain ⟨meaning, -, h⟩ := Option.bind_eq_some_iff.mp h
        exact hkept h
    | codeStart =>
      simp only [unquote?] at h
      split at h
      · exact Nat.lt_succ_of_lt (ih h)
      · cases h
    | code value =>
      simp only [unquote?] at h
      split at h
      · exact hkept h
      · obtain ⟨digit, -, h⟩ := Option.bind_eq_some_iff.mp h
        exact Nat.lt_succ_of_lt (ih h)

/-! ## The code of a control character -/

theorem unquote?_code {ds : List Char} {values : List Nat}
    (h : ds.mapM Number.hexValue? = some values) (value : Nat) (tail : List Char) :
    unquote? (.code value) (ds ++ '\x7d' :: tail) =
      (unquote? .plain tail).map
        (withChar (Char.ofNat (values.foldl (fun n digit => 16 * n + digit) value))) := by
  induction ds generalizing values value with
  | nil =>
    obtain rfl : values = [] := by simpa using h.symm
    simp [unquote?]
  | cons d ds ih =>
    simp only [List.mapM_cons, Option.bind_eq_bind, Option.bind_eq_some_iff, Option.pure_def,
      Option.some.injEq] at h
    obtain ⟨digit, hd, digits, hds, rfl⟩ := h
    have hbrace : d ≠ '\x7d' := by
      rintro rfl
      simp [Number.hexValue?] at hd
    simp [unquote?, hbrace, hd, ih hds]

theorem hexadecimal_toDigits : ∀ n < 0xA0, Number.hexadecimal? (Nat.toDigits 16 n) = some n := by
  decide +kernel

theorem unquote?_control {c : Char} (hc : isControl c = true) (tail : List Char) :
    unquote? (.code 0) (Nat.toDigits 16 c.toNat ++ '\x7d' :: tail) =
      (unquote? .plain tail).map (withChar c) := by
  have hlt : c.toNat < 0xA0 := by
    simp only [isControl, Bool.or_eq_true, Bool.and_eq_true, decide_eq_true_eq] at hc
    omega
  have hcode := hexadecimal_toDigits c.toNat hlt
  simp only [Number.hexadecimal?, Option.bind_eq_bind, Option.bind_eq_some_iff] at hcode
  obtain ⟨values, hvalues, hcode⟩ := hcode
  split at hcode
  · cases hcode
  · rw [unquote?_code hvalues, Option.some.inj hcode, Char.ofNat_toNat]

/-! ## What is written can be read -/

/-- The three ways to write a character: an escape of two characters, the code of a control
character, or the character itself. -/
theorem quotedChar_cases (c : Char) (next : Option Char) :
    (∃ mark, mark ≠ 'u' ∧ escapeMeaning? mark = some c ∧ quotedChar c next = ['\\', mark]) ∨
      (isControl c = true ∧
        quotedChar c next = ['\\', 'u', '\x7b'] ++ Nat.toDigits 16 c.toNat ++ ['\x7d']) ∨
      (isControl c = false ∧ c ≠ '\x22' ∧ c ≠ '\\' ∧
        (c == '#' && startsInterpolation next) = false ∧ quotedChar c next = [c]) := by
  have hescape {d : Char} (mark : Char) (hmark : mark ≠ 'u') (hd : escapeMeaning? mark = some d)
      (h : (c == d) = true) : ∃ m, m ≠ 'u' ∧ escapeMeaning? m = some c ∧ ['\\', mark] = ['\\', m] :=
    ⟨mark, hmark, by rw [hd, beq_iff_eq.mp h], rfl⟩
  unfold quotedChar
  split
  · exact Or.inl (hescape '\x22' (by decide) rfl ‹_›)
  split
  · exact Or.inl (hescape '\\' (by decide) rfl ‹_›)
  split
  · exact Or.inl (hescape 'n' (by decide) rfl ‹_›)
  split
  · exact Or.inl (hescape 't' (by decide) rfl ‹_›)
  split
  · exact Or.inl (hescape 'r' (by decide) rfl ‹_›)
  split
  · exact Or.inl (hescape 'e' (by decide) rfl ‹_›)
  split
  · rename_i h
    exact Or.inl (hescape '#' (by decide) rfl (Bool.and_eq_true_iff.mp h).1)
  split
  · exact Or.inr (Or.inl ⟨‹_›, rfl⟩)
  · simp_all

theorem unquote?_quotedChar (c : Char) {next : Option Char} {tail : List Char}
    (hnext : startsInterpolation tail.head? = true → startsInterpolation next = true) :
    unquote? .plain (quotedChar c next ++ tail) = (unquote? .plain tail).map (withChar c) := by
  rcases quotedChar_cases c next with ⟨mark, hmark, hmeaning, h⟩ | ⟨hcontrol, h⟩ |
    ⟨-, hquote, hslash, hhash, h⟩
  · simp [h, unquote?, hmark, hmeaning]
  · simp only [h, List.append_assoc, List.cons_append, List.nil_append]
    simpa [unquote?] using unquote?_control hcontrol tail
  · have hplain : (c == '#' && startsInterpolation tail.head?) = false := by
      cases htail : startsInterpolation tail.head? with
      | true => simpa [hnext htail] using hhash
      | false => simp
    simp [h, unquote?, hquote, hslash, hplain]

/-- What stands in front of the rest of a literal is a backslash, the closing quote, or the next
character of the text. -/
theorem startsInterpolation_quotedBody {text tail : List Char}
    (h : startsInterpolation (quotedBody text ++ '\x22' :: tail).head? = true) :
    startsInterpolation text.head? = true := by
  cases text with
  | nil => simp [quotedBody, startsInterpolation] at h
  | cons c rest =>
    rcases quotedChar_cases c rest.head? with ⟨mark, -, -, hc⟩ | ⟨-, hc⟩ | ⟨-, -, -, -, hc⟩
    · simp [quotedBody, hc, startsInterpolation] at h
    · simp [quotedBody, hc, startsInterpolation] at h
    · simpa [quotedBody, hc] using h

theorem unquote?_quotedBody (text tail : List Char) :
    unquote? .plain (quotedBody text ++ '\x22' :: tail) = some (text, tail) := by
  induction text with
  | nil => simp [quotedBody, unquote?]
  | cons c rest ih =>
    rw [quotedBody, List.append_assoc, unquote?_quotedChar c startsInterpolation_quotedBody, ih]
    rfl

/-! ## No raw control characters -/

theorem isControl_of_escapeMeaning? {mark c : Char} (h : escapeMeaning? mark = some c) :
    isControl mark = false := by
  unfold escapeMeaning? at h
  split at h
  all_goals first
    | rfl
    | cases h

theorem isControl_of_mem_toDigits {n : Nat} {c : Char} (h : c ∈ Nat.toDigits 16 n) :
    isControl c = false := by
  have hdigit : ∀ d < 16, isControl d.digitChar = false := by decide +kernel
  induction n using Nat.strongRecOn with
  | ind n ih =>
    rcases Nat.lt_or_ge n 16 with hlt | hge
    · rw [Nat.toDigits_of_lt_base hlt, List.mem_singleton] at h
      rw [h]
      exact hdigit n hlt
    · rw [Nat.toDigits_of_base_le (by decide) hge, List.mem_append, List.mem_singleton] at h
      rcases h with h | h
      · exact ih (n / 16) (by omega) h
      · rw [h]
        exact hdigit (n % 16) (Nat.mod_lt n (by decide))

theorem isControl_of_mem_quotedChar {c d : Char} {next : Option Char} (h : d ∈ quotedChar c next) :
    isControl d = false := by
  have hslash : isControl '\\' = false := by decide
  rcases quotedChar_cases c next with ⟨mark, -, hmark, hc⟩ | ⟨-, hc⟩ | ⟨hplain, -, -, -, hc⟩
  · have hmark := isControl_of_escapeMeaning? hmark
    rw [hc] at h
    simp only [List.mem_cons, List.not_mem_nil, or_false] at h
    rcases h with rfl | rfl <;> assumption
  · rw [hc, List.mem_append, List.mem_append] at h
    simp only [List.mem_cons, List.not_mem_nil, or_false] at h
    rcases h with ((rfl | rfl | rfl) | hdigit) | rfl
    · exact hslash
    · rfl
    · rfl
    · exact isControl_of_mem_toDigits hdigit
    · rfl
  · rw [hc, List.mem_singleton] at h
    exact h ▸ hplain

theorem isControl_of_mem_quoted {text : String} {c : Char} (h : c ∈ (quoted text).toList) :
    isControl c = false := by
  have hbody (cs : List Char) (d : Char) (hd : d ∈ quotedBody cs) : isControl d = false := by
    induction cs with
    | nil => cases hd
    | cons e rest ih =>
      rcases List.mem_append.mp hd with hfirst | hrest
      · exact isControl_of_mem_quotedChar hfirst
      · exact ih hrest
  have hquote : isControl '\x22' = false := by decide
  simp only [quoted, String.toList_ofList, List.mem_append, List.mem_cons, List.not_mem_nil,
    or_false] at h
  rcases h with (rfl | h) | rfl
  · exact hquote
  · exact hbody _ _ h
  · exact hquote

end YcpToRuby.Ruby
