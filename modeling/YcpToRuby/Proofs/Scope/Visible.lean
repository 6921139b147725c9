import Mathlib.Data.List.Induction
import YcpToRuby.Proofs.Scope.Nesting

/-!
# Ruby names of the variables that are visible at one point

A local variable of Ruby may not be a reserved word, and a capital in front would make it a
constant. Escaping sees to both with an underscore in front. But four names that begin with an
underscore themselves become a reserved word by it.

Two variables share a Ruby name when both are numbered and their numbered names are the same text.
Then one is the other with a number after it, and its own number continues that number.
-/

set_option autoImplicit false

namespace YcpToRuby.Scope

/-! ## Names of Ruby locals -/

def startsUppercase (name : String) : Bool :=
  name.toList.head?.any Text.isUppercase

def unescapable : List String :=
  ["_ENCODING__", "_END__", "_FILE__", "_LINE__"]

theorem isReserved_underscore_iff (name : String) :
    Ruby.isReserved ("_" ++ name) = true ↔ name ∈ unescapable := by
  have hwords : ∀ word ∈ Ruby.reservedWords, word.toList.head? = some '_' →
      word ∈ unescapable.map ("_" ++ ·) := by decide
  have hnames : ∀ word ∈ unescapable, "_" ++ word ∈ Ruby.reservedWords := by decide
  rw [Ruby.isReserved, List.contains_iff_mem]
  constructor
  · intro hmem
    obtain ⟨word, hword, heq⟩ := List.mem_map.mp (hwords _ hmem (by simp))
    have hsame : word = name := by simpa using heq
    exact hsame ▸ hword
  · exact hnames name

theorem needsEscape_of_mem_unescapable {name : String} (h : name ∈ unescapable) :
    needsEscape name = true := by
  have hall : ∀ word ∈ unescapable, needsEscape word = true := by decide +kernel
  exact hall name h

theorem isReserved_escape_iff (name : String) :
    Ruby.isReserved (escape name) = true ↔ name ∈ unescapable := by
  unfold escape
  split
  · exact isReserved_underscore_iff name
  · rename_i hnot
    constructor
    · intro hreserved
      exact absurd (by simp [needsEscape, hreserved]) hnot
    · intro hmem
      exact absurd (needsEscape_of_mem_unescapable hmem) hnot

theorem startsUppercase_escape (name : String) : startsUppercase (escape name) = false := by
  unfold escape
  split
  · have hunderscore : Text.isUppercase '_' = false := by decide +kernel
    simp [startsUppercase, hunderscore]
  · rename_i hnot
    cases hname : name.toList with
    | nil => simp [startsUppercase, hname]
    | cons c rest =>
      simp only [needsEscape, hname, Bool.or_eq_true, not_or] at hnot
      simpa [startsUppercase, hname] using hnot.2.1

theorem endsPlain_of_mem_unescapable {name : String} (h : name ∈ unescapable) :
    EndsPlain name := by
  have hall : ∀ word ∈ unescapable, word.toList.getLast?.all (!·.isDigit) = true := by decide
  intro c hc
  have hlast := hall name h
  rw [Option.mem_def.mp hc] at hlast
  simpa using hlast

/-- A number at the end makes a name escapable. -/
theorem suffixed_mem_unescapable_iff {name : String} {declared : List String} :
    suffixed name declared ∈ unescapable ↔ declared.count name ≤ 1 ∧ name ∈ unescapable := by
  rcases Nat.lt_or_ge (declared.count name) 2 with hone | htwo
  · have hle : declared.count name ≤ 1 := by omega
    simp [suffixed_of_count_le_one hle, hle]
  · obtain ⟨n, hn, -⟩ := suffixed_of_two_le_count htwo
    constructor
    · intro hmem
      exact absurd hn.symm (numbered_ne_of_endsPlain (endsPlain_of_mem_unescapable hmem) name n)
    · rintro ⟨hone, -⟩
      omega

/-- The name of a local never starts with a capital. It is a reserved word exactly for the four
names that escaping turns into one, as long as they get no number. -/
theorem Context.localName_usable_iff (ctx : Context) (name : String) :
    startsUppercase (ctx.localName name) = false ∧
      (Ruby.isReserved (ctx.localName name) = true ↔
        ctx.locals.count name ≤ 1 ∧ name ∈ unescapable) := by
  refine ⟨startsUppercase_escape _, ?_⟩
  rw [localName, isReserved_escape_iff, suffixed_mem_unescapable_iff]

/-- In a function with the variable `_END__`, that variable is called `__END__`. -/
theorem Context.localName_unescapable_reserved :
    "_END__" ≠ "" ∧
      Ruby.isReserved
        (Context.localName { frames := [variableFunction ["_END__"]] } "_END__") = true := by
  decide +kernel

/-! ## Names that clash -/

/-- The digits of a number without those at the end are the digits of a number. -/
theorem exists_toDigits_eq {m : Nat} {front back : List Char}
    (h : Nat.toDigits 10 m = front ++ back) (hfront : front ≠ []) :
    ∃ k, front = Nat.toDigits 10 k := by
  induction back using List.reverseRecOn generalizing m with
  | nil => exact ⟨m, by simpa using h.symm⟩
  | append_singleton back last ih =>
    have hlong : 2 ≤ (Nat.toDigits 10 m).length := by
      have hpos := List.length_pos_iff.mpr hfront
      rw [h]
      simp only [List.length_append, List.length_singleton]
      omega
    have hten : 10 ≤ m := by
      by_contra hlt
      rw [Nat.toDigits_of_lt_base (by omega)] at hlong
      simp at hlong
    rw [Nat.toDigits_of_base_le (by decide) hten, ← List.append_assoc] at h
    exact ih (List.append_inj' h rfl).1

def Continues (k n m : Nat) : Prop :=
  toString m = toString k ++ toString n

theorem numbered_append {a : String} {k n m : Nat} (h : Continues k n m) :
    numbered (numbered a k) n = numbered a m := by
  rw [numbered, numbered, String.append_assoc, ← h, numbered]

theorem exists_continues {a b : String} {m n : Nat} {middle : List Char} (hne : a ≠ b)
    (hb : b.toList = a.toList ++ middle)
    (hm : Nat.toDigits 10 m = middle ++ Nat.toDigits 10 n) :
    ∃ k, b = numbered a k ∧ Continues k n m := by
  have hmiddle : middle ≠ [] := by
    rintro rfl
    exact hne (String.toList_injective (by simpa using hb.symm))
  obtain ⟨k, hdigits⟩ := exists_toDigits_eq hm hmiddle
  refine ⟨k, ?_, ?_⟩
  · apply String.toList_injective
    rw [numbered, String.toList_append, hb]
    simpa using hdigits
  · apply String.toList_injective
    simpa [← hdigits] using hm

/-- Numbered names of different variables are the same exactly when one variable is the other with a
number, which the number of the other one continues. -/
theorem numbered_eq_numbered_iff {a b : String} {m n : Nat} (hne : a ≠ b) :
    numbered a m = numbered b n ↔
      (∃ k, b = numbered a k ∧ Continues k n m) ∨ ∃ k, a = numbered b k ∧ Continues k m n := by
  constructor
  · intro h
    have htext := congrArg String.toList h
    simp only [numbered, String.toList_append, Nat.toString_eq_ofList_toDigits,
      String.toList_ofList] at htext
    rcases List.append_eq_append_iff.mp htext with ⟨middle, hb, hm⟩ | ⟨middle, ha, hn⟩
    · exact Or.inl (exists_continues hne hb hm)
    · exact Or.inr (exists_continues hne.symm ha hn)
  · rintro (⟨k, rfl, hk⟩ | ⟨k, rfl, hk⟩)
    · exact (numbered_append hk).symm
    · exact numbered_append hk

namespace Context

/-- What is declared once keeps its name, and no number gives that name to another variable. -/
theorem two_le_count_of_suffixed_eq {a b : String} {declared : List String} (ha : a ∈ declared)
    (hne : a ≠ b) (h : suffixed a declared = suffixed b declared) : 2 ≤ declared.count a := by
  by_contra hlt
  rw [suffixed_of_count_le_one (by omega)] at h
  rcases Nat.lt_or_ge (declared.count b) 2 with hone | htwo
  · rw [suffixed_of_count_le_one (by omega)] at h
    exact hne h
  · obtain ⟨n, hn, -, hfree, -⟩ := suffixed_of_two_le_count htwo
    exact hfree (hn ▸ h ▸ ha)

theorem localName_ne_of_count_eq_one (ctx : Context) {a b : String} (hb : ctx.locals.count b = 1)
    (hne : a ≠ b) : ctx.localName a ≠ ctx.localName b := by
  intro h
  have hmem : b ∈ ctx.locals := List.count_pos_iff.mp (by omega)
  have hmany := two_le_count_of_suffixed_eq hmem hne.symm (escape_injective h).symm
  omega

/-- A name that is declared several times is numbered with the least free number from its count on,
where a search without a bound stops too, after as many further steps as there are declared names at
most. So its Ruby name is not the one of a variable that is declared once. -/
theorem suffixed_search_stops_least (name : String) (declared : List String) :
    (declared.count name ≤ 1 → suffixed name declared = name) ∧
      (1 < declared.count name →
        (∃ n, suffixed name declared = numbered name n ∧ IsLeastFree name declared n ∧
          n ≤ declared.count name + declared.length) ∧
        ∀ n, StopsAt name declared (declared.count name) n ↔
          suffixed name declared = numbered name n) ∧
      ∀ (ctx : Context) (a b : String), 1 < ctx.locals.count a → ctx.locals.count b = 1 →
        ctx.localName a ≠ ctx.localName b := by
  refine ⟨suffixed_of_count_le_one, fun hmany => ⟨?_, fun n => ?_⟩, fun ctx a b ha hb => ?_⟩
  · obtain ⟨n, hn, hleast⟩ := suffixed_of_two_le_count hmany
    exact ⟨n, hn, hleast, hleast.le_count_add_length⟩
  · rw [stopsAt_iff, suffixed_eq_numbered_iff hmany]
    rfl
  · apply ctx.localName_ne_of_count_eq_one hb
    rintro rfl
    omega

/-- The second `i` skips the declared `i2`, so that the two keep apart. -/
theorem suffixed_skippingNumber_stops_least :
    1 < skippingNumber.locals.count "i" ∧ skippingNumber.locals.count "i2" = 1 ∧
      StopsAt "i" skippingNumber.locals 2 3 ∧ suffixed "i2" skippingNumber.locals = "i2" ∧
      skippingNumber.localName "i" ≠ skippingNumber.localName "i2" := by
  have hmany : 1 < skippingNumber.locals.count "i" := by decide
  have hone : skippingNumber.locals.count "i2" = 1 := by decide
  obtain ⟨-, hsearch, hne⟩ := suffixed_search_stops_least "i" skippingNumber.locals
  have hstop := ((hsearch hmany).2 3).mpr (by decide +kernel)
  have hcount : skippingNumber.locals.count "i" = 2 := by decide
  obtain ⟨hkept, -⟩ := suffixed_search_stops_least "i2" skippingNumber.locals
  exact ⟨hmany, hone, hcount ▸ hstop, hkept (by omega), hne skippingNumber "i" "i2" hmany hone⟩

/-- Two visible variables have one Ruby name exactly when both are numbered, one is the other with a
number after it, and that number continued by its own number is the number of the other one. -/
theorem localName_eq_iff_of_ne (ctx : Context) {a b : String} (ha : a ∈ ctx.locals)
    (hb : b ∈ ctx.locals) (hne : a ≠ b) :
    ctx.localName a = ctx.localName b ↔
      2 ≤ ctx.locals.count a ∧ 2 ≤ ctx.locals.count b ∧
        ∃ m n, IsLeastFree a ctx.locals m ∧ IsLeastFree b ctx.locals n ∧
          ((∃ k, b = numbered a k ∧ Continues k n m) ∨
            ∃ k, a = numbered b k ∧ Continues k m n) := by
  rw [localName, localName, escape_injective.eq_iff]
  constructor
  · intro h
    have hcounta := two_le_count_of_suffixed_eq ha hne h
    have hcountb := two_le_count_of_suffixed_eq hb hne.symm h.symm
    obtain ⟨m, hm, hleastm⟩ := suffixed_of_two_le_count hcounta
    obtain ⟨n, hn, hleastn⟩ := suffixed_of_two_le_count hcountb
    rw [hm, hn] at h
    exact ⟨hcounta, hcountb, m, n, hleastm, hleastn, (numbered_eq_numbered_iff hne).mp h⟩
  · rintro ⟨hcounta, hcountb, m, n, hm, hn, hclash⟩
    rw [(suffixed_eq_numbered_iff hcounta).mpr hm, (suffixed_eq_numbered_iff hcountb).mpr hn]
    exact (numbered_eq_numbered_iff hne).mpr hclash

def crowded (blocks : Nat) : Context :=
  { frames := variableFunction ["i", "i1"] :: variableBlock ["i", "i1"] ::
      List.replicate blocks (variableBlock ["i"]) }

theorem localName_crowded_distinct :
    "i" ∈ (crowded 1).locals ∧ "i1" ∈ (crowded 1).locals ∧ "i" ≠ "i1" ∧
      (crowded 1).localName "i" ≠ (crowded 1).localName "i1" := by
  have hi : "i" ∈ (crowded 1).locals := by decide
  have hi1 : "i1" ∈ (crowded 1).locals := by decide
  have hne : "i" ≠ "i1" := by decide
  refine ⟨hi, hi1, hne, fun hsame => ?_⟩
  obtain ⟨-, -, m, n, hm, hn, hclash⟩ := ((crowded 1).localName_eq_iff_of_ne hi hi1 hne).mp hsame
  have hcount : (crowded 1).locals.count "i" = 3 := by decide
  have hthree : IsLeastFree "i" (crowded 1).locals 3 :=
    ⟨Nat.le_of_eq hcount, by decide +kernel, fun k hk hlt => absurd hlt (by omega)⟩
  obtain rfl := hm.unique hthree
  rcases hclash with ⟨k, -, hk⟩ | ⟨k, hk, -⟩
  · have hlength := congrArg (fun text => text.toList.length) hk
    have hk0 := @Nat.length_toDigits_pos 10 k
    have hn0 := @Nat.length_toDigits_pos 10 n
    have hdigit : (Nat.toDigits 10 3).length = 1 := by decide
    simp at hlength
    omega
  · have hlength := congrArg (fun text => text.toList.length) hk
    simp [numbered] at hlength

/-- Twelve declarations of `i` and two of `i1` are both numbered to `i12`. -/
theorem localName_crowded_shared :
    "i" ∈ (crowded 10).locals ∧ "i1" ∈ (crowded 10).locals ∧ "i" ≠ "i1" ∧
      (crowded 10).localName "i" = (crowded 10).localName "i1" := by
  decide +kernel

end Context

end YcpToRuby.Scope
