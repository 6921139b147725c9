import Mathlib.Data.List.Forall2
import YcpToRuby.Proofs.Ruby.OneLine

/-!
# Moving text to the right

A text is moved by putting spaces in front of every line that is not empty. Whether spaces are due
depends on where a line begins, so a text is moved piece by piece, and each piece says whether the
next one begins a line. The smallest pieces are words: names, keywords, signs and literals.

A text that depends on the level of indentation moves if its form at more levels is its form at
fewer levels, moved. Texts that move are put together from pieces that do.
-/

set_option autoImplicit false

namespace YcpToRuby.Ruby

def indentedLine (levels : Nat) (line : List Char) : List Char :=
  if line.isEmpty then [] else List.replicate (2 * levels) ' ' ++ line

def indented (levels : Nat) (text : String) : String :=
  String.ofList (['\n'].intercalate ((text.toList.splitOn '\n').map (indentedLine levels)))

def move (levels : Nat) : Bool → List Char → List Char
  | _, [] => []
  | fresh, c :: rest =>
    if c = '\n' then c :: move levels true rest
    else (if fresh then List.replicate (2 * levels) ' ' else []) ++ c :: move levels false rest

def leavesFresh : Bool → List Char → Bool
  | fresh, [] => fresh
  | _, c :: rest => leavesFresh (decide (c = '\n')) rest

section Characters

variable {levels : Nat}

-- Inside a line the first part of the text has its spaces already; both forms are needed at once,
-- because a newline leads from one to the other.
theorem move_eq_intercalate (text : List Char) :
    ∃ first others, text.splitOn '\n' = first :: others ∧
      move levels false text = ['\n'].intercalate (first :: others.map (indentedLine levels)) ∧
      move levels true text =
        ['\n'].intercalate (indentedLine levels first :: others.map (indentedLine levels)) := by
  induction text with
  | nil => exact ⟨[], [], by simp, by simp [move], by simp [move, indentedLine]⟩
  | cons c rest ih =>
    obtain ⟨first, others, hsplit, hinside, hfresh⟩ := ih
    by_cases hc : c = '\n'
    · subst hc
      refine ⟨[], first :: others, by simp [List.splitOn_cons_eq_if_modifyHead, hsplit], ?_, ?_⟩
      · simp [move, hfresh, List.intercalate_cons_cons]
      · simp [move, hfresh, indentedLine, List.intercalate_cons_cons]
    · refine ⟨c :: first, others, ?_, ?_, ?_⟩
      · simp [List.splitOn_cons_eq_if_modifyHead, hsplit, hc]
      · cases others with
        | nil => simp [move, hc, hinside]
        | cons next others => simp [move, hc, hinside, List.intercalate_cons_cons]
      · cases others with
        | nil => simp [move, hc, hinside, indentedLine]
        | cons next others => simp [move, hc, hinside, indentedLine, List.intercalate_cons_cons]

theorem indented_eq_move (text : String) :
    indented levels text = String.ofList (move levels true text.toList) := by
  obtain ⟨first, others, hsplit, -, hfresh⟩ := @move_eq_intercalate levels text.toList
  rw [indented, hsplit, hfresh, List.map_cons]

theorem move_append (fresh : Bool) (front back : List Char) :
    move levels fresh (front ++ back) =
      move levels fresh front ++ move levels (leavesFresh fresh front) back := by
  induction front generalizing fresh with
  | nil => rfl
  | cons c front ih =>
    by_cases hc : c = '\n'
    · simp [move, leavesFresh, hc, ih]
    · simp [move, leavesFresh, hc, ih]

theorem leavesFresh_append (fresh : Bool) (front back : List Char) :
    leavesFresh fresh (front ++ back) = leavesFresh (leavesFresh fresh front) back := by
  induction front generalizing fresh with
  | nil => rfl
  | cons c front ih => exact ih _

theorem move_of_not_mem {text : List Char} (h : '\n' ∉ text) :
    move levels false text = text ∧ leavesFresh false text = false := by
  induction text with
  | nil => exact ⟨rfl, rfl⟩
  | cons c rest ih =>
    obtain ⟨hc, hrest⟩ : c ≠ '\n' ∧ '\n' ∉ rest := by simpa [eq_comm] using h
    simp [move, leavesFresh, hc, ih hrest]

end Characters

def Begins (text : String) : Prop :=
  ∃ c rest, text.toList = c :: rest ∧ c ≠ '\n'

theorem Begins.append {a : String} (h : Begins a) (b : String) : Begins (a ++ b) := by
  obtain ⟨c, rest, hlist, hc⟩ := h
  exact ⟨c, rest ++ b.toList, by simp [hlist], hc⟩

structure IsWord (text : String) : Prop where
  nonempty : text ≠ ""
  unbroken : Unbroken text

instance (text : String) : Decidable (IsWord text) :=
  decidable_of_iff (text ≠ "" ∧ Unbroken text) ⟨fun h => ⟨h.1, h.2⟩, fun h => ⟨h.1, h.2⟩⟩

theorem IsWord.begins {text : String} (h : IsWord text) : Begins text := by
  obtain ⟨c, rest, hlist⟩ := List.exists_cons_of_ne_nil fun hnil =>
    h.nonempty (String.toList_eq_nil_iff.mp hnil)
  refine ⟨c, rest, hlist, ?_⟩
  rintro rfl
  exact h.unbroken (by simp [hlist])

theorem IsWord.after {a b : String} (hb : IsWord b) (ha : Unbroken a) : IsWord (a ++ b) :=
  ⟨by simp [hb.nonempty], unbroken_append.mpr ⟨ha, hb.unbroken⟩⟩

theorem unbroken_indent (level : Nat) : Unbroken (indent level) := by
  simp [Unbroken, indent]

theorem indent_add (levels level : Nat) :
    indent (levels + level) = indent levels ++ indent level := by
  simp only [indent, Nat.mul_add, ← String.ofList_append, List.replicate_append_replicate]

theorem Begins.indent {text : String} (h : Begins text) (level : Nat) :
    Begins (indent level ++ text) := by
  by_cases hlevel : level = 0
  · subst hlevel
    exact (String.empty_append : "" ++ text = text) ▸ h
  · refine (IsWord.begins ⟨fun hempty => hlevel ?_, unbroken_indent level⟩).append text
    have hlength : 2 * level = 0 := by simpa [Ruby.indent] using congrArg String.length hempty
    omega

/-! ## Literals -/

section Literals

open Number

theorem unbroken_ofList {cs : List Char} : Unbroken (String.ofList cs) ↔ '\n' ∉ cs := by
  simp [Unbroken]

theorem unbroken_toString (n : Int) : Unbroken (toString n) := by
  cases n with
  | ofNat n =>
    change Unbroken (toString n)
    simpa [Unbroken] using newline_not_mem_toDigits n
  | negSucc n =>
    change Unbroken ("-" ++ toString (n + 1))
    simpa [Unbroken] using newline_not_mem_toDigits (n + 1)

theorem newline_not_mem_significantDigits (n : Nat) : '\n' ∉ significantDigits n := by
  intro h
  have hdigits := (List.dropWhile_suffix _).subset (List.mem_reverse.mp h)
  exact newline_not_mem_toDigits n (by simpa using hdigits)

theorem isWord_positional {digits : List Char} (h : '\n' ∉ digits) (point : Int) :
    IsWord (positional digits point) := by
  have htake (n : Nat) : '\n' ∉ digits.take n := fun hmem => h (List.mem_of_mem_take hmem)
  have hdrop (n : Nat) : '\n' ∉ digits.drop n := fun hmem => h (List.mem_of_mem_drop hmem)
  unfold positional
  split_ifs
  · exact ⟨by simp, by simp [Unbroken, zeros, h]⟩
  · exact ⟨by simp, by simp [Unbroken, zeros, h]⟩
  · exact ⟨by simp, by simp [Unbroken, htake, hdrop]⟩

theorem isWord_exponential {digits : List Char} (h : '\n' ∉ digits) (plusSign : Bool)
    (point : Int) : IsWord (exponential plusSign digits point) := by
  have htake : '\n' ∉ digits.take 1 := fun hmem => h (List.mem_of_mem_take hmem)
  have hdrop : '\n' ∉ digits.drop 1 := fun hmem => h (List.mem_of_mem_drop hmem)
  have htail : Unbroken (if (String.ofList (digits.drop 1)).isEmpty then ""
      else "." ++ String.ofList (digits.drop 1)) := by
    split_ifs
    · decide
    · exact unbroken_append.mpr ⟨by decide, unbroken_ofList.mpr hdrop⟩
  have hsign : Unbroken (if plusSign && 0 < point then "+" else "") := by
    split_ifs <;> decide
  refine ⟨by simp [exponential], ?_⟩
  simp only [exponential, unbroken_append, unbroken_ofList]
  exact ⟨⟨⟨⟨htake, htail⟩, by decide⟩, hsign⟩, unbroken_toString _⟩

theorem isWord_write (format : Notation) (negative : Bool) (significand : Nat) (exponent : Int) :
    IsWord (format.write negative significand exponent) := by
  have hsign : Unbroken (if negative then "-" else "") := by split_ifs <;> decide
  have hzero : IsWord "0.0" := by decide
  have hdigits := newline_not_mem_significantDigits
  unfold Notation.write
  generalize (if negative then "-" else "") = sign at hsign
  dsimp only
  split_ifs
  · exact hzero.after hsign
  · exact (isWord_positional (hdigits _) _).after hsign
  · exact (isWord_exponential (hdigits _) _ _).after hsign

theorem isWord_floatText (value : Binary64) : IsWord (floatText value) := by
  cases value with
  | nan negative =>
    change IsWord "NaN"
    decide
  | infinite negative => cases negative <;> decide
  | finite negative significand exponent => exact isWord_write ..

theorem isWord_text (value : Literal) : IsWord value.text := by
  by_cases h : value.isExact = true
  · obtain ⟨⟨c, cs, hlist, -⟩, hbreak⟩ := (oneLine_literal h).isLineText
    have htext : (Node.literal value).chunk 0 = value.text := rfl
    rw [htext] at hlist hbreak
    refine ⟨fun hempty => ?_, hbreak⟩
    rw [hempty] at hlist
    cases hlist
  · cases value with
    | float value => exact isWord_floatText value
    | _ => exact absurd rfl h

end Literals

/-! ## Two texts -/

structure Moved (levels : Nat) (fresh after : Bool) (text moved : String) : Prop where
  eq_move : moved.toList = move levels fresh text.toList
  leaves : leavesFresh fresh text.toList = after

namespace Moved

variable {levels : Nat} {fresh between after : Bool} {a b a' b' : String}

theorem append (ha : Moved levels fresh between a a') (hb : Moved levels between after b b') :
    Moved levels fresh after (a ++ b) (a' ++ b') := by
  constructor
  · rw [String.toList_append, String.toList_append, move_append, ha.eq_move, ha.leaves, hb.eq_move]
  · rw [String.toList_append, leavesFresh_append, ha.leaves, hb.leaves]

theorem empty : Moved levels fresh fresh "" "" := by
  constructor <;> simp [move, leavesFresh]

theorem newline : Moved levels fresh true "\n" "\n" := by
  constructor <;> simp [move, leavesFresh]

theorem unbroken (h : Unbroken a) : Moved levels false false a a :=
  ⟨(move_of_not_mem h).1.symm, (@move_of_not_mem levels _ h).2⟩

/-- What begins a line takes the spaces in front. -/
theorem freshLine (h : Moved levels false after a a') (hbegins : Begins a) :
    Moved levels true after a (indent levels ++ a') := by
  obtain ⟨c, rest, hlist, hc⟩ := hbegins
  have hmove := h.eq_move
  have hleaves := h.leaves
  rw [hlist] at hmove hleaves
  constructor
  · rw [String.toList_append, hmove, hlist]
    simp [move, hc, Ruby.indent]
  · rwa [hlist]

/-- A line takes the new levels in front of its own. -/
theorem indent (h : Moved levels false after a a') (hbegins : Begins a) (level : Nat) :
    Moved levels true after (indent level ++ a) (Ruby.indent (levels + level) ++ a') := by
  rw [indent_add, String.append_assoc]
  exact ((unbroken (unbroken_indent level)).append h).freshLine (hbegins.indent level)

theorem eq_indented (h : Moved levels true after a a') : a' = indented levels a := by
  rw [indented_eq_move, ← h.eq_move, String.ofList_toList]

end Moved

/-! ## Texts that depend on the level -/

def Moves (fresh after : Bool) (text : Nat → String) : Prop :=
  ∀ levels level, Moved levels fresh after (text level) (text (levels + level))

structure MovesFrom (after : Bool) (text : Nat → String) : Prop where
  begins : ∀ level, Begins (text level)
  moves : Moves false after text

section Pieces

variable {fresh between after : Bool} {s t : Nat → String} {text : String}

theorem Moves.append (hs : Moves fresh between s) (ht : Moves between after t) :
    Moves fresh after fun level => s level ++ t level :=
  fun levels level => (hs levels level).append (ht levels level)

theorem moves_empty : Moves fresh fresh fun _ => "" :=
  fun _ _ => .empty

theorem moves_newline : Moves fresh true fun _ => "\n" :=
  fun _ _ => .newline

theorem moves_unbroken (h : Unbroken text) : Moves false false fun _ => text :=
  fun _ _ => .unbroken h

/-- A text one level deeper. -/
theorem Moves.deeper (h : Moves fresh after t) : Moves fresh after fun level => t (level + 1) :=
  fun levels level => h levels (level + 1)

theorem MovesFrom.append (hs : MovesFrom between s) (ht : Moves between after t) :
    MovesFrom after fun level => s level ++ t level :=
  ⟨fun level => (hs.begins level).append _, hs.moves.append ht⟩

theorem IsWord.movesFrom (h : IsWord text) : MovesFrom false fun _ => text :=
  ⟨fun _ => h.begins, moves_unbroken h.unbroken⟩

theorem MovesFrom.indent (h : MovesFrom after t) :
    Moves true after fun level => indent level ++ t level :=
  fun levels level => (h.moves levels level).indent (h.begins level) level

/-- A line that follows whole lines. -/
theorem Moves.line (hs : Moves fresh true s) (ht : MovesFrom after t) :
    Moves fresh after fun level => s level ++ Ruby.indent level ++ t level := by
  simp only [String.append_assoc]
  exact hs.append ht.indent

theorem MovesFrom.line (hs : MovesFrom true s) (ht : MovesFrom after t) :
    MovesFrom after fun level => s level ++ Ruby.indent level ++ t level :=
  ⟨fun level => ((hs.begins level).append _).append _, hs.moves.line ht⟩

end Pieces

/-! ## Lists of texts -/

def MovesTexts (texts : Nat → List String) : Prop :=
  ∀ levels level,
    List.Forall₂ (Moved levels false false) (texts level) (texts (levels + level))

theorem movesTexts_nil : MovesTexts fun _ => [] :=
  fun _ _ => .nil

theorem MovesTexts.cons {text : Nat → String} {texts : Nat → List String}
    (h : Moves false false text) (hrest : MovesTexts texts) :
    MovesTexts fun level => text level :: texts level :=
  fun levels level => .cons (h levels level) (hrest levels level)

theorem moved_intercalate {levels : Nat} {gap : String} {texts texts' : List String}
    (hgap : Unbroken gap) (h : List.Forall₂ (Moved levels false false) texts texts') :
    Moved levels false false (gap.intercalate texts) (gap.intercalate texts') := by
  induction h with
  | nil => exact .empty
  | cons hfirst hrest ih =>
    cases hrest with
    | nil => simpa using hfirst
    | cons hnext hrest =>
      rw [String.intercalate_cons_cons, String.intercalate_cons_cons]
      exact (hfirst.append (.unbroken hgap)).append ih

theorem MovesTexts.intercalate {texts : Nat → List String} (h : MovesTexts texts) {gap : String}
    (hgap : Unbroken gap) : Moves false false fun level => gap.intercalate (texts level) :=
  fun levels level => moved_intercalate hgap (h levels level)

end YcpToRuby.Ruby
