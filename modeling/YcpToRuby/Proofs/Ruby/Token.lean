import Mathlib.Data.List.TakeWhile
import YcpToRuby.Proofs.Ruby.Quoting
import YcpToRuby.Ruby.Operator

/-!
# Tokens of an expression

An expression on one line is cut into tokens, each as long as it can be. A name that a parenthesis
follows directly is one token with it, since that makes it a call. Which of the two meanings a minus
has is left to the reader.
-/

set_option autoImplicit false

namespace YcpToRuby.Ruby

inductive Token where
  | name (text : String)
  | invoke (name : String)
  | integer (value : Nat)
  | string (text : String)
  | symbol (name : String)
  | binary (op : BinaryOp)
  | unary (op : UnaryOp)
  | question
  | colon
  | assign
  | arrow
  | dot
  | scope
  | comma
  | semicolon
  | openParen
  | closeParen
  | openBracket
  | closeBracket
  | openBrace
  | closeBrace
  deriving DecidableEq

def isNameStart (c : Char) : Bool :=
  c.isAlpha || c == '_' || 0x80 ≤ c.toNat

def isNameChar (c : Char) : Bool :=
  c.isAlphanum || c == '_' || 0x80 ≤ c.toNat

def isIdentifier : List Char → Bool
  | [] => false
  | c :: rest => isNameStart c && rest.all isNameChar

/-! ## One token -/

def nameToken (cs : List Char) : List Char → Token × List Char
  | '(' :: rest => (.invoke (String.ofList cs), rest)
  | rest => (.name (String.ofList cs), rest)

def symbolToken (cs : List Char) : List Char → Token × List Char
  | '?' :: rest => (.symbol (String.ofList (cs ++ ['?'])), rest)
  | '!' :: rest => (.symbol (String.ofList (cs ++ ['!'])), rest)
  | rest => (.symbol (String.ofList cs), rest)

def colonToken? : List Char → Option (Token × List Char)
  | ':' :: rest => some (.scope, rest)
  | '\x22' :: rest =>
    (unquote? .plain rest).map fun (text, tail) => (.symbol (String.ofList text), tail)
  | c :: rest =>
    if isNameStart c then
      some (symbolToken (c :: rest.takeWhile isNameChar) (rest.dropWhile isNameChar))
    else some (.colon, c :: rest)
  | [] => some (.colon, [])

def punctuation? : Char → List Char → Option (Token × List Char)
  | '=', '=' :: rest => some (.binary .eq, rest)
  | '=', '>' :: rest => some (.arrow, rest)
  | '=', rest => some (.assign, rest)
  | '!', '=' :: rest => some (.binary .ne, rest)
  | '!', rest => some (.unary .not, rest)
  | '~', rest => some (.unary .bitNot, rest)
  | '<', '=' :: rest => some (.binary .le, rest)
  | '<', '<' :: rest => some (.binary .shl, rest)
  | '<', rest => some (.binary .lt, rest)
  | '>', '=' :: rest => some (.binary .ge, rest)
  | '>', '>' :: rest => some (.binary .shr, rest)
  | '>', rest => some (.binary .gt, rest)
  | '+', rest => some (.binary .add, rest)
  | '-', rest => some (.binary .sub, rest)
  | '*', '*' :: rest => some (.binary .pow, rest)
  | '*', rest => some (.binary .mul, rest)
  | '/', rest => some (.binary .div, rest)
  | '%', rest => some (.binary .mod, rest)
  | '&', '&' :: rest => some (.binary .and, rest)
  | '&', rest => some (.binary .bitAnd, rest)
  | '|', '|' :: rest => some (.binary .or, rest)
  | '|', rest => some (.binary .bitOr, rest)
  | '^', rest => some (.binary .bitXor, rest)
  | '?', rest => some (.question, rest)
  | '.', rest => some (.dot, rest)
  | ',', rest => some (.comma, rest)
  | ';', rest => some (.semicolon, rest)
  | '(', rest => some (.openParen, rest)
  | ')', rest => some (.closeParen, rest)
  | '[', rest => some (.openBracket, rest)
  | ']', rest => some (.closeBracket, rest)
  | '\x7b', rest => some (.openBrace, rest)
  | '\x7d', rest => some (.closeBrace, rest)
  | _, _ => none

def token? (c : Char) (rest : List Char) : Option (Token × List Char) :=
  if isNameStart c then
    some (nameToken (c :: rest.takeWhile isNameChar) (rest.dropWhile isNameChar))
  else if c.isDigit then
    some (.integer (Number.ofDigits (c :: rest.takeWhile Char.isDigit)),
      rest.dropWhile Char.isDigit)
  else if c == '@' then
    if isIdentifier (rest.takeWhile isNameChar) then
      some (.name (String.ofList (c :: rest.takeWhile isNameChar)), rest.dropWhile isNameChar)
    else none
  else if c == '\x22' then
    (unquote? .plain rest).map fun (text, tail) => (.string (String.ofList text), tail)
  else if c == ':' then colonToken? rest
  else punctuation? c rest

theorem length_of_nameToken (cs rest : List Char) : (nameToken cs rest).2.length ≤ rest.length := by
  unfold nameToken
  split <;> simp

theorem length_of_symbolToken (cs rest : List Char) :
    (symbolToken cs rest).2.length ≤ rest.length := by
  unfold symbolToken
  split <;> simp

theorem length_of_colonToken? {cs tail : List Char} {token : Token}
    (h : colonToken? cs = some (token, tail)) : tail.length ≤ cs.length := by
  unfold colonToken? at h
  split at h
  · simp_all
  · obtain ⟨⟨text, rest⟩, hrest, heq⟩ := Option.map_eq_some_iff.mp h
    obtain ⟨-, rfl⟩ := Prod.mk.inj heq
    have hlt := length_of_unquote? hrest
    simp only [List.length_cons]
    omega
  · rename_i c rest _ _
    split at h
    · have hle := length_of_symbolToken (c :: rest.takeWhile isNameChar) (rest.dropWhile isNameChar)
      have hdrop := (List.dropWhile_suffix isNameChar (l := rest)).length_le
      rw [Option.some.inj h] at hle
      exact Nat.le_succ_of_le (Nat.le_trans hle hdrop)
    · simp_all
  · simp_all

theorem length_of_punctuation? {c : Char} {rest tail : List Char} {token : Token}
    (h : punctuation? c rest = some (token, tail)) : tail.length ≤ rest.length := by
  unfold punctuation? at h
  split at h <;> simp_all

theorem length_of_token? {c : Char} {rest tail : List Char} {token : Token}
    (h : token? c rest = some (token, tail)) : tail.length ≤ rest.length := by
  have hdrop (p : Char → Bool) : (rest.dropWhile p).length ≤ rest.length :=
    (List.dropWhile_suffix p).length_le
  unfold token? at h
  split at h
  · have hle := length_of_nameToken (c :: rest.takeWhile isNameChar) (rest.dropWhile isNameChar)
    rw [Option.some.inj h] at hle
    exact Nat.le_trans hle (hdrop isNameChar)
  split at h
  · obtain ⟨-, rfl⟩ := Prod.mk.inj (Option.some.inj h)
    exact hdrop Char.isDigit
  split at h
  · split at h
    · obtain ⟨-, rfl⟩ := Prod.mk.inj (Option.some.inj h)
      exact hdrop isNameChar
    · cases h
  split at h
  · obtain ⟨⟨text, tail⟩, hrest, heq⟩ := Option.map_eq_some_iff.mp h
    obtain ⟨-, rfl⟩ := Prod.mk.inj heq
    exact Nat.le_of_lt (length_of_unquote? hrest)
  split at h
  · exact length_of_colonToken? h
  · exact length_of_punctuation? h

/-! ## All tokens -/

def tokens? : List Char → Option (List Token)
  | [] => some []
  | c :: rest =>
    if c == ' ' then tokens? rest
    else
      match _h : token? c rest with
      | none => none
      | some (token, tail) => (tokens? tail).map (token :: ·)
termination_by cs => cs.length
decreasing_by
  · simp
  · have hle := length_of_token? _h
    simp only [List.length_cons]
    omega

theorem tokens?_nil : tokens? [] = some [] := by
  rw [tokens?]

theorem tokens?_space (rest : List Char) : tokens? (' ' :: rest) = tokens? rest := by
  rw [tokens?]
  rfl

theorem tokens?_cons {c : Char} {rest tail : List Char} {token : Token}
    (h : token? c rest = some (token, tail)) :
    tokens? (c :: rest) = (tokens? tail).map (token :: ·) := by
  have hspace : (c == ' ') = false := by
    rw [beq_eq_false_iff_ne]
    rintro rfl
    cases h
  rw [tokens?]
  simp only [hspace, Bool.false_eq_true, if_false]
  split
  · simp_all
  · simp_all

/-! ## Spellings -/

def endsToken (c : Char) : Bool :=
  [' ', ')', ']', ',', ';', '.', ':'].contains c

def Ends (rest : List Char) : Prop :=
  ∀ c ∈ rest.head?, endsToken c = true

theorem of_endsToken {c : Char} (h : endsToken c = true) :
    isNameChar c = false ∧ c.isDigit = false ∧ c ≠ '(' ∧ c ≠ '?' ∧ c ≠ '!' := by
  simp only [endsToken, List.contains_eq_mem, List.mem_cons, List.not_mem_nil, or_false,
    decide_eq_true_eq] at h
  rcases h with rfl | rfl | rfl | rfl | rfl | rfl | rfl <;> decide

/-- A run of characters that ends in front of `rest`. -/
theorem span_append {p : Char → Bool} {cs rest : List Char} (hcs : cs.all p = true)
    (hrest : ∀ c ∈ rest.head?, p c = false) :
    (cs ++ rest).takeWhile p = cs ∧ (cs ++ rest).dropWhile p = rest := by
  have hcs' : ∀ c ∈ cs, p c = true := List.all_eq_true.mp hcs
  rw [List.takeWhile_append_of_pos hcs', List.dropWhile_append_of_pos hcs']
  cases rest with
  | nil => simp
  | cons c rest => simp [hrest c rfl]

theorem Ends.nameChar {rest : List Char} (h : Ends rest) :
    ∀ c ∈ rest.head?, isNameChar c = false :=
  fun c hc => (of_endsToken (h c hc)).1

theorem isNameChar_of_isNameStart {c : Char} (h : isNameStart c = true) : isNameChar c = true := by
  simp only [isNameStart, isNameChar, Char.isAlphanum, Bool.or_eq_true] at h ⊢
  rcases h with (h | h) | h
  · exact Or.inl (Or.inl (Or.inl h))
  · exact Or.inl (Or.inr h)
  · exact Or.inr h

theorem isNameStart_of_isDigit {c : Char} (h : c.isDigit = true) : isNameStart c = false := by
  have hle : c.toNat ≤ 57 := (Char.isDigit_iff_toNat.mp h).2
  have hbelow {d : Char} (hd : 57 < d.val.toNat) : ¬ d.val ≤ c.val := by
    rw [UInt32.le_iff_toNat_le]
    exact Nat.not_le_of_lt (Nat.lt_of_le_of_lt hle hd)
  have hupper : c.isUpper = false := decide_eq_false fun hc => @hbelow 'A' (by decide) hc.1
  have hlower : c.isLower = false :=
    Bool.and_eq_false_imp.mpr fun hc => absurd (of_decide_eq_true hc) (@hbelow 'a' (by decide))
  have halpha : c.isAlpha = false := Bool.or_eq_false_iff.mpr ⟨hupper, hlower⟩
  have hne : c ≠ '_' := by
    rintro rfl
    exact absurd h (by decide)
  have hascii : ¬ 0x80 ≤ c.toNat := by omega
  simp [isNameStart, halpha, hne, hascii]

def Spells (cs : List Char) (token : Token) (rest : List Char) : Prop :=
  ∃ c tail, cs = c :: tail ∧ token? c (tail ++ rest) = some (token, rest)

theorem Spells.tokens? {cs rest : List Char} {token : Token} (h : Spells cs token rest) :
    tokens? (cs ++ rest) = (tokens? rest).map (token :: ·) := by
  obtain ⟨c, tail, rfl, htoken⟩ := h
  exact tokens?_cons htoken

section Names

variable {cs rest : List Char}

theorem spells_name (h : isIdentifier cs = true) (hrest : Ends rest) :
    Spells cs (.name (String.ofList cs)) rest := by
  cases cs with
  | nil => cases h
  | cons c cs =>
    obtain ⟨hc, hcs⟩ := Bool.and_eq_true_iff.mp h
    obtain ⟨htake, hdrop⟩ := span_append hcs hrest.nameChar
    have hname : nameToken (c :: cs) rest = (.name (String.ofList (c :: cs)), rest) := by
      unfold nameToken
      split
      · exact absurd rfl (of_endsToken (hrest _ rfl)).2.2.1
      · rfl
    exact ⟨c, cs, rfl, by simp [token?, hc, htake, hdrop, hname]⟩

theorem spells_invoke (h : isIdentifier cs = true) :
    Spells (cs ++ ['(']) (.invoke (String.ofList cs)) rest := by
  cases cs with
  | nil => cases h
  | cons c cs =>
    obtain ⟨hc, hcs⟩ := Bool.and_eq_true_iff.mp h
    obtain ⟨htake, hdrop⟩ := @span_append isNameChar cs ('(' :: rest) hcs (by simp; decide)
    exact ⟨c, cs ++ ['('], rfl, by simp [token?, hc, htake, hdrop, nameToken]⟩

theorem spells_at (h : isIdentifier cs = true) (hrest : Ends rest) :
    Spells ('@' :: cs) (.name (String.ofList ('@' :: cs))) rest := by
  have hcs : cs.all isNameChar = true := by
    cases cs with
    | nil => rfl
    | cons c cs =>
      obtain ⟨hc, hcs⟩ := Bool.and_eq_true_iff.mp h
      simpa [isNameChar_of_isNameStart hc] using hcs
  obtain ⟨htake, hdrop⟩ := span_append hcs hrest.nameChar
  have hat : isNameStart '@' = false ∧ Char.isDigit '@' = false := by decide
  exact ⟨'@', cs, rfl, by simp [token?, hat, htake, hdrop, h]⟩

end Names

section Literals

variable {rest : List Char}

theorem spells_integer (n : Nat) (hrest : Ends rest) :
    Spells (Nat.toDigits 10 n) (.integer n) rest := by
  obtain ⟨c, cs, hdigits⟩ := List.exists_cons_of_ne_nil (@Nat.toDigits_ne_nil n 10)
  have hall : (c :: cs).all Char.isDigit = true := by
    rw [← hdigits, List.all_eq_true]
    exact fun d hd => Nat.isDigit_of_mem_toDigits (by decide) (by decide) hd
  have hvalue : Number.ofDigits (c :: cs) = n := by
    rw [← hdigits]
    exact Nat.ofDigitChars_ten_toDigits
  obtain ⟨hc, hcs⟩ := Bool.and_eq_true_iff.mp hall
  obtain ⟨htake, hdrop⟩ :=
    @span_append Char.isDigit cs rest hcs fun c hc => (of_endsToken (hrest c hc)).2.1
  exact ⟨c, cs, hdigits, by
    simp [token?, isNameStart_of_isDigit hc, hc, htake, hdrop, hvalue]⟩

theorem spells_string (text : List Char) :
    Spells ('\x22' :: quotedBody text ++ ['\x22']) (.string (String.ofList text)) rest := by
  have hquote : isNameStart '\x22' = false ∧ Char.isDigit '\x22' = false := by decide
  exact ⟨'\x22', _, rfl, by simp [token?, hquote, unquote?_quotedBody]⟩

theorem spells_quotedSymbol (text : List Char) :
    Spells (':' :: '\x22' :: quotedBody text ++ ['\x22']) (.symbol (String.ofList text)) rest := by
  have hcolon : isNameStart ':' = false ∧ Char.isDigit ':' = false := by decide
  exact ⟨':', _, rfl, by simp [token?, hcolon, colonToken?, unquote?_quotedBody]⟩

theorem colonToken?_name {c : Char} (hc : isNameStart c = true) (cs : List Char) :
    colonToken? (c :: cs) =
      some (symbolToken (c :: cs.takeWhile isNameChar) (cs.dropWhile isNameChar)) := by
  unfold colonToken?
  split
  · rename_i h
    obtain ⟨rfl, -⟩ := List.cons.inj h
    exact absurd hc (by decide)
  · rename_i h
    obtain ⟨rfl, -⟩ := List.cons.inj h
    exact absurd hc (by decide)
  · rename_i h
    obtain ⟨rfl, rfl⟩ := List.cons.inj h
    simp [hc]
  · rename_i h
    cases h

theorem dropMark_cases (cs : List Char) :
    (∃ mark, (mark = '?' ∨ mark = '!') ∧ cs = dropMark cs ++ [mark]) ∨ cs = dropMark cs := by
  rcases List.eq_nil_or_concat cs with rfl | ⟨init, last, rfl⟩
  · exact Or.inr rfl
  · rw [List.concat_eq_append]
    by_cases hlast : last = '?' ∨ last = '!'
    · refine Or.inl ⟨last, hlast, ?_⟩
      rcases hlast with rfl | rfl <;> simp [dropMark]
    · obtain ⟨hquestion, hbang⟩ := not_or.mp hlast
      refine Or.inr ?_
      unfold dropMark
      split
      · simp_all
      · simp_all
      · rfl

/-- The characters of a plain symbol are an identifier and its mark. -/
theorem isIdentifier_dropMark {name : String} (h : isPlainSymbol name = true) :
    isIdentifier (dropMark name.toList) = true := by
  unfold isPlainSymbol at h
  split at h
  · cases h
  · rename_i c cs heq
    obtain ⟨hc, hcs⟩ := Bool.and_eq_true_iff.mp h
    rw [heq]
    refine Bool.and_eq_true_iff.mpr ⟨?_, ?_⟩
    · simp [isNameStart, hc]
    · rw [List.all_eq_true] at hcs ⊢
      intro d hd
      simp [isNameChar, hcs d hd]

theorem spells_plainSymbol {name : String} (h : isPlainSymbol name = true) (hrest : Ends rest) :
    Spells (':' :: name.toList) (.symbol name) rest := by
  have hcolon : isNameStart ':' = false ∧ Char.isDigit ':' = false := by decide
  have hbase := isIdentifier_dropMark h
  obtain ⟨c, cs, hcs⟩ : ∃ c cs, dropMark name.toList = c :: cs := by
    cases hdrop : dropMark name.toList with
    | nil => simp [hdrop, isIdentifier] at hbase
    | cons c cs => exact ⟨c, cs, rfl⟩
  rw [hcs] at hbase
  obtain ⟨hc, hall⟩ := Bool.and_eq_true_iff.mp hbase
  refine ⟨':', name.toList, rfl, ?_⟩
  rcases dropMark_cases name.toList with ⟨mark, hmark, hname⟩ | hname
  · obtain ⟨htake, hdrop⟩ := @span_append isNameChar cs (mark :: rest) hall
      (by rcases hmark with rfl | rfl <;> simp <;> decide)
    have htoken : symbolToken (c :: cs) (mark :: rest) = (.symbol name, rest) := by
      rw [hcs] at hname
      rcases hmark with rfl | rfl <;> simp [symbolToken, ← hname]
    rw [hname, hcs]
    simp [token?, hcolon, colonToken?_name hc, htake, hdrop, htoken]
  · obtain ⟨htake, hdrop⟩ := span_append hall hrest.nameChar
    have htoken : symbolToken (c :: cs) rest = (.symbol name, rest) := by
      unfold symbolToken
      split
      · exact absurd rfl (of_endsToken (hrest _ rfl)).2.2.2.1
      · exact absurd rfl (of_endsToken (hrest _ rfl)).2.2.2.2
      · rw [← hcs, ← hname, String.ofList_toList]
    rw [hname, hcs]
    simp [token?, hcolon, colonToken?_name hc, htake, hdrop, htoken]

theorem spells_symbol (name : String) (hrest : Ends rest) :
    Spells (symbolText name).toList (.symbol name) rest := by
  unfold symbolText
  split
  · simpa using spells_plainSymbol ‹_› hrest
  · simpa [quoted] using @spells_quotedSymbol rest name.toList

end Literals

theorem spells_binary (op : BinaryOp) (rest : List Char) :
    Spells op.symbol.toList (.binary op) (' ' :: rest) := by
  cases op <;> exact ⟨_, _, rfl, rfl⟩

theorem spells_bang {cs : List Char} (h : ∀ c ∈ cs.head?, c ≠ '=') :
    Spells ['!'] (.unary .not) cs := by
  have htoken : token? '!' cs = punctuation? '!' cs := rfl
  refine ⟨'!', [], rfl, ?_⟩
  rw [List.nil_append, htoken]
  unfold punctuation?
  split <;> simp_all

theorem token?_equals (cs : List Char) :
    ∃ token tail, token? '=' cs = some (token, tail) ∧
      (token = .binary .eq ∨ token = .arrow ∨ token = .assign) := by
  have htoken : token? '=' cs = punctuation? '=' cs := rfl
  rw [htoken]
  unfold punctuation?
  split <;> simp_all

end YcpToRuby.Ruby
