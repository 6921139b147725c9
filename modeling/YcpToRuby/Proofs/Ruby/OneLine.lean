import YcpToRuby.Proofs.Ruby.RoundTrip

/-!
# Expressions stand on one line

The text of an expression has no newline, does not begin with a space, and is the same at every
level of indentation. What binds tightest begins with a name, a literal or an opening bracket.
-/

set_option autoImplicit false

namespace YcpToRuby.Ruby

/-! ## Texts without newlines -/

def Unbroken (text : String) : Prop :=
  '\n' ∉ text.toList

instance (text : String) : Decidable (Unbroken text) :=
  inferInstanceAs (Decidable ('\n' ∉ text.toList))

@[simp]
theorem unbroken_append {a b : String} : Unbroken (a ++ b) ↔ Unbroken a ∧ Unbroken b := by
  simp [Unbroken]

theorem unbroken_intercalate {gap : String} {texts : List String} (hgap : Unbroken gap)
    (h : ∀ text ∈ texts, Unbroken text) : Unbroken (gap.intercalate texts) := by
  induction texts with
  | nil => simp [Unbroken]
  | cons text texts ih =>
    have hrest := ih fun x hx => h x (List.mem_cons_of_mem _ hx)
    cases texts with
    | nil => simpa using h
    | cons next texts =>
      rw [String.intercalate_cons_cons, unbroken_append, unbroken_append]
      exact ⟨⟨h text List.mem_cons_self, hgap⟩, hrest⟩

theorem unbroken_of_forall {text : String} {p : Char → Bool} (h : text.toList.all p = true)
    (hp : p '\n' = false) : Unbroken text := by
  intro hmem
  rw [List.all_eq_true.mp h _ hmem] at hp
  cases hp

theorem all_of_isIdentifier {cs : List Char} (h : isIdentifier cs = true) :
    cs.all isNameChar = true := by
  cases cs with
  | nil => rfl
  | cons c cs =>
    obtain ⟨hc, hcs⟩ := Bool.and_eq_true_iff.mp h
    rw [List.all_cons, isNameChar_of_isNameStart hc, hcs]
    rfl

theorem unbroken_of_isIdentifier {name : String} (h : isIdentifier name.toList = true) :
    Unbroken name :=
  unbroken_of_forall (all_of_isIdentifier h) (by decide)

theorem unbroken_quoted (text : String) : Unbroken (quoted text) := fun hmem =>
  absurd (isControl_of_mem_quoted hmem) (by decide)

theorem unbroken_symbolText (name : String) : Unbroken (symbolText name) := by
  have hcolon : Unbroken ":" := by decide
  unfold symbolText
  split
  · rename_i h
    have hbase := all_of_isIdentifier (isIdentifier_dropMark h)
    refine unbroken_append.mpr ⟨hcolon, fun hmem => ?_⟩
    have hmark : '\n' ∈ dropMark name.toList := by
      rcases dropMark_cases name.toList with ⟨mark, hmark, heq⟩ | heq
      · rw [heq, List.mem_append] at hmem
        rcases hmark with rfl | rfl <;> simpa using hmem
      · rwa [← heq]
    exact absurd (List.all_eq_true.mp hbase _ hmark) (by decide)
  · exact unbroken_append.mpr ⟨hcolon, unbroken_quoted name⟩

theorem newline_not_mem_toDigits (n : Nat) : '\n' ∉ Nat.toDigits 10 n := fun h =>
  absurd (Nat.isDigit_of_mem_toDigits (by decide) (by decide) h) (by decide)

/-! ## The first character -/

def opensOperand (c : Char) : Bool :=
  isNameStart c || c.isDigit || ['@', '\x22', '(', '[', '\x7b'].contains c

inductive Opens : List Char → Prop
  | plain {c : Char} {cs : List Char} (h : opensOperand c = true) : Opens (c :: cs)
  | symbol {c : Char} {cs : List Char} (h : c = '\x22' ∨ isNameStart c = true) :
      Opens (':' :: c :: cs)

theorem Opens.append {cs : List Char} (h : Opens cs) (rest : List Char) : Opens (cs ++ rest) := by
  cases h with
  | plain h => exact .plain h
  | symbol h => exact .symbol h

theorem Opens.of_append_space {cs rest : List Char} (h : Opens (cs ++ ' ' :: rest)) :
    Opens cs := by
  have hspace : opensOperand ' ' = false ∧ isNameStart ' ' = false := by decide
  cases cs with
  | nil =>
    cases h with
    | plain h => simp [hspace.1] at h
  | cons c cs =>
    cases hlist : cs ++ ' ' :: rest with
    | nil => simp at hlist
    | cons d ds =>
      rw [List.cons_append, hlist] at h
      cases h with
      | plain h => exact .plain h
      | symbol h =>
        cases cs with
        | nil =>
          obtain ⟨rfl, -⟩ := List.cons.inj hlist
          simp [hspace.2] at h
        | cons e es =>
          obtain ⟨rfl, -⟩ := List.cons.inj hlist
          exact .symbol h

theorem opens_of_isIdentifier {cs : List Char} (h : isIdentifier cs = true) : Opens cs := by
  cases cs with
  | nil => cases h
  | cons c cs =>
    obtain ⟨hc, -⟩ := Bool.and_eq_true_iff.mp h
    exact .plain (by simp [opensOperand, hc])

theorem opens_symbolText (name : String) : Opens (symbolText name).toList := by
  unfold symbolText
  split
  · rename_i h
    have hbase := isIdentifier_dropMark h
    have hname : ∃ cs, name.toList = dropMark name.toList ++ cs := by
      rcases dropMark_cases name.toList with ⟨mark, -, heq⟩ | heq
      · exact ⟨[mark], heq⟩
      · exact ⟨[], by simpa using heq⟩
    obtain ⟨cs, hname⟩ := hname
    cases hdrop : dropMark name.toList with
    | nil =>
      rw [hdrop] at hbase
      cases hbase
    | cons c ds =>
      rw [hdrop] at hbase hname
      rw [String.toList_append, hname]
      exact .symbol (Or.inr (Bool.and_eq_true_iff.mp hbase).1)
  · have hquoted : (quoted name).toList = '\x22' :: (quotedBody name.toList ++ ['\x22']) := by
      simp [quoted]
    rw [String.toList_append, hquoted]
    exact .symbol (Or.inl rfl)

structure IsLineText (text : String) : Prop where
  head : ∃ c cs, text.toList = c :: cs ∧ c ≠ ' ' ∧ c ≠ '#'
  unbroken : Unbroken text

theorem IsLineText.append {a b : String} (ha : IsLineText a) (hb : Unbroken b) :
    IsLineText (a ++ b) := by
  obtain ⟨c, cs, heq, hne⟩ := ha.head
  exact ⟨⟨c, cs ++ b.toList, by simp [heq], hne⟩, unbroken_append.mpr ⟨ha.unbroken, hb⟩⟩

theorem Opens.isLineText {text : String} (h : Opens text.toList) (hbreak : Unbroken text) :
    IsLineText text := by
  refine ⟨?_, hbreak⟩
  generalize text.toList = cs at h
  cases h with
  | @plain c cs h =>
    refine ⟨c, cs, rfl, ?_, ?_⟩
    · rintro rfl
      exact absurd h (by decide)
    · rintro rfl
      exact absurd h (by decide)
  | @symbol c cs h => exact ⟨':', c :: cs, rfl, by decide⟩

/-! ## Operands -/

structure OneLine (node : Node) : Prop where
  inline_eq : ∀ chunk, inlineText node chunk = chunk
  chunk_eq : ∀ level, node.chunk level = node.chunk 0
  isLineText : IsLineText (node.chunk 0)
  opens : 16 ≤ node.precedence → Opens (node.chunk 0).toList

namespace OneLine

variable {node : Node}

/-- An atom. -/
theorem of_opens (hinline : ∀ chunk, inlineText node chunk = chunk)
    (hlevel : ∀ level, node.chunk level = node.chunk 0) (hopens : Opens (node.chunk 0).toList)
    (hbreak : Unbroken (node.chunk 0)) : OneLine node :=
  ⟨hinline, hlevel, hopens.isLineText hbreak, fun _ => hopens⟩

theorem operand_eq (h : OneLine node) (m level : Nat) :
    operandText m node (node.chunk level) = operandText m node (node.chunk 0) := by
  rw [h.chunk_eq]

theorem operand_isLineText (h : OneLine node) (m : Nat) :
    IsLineText (operandText m node (node.chunk 0)) := by
  have hopen : IsLineText "(" := ⟨⟨'(', [], rfl, by decide⟩, by decide⟩
  unfold operandText
  rw [h.inline_eq]
  split
  · exact (hopen.append h.isLineText.unbroken).append (by decide)
  · exact h.isLineText

theorem operand_unbroken (h : OneLine node) (m : Nat) :
    Unbroken (operandText m node (node.chunk 0)) :=
  (h.operand_isLineText m).unbroken

theorem operand_opens (h : OneLine node) {m : Nat} (hm : m = 16 ∨ 16 ≤ node.precedence) :
    Opens (operandText m node (node.chunk 0)).toList := by
  unfold operandText
  rw [h.inline_eq]
  split
  · rw [String.toList_append, String.toList_append]
    exact .plain (by decide)
  · exact h.opens (by omega)

end OneLine

/-! ## Lists of operands -/

structure OneLineTexts (texts : Nat → List String) : Prop where
  texts_eq : ∀ level, texts level = texts 0
  unbroken : ∀ text ∈ texts 0, Unbroken text

theorem oneLineTexts_nil : OneLineTexts fun _ => [] :=
  ⟨fun _ => rfl, by simp⟩

theorem OneLineTexts.cons {text : Nat → String} {texts : Nat → List String}
    (htext : ∀ level, text level = text 0) (hbreak : Unbroken (text 0)) (h : OneLineTexts texts) :
    OneLineTexts fun level => text level :: texts level :=
  ⟨fun level => by simp only [htext level, h.texts_eq level],
    List.forall_mem_cons.mpr ⟨hbreak, h.unbroken⟩⟩

theorem OneLineTexts.intercalate {texts : Nat → List String} (h : OneLineTexts texts)
    (gap : String) (hgap : Unbroken gap) :
    (∀ level, gap.intercalate (texts level) = gap.intercalate (texts 0)) ∧
      Unbroken (gap.intercalate (texts 0)) :=
  ⟨fun level => by rw [h.texts_eq], unbroken_intercalate hgap h.unbroken⟩

theorem oneLineTexts_operandTexts {items : List Node} (h : ∀ item ∈ items, OneLine item) :
    OneLineTexts fun level => operandTexts level items := by
  induction items with
  | nil =>
    simp only [operandTexts]
    exact oneLineTexts_nil
  | cons item items ih =>
    have hitem := h item List.mem_cons_self
    simp only [operandTexts]
    exact .cons (hitem.operand_eq 1) (hitem.operand_unbroken 1)
      (ih fun x hx => h x (List.mem_cons_of_mem _ hx))

def FieldsOneLine : Node → Prop
  | .hash entries => ∀ entry ∈ entries, OneLine entry.1 ∧ OneLine entry.2
  | _ => True

theorem oneLineTexts_hashTexts {entries : List (Node × Node)}
    (h : ∀ entry ∈ entries, OneLine entry.1 ∧ OneLine entry.2) :
    OneLineTexts fun level => hashTexts level entries := by
  induction entries with
  | nil =>
    simp only [hashTexts]
    exact oneLineTexts_nil
  | cons entry entries ih =>
    obtain ⟨key, value⟩ := entry
    obtain ⟨hkey, hvalue⟩ := h _ List.mem_cons_self
    simp only [hashTexts]
    refine .cons (fun level => ?_) ?_ (ih fun x hx => h x (List.mem_cons_of_mem _ hx))
    · rw [hkey.operand_eq, hvalue.operand_eq]
    · simp only [unbroken_append]
      exact ⟨⟨hkey.operand_unbroken 1, by decide⟩, hvalue.operand_unbroken 1⟩

theorem oneLineTexts_argumentTexts {args : List Node}
    (h : ∀ arg ∈ args, OneLine arg ∧ FieldsOneLine arg) :
    OneLineTexts fun level => argumentTexts level args := by
  induction args with
  | nil =>
    simp only [argumentTexts]
    exact oneLineTexts_nil
  | cons arg args ih =>
    have hrest := ih fun x hx => h x (List.mem_cons_of_mem _ hx)
    obtain ⟨harg, hfields⟩ := h arg List.mem_cons_self
    unfold argumentTexts
    split
    · rename_i heq
      cases heq
    · rename_i entries heq
      obtain ⟨rfl, rfl⟩ := List.cons.inj heq
      cases entries with
      | nil => exact .cons (fun _ => rfl) (by decide) oneLineTexts_nil
      | cons entry entries => exact oneLineTexts_hashTexts hfields
    · rename_i heq
      obtain ⟨rfl, rfl⟩ := List.cons.inj heq
      exact .cons (harg.operand_eq 1) (harg.operand_unbroken 1) hrest

/-! ## Expressions -/

section Atoms

variable {name : String}

theorem oneLine_variable (h : isVariableName name = true) : OneLine (.var name) := by
  have hparts : Opens name.toList ∧ Unbroken name := by
    unfold isVariableName at h
    split at h
    · rename_i cs hname
      have hcs := List.all_eq_true.mp (all_of_isIdentifier h)
      refine ⟨hname ▸ .plain (by decide), fun hmem => ?_⟩
      rw [hname, List.mem_cons] at hmem
      rcases hmem with hat | hmem
      · cases hat
      · exact absurd (hcs _ hmem) (by decide)
    · simp only [Bool.and_eq_true] at h
      exact ⟨opens_of_isIdentifier h.1.1, unbroken_of_isIdentifier h.1.1⟩
  exact .of_opens (fun _ => rfl) (fun _ => rfl) hparts.1 hparts.2

theorem oneLine_constant (h : isIdentifier name.toList = true) : OneLine (.const none name) := by
  refine .of_opens (fun _ => rfl) (fun _ => rfl) ?_ ?_
  · rw [chunk_const]
    exact opens_of_isIdentifier h
  · rw [chunk_const]
    exact unbroken_of_isIdentifier h

theorem oneLine_self : OneLine .self :=
  .of_opens (fun _ => rfl) (fun _ => rfl) (.plain (by decide))
    (unbroken_of_isIdentifier (by decide))

theorem oneLine_literal {value : Literal} (h : value.isExact = true) :
    OneLine (.literal value) := by
  have hatom (hopens : Opens value.text.toList) (hbreak : Unbroken value.text) :
      OneLine (.literal value) := .of_opens (fun _ => rfl) (fun _ => rfl) hopens hbreak
  cases value with
  | nil => exact hatom (.plain (by decide)) (by decide)
  | bool b =>
    cases b with
    | true => exact hatom (.plain (by decide)) (by decide)
    | false => exact hatom (.plain (by decide)) (by decide)
  | integer n =>
    cases n with
    | ofNat n =>
      have htext : (Literal.text (.integer (.ofNat n))).toList = Nat.toDigits 10 n := by
        change (toString n).toList = _
        simp
      refine hatom ?_ fun hmem => newline_not_mem_toDigits n (htext ▸ hmem)
      rw [htext]
      obtain ⟨c, cs, hdigits⟩ := List.exists_cons_of_ne_nil (@Nat.toDigits_ne_nil n 10)
      have hdigit : c.isDigit = true :=
        Nat.isDigit_of_mem_toDigits (by decide) (by decide) (hdigits ▸ List.mem_cons_self)
      rw [hdigits]
      exact .plain (by simp [opensOperand, hdigit])
    | negSucc n =>
      have htext : ((Node.literal (.integer (.negSucc n))).chunk 0).toList =
          '-' :: Nat.toDigits 10 (n + 1) := by
        change ("-" ++ toString (n + 1)).toList = _
        simp
      have hstrength : (Node.literal (.integer (.negSucc n))).precedence = 13 := by
        simp [Node.precedence, Literal.isNegative, Int.negSucc_lt_zero]
      have hline : IsLineText ((Node.literal (.integer (.negSucc n))).chunk 0) :=
        ⟨⟨'-', _, htext, by decide⟩, by simp [Unbroken, htext, newline_not_mem_toDigits]⟩
      exact ⟨fun _ => rfl, fun _ => rfl, hline, fun hle => by omega⟩
  | float x => cases h
  | symbol name => exact hatom (opens_symbolText name) (unbroken_symbolText name)
  | string text =>
    have htext : (quoted text).toList = '\x22' :: (quotedBody text.toList ++ ['\x22']) := by
      simp [quoted]
    refine hatom ?_ (unbroken_quoted text)
    change Opens (quoted text).toList
    rw [htext]
    exact .plain (by decide)

end Atoms

namespace OneLine

section Operators

variable {condition thenValue elseValue target value : Node}

theorem unary {op : UnaryOp} {operand : Node} (h : OneLine operand) :
    OneLine (.unary op operand) := by
  have htext (level : Nat) : (Node.unary op operand).chunk level =
      op.symbol ++ operandText op.precedence operand (operand.chunk level) := rfl
  have hsymbol : IsLineText op.symbol := by
    cases op with
    | not => exact ⟨⟨'!', [], rfl, by decide⟩, by decide⟩
    | neg => exact ⟨⟨'-', [], rfl, by decide⟩, by decide⟩
    | bitNot => exact ⟨⟨'~', [], rfl, by decide⟩, by decide⟩
  have hlt : op.precedence < 16 := by cases op <;> decide
  refine ⟨fun _ => rfl, fun level => ?_, ?_, fun hle => absurd hlt (Nat.not_lt_of_le hle)⟩
  · rw [htext, htext, h.operand_eq]
  · rw [htext]
    exact hsymbol.append (h.operand_unbroken _)

theorem binary {op : BinaryOp} {lhs rhs : Node} (hl : OneLine lhs) (hr : OneLine rhs) :
    OneLine (.binary op lhs rhs) := by
  have htext (level : Nat) : (Node.binary op lhs rhs).chunk level =
      operandText op.leftStrength lhs (lhs.chunk level) ++ " " ++ op.symbol ++ " " ++
        operandText op.rightStrength rhs (rhs.chunk level) := rfl
  have hsymbol : Unbroken op.symbol := by cases op <;> decide
  have hlt : op.precedence < 16 := by cases op <;> decide
  refine ⟨fun _ => rfl, fun level => ?_, ?_, fun hle => absurd hlt (Nat.not_lt_of_le hle)⟩
  · rw [htext, htext, hl.operand_eq, hr.operand_eq]
  · rw [htext]
    exact ((((hl.operand_isLineText _).append (by decide)).append hsymbol).append
      (by decide)).append (hr.operand_unbroken _)

theorem ternary (hc : OneLine condition) (ht : OneLine thenValue) (he : OneLine elseValue) :
    OneLine (.ternary condition thenValue elseValue) := by
  have htext (level : Nat) : (Node.ternary condition thenValue elseValue).chunk level =
      operandText 3 condition (condition.chunk level) ++ " ? " ++
        operandText 2 thenValue (thenValue.chunk level) ++ " : " ++
        operandText 2 elseValue (elseValue.chunk level) := rfl
  have hlt : (Node.ternary condition thenValue elseValue).precedence < 16 :=
    show 2 < 16 by decide
  refine ⟨fun _ => rfl, fun level => ?_, ?_, fun hle => absurd hlt (Nat.not_lt_of_le hle)⟩
  · rw [htext, htext, hc.operand_eq, ht.operand_eq, he.operand_eq]
  · rw [htext]
    exact ((((hc.operand_isLineText _).append (by decide)).append (ht.operand_unbroken _)).append
      (by decide)).append (he.operand_unbroken _)

theorem assign (ht : OneLine target) (hv : OneLine value) : OneLine (.assign target value) := by
  have htext (level : Nat) : (Node.assign target value).chunk level =
      operandText 16 target (target.chunk level) ++ " = " ++
        operandText 1 value (value.chunk level) := rfl
  have hlt : (Node.assign target value).precedence < 16 := show 1 < 16 by decide
  refine ⟨fun _ => rfl, fun level => ?_, ?_, fun hle => absurd hlt (Nat.not_lt_of_le hle)⟩
  · rw [htext, htext, ht.operand_eq, hv.operand_eq]
  · rw [htext]
    exact ((ht.operand_isLineText _).append (by decide)).append (hv.operand_unbroken _)

end Operators

section Calls

variable {name : String} {receiver scope : Node} {args : List Node}

theorem constIn (h : OneLine scope) (hname : isIdentifier name.toList = true) :
    OneLine (.const (some scope) name) := by
  refine .of_opens (fun _ => rfl) (fun level => ?_) ?_ ?_
  · rw [chunk_constIn, chunk_constIn, h.operand_eq]
  · simp only [chunk_constIn, String.toList_append, List.append_assoc]
    exact (h.operand_opens (Or.inl rfl)).append _
  · simp only [chunk_constIn, unbroken_append]
    exact ⟨⟨h.operand_unbroken 16, by decide⟩, unbroken_of_isIdentifier hname⟩

theorem call (hname : isIdentifier name.toList = true)
    (h : ∀ arg ∈ args, OneLine arg ∧ FieldsOneLine arg) :
    OneLine (.call none name args none true) := by
  obtain ⟨heq, hargs⟩ := (oneLineTexts_argumentTexts h).intercalate ", " (by decide)
  refine .of_opens (fun _ => rfl) (fun level => ?_) ?_ ?_
  · rw [chunk_call, chunk_call, heq]
  · simp only [chunk_call, String.toList_append, List.append_assoc]
    exact (opens_of_isIdentifier hname).append _
  · simp only [chunk_call, unbroken_append]
    exact ⟨⟨⟨unbroken_of_isIdentifier hname, by decide⟩, hargs⟩, by decide⟩

theorem callOn (hr : OneLine receiver) (hname : isIdentifier name.toList = true)
    (h : ∀ arg ∈ args, OneLine arg ∧ FieldsOneLine arg) :
    OneLine (.call (some receiver) name args none true) := by
  obtain ⟨heq, hargs⟩ := (oneLineTexts_argumentTexts h).intercalate ", " (by decide)
  refine .of_opens (fun _ => rfl) (fun level => ?_) ?_ ?_
  · rw [chunk_callOn, chunk_callOn, heq, hr.operand_eq]
  · simp only [chunk_callOn, String.toList_append, List.append_assoc]
    exact (hr.operand_opens (Or.inl rfl)).append _
  · simp only [chunk_callOn, unbroken_append]
    exact ⟨⟨⟨⟨⟨hr.operand_unbroken 16, by decide⟩, unbroken_of_isIdentifier hname⟩, by decide⟩,
      hargs⟩, by decide⟩

theorem member (hr : OneLine receiver) (hname : isIdentifier name.toList = true) :
    OneLine (.call (some receiver) name [] none false) := by
  refine .of_opens (fun _ => rfl) (fun level => ?_) ?_ ?_
  · rw [chunk_member, chunk_member, hr.operand_eq]
  · simp only [chunk_member, String.toList_append, List.append_assoc]
    exact (hr.operand_opens (Or.inl rfl)).append _
  · simp only [chunk_member, unbroken_append]
    exact ⟨⟨hr.operand_unbroken 16, by decide⟩, unbroken_of_isIdentifier hname⟩

end Calls

section Collections

variable {items : List Node} {entries : List (Node × Node)}

/-- Texts on one line, with a gap between them and brackets around them. -/
theorem enclosed {node : Node} {opening gap closing : String} {texts : Nat → List String}
    (hinline : ∀ chunk, inlineText node chunk = chunk)
    (htext : ∀ level, node.chunk level = opening ++ gap.intercalate (texts level) ++ closing)
    (hopens : Opens opening.toList) (h : OneLineTexts texts) (hopening : Unbroken opening)
    (hgap : Unbroken gap) (hclosing : Unbroken closing) : OneLine node := by
  obtain ⟨heq, htexts⟩ := h.intercalate gap hgap
  refine .of_opens hinline (fun level => ?_) ?_ ?_
  · rw [htext, htext, heq]
  · simp only [htext, String.toList_append, List.append_assoc]
    exact hopens.append _
  · simp only [htext, unbroken_append]
    exact ⟨⟨hopening, htexts⟩, hclosing⟩

theorem array (h : ∀ item ∈ items, OneLine item) : OneLine (.array items) :=
  @enclosed _ "[" ", " "]" _ (fun _ => rfl) (fun _ => rfl) (.plain (by decide))
    (oneLineTexts_operandTexts h) (by decide) (by decide) (by decide)

theorem group (h : ∀ item ∈ items, OneLine item) : OneLine (.group items) :=
  @enclosed _ "(" "; " ")" _ (fun _ => rfl) (fun _ => rfl) (.plain (by decide))
    (oneLineTexts_operandTexts h) (by decide) (by decide) (by decide)

theorem hash (h : ∀ entry ∈ entries, OneLine entry.1 ∧ OneLine entry.2) :
    OneLine (.hash entries) := by
  by_cases hne : entries = []
  · subst hne
    have hbreak : Unbroken "\x7b\x7d" := by decide
    exact .of_opens (fun _ => rfl) (fun _ => rfl) (.plain (by decide)) hbreak
  · exact .enclosed (fun _ => rfl) (fun _ => chunk_hash hne) (.plain (by decide))
      (oneLineTexts_hashTexts h) (by decide) (by decide) (by decide)

end Collections

end OneLine

theorem Readable.oneLine {node : Node} (h : Readable 0 node) :
    OneLine node ∧ FieldsOneLine node := by
  induction h with
  | var h => exact ⟨oneLine_variable h, trivial⟩
  | const h _ => exact ⟨oneLine_constant (Bool.and_eq_true_iff.mp h).1, trivial⟩
  | constIn _ h ih => exact ⟨ih.1.constIn (Bool.and_eq_true_iff.mp h).1, trivial⟩
  | self => exact ⟨oneLine_self, trivial⟩
  | literal h => exact ⟨oneLine_literal h, trivial⟩
  | unary _ _ ih => exact ⟨ih.1.unary, trivial⟩
  | binary _ _ ihl ihr => exact ⟨ihl.1.binary ihr.1, trivial⟩
  | ternary _ _ _ ihc iht ihe => exact ⟨ihc.1.ternary iht.1 ihe.1, trivial⟩
  | assign _ _ _ iht ihv => exact ⟨iht.1.assign ihv.1, trivial⟩
  | call hname _ _ ih => exact ⟨.call hname ih, trivial⟩
  | callOn _ hname _ ihr iha => exact ⟨ihr.1.callOn hname iha, trivial⟩
  | member _ hname ih => exact ⟨ih.1.member hname, trivial⟩
  | array _ ih => exact ⟨.array fun item hi => (ih item hi).1, trivial⟩
  | @hash entries _ _ ihk ihv =>
    have hfields : ∀ entry ∈ entries, OneLine entry.1 ∧ OneLine entry.2 :=
      fun entry he => ⟨(ihk entry he).1, (ihv entry he).1⟩
    exact ⟨.hash hfields, hfields⟩
  | group _ _ ih => exact ⟨.group fun item hi => (ih item hi).1, trivial⟩

end YcpToRuby.Ruby
