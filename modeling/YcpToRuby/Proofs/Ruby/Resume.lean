import Mathlib.Data.List.Forall2
import YcpToRuby.Proofs.Ruby.Reader

/-!
# Going on with an expression

A text reads as a node when the reader, whatever is open and whatever follows, gets from before the
text to the value behind it. The place of the text sets a strength: what is open must accept an
expression of that strength, and what follows must not take a part of it away. The lemmas follow the
forms of expressions; each takes the texts of the parts to the text of the whole.
-/

set_option autoImplicit false

namespace YcpToRuby.Ruby

open Assembly (continue? follow? resume settle)

variable {stack : List Pending} {node : Node} {rest : List Char} {m n : Nat} {token : Token}

/-! ## One token -/

theorem resume_space (s : Assembly) (cs : List Char) : resume s (' ' :: cs) = resume s cs := by
  rw [resume, resume, tokens?_space]

theorem resume_of_spells {cs : List Char} (h : Spells cs token rest) (s : Assembly) :
    resume s (cs ++ rest) = (s.step token).bind fun s => resume s rest := by
  unfold resume
  rw [h.tokens?]
  cases tokens? rest with
  | none => cases s.step token <;> rfl
  | some tokens => cases hstep : s.step token <;> simp [hstep]

/-- Two states that treat the next token alike and end alike. -/
theorem resume_congr {s s' : Assembly} (hfinish : s.finish? = s'.finish?)
    (hstep : ∀ token tokens, tokens? rest = some (token :: tokens) → s.step token = s'.step token) :
    resume s rest = resume s' rest := by
  unfold resume
  cases htokens : tokens? rest with
  | none => rfl
  | some tokens =>
    cases tokens with
    | nil => simp [hfinish]
    | cons token tokens => simp [hstep token tokens htokens]

/-! ## What is open and what follows -/

def Accepts (stack : List Pending) (m : Nat) : Prop :=
  ∀ pending ∈ stack.head?, pending.demand ≤ m

structure Follows (m : Nat) (rest : List Char) : Prop where
  ends : Ends rest
  level_le : ∀ token tokens, tokens? rest = some (token :: tokens) → token.level ≤ m

def KeepsMinus (stack : List Pending) (cs : List Char) : Prop :=
  stack.head? = some (.unary .neg) → ∀ c ∈ cs.head?, c.isDigit = false

theorem Accepts.mono (h : Accepts stack m) (hmn : m ≤ n) : Accepts stack n :=
  fun pending hpending => Nat.le_trans (h pending hpending) hmn

theorem Follows.mono (h : Follows m rest) (hmn : m ≤ n) : Follows n rest :=
  ⟨h.ends, fun token tokens htokens => Nat.le_trans (h.level_le token tokens htokens) hmn⟩

theorem accepts_nil (m : Nat) : Accepts [] m := by
  simp [Accepts]

theorem follows_nil (m : Nat) : Follows m [] :=
  ⟨by simp [Ends], by simp [tokens?_nil]⟩

theorem follows_of_spells {cs : List Char} (hends : Ends (cs ++ rest)) (h : Spells cs token rest)
    (hlevel : token.level ≤ m) : Follows m (cs ++ rest) := by
  refine ⟨hends, ?_⟩
  intro next tokens htokens
  rw [h.tokens?] at htokens
  obtain ⟨others, -, heq⟩ := Option.map_eq_some_iff.mp htokens
  obtain ⟨rfl, -⟩ := List.cons.inj heq
  exact hlevel

theorem follows_space {cs : List Char} (h : Spells cs token rest) (hlevel : token.level ≤ m) :
    Follows m (' ' :: (cs ++ rest)) := by
  refine ⟨by simp [Ends, endsToken], ?_⟩
  intro next tokens htokens
  rw [tokens?_space, h.tokens?] at htokens
  obtain ⟨others, -, heq⟩ := Option.map_eq_some_iff.mp htokens
  obtain ⟨rfl, -⟩ := List.cons.inj heq
  exact hlevel

/-! ## Operators on the stack -/

theorem resume_reduce {pending : Pending} {op : Operator} (hop : pending.operator? = some op)
    (hrest : Follows op.strength rest) :
    resume ⟨pending :: stack, .value node⟩ rest =
      resume ⟨stack, .value (pending.apply node)⟩ rest := by
  apply resume_congr
  · simp [Assembly.finish?, Assembly.finish?.ended, settle, hop]
  · intro token tokens htokens
    have hmeet := Token.meet_eq_reduce (hrest.level_le token tokens htokens)
    simp [Assembly.step, follow?, settle, hop, hmeet]

theorem resume_negative {n : Nat} (hrest : Follows 13 rest) :
    resume ⟨stack, .negative n⟩ rest =
      resume ⟨stack, .value (.literal (.integer (-n)))⟩ rest := by
  apply resume_congr
  · rfl
  · intro token tokens htokens
    have hlevel := hrest.level_le token tokens htokens
    have hpow : token ≠ .binary .pow := by
      rintro rfl
      exact absurd hlevel (by decide)
    unfold Assembly.step
    split <;> simp_all

theorem settle_of_accepts (hstack : Accepts stack m) (htoken : token.joins? = some m) :
    settle token.meet stack node = some (stack, node) := by
  cases stack with
  | nil => rfl
  | cons pending stack =>
    cases hop : pending.operator? with
    | none => simp [settle, hop]
    | some op =>
      have hmeet := Token.meet_eq_shift hop htoken (hstack pending rfl)
      simp [settle, hop, hmeet]

theorem resume_joins {cs : List Char} (h : Spells cs token rest) (htoken : token.joins? = some m)
    (hstack : Accepts stack m) :
    resume ⟨stack, .value node⟩ (cs ++ rest) =
      (continue? stack node token).bind fun s => resume s rest := by
  rw [resume_of_spells h]
  simp [Assembly.step, follow?, settle_of_accepts hstack htoken]

/-! ## Texts that read as a node -/

def Reads (m : Nat) (text : String) (node : Node) : Prop :=
  ∀ stack rest, Accepts stack m → KeepsMinus stack (text.toList ++ rest) → Follows m rest →
    resume ⟨stack, .operand⟩ (text.toList ++ rest) = resume ⟨stack, .value node⟩ rest

theorem Reads.mono {text : String} (h : Reads n text node) (hmn : m ≤ n) : Reads m text node :=
  fun stack rest hstack hminus hrest => h stack rest (hstack.mono hmn) hminus (hrest.mono hmn)

theorem Reads.resume_nil {text : String} (h : Reads m text node) :
    resume {} text.toList = some node := by
  have hread := h [] [] (accepts_nil m) (by simp [KeepsMinus]) (follows_nil m)
  rw [List.append_nil] at hread
  rw [hread]
  simp [resume, tokens?_nil, Assembly.finish?, Assembly.finish?.ended, settle]

theorem keepsMinus_cons {pending : Pending} (h : pending.operator? ≠ some (.unary .neg))
    (cs : List Char) : KeepsMinus (pending :: stack) cs := by
  intro hhead
  obtain rfl := Option.some.inj hhead
  exact absurd rfl h

/-- No expression begins with an equals sign. -/
theorem Reads.head_ne {text : String} (h : Reads m text node) :
    ∀ c ∈ text.toList.head?, c ≠ '=' := by
  rintro c hc rfl
  obtain ⟨cs, hcs⟩ : ∃ cs, text.toList = '=' :: cs := by
    cases htext : text.toList with
    | nil => simp [htext] at hc
    | cons d cs => exact ⟨cs, by simp_all⟩
  have hread := h.resume_nil
  obtain ⟨token, tail, htoken, hkind⟩ := token?_equals cs
  have hstep : Assembly.begin? [] token = none := by
    rcases hkind with rfl | rfl | rfl <;> rfl
  rw [hcs, resume, tokens?_cons htoken] at hread
  cases htail : tokens? tail with
  | none => simp [htail] at hread
  | some tokens => simp [htail, Assembly.step, hstep] at hread

/-! ## Operators -/

section Operators

variable {a b c : String} {x y z : Node}

theorem precedence_le_strengths (op : BinaryOp) :
    op.precedence ≤ op.leftStrength ∧ op.precedence ≤ op.rightStrength := by
  unfold BinaryOp.leftStrength BinaryOp.rightStrength
  constructor <;> split <;> omega

/-- An operand of something open, other than a minus. -/
theorem Reads.under {pending : Pending} (h : Reads m a x) (hdemand : pending.demand ≤ m)
    (hminus : pending.operator? ≠ some (.unary .neg)) (hrest : Follows m rest) :
    resume ⟨pending :: stack, .operand⟩ (a.toList ++ rest) =
      resume ⟨pending :: stack, .value x⟩ rest :=
  h _ rest (by simpa [Accepts] using hdemand) (keepsMinus_cons hminus _) hrest

/-- The left operand of an operator, and the operator. -/
theorem Reads.joined {cs : List Char} (h : Reads m a x) (hspells : Spells cs token rest)
    (htoken : token.joins? = some n) (hlevel : token.level ≤ m) (hnm : n ≤ m)
    (hstack : Accepts stack n) (hminus : KeepsMinus stack (a.toList ++ ' ' :: (cs ++ rest))) :
    resume ⟨stack, .operand⟩ (a.toList ++ ' ' :: (cs ++ rest)) =
      (continue? stack x token).bind fun s => resume s rest := by
  rw [h stack _ (hstack.mono hnm) hminus (follows_space hspells hlevel), resume_space,
    resume_joins hspells htoken hstack]

/-- The last operand of an operator. -/
theorem Reads.completes {pending : Pending} {op : Operator} (h : Reads m a x)
    (hop : pending.operator? = some op) (hminus : op ≠ .unary .neg) (hdemand : pending.demand ≤ m)
    (hm : op.strength ≤ m) (hrest : Follows op.strength rest) :
    resume ⟨pending :: stack, .operand⟩ (' ' :: (a.toList ++ rest)) =
      resume ⟨stack, .value (pending.apply x)⟩ rest := by
  rw [resume_space, h.under hdemand (by simpa [hop] using hminus) (hrest.mono hm)]
  exact resume_reduce hop hrest

theorem Reads.binary {op : BinaryOp} (hx : Reads op.leftStrength a x)
    (hy : Reads op.rightStrength b y) :
    Reads op.precedence (a ++ " " ++ op.symbol ++ " " ++ b) (.binary op x y) := by
  obtain ⟨hleft, hright⟩ := precedence_le_strengths op
  intro stack rest hstack hminus hrest
  have htext : (a ++ " " ++ op.symbol ++ " " ++ b).toList ++ rest =
      a.toList ++ ' ' :: (op.symbol.toList ++ ' ' :: (b.toList ++ rest)) := by simp
  rw [htext] at hminus ⊢
  rw [hx.joined (spells_binary op _) rfl (Nat.le_refl _) hleft hstack hminus]
  exact hy.completes rfl (by simp) (Nat.le_refl _) hright hrest

theorem Reads.ternary (hx : Reads 3 a x) (hy : Reads 2 b y) (hz : Reads 2 c z) :
    Reads 2 (a ++ " ? " ++ b ++ " : " ++ c) (.ternary x y z) := by
  intro stack rest hstack hminus hrest
  have htext : (a ++ " ? " ++ b ++ " : " ++ c).toList ++ rest =
      a.toList ++ ' ' :: (['?'] ++ ' ' ::
        (b.toList ++ ' ' :: ([':'] ++ ' ' :: (c.toList ++ rest)))) := by
    simp
  have hquestion (cs : List Char) : Spells ['?'] .question cs := ⟨_, _, rfl, rfl⟩
  have hcolon (cs : List Char) : Spells [':'] .colon (' ' :: cs) := ⟨_, _, rfl, rfl⟩
  rw [htext] at hminus ⊢
  rw [hx.joined (hquestion _) rfl (Nat.le_refl _) (by decide) hstack hminus]
  change resume ⟨.choice x :: stack, .operand⟩ _ = _
  rw [resume_space, hy.under (Nat.zero_le _) (by simp [Pending.operator?])
    (follows_space (hcolon _) (Nat.zero_le _)), resume_space, resume_of_spells (hcolon _)]
  exact hz.completes rfl (by simp) (Nat.le_refl _) (Nat.le_refl _) hrest

theorem Reads.assign (htarget : isVarOrAccessor x = true) (hx : Reads 16 a x) (hy : Reads 1 b y) :
    Reads 1 (a ++ " = " ++ b) (.assign x y) := by
  intro stack rest hstack hminus hrest
  have htext : (a ++ " = " ++ b).toList ++ rest =
      a.toList ++ ' ' :: (['='] ++ ' ' :: (b.toList ++ rest)) := by simp
  have hspells (cs : List Char) : Spells ['='] .assign (' ' :: cs) := ⟨_, _, rfl, rfl⟩
  rw [htext] at hminus ⊢
  rw [hx.joined (hspells _) rfl (Nat.le_refl _) (by decide) hstack hminus]
  simp only [continue?, htarget, if_true, Option.bind_some]
  exact hy.completes rfl (by simp) (Nat.le_refl _) (Nat.le_refl _) hrest

/-- The first character of a text in front of what follows it. -/
theorem head_append {p : Char → Prop} {cs : List Char} (hcs : ∀ c ∈ cs.head?, p c)
    (hrest : ∀ c ∈ rest.head?, p c) : ∀ c ∈ (cs ++ rest).head?, p c := by
  cases cs with
  | nil => exact hrest
  | cons d cs => exact hcs

theorem Reads.unary {op : UnaryOp} (hx : Reads op.precedence a x)
    (hminus : op = .neg → ∀ c ∈ a.toList.head?, c.isDigit = false) :
    Reads op.precedence (op.symbol ++ a) (.unary op x) := by
  intro stack rest hstack _ hrest
  have hequals : ∀ c ∈ (a.toList ++ rest).head?, c ≠ '=' := by
    refine head_append hx.head_ne ?_
    rintro c hc rfl
    exact absurd (hrest.ends _ hc) (by decide)
  have hdigit : KeepsMinus (.unary op :: stack) (a.toList ++ rest) := by
    intro hhead
    obtain ⟨rfl⟩ := Pending.unary.inj (Option.some.inj hhead)
    exact head_append (hminus rfl) fun c hc => (of_endsToken (hrest.ends c hc)).2.1
  have hopen : resume ⟨stack, .operand⟩ ((op.symbol ++ a).toList ++ rest) =
      resume ⟨.unary op :: stack, .operand⟩ (a.toList ++ rest) := by
    rw [String.toList_append, List.append_assoc]
    cases op with
    | not => exact resume_of_spells (spells_bang hequals) _
    | neg =>
      have hspells : Spells ['-'] (.binary .sub) (a.toList ++ rest) := ⟨_, _, rfl, rfl⟩
      exact resume_of_spells hspells _
    | bitNot =>
      have hspells : Spells ['~'] (.unary .bitNot) (a.toList ++ rest) := ⟨_, _, rfl, rfl⟩
      exact resume_of_spells hspells _
  rw [hopen, hx _ rest (by simp [Accepts, Pending.demand]) hdigit hrest]
  exact resume_reduce rfl hrest

end Operators

/-! ## Names, members and literals -/

section Atoms

variable {a : String} {x : Node}

/-- A text of one token that stands for a value. -/
theorem reads_of_spells {text : String} (h : ∀ rest, Ends rest → Spells text.toList token rest)
    (hbegin : ∀ stack, Assembly.begin? stack token = some ⟨stack, .value node⟩) :
    Reads 16 text node := by
  intro stack rest _ _ hrest
  rw [resume_of_spells (h rest hrest.ends)]
  simp [Assembly.step, hbegin]

theorem reads_name {name : String} (h : isIdentifier name.toList = true)
    (hnode : nameNode? name = some node) : Reads 16 name node := by
  refine reads_of_spells (fun rest hrest => spells_name h hrest) fun stack => ?_
  simp [Assembly.begin?, hnode]

theorem reads_at {name : String} {cs : List Char} (hname : name.toList = '@' :: cs)
    (h : isIdentifier cs = true) (hnode : nameNode? name = some node) : Reads 16 name node := by
  refine reads_of_spells (fun rest hrest => hname ▸ spells_at h hrest) fun stack => ?_
  simp [Assembly.begin?, hnode]

theorem reads_string (text : String) : Reads 16 (quoted text) (.literal (.string text)) := by
  have hspells (rest : List Char) : Spells (quoted text).toList (.string text) rest := by
    simpa [quoted] using @spells_string rest text.toList
  exact reads_of_spells (fun rest _ => hspells rest) fun _ => rfl

theorem reads_symbol (name : String) : Reads 16 (symbolText name) (.literal (.symbol name)) :=
  reads_of_spells (fun _ hrest => spells_symbol name hrest) fun _ => rfl

theorem reads_integer (n : Nat) : Reads 16 (toString n) (.literal (.integer n)) := by
  intro stack rest _ hminus hrest
  have htext : (toString n).toList = Nat.toDigits 10 n := by simp
  rw [htext] at hminus ⊢
  obtain ⟨c, cs, hdigits⟩ := List.exists_cons_of_ne_nil (@Nat.toDigits_ne_nil n 10)
  have hdigit : c.isDigit = true :=
    Nat.isDigit_of_mem_toDigits (by decide) (by decide) (hdigits ▸ List.mem_cons_self)
  have hbegin : Assembly.begin? stack (.integer n) =
      some ⟨stack, .value (.literal (.integer n))⟩ := by
    simp only [Assembly.begin?]
    split
    · have hnot := hminus rfl c (by simp [hdigits])
      rw [hdigit] at hnot
      cases hnot
    · rfl
  rw [resume_of_spells (spells_integer n hrest.ends)]
  simp [Assembly.step, hbegin]

theorem reads_negative (n : Nat) :
    Reads 13 ("-" ++ toString n) (.literal (.integer (-n))) := by
  intro stack rest _ _ hrest
  have hminus : Spells ['-'] (.binary .sub) (Nat.toDigits 10 n ++ rest) := ⟨_, _, rfl, rfl⟩
  have htext : ("-" ++ toString n).toList ++ rest = ['-'] ++ (Nat.toDigits 10 n ++ rest) := by
    simp
  rw [htext, resume_of_spells hminus]
  change resume ⟨.unary .neg :: stack, .operand⟩ _ = _
  rw [resume_of_spells (spells_integer n hrest.ends)]
  exact resume_negative hrest

/-- A receiver or a scope, and the mark after it. -/
theorem Reads.selected {cs : List Char} (h : Reads 16 a x) (hspells : Spells cs token rest)
    (hends : Ends (cs ++ rest)) (htoken : token.joins? = some 16) (hlevel : token.level ≤ 16)
    (hstack : Accepts stack 16) (hminus : KeepsMinus stack (a.toList ++ (cs ++ rest))) :
    resume ⟨stack, .operand⟩ (a.toList ++ (cs ++ rest)) =
      (continue? stack x token).bind fun s => resume s rest := by
  rw [h stack _ hstack hminus (follows_of_spells hends hspells hlevel),
    resume_joins hspells htoken hstack]

theorem Reads.dotted (h : Reads 16 a x) (hstack : Accepts stack 16)
    (hminus : KeepsMinus stack (a.toList ++ '.' :: rest)) :
    resume ⟨stack, .operand⟩ (a.toList ++ '.' :: rest) = resume ⟨stack, .member x⟩ rest := by
  have hdot : Spells ['.'] .dot rest := ⟨_, _, rfl, rfl⟩
  exact h.selected hdot (by simp [Ends, endsToken]) rfl (Nat.le_refl _) hstack hminus

theorem Reads.member {name : String} (hx : Reads 16 a x)
    (hname : isIdentifier name.toList = true) :
    Reads 16 (a ++ "." ++ name) (.call (some x) name [] none false) := by
  intro stack rest hstack hminus hrest
  have htext : (a ++ "." ++ name).toList ++ rest = a.toList ++ '.' :: (name.toList ++ rest) := by
    simp
  rw [htext] at hminus ⊢
  rw [hx.dotted hstack hminus, resume_of_spells (spells_name hname hrest.ends),
    String.ofList_toList]
  rfl

theorem Reads.scoped {name : String} (hx : Reads 16 a x) (hname : isIdentifier name.toList = true)
    (hupper : startsUppercase name = true) :
    Reads 16 (a ++ "::" ++ name) (.const (some x) name) := by
  intro stack rest hstack hminus hrest
  have htext : (a ++ "::" ++ name).toList ++ rest =
      a.toList ++ ([':', ':'] ++ (name.toList ++ rest)) := by
    simp
  have hscope : Spells [':', ':'] .scope (name.toList ++ rest) := ⟨_, _, rfl, rfl⟩
  rw [htext] at hminus ⊢
  rw [hx.selected hscope (by simp [Ends, endsToken]) rfl (Nat.le_refl _) hstack hminus]
  change resume ⟨stack, .scope x⟩ _ = _
  rw [resume_of_spells (spells_name hname hrest.ends), String.ofList_toList]
  simp [Assembly.step, hupper]

end Atoms

/-! ## Lists in brackets -/

section Lists

def Bracket.separatorMark : Bracket → Char
  | group => ';'
  | array | call .. => ','

def Bracket.closerMark : Bracket → Char
  | array => ']'
  | group | call .. => ')'

variable {bracket : Bracket} {items : List Node}

theorem spells_separator (bracket : Bracket) (rest : List Char) :
    Spells [bracket.separatorMark] bracket.separator rest := by
  cases bracket <;> exact ⟨_, _, rfl, rfl⟩

theorem spells_closer (bracket : Bracket) (rest : List Char) :
    Spells [bracket.closerMark] bracket.closer rest := by
  cases bracket <;> exact ⟨_, _, rfl, rfl⟩

theorem follows_separator (bracket : Bracket) (m : Nat) (rest : List Char) :
    Follows m (bracket.separatorMark :: rest) := by
  refine follows_of_spells ?_ (spells_separator bracket rest) ?_
  · cases bracket <;> simp [Ends, Bracket.separatorMark, endsToken]
  · cases bracket <;> exact Nat.zero_le m

theorem follows_closer (bracket : Bracket) (m : Nat) (rest : List Char) :
    Follows m (bracket.closerMark :: rest) := by
  refine follows_of_spells ?_ (spells_closer bracket rest) ?_
  · cases bracket <;> simp [Ends, Bracket.closerMark, endsToken]
  · cases bracket <;> exact Nat.zero_le m

theorem resume_separator :
    resume ⟨.list bracket items :: stack, .value node⟩ (bracket.separatorMark :: rest) =
      resume ⟨.list bracket (node :: items) :: stack, .operand⟩ rest := by
  refine (resume_of_spells (spells_separator bracket rest) _).trans ?_
  cases bracket <;> rfl

theorem resume_closer :
    resume ⟨.list bracket items :: stack, .value node⟩ (bracket.closerMark :: rest) =
      resume ⟨stack, .value (bracket.node (node :: items).reverse)⟩ rest := by
  refine (resume_of_spells (spells_closer bracket rest) _).trans ?_
  cases bracket <;> rfl

/-- An item in brackets, up to what follows it. -/
theorem Reads.item {text : String} (h : Reads m text node) (hrest : Follows m rest) :
    resume ⟨.list bracket items :: stack, .operand⟩ (text.toList ++ rest) =
      resume ⟨.list bracket items :: stack, .value node⟩ rest :=
  h.under (Nat.zero_le m) (by simp [Pending.operator?]) hrest

theorem resume_items {gap : String} (hgap : gap.toList = [bracket.separatorMark, ' '])
    {texts : List String} {nodes : List Node} (h : List.Forall₂ (Reads 1) texts nodes)
    (hne : nodes ≠ []) :
    resume ⟨.list bracket items :: stack, .operand⟩
        ((gap.intercalate texts).toList ++ bracket.closerMark :: rest) =
      resume ⟨stack, .value (bracket.node (items.reverse ++ nodes))⟩ rest := by
  induction h generalizing items with
  | nil => exact absurd rfl hne
  | @cons text node texts nodes hnode hnodes ih =>
    cases hnodes with
    | nil =>
      rw [String.intercalate_singleton, hnode.item (follows_closer bracket 1 rest), resume_closer,
        List.reverse_cons]
    | cons hnext hothers =>
      rw [String.intercalate_cons_cons, String.toList_append, String.toList_append, hgap]
      simp only [List.append_assoc, List.cons_append, List.nil_append]
      rw [hnode.item (follows_separator bracket 1 _), resume_separator, resume_space, ih (by simp)]
      simp

theorem spells_openParen (cs : List Char) : Spells ['('] .openParen cs :=
  ⟨_, _, rfl, rfl⟩

theorem spells_openBracket (cs : List Char) : Spells ['['] .openBracket cs :=
  ⟨_, _, rfl, rfl⟩

theorem Reads.parenthesized {text : String} (h : Reads n text node) :
    Reads m ("(" ++ text ++ ")") node := by
  intro stack rest _ _ _
  have htext : ("(" ++ text ++ ")").toList ++ rest = ['('] ++ (text.toList ++ ')' :: rest) := by
    simp
  rw [htext, resume_of_spells (spells_openParen _)]
  exact (h.item (follows_closer .group n rest)).trans resume_closer

theorem reads_group {texts : List String} {nodes : List Node}
    (h : List.Forall₂ (Reads 1) texts nodes) (hlength : 2 ≤ nodes.length) :
    Reads 16 ("(" ++ "; ".intercalate texts ++ ")") (.group nodes) := by
  intro stack rest _ _ _
  have htext : ("(" ++ "; ".intercalate texts ++ ")").toList ++ rest =
      ['('] ++ (("; ".intercalate texts).toList ++ ')' :: rest) := by simp
  have hnode : Bracket.group.node nodes = .group nodes := by
    match nodes, hlength with
    | _ :: _ :: _, _ => rfl
  rw [htext, resume_of_spells (spells_openParen _), ← hnode]
  exact @resume_items _ _ .group [] "; " rfl texts nodes h (List.ne_nil_of_length_pos (by omega))

theorem reads_array {texts : List String} {nodes : List Node}
    (h : List.Forall₂ (Reads 1) texts nodes) :
    Reads 16 ("[" ++ ", ".intercalate texts ++ "]") (.array nodes) := by
  intro stack rest _ _ _
  have htext : ("[" ++ ", ".intercalate texts ++ "]").toList ++ rest =
      ['['] ++ ((", ".intercalate texts).toList ++ ']' :: rest) := by simp
  rw [htext, resume_of_spells (spells_openBracket _)]
  cases h with
  | nil => exact resume_of_spells (spells_closer .array rest) _
  | cons hnode hnodes =>
    exact @resume_items _ _ .array [] ", " rfl _ _ (.cons hnode hnodes) (by simp)

end Lists

/-! ## Entries of a hash -/

section Entries

variable {texts : List String} {entries fields : List (Node × Node)} {braced : Bool}

def ReadsEntry (text : String) (entry : Node × Node) : Prop :=
  ∃ a b, text = a ++ " => " ++ b ∧ Reads 1 a entry.1 ∧ Reads 1 b entry.2

def laterTexts (texts : List String) : List Char :=
  texts.flatMap fun text => ", ".toList ++ text.toList

theorem toList_intercalate_cons (text : String) (texts : List String) :
    (", ".intercalate (text :: texts)).toList = text.toList ++ laterTexts texts := by
  induction texts generalizing text with
  | nil => simp [laterTexts]
  | cons next texts ih =>
    rw [String.intercalate_cons_cons, String.toList_append, ih]
    simp [laterTexts]

theorem spells_arrow (cs : List Char) : Spells ['=', '>'] .arrow (' ' :: cs) :=
  ⟨_, _, rfl, rfl⟩

theorem Reads.field {text : String} {key : Option Node} (h : Reads 1 text node)
    (hrest : Follows 1 rest) :
    resume ⟨.fields braced fields key :: stack, .operand⟩ (text.toList ++ rest) =
      resume ⟨.fields braced fields key :: stack, .value node⟩ rest :=
  h.under (Nat.zero_le 1) (by simp [Pending.operator?]) hrest

/-- From behind the first arrow to behind the last value. -/
theorem resume_entries (h : List.Forall₂ ReadsEntry texts entries) {b : String} {key value : Node}
    (hvalue : Reads 1 b value) (hrest : Follows 1 rest) :
    ∃ before last,
      before.reverse ++ [last] = fields.reverse ++ (key, value) :: entries ∧
        resume ⟨.fields braced fields (some key) :: stack, .operand⟩
            (b.toList ++ (laterTexts texts ++ rest)) =
          resume ⟨.fields braced before (some last.1) :: stack, .value last.2⟩ rest := by
  induction h generalizing fields b key value with
  | nil => exact ⟨fields, (key, value), rfl, hvalue.field hrest⟩
  | @cons text entry texts entries hentry _ ih =>
    obtain ⟨a', b', rfl, hkey', hvalue'⟩ := hentry
    obtain ⟨before, last, heq, hread⟩ := @ih ((key, value) :: fields) b' entry.1 entry.2 hvalue'
    refine ⟨before, last, by simp [heq], ?_⟩
    have hcomma (cs : List Char) : Spells [','] .comma (' ' :: cs) := ⟨_, _, rfl, rfl⟩
    have htexts : laterTexts ((a' ++ " => " ++ b') :: texts) ++ rest =
        [','] ++ ' ' :: (a'.toList ++ ' ' :: (['=', '>'] ++ ' ' ::
          (b'.toList ++ (laterTexts texts ++ rest)))) := by
      simp [laterTexts]
    rw [htexts, hvalue.field (follows_of_spells (by simp [Ends, endsToken]) (hcomma _)
      (Nat.zero_le _)), resume_of_spells (hcomma _)]
    change resume ⟨.fields braced ((key, value) :: fields) none :: stack, .operand⟩ _ = _
    rw [resume_space, hkey'.field (follows_space (spells_arrow _) (Nat.zero_le _)), resume_space,
      resume_of_spells (spells_arrow _)]
    change resume ⟨.fields braced ((key, value) :: fields) (some entry.1) :: stack, .operand⟩ _ = _
    rw [resume_space, hread]

theorem Reads.hash (h : List.Forall₂ ReadsEntry texts entries) (hne : entries ≠ []) :
    Reads 16 ("\x7b " ++ ", ".intercalate texts ++ " \x7d") (.hash entries) := by
  intro stack rest _ _ _
  cases h with
  | nil => exact absurd rfl hne
  | @cons text entry texts entries hentry hothers =>
    obtain ⟨a, b, rfl, hkey, hvalue⟩ := hentry
    have hopen (cs : List Char) : Spells ['\x7b'] .openBrace cs := ⟨_, _, rfl, rfl⟩
    have hclose : Spells ['\x7d'] .closeBrace rest := ⟨_, _, rfl, rfl⟩
    have htext :
        ("\x7b " ++ ", ".intercalate ((a ++ " => " ++ b) :: texts) ++ " \x7d").toList ++ rest =
          ['\x7b'] ++ ' ' :: (a.toList ++ ' ' :: (['=', '>'] ++ ' ' ::
          (b.toList ++ (laterTexts texts ++ ' ' :: (['\x7d'] ++ rest))))) := by
      rw [String.toList_append, String.toList_append, toList_intercalate_cons]
      simp
    obtain ⟨before, last, heq, hread⟩ :=
      @resume_entries stack (' ' :: (['\x7d'] ++ rest)) texts entries [] true hothers b entry.1
        entry.2 hvalue (follows_space hclose (Nat.zero_le _))
    rw [htext, resume_of_spells (hopen _)]
    change resume ⟨.fields true [] none :: stack, .operand⟩ _ = _
    rw [resume_space, hkey.field (follows_space (spells_arrow _) (Nat.zero_le _)), resume_space,
      resume_of_spells (spells_arrow _)]
    change resume ⟨.fields true [] (some entry.1) :: stack, .operand⟩ _ = _
    rw [resume_space, hread, resume_space, resume_of_spells hclose]
    change resume ⟨stack, .value (.hash (last :: before).reverse)⟩ rest = _
    rw [List.reverse_cons, heq]
    rfl

theorem reads_emptyHash : Reads 16 "\x7b\x7d" (.hash []) := by
  intro stack rest _ _ _
  have hopen : Spells ['\x7b'] .openBrace ('\x7d' :: rest) := ⟨_, _, rfl, rfl⟩
  have hclose : Spells ['\x7d'] .closeBrace rest := ⟨_, _, rfl, rfl⟩
  exact (resume_of_spells hopen _).trans (resume_of_spells hclose _)

end Entries

/-! ## Arguments -/

section Arguments

variable {texts : List String} {args items : List Node} {receiver : Option Node} {name : String}

inductive ReadsArguments : List String → List Node → Prop
  | nil : ReadsArguments [] []
  | hash {texts : List String} {entries : List (Node × Node)}
      (h : List.Forall₂ ReadsEntry texts entries) (hne : entries ≠ []) :
      ReadsArguments texts [.hash entries]
  | cons {text : String} {node : Node} {texts : List String} {nodes : List Node}
      (h : Reads 1 text node) (hrest : ReadsArguments texts nodes) :
      ReadsArguments (text :: texts) (node :: nodes)

theorem resume_bareHash {entries : List (Node × Node)} (h : List.Forall₂ ReadsEntry texts entries)
    (hne : entries ≠ []) :
    resume ⟨.list (.call receiver name) items :: stack, .operand⟩
        ((", ".intercalate texts).toList ++ ')' :: rest) =
      resume ⟨stack, .value (.call receiver name (items.reverse ++ [.hash entries]) none true)⟩
        rest := by
  cases h with
  | nil => exact absurd rfl hne
  | @cons text entry texts entries hentry hothers =>
    obtain ⟨a, b, rfl, hkey, hvalue⟩ := hentry
    have hclose : Spells [')'] .closeParen rest := ⟨_, _, rfl, rfl⟩
    have hfollows : Follows 1 ([')'] ++ rest) :=
      follows_of_spells (by simp [Ends, endsToken]) hclose (Nat.zero_le _)
    have htext : (", ".intercalate ((a ++ " => " ++ b) :: texts)).toList ++ ')' :: rest =
        a.toList ++ ' ' :: (['=', '>'] ++ ' ' ::
          (b.toList ++ (laterTexts texts ++ ([')'] ++ rest)))) := by
      rw [toList_intercalate_cons]
      simp
    obtain ⟨before, last, heq, hread⟩ :=
      @resume_entries (.list (.call receiver name) items :: stack) ([')'] ++ rest) texts entries
        [] false hothers b entry.1 entry.2 hvalue hfollows
    rw [htext, hkey.item (follows_space (spells_arrow _) (Nat.zero_le _)), resume_space,
      resume_of_spells (spells_arrow _)]
    change resume ⟨.fields false [] (some entry.1) :: .list (.call receiver name) items :: stack,
      .operand⟩ _ = _
    rw [resume_space, hread, resume_of_spells hclose]
    change resume ⟨stack, .value (.call receiver name
      (.hash (last :: before).reverse :: items).reverse none true)⟩ rest = _
    rw [List.reverse_cons, List.reverse_cons, heq]
    rfl

theorem resume_arguments (h : ReadsArguments texts args) (hne : args ≠ []) :
    resume ⟨.list (.call receiver name) items :: stack, .operand⟩
        ((", ".intercalate texts).toList ++ ')' :: rest) =
      resume ⟨stack, .value (.call receiver name (items.reverse ++ args) none true)⟩ rest := by
  induction h generalizing items with
  | nil => exact absurd rfl hne
  | hash h hentries => exact resume_bareHash h hentries
  | @cons text node texts nodes hnode hnodes ih =>
    cases texts with
    | nil =>
      have hnil : nodes = [] := by
        cases hnodes with
        | nil => rfl
        | hash h hentries =>
          cases h
          exact absurd rfl hentries
      subst hnil
      rw [String.intercalate_singleton]
      refine (hnode.item (follows_closer (.call receiver name) 1 rest)).trans ?_
      refine resume_closer.trans ?_
      rw [List.reverse_cons]
      rfl
    | cons next others =>
      have hnext : nodes ≠ [] := by
        rintro rfl
        cases hnodes
      have hgap : ", ".toList = [',', ' '] := rfl
      rw [String.intercalate_cons_cons, String.toList_append, String.toList_append, hgap]
      simp only [List.append_assoc, List.cons_append, List.nil_append]
      refine (hnode.item (follows_separator (.call receiver name) 1 _)).trans ?_
      refine resume_separator.trans ?_
      rw [resume_space, ih hnext]
      simp

theorem resume_call (h : ReadsArguments texts args) :
    resume ⟨.list (.call receiver name) [] :: stack, .operand⟩
        ((", ".intercalate texts).toList ++ ')' :: rest) =
      resume ⟨stack, .value (.call receiver name args none true)⟩ rest := by
  by_cases hne : args = []
  · subst hne
    cases h
    have hclose : Spells [')'] .closeParen rest := ⟨_, _, rfl, rfl⟩
    exact resume_of_spells hclose _
  · exact resume_arguments h hne

theorem reads_call (hname : isIdentifier name.toList = true) (hfree : isReserved name = false)
    (h : ReadsArguments texts args) :
    Reads 16 (name ++ "(" ++ ", ".intercalate texts ++ ")") (.call none name args none true) := by
  intro stack rest _ _ _
  have htext : (name ++ "(" ++ ", ".intercalate texts ++ ")").toList ++ rest =
      (name.toList ++ ['(']) ++ ((", ".intercalate texts).toList ++ ')' :: rest) := by
    rw [String.toList_append, String.toList_append, String.toList_append]
    simp
  rw [htext, resume_of_spells (spells_invoke hname), String.ofList_toList]
  simp only [Assembly.step, Assembly.begin?, hfree, Bool.false_eq_true, if_false, Option.bind_some]
  exact resume_call h

theorem Reads.call {a : String} {x : Node} (hx : Reads 16 a x)
    (hname : isIdentifier name.toList = true) (h : ReadsArguments texts args) :
    Reads 16 (a ++ "." ++ name ++ "(" ++ ", ".intercalate texts ++ ")")
      (.call (some x) name args none true) := by
  intro stack rest hstack hminus _
  have htext : (a ++ "." ++ name ++ "(" ++ ", ".intercalate texts ++ ")").toList ++ rest =
      a.toList ++ '.' :: ((name.toList ++ ['(']) ++
        ((", ".intercalate texts).toList ++ ')' :: rest)) := by
    rw [String.toList_append, String.toList_append, String.toList_append, String.toList_append,
      String.toList_append]
    simp
  rw [htext] at hminus ⊢
  rw [hx.dotted hstack hminus, resume_of_spells (spells_invoke hname), String.ofList_toList]
  exact resume_call h

end Arguments

end YcpToRuby.Ruby
