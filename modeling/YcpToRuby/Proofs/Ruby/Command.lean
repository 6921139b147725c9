import YcpToRuby.Proofs.Ruby.OneLine

/-!
# Expressions and commands as statements

An expression that stands as a statement may be a command, a call whose arguments have no
parentheses. Its text still determines it. In front of the arguments a value is complete, and since
they begin like an operand, the reader cannot go on there; so no expression has the text of a
command, and a command can be divided in one place only. No expression begins with a keyword.
-/

set_option autoImplicit false

namespace YcpToRuby.Ruby

open Assembly (continue? resume)

/-! ## Expressions -/

theorem Readable.read_operandText {node : Node} (h : Readable 0 node) (m : Nat) :
    resume {} (operandText m node (node.chunk 0)).toList = some node :=
  (h.reads.1 m).resume_nil

theorem Readable.operandText_inj {a b : Node} (ha : Readable 0 a) (hb : Readable 0 b) {m : Nat}
    (h : operandText m a (a.chunk 0) = operandText m b (b.chunk 0)) : a = b := by
  have hread := ha.read_operandText m
  rw [h, hb.read_operandText m] at hread
  exact (Option.some.inj hread).symm

theorem Readable.operandText_zero {node : Node} (h : Readable 0 node) :
    operandText 0 node (node.chunk 0) = node.chunk 0 :=
  h.oneLine.1.inline_eq _

theorem operandTexts_inj {a b : List Node} (ha : ∀ node ∈ a, Readable 0 node)
    (hb : ∀ node ∈ b, Readable 0 node)
    (h : commaSeparated (operandTexts 0 a) = commaSeparated (operandTexts 0 b)) : a = b := by
  have htext (items : List Node) : operandText 0 (.array items) ((Node.array items).chunk 0) =
      "[" ++ commaSeparated (operandTexts 0 items) ++ "]" := rfl
  have harray := (Readable.array ha).operandText_inj (.array hb) (m := 0) (by rw [htext, htext, h])
  exact Node.array.inj harray

theorem argumentTexts_inj {a b : List Node} (ha : ∀ node ∈ a, Readable 0 node)
    (hb : ∀ node ∈ b, Readable 0 node)
    (h : commaSeparated (argumentTexts 0 a) = commaSeparated (argumentTexts 0 b)) : a = b := by
  have htext (args : List Node) :
      operandText 0 (.call none "f" args none true) ((Node.call none "f" args none true).chunk 0) =
        "f" ++ "(" ++ commaSeparated (argumentTexts 0 args) ++ ")" := chunk_call
  have hreadable {args : List Node} (h : ∀ arg ∈ args, Readable 0 arg) :
      Readable 0 (.call none "f" args none true) := .call (by decide) (by decide) h
  have hcall := (hreadable ha).operandText_inj (hreadable hb) (m := 0) (by rw [htext, htext, h])
  injection hcall

theorem optionalOperand_inj {a b : Option Node} (ha : ∀ node ∈ a, Readable 0 node)
    (hb : ∀ node ∈ b, Readable 0 node) {before : String} (hbefore : before ≠ "") {m : Nat}
    (h : optionalOperand 0 before m a "" = optionalOperand 0 before m b "") : a = b := by
  have hempty (node : Node) :
      before ++ operandText m node (node.chunk 0) ++ "" ≠ "" := by
    simp [hbefore]
  cases a with
  | none =>
    cases b with
    | none => rfl
    | some y => exact absurd h.symm (hempty y)
  | some x =>
    cases b with
    | none => exact absurd h (hempty x)
    | some y =>
      have htext : before ++ operandText m x (x.chunk 0) ++ "" =
          before ++ operandText m y (y.chunk 0) ++ "" := h
      simp only [String.append_empty, String.append_right_inj] at htext
      rw [(ha x rfl).operandText_inj (hb y rfl) htext]

/-! ## Where reading fails -/

theorem tokens?_eq_none {c : Char} {rest : List Char} (hspace : c ≠ ' ')
    (h : token? c rest = none) : tokens? (c :: rest) = none := by
  rw [tokens?]
  simp only [beq_iff_eq, hspace, if_false]
  split
  · rfl
  · simp_all

/-- A state that no first token can follow. -/
theorem resume_eq_none {s : Assembly} {c : Char} {rest : List Char} (hspace : c ≠ ' ')
    (h : ∀ token tail, token? c rest = some (token, tail) → s.step token = none) :
    resume s (c :: rest) = none := by
  cases htoken : token? c rest with
  | none => rw [resume, tokens?_eq_none hspace htoken, Option.bind_none]
  | some result =>
    obtain ⟨token, tail⟩ := result
    rw [resume, tokens?_cons htoken]
    cases tokens? tail with
    | none => rfl
    | some tokens => simp [h token tail htoken]

def Token.isOperand : Token → Bool
  | .name _ | .invoke _ | .integer _ | .string _ | .symbol _ => true
  | .openParen | .openBracket | .openBrace => true
  | _ => false

/-- A token that begins an operand does not go on with a value. -/
theorem continue?_of_isOperand {token : Token} (h : token.isOperand = true) (node : Node) :
    continue? [] node token = none := by
  cases token with
  | name | invoke | integer | string | symbol | openParen | openBracket | openBrace => rfl
  | _ => cases h

theorem isOperand_nameToken (cs rest : List Char) : (nameToken cs rest).1.isOperand = true := by
  unfold nameToken
  split <;> rfl

theorem isOperand_symbolToken (cs rest : List Char) : (symbolToken cs rest).1.isOperand = true := by
  unfold symbolToken
  split <;> rfl

theorem isOperand_of_opens {c : Char} {rest tail : List Char} {token : Token}
    (h : Opens (c :: rest)) (htoken : token? c rest = some (token, tail)) :
    token.isOperand = true := by
  cases h with
  | @symbol d cs hd =>
    have hcolon : token? ':' (d :: cs) = colonToken? (d :: cs) := rfl
    rw [hcolon] at htoken
    rcases hd with rfl | hd
    · obtain ⟨result, -, heq⟩ := Option.map_eq_some_iff.mp htoken
      obtain ⟨rfl, -⟩ := Prod.mk.inj heq
      rfl
    · rw [colonToken?_name hd] at htoken
      have hname := isOperand_symbolToken (d :: cs.takeWhile isNameChar) (cs.dropWhile isNameChar)
      rwa [Option.some.inj htoken] at hname
  | plain hc =>
    unfold token? at htoken
    split at htoken
    · have hname := isOperand_nameToken (c :: rest.takeWhile isNameChar) (rest.dropWhile isNameChar)
      rwa [Option.some.inj htoken] at hname
    split at htoken
    · obtain ⟨rfl, -⟩ := Prod.mk.inj (Option.some.inj htoken)
      rfl
    split at htoken
    · split at htoken
      · obtain ⟨rfl, -⟩ := Prod.mk.inj (Option.some.inj htoken)
        rfl
      · cases htoken
    split at htoken
    · obtain ⟨result, -, heq⟩ := Option.map_eq_some_iff.mp htoken
      obtain ⟨rfl, -⟩ := Prod.mk.inj heq
      rfl
    · have hbracket : c = '(' ∨ c = '[' ∨ c = '\x7b' := by simp_all [opensOperand]
      rcases hbracket with rfl | rfl | rfl <;> cases htoken <;> rfl

/-- What begins like an operand does not go on with a value. -/
theorem resume_value_of_opens {cs : List Char} (h : Opens cs) (node : Node) :
    resume ⟨[], .value node⟩ cs = none := by
  cases cs with
  | nil => cases h
  | cons c rest =>
    have hspace : c ≠ ' ' := by
      rintro rfl
      cases h with
      | plain h => exact absurd h (by decide)
    exact resume_eq_none hspace fun token tail htoken =>
      continue?_of_isOperand (isOperand_of_opens h htoken) node

/-! ## Commands -/

def isSymbol : Node → Bool
  | .literal (.symbol _) => true
  | _ => false

def opensCommand : Node → Bool
  | .literal (.string _) | .const .. | .self => true
  | .hash entries => entries.all fun entry => isSymbol entry.1
  | _ => false

structure IsCommand (receiver : Option Node) (name : String) (first : Node) (rest : List Node) :
    Prop where
  receiver_readable : ∀ node ∈ receiver, Readable 0 node
  isIdentifier : isIdentifier name.toList = true
  not_reserved : isReserved name = false
  readable : ∀ arg ∈ first :: rest, Readable 0 arg
  opens : opensCommand first = true

def calleeText (receiver : Option Node) (name : String) : String :=
  optionalOperand 0 "" 16 receiver "." ++ name

def calleeNode (receiver : Option Node) (name : String) : Node :=
  match receiver with
  | none => if startsUppercase name then .const none name else .var name
  | some node => .call (some node) name [] none false

theorem calleeNode_inj {receiver receiver' : Option Node} {name name' : String}
    (h : calleeNode receiver name = calleeNode receiver' name') :
    receiver = receiver' ∧ name = name' := by
  unfold calleeNode at h
  cases receiver with
  | none =>
    cases receiver' with
    | none =>
      dsimp only at h
      split at h <;> split at h <;> cases h <;> exact ⟨rfl, rfl⟩
    | some node' =>
      dsimp only at h
      split at h <;> cases h
  | some node =>
    cases receiver' with
    | none =>
      dsimp only at h
      split at h <;> cases h
    | some node' =>
      cases h
      exact ⟨rfl, rfl⟩

/-- The first argument stands in front of the others, unless it is the last one and a hash. -/
theorem argumentTexts_cons (first : Node) (rest : List Node) :
    (∃ entry entries, first = .hash (entry :: entries) ∧
        argumentTexts 0 (first :: rest) = hashTexts 0 (entry :: entries)) ∨
      ∃ texts, argumentTexts 0 (first :: rest) =
        operandText 1 first (first.chunk 0) :: texts := by
  unfold argumentTexts
  split
  · rename_i heq
    cases heq
  · rename_i entries heq
    obtain ⟨rfl, rfl⟩ := List.cons.inj heq
    cases entries with
    | nil => exact Or.inr ⟨[], rfl⟩
    | cons entry entries => exact Or.inl ⟨entry, entries, rfl, rfl⟩
  · rename_i heq
    obtain ⟨rfl, rfl⟩ := List.cons.inj heq
    exact Or.inr ⟨_, rfl⟩

theorem argumentTexts_ne_nil (first : Node) (rest : List Node) :
    argumentTexts 0 (first :: rest) ≠ [] := by
  rcases argumentTexts_cons first rest with ⟨entry, entries, -, htexts⟩ | ⟨texts, htexts⟩
  · simp [htexts, hashTexts]
  · simp [htexts]

theorem precedence_of_opensCommand {node : Node} (h : opensCommand node = true) :
    node.precedence = 16 := by
  unfold opensCommand at h
  split at h
  · rfl
  · rfl
  · rfl
  · rfl
  · cases h

theorem Token.level_le (token : Token) : token.level ≤ 16 := by
  cases token with
  | binary op => cases op <;> decide
  | _ => exact Nat.le_of_ble_eq_true rfl

namespace IsCommand

variable {receiver receiver' : Option Node} {name name' : String} {first first' : Node}
  {rest rest' : List Node}

theorem oneLineTexts (h : IsCommand receiver name first rest) :
    OneLineTexts fun level => argumentTexts level (first :: rest) :=
  oneLineTexts_argumentTexts fun arg ha => (h.readable arg ha).oneLine

theorem chunk_eq (h : IsCommand receiver name first rest) (level : Nat) :
    (Node.command receiver name (first :: rest)).chunk level =
      calleeText receiver name ++ " " ++ commaSeparated (argumentTexts 0 (first :: rest)) := by
  have hreceiver : optionalOperand level "" 16 receiver "." =
      optionalOperand 0 "" 16 receiver "." := by
    cases receiver with
    | none => rfl
    | some node =>
      have heq := (h.receiver_readable node rfl).oneLine.1.operand_eq 16 level
      change "" ++ _ ++ "." = "" ++ _ ++ "."
      rw [heq]
  have hlist : argumentList receiver name none false (argumentTexts 0 (first :: rest)) =
      " " ++ commaSeparated (argumentTexts 0 (first :: rest)) := by
    simp [argumentList, argumentTexts_ne_nil]
  change optionalOperand level "" 16 receiver "." ++ name ++
    argumentList receiver name none false (argumentTexts level (first :: rest)) ++ "" = _
  rw [h.oneLineTexts.texts_eq, hreceiver, hlist, String.append_empty]
  simp only [calleeText, String.append_assoc]

theorem reads_callee (h : IsCommand receiver name first rest) :
    Reads 16 (calleeText receiver name) (calleeNode receiver name) := by
  unfold calleeText calleeNode
  cases receiver with
  | none =>
    change Reads 16 ("" ++ name) _
    rw [String.empty_append]
    refine reads_name h.isIdentifier ?_
    rw [nameNode?_of_free h.not_reserved]
    split <;> rfl
  | some node =>
    change Reads 16 ("" ++ _ ++ "." ++ name) _
    rw [String.empty_append]
    exact ((h.receiver_readable node rfl).reads.1 16).member h.isIdentifier

theorem isLineText_callee (h : IsCommand receiver name first rest) :
    IsLineText (calleeText receiver name) := by
  have hname := unbroken_of_isIdentifier h.isIdentifier
  unfold calleeText
  cases receiver with
  | none =>
    change IsLineText ("" ++ name)
    rw [String.empty_append]
    exact (opens_of_isIdentifier h.isIdentifier).isLineText hname
  | some node =>
    change IsLineText ("" ++ _ ++ "." ++ name)
    rw [String.empty_append]
    have hnode := (h.receiver_readable node rfl).oneLine.1.operand_isLineText 16
    exact (hnode.append (by decide)).append hname

/-- The arguments begin like an operand. -/
theorem opens_arguments (h : IsCommand receiver name first rest) :
    Opens (commaSeparated (argumentTexts 0 (first :: rest))).toList := by
  have hline := (h.readable first List.mem_cons_self).oneLine.1
  unfold commaSeparated
  rcases argumentTexts_cons first rest with ⟨entry, entries, rfl, htexts⟩ | ⟨texts, htexts⟩
  · obtain ⟨key, value⟩ := entry
    obtain ⟨hkey, -⟩ := Bool.and_eq_true_iff.mp h.opens
    rw [htexts, hashTexts, toList_intercalate_cons, String.toList_append, String.toList_append,
      List.append_assoc, List.append_assoc]
    refine Opens.append ?_ _
    change isSymbol key = true at hkey
    unfold isSymbol at hkey
    split at hkey
    · exact opens_symbolText _
    · cases hkey
  · have hatom : 16 ≤ first.precedence := Nat.le_of_eq (precedence_of_opensCommand h.opens).symm
    rw [htexts, toList_intercalate_cons]
    exact (hline.operand_opens (Or.inr hatom)).append _

theorem isLineText (h : IsCommand receiver name first rest) :
    IsLineText ((Node.command receiver name (first :: rest)).chunk 0) := by
  rw [h.chunk_eq]
  exact (h.isLineText_callee.append (by decide)).append
    (h.oneLineTexts.intercalate ", " (by decide)).2

theorem toList_chunk (h : IsCommand receiver name first rest) :
    ((Node.command receiver name (first :: rest)).chunk 0).toList =
      (calleeText receiver name).toList ++
        ' ' :: (commaSeparated (argumentTexts 0 (first :: rest))).toList := by
  simp [h.chunk_eq]

/-- Where the arguments begin, the reader cannot go on. -/
theorem resume_arguments (h : IsCommand receiver name first rest) {cs : List Char}
    (hcs : Opens cs) : resume {} ((calleeText receiver name).toList ++ ' ' :: cs) = none := by
  have hfollows : Follows 16 (' ' :: cs) :=
    ⟨by simp [Ends, endsToken], fun token _ _ => token.level_le⟩
  refine (h.reads_callee [] _ (accepts_nil 16) (by simp [KeepsMinus]) hfollows).trans ?_
  rw [resume_space]
  exact resume_value_of_opens hcs _

/-- The callee of a command does not go on where that of another one ends. -/
theorem callee_not_extended (h : IsCommand receiver name first rest)
    (h' : IsCommand receiver' name' first' rest') {more : List Char}
    (hcallee : (calleeText receiver' name').toList = (calleeText receiver name).toList ++ more)
    (harguments : ' ' :: (commaSeparated (argumentTexts 0 (first :: rest))).toList =
      more ++ ' ' :: (commaSeparated (argumentTexts 0 (first' :: rest'))).toList) : more = [] := by
  cases more with
  | nil => rfl
  | cons c cs =>
    obtain ⟨rfl, hlist⟩ := List.cons.inj harguments
    have hopens := h.opens_arguments
    rw [hlist] at hopens
    have hread := h'.reads_callee.resume_nil
    rw [hcallee, h.resume_arguments hopens.of_append_space] at hread
    cases hread

/-- The text of a command determines its parts. -/
theorem inj (h : IsCommand receiver name first rest)
    (h' : IsCommand receiver' name' first' rest')
    (heq : (Node.command receiver name (first :: rest)).chunk 0 =
      (Node.command receiver' name' (first' :: rest')).chunk 0) :
    receiver = receiver' ∧ name = name' ∧ first :: rest = first' :: rest' := by
  have hlists := congrArg String.toList heq
  rw [h.toList_chunk, h'.toList_chunk] at hlists
  have hcallee : calleeText receiver name = calleeText receiver' name' := by
    rcases List.append_eq_append_iff.mp hlists with ⟨more, hmore, hrest⟩ | ⟨more, hmore, hrest⟩
    · rw [h.callee_not_extended h' hmore hrest, List.append_nil] at hmore
      exact (String.toList_inj.mp hmore).symm
    · rw [h'.callee_not_extended h hmore hrest, List.append_nil] at hmore
      exact String.toList_inj.mp hmore
  have hread := h.reads_callee.resume_nil
  rw [hcallee, h'.reads_callee.resume_nil] at hread
  obtain ⟨hreceiver, hname⟩ := calleeNode_inj (Option.some.inj hread).symm
  rw [hcallee] at hlists
  have hargs := List.cons.inj (List.append_cancel_left hlists)
  exact ⟨hreceiver, hname, argumentTexts_inj h.readable h'.readable (String.toList_inj.mp hargs.2)⟩

end IsCommand

/-! ## First words -/

def firstWord (text : String) : String :=
  String.ofList (text.toList.takeWhile isNameChar)

/-- A reserved word other than those for values begins no expression. -/
theorem resume_of_keyword {text : String} (h : nameNode? (firstWord text) = none) :
    resume {} text.toList = none := by
  have hreserved : isReserved (firstWord text) = true := by
    by_contra hfree
    rw [nameNode?_of_free (eq_false_of_ne_true hfree)] at h
    split at h <;> cases h
  have hstart : (firstWord text).toList.head?.any isNameStart = true := by
    have hwords : ∀ word ∈ reservedWords, word.toList.head?.any isNameStart = true := by decide
    exact hwords _ (List.contains_iff_mem.mp hreserved)
  unfold firstWord at h hreserved hstart
  rw [String.toList_ofList] at hstart
  cases hlist : text.toList with
  | nil => simp [hlist] at hstart
  | cons c cs =>
    rw [hlist] at h hreserved hstart
    have hname : isNameChar c = true := by
      by_contra hnot
      simp [hnot] at hstart
    rw [List.takeWhile_cons_of_pos hname] at h hreserved hstart
    have hc : isNameStart c = true := hstart
    have hspace : c ≠ ' ' := by
      rintro rfl
      exact absurd hc (by decide)
    refine resume_eq_none hspace fun token tail htoken => ?_
    have hstep : Assembly.begin? []
        (nameToken (c :: cs.takeWhile isNameChar) (cs.dropWhile isNameChar)).1 = none := by
      unfold nameToken
      split
      · simp only [Assembly.begin?, hreserved, if_true]
      · simp only [Assembly.begin?, h, Option.map_none]
    rw [token?, if_pos hc] at htoken
    rw [Option.some.inj htoken] at hstep
    exact hstep

theorem firstWord_append_space (text rest : String) :
    firstWord (text ++ " " ++ rest) = firstWord text := by
  have hspace : isNameChar ' ' = false := by decide
  have hlist (cs ds : List Char) :
      (cs ++ ' ' :: ds).takeWhile isNameChar = cs.takeWhile isNameChar := by
    induction cs with
    | nil => simp [hspace]
    | cons c cs ih => simp [List.takeWhile_cons, ih]
  simp [firstWord, hlist]

inductive IsExpression : Node → Prop
  | value {node : Node} (h : Readable 0 node) : IsExpression node
  | command {receiver : Option Node} {name : String} {first : Node} {rest : List Node}
      (h : IsCommand receiver name first rest) :
      IsExpression (.command receiver name (first :: rest))

namespace IsExpression

variable {node node' : Node}

theorem firstWord_ne_keyword (h : IsExpression node) :
    nameNode? (firstWord (node.chunk 0)) ≠ none := by
  intro hword
  cases h with
  | value h =>
    have hread := h.read_operandText 0
    rw [h.operandText_zero, resume_of_keyword hword] at hread
    cases hread
  | command h =>
    rw [h.chunk_eq, firstWord_append_space] at hword
    have hread := h.reads_callee.resume_nil
    rw [resume_of_keyword hword] at hread
    cases hread

theorem isLineText (h : IsExpression node) : IsLineText (node.chunk 0) := by
  cases h with
  | value h => exact h.oneLine.1.isLineText
  | command h => exact h.isLineText

theorem chunk_eq (h : IsExpression node) (level : Nat) : node.chunk level = node.chunk 0 := by
  cases h with
  | value h => exact h.oneLine.1.chunk_eq level
  | command h => rw [h.chunk_eq, h.chunk_eq]

theorem value_ne_command {receiver : Option Node} {name : String} {first : Node} {rest : List Node}
    (h : Readable 0 node) (h' : IsCommand receiver name first rest) :
    node.chunk 0 ≠ (Node.command receiver name (first :: rest)).chunk 0 := by
  intro heq
  have hread := h.read_operandText 0
  rw [h.operandText_zero, heq, h'.toList_chunk, h'.resume_arguments h'.opens_arguments] at hread
  cases hread

theorem chunk_inj (h : IsExpression node) (h' : IsExpression node')
    (heq : node.chunk 0 = node'.chunk 0) : node = node' := by
  cases h with
  | value h =>
    cases h' with
    | value h' =>
      rw [← h.operandText_zero, ← h'.operandText_zero] at heq
      exact h.operandText_inj h' heq
    | command h' => exact absurd heq (value_ne_command h h')
  | command h =>
    cases h' with
    | value h' => exact absurd heq.symm (value_ne_command h' h)
    | command h' =>
      obtain ⟨rfl, rfl, hargs⟩ := h.inj h' heq
      rw [hargs]

end IsExpression

end YcpToRuby.Ruby
