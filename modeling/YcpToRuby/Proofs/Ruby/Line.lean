import YcpToRuby.Proofs.Ruby.Command

/-!
# Lines of statements

A statement is written as lines, each of them a keyword with what follows it, or an expression. The
text of a line determines the line: the first word tells which keyword it begins with, if any, and
what follows is read as expressions and names are.
-/

set_option autoImplicit false

namespace YcpToRuby.Ruby

/-! ## Names in lines -/

theorem name_append_inj {a b : String} (ha : isIdentifier a.toList = true)
    (hb : isIdentifier b.toList = true) {rest rest' : List Char}
    (hrest : ∀ c ∈ rest.head?, isNameChar c = false)
    (hrest' : ∀ c ∈ rest'.head?, isNameChar c = false)
    (h : a.toList ++ rest = b.toList ++ rest') : a = b ∧ rest = rest' := by
  obtain ⟨htake, hdrop⟩ := span_append (all_of_isIdentifier ha) hrest
  obtain ⟨htake', hdrop'⟩ := span_append (all_of_isIdentifier hb) hrest'
  rw [h] at htake hdrop
  exact ⟨String.toList_inj.mp (htake.symm.trans htake'), hdrop.symm.trans hdrop'⟩

theorem names_inj {a b : List String} (ha : ∀ name ∈ a, isIdentifier name.toList = true)
    (hb : ∀ name ∈ b, isIdentifier name.toList = true)
    (h : laterTexts a ++ [')'] = laterTexts b ++ [')']) : a = b := by
  have hends (names : List String) :
      ∀ c ∈ (laterTexts names ++ [')']).head?, isNameChar c = false := by
    cases names with
    | nil => simp [laterTexts]; decide
    | cons name names => simp [laterTexts]; decide
  induction a generalizing b with
  | nil =>
    cases b with
    | nil => rfl
    | cons name b => simp [laterTexts] at h
  | cons name a ih =>
    cases b with
    | nil => simp [laterTexts] at h
    | cons name' b =>
      have hlist : name.toList ++ (laterTexts a ++ [')']) =
          name'.toList ++ (laterTexts b ++ [')']) := by
        simpa [laterTexts] using h
      obtain ⟨rfl, hrest⟩ := name_append_inj (ha name List.mem_cons_self)
        (hb name' List.mem_cons_self) (hends a) (hends b) hlist
      rw [ih (fun x hx => ha x (List.mem_cons_of_mem _ hx))
        (fun x hx => hb x (List.mem_cons_of_mem _ hx)) hrest]

theorem paramList_inj {a b : List String} (ha : ∀ name ∈ a, isIdentifier name.toList = true)
    (hb : ∀ name ∈ b, isIdentifier name.toList = true) (h : paramList a = paramList b) :
    a = b := by
  have htext (name : String) (names : List String) :
      (paramList (name :: names)).toList = '(' :: name.toList ++ (laterTexts names ++ [')']) := by
    change ("(" ++ ", ".intercalate (name :: names) ++ ")").toList = _
    simp only [String.toList_append, toList_intercalate_cons]
    simp
  have hnone : (paramList []).toList = [] := rfl
  have hlist := congrArg String.toList h
  cases a with
  | nil =>
    cases b with
    | nil => rfl
    | cons name b => simp [hnone, htext] at hlist
  | cons name a =>
    cases b with
    | nil => simp [hnone, htext] at hlist
    | cons name' b =>
      rw [htext, htext] at hlist
      exact names_inj ha hb (by simpa [laterTexts] using hlist)

/-! ## Lines -/

def clauseWords : List String :=
  ["begin", "if", "elsif", "unless", "case", "while", "until", "else", "break", "next", "return"]

def headWords : List String :=
  ["when", "class", "module", "def", "end"]

theorem word_facts : ∀ word ∈ clauseWords ++ headWords,
    isIdentifier word.toList = true ∧ nameNode? word = none := by
  decide

theorem LoopKind.word_inj {kind kind' : LoopKind} (h : kind.word = kind'.word) : kind = kind' := by
  cases kind <;> cases kind' <;> simp_all [LoopKind.word]

theorem word_mem_clauseWords (kind : LoopKind) : kind.word ∈ clauseWords := by
  cases kind <;> decide

inductive Line where
  | clause (word : String) (operand : Option Node)
  | whenValues (values : List Node)
  | classHead (name : String) (superclass : Option Node)
  | moduleHead (name : String)
  | methodHead (name : String) (params : List String)
  | ending (loop : Option (LoopKind × Node))
  | expression (node : Node)

namespace Line

def word : Line → String
  | clause word _ => word
  | whenValues _ => "when"
  | classHead .. => "class"
  | moduleHead _ => "module"
  | methodHead .. => "def"
  | ending _ => "end"
  | expression _ => ""

def tail : Line → String
  | clause _ operand => optionalOperand 0 " " 1 operand ""
  | whenValues values => " " ++ commaSeparated (operandTexts 0 values)
  | classHead name superclass => " " ++ name ++ optionalOperand 0 " < " 16 superclass ""
  | moduleHead name => " " ++ name
  | methodHead name params => " " ++ name ++ paramList params
  | ending none => ""
  | ending (some (kind, condition)) =>
    " " ++ kind.word ++ " " ++ operandText 1 condition (condition.chunk 0)
  | expression node => node.chunk 0

def text (line : Line) : String :=
  line.word ++ line.tail

def IsValid : Line → Prop
  | clause word operand => word ∈ clauseWords ∧ ∀ node ∈ operand, Readable 0 node
  | whenValues values => ∀ node ∈ values, Readable 0 node
  | classHead name superclass =>
    isIdentifier name.toList = true ∧ ∀ node ∈ superclass, Readable 0 node
  | moduleHead name => isIdentifier name.toList = true
  | methodHead name params =>
    isIdentifier name.toList = true ∧ ∀ param ∈ params, isIdentifier param.toList = true
  | ending loop => ∀ last ∈ loop, Readable 0 last.2
  | expression node => IsExpression node

variable {line line' : Line}

structure Keyworded (line : Line) : Prop where
  word_mem : line.word ∈ clauseWords ++ headWords
  head : ∀ c ∈ line.tail.toList.head?, c = ' '
  unbroken : Unbroken line.tail

theorem unbroken_optionalOperand {operand : Option Node} (h : ∀ node ∈ operand, Readable 0 node)
    {before : String} (hbefore : Unbroken before) (m : Nat) :
    Unbroken (optionalOperand 0 before m operand "") := by
  cases operand with
  | none => exact (by decide : Unbroken "")
  | some node =>
    change Unbroken (before ++ _ ++ "")
    simp only [unbroken_append]
    exact ⟨⟨hbefore, (h node rfl).oneLine.1.operand_unbroken m⟩, by decide⟩

theorem unbroken_paramList {params : List String}
    (h : ∀ param ∈ params, isIdentifier param.toList = true) : Unbroken (paramList params) := by
  unfold paramList
  split
  · decide
  · simp only [unbroken_append]
    exact ⟨⟨by decide, unbroken_intercalate (by decide) fun param hp =>
      unbroken_of_isIdentifier (h param hp)⟩, by decide⟩

theorem keyworded_or_expression (h : line.IsValid) :
    line.Keyworded ∨ ∃ node, line = .expression node := by
  have hhead {word : String} (hword : word ∈ headWords) : word ∈ clauseWords ++ headWords :=
    List.mem_append_right _ hword
  cases line with
  | clause word operand =>
    refine Or.inl ⟨List.mem_append_left _ h.1, ?_, unbroken_optionalOperand h.2 (by decide) 1⟩
    cases operand with
    | none => simp [tail, optionalOperand]
    | some node => simp [tail, optionalOperand]
  | whenValues values =>
    have hvalues := oneLineTexts_operandTexts fun node hn => (h node hn).oneLine.1
    refine Or.inl ⟨hhead (by simp [word, headWords]), by simp [tail], ?_⟩
    exact unbroken_append.mpr ⟨by decide, (hvalues.intercalate ", " (by decide)).2⟩
  | classHead name superclass =>
    refine Or.inl ⟨hhead (by simp [word, headWords]), by simp [tail], ?_⟩
    simp only [tail, unbroken_append]
    exact ⟨⟨by decide, unbroken_of_isIdentifier h.1⟩, unbroken_optionalOperand h.2 (by decide) 16⟩
  | moduleHead name =>
    refine Or.inl ⟨hhead (by simp [word, headWords]), by simp [tail], ?_⟩
    exact unbroken_append.mpr ⟨by decide, unbroken_of_isIdentifier h⟩
  | methodHead name params =>
    refine Or.inl ⟨hhead (by simp [word, headWords]), by simp [tail], ?_⟩
    simp only [tail, unbroken_append]
    exact ⟨⟨by decide, unbroken_of_isIdentifier h.1⟩, unbroken_paramList h.2⟩
  | ending loop =>
    cases loop with
    | none => exact Or.inl ⟨hhead (by simp [word, headWords]), by simp [tail], by decide⟩
    | some last =>
      obtain ⟨kind, condition⟩ := last
      refine Or.inl ⟨hhead (by simp [word, headWords]), by simp [tail], ?_⟩
      have hkind := unbroken_of_isIdentifier
        (word_facts _ (List.mem_append_left _ (word_mem_clauseWords kind))).1
      simp only [tail, unbroken_append]
      exact ⟨⟨⟨by decide, hkind⟩, by decide⟩,
        (h (kind, condition) rfl).oneLine.1.operand_unbroken 1⟩
  | expression node => exact Or.inr ⟨node, rfl⟩

theorem Keyworded.isIdentifier (h : line.Keyworded) :
    Ruby.isIdentifier line.word.toList = true :=
  (word_facts _ h.word_mem).1

theorem Keyworded.firstWord_text (h : line.Keyworded) : firstWord line.text = line.word := by
  have hends : ∀ c ∈ line.tail.toList.head?, isNameChar c = false := by
    intro c hc
    rw [h.head c hc]
    decide
  have hspan := (span_append (all_of_isIdentifier h.isIdentifier) hends).1
  rw [firstWord, text, String.toList_append, hspan, String.ofList_toList]

theorem isLineText (h : line.IsValid) : IsLineText line.text := by
  rcases keyworded_or_expression h with hline | ⟨node, rfl⟩
  · have hword := unbroken_of_isIdentifier hline.isIdentifier
    exact ((opens_of_isIdentifier hline.isIdentifier).isLineText hword).append hline.unbroken
  · change IsLineText ("" ++ node.chunk 0)
    rw [String.empty_append]
    exact IsExpression.isLineText h

/-- The first word of an expression is no keyword. -/
theorem word_inj (h : line.IsValid) (h' : line'.IsValid) (heq : line.text = line'.text) :
    line.word = line'.word := by
  have hexpression {node : Node} (h : IsExpression node) {line : Line} (hline : line.Keyworded) :
      (expression node).text ≠ line.text := by
    intro heq
    have hnone := (word_facts _ hline.word_mem).2
    rw [← hline.firstWord_text, ← heq] at hnone
    refine h.firstWord_ne_keyword ?_
    change nameNode? (firstWord ("" ++ node.chunk 0)) = none at hnone
    rwa [String.empty_append] at hnone
  rcases keyworded_or_expression h with hline | ⟨node, rfl⟩
  · rcases keyworded_or_expression h' with hline' | ⟨node', rfl⟩
    · rw [← hline.firstWord_text, heq, hline'.firstWord_text]
    · exact absurd heq.symm (hexpression h' hline)
  · rcases keyworded_or_expression h' with hline' | ⟨node', rfl⟩
    · exact absurd heq (hexpression h hline')
    · rfl

/-- What follows a name in the head of a class or a method. -/
theorem heads_inj {name name' : String} (h : Ruby.isIdentifier name.toList = true)
    (h' : Ruby.isIdentifier name'.toList = true) {rest rest' : String}
    (hrest : ∀ c ∈ rest.toList.head?, isNameChar c = false)
    (hrest' : ∀ c ∈ rest'.toList.head?, isNameChar c = false)
    (heq : " " ++ name ++ rest = " " ++ name' ++ rest') : name = name' ∧ rest = rest' := by
  simp only [String.append_assoc, String.append_right_inj] at heq
  have hlists := congrArg String.toList heq
  rw [String.toList_append, String.toList_append] at hlists
  obtain ⟨hname, hlist⟩ := name_append_inj h h' hrest hrest' hlists
  exact ⟨hname, String.toList_inj.mp hlist⟩

theorem head_superclass (superclass : Option Node) :
    ∀ c ∈ (optionalOperand 0 " < " 16 superclass "").toList.head?, isNameChar c = false := by
  cases superclass with
  | none => simp [optionalOperand]
  | some node =>
    simp [optionalOperand]
    decide

theorem head_paramList (params : List String) :
    ∀ c ∈ (paramList params).toList.head?, isNameChar c = false := by
  unfold paramList
  split
  · simp
  · simp
    decide

theorem ending_inj {loop loop' : Option (LoopKind × Node)} (h : (ending loop).IsValid)
    (h' : (ending loop').IsValid) (heq : (ending loop).tail = (ending loop').tail) :
    loop = loop' := by
  cases loop with
  | none =>
    cases loop' with
    | none => rfl
    | some last => simp [tail] at heq
  | some last =>
    cases loop' with
    | none => simp [tail] at heq
    | some last' =>
      obtain ⟨kind, condition⟩ := last
      obtain ⟨kind', condition'⟩ := last'
      have hword (kind : LoopKind) : Ruby.isIdentifier kind.word.toList = true :=
        (word_facts _ (List.mem_append_left _ (word_mem_clauseWords kind))).1
      have hspace (text : String) : ∀ c ∈ (" " ++ text).toList.head?, isNameChar c = false := by
        simp
        decide
      have htail (kind : LoopKind) (condition : Node) :
          (ending (some (kind, condition))).tail =
            " " ++ kind.word ++ (" " ++ operandText 1 condition (condition.chunk 0)) :=
        String.append_assoc
      rw [htail, htail] at heq
      obtain ⟨hkind, hcondition⟩ := heads_inj (hword kind) (hword kind') (hspace _) (hspace _) heq
      have hconditions : condition = condition' :=
        (h _ rfl).operandText_inj (h' _ rfl) ((String.append_right_inj _).mp hcondition)
      rw [LoopKind.word_inj hkind, hconditions]

theorem clause_word_ne {word : String} {operand : Option Node} (h : (clause word operand).IsValid)
    (hline : ∀ word operand, line ≠ clause word operand) : word ≠ line.word := by
  have hmem := h.1
  rintro rfl
  cases line with
  | clause word operand => exact absurd rfl (hline word operand)
  | _ => simp [Line.word, clauseWords] at hmem

/-- The text of a line determines the line. -/
theorem text_inj (h : line.IsValid) (h' : line'.IsValid) (heq : line.text = line'.text) :
    line = line' := by
  have hword := word_inj h h' heq
  have htail : line.tail = line'.tail := by
    unfold text at heq
    rwa [hword, String.append_right_inj] at heq
  cases line with
  | clause word operand =>
    cases line' with
    | clause word' operand' =>
      change word = word' at hword
      rw [hword, optionalOperand_inj h.2 h'.2 (by decide) htail]
    | _ => exact absurd hword (clause_word_ne h (by simp))
  | whenValues values =>
    cases line' with
    | whenValues values' =>
      rw [operandTexts_inj h h' ((String.append_right_inj _).mp htail)]
    | clause => exact absurd hword.symm (clause_word_ne h' (by simp))
    | _ => simp [word] at hword
  | classHead name superclass =>
    cases line' with
    | classHead name' superclass' =>
      obtain ⟨rfl, hsuper⟩ :=
        heads_inj h.1 h'.1 (head_superclass superclass) (head_superclass superclass') htail
      rw [optionalOperand_inj h.2 h'.2 (by decide) hsuper]
    | clause => exact absurd hword.symm (clause_word_ne h' (by simp))
    | _ => simp [word] at hword
  | moduleHead name =>
    cases line' with
    | moduleHead name' => rw [(String.append_right_inj _).mp htail]
    | clause => exact absurd hword.symm (clause_word_ne h' (by simp))
    | _ => simp [word] at hword
  | methodHead name params =>
    cases line' with
    | methodHead name' params' =>
      obtain ⟨rfl, hparams⟩ :=
        heads_inj h.1 h'.1 (head_paramList params) (head_paramList params') htail
      rw [paramList_inj h.2 h'.2 hparams]
    | clause => exact absurd hword.symm (clause_word_ne h' (by simp))
    | _ => simp [word] at hword
  | ending loop =>
    cases line' with
    | ending loop' => rw [ending_inj h h' htail]
    | clause => exact absurd hword.symm (clause_word_ne h' (by simp))
    | _ => simp [word] at hword
  | expression node =>
    cases line' with
    | expression node' => rw [IsExpression.chunk_inj h h' htail]
    | clause => exact absurd hword.symm (clause_word_ne h' (by simp))
    | _ => simp [word] at hword

end Line

end YcpToRuby.Ruby
