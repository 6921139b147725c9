import YcpToRuby.Proofs.Ruby.Rows

/-!
# Statements and their rows

Statements are those of classes, methods, branches, loops, jumps and expressions whose bodies are
sequences of statements. The text of a statement is the text of its rows.
-/

set_option autoImplicit false

namespace YcpToRuby.Ruby

/-! ## Statements -/

inductive ReadableStatement : Node → Prop
  | classDef {name : String} {superclass : Option Node} {entries : List Node}
      (hname : isIdentifier name.toList = true) (hsuper : ∀ node ∈ superclass, Readable 0 node)
      (h : ∀ entry ∈ entries, ReadableStatement entry) :
      ReadableStatement (.classDef name superclass (.statements entries))
  | moduleDef {name : String} {entries : List Node} (hname : isIdentifier name.toList = true)
      (h : ∀ entry ∈ entries, ReadableStatement entry) :
      ReadableStatement (.moduleDef name (.statements entries))
  | methodDef {name : String} {params : List String} {entries : List Node}
      (hname : isIdentifier name.toList = true)
      (hparams : ∀ param ∈ params, isIdentifier param.toList = true)
      (h : ∀ entry ∈ entries, ReadableStatement entry) :
      ReadableStatement (.methodDef name params (.statements entries))
  | beginEnd {entries : List Node} (h : ∀ entry ∈ entries, ReadableStatement entry) :
      ReadableStatement (.beginEnd (.statements entries))
  | ifElse {condition : Node} {entries : List Node} {otherwise : Option (List Node)}
      (hc : Readable 0 condition) (h : ∀ entry ∈ entries, ReadableStatement entry)
      (helse : ∀ others ∈ otherwise, ∀ entry ∈ others, ReadableStatement entry) :
      ReadableStatement (.ifElse condition (.statements entries) (otherwise.map .statements))
  | ifChain {condition : Node} {entries : List Node} {condition' thenBody : Node}
      {elseBody : Option Node} (hc : Readable 0 condition)
      (h : ∀ entry ∈ entries, ReadableStatement entry)
      (hnext : ReadableStatement (.ifElse condition' thenBody elseBody)) :
      ReadableStatement
        (.ifElse condition (.statements entries) (some (.ifElse condition' thenBody elseBody)))
  | unlessElse {condition : Node} {entries : List Node} {otherwise : Option (List Node)}
      (hc : Readable 0 condition) (h : ∀ entry ∈ entries, ReadableStatement entry)
      (helse : ∀ others ∈ otherwise, ∀ entry ∈ others, ReadableStatement entry) :
      ReadableStatement (.unlessElse condition (.statements entries) (otherwise.map .statements))
  | caseWhen {subject : Node} {clauses : List (List Node × List Node)}
      {otherwise : Option (List Node)} (hs : Readable 0 subject)
      (hvalues : ∀ clause ∈ clauses, ∀ value ∈ clause.1, Readable 0 value)
      (h : ∀ clause ∈ clauses, ∀ entry ∈ clause.2, ReadableStatement entry)
      (helse : ∀ others ∈ otherwise, ∀ entry ∈ others, ReadableStatement entry) :
      ReadableStatement (.caseWhen subject
        (clauses.map fun clause => (clause.1, .statements clause.2)) (otherwise.map .statements))
  | loop {kind : LoopKind} {condition : Node} {entries : List Node} (hc : Readable 0 condition)
      (h : ∀ entry ∈ entries, ReadableStatement entry) :
      ReadableStatement (.loop kind condition (.statements entries))
  | loopBegin {kind : LoopKind} {condition : Node} {entries : List Node}
      (hc : Readable 0 condition) (h : ∀ entry ∈ entries, ReadableStatement entry) :
      ReadableStatement (.loop kind condition (.beginEnd (.statements entries)))
  | breakLoop : ReadableStatement .breakLoop
  | next {value : Option Node} (h : ∀ node ∈ value, Readable 0 node) :
      ReadableStatement (.next value)
  | ret {value : Option Node} (h : ∀ node ∈ value, Readable 0 node) : ReadableStatement (.ret value)
  | expression {node : Node} (h : IsExpression node) : ReadableStatement node

/-! ## Text and rows -/

structure Laid (node : Node) : Prop where
  inline_eq : ∀ chunk, inlineText node chunk = chunk
  rowsText_eq : ∀ level, rowsText (node.rows level) = indent level ++ node.chunk level ++ "\n"
  isValid : ∀ level, ∀ row ∈ node.rows level, row.IsValid
  head : ∀ level, ∃ line rest, node.rows level = .line level line :: rest

theorem rowsText_line (level : Nat) (line : Line) (rows : List Row) :
    rowsText (.line level line :: rows) = indent level ++ line.text ++ "\n" ++ rowsText rows :=
  rfl

theorem rowsText_end (level : Nat) : rowsText [endRow level] = indent level ++ "end" ++ "\n" := by
  change indent level ++ ("end" ++ "") ++ "\n" ++ "" = _
  rw [String.append_empty, String.append_empty]

theorem isValid_end (level : Nat) : (endRow level).IsValid := by
  simp [endRow, Row.IsValid, Line.IsValid]

theorem entryChunks_map_some (level : Nat) (entries : List Node) :
    entryChunks level (entries.map some) = entries.map fun node => (node, node.chunk level) := by
  induction entries with
  | nil => rfl
  | cons node entries ih => simp only [List.map_cons, entryChunks, ih]

theorem entryRows_map_some (level : Nat) (entries : List Node) :
    entryRows level (entries.map some) = entries.map fun node => (node, node.rows level) := by
  induction entries with
  | nil => rfl
  | cons node entries ih => simp only [List.map_cons, entryRows, ih]

theorem rows_statements (level : Nat) (entries : List Node) :
    (Node.statements entries).rows level =
      spacedRows (entries.map fun node => (node, node.rows level)) := by
  rw [← entryRows_map_some]
  rfl

/-- The blank line after an entry. -/
theorem rowsText_gapRows (level : Nat) (node next : Node) (entries : List Node) :
    rowsText (gapRows node ((next :: entries).map fun node => (node, node.rows level))) =
      if isSpaced node || isSpaced next then "\n" else "" := by
  simp only [List.map_cons, gapRows]
  split <;> rfl

theorem rowsText_statements {entries : List Node} (h : ∀ entry ∈ entries, Laid entry)
    (level : Nat) :
    rowsText ((Node.statements entries).rows level) =
      linesText level (.statements entries) ((Node.statements entries).chunk level) := by
  change _ = entryLines level (entryChunks level (entries.map some))
  rw [rows_statements, entryChunks_map_some]
  induction entries with
  | nil => rfl
  | cons node entries ih =>
    have hnode := h node List.mem_cons_self
    have hrest := ih fun x hx => h x (List.mem_cons_of_mem _ hx)
    rw [List.map_cons, spacedRows, rowsText_append, rowsText_append, hnode.rowsText_eq, hrest]
    cases entries with
    | nil =>
      simp only [List.map_cons, List.map_nil, gapRows, rowsText, entryLines, hnode.inline_eq,
        String.append_empty]
    | cons next entries =>
      rw [rowsText_gapRows]
      simp only [List.map_cons, entryLines, hnode.inline_eq]

theorem isValid_statements {entries : List Node} (h : ∀ entry ∈ entries, Laid entry)
    (level : Nat) : ∀ row ∈ (Node.statements entries).rows level, row.IsValid := by
  rw [rows_statements]
  induction entries with
  | nil => simp [spacedRows]
  | cons node entries ih =>
    have hrest := ih fun x hx => h x (List.mem_cons_of_mem _ hx)
    have hgap : ∀ row ∈ gapRows node (entries.map fun node => (node, node.rows level)),
        row.IsValid := by
      unfold gapRows
      split
      · simp
      · split <;> simp [Row.IsValid]
    intro row hrow
    rw [List.map_cons, spacedRows, List.mem_append, List.mem_append] at hrow
    rcases hrow with (hrow | hrow) | hrow
    · exact (h node List.mem_cons_self).isValid level row hrow
    · exact hgap row hrow
    · exact hrest row hrow

/-- A statement from its first row and the rows after it. -/
theorem laid_of_head {node : Node} (line : Line) {rest : Nat → List Row}
    (hinline : ∀ chunk, inlineText node chunk = chunk)
    (hrows : ∀ level, node.rows level = .line level line :: rest level) (hline : line.IsValid)
    (hvalid : ∀ level, ∀ row ∈ rest level, row.IsValid)
    (htext : ∀ level, line.text ++ "\n" ++ rowsText (rest level) = node.chunk level ++ "\n") :
    Laid node := by
  refine ⟨hinline, fun level => ?_, fun level => ?_, fun level => ⟨_, _, hrows level⟩⟩
  · calc rowsText (node.rows level)
        = indent level ++ (line.text ++ "\n" ++ rowsText (rest level)) := by
          rw [hrows, rowsText_line]
          simp only [String.append_assoc]
      _ = indent level ++ (node.chunk level ++ "\n") := by rw [htext]
      _ = indent level ++ node.chunk level ++ "\n" := String.append_assoc.symm
  · rw [hrows]
    exact List.forall_mem_cons.mpr ⟨hline, hvalid level⟩

theorem laid_of_line {node : Node} (line : Line)
    (hinline : ∀ chunk, inlineText node chunk = chunk)
    (hrows : ∀ level, node.rows level = [.line level line]) (hline : line.IsValid)
    (htext : ∀ level, line.text = node.chunk level) : Laid node := by
  refine laid_of_head line hinline hrows hline (by simp) fun level => ?_
  rw [htext level, rowsText, String.append_empty]

/-- A statement that is a first row, a body and a last row. -/
theorem laid_of_body {node : Node} (line last : Line) {entries : List Node}
    (hinline : ∀ chunk, inlineText node chunk = chunk)
    (hrows : ∀ level, node.rows level = .line level line ::
      ((Node.statements entries).rows (level + 1) ++ [.line level last]))
    (hline : line.IsValid) (hlast : last.IsValid) (h : ∀ entry ∈ entries, Laid entry)
    (htext : ∀ level, node.chunk level = line.text ++ "\n" ++
      linesText (level + 1) (.statements entries) ((Node.statements entries).chunk (level + 1)) ++
      indent level ++ last.text) : Laid node := by
  refine laid_of_head line hinline hrows hline (fun level row hrow => ?_) fun level => ?_
  · rcases List.mem_append.mp hrow with hrow | hrow
    · exact isValid_statements h _ row hrow
    · obtain rfl := List.mem_singleton.mp hrow
      exact hlast
  · rw [htext, rowsText_append, rowsText_statements h, rowsText_line, rowsText, String.append_empty]
    simp only [String.append_assoc]

theorem optionalOperand_eq {operand : Option Node} (h : ∀ node ∈ operand, Readable 0 node)
    (level : Nat) (before : String) (m : Nat) :
    optionalOperand level before m operand "" = optionalOperand 0 before m operand "" := by
  cases operand with
  | none => rfl
  | some node =>
    have heq := (h node rfl).oneLine.1.operand_eq m level
    change before ++ _ ++ "" = before ++ _ ++ ""
    rw [heq]

theorem clause_text {condition : Node} (h : Readable 0 condition) (word : String) (level : Nat) :
    (Line.clause word (some condition)).text =
      word ++ " " ++ operandText 1 condition (condition.chunk level) := by
  change word ++ (" " ++ _ ++ "") = _
  rw [h.oneLine.1.operand_eq 1 level, String.append_empty, String.append_assoc]

theorem ending_text : (Line.ending none).text = "end" :=
  rfl

theorem isValid_clause {condition : Node} (h : Readable 0 condition) {word : String}
    (hword : word ∈ clauseWords) : (Line.clause word (some condition)).IsValid :=
  ⟨hword, by simpa using h⟩

theorem isValid_ending : (Line.ending none).IsValid := by
  simp [Line.IsValid]

theorem isValid_begin : (Line.clause "begin" none).IsValid :=
  ⟨by decide, by simp⟩

section Bodies

variable {entries : List Node} (h : ∀ entry ∈ entries, Laid entry)
include h

theorem laid_classDef {name : String} {superclass : Option Node}
    (hname : isIdentifier name.toList = true) (hsuper : ∀ node ∈ superclass, Readable 0 node) :
    Laid (.classDef name superclass (.statements entries)) := by
  refine laid_of_body (.classHead name superclass) (.ending none) (fun _ => rfl) (fun _ => rfl)
    ⟨hname, hsuper⟩ isValid_ending h fun level => ?_
  have hclass : "class " = "class" ++ " " := rfl
  change "class " ++ name ++ optionalOperand level " < " 16 superclass "" ++ "\n" ++ _ ++
    indent level ++ "end" = "class" ++ (" " ++ name ++ _) ++ _ ++ _ ++ _ ++ _
  rw [optionalOperand_eq hsuper, hclass]
  simp only [String.append_assoc, ending_text]

theorem laid_moduleDef {name : String} (hname : isIdentifier name.toList = true) :
    Laid (.moduleDef name (.statements entries)) := by
  refine laid_of_body (.moduleHead name) (.ending none) (fun _ => rfl) (fun _ => rfl) hname
    isValid_ending h fun level => ?_
  have hmodule : "module " = "module" ++ " " := rfl
  change "module " ++ name ++ "\n" ++ _ ++ indent level ++ "end" =
    "module" ++ (" " ++ name) ++ _ ++ _ ++ _ ++ _
  rw [hmodule]
  simp only [String.append_assoc, ending_text]

theorem laid_methodDef {name : String} {params : List String}
    (hname : isIdentifier name.toList = true)
    (hparams : ∀ param ∈ params, isIdentifier param.toList = true) :
    Laid (.methodDef name params (.statements entries)) := by
  refine laid_of_body (.methodHead name params) (.ending none) (fun _ => rfl) (fun _ => rfl)
    ⟨hname, hparams⟩ isValid_ending h fun level => ?_
  have hdef : "def " = "def" ++ " " := rfl
  change "def " ++ name ++ paramList params ++ "\n" ++ _ ++ indent level ++ "end" =
    "def" ++ (" " ++ name ++ paramList params) ++ _ ++ _ ++ _ ++ _
  rw [hdef]
  simp only [String.append_assoc, ending_text]

theorem laid_beginEnd : Laid (.beginEnd (.statements entries)) :=
  laid_of_body (.clause "begin" none) (.ending none) (fun _ => rfl) (fun _ => rfl)
    isValid_begin isValid_ending h fun _ => rfl

theorem laid_loop {kind : LoopKind} {condition : Node} (hc : Readable 0 condition) :
    Laid (.loop kind condition (.statements entries)) := by
  refine laid_of_body (.clause kind.word (some condition)) (.ending none) (fun _ => rfl)
    (fun _ => rfl) (isValid_clause hc (word_mem_clauseWords kind)) isValid_ending h fun level => ?_
  rw [clause_text hc kind.word level, ending_text]
  rfl

theorem laid_loopBegin {kind : LoopKind} {condition : Node} (hc : Readable 0 condition) :
    Laid (.loop kind condition (.beginEnd (.statements entries))) := by
  refine laid_of_body (.clause "begin" none) (.ending (some (kind, condition))) (fun _ => rfl)
    (fun _ => rfl) isValid_begin (by simpa [Line.IsValid] using hc) h fun level => ?_
  have hend : "end " = "end" ++ " " := rfl
  have heq := hc.oneLine.1.operand_eq 1 level
  change "begin\n" ++ _ ++ indent level ++ "end " ++ kind.word ++ " " ++ _ =
    "begin" ++ "\n" ++ _ ++ indent level ++ ("end" ++ (" " ++ kind.word ++ " " ++ _))
  rw [heq, hend]
  simp only [String.append_assoc]
  rfl

end Bodies

section Branches

variable {otherwise : Option (List Node)}

theorem rowsText_elseRows (h : ∀ others ∈ otherwise, ∀ entry ∈ others, Laid entry) (level : Nat) :
    rowsText (elseRows level (otherwise.map .statements)) =
      elseLines level (otherwise.map .statements) := by
  cases otherwise with
  | none => rfl
  | some others =>
    have hword : "else\n" = "else" ++ "" ++ "\n" := rfl
    change rowsText (.line level (.clause "else" none) :: _) = indent level ++ "else\n" ++ _
    rw [rowsText_line, rowsText_statements (h others rfl), hword]
    simp only [String.append_assoc]
    rfl

theorem isValid_elseRows (h : ∀ others ∈ otherwise, ∀ entry ∈ others, Laid entry) (level : Nat) :
    ∀ row ∈ elseRows level (otherwise.map .statements), row.IsValid := by
  cases otherwise with
  | none => simp [elseRows]
  | some others =>
    refine List.forall_mem_cons.mpr ⟨⟨by decide, by simp⟩, ?_⟩
    exact isValid_statements (h others rfl) _

/-- A statement with an optional `else` in front of its end. -/
theorem laid_of_else {node subject : Node} (word : String) {rest : Nat → List Row}
    {text : Nat → String} (hinline : ∀ chunk, inlineText node chunk = chunk)
    (hrows : ∀ level, node.rows level = .line level (.clause word (some subject)) ::
      (rest level ++ (elseRows level (otherwise.map .statements) ++ [endRow level])))
    (hword : word ∈ clauseWords) (hsubject : Readable 0 subject)
    (hvalid : ∀ level, ∀ row ∈ rest level, row.IsValid)
    (hrest : ∀ level, rowsText (rest level) = text level)
    (helse : ∀ others ∈ otherwise, ∀ entry ∈ others, Laid entry)
    (htext : ∀ level, node.chunk level =
      word ++ " " ++ operandText 1 subject (subject.chunk level) ++ "\n" ++ text level ++
        elseLines level (otherwise.map .statements) ++ indent level ++ "end") : Laid node := by
  refine laid_of_head _ hinline hrows (isValid_clause hsubject hword) (fun level row hrow => ?_)
    fun level => ?_
  · rw [List.mem_append, List.mem_append, List.mem_singleton] at hrow
    rcases hrow with hrow | hrow | rfl
    · exact hvalid level row hrow
    · exact isValid_elseRows helse level row hrow
    · exact isValid_end level
  · rw [htext, clause_text hsubject word level, rowsText_append, rowsText_append, hrest,
      rowsText_elseRows helse, rowsText_end]
    simp only [String.append_assoc]

variable {entries : List Node} {condition : Node}

theorem laid_ifElse (hc : Readable 0 condition) (h : ∀ entry ∈ entries, Laid entry)
    (helse : ∀ others ∈ otherwise, ∀ entry ∈ others, Laid entry) :
    Laid (.ifElse condition (.statements entries) (otherwise.map .statements)) := by
  refine laid_of_else "if" (fun _ => rfl) (fun level => ?_) (by decide) hc
    (fun level => isValid_statements h (level + 1)) (fun level => rowsText_statements h (level + 1))
    helse fun level => ?_
  · cases otherwise <;> rfl
  · cases otherwise <;> rfl

theorem laid_unlessElse (hc : Readable 0 condition) (h : ∀ entry ∈ entries, Laid entry)
    (helse : ∀ others ∈ otherwise, ∀ entry ∈ others, Laid entry) :
    Laid (.unlessElse condition (.statements entries) (otherwise.map .statements)) :=
  laid_of_else "unless" (fun _ => rfl) (fun _ => rfl) (by decide) hc
    (fun level => isValid_statements h (level + 1)) (fun level => rowsText_statements h (level + 1))
    helse fun _ => rfl

/-- The chain goes on with the rows that the bare `if` has behind its own first one. -/
theorem laid_ifChain {condition' thenBody : Node} {elseBody : Option Node}
    (hc : Readable 0 condition) (hc' : Readable 0 condition') (h : ∀ entry ∈ entries, Laid entry)
    (hnext : Laid (.ifElse condition' thenBody elseBody)) :
    Laid (.ifElse condition (.statements entries)
      (some (.ifElse condition' thenBody elseBody))) := by
  have hif : "if " = "if" ++ " " := rfl
  have helsif : "elsif " = "elsif" ++ " " := rfl
  have hbehind (level : Nat) :
      rowsText (thenBody.rows (level + 1) ++ chainRows level elseBody) =
        linesText (level + 1) thenBody (thenBody.chunk (level + 1)) ++
          elseChain level elseBody ++ indent level ++ "end" ++ "\n" := by
    have htext := hnext.rowsText_eq level
    change rowsText (.line level (.clause "if" (some condition')) :: _) =
      indent level ++ ("if " ++ operandText 1 condition' (condition'.chunk level) ++ "\n" ++ _ ++
        _ ++ _ ++ "end") ++ "\n" at htext
    rw [rowsText_line, clause_text hc' "if" level, hif] at htext
    simp only [String.append_assoc, String.append_right_inj] at htext ⊢
    exact htext
  refine laid_of_head (.clause "if" (some condition)) (fun _ => rfl) (fun _ => rfl)
    (isValid_clause hc (by decide)) (fun level row hrow => ?_) fun level => ?_
  · rcases List.mem_append.mp hrow with hrow | hrow
    · exact isValid_statements h _ row hrow
    · rcases List.mem_cons.mp hrow with rfl | hrow
      · exact isValid_clause hc' (by decide)
      · exact hnext.isValid level row (List.mem_cons_of_mem _ hrow)
  · change _ ++ _ ++ rowsText (_ ++ .line level (.clause "elsif" (some condition')) :: _) =
      "if " ++ operandText 1 condition (condition.chunk level) ++ "\n" ++ _ ++
        (indent level ++ "elsif " ++ operandText 1 condition' (condition'.chunk level) ++ "\n" ++
          _ ++ _) ++ indent level ++ "end" ++ "\n"
    rw [rowsText_append, rowsText_statements h, rowsText_line, hbehind, clause_text hc "if" level,
      clause_text hc' "elsif" level, hif, helsif]
    simp only [String.append_assoc]

theorem when_text {values : List Node} (h : ∀ value ∈ values, Readable 0 value) (level : Nat) :
    (Line.whenValues values).text = "when " ++ commaSeparated (operandTexts level values) := by
  have hvalues := oneLineTexts_operandTexts fun value hv => (h value hv).oneLine.1
  have hwhen : "when " = "when" ++ " " := rfl
  change "when" ++ (" " ++ commaSeparated (operandTexts 0 values)) = _
  rw [← hvalues.texts_eq level, hwhen, String.append_assoc]

theorem laid_clauses {clauses : List (List Node × List Node)}
    (hvalues : ∀ clause ∈ clauses, ∀ value ∈ clause.1, Readable 0 value)
    (h : ∀ clause ∈ clauses, ∀ entry ∈ clause.2, Laid entry) (level : Nat) :
    rowsText (clauseRows level (clauses.map fun clause => (clause.1, .statements clause.2))) =
        clauseLines level (clauses.map fun clause => (clause.1, .statements clause.2)) ∧
      ∀ row ∈ clauseRows level (clauses.map fun clause => (clause.1, .statements clause.2)),
        row.IsValid := by
  induction clauses with
  | nil => exact ⟨rfl, by simp [clauseRows]⟩
  | cons clause clauses ih =>
    obtain ⟨htext, hvalid⟩ := ih (fun x hx => hvalues x (List.mem_cons_of_mem _ hx))
      fun x hx => h x (List.mem_cons_of_mem _ hx)
    have hbody := h clause List.mem_cons_self
    have hvalue := hvalues clause List.mem_cons_self
    rw [List.map_cons, clauseRows, clauseLines]
    refine ⟨?_, List.forall_mem_cons.mpr ⟨hvalue, List.forall_mem_append.mpr ⟨?_, hvalid⟩⟩⟩
    · rw [rowsText_line, rowsText_append, rowsText_statements hbody, htext, when_text hvalue level]
      simp only [String.append_assoc]
    · exact isValid_statements hbody (level + 1)

theorem laid_caseWhen {subject : Node} {clauses : List (List Node × List Node)}
    (hs : Readable 0 subject) (hvalues : ∀ clause ∈ clauses, ∀ value ∈ clause.1, Readable 0 value)
    (h : ∀ clause ∈ clauses, ∀ entry ∈ clause.2, Laid entry)
    (helse : ∀ others ∈ otherwise, ∀ entry ∈ others, Laid entry) :
    Laid (.caseWhen subject (clauses.map fun clause => (clause.1, .statements clause.2))
      (otherwise.map .statements)) :=
  laid_of_else "case" (fun _ => rfl) (fun _ => rfl) (by decide) hs
    (fun level => (laid_clauses hvalues h level).2) (fun level => (laid_clauses hvalues h level).1)
    helse fun _ => rfl

end Branches

theorem IsExpression.rows_eq {node : Node} (h : IsExpression node) (level : Nat) :
    node.rows level = [.line level (.expression node)] := by
  cases h with
  | value h => cases h <;> rfl
  | command h => rfl

theorem IsExpression.laid {node : Node} (h : IsExpression node) : Laid node := by
  have hinline : ∀ chunk, inlineText node chunk = chunk := by
    cases h with
    | value h => exact h.oneLine.1.inline_eq
    | command h => exact fun _ => rfl
  refine laid_of_line (.expression node) hinline h.rows_eq h fun level => ?_
  rw [h.chunk_eq level]
  exact String.empty_append

theorem ReadableStatement.readable_condition {condition thenBody : Node} {elseBody : Option Node}
    (h : ReadableStatement (.ifElse condition thenBody elseBody)) : Readable 0 condition := by
  cases h with
  | ifElse hc => exact hc
  | ifChain hc => exact hc
  | expression h =>
    cases h with
    | value h => cases h

theorem ReadableStatement.laid {node : Node} (h : ReadableStatement node) : Laid node := by
  induction h with
  | classDef hname hsuper _ ih => exact laid_classDef ih hname hsuper
  | moduleDef hname _ ih => exact laid_moduleDef ih hname
  | methodDef hname hparams _ ih => exact laid_methodDef ih hname hparams
  | beginEnd _ ih => exact laid_beginEnd ih
  | ifElse hc _ _ ih ihelse => exact laid_ifElse hc ih ihelse
  | ifChain hc _ hnext ih ihnext => exact laid_ifChain hc hnext.readable_condition ih ihnext
  | unlessElse hc _ _ ih ihelse => exact laid_unlessElse hc ih ihelse
  | caseWhen hs hvalues _ _ ih ihelse => exact laid_caseWhen hs hvalues ih ihelse
  | loop hc _ ih => exact laid_loop ih hc
  | loopBegin hc _ ih => exact laid_loopBegin ih hc
  | breakLoop =>
    exact laid_of_line (.clause "break" none) (fun _ => rfl) (fun _ => rfl) ⟨by decide, by simp⟩
      fun _ => rfl
  | @next value h =>
    refine laid_of_line (.clause "next" value) (fun _ => rfl) (fun _ => rfl) ⟨by decide, h⟩
      fun level => ?_
    change "next" ++ _ = "next" ++ optionalOperand level " " 1 value ""
    rw [optionalOperand_eq h level]
    rfl
  | @ret value h =>
    refine laid_of_line (.clause "return" value) (fun _ => rfl) (fun _ => rfl) ⟨by decide, h⟩
      fun level => ?_
    change "return" ++ _ = "return" ++ optionalOperand level " " 1 value ""
    rw [optionalOperand_eq h level]
    rfl
  | expression h => exact h.laid

end YcpToRuby.Ruby
