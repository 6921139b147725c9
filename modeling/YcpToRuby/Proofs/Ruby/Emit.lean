import YcpToRuby.Proofs.Ruby.Statement

/-!
# The text of a statement determines it

The rows of a statement determine it: the first one says what it is, a body ends where a row of an
outer level stands, and the row there says how the statement goes on. Since a text falls into rows
in one way only, two statements or two files with the same text are equal.
-/

set_option autoImplicit false

namespace YcpToRuby.Ruby

/-! ## Rows determine the statement -/

def Determined (node : Node) : Prop :=
  ∀ {node' : Node} {level : Nat} {rest rest' : List Row}, ReadableStatement node' →
    node.rows level ++ rest = node'.rows level ++ rest' → node = node' ∧ rest = rest'

def Closes (level : Nat) (rows : List Row) : Prop :=
  ∀ row ∈ rows.head?, ∃ outer line, outer < level ∧ row = .line outer line

theorem closes_line (level : Nat) (line : Line) (rows : List Row) :
    Closes (level + 1) (.line level line :: rows) := by
  intro row hrow
  obtain rfl := Option.some.inj hrow
  exact ⟨level, line, Nat.lt_succ_self level, rfl⟩

section Bodies

variable {level : Nat} {rest rest' : List Row}

/-- Behind a body stands neither a blank row nor one of its own level. -/
theorem Closes.head_ne (h : Closes level rest) :
    (∀ rows, rest ≠ .blank :: rows) ∧ ∀ line rows, rest ≠ .line level line :: rows := by
  constructor
  · rintro rows rfl
    obtain ⟨outer, line, -, heq⟩ := h _ rfl
    cases heq
  · rintro line rows rfl
    obtain ⟨outer, line, hlt, heq⟩ := h _ rfl
    cases heq
    omega

theorem rows_statements_cons (node : Node) (entries : List Node) :
    (Node.statements (node :: entries)).rows level ++ rest =
      node.rows level ++ (gapRows node (entries.map fun node => (node, node.rows level)) ++
        ((Node.statements entries).rows level ++ rest)) := by
  rw [rows_statements, rows_statements, List.map_cons, spacedRows]
  simp only [List.append_assoc]

/-- What stands at the beginning of a body or behind it. -/
theorem head_statements {entries : List Node} (h : ∀ entry ∈ entries, ReadableStatement entry) :
    entries = [] ∨
      ∃ line rows, (Node.statements entries).rows level ++ rest = .line level line :: rows := by
  cases entries with
  | nil => exact Or.inl rfl
  | cons node entries =>
    obtain ⟨line, rows, hrows⟩ := (h node List.mem_cons_self).laid.head level
    rw [rows_statements_cons, hrows]
    exact Or.inr ⟨line, _, rfl⟩

theorem statements_ne_blank {entries : List Node} (h : ∀ entry ∈ entries, ReadableStatement entry)
    (hrest : Closes level rest) (rows : List Row) :
    (Node.statements entries).rows level ++ rest ≠ .blank :: rows := by
  rcases @head_statements level rest entries h with rfl | ⟨line, others, hrows⟩
  · exact hrest.head_ne.1 rows
  · rw [hrows]
    rintro ⟨⟩

theorem gapRows_cases (node : Node) (entries : List (Node × List Row)) :
    gapRows node entries = [] ∨ gapRows node entries = [.blank] := by
  unfold gapRows
  split
  · exact Or.inl rfl
  · split
    · exact Or.inr rfl
    · exact Or.inl rfl

/-- A blank row on one side only would stand where a body or what is behind it begins. -/
theorem eq_of_gapRows_append {node node' : Node} {entries entries' : List (Node × List Row)}
    (h : ∀ rows, rest ≠ .blank :: rows) (h' : ∀ rows, rest' ≠ .blank :: rows)
    (heq : gapRows node entries ++ rest = gapRows node' entries' ++ rest') : rest = rest' := by
  rcases gapRows_cases node entries with hgap | hgap
  · rcases gapRows_cases node' entries' with hgap' | hgap'
    · rwa [hgap, hgap'] at heq
    · rw [hgap, hgap'] at heq
      exact absurd heq (h _)
  · rcases gapRows_cases node' entries' with hgap' | hgap'
    · rw [hgap, hgap'] at heq
      exact absurd heq.symm (h' _)
    · rw [hgap, hgap'] at heq
      exact (List.cons.inj heq).2

/-- A body is known from the rows up to the one behind it. -/
theorem body_determined {entries entries' : List Node} (ih : ∀ entry ∈ entries, Determined entry)
    (h : ∀ entry ∈ entries, ReadableStatement entry)
    (h' : ∀ entry ∈ entries', ReadableStatement entry)
    (hrest : Closes level rest) (hrest' : Closes level rest')
    (heq : (Node.statements entries).rows level ++ rest =
      (Node.statements entries').rows level ++ rest') : entries = entries' ∧ rest = rest' := by
  induction entries generalizing entries' with
  | nil =>
    rcases @head_statements level rest' entries' h' with rfl | ⟨line, rows, hrows⟩
    · exact ⟨rfl, heq⟩
    · rw [hrows] at heq
      exact absurd heq (hrest.head_ne.2 line rows)
  | cons node entries ihentries =>
    cases entries' with
    | nil =>
      rcases @head_statements level rest (node :: entries) h with hnil | ⟨line, rows, hrows⟩
      · cases hnil
      · rw [hrows] at heq
        exact absurd heq.symm (hrest'.head_ne.2 line rows)
    | cons node' entries' =>
      rw [rows_statements_cons, rows_statements_cons] at heq
      obtain ⟨rfl, hbehind⟩ := ih node List.mem_cons_self (h' node' List.mem_cons_self) heq
      have hothers := fun x hx => h x (List.mem_cons_of_mem node hx)
      have hothers' := fun x hx => h' x (List.mem_cons_of_mem node hx)
      have hentries := @ihentries entries' (fun x hx => ih x (List.mem_cons_of_mem _ hx)) hothers
        hothers'
      obtain ⟨rfl, hrests⟩ := hentries (eq_of_gapRows_append (statements_ne_blank hothers hrest)
        (statements_ne_blank hothers' hrest') hbehind)
      exact ⟨rfl, hrests⟩

/-- The `else` branch and the end of a statement. -/
theorem else_determined {otherwise otherwise' : Option (List Node)}
    (ih : ∀ others ∈ otherwise, ∀ entry ∈ others, Determined entry)
    (h : ∀ others ∈ otherwise, ∀ entry ∈ others, ReadableStatement entry)
    (h' : ∀ others ∈ otherwise', ∀ entry ∈ others, ReadableStatement entry)
    (heq : elseRows level (otherwise.map .statements) ++ (endRow level :: rest) =
      elseRows level (otherwise'.map .statements) ++ (endRow level :: rest')) :
    otherwise = otherwise' ∧ rest = rest' := by
  cases otherwise with
  | none =>
    cases otherwise' with
    | none => exact ⟨rfl, (List.cons.inj heq).2⟩
    | some others' => cases (List.cons.inj heq).1
  | some others =>
    cases otherwise' with
    | none => cases (List.cons.inj heq).1
    | some others' =>
      obtain ⟨rfl, hrests⟩ := body_determined (ih others rfl) (h others rfl) (h' others' rfl)
        (closes_line _ _ _) (closes_line _ _ _) (List.cons.inj heq).2
      exact ⟨rfl, (List.cons.inj hrests).2⟩

theorem closes_else (otherwise : Option (List Node)) :
    Closes (level + 1) (elseRows level (otherwise.map .statements) ++ (endRow level :: rest)) := by
  cases otherwise with
  | none => exact closes_line _ _ _
  | some others => exact closes_line _ _ _

theorem closes_clauses (clauses : List (List Node × Node)) (h : Closes (level + 1) rest) :
    Closes (level + 1) (clauseRows level clauses ++ rest) := by
  cases clauses with
  | nil => exact h
  | cons clause clauses => exact closes_line _ _ _

/-- The clauses of a `case`, in front of an `else` or the end. -/
theorem clauses_determined {clauses clauses' : List (List Node × List Node)}
    {otherwise otherwise' : Option (List Node)}
    (ih : ∀ clause ∈ clauses, ∀ entry ∈ clause.2, Determined entry)
    (h : ∀ clause ∈ clauses, ∀ entry ∈ clause.2, ReadableStatement entry)
    (h' : ∀ clause ∈ clauses', ∀ entry ∈ clause.2, ReadableStatement entry)
    (heq : clauseRows level (clauses.map fun clause => (clause.1, .statements clause.2)) ++
        (elseRows level (otherwise.map .statements) ++ (endRow level :: rest)) =
      clauseRows level (clauses'.map fun clause => (clause.1, .statements clause.2)) ++
        (elseRows level (otherwise'.map .statements) ++ (endRow level :: rest'))) :
    clauses = clauses' ∧
      elseRows level (otherwise.map .statements) ++ (endRow level :: rest) =
        elseRows level (otherwise'.map .statements) ++ (endRow level :: rest') := by
  have hwhen (otherwise : Option (List Node)) {rest : List Row} {values : List Node}
      {rows : List Row} : elseRows level (otherwise.map .statements) ++ (endRow level :: rest) ≠
        .line level (.whenValues values) :: rows := by
    cases otherwise <;> rintro ⟨⟩
  induction clauses generalizing clauses' with
  | nil =>
    cases clauses' with
    | nil => exact ⟨rfl, heq⟩
    | cons clause' clauses' => exact absurd heq (hwhen otherwise)
  | cons clause clauses ihclauses =>
    cases clauses' with
    | nil => exact absurd heq.symm (hwhen otherwise')
    | cons clause' clauses' =>
      obtain ⟨values, entries⟩ := clause
      obtain ⟨values', entries'⟩ := clause'
      simp only [List.map_cons, clauseRows, List.cons_append, List.append_assoc, List.cons.injEq,
        Row.line.injEq, Line.whenValues.injEq, true_and] at heq
      obtain ⟨rfl, hbody⟩ := heq
      obtain ⟨rfl, hbehind⟩ := body_determined (ih _ List.mem_cons_self) (h _ List.mem_cons_self)
        (h' _ List.mem_cons_self) (closes_clauses _ (closes_else otherwise))
        (closes_clauses _ (closes_else otherwise')) hbody
      obtain ⟨rfl, hend⟩ := ihclauses (fun x hx => ih x (List.mem_cons_of_mem _ hx))
        (fun x hx => h x (List.mem_cons_of_mem _ hx))
        (fun x hx => h' x (List.mem_cons_of_mem _ hx)) hbehind
      exact ⟨rfl, hend⟩

/-- A body and the row that ends the statement. -/
theorem block_determined {entries entries' : List Node} {last last' : Line}
    (ih : ∀ entry ∈ entries, Determined entry) (h : ∀ entry ∈ entries, ReadableStatement entry)
    (h' : ∀ entry ∈ entries', ReadableStatement entry)
    (heq : (Node.statements entries).rows (level + 1) ++ [.line level last] ++ rest =
      (Node.statements entries').rows (level + 1) ++ [.line level last'] ++ rest') :
    entries = entries' ∧ last = last' ∧ rest = rest' := by
  rw [List.append_assoc, List.append_assoc] at heq
  obtain ⟨hentries, hbehind⟩ :=
    body_determined ih h h' (closes_line _ _ _) (closes_line _ _ _) heq
  obtain ⟨hlast, hrest⟩ := List.cons.inj hbehind
  exact ⟨hentries, (Row.line.inj hlast).2, hrest⟩

/-- The clauses of a `case`, its `else` and its end. -/
theorem cases_determined {clauses clauses' : List (List Node × List Node)}
    {otherwise otherwise' : Option (List Node)}
    (ih : ∀ clause ∈ clauses, ∀ entry ∈ clause.2, Determined entry)
    (h : ∀ clause ∈ clauses, ∀ entry ∈ clause.2, ReadableStatement entry)
    (h' : ∀ clause ∈ clauses', ∀ entry ∈ clause.2, ReadableStatement entry)
    (ihelse : ∀ others ∈ otherwise, ∀ entry ∈ others, Determined entry)
    (helse : ∀ others ∈ otherwise, ∀ entry ∈ others, ReadableStatement entry)
    (helse' : ∀ others ∈ otherwise', ∀ entry ∈ others, ReadableStatement entry)
    (heq : clauseRows level (clauses.map fun clause => (clause.1, .statements clause.2)) ++
        (elseRows level (otherwise.map .statements) ++ [endRow level]) ++ rest =
      clauseRows level (clauses'.map fun clause => (clause.1, .statements clause.2)) ++
        (elseRows level (otherwise'.map .statements) ++ [endRow level]) ++ rest') :
    clauses = clauses' ∧ otherwise = otherwise' ∧ rest = rest' := by
  simp only [List.append_assoc, List.singleton_append] at heq
  obtain ⟨hclauses, hbehind⟩ := clauses_determined ih h h' heq
  exact ⟨hclauses, else_determined ihelse helse helse' hbehind⟩

theorem closes_chain (elseBody : Option Node) :
    Closes (level + 1) (chainRows level elseBody ++ rest) := by
  unfold chainRows
  split <;> exact closes_line _ _ _

theorem chainRows_map (otherwise : Option (List Node)) :
    chainRows level (otherwise.map .statements) =
      elseRows level (otherwise.map .statements) ++ [endRow level] := by
  cases otherwise <;> rfl

/-- An `else` or the end is no `elsif`. -/
theorem chainRows_map_ne {otherwise : Option (List Node)} {condition thenBody : Node}
    {elseBody : Option Node} : chainRows level (otherwise.map .statements) ++ rest ≠
      chainRows level (some (.ifElse condition thenBody elseBody)) ++ rest' := by
  intro heq
  cases otherwise with
  | none => cases (List.cons.inj heq).1
  | some others =>
    obtain ⟨-, hline⟩ := Row.line.inj (List.cons.inj heq).1
    exact absurd (Line.clause.inj hline).1 (by decide)

/-- The first branch of an `if`. -/
theorem chain_determined {entries entries' : List Node} {elseBody elseBody' : Option Node}
    (ih : ∀ entry ∈ entries, Determined entry) (h : ∀ entry ∈ entries, ReadableStatement entry)
    (h' : ∀ entry ∈ entries', ReadableStatement entry)
    (heq : (Node.statements entries).rows (level + 1) ++ chainRows level elseBody ++ rest =
      (Node.statements entries').rows (level + 1) ++ chainRows level elseBody' ++ rest') :
    entries = entries' ∧
      chainRows level elseBody ++ rest = chainRows level elseBody' ++ rest' := by
  rw [List.append_assoc, List.append_assoc] at heq
  exact body_determined ih h h' (closes_chain elseBody) (closes_chain elseBody') heq

/-- The branches of a statement, in front of its end. -/
theorem branches_determined {entries entries' : List Node}
    {otherwise otherwise' : Option (List Node)}
    (ih : ∀ entry ∈ entries, Determined entry) (h : ∀ entry ∈ entries, ReadableStatement entry)
    (h' : ∀ entry ∈ entries', ReadableStatement entry)
    (ihelse : ∀ others ∈ otherwise, ∀ entry ∈ others, Determined entry)
    (helse : ∀ others ∈ otherwise, ∀ entry ∈ others, ReadableStatement entry)
    (helse' : ∀ others ∈ otherwise', ∀ entry ∈ others, ReadableStatement entry)
    (heq : (Node.statements entries).rows (level + 1) ++
        (elseRows level (otherwise.map .statements) ++ [endRow level]) ++ rest =
      (Node.statements entries').rows (level + 1) ++
        (elseRows level (otherwise'.map .statements) ++ [endRow level]) ++ rest') :
    entries = entries' ∧ otherwise = otherwise' ∧ rest = rest' := by
  simp only [List.append_assoc, List.singleton_append] at heq
  obtain ⟨hentries, hbehind⟩ :=
    body_determined ih h h' (closes_else otherwise) (closes_else otherwise') heq
  exact ⟨hentries, else_determined ihelse helse helse' hbehind⟩

end Bodies

/-! ## The first row -/

def Line.tag (line : Line) : String :=
  if line.word = "until" then "while" else line.word

def Node.tag : Node → String
  | .classDef .. => "class"
  | .moduleDef .. => "module"
  | .methodDef .. => "def"
  | .beginEnd _ | .loop _ _ (.beginEnd _) => "begin"
  | .ifElse .. => "if"
  | .unlessElse .. => "unless"
  | .caseWhen .. => "case"
  | .loop .. => "while"
  | .breakLoop => "break"
  | .next _ => "next"
  | .ret _ => "return"
  | _ => ""

section Tags

variable {name : String} {params : List String} {superclass otherwise value : Option Node}
  {condition body : Node} {clauses : List (List Node × Node)} {kind : LoopKind}
  {entries : List Node}

@[simp]
theorem tag_classDef : (Node.classDef name superclass body).tag = "class" := rfl

@[simp]
theorem tag_moduleDef : (Node.moduleDef name body).tag = "module" := rfl

@[simp]
theorem tag_methodDef : (Node.methodDef name params body).tag = "def" := rfl

@[simp]
theorem tag_beginEnd : (Node.beginEnd body).tag = "begin" := rfl

@[simp]
theorem tag_ifElse : (Node.ifElse condition body otherwise).tag = "if" := rfl

@[simp]
theorem tag_unlessElse : (Node.unlessElse condition body otherwise).tag = "unless" := rfl

@[simp]
theorem tag_caseWhen : (Node.caseWhen condition clauses otherwise).tag = "case" := rfl

@[simp]
theorem tag_loop : (Node.loop kind condition (.statements entries)).tag = "while" := rfl

@[simp]
theorem tag_loopBegin : (Node.loop kind condition (.beginEnd body)).tag = "begin" := rfl

@[simp]
theorem tag_breakLoop : Node.breakLoop.tag = "break" := rfl

@[simp]
theorem tag_next : (Node.next value).tag = "next" := rfl

@[simp]
theorem tag_ret : (Node.ret value).tag = "return" := rfl

end Tags

theorem IsExpression.tag_eq {node : Node} (h : IsExpression node) : node.tag = "" := by
  cases h with
  | value h => cases h <;> rfl
  | command h => rfl

theorem ReadableStatement.exists_line {node : Node} (h : ReadableStatement node) (level : Nat) :
    ∃ line rest, node.rows level = .line level line :: rest ∧ line.tag = node.tag := by
  cases h with
  | @loop kind => cases kind <;> exact ⟨_, _, rfl, rfl⟩
  | expression h => exact ⟨_, _, h.rows_eq level, h.tag_eq.symm⟩
  | _ => exact ⟨_, _, rfl, rfl⟩

/-- Statements with the same first row are of one kind. -/
theorem ReadableStatement.tag_eq_tag {node node' : Node} (h : ReadableStatement node)
    (h' : ReadableStatement node') {level : Nat} {rest rest' : List Row}
    (heq : node.rows level ++ rest = node'.rows level ++ rest') : node.tag = node'.tag := by
  obtain ⟨line, rows, hrows, htag⟩ := h.exists_line level
  obtain ⟨line', rows', hrows', htag'⟩ := h'.exists_line level
  rw [hrows, hrows'] at heq
  obtain ⟨hline, -⟩ := List.cons.inj heq
  rw [← htag, ← htag', (Row.line.inj hline).2]

theorem determined_of_tag {node : Node} (hnode : ReadableStatement node)
    (h : ∀ {node' : Node} {level : Nat} {rest rest' : List Row}, ReadableStatement node' →
      node.tag = node'.tag → node.rows level ++ rest = node'.rows level ++ rest' →
        node = node' ∧ rest = rest') : Determined node :=
  fun h' heq => h h' (hnode.tag_eq_tag h' heq) heq

/-- The rows of a statement determine it, whatever stands behind them. -/
theorem ReadableStatement.determined {node : Node} (h : ReadableStatement node) :
    Determined node := by
  induction h with
  | classDef hname hsuper h ih =>
    refine determined_of_tag (.classDef hname hsuper h) fun h' htag heq => ?_
    cases h' with
    | classDef _ _ h' =>
      obtain ⟨hline, hbody⟩ := List.cons.inj heq
      cases hline
      obtain ⟨rfl, -, rfl⟩ := block_determined ih h h' hbody
      exact ⟨rfl, rfl⟩
    | _ => simp (disch := assumption) [IsExpression.tag_eq] at htag
  | moduleDef hname h ih =>
    refine determined_of_tag (.moduleDef hname h) fun h' htag heq => ?_
    cases h' with
    | moduleDef _ h' =>
      obtain ⟨hline, hbody⟩ := List.cons.inj heq
      cases hline
      obtain ⟨rfl, -, rfl⟩ := block_determined ih h h' hbody
      exact ⟨rfl, rfl⟩
    | _ => simp (disch := assumption) [IsExpression.tag_eq] at htag
  | methodDef hname hparams h ih =>
    refine determined_of_tag (.methodDef hname hparams h) fun h' htag heq => ?_
    cases h' with
    | methodDef _ _ h' =>
      obtain ⟨hline, hbody⟩ := List.cons.inj heq
      cases hline
      obtain ⟨rfl, -, rfl⟩ := block_determined ih h h' hbody
      exact ⟨rfl, rfl⟩
    | _ => simp (disch := assumption) [IsExpression.tag_eq] at htag
  | beginEnd h ih =>
    refine determined_of_tag (.beginEnd h) fun h' htag heq => ?_
    cases h' with
    | beginEnd h' =>
      obtain ⟨rfl, -, rfl⟩ := block_determined ih h h' (List.cons.inj heq).2
      exact ⟨rfl, rfl⟩
    | loopBegin _ h' =>
      obtain ⟨-, hlast, -⟩ := block_determined ih h h' (List.cons.inj heq).2
      cases hlast
    | _ => simp (disch := assumption) [IsExpression.tag_eq] at htag
  | ifElse hc h helse ih ihelse =>
    refine determined_of_tag (.ifElse hc h helse) fun h' htag heq => ?_
    cases h' with
    | ifElse _ h' helse' =>
      obtain ⟨hline, hbody⟩ := List.cons.inj heq
      cases hline
      obtain ⟨rfl, hchain⟩ := chain_determined ih h h' hbody
      rw [chainRows_map, chainRows_map, List.append_assoc, List.append_assoc] at hchain
      obtain ⟨rfl, rfl⟩ := else_determined ihelse helse helse' hchain
      exact ⟨rfl, rfl⟩
    | ifChain _ h' _ =>
      obtain ⟨-, hchain⟩ := chain_determined ih h h' (List.cons.inj heq).2
      exact absurd hchain chainRows_map_ne
    | _ => simp (disch := assumption) [IsExpression.tag_eq] at htag
  | ifChain hc h hnext ih ihnext =>
    refine determined_of_tag (.ifChain hc h hnext) fun h' htag heq => ?_
    cases h' with
    | ifElse _ h' _ =>
      obtain ⟨-, hchain⟩ := chain_determined ih h h' (List.cons.inj heq).2
      exact absurd hchain.symm chainRows_map_ne
    | ifChain _ h' hnext' =>
      obtain ⟨hline, hbody⟩ := List.cons.inj heq
      cases hline
      obtain ⟨rfl, hchain⟩ := chain_determined ih h h' hbody
      obtain ⟨helsif, hbehind⟩ := List.cons.inj hchain
      cases helsif
      obtain ⟨hnexts, rfl⟩ := ihnext hnext' (congrArg (Row.line _ (.clause "if" _) :: ·) hbehind)
      rw [hnexts]
      exact ⟨rfl, rfl⟩
    | _ => simp (disch := assumption) [IsExpression.tag_eq] at htag
  | unlessElse hc h helse ih ihelse =>
    refine determined_of_tag (.unlessElse hc h helse) fun h' htag heq => ?_
    cases h' with
    | unlessElse _ h' helse' =>
      obtain ⟨hline, hbody⟩ := List.cons.inj heq
      cases hline
      obtain ⟨rfl, rfl, rfl⟩ := branches_determined ih h h' ihelse helse helse' hbody
      exact ⟨rfl, rfl⟩
    | _ => simp (disch := assumption) [IsExpression.tag_eq] at htag
  | caseWhen hs hvalues h helse ih ihelse =>
    refine determined_of_tag (.caseWhen hs hvalues h helse) fun h' htag heq => ?_
    cases h' with
    | caseWhen _ _ h' helse' =>
      obtain ⟨hline, hbody⟩ := List.cons.inj heq
      cases hline
      obtain ⟨rfl, rfl, rfl⟩ := cases_determined ih h h' ihelse helse helse' hbody
      exact ⟨rfl, rfl⟩
    | _ => simp (disch := assumption) [IsExpression.tag_eq] at htag
  | @loop kind condition entries hc h ih =>
    refine determined_of_tag (.loop hc h) fun h' htag heq => ?_
    cases h' with
    | @loop kind' condition' entries' _ h' =>
      obtain ⟨hline, hbody⟩ := List.cons.inj heq
      obtain rfl := LoopKind.word_inj (Line.clause.inj (Row.line.inj hline).2).1
      cases hline
      obtain ⟨rfl, -, rfl⟩ := block_determined ih h h' hbody
      exact ⟨rfl, rfl⟩
    | _ => simp (disch := assumption) [IsExpression.tag_eq] at htag
  | @loopBegin kind condition entries hc h ih =>
    refine determined_of_tag (.loopBegin hc h) fun h' htag heq => ?_
    cases h' with
    | beginEnd h' =>
      obtain ⟨-, hlast, -⟩ := block_determined ih h h' (List.cons.inj heq).2
      cases hlast
    | loopBegin _ h' =>
      obtain ⟨rfl, hlast, rfl⟩ := block_determined ih h h' (List.cons.inj heq).2
      cases hlast
      exact ⟨rfl, rfl⟩
    | _ => simp (disch := assumption) [IsExpression.tag_eq] at htag
  | breakLoop =>
    refine determined_of_tag .breakLoop fun h' htag heq => ?_
    cases h' with
    | breakLoop => exact ⟨rfl, (List.cons.inj heq).2⟩
    | _ => simp (disch := assumption) [IsExpression.tag_eq] at htag
  | next h =>
    refine determined_of_tag (.next h) fun h' htag heq => ?_
    cases h' with
    | next =>
      obtain ⟨hline, hrest⟩ := List.cons.inj heq
      cases hline
      exact ⟨rfl, hrest⟩
    | _ => simp (disch := assumption) [IsExpression.tag_eq] at htag
  | ret h =>
    refine determined_of_tag (.ret h) fun h' htag heq => ?_
    cases h' with
    | ret =>
      obtain ⟨hline, hrest⟩ := List.cons.inj heq
      cases hline
      exact ⟨rfl, hrest⟩
    | _ => simp (disch := assumption) [IsExpression.tag_eq] at htag
  | expression h =>
    refine determined_of_tag (.expression h) fun h' htag heq => ?_
    rw [h.tag_eq] at htag
    cases h' with
    | expression h' =>
      rw [h.rows_eq, h'.rows_eq] at heq
      obtain ⟨hline, hrest⟩ := List.cons.inj heq
      cases hline
      exact ⟨rfl, hrest⟩
    | _ => simp at htag

/-! ## Files -/

inductive IsRoot : Node → Prop
  | program {entries : List Node} (h : ∀ entry ∈ entries, ReadableStatement entry) :
      IsRoot (.program (.statements entries))
  | statement {node : Node} (h : ReadableStatement node) : IsRoot node

theorem emit_program {entries : List Node} (h : ∀ entry ∈ entries, ReadableStatement entry) :
    (Node.program (.statements entries)).emit =
      "# encoding: utf-8\n\n" ++ rowsText ((Node.statements entries).rows 0) := by
  rw [rowsText_statements fun entry he => (h entry he).laid]
  rfl

theorem ReadableStatement.emit_eq {node : Node} (h : ReadableStatement node) :
    node.emit = rowsText (node.rows 0) := by
  have hemit : node.emit = node.chunk 0 ++ "\n" := by
    unfold Node.emit
    split
    · cases h with
      | expression h =>
        cases h with
        | value h => cases h
    · rw [Node.inline, h.laid.inline_eq]
  have hindent : indent 0 = "" := rfl
  rw [hemit, h.laid.rowsText_eq, hindent, String.empty_append]

/-- A file begins with a comment, and no statement does. -/
theorem emit_program_ne {entries : List Node} {node : Node}
    (h : ∀ entry ∈ entries, ReadableStatement entry) (h' : ReadableStatement node) :
    (Node.program (.statements entries)).emit ≠ node.emit := by
  obtain ⟨line, rest, hrows⟩ := h'.laid.head 0
  have hvalid : (Row.line 0 line).IsValid :=
    h'.laid.isValid 0 _ (hrows ▸ List.mem_cons_self)
  change line.IsValid at hvalid
  obtain ⟨c, cs, htext, -, hc⟩ := (Line.isLineText hvalid).head
  have hindent : indent 0 = "" := rfl
  intro heq
  rw [emit_program h, h'.emit_eq, hrows, rowsText_line, hindent, String.empty_append] at heq
  have hlists := congrArg String.toList heq
  simp only [String.toList_append, htext, List.cons_append] at hlists
  exact hc (List.cons.inj hlists).1.symm

theorem closes_nil (level : Nat) : Closes level [] := by
  simp [Closes]

theorem program_inj {entries entries' : List Node} (h : ∀ entry ∈ entries, ReadableStatement entry)
    (h' : ∀ entry ∈ entries', ReadableStatement entry)
    (heq : (Node.program (.statements entries)).emit = (Node.program (.statements entries')).emit) :
    entries = entries' := by
  rw [emit_program h, emit_program h', String.append_right_inj] at heq
  have hrows := rowsText_inj (isValid_statements (fun entry he => (h entry he).laid) 0)
    (isValid_statements (fun entry he => (h' entry he).laid) 0) heq
  have hlists := congrArg (· ++ []) hrows
  exact (body_determined (fun entry he => (h entry he).determined) h h' (closes_nil 0)
    (closes_nil 0) hlists).1

theorem statement_inj {node node' : Node} (h : ReadableStatement node)
    (h' : ReadableStatement node') (heq : node.emit = node'.emit) : node = node' := by
  rw [h.emit_eq, h'.emit_eq] at heq
  have hrows := rowsText_inj (h.laid.isValid 0) (h'.laid.isValid 0) heq
  exact (h.determined h' (congrArg (· ++ []) hrows)).1

/-- The emitted text determines the tree. -/
theorem emit_eq_emit_iff {node node' : Node} (h : IsRoot node) (h' : IsRoot node') :
    node.emit = node'.emit ↔ node = node' := by
  refine ⟨fun heq => ?_, fun heq => by rw [heq]⟩
  cases h with
  | program h =>
    cases h' with
    | program h' => rw [program_inj h h' heq]
    | statement h' => exact absurd heq (emit_program_ne h h')
  | statement h =>
    cases h' with
    | program h' => exact absurd heq.symm (emit_program_ne h' h)
    | statement h' => exact statement_inj h h' heq

def branching (elseBody : Node) : Node :=
  .program (.statements [.methodDef "run" ["a"] (.statements [
    .ifElse (.var "a") (.statements []) (some elseBody),
    .loop .whileTrue (.var "b") (.beginEnd (.statements [.command none "puts" [.string "x"]]))])])

def innerIf : Node :=
  .ifElse (.var "b") (.statements [.ret none]) (some (.statements []))

theorem readableStatement_innerIf : ReadableStatement innerIf := by
  have hvar : Readable 0 (.var "b") := .var (by decide +kernel)
  have hret : ReadableStatement (.ret none) := .ret (by simp)
  exact @ReadableStatement.ifElse (.var "b") [.ret none] (some []) hvar
    (List.forall_mem_singleton.mpr hret) (by simp)

theorem isRoot_branching {elseBody : Node}
    (h : ReadableStatement (.ifElse (.var "a") (.statements []) (some elseBody))) :
    IsRoot (branching elseBody) := by
  have hvar : Readable 0 (.var "b") := .var (by decide +kernel)
  have hputs : IsCommand none "puts" (.string "x") [] :=
    ⟨by simp, by decide, by decide, List.forall_mem_singleton.mpr (.literal rfl), rfl⟩
  have hloop : ReadableStatement (.loop .whileTrue (.var "b")
      (.beginEnd (.statements [.command none "puts" [.string "x"]]))) :=
    .loopBegin hvar (List.forall_mem_singleton.mpr (.expression (.command hputs)))
  have hrun : ReadableStatement (.methodDef "run" ["a"] (.statements [
      .ifElse (.var "a") (.statements []) (some elseBody),
      .loop .whileTrue (.var "b")
        (.beginEnd (.statements [.command none "puts" [.string "x"]]))])) :=
    .methodDef (by decide) (by simp; decide)
      (List.forall_mem_cons.mpr ⟨h, List.forall_mem_singleton.mpr hloop⟩)
  exact .program (List.forall_mem_singleton.mpr hrun)

/-- A bare `if` behind an `else` is told from one in a sequence. -/
theorem emit_branching_innerIf :
    (branching innerIf).emit =
        "# encoding: utf-8\n\ndef run(a)\n  if a\n  elsif b\n    return\n  else\n  end\n" ++
          "  begin\n    puts \"x\"\n  end while b\nend\n" ∧
      (branching innerIf).emit ≠ (branching (.statements [innerIf])).emit := by
  have hvar : Readable 0 (.var "a") := .var (by decide +kernel)
  have hbare := isRoot_branching (.ifChain hvar (by simp) readableStatement_innerIf)
  have hnested : IsRoot (branching (.statements [innerIf])) :=
    isRoot_branching (@ReadableStatement.ifElse (.var "a") [] (some [innerIf]) hvar (by simp)
      (by simpa using readableStatement_innerIf))
  refine ⟨by decide +kernel, fun heq => ?_⟩
  have htrees := (emit_eq_emit_iff hbare hnested).mp heq
  simp [branching, innerIf, Node.statements] at htrees

end YcpToRuby.Ruby
