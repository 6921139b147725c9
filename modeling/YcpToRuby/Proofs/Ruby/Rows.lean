import YcpToRuby.Proofs.Ruby.Line

/-!
# Statements as rows

The text of a statement consists of rows, each a line at some level of indentation, and of blank
rows around definitions. A text falls into rows in one way only, and the rows of a statement are
found by recursion on the statement.
-/

set_option autoImplicit false

namespace YcpToRuby.Ruby

/-! ## Rows and their text -/

inductive Row where
  | blank
  | line (level : Nat) (content : Line)

namespace Row

def body : Row → String
  | blank => ""
  | line level content => indent level ++ content.text

def IsValid : Row → Prop
  | blank => True
  | line _ content => content.IsValid

end Row

def rowsText : List Row → String
  | [] => ""
  | row :: rows => row.body ++ "\n" ++ rowsText rows

@[simp]
theorem rowsText_append (rows rest : List Row) :
    rowsText (rows ++ rest) = rowsText rows ++ rowsText rest := by
  induction rows with
  | nil => simp [rowsText]
  | cons row rows ih => simp only [List.cons_append, rowsText, ih, String.append_assoc]

theorem unbroken_body {row : Row} (h : row.IsValid) : Unbroken row.body := by
  cases row with
  | blank => exact (by decide : Unbroken "")
  | line level line =>
    refine unbroken_append.mpr ⟨?_, (Line.isLineText h).unbroken⟩
    simp [Unbroken, indent]

theorem body_inj {row row' : Row} (h : row.IsValid) (h' : row'.IsValid)
    (heq : row.body = row'.body) : row = row' := by
  have hspan {level : Nat} {line : Line} (h : line.IsValid) :
      ((Row.line level line).body.toList.takeWhile (· == ' ')).length = 2 * level ∧
        (Row.line level line).body.toList.dropWhile (· == ' ') = line.text.toList := by
    obtain ⟨c, cs, htext, hc, -⟩ := (Line.isLineText h).head
    have hlist : (Row.line level line).body.toList =
        List.replicate (2 * level) ' ' ++ line.text.toList := by
      simp [Row.body, indent]
    obtain ⟨htake, hdrop⟩ := @span_append (· == ' ') (List.replicate (2 * level) ' ')
      line.text.toList (by simp) (by simp [htext, hc])
    rw [hlist, htake, hdrop]
    exact ⟨List.length_replicate, rfl⟩
  have hblank {level : Nat} {line : Line} (h : line.IsValid) : (Row.line level line).body ≠ "" := by
    obtain ⟨c, cs, htext, -⟩ := (Line.isLineText h).head
    intro hempty
    have hlist := congrArg String.toList hempty
    simp [Row.body, htext] at hlist
  cases row with
  | blank =>
    cases row' with
    | blank => rfl
    | line level' line' => exact absurd heq.symm (hblank h')
  | line level line =>
    cases row' with
    | blank => exact absurd heq (hblank h)
    | line level' line' =>
      obtain ⟨hlength, htext⟩ := @hspan level line h
      obtain ⟨hlength', htext'⟩ := @hspan level' line' h'
      rw [heq] at hlength htext
      have hlevel : level = level' := by omega
      have hline : line.text = line'.text := String.toList_inj.mp (htext.symm.trans htext')
      rw [hlevel, Line.text_inj h h' hline]

/-- Rows end at their newlines. -/
theorem row_append_inj {row row' : Row} (h : row.IsValid) (h' : row'.IsValid) {rest rest' : String}
    (heq : row.body ++ "\n" ++ rest = row'.body ++ "\n" ++ rest') : row = row' ∧ rest = rest' := by
  have hall {text : String} (h : Unbroken text) : text.toList.all (· != '\n') = true := by
    rw [List.all_eq_true]
    intro c hc
    rw [bne_iff_ne]
    rintro rfl
    exact h hc
  have hlists := congrArg String.toList heq
  simp only [String.toList_append, List.append_assoc] at hlists
  obtain ⟨htake, hdrop⟩ := @span_append (· != '\n') row.body.toList ('\n' :: rest.toList)
    (hall (unbroken_body h)) (by simp)
  obtain ⟨htake', hdrop'⟩ := @span_append (· != '\n') row'.body.toList ('\n' :: rest'.toList)
    (hall (unbroken_body h')) (by simp)
  change row.body.toList ++ '\n' :: rest.toList = row'.body.toList ++ '\n' :: rest'.toList at hlists
  rw [hlists] at htake hdrop
  have hbody : row.body = row'.body := String.toList_inj.mp (htake.symm.trans htake')
  have hrest := (List.cons.inj (hdrop.symm.trans hdrop')).2
  exact ⟨body_inj h h' hbody, String.toList_inj.mp hrest⟩

/-- A text falls into rows in one way only. -/
theorem rowsText_inj {rows rows' : List Row} (h : ∀ row ∈ rows, row.IsValid)
    (h' : ∀ row ∈ rows', row.IsValid) (heq : rowsText rows = rowsText rows') : rows = rows' := by
  have hempty (row : Row) (rows : List Row) : rowsText (row :: rows) ≠ "" := by
    simp [rowsText]
  induction rows generalizing rows' with
  | nil =>
    cases rows' with
    | nil => rfl
    | cons row' rows' => exact absurd heq.symm (hempty row' rows')
  | cons row rows ih =>
    cases rows' with
    | nil => exact absurd heq (hempty row rows)
    | cons row' rows' =>
      obtain ⟨rfl, hrest⟩ :=
        row_append_inj (h row List.mem_cons_self) (h' row' List.mem_cons_self) heq
      rw [ih (fun x hx => h x (List.mem_cons_of_mem _ hx))
        (fun x hx => h' x (List.mem_cons_of_mem _ hx)) hrest]

/-! ## The rows of a statement -/

def gapRows (node : Node) : List (Node × List Row) → List Row
  | [] => []
  | (next, _) :: _ => if isSpaced node || isSpaced next then [.blank] else []

def spacedRows : List (Node × List Row) → List Row
  | [] => []
  | (node, rows) :: rest => rows ++ gapRows node rest ++ spacedRows rest

def endRow (level : Nat) : Row :=
  .line level (.ending none)

mutual

def Node.rows (level : Nat) : Node → List Row
  | .classDef name superclass body =>
    .line level (.classHead name superclass) :: (body.rows (level + 1) ++ [endRow level])
  | .moduleDef name body =>
    .line level (.moduleHead name) :: (body.rows (level + 1) ++ [endRow level])
  | .methodDef name params body =>
    .line level (.methodHead name params) :: (body.rows (level + 1) ++ [endRow level])
  | .sequence entries => spacedRows (entryRows level entries)
  | .beginEnd body =>
    .line level (.clause "begin" none) :: (body.rows (level + 1) ++ [endRow level])
  | .ifElse condition thenBody elseBody =>
    .line level (.clause "if" (some condition)) ::
      (thenBody.rows (level + 1) ++ chainRows level elseBody)
  | .unlessElse condition thenBody elseBody =>
    .line level (.clause "unless" (some condition)) ::
      (thenBody.rows (level + 1) ++ (elseRows level elseBody ++ [endRow level]))
  | .caseWhen subject clauses elseBody =>
    .line level (.clause "case" (some subject)) ::
      (clauseRows level clauses ++ (elseRows level elseBody ++ [endRow level]))
  | .loop kind condition (.beginEnd body) =>
    .line level (.clause "begin" none) ::
      (body.rows (level + 1) ++ [.line level (.ending (some (kind, condition)))])
  | .loop kind condition body =>
    .line level (.clause kind.word (some condition)) :: (body.rows (level + 1) ++ [endRow level])
  | .breakLoop => [.line level (.clause "break" none)]
  | .next value => [.line level (.clause "next" value)]
  | .ret value => [.line level (.clause "return" value)]
  | node => [.line level (.expression node)]

def entryRows (level : Nat) : List (Option Node) → List (Node × List Row)
  | [] => []
  | none :: rest => entryRows level rest
  | some node :: rest => (node, node.rows level) :: entryRows level rest

def clauseRows (level : Nat) : List (List Node × Node) → List Row
  | [] => []
  | (values, body) :: rest =>
    .line level (.whenValues values) :: (body.rows (level + 1) ++ clauseRows level rest)

def elseRows (level : Nat) : Option Node → List Row
  | none => []
  | some body => .line level (.clause "else" none) :: body.rows (level + 1)

def chainRows (level : Nat) : Option Node → List Row
  | none => [endRow level]
  | some (.ifElse condition thenBody elseBody) =>
    .line level (.clause "elsif" (some condition)) ::
      (thenBody.rows (level + 1) ++ chainRows level elseBody)
  | some body => .line level (.clause "else" none) :: (body.rows (level + 1) ++ [endRow level])

end

end YcpToRuby.Ruby
