import YcpToRuby.Proofs.Ruby.Grammar
import YcpToRuby.Proofs.Ruby.Indentation

/-!
# Layout is compositional

The lines of a tree at a level are its lines at level zero, moved to the right. A node that is no
sequence shows text inside a line, which may go on in further lines; a sequence shows whole lines.
Each kind of node is put together from texts of its parts that move.
-/

set_option autoImplicit false

namespace YcpToRuby.Ruby

/-! ## Trees that move -/

def Place.holdsLines : Place → Bool
  | root | body | loopBody | elseOfIf => true
  | entry | attached | value => false

def Node.isProgram : Node → Bool
  | program _ => true
  | _ => false

def Node.names : Node → List String
  | classDef name _ _ | moduleDef name _ | call _ name _ _ _ | const _ name | var name => [name]
  | methodDef name params _ => name :: params
  | block params _ => params
  | _ => []

@[mk_iff] structure HasLayout (place : Place) (m : Node) : Prop where
  program : m.isProgram = false
  sequence : m.isSequence → place.holdsLines
  names : ∀ name ∈ m.names, IsWord name

instance (place : Place) (m : Node) : Decidable (HasLayout place m) :=
  decidable_of_iff' _ (hasLayout_iff place m)

/-- A node and everything in it can be laid out at any level: sequences are bodies or the whole
tree, and no name is empty or has a newline. -/
inductive Indentable : Place → Node → Prop
  | mk {place : Place} {m : Node} (here : HasLayout place m)
      (parts : ∀ part ∈ m.placed, Indentable part.1 part.2) : Indentable place m

theorem indentable_iff {place : Place} {m : Node} :
    Indentable place m ↔ HasLayout place m ∧ ∀ part ∈ m.placed, Indentable part.1 part.2 := by
  constructor
  · rintro ⟨here, parts⟩
    exact ⟨here, parts⟩
  · rintro ⟨here, parts⟩
    exact ⟨here, parts⟩

def indentableTo : Nat → Place → Node → Bool
  | 0, _, _ => false
  | depth + 1, place, m =>
    decide (HasLayout place m) && m.placed.all fun part => indentableTo depth part.1 part.2

theorem indentable_of_indentableTo {depth : Nat} {place : Place} {m : Node}
    (h : indentableTo depth place m = true) : Indentable place m := by
  induction depth generalizing place m with
  | zero => cases h
  | succ depth ih =>
    simp only [indentableTo, Bool.and_eq_true, decide_eq_true_eq, List.all_eq_true] at h
    exact ⟨h.1, fun part hpart => ih (h.2 part hpart)⟩

theorem Indentable.plain {place : Place} {m : Node} (h : Indentable place m)
    (hplace : place.holdsLines = false) : m.isSequence = false := by
  by_contra hm
  have hlines := (indentable_iff.mp h).1.sequence (by simpa using hm)
  rw [hplace] at hlines
  cases hlines

/-! ## Parts of nodes -/

structure Node.MovesInline (n : Node) : Prop where
  plain : n.isSequence = false
  chunk : MovesFrom false fun level => n.chunk level

def Node.MovesLines (n : Node) : Prop :=
  Moves true true fun level => n.lines level

section Plain

variable {n : Node}

theorem inlineText_of_plain (h : n.isSequence = false) (chunk : String) :
    inlineText n chunk = chunk := by
  cases n with
  | sequence entries => cases h
  | _ => rfl

theorem linesText_of_plain (h : n.isSequence = false) (level : Nat) (chunk : String) :
    linesText level n chunk = indent level ++ chunk ++ "\n" := by
  cases n with
  | sequence entries => cases h
  | _ => rfl

end Plain

namespace Node.MovesInline

variable {n : Node}

theorem line (h : n.MovesInline) :
    Moves true true fun level => indent level ++ n.chunk level ++ "\n" :=
  h.chunk.indent.append moves_newline

theorem lines (h : n.MovesInline) : n.MovesLines := by
  unfold MovesLines Node.lines
  simp only [linesText_of_plain h.plain]
  exact h.line

theorem operand (h : n.MovesInline) (strength : Nat) :
    MovesFrom false fun level => operandText strength n (n.chunk level) := by
  have hopen : IsWord "(" := by decide
  simp only [operandText, inlineText_of_plain h.plain]
  split_ifs
  · exact (hopen.movesFrom.append h.chunk.moves).append (moves_unbroken (by decide))
  · exact h.chunk

end Node.MovesInline

theorem moves_optionalOperand {before after : String} {part : Option Node} (strength : Nat)
    (hbefore : Unbroken before) (hafter : Unbroken after) (h : ∀ n ∈ part, n.MovesInline) :
    Moves false false fun level => optionalOperand level before strength part after := by
  cases part with
  | none => exact moves_empty
  | some n =>
    have hn := (h n rfl).operand strength
    exact ((moves_unbroken hbefore).append hn.moves).append (moves_unbroken hafter)

/-- A name, with the receiver or the scope in front of it. -/
theorem movesFrom_scopedName {after name : String} {part : Option Node} (hafter : Unbroken after)
    (hname : IsWord name) (h : ∀ n ∈ part, n.MovesInline) :
    MovesFrom false fun level => optionalOperand level "" 16 part after ++ name := by
  cases part with
  | none =>
    change MovesFrom false fun level => "" ++ name
    simp only [String.empty_append]
    exact hname.movesFrom
  | some n =>
    change MovesFrom false fun level => "" ++ operandText 16 n (n.chunk level) ++ after ++ name
    simp only [String.empty_append]
    have hn := (h n rfl).operand 16
    exact (hn.append (moves_unbroken hafter)).append (moves_unbroken hname.unbroken)

/-! ## Lists of parts -/

theorem MovesTexts.commaSeparated {texts : Nat → List String} (h : MovesTexts texts) :
    Moves false false fun level => commaSeparated (texts level) :=
  h.intercalate (by decide)

theorem movesTexts_operandTexts {items : List Node} (h : ∀ n ∈ items, n.MovesInline) :
    MovesTexts fun level => operandTexts level items := by
  induction items with
  | nil => exact movesTexts_nil
  | cons n rest ih =>
    have hn := (h n List.mem_cons_self).operand 1
    exact .cons hn.moves (ih fun m hm => h m (List.mem_cons_of_mem _ hm))

theorem movesTexts_hashTexts {entries : List (Node × Node)}
    (h : ∀ entry ∈ entries, entry.1.MovesInline ∧ entry.2.MovesInline) :
    MovesTexts fun level => hashTexts level entries := by
  induction entries with
  | nil => exact movesTexts_nil
  | cons entry rest ih =>
    obtain ⟨hkey, hvalue⟩ := h entry List.mem_cons_self
    refine .cons ?_ (ih fun m hm => h m (List.mem_cons_of_mem _ hm))
    exact ((hkey.operand 1).moves.append (moves_unbroken (by decide))).append
      (hvalue.operand 1).moves

def Node.InnerMoves : Node → Prop
  | .sequence entries => ∀ n, some n ∈ entries → n.MovesInline
  | .hash entries => ∀ entry ∈ entries, entry.1.MovesInline ∧ entry.2.MovesInline
  | .ifElse condition thenBody elseBody =>
    Moves true true fun level => elseChain level (some (.ifElse condition thenBody elseBody))
  | _ => True

theorem movesTexts_argumentTexts {args : List Node}
    (h : ∀ n ∈ args, n.MovesInline ∧ n.InnerMoves) :
    MovesTexts fun level => argumentTexts level args := by
  induction args with
  | nil => exact movesTexts_nil
  | cons n rest ih =>
    obtain ⟨hn, hinner⟩ := h n List.mem_cons_self
    have hrest := ih fun m hm => h m (List.mem_cons_of_mem _ hm)
    unfold argumentTexts
    split
    · rename_i heq
      cases heq
    · rename_i entries heq
      obtain ⟨rfl, rfl⟩ := List.cons.inj heq
      cases entries with
      | nil => exact .cons (moves_unbroken (by decide)) movesTexts_nil
      | cons entry entries => exact movesTexts_hashTexts hinner
    · rename_i heq
      obtain ⟨rfl, rfl⟩ := List.cons.inj heq
      exact .cons (hn.operand 1).moves hrest

theorem moves_argumentList {texts : Nat → List String} (h : MovesTexts texts)
    (receiver : Option Node) (name : String) (attached : Option Node) (parens : Bool) :
    Moves false false fun level => argumentList receiver name attached parens (texts level) := by
  intro levels level
  have hempty : (texts (levels + level)).isEmpty = (texts level).isEmpty := by
    rw [Bool.eq_iff_iff, List.isEmpty_iff_length_eq_zero, List.isEmpty_iff_length_eq_zero,
      (h levels level).length_eq]
  have htexts : Moved levels false false (commaSeparated (texts level))
      (commaSeparated (texts (levels + level))) := moved_intercalate (by decide) (h levels level)
  simp only [argumentList, hempty]
  split_ifs
  · exact .unbroken (by decide)
  · exact .empty
  · exact ((Moved.unbroken (by decide)).append htexts).append (.unbroken (by decide))
  · exact (Moved.unbroken (by decide)).append htexts

/-! ## Lines -/

theorem entryChunks_eq (level : Nat) (entries : List (Option Node)) :
    entryChunks level entries = (entries.filterMap id).map fun n => (n, n.chunk level) := by
  induction entries with
  | nil => rfl
  | cons entry rest ih =>
    cases entry with
    | none => exact ih
    | some n => exact congrArg (List.cons (n, n.chunk level)) ih

theorem moves_entryLines {nodes : List Node} (h : ∀ n ∈ nodes, n.MovesInline) :
    Moves true true fun level => entryLines level (nodes.map fun n => (n, n.chunk level)) := by
  induction nodes with
  | nil => exact moves_empty
  | cons n rest ih =>
    have hn := h n List.mem_cons_self
    have hline : Moves true true fun level =>
        indent level ++ inlineText n (n.chunk level) ++ "\n" := by
      simp only [inlineText_of_plain hn.plain]
      exact hn.line
    have hrest := ih fun m hm => h m (List.mem_cons_of_mem _ hm)
    cases rest with
    | nil => exact hline
    | cons next rest =>
      have hblank : Moves true true fun _ =>
          if isSpaced n || isSpaced next then "\n" else "" := by
        split_ifs
        · exact moves_newline
        · exact moves_empty
      exact (hline.append hblank).append hrest

theorem moves_entryWords {nodes : List Node} (h : ∀ n ∈ nodes, n.MovesInline) :
    Moves false false fun level =>
      String.join ((nodes.map fun n => (n, n.chunk level)).map fun (n, chunk) =>
        " " ++ inlineText n chunk) := by
  induction nodes with
  | nil => exact moves_empty
  | cons n rest ih =>
    have hn := h n List.mem_cons_self
    simp only [List.map_cons, String.join_cons, inlineText_of_plain hn.plain]
    exact ((moves_unbroken (by decide)).append hn.chunk.moves).append
      (ih fun m hm => h m (List.mem_cons_of_mem _ hm))

theorem Node.movesLines_sequence {entries : List (Option Node)}
    (h : (Node.sequence entries).InnerMoves) : (Node.sequence entries).MovesLines := by
  change Moves true true fun level => entryLines level (entryChunks level entries)
  simp only [entryChunks_eq]
  exact moves_entryLines fun n hn => h n (by simpa using hn)

theorem moves_elseLines {elseBody : Option Node} (h : ∀ n ∈ elseBody, n.MovesLines) :
    Moves true true fun level => elseLines level elseBody := by
  have helse : IsWord "else" := by decide
  cases elseBody with
  | none => exact moves_empty
  | some body =>
    have hword : Moves true true fun level => indent level ++ "else\n" :=
      (helse.movesFrom.append moves_newline).indent
    exact hword.append (h body rfl).deeper

theorem moves_clauseLines {clauses : List (List Node × Node)}
    (h : ∀ clause ∈ clauses, (∀ n ∈ clause.1, n.MovesInline) ∧ clause.2.MovesLines) :
    Moves true true fun level => clauseLines level clauses := by
  have hwhen : IsWord "when " := by decide
  induction clauses with
  | nil => exact moves_empty
  | cons clause rest ih =>
    obtain ⟨hvalues, hbody⟩ := h clause List.mem_cons_self
    have htexts := (movesTexts_operandTexts hvalues).commaSeparated
    have hrest := ih fun m hm => h m (List.mem_cons_of_mem _ hm)
    exact (((hwhen.movesFrom.indent.append htexts).append moves_newline).append
      hbody.deeper).append hrest

structure Node.Movable (n : Node) : Prop where
  inline : n.isSequence = false → n.MovesInline
  lines : n.MovesLines
  inner : n.InnerMoves

theorem Node.MovesInline.movable {n : Node} (h : n.MovesInline) (hinner : n.InnerMoves) :
    n.Movable :=
  ⟨fun _ => h, h.lines, hinner⟩

theorem moves_elseChain {elseBody : Option Node} (h : ∀ n ∈ elseBody, n.Movable) :
    Moves true true fun level => elseChain level elseBody := by
  cases elseBody with
  | none => exact moves_empty
  | some body =>
    obtain ⟨-, hlines, hinner⟩ := h body rfl
    have helse : Moves true true fun level => elseLines level (some body) :=
      moves_elseLines (by simpa using hlines)
    cases body with
    | ifElse condition thenBody elseBody => exact hinner
    | _ => exact helse

/-! ## Kinds of nodes -/

namespace Node

section Definitions

variable {name : String} {params : List String} {superclass : Option Node} {body : Node}

theorem movesFrom_end {front : Nat → String} (hfront : MovesFrom true front) :
    MovesFrom false fun level => front level ++ indent level ++ "end" := by
  have hend : IsWord "end" := by decide
  exact hfront.line hend.movesFrom

/-- The lines of a body one level deeper, and the word that closes them. -/
theorem movesFrom_closed {front : Nat → String} (hfront : MovesFrom true front)
    (hbody : body.MovesLines) : MovesFrom false fun level =>
      front level ++ linesText (level + 1) body (body.chunk (level + 1)) ++ indent level ++
        "end" :=
  movesFrom_end (hfront.append hbody.deeper)

/-- The first line of a node that branches on a value. -/
theorem movesFrom_head {word : String} {n : Node} (hword : IsWord word) (hn : n.MovesInline) :
    MovesFrom true fun level => word ++ operandText 1 n (n.chunk level) ++ "\n" :=
  (hword.movesFrom.append (hn.operand 1).moves).append moves_newline

theorem unbroken_listed {before after : String} (hbefore : Unbroken before)
    (hafter : Unbroken after) (h : ∀ param ∈ params, IsWord param) :
    Unbroken (if params.isEmpty then "" else before ++ commaSeparated params ++ after) := by
  split_ifs
  · decide
  · simp only [unbroken_append]
    exact ⟨⟨hbefore, unbroken_intercalate (by decide) fun param hparam =>
      (h param hparam).unbroken⟩, hafter⟩

theorem unbroken_paramList (h : ∀ param ∈ params, IsWord param) : Unbroken (paramList params) :=
  unbroken_listed (by decide) (by decide) h

theorem unbroken_blockParams (h : ∀ param ∈ params, IsWord param) :
    Unbroken (blockParams params) :=
  unbroken_listed (by decide) (by decide) h

theorem movesInline_classDef (hname : IsWord name) (hsuper : ∀ n ∈ superclass, n.MovesInline)
    (hbody : body.MovesLines) : (classDef name superclass body).MovesInline := by
  have hword : IsWord "class " := by decide
  have hclause : Moves false false fun level => optionalOperand level " < " 16 superclass "" :=
    moves_optionalOperand 16 (by decide) (by decide) hsuper
  exact ⟨rfl, movesFrom_closed (((hword.movesFrom.append (moves_unbroken hname.unbroken)).append
    hclause).append moves_newline) hbody⟩

theorem movesInline_moduleDef (hname : IsWord name) (hbody : body.MovesLines) :
    (moduleDef name body).MovesInline := by
  have hword : IsWord "module " := by decide
  exact ⟨rfl, movesFrom_closed ((hword.movesFrom.append (moves_unbroken hname.unbroken)).append
    moves_newline) hbody⟩

theorem movesInline_methodDef (hname : IsWord name) (hparams : ∀ param ∈ params, IsWord param)
    (hbody : body.MovesLines) : (methodDef name params body).MovesInline := by
  have hword : IsWord "def " := by decide
  exact ⟨rfl, movesFrom_closed (((hword.movesFrom.append (moves_unbroken hname.unbroken)).append
    (moves_unbroken (unbroken_paramList hparams))).append moves_newline) hbody⟩

theorem movesInline_beginEnd (hbody : body.MovesLines) : (beginEnd body).MovesInline := by
  have hword : IsWord "begin" := by decide
  have hfront : MovesFrom true fun _ => "begin\n" := hword.movesFrom.append moves_newline
  exact ⟨rfl, movesFrom_closed hfront hbody⟩

end Definitions

section Branches

variable {kind : LoopKind} {condition thenBody body subject : Node} {elseBody : Option Node}
  {clauses : List (List Node × Node)}

theorem movesInline_ifElse (hcondition : condition.MovesInline) (hthen : thenBody.MovesLines)
    (helse : ∀ n ∈ elseBody, n.Movable) : (ifElse condition thenBody elseBody).MovesInline := by
  have hif : IsWord "if " := by decide
  exact ⟨rfl, movesFrom_end (((movesFrom_head hif hcondition).append hthen.deeper).append
    (moves_elseChain helse))⟩

/-- An `if` that goes on with the branches of another. -/
theorem innerMoves_ifElse (hcondition : condition.MovesInline) (hthen : thenBody.MovesLines)
    (helse : ∀ n ∈ elseBody, n.Movable) : (ifElse condition thenBody elseBody).InnerMoves := by
  have helsif : IsWord "elsif " := by decide
  exact (((helsif.movesFrom.indent.append (hcondition.operand 1).moves).append
    moves_newline).append hthen.deeper).append (moves_elseChain helse)

theorem movesInline_unlessElse (hcondition : condition.MovesInline) (hthen : thenBody.MovesLines)
    (helse : ∀ n ∈ elseBody, n.MovesLines) :
    (unlessElse condition thenBody elseBody).MovesInline := by
  have hunless : IsWord "unless " := by decide
  exact ⟨rfl, movesFrom_end (((movesFrom_head hunless hcondition).append hthen.deeper).append
    (moves_elseLines helse))⟩

theorem movesInline_caseWhen (hsubject : subject.MovesInline)
    (hclauses : ∀ clause ∈ clauses, (∀ n ∈ clause.1, n.MovesInline) ∧ clause.2.MovesLines)
    (helse : ∀ n ∈ elseBody, n.MovesLines) :
    (caseWhen subject clauses elseBody).MovesInline := by
  have hcase : IsWord "case " := by decide
  exact ⟨rfl, movesFrom_end (((movesFrom_head hcase hsubject).append
    (moves_clauseLines hclauses)).append (moves_elseLines helse))⟩

theorem chunk_loop_beginEnd (level : Nat) : (loop kind condition (beginEnd body)).chunk level =
    (beginEnd body).chunk level ++ " " ++ kind.word ++ " " ++
      operandText 1 condition (condition.chunk level) := by
  change "begin\n" ++ _ ++ indent level ++ "end " ++ _ ++ _ ++ _ =
    "begin\n" ++ _ ++ indent level ++ "end" ++ " " ++ _ ++ _ ++ _
  simp only [String.append_assoc]
  rfl

theorem chunk_loop (h : ∀ inner, body ≠ beginEnd inner) (level : Nat) :
    (loop kind condition body).chunk level =
      kind.word ++ " " ++ operandText 1 condition (condition.chunk level) ++ "\n" ++
        linesText (level + 1) body (body.chunk (level + 1)) ++ indent level ++ "end" := by
  cases body with
  | beginEnd inner => exact absurd rfl (h inner)
  | _ => rfl

theorem movesInline_loop (hcondition : condition.MovesInline) (hbody : body.Movable) :
    (loop kind condition body).MovesInline := by
  have hword : IsWord kind.word := by cases kind <;> decide
  refine ⟨rfl, ?_⟩
  by_cases hbegin : ∃ inner, body = beginEnd inner
  · obtain ⟨inner, rfl⟩ := hbegin
    have hinner := (hbody.inline rfl).chunk
    simp only [chunk_loop_beginEnd]
    exact (((hinner.append (moves_unbroken (by decide))).append
      (moves_unbroken hword.unbroken)).append (moves_unbroken (by decide))).append
      (hcondition.operand 1).moves
  · simp only [chunk_loop fun inner heq => hbegin ⟨inner, heq⟩]
    exact movesFrom_closed (((hword.movesFrom.append (moves_unbroken (by decide))).append
      (hcondition.operand 1).moves).append moves_newline) hbody.lines

theorem movesInline_jump {value : Option Node} (h : ∀ n ∈ value, n.MovesInline) :
    (next value).MovesInline ∧ (ret value).MovesInline := by
  have hnext : IsWord "next" := by decide
  have hret : IsWord "return" := by decide
  have hvalue : Moves false false fun level => optionalOperand level " " 1 value "" :=
    moves_optionalOperand 1 (by decide) (by decide) h
  exact ⟨⟨rfl, hnext.movesFrom.append hvalue⟩, ⟨rfl, hret.movesFrom.append hvalue⟩⟩

end Branches

section Expressions

variable {name : String} {params : List String} {receiver attached scope : Option Node}
  {items args : List Node} {fields : List (Node × Node)}
  {target value operand lhs rhs condition thenValue elseValue body : Node}

/-- A node whose text is one word. -/
theorem movesInline_word {n : Node} {text : String} (h : IsWord text)
    (hplain : n.isSequence = false) (hchunk : ∀ level, n.chunk level = text) : n.MovesInline := by
  refine ⟨hplain, ?_⟩
  simp only [hchunk]
  exact h.movesFrom

theorem movesInline_group (h : ∀ n ∈ items, n.MovesInline) : (group items).MovesInline := by
  have hopen : IsWord "(" := by decide
  have htexts : Moves false false fun level => "; ".intercalate (operandTexts level items) :=
    (movesTexts_operandTexts h).intercalate (by decide)
  exact ⟨rfl, (hopen.movesFrom.append htexts).append (moves_unbroken (by decide))⟩

theorem movesInline_array (h : ∀ n ∈ items, n.MovesInline) : (array items).MovesInline := by
  have hopen : IsWord "[" := by decide
  have htexts := (movesTexts_operandTexts h).commaSeparated
  exact ⟨rfl, (hopen.movesFrom.append htexts).append (moves_unbroken (by decide))⟩

theorem movesInline_hash (h : ∀ field ∈ fields, field.1.MovesInline ∧ field.2.MovesInline) :
    (hash fields).MovesInline := by
  by_cases hne : fields = []
  · subst hne
    have hbraces : IsWord "\x7b\x7d" := by decide
    exact movesInline_word hbraces rfl fun _ => rfl
  · have hopen : IsWord "\x7b " := by decide
    have htexts := (movesTexts_hashTexts h).commaSeparated
    refine ⟨rfl, ?_⟩
    simp only [chunk_hash hne]
    exact (hopen.movesFrom.append htexts).append (moves_unbroken (by decide))

theorem movesInline_assign (htarget : target.MovesInline) (hvalue : value.MovesInline) :
    (assign target value).MovesInline :=
  ⟨rfl, ((htarget.operand 16).append (moves_unbroken (by decide))).append (hvalue.operand 1).moves⟩

theorem movesInline_unary (op : UnaryOp) (h : operand.MovesInline) :
    (unary op operand).MovesInline := by
  have hsymbol : IsWord op.symbol := by cases op <;> decide
  exact ⟨rfl, hsymbol.movesFrom.append (h.operand op.precedence).moves⟩

theorem movesInline_binary (op : BinaryOp) (hl : lhs.MovesInline) (hr : rhs.MovesInline) :
    (binary op lhs rhs).MovesInline := by
  have hsymbol : Unbroken op.symbol := by cases op <;> decide
  exact ⟨rfl, ((((hl.operand op.leftStrength).append (moves_unbroken (by decide))).append
    (moves_unbroken hsymbol)).append (moves_unbroken (by decide))).append
    (hr.operand op.rightStrength).moves⟩

theorem movesInline_ternary (hc : condition.MovesInline) (ht : thenValue.MovesInline)
    (he : elseValue.MovesInline) : (ternary condition thenValue elseValue).MovesInline :=
  ⟨rfl, ((((hc.operand 3).append (moves_unbroken (by decide))).append (ht.operand 2).moves).append
    (moves_unbroken (by decide))).append (he.operand 2).moves⟩

theorem movesInline_const (hname : IsWord name) (h : ∀ n ∈ scope, n.MovesInline) :
    (const scope name).MovesInline :=
  ⟨rfl, movesFrom_scopedName (by decide) hname h⟩

theorem movesInline_call (hname : IsWord name) (parens : Bool)
    (hreceiver : ∀ n ∈ receiver, n.MovesInline)
    (hargs : ∀ n ∈ args, n.MovesInline ∧ n.InnerMoves)
    (hattached : ∀ n ∈ attached, n.MovesInline) :
    (call receiver name args attached parens).MovesInline := by
  have hblock : Moves false false fun level => optionalOperand level " " 16 attached "" :=
    moves_optionalOperand 16 (by decide) (by decide) hattached
  exact ⟨rfl, ((movesFrom_scopedName (by decide) hname hreceiver).append (moves_argumentList
    (movesTexts_argumentTexts hargs) receiver name attached parens)).append hblock⟩

/-- The lines of a block literal. -/
theorem moves_blockLines (h : body.MovesLines) : Moves false false fun level =>
    "\n" ++ linesText (level + 1) body (body.chunk (level + 1)) ++ indent level ++ "\x7d" := by
  have hclose : IsWord "\x7d" := by decide
  exact (moves_newline.append h.deeper).line hclose.movesFrom

theorem chunk_block (h : body.isSequence = false) (level : Nat) :
    (block params body).chunk level = "\x7b" ++ blockParams params ++
      if body.isStatement then
        "\n" ++ linesText (level + 1) body (body.chunk (level + 1)) ++ indent level ++ "\x7d"
      else " " ++ body.chunk level ++ " \x7d" := by
  cases body with
  | sequence entries => cases h
  | _ => rfl

theorem movesInline_block (hparams : ∀ param ∈ params, IsWord param) (hbody : body.Movable) :
    (block params body).MovesInline := by
  have hopen : IsWord "\x7b" := by decide
  have hfront : MovesFrom false fun _ => "\x7b" ++ blockParams params :=
    hopen.movesFrom.append (moves_unbroken (unbroken_blockParams hparams))
  have hlines := moves_blockLines hbody.lines
  refine ⟨rfl, ?_⟩
  cases hplain : body.isSequence with
  | false =>
    simp only [chunk_block hplain]
    refine hfront.append ?_
    split_ifs
    · exact hlines
    · exact ((moves_unbroken (by decide)).append (hbody.inline hplain).chunk.moves).append
        (moves_unbroken (by decide))
  | true =>
    cases body with
    | sequence entries =>
      change MovesFrom false fun level => "\x7b" ++ blockParams params ++
        if fitsOnLine entries then _ else _
      refine hfront.append ?_
      split_ifs
      · simp only [entryChunks_eq]
        exact (moves_entryWords fun n hn => hbody.inner n (by simpa using hn)).append
          (moves_unbroken (by decide))
      · exact hlines
    | _ => cases hplain

end Expressions

end Node

/-! ## Whole trees -/

section Trees

open Node

attribute [local simp] placed names

theorem Indentable.movable {place : Place} {m : Node} (h : Indentable place m) : m.Movable := by
  induction h with
  | @mk place m here parts ih =>
    have hinline (place : Place) (n : Node) (hn : (place, n) ∈ m.placed)
        (hplace : place.holdsLines = false) : n.MovesInline :=
      (ih _ hn).inline ((parts _ hn).plain hplace)
    have hvalue (n : Node) (hn : (Place.value, n) ∈ m.placed) : n.MovesInline :=
      hinline .value n hn rfl
    have hlines (place : Place) (n : Node) (hn : (place, n) ∈ m.placed) : n.MovesLines :=
      (ih _ hn).lines
    have hnames := here.names
    cases m with
    | program body => cases here.program
    | classDef name superclass body =>
      refine (movesInline_classDef (hnames name (by simp)) (fun n hn => ?_)
        (hlines .body body (by simp))).movable trivial
      exact hvalue n (by simpa using hn)
    | moduleDef name body =>
      exact (movesInline_moduleDef (hnames name (by simp))
        (hlines .body body (by simp))).movable trivial
    | methodDef name params body =>
      exact (movesInline_methodDef (hnames name (by simp))
        (fun param hparam => hnames param (by simp [hparam]))
        (hlines .body body (by simp))).movable trivial
    | sequence entries =>
      have hentries : (Node.sequence entries).InnerMoves := fun n hn =>
        hinline .entry n (by simpa using hn) rfl
      refine ⟨fun hplain => ?_, movesLines_sequence hentries, hentries⟩
      cases hplain
    | beginEnd body =>
      exact (movesInline_beginEnd (hlines .body body (by simp))).movable trivial
    | ifElse condition thenBody elseBody =>
      have hcondition := hvalue condition (by simp)
      have hthen := hlines .body thenBody (by simp)
      have helse (n : Node) (hn : n ∈ elseBody) : n.Movable :=
        ih (.elseOfIf, n) (by simpa using hn)
      exact (movesInline_ifElse hcondition hthen helse).movable
        (innerMoves_ifElse hcondition hthen helse)
    | unlessElse condition thenBody elseBody =>
      refine (movesInline_unlessElse (hvalue condition (by simp))
        (hlines .body thenBody (by simp)) fun n hn => ?_).movable trivial
      exact hlines .body n (by simp [Option.mem_def.mp hn])
    | caseWhen subject clauses elseBody =>
      refine (movesInline_caseWhen (hvalue subject (by simp))
        (fun clause hclause => ⟨fun n hn => ?_, ?_⟩) fun n hn => ?_).movable trivial
      · exact hvalue n (by simp only [placed]; grind)
      · exact hlines .body clause.2 (by simp only [placed]; grind)
      · exact hlines .body n (by simp [Option.mem_def.mp hn])
    | loop kind condition body =>
      exact (movesInline_loop (hvalue condition (by simp))
        (ih (.loopBody, body) (by simp))).movable trivial
    | breakLoop =>
      have hword : IsWord "break" := by decide
      exact (movesInline_word hword rfl fun _ => rfl).movable trivial
    | next value =>
      exact (movesInline_jump fun n hn => hvalue n (by simpa using hn)).1.movable trivial
    | ret value =>
      exact (movesInline_jump fun n hn => hvalue n (by simpa using hn)).2.movable trivial
    | group items =>
      exact (movesInline_group fun n hn => hvalue n (by simp [hn])).movable trivial
    | assign target value =>
      exact (movesInline_assign (hvalue target (by simp)) (hvalue value (by simp))).movable trivial
    | unary op operand =>
      exact (movesInline_unary op (hvalue operand (by simp))).movable trivial
    | binary op lhs rhs =>
      exact (movesInline_binary op (hvalue lhs (by simp)) (hvalue rhs (by simp))).movable trivial
    | ternary condition thenValue elseValue =>
      exact (movesInline_ternary (hvalue condition (by simp)) (hvalue thenValue (by simp))
        (hvalue elseValue (by simp))).movable trivial
    | call receiver name args attached parens =>
      refine (movesInline_call (hnames name (by simp)) parens
        (fun n hn => hvalue n ?_) (fun n hn => ?_) fun n hn => ?_).movable trivial
      · simp [Option.mem_def.mp hn]
      · have hpart : (Place.value, n) ∈ (Node.call receiver name args attached parens).placed := by
          simp [hn]
        exact ⟨hvalue n hpart, (ih _ hpart).inner⟩
      · exact hinline .attached n (by simp [Option.mem_def.mp hn]) rfl
    | block params body =>
      exact (movesInline_block (fun param hparam => hnames param hparam)
        (ih (.body, body) (by simp))).movable trivial
    | const scope name =>
      exact (movesInline_const (hnames name (by simp)) fun n hn =>
        hvalue n (by simpa using hn)).movable trivial
    | var name =>
      exact (movesInline_word (hnames name (by simp)) rfl fun _ => rfl).movable trivial
    | self =>
      have hword : IsWord "self" := by decide
      exact (movesInline_word hword rfl fun _ => rfl).movable trivial
    | literal value =>
      exact (movesInline_word (isWord_text value) rfl fun _ => rfl).movable trivial
    | array items =>
      exact (movesInline_array fun n hn => hvalue n (by simp [hn])).movable trivial
    | hash fields =>
      have hfields (field : Node × Node) (hfield : field ∈ fields) :
          field.1.MovesInline ∧ field.2.MovesInline :=
        ⟨hvalue _ (List.mem_flatMap.mpr ⟨field, hfield, by simp⟩),
          hvalue _ (List.mem_flatMap.mpr ⟨field, hfield, by simp⟩)⟩
      exact (movesInline_hash hfields).movable hfields

end Trees

/-- The lines at a level are the lines at level zero with the spaces of the level in front of every
line that is not empty. -/
theorem lines_eq_indented {r : Node} (h : Indentable .root r) (levels : Nat) :
    r.lines levels = indented levels (r.lines 0) :=
  (h.movable.lines levels 0).eq_indented

def greeter : Node :=
  .classDef "Greeter" (some (.const (some (.constant "Yast")) "Client")) <| .statements
    [.methodDef "main" ["names"] <| .statements
      [.ifElse (.var "names") (.statements [.ret (some (.string "a\nb"))])
        (some (.ifElse (.var "@busy") (.statements [])
          (some (.statements [.call (some (.var "names")) "each" []
            (some (.block ["n"] (.statements [.command none "puts" [.var "n"], .next none])))
            false]))))],
    .methodDef "idle" [] <| .sequence [none]]

theorem greeter_lines_indented :
    Indentable .root greeter ∧ greeter.lines 3 = indented 3 (greeter.lines 0) := by
  have hgreeter : Indentable .root greeter :=
    @indentable_of_indentableTo 12 .root greeter (by decide)
  exact ⟨hgreeter, lines_eq_indented hgreeter 3⟩

end YcpToRuby.Ruby
