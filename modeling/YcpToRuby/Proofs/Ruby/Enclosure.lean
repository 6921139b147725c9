import Mathlib.Data.List.Basic
import YcpToRuby.Proofs.Ruby.Grammar

/-!
# Jumps and what encloses them

Where a jump of a Ruby tree goes depends on the loops, block literals and clauses around it. A node
occurs in a tree with the list of these constructs around it, the innermost one first. The place of
a part says what its node puts around it, and so where the jumps of a tree stand.
-/

set_option autoImplicit false

namespace YcpToRuby.Ruby

inductive Enclosure where
  | loopBody
  | blockLiteral
  | clauseBody
  deriving DecidableEq, Repr

def Node.enclosureAt? : Node → Place → Option Enclosure
  | loop .., .loopBody => some .loopBody
  | block .., .body => some .blockLiteral
  | caseWhen .., .body => some .clauseBody
  | _, _ => none

def Node.parts (n : Node) : List (Option Enclosure × Node) :=
  n.placed.map fun part => (n.enclosureAt? part.1, part.2)

inductive Occurs (m : Node) : List Enclosure → Node → Prop
  | here : Occurs m [] m
  | inside {n : Node} {part : Option Enclosure × Node} {around : List Enclosure}
      (hpart : part ∈ n.parts) (h : Occurs m around part.2) :
      Occurs m (around ++ part.1.toList) n

def raiseBreak : Node := .command none "raise" [.constant "Break"]

inductive IsLoopJump : Node → Prop
  | breakLoop : IsLoopJump .breakLoop
  | next (value : Option Node) : IsLoopJump (.next value)
  | raiseBreak : IsLoopJump raiseBreak

theorem not_isLoopJump_invoke (receiver : Option Node) (name : String) (args : List Node) :
    ¬ IsLoopJump (.invoke receiver name args) := nofun

theorem not_isLoopJump_attached (receiver : Option Node) (name : String) (args : List Node)
    (attached : Node) (parens : Bool) :
    ¬ IsLoopJump (.call receiver name args (some attached) parens) := nofun

def Node.HasJump (n m : Node) (around : List Enclosure) : Prop :=
  IsLoopJump m ∧ Occurs m around n

theorem exists_mem_flatMap {α β : Type} {f : α → List β} {p : β → Prop} {xs : List α} :
    (∃ b ∈ xs.flatMap f, p b) ↔ ∃ a ∈ xs, ∃ b ∈ f a, p b := by
  simp only [List.mem_flatMap]
  tauto

theorem exists_mem_filterMap {α β : Type} {f : α → Option β} {p : β → Prop} {xs : List α} :
    (∃ b ∈ xs.filterMap f, p b) ↔ ∃ a ∈ xs, ∃ b ∈ f a, p b := by
  simp only [List.mem_filterMap]
  tauto

namespace Node

variable {m n : Node} {around : List Enclosure}

theorem hasJump_iff :
    n.HasJump m around ↔ (IsLoopJump n ∧ m = n ∧ around = []) ∨
      ∃ part ∈ n.parts, ∃ inner, part.2.HasJump m inner ∧ around = inner ++ part.1.toList := by
  constructor
  · rintro ⟨hm, hoccurs⟩
    cases hoccurs with
    | here => exact Or.inl ⟨hm, rfl, rfl⟩
    | inside hpart h => exact Or.inr ⟨_, hpart, _, ⟨hm, h⟩, rfl⟩
  · rintro (⟨hn, rfl, rfl⟩ | ⟨part, hpart, inner, ⟨hm, h⟩, rfl⟩)
    · exact ⟨hn, .here⟩
    · exact ⟨hm, .inside hpart h⟩

theorem hasJump_iff_of_not_isLoopJump (h : ¬ IsLoopJump n) :
    n.HasJump m around ↔
      ∃ part ∈ n.parts, ∃ inner, part.2.HasJump m inner ∧ around = inner ++ part.1.toList := by
  rw [hasJump_iff]
  simp [h]

/-! ## Jumps of each form of node -/

attribute [local simp] parts placed enclosureAt?

@[simp] theorem hasJump_program (body : Node) :
    (program body).HasJump m around ↔ body.HasJump m around := by
  apply (hasJump_iff_of_not_isLoopJump (by nofun)).trans
  simp

@[simp] theorem hasJump_classDef (name : String) (superclass : Option Node) (body : Node) :
    (classDef name superclass body).HasJump m around ↔
      (∃ n ∈ superclass, n.HasJump m around) ∨ body.HasJump m around := by
  apply (hasJump_iff_of_not_isLoopJump (by nofun)).trans
  simp [or_and_right, exists_or]

@[simp] theorem hasJump_moduleDef (name : String) (body : Node) :
    (moduleDef name body).HasJump m around ↔ body.HasJump m around := by
  apply (hasJump_iff_of_not_isLoopJump (by nofun)).trans
  simp

@[simp] theorem hasJump_methodDef (name : String) (params : List String) (body : Node) :
    (methodDef name params body).HasJump m around ↔ body.HasJump m around := by
  apply (hasJump_iff_of_not_isLoopJump (by nofun)).trans
  simp

@[simp] theorem hasJump_beginEnd (body : Node) :
    (beginEnd body).HasJump m around ↔ body.HasJump m around := by
  apply (hasJump_iff_of_not_isLoopJump (by nofun)).trans
  simp

@[simp] theorem hasJump_sequence (entries : List (Option Node)) :
    (sequence entries).HasJump m around ↔ ∃ n, some n ∈ entries ∧ n.HasJump m around := by
  apply (hasJump_iff_of_not_isLoopJump (by nofun)).trans
  simp

theorem hasJump_sequence_append (entries others : List (Option Node)) :
    (sequence (entries ++ others)).HasJump m around ↔
      (sequence entries).HasJump m around ∨ (sequence others).HasJump m around := by
  simp [or_and_right, exists_or]

theorem hasJump_sequence_flatMap {α : Type} (xs : List α) (entries : α → List (Option Node)) :
    (sequence (xs.flatMap entries)).HasJump m around ↔
      ∃ x ∈ xs, (sequence (entries x)).HasJump m around := by
  simp only [hasJump_sequence, List.mem_flatMap]
  tauto

@[simp] theorem hasJump_ifElse (condition thenBody : Node) (elseBody : Option Node) :
    (ifElse condition thenBody elseBody).HasJump m around ↔
      condition.HasJump m around ∨ thenBody.HasJump m around ∨
        ∃ n ∈ elseBody, n.HasJump m around := by
  apply (hasJump_iff_of_not_isLoopJump (by nofun)).trans
  simp

@[simp] theorem hasJump_unlessElse (condition thenBody : Node) (elseBody : Option Node) :
    (unlessElse condition thenBody elseBody).HasJump m around ↔
      condition.HasJump m around ∨ thenBody.HasJump m around ∨
        ∃ n ∈ elseBody, n.HasJump m around := by
  apply (hasJump_iff_of_not_isLoopJump (by nofun)).trans
  simp

@[simp] theorem hasJump_caseWhen (subject : Node) (clauses : List (List Node × Node))
    (elseBody : Option Node) :
    (caseWhen subject clauses elseBody).HasJump m around ↔
      subject.HasJump m around ∨
        (∃ clause ∈ clauses, (∃ n ∈ clause.1, n.HasJump m around) ∨
          ∃ inner, clause.2.HasJump m inner ∧ around = inner ++ [.clauseBody]) ∨
        ∃ n ∈ elseBody, ∃ inner, n.HasJump m inner ∧ around = inner ++ [.clauseBody] := by
  apply (hasJump_iff_of_not_isLoopJump (by nofun)).trans
  simp only [parts, placed, List.map_cons, List.map_append, List.map_flatMap, List.map_map,
    List.exists_mem_cons_iff, List.mem_append, or_and_right, exists_or, exists_mem_flatMap,
    List.mem_map, Option.mem_toList]
  simp

@[simp] theorem hasJump_loop (kind : LoopKind) (condition body : Node) :
    (loop kind condition body).HasJump m around ↔
      condition.HasJump m around ∨
        ∃ inner, body.HasJump m inner ∧ around = inner ++ [.loopBody] := by
  apply (hasJump_iff_of_not_isLoopJump (by nofun)).trans
  simp

@[simp] theorem hasJump_breakLoop : breakLoop.HasJump m around ↔ m = breakLoop ∧ around = [] := by
  rw [hasJump_iff]
  simp [IsLoopJump.breakLoop]

@[simp] theorem hasJump_next (value : Option Node) :
    (next value).HasJump m around ↔
      m = next value ∧ around = [] ∨ ∃ n ∈ value, n.HasJump m around := by
  rw [hasJump_iff]
  simp [IsLoopJump.next]

@[simp] theorem hasJump_ret (value : Option Node) :
    (ret value).HasJump m around ↔ ∃ n ∈ value, n.HasJump m around := by
  apply (hasJump_iff_of_not_isLoopJump (by nofun)).trans
  simp

@[simp] theorem hasJump_group (items : List Node) :
    (group items).HasJump m around ↔ ∃ n ∈ items, n.HasJump m around := by
  apply (hasJump_iff_of_not_isLoopJump (by nofun)).trans
  simp

@[simp] theorem hasJump_array (items : List Node) :
    (array items).HasJump m around ↔ ∃ n ∈ items, n.HasJump m around := by
  apply (hasJump_iff_of_not_isLoopJump (by nofun)).trans
  simp

@[simp] theorem hasJump_assign (target value : Node) :
    (assign target value).HasJump m around ↔
      target.HasJump m around ∨ value.HasJump m around := by
  apply (hasJump_iff_of_not_isLoopJump (by nofun)).trans
  simp

@[simp] theorem hasJump_unary (op : UnaryOp) (operand : Node) :
    (unary op operand).HasJump m around ↔ operand.HasJump m around := by
  apply (hasJump_iff_of_not_isLoopJump (by nofun)).trans
  simp

@[simp] theorem hasJump_binary (op : BinaryOp) (lhs rhs : Node) :
    (binary op lhs rhs).HasJump m around ↔ lhs.HasJump m around ∨ rhs.HasJump m around := by
  apply (hasJump_iff_of_not_isLoopJump (by nofun)).trans
  simp

@[simp] theorem hasJump_ternary (condition thenValue elseValue : Node) :
    (ternary condition thenValue elseValue).HasJump m around ↔
      condition.HasJump m around ∨ thenValue.HasJump m around ∨ elseValue.HasJump m around := by
  apply (hasJump_iff_of_not_isLoopJump (by nofun)).trans
  simp

theorem hasJump_call {receiver : Option Node} {name : String} {args : List Node}
    {attached : Option Node} {parens : Bool}
    (h : ¬ IsLoopJump (call receiver name args attached parens)) :
    (call receiver name args attached parens).HasJump m around ↔
      (∃ n ∈ receiver, n.HasJump m around) ∨ (∃ n ∈ args, n.HasJump m around) ∨
        ∃ n ∈ attached, n.HasJump m around := by
  rw [hasJump_iff_of_not_isLoopJump h]
  simp [or_and_right, exists_or]

@[simp] theorem hasJump_invoke (receiver : Option Node) (name : String) (args : List Node) :
    (invoke receiver name args).HasJump m around ↔
      (∃ n ∈ receiver, n.HasJump m around) ∨ ∃ n ∈ args, n.HasJump m around := by
  apply (hasJump_call (by nofun)).trans
  simp

@[simp] theorem hasJump_command_some (receiver : Node) (name : String) (args : List Node) :
    (command (some receiver) name args).HasJump m around ↔
      receiver.HasJump m around ∨ ∃ n ∈ args, n.HasJump m around := by
  apply (hasJump_call (by nofun)).trans
  simp

theorem hasJump_command_none {name : String} (h : name ≠ "raise") (args : List Node) :
    (command none name args).HasJump m around ↔ ∃ n ∈ args, n.HasJump m around := by
  have hjump : ¬ IsLoopJump (command none name args) := by
    rintro ⟨⟩
    exact h rfl
  apply (hasJump_call hjump).trans
  simp

@[simp] theorem hasJump_attached (receiver : Option Node) (name : String) (args : List Node)
    (attached : Node) (parens : Bool) :
    (call receiver name args (some attached) parens).HasJump m around ↔
      (∃ n ∈ receiver, n.HasJump m around) ∨ (∃ n ∈ args, n.HasJump m around) ∨
        attached.HasJump m around := by
  apply (hasJump_call (by nofun)).trans
  simp

@[simp] theorem hasJump_block (params : List String) (body : Node) :
    (block params body).HasJump m around ↔
      ∃ inner, body.HasJump m inner ∧ around = inner ++ [.blockLiteral] := by
  apply (hasJump_iff_of_not_isLoopJump (by nofun)).trans
  simp

@[simp] theorem hasJump_const (scope : Option Node) (name : String) :
    (const scope name).HasJump m around ↔ ∃ n ∈ scope, n.HasJump m around := by
  apply (hasJump_iff_of_not_isLoopJump (by nofun)).trans
  simp

@[simp] theorem not_hasJump_var (name : String) : ¬ (var name).HasJump m around := by
  apply (hasJump_iff_of_not_isLoopJump (by nofun)).not.mpr
  simp

@[simp] theorem not_hasJump_self : ¬ self.HasJump m around := by
  apply (hasJump_iff_of_not_isLoopJump (by nofun)).not.mpr
  simp

@[simp] theorem not_hasJump_literal (value : Literal) : ¬ (literal value).HasJump m around := by
  apply (hasJump_iff_of_not_isLoopJump (by nofun)).not.mpr
  simp

@[simp] theorem not_hasJump_constant (name : String) : ¬ (constant name).HasJump m around := by
  simp [constant]

@[simp] theorem not_hasJump_string (text : String) : ¬ (string text).HasJump m around := by
  simp [string]

@[simp] theorem not_hasJump_symbol (name : String) : ¬ (symbol name).HasJump m around := by
  simp [symbol]

@[simp] theorem hasJump_statements (nodes : List Node) :
    (statements nodes).HasJump m around ↔ ∃ n ∈ nodes, n.HasJump m around := by
  simp [statements]

@[simp] theorem hasJump_raiseBreak :
    raiseBreak.HasJump m around ↔ m = raiseBreak ∧ around = [] := by
  have hparts : raiseBreak.parts = [(none, constant "Break")] := rfl
  rw [hasJump_iff, hparts]
  simp [IsLoopJump.raiseBreak]

@[simp] theorem hasJump_hash (entries : List (Node × Node)) :
    (hash entries).HasJump m around ↔
      ∃ entry ∈ entries, entry.1.HasJump m around ∨ entry.2.HasJump m around := by
  apply (hasJump_iff_of_not_isLoopJump (by nofun)).trans
  simp only [parts, placed, List.map_flatMap, exists_mem_flatMap]
  simp

end Node

end YcpToRuby.Ruby
