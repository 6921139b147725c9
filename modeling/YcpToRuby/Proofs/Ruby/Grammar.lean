import Mathlib.Tactic.MkIffOfInductiveProp
import YcpToRuby.Ruby.Node

/-!
# The grammar of trees

Statements and expressions share one type, so the type lets any node stand anywhere. The layout of a
tree is Ruby only if statements stand among statements and values among values. Each part of a node
stands at a place; a tree keeps to the grammar if every node in it may stand where it does.
-/

set_option autoImplicit false

namespace YcpToRuby.Ruby

inductive Place where
  | root
  | entry
  | body
  | loopBody
  | elseOfIf
  | attached
  | value
  deriving DecidableEq, Repr

namespace Node

def placed : Node → List (Place × Node)
  | program body | moduleDef _ body | methodDef _ _ body | beginEnd body | block _ body =>
    [(.body, body)]
  | classDef _ superclass body => superclass.toList.map (Prod.mk .value) ++ [(.body, body)]
  | sequence entries => (entries.filterMap id).map (Prod.mk .entry)
  | ifElse condition thenBody elseBody =>
    (.value, condition) :: (.body, thenBody) :: elseBody.toList.map (Prod.mk .elseOfIf)
  | unlessElse condition thenBody elseBody =>
    (.value, condition) :: (.body, thenBody) :: elseBody.toList.map (Prod.mk .body)
  | caseWhen subject clauses elseBody =>
    (.value, subject) ::
      (clauses.flatMap (fun clause => clause.1.map (Prod.mk .value) ++ [(.body, clause.2)]) ++
      elseBody.toList.map (Prod.mk .body))
  | loop _ condition body => [(.value, condition), (.loopBody, body)]
  | breakLoop | var _ | self | literal _ => []
  | next value | ret value => value.toList.map (Prod.mk .value)
  | group items | array items => items.map (Prod.mk .value)
  | assign target value => [(.value, target), (.value, value)]
  | unary _ operand => [(.value, operand)]
  | binary _ lhs rhs => [(.value, lhs), (.value, rhs)]
  | ternary condition thenValue elseValue =>
    [(.value, condition), (.value, thenValue), (.value, elseValue)]
  | call receiver _ args attached _ =>
    (receiver.toList ++ args).map (Prod.mk .value) ++ attached.toList.map (Prod.mk .attached)
  | const scope _ => scope.toList.map (Prod.mk .value)
  | hash entries => entries.flatMap fun entry => [(.value, entry.1), (.value, entry.2)]

def isJumpKeyword : Node → Bool
  | breakLoop | next _ | ret _ => true
  | _ => false

def isSequence : Node → Bool
  | sequence _ => true
  | _ => false

def isConditional : Node → Bool
  | ifElse .. | unlessElse .. => true
  | _ => false

end Node

@[mk_iff] inductive AssignableIn (own : Option String) : Node → Prop
  | var (name : String) : AssignableIn own (.var name)
  | accessor (receiver : Node) (name : String) : AssignableIn own (.command (some receiver) name [])
  | constant {name : String} (h : own = some name) : AssignableIn own (.constant name)

/-- The rules of the grammar for one node at its place, in a file that defines the constant
`own`. -/
@[mk_iff] structure WellPlaced (own : Option String) (place : Place) (m : Node) : Prop where
  program : ∀ body, m = .program body → place = .root
  sequence : ∀ entries, m = .sequence entries → place ≠ .entry
  block : ∀ params body, m = .block params body → place = .attached
  beginEnd : ∀ body, m = .beginEnd body → place = .loopBody
  statement : m.isStatement ∨ m.isJumpKeyword → place = .root ∨ place = .entry ∨ place = .body ∨
    place = .loopBody ∨ place = .elseOfIf ∧ (m.isSequence ∨ m.isConditional)
  body : place = .body → m.isSequence
  loopBody : place = .loopBody → m.isSequence ∨ ∃ body, m = .beginEnd body
  assign : ∀ target value, m = .assign target value → AssignableIn own target
  group : ∀ items, m = .group items → 3 ≤ items.length

inductive Stands (r : Node) : Place → Node → Prop
  | root : Stands r .root r
  | part {around place : Place} {n m : Node} (h : Stands r around n)
      (hpart : (place, m) ∈ n.placed) : Stands r place m

inductive Fits (own : Option String) : Place → Node → Prop
  | mk {place : Place} {m : Node} (here : WellPlaced own place m)
      (parts : ∀ part ∈ m.placed, Fits own part.1 part.2) : Fits own place m

theorem fits_iff {own : Option String} {place : Place} {m : Node} :
    Fits own place m ↔
      WellPlaced own place m ∧ ∀ part ∈ m.placed, Fits own part.1 part.2 := by
  constructor
  · rintro ⟨here, parts⟩
    exact ⟨here, parts⟩
  · rintro ⟨here, parts⟩
    exact ⟨here, parts⟩

theorem Fits.of_stands {own : Option String} {r m : Node} {place : Place} (hr : Fits own .root r)
    (hm : Stands r place m) : Fits own place m := by
  induction hm with
  | root => exact hr
  | part h hpart ih => exact (fits_iff.mp ih).2 _ hpart

namespace Node

variable {own : Option String}

attribute [local simp] wellPlaced_iff placed isStatement isJumpKeyword

/-! ## Values -/

@[simp] theorem fits_group (items : List Node) :
    Fits own .value (group items) ↔ 3 ≤ items.length ∧ ∀ n ∈ items, Fits own .value n := by
  rw [fits_iff]
  simp

@[simp] theorem fits_assign (target value : Node) :
    Fits own .value (assign target value) ↔
      AssignableIn own target ∧ Fits own .value target ∧ Fits own .value value := by
  rw [fits_iff]
  simp

@[simp] theorem fits_unary (op : UnaryOp) (operand : Node) :
    Fits own .value (unary op operand) ↔ Fits own .value operand := by
  rw [fits_iff]
  simp

@[simp] theorem fits_binary (op : BinaryOp) (lhs rhs : Node) :
    Fits own .value (binary op lhs rhs) ↔ Fits own .value lhs ∧ Fits own .value rhs := by
  rw [fits_iff]
  simp

@[simp] theorem fits_ternary (condition thenValue elseValue : Node) :
    Fits own .value (ternary condition thenValue elseValue) ↔
      Fits own .value condition ∧ Fits own .value thenValue ∧ Fits own .value elseValue := by
  rw [fits_iff]
  simp

@[simp] theorem fits_call (receiver : Option Node) (name : String) (args : List Node)
    (attached : Option Node) (parens : Bool) :
    Fits own .value (call receiver name args attached parens) ↔
      (∀ n ∈ receiver, Fits own .value n) ∧ (∀ n ∈ args, Fits own .value n) ∧
        ∀ n ∈ attached, Fits own .attached n := by
  rw [fits_iff]
  simp [or_imp, forall_and]

@[simp] theorem fits_invoke (receiver : Option Node) (name : String) (args : List Node) :
    Fits own .value (invoke receiver name args) ↔
      (∀ n ∈ receiver, Fits own .value n) ∧ ∀ n ∈ args, Fits own .value n := by
  simp [invoke]

@[simp] theorem fits_command (receiver : Option Node) (name : String) (args : List Node) :
    Fits own .value (command receiver name args) ↔
      (∀ n ∈ receiver, Fits own .value n) ∧ ∀ n ∈ args, Fits own .value n := by
  simp [command]

@[simp] theorem fits_const (scope : Option Node) (name : String) :
    Fits own .value (const scope name) ↔ ∀ n ∈ scope, Fits own .value n := by
  rw [fits_iff]
  simp

@[simp] theorem fits_constant (name : String) : Fits own .value (constant name) := by
  simp [constant]

@[simp] theorem fits_var (name : String) : Fits own .value (var name) := by
  rw [fits_iff]
  simp

@[simp] theorem fits_self : Fits own .value self := by
  rw [fits_iff]
  simp

@[simp] theorem fits_literal (value : Literal) : Fits own .value (literal value) := by
  rw [fits_iff]
  simp

@[simp] theorem fits_symbol (name : String) : Fits own .value (symbol name) :=
  fits_literal _

@[simp] theorem fits_string (text : String) : Fits own .value (string text) :=
  fits_literal _

@[simp] theorem fits_array (items : List Node) :
    Fits own .value (array items) ↔ ∀ n ∈ items, Fits own .value n := by
  rw [fits_iff]
  simp

@[simp] theorem fits_hash (entries : List (Node × Node)) :
    Fits own .value (hash entries) ↔
      ∀ entry ∈ entries, Fits own .value entry.1 ∧ Fits own .value entry.2 := by
  rw [fits_iff, placed, List.forall_mem_flatMap]
  simp

/-! ## Bodies -/

def FitEntries (own : Option String) (entries : List (Option Node)) : Prop :=
  ∀ n, some n ∈ entries → Fits own .entry n

@[simp] theorem fitEntries_append {entries others : List (Option Node)} :
    FitEntries own (entries ++ others) ↔ FitEntries own entries ∧ FitEntries own others := by
  simp [FitEntries, or_imp, forall_and]

@[simp] theorem fitEntries_singleton {n : Node} :
    FitEntries own [some n] ↔ Fits own .entry n := by
  simp [FitEntries]

@[simp] theorem fitEntries_map_some {nodes : List Node} :
    FitEntries own (nodes.map some) ↔ ∀ n ∈ nodes, Fits own .entry n := by
  simp [FitEntries]

theorem fits_sequence {entries : List (Option Node)} {place : Place}
    (hplace : place = .root ∨ place = .body ∨ place = .loopBody ∨ place = .elseOfIf) :
    Fits own place (sequence entries) ↔ FitEntries own entries := by
  rw [fits_iff]
  rcases hplace with rfl | rfl | rfl | rfl <;>
    simp [isSequence, FitEntries]

@[simp] theorem fits_statements {nodes : List Node} :
    Fits own .body (statements nodes) ↔ ∀ n ∈ nodes, Fits own .entry n := by
  rw [statements, fits_sequence (by simp), fitEntries_map_some]

@[simp] theorem fits_block {params : List String} {body : Node} :
    Fits own .attached (block params body) ↔ Fits own .body body := by
  rw [fits_iff]
  simp

/-! ## Statements -/

@[simp] theorem fits_program {body : Node} :
    Fits own .root (program body) ↔ Fits own .body body := by
  rw [fits_iff]
  simp

@[simp] theorem fits_classDef {name : String} {superclass : Option Node} {body : Node} :
    Fits own .entry (classDef name superclass body) ↔
      (∀ n ∈ superclass, Fits own .value n) ∧ Fits own .body body := by
  rw [fits_iff]
  simp [or_imp, forall_and]

@[simp] theorem fits_moduleDef {name : String} {body : Node} :
    Fits own .entry (moduleDef name body) ↔ Fits own .body body := by
  rw [fits_iff]
  simp

@[simp] theorem fits_methodDef {name : String} {params : List String} {body : Node} :
    Fits own .entry (methodDef name params body) ↔ Fits own .body body := by
  rw [fits_iff]
  simp

@[simp] theorem fits_ifElse {condition thenBody : Node} {elseBody : Option Node} :
    Fits own .entry (ifElse condition thenBody elseBody) ↔
      Fits own .value condition ∧ Fits own .body thenBody ∧
        ∀ n ∈ elseBody, Fits own .elseOfIf n := by
  rw [fits_iff]
  simp

@[simp] theorem fits_unlessElse {condition thenBody : Node} {elseBody : Option Node} :
    Fits own .entry (unlessElse condition thenBody elseBody) ↔
      Fits own .value condition ∧ Fits own .body thenBody ∧ ∀ n ∈ elseBody, Fits own .body n := by
  rw [fits_iff]
  simp

@[simp] theorem fits_caseWhen {subject : Node} {clauses : List (List Node × Node)}
    {elseBody : Option Node} :
    Fits own .entry (caseWhen subject clauses elseBody) ↔
      Fits own .value subject ∧
        (∀ clause ∈ clauses, (∀ n ∈ clause.1, Fits own .value n) ∧ Fits own .body clause.2) ∧
        ∀ n ∈ elseBody, Fits own .body n := by
  rw [fits_iff, placed, List.forall_mem_cons, List.forall_mem_append, List.forall_mem_flatMap]
  simp [or_imp, forall_and]

@[simp] theorem fits_loop {kind : LoopKind} {condition body : Node} :
    Fits own .entry (loop kind condition body) ↔
      Fits own .value condition ∧ Fits own .loopBody body := by
  rw [fits_iff]
  simp

@[simp] theorem fits_beginEnd {body : Node} :
    Fits own .loopBody (beginEnd body) ↔ Fits own .body body := by
  rw [fits_iff]
  simp

@[simp] theorem fits_breakLoop : Fits own .entry breakLoop := by
  rw [fits_iff]
  simp

@[simp] theorem fits_next {value : Option Node} :
    Fits own .entry (next value) ↔ ∀ n ∈ value, Fits own .value n := by
  rw [fits_iff]
  simp

@[simp] theorem fits_ret {value : Option Node} :
    Fits own .entry (ret value) ↔ ∀ n ∈ value, Fits own .value n := by
  rw [fits_iff]
  simp

end Node

/-! ## Other places -/

namespace Fits

variable {own : Option String} {n : Node}

/-- A value can be a statement. -/
theorem entry (h : Fits own .value n) : Fits own .entry n := by
  obtain ⟨here, parts⟩ := fits_iff.mp h
  refine ⟨?_, parts⟩
  cases n <;> simp_all [wellPlaced_iff, Node.isStatement, Node.isJumpKeyword]

/-- A statement can be a whole tree. -/
theorem root (h : Fits own .entry n) : Fits own .root n := by
  obtain ⟨here, parts⟩ := fits_iff.mp h
  refine ⟨?_, parts⟩
  cases n <;> simp_all [wellPlaced_iff, Node.isStatement, Node.isJumpKeyword]

/-- A conditional can stand bare behind an `else`. -/
theorem elseOfIf (h : Fits own .entry n) (hn : n.isConditional) : Fits own .elseOfIf n := by
  obtain ⟨here, parts⟩ := fits_iff.mp h
  refine ⟨?_, parts⟩
  cases n <;> simp_all [wellPlaced_iff, Node.isStatement, Node.isJumpKeyword, Node.isConditional]

end Fits

end YcpToRuby.Ruby
