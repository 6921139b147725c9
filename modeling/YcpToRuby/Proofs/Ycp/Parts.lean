import YcpToRuby.Scope.Context

/-!
# Parts of a program and where they occur

Every node lists its direct parts, each with the position in which it stands. A node occurs in
another at a path of positions, the innermost one first. What is said about all nodes of a program
is said about all occurrences, and proved along the parts.
-/

set_option autoImplicit false

namespace YcpToRuby.Ycp

open Scope (Clause Frame)

inductive Capture where
  | loop
  | closure
  | clause (clause : Clause)

inductive Position where
  | value
  | argument
  | closureValue (params : List Symbol)
  | branch
  | loopBody (kind : LoopKind)
  | blockBody (info : BlockInfo)
  | clauseBody (clause : Clause) (info : BlockInfo)
  | clauseEnd (clause : Clause) (info : BlockInfo)
  | functionBody (name : String) (params : List Symbol) (info : BlockInfo)

namespace Position

def isValue : Position → Bool
  | value | argument | closureValue _ => true
  | _ => false

def frames : Position → List Frame
  | value | argument | branch => []
  | closureValue params => [.returnExpr params]
  | loopBody kind => [.loop kind]
  | blockBody info => [.block info]
  | clauseBody clause info | clauseEnd clause info => [.clause clause, .block info]
  | functionBody name params info => [.function name params info]

def capture? : Position → Option Capture
  | loopBody _ => some .loop
  | blockBody info => if info.kind = .unspec then some .closure else none
  | clauseBody clause _ | clauseEnd clause _ => some (.clause clause)
  | _ => none

end Position

def Block.parts (block : Block) : List (Position × Node) :=
  block.statements.map (Prod.mk (.blockBody block.info))

def Closure.parts : Closure → List (Position × Node)
  | block body => body.parts
  | value params result => [(.closureValue params, result)]

def clauseParts (clause : Clause) (block : Block) : List (Position × Node) :=
  block.statements.dropLast.map (Prod.mk (.clauseBody clause block.info)) ++
    block.statements.getLast?.toList.map (Prod.mk (.clauseEnd clause block.info))

def caseParts (c : Node × Block) : List (Position × Node) :=
  (.value, c.1) :: clauseParts (.case c.1.describe) c.2

namespace Node

def isValue : Node → Bool
  | const .. | locale _ | list _ | map _ | var _ | assign .. | bracket .. | index .. | call ..
  | builtin .. | compare .. | binary .. | unary .. | ternary .. | isType .. | propagate ..
  | reference _ | returnExpr .. | term .. => true
  | block body => body.info.kind = .unspec
  | _ => false

def parts : Node → List (Position × Node)
  | const .. | locale _ | var _ | reference _ | breakLoop | continueLoop | importModule _
  | includeFile .. | textdomain _ | typedef | filename _ => []
  | list elements => elements.map (Prod.mk .value)
  | map entries => entries.flatMap fun entry => [(.value, entry.1), (.value, entry.2)]
  | assign _ value => [(.value, value)]
  | bracket _ key value => [(.value, key), (.value, value)]
  | index value key fallback => [(.value, value), (.value, key), (.value, fallback)]
  | call _ _ _ args => args.map (Prod.mk .argument)
  | builtin _ args closure => args.map (Prod.mk .value) ++ closure.toList.flatMap Closure.parts
  | compare _ lhs rhs | binary _ lhs rhs => [(.value, lhs), (.value, rhs)]
  | unary _ operand | isType _ operand | propagate _ _ operand => [(.value, operand)]
  | ternary condition thenValue elseValue =>
    [(.value, condition), (.value, thenValue), (.value, elseValue)]
  | returnExpr params value => [(.closureValue params, value)]
  | term _ args => args.map (Prod.mk .value)
  | block body => body.parts
  | ifElse condition thenBody elseBody =>
    (.value, condition) :: (thenBody.toList ++ elseBody.toList).map (Prod.mk .branch)
  | loop kind condition body => [(.value, condition), (.loopBody kind, body)]
  | ret value => value.toList.map (Prod.mk .value)
  | switch condition cases default =>
    (.value, condition) ::
      (cases.flatMap caseParts ++ default.toList.flatMap (clauseParts .default))
  | funDef name params body =>
    body.statements.map (Prod.mk (.functionBody name params body.info))

end Node

/-! ## Parts are smaller -/

theorem sizeOf_lt_of_mem_statements {s : Node} {block : Block} (h : s ∈ block.statements) :
    sizeOf s < sizeOf block := by
  obtain ⟨info, body⟩ := block
  have hlt := List.sizeOf_lt_of_mem h
  simp only [Block.statements, Block.mk.sizeOf_spec] at hlt ⊢
  omega

theorem mem_statements_of_mem_parts {block : Block} {part : Position × Node}
    (h : part ∈ block.parts) : part.2 ∈ block.statements := by
  obtain ⟨s, hs, rfl⟩ := List.mem_map.mp h
  exact hs

theorem mem_statements_of_mem_clauseParts {clause : Clause} {block : Block}
    {part : Position × Node} (h : part ∈ clauseParts clause block) :
    part.2 ∈ block.statements := by
  simp only [clauseParts, List.mem_append, List.mem_map, Option.mem_toList] at h
  rcases h with ⟨s, hs, rfl⟩ | ⟨s, hs, rfl⟩
  · exact List.dropLast_subset _ hs
  · exact List.mem_of_getLast? hs

theorem exists_mem_clauseParts (clause : Clause) {block : Block} {s : Node}
    (h : s ∈ block.statements) : ∃ pos, (pos, s) ∈ clauseParts clause block := by
  rcases List.eq_nil_or_concat block.statements with hnil | ⟨init, last, hconcat⟩
  · simp [hnil] at h
  · rw [List.concat_eq_append] at hconcat
    simp only [hconcat, List.mem_append, List.mem_singleton] at h
    rcases h with h | rfl
    · exact ⟨.clauseBody clause block.info, by simp [clauseParts, hconcat, h]⟩
    · exact ⟨.clauseEnd clause block.info, by simp [clauseParts, hconcat]⟩

/-- What holds of the parts of a clause holds of its statements. -/
theorem forall_statements_of_clauseParts {p : Node → Prop} {clause : Clause} {block : Block}
    (h : ∀ part ∈ clauseParts clause block, p part.2) : ∀ s ∈ block.statements, p s := by
  intro s hs
  obtain ⟨pos, hpos⟩ := exists_mem_clauseParts clause hs
  exact h _ hpos

theorem Closure.sizeOf_part_lt {closure : Closure} {part : Position × Node}
    (h : part ∈ closure.parts) : sizeOf part.2 < sizeOf closure := by
  cases closure with
  | block block =>
    have := sizeOf_lt_of_mem_statements (mem_statements_of_mem_parts h)
    simp only [Closure.block.sizeOf_spec]
    omega
  | value params result =>
    obtain rfl := List.mem_singleton.mp h
    simp only [Closure.value.sizeOf_spec]
    omega

theorem sizeOf_lt_of_mem_option {α : Type} [SizeOf α] {a : α} {o : Option α} (h : o = some a) :
    sizeOf a < sizeOf o := by
  subst h
  simp only [Option.some.sizeOf_spec]
  omega

theorem Node.sizeOf_part_lt {n : Node} {part : Position × Node} (h : part ∈ n.parts) :
    sizeOf part.2 < sizeOf n := by
  cases n <;> simp only [parts, List.not_mem_nil] at h
  case list | call | term =>
    obtain ⟨e, he, rfl⟩ := List.mem_map.mp h
    have := List.sizeOf_lt_of_mem he
    simp
    omega
  case map entries =>
    obtain ⟨entry, hentry, h⟩ := List.mem_flatMap.mp h
    have := List.sizeOf_lt_of_mem hentry
    have : sizeOf entry = 1 + sizeOf entry.1 + sizeOf entry.2 := rfl
    simp only [List.mem_cons, List.not_mem_nil, or_false] at h
    rcases h with rfl | rfl <;> simp <;> omega
  case assign | bracket | index | compare | binary | unary | ternary | isType | propagate
      | returnExpr | loop =>
    simp only [List.mem_cons, List.not_mem_nil, or_false] at h
    rcases h with rfl | rfl | rfl <;> simp <;> omega
  case builtin name args closure =>
    simp only [List.mem_append, List.mem_map, List.mem_flatMap, Option.mem_toList] at h
    rcases h with ⟨e, he, rfl⟩ | ⟨c, hc, h⟩
    · have := List.sizeOf_lt_of_mem he
      simp
      omega
    · have := sizeOf_lt_of_mem_option hc
      have := Closure.sizeOf_part_lt h
      simp
      omega
  case block block =>
    have := sizeOf_lt_of_mem_statements (mem_statements_of_mem_parts h)
    simp
    omega
  case ifElse condition thenBody elseBody =>
    simp only [List.mem_cons, List.mem_map, List.mem_append, Option.mem_toList] at h
    rcases h with rfl | ⟨s, hs | hs, rfl⟩
    · simp
      omega
    all_goals
      have := sizeOf_lt_of_mem_option hs
      simp
      omega
  case ret value =>
    obtain ⟨e, he, rfl⟩ := List.mem_map.mp h
    have := sizeOf_lt_of_mem_option (Option.mem_toList.mp he)
    simp
    omega
  case switch condition cases default =>
    simp only [List.mem_cons, List.mem_append, List.mem_flatMap, Option.mem_toList] at h
    rcases h with rfl | ⟨c, hc, h⟩ | ⟨block, hblock, h⟩
    · simp
      omega
    · have := List.sizeOf_lt_of_mem hc
      have : sizeOf c = 1 + sizeOf c.1 + sizeOf c.2 := rfl
      rcases List.mem_cons.mp h with rfl | h
      · simp
        omega
      · have := sizeOf_lt_of_mem_statements (mem_statements_of_mem_clauseParts h)
        simp
        omega
    · have := sizeOf_lt_of_mem_option hblock
      have := sizeOf_lt_of_mem_statements (mem_statements_of_mem_clauseParts h)
      simp
      omega
  case funDef name params body =>
    obtain ⟨s, hs, rfl⟩ := List.mem_map.mp h
    have := sizeOf_lt_of_mem_statements hs
    simp
    omega

/-- Induction along the parts of a node. -/
@[elab_as_elim]
theorem Node.induction_parts {motive : Node → Prop}
    (step : ∀ n : Node, (∀ part ∈ n.parts, motive part.2) → motive n) (n : Node) : motive n :=
  step n fun part _ => induction_parts step part.2
termination_by sizeOf n
decreasing_by exact Node.sizeOf_part_lt ‹_›

/-! ## Occurrences -/

inductive Occurs (m : Node) : List Position → Node → Prop
  | here : Occurs m [] m
  | inside {n : Node} {part : Position × Node} {path : List Position} (hpart : part ∈ n.parts)
      (h : Occurs m path part.2) : Occurs m (path ++ [part.1]) n

variable {m n : Node} {path : List Position}

theorem occurs_iff :
    Occurs m path n ↔ m = n ∧ path = [] ∨
      ∃ part ∈ n.parts, ∃ inner, Occurs m inner part.2 ∧ path = inner ++ [part.1] := by
  constructor
  · intro h
    cases h with
    | here => exact Or.inl ⟨rfl, rfl⟩
    | inside hpart h => exact Or.inr ⟨_, hpart, _, h, rfl⟩
  · rintro (⟨rfl, rfl⟩ | ⟨part, hpart, inner, h, rfl⟩)
    · exact .here
    · exact .inside hpart h

theorem occurs_nil : Occurs m [] n ↔ m = n := by
  rw [occurs_iff]
  simp

/-- What holds of all that occurs in a node holds of the node and of all that occurs in its
parts. -/
theorem forall_occurs_iff {p : Node → Prop} :
    (∀ m path, Occurs m path n → p m) ↔
      p n ∧ ∀ part ∈ n.parts, ∀ m path, Occurs m path part.2 → p m := by
  constructor
  · intro h
    exact ⟨h n [] .here, fun part hpart m path hm => h m _ (.inside hpart hm)⟩
  · intro h m path hm
    cases hm with
    | here => exact h.1
    | inside hpart hm => exact h.2 _ hpart m _ hm

/-- Every occurrence below the root is a part of another one. -/
theorem Occurs.exists_parent {pos : Position} (h : Occurs m (pos :: path) n) :
    ∃ parent, Occurs parent path n ∧ (pos, m) ∈ parent.parts := by
  generalize hwhole : pos :: path = whole at h
  induction h generalizing path with
  | here => cases hwhole
  | @inside n part inner hpart h ih =>
    cases inner with
    | nil =>
      obtain rfl := occurs_nil.mp h
      obtain ⟨rfl, rfl⟩ : pos = part.1 ∧ path = [] := by simpa using hwhole
      exact ⟨n, .here, hpart⟩
    | cons first rest =>
      obtain ⟨rfl, rfl⟩ : pos = first ∧ path = rest ++ [part.1] := by simpa using hwhole
      obtain ⟨parent, hparent, hm⟩ := ih rfl
      exact ⟨parent, .inside hpart hparent, hm⟩

end YcpToRuby.Ycp
