import YcpToRuby.Proofs.Generate.Faults
import YcpToRuby.Proofs.Ruby.Enclosure

/-!
# The jumps of values

The jumps of a generated tree are compared with the jumps of the parts of the node it is generated
for. A value is never a jump itself: it assembles what its parts become, and only closures enclose
them.
-/

set_option autoImplicit false

namespace YcpToRuby.Generate

open Scope (Context)
open Ruby (Enclosure IsLoopJump exists_mem_flatMap not_isLoopJump_attached not_isLoopJump_invoke)
open Ycp (Block Closure Node Position Variable)

/-! ## Jumps of parts -/

def enclosure? : Position → Option Enclosure
  | .closureValue _ => some .blockLiteral
  | .loopBody _ => some .loopBody
  | .blockBody info => if info.kind = .unspec then some .blockLiteral else none
  | .clauseBody .. | .clauseEnd .. => some .clauseBody
  | _ => none

def MadeJump (x : Generated (Option Ruby.Node)) (m : Ruby.Node) (around : List Enclosure) : Prop :=
  ∃ r, x = .ok (some r) ∧ r.HasJump m around

def PartJump (settings : Settings) (path : List Position) (parts : List (Position × Node))
    (m : Ruby.Node) (around : List Enclosure) : Prop :=
  ∃ part ∈ parts, ∃ inner, MadeJump (made settings (part.1 :: path) part.2) m inner ∧
    around = inner ++ (enclosure? part.1).toList

variable {settings : Settings} {path : List Position} {m : Ruby.Node} {around : List Enclosure}

@[simp] theorem partJump_nil : ¬ PartJump settings path [] m around := by
  simp [PartJump]

@[simp] theorem partJump_cons {part : Position × Node} {parts : List (Position × Node)} :
    PartJump settings path (part :: parts) m around ↔
      (∃ inner, MadeJump (made settings (part.1 :: path) part.2) m inner ∧
        around = inner ++ (enclosure? part.1).toList) ∨
      PartJump settings path parts m around := by
  simp [PartJump]

@[simp] theorem partJump_append {parts others : List (Position × Node)} :
    PartJump settings path (parts ++ others) m around ↔
      PartJump settings path parts m around ∨ PartJump settings path others m around := by
  simp [PartJump, or_and_right, exists_or]

@[simp] theorem partJump_map {pos : Position} {nodes : List Node} :
    PartJump settings path (nodes.map (Prod.mk pos)) m around ↔
      ∃ inner, (∃ n ∈ nodes, MadeJump (made settings (pos :: path) n) m inner) ∧
        around = inner ++ (enclosure? pos).toList := by
  simp only [PartJump, List.mem_map, exists_exists_and_eq_and]
  tauto

@[simp] theorem partJump_flatMap {α : Type} {xs : List α} {parts : α → List (Position × Node)} :
    PartJump settings path (xs.flatMap parts) m around ↔
      ∃ x ∈ xs, PartJump settings path (parts x) m around :=
  exists_mem_flatMap

@[simp] theorem madeJump_ok_some (r : Ruby.Node) :
    MadeJump (.ok (some r)) m around ↔ r.HasJump m around := by
  simp [MadeJump]

@[simp] theorem not_madeJump_ok_none : ¬ MadeJump (.ok none) m around := by
  simp [MadeJump]

@[simp] theorem madeJump_map_some (x : Generated Ruby.Node) :
    MadeJump (some <$> x) m around ↔ ∃ r, x = .ok r ∧ r.HasJump m around := by
  simp [MadeJump]

/-! ## Names and constants hold no jump -/

@[simp] theorem not_hasJump_nameNode (ctx : Context) (name : Ycp.QualifiedName) :
    ¬ (nameNode ctx name).HasJump m around := by
  unfold nameNode
  split
  · split <;> simp
  · simp

@[simp] theorem not_hasJump_targetNode (ctx : Context) (name : Ycp.QualifiedName) :
    ¬ (targetNode ctx name).HasJump m around := by
  unfold targetNode
  split
  · split <;> simp
  · simp

theorem not_hasJump_of_referenceValue? {ctx : Context} {name : Ycp.QualifiedName}
    {n : Ruby.Node} (h : referenceValue? ctx name = some n) : ¬ n.HasJump m around := by
  unfold referenceValue? at h
  split at h
  · split at h <;> cases h
    simp [heldBy]
  · cases h

@[simp] theorem not_hasJump_valueNode (ctx : Context) (name : Ycp.QualifiedName) :
    ¬ (valueNode ctx name).HasJump m around := by
  unfold valueNode
  cases h : referenceValue? ctx name with
  | none => simp
  | some n => simpa using not_hasJump_of_referenceValue? h

@[simp] theorem not_hasJump_assignmentTarget (ctx : Context) (name : Ycp.QualifiedName) :
    ¬ (assignmentTarget ctx name).HasJump m around := by
  unfold assignmentTarget
  cases h : referenceValue? ctx name with
  | none => simp
  | some n => simpa using not_hasJump_of_referenceValue? h

theorem not_hasJump_of_variableNode {ctx : Context} {v : Variable} {r : Ruby.Node}
    (h : variableNode ctx v = .ok r) : ¬ r.HasJump m around := by
  unfold variableNode at h
  split at h
  · cases h
    simp
  · cases h
    simp [heldBy]
  · split at h <;> cases h
    unfold functionGetter
    split
    · split <;> simp
    · split <;> simp

theorem not_hasJump_of_constant {type : Ycp.ConstType} {value : Option String} {r : Ruby.Node}
    (h : constant type value = .ok r) : ¬ r.HasJump m around := by
  rcases constant_forms h with ⟨literal, rfl⟩ | ⟨text, rfl⟩ <;> simp

/-! ## Lists of parts -/

theorem hasJump_of_values {nodes : List Node} {vs : List Ruby.Node}
    (h : values (nodes.map reading) (contextAt settings path) = .ok vs) :
    (∃ v ∈ vs, v.HasJump m around) ↔
      PartJump settings path (nodes.map (Prod.mk .value)) m around := by
  rw [values, List.mapM_map] at h
  rw [exists_mem_of_mapM_eq_ok h]
  simp [enclosure?]

@[simp] theorem exists_mem_splice (result : Option Ruby.Node) :
    (∃ r, some r ∈ splice result ∧ r.HasJump m around) ↔ ∃ r ∈ result, r.HasJump m around := by
  unfold splice
  split
  · simp
  · simp [eq_comm]

theorem hasJump_of_statements {pos : Position} {nodes : List Node}
    {entries : List (Option Ruby.Node)} (hvalue : pos.isValue = false)
    (hend : .breakLoop ∈ nodes → ∀ clause info, pos ≠ .clauseEnd clause info)
    (h : statements (nodes.map reading) (contextAt settings (pos :: path)) = .ok entries) :
    (Ruby.Node.sequence entries).HasJump m around ↔
      ∃ n ∈ nodes, MadeJump (made settings (pos :: path) n) m around := by
  obtain ⟨results, hresults, rfl⟩ : ∃ results,
      nodes.mapM (fun n => (reading n).statement (contextAt settings (pos :: path))) =
        .ok results ∧ results.flatMap splice = entries := by
    simpa [statements, List.mapM_map, Function.comp_def] using h
  calc (Ruby.Node.sequence (results.flatMap splice)).HasJump m around
    _ ↔ ∃ result ∈ results, ∃ r ∈ result, r.HasJump m around := by
      rw [Ruby.Node.hasJump_sequence_flatMap]
      simp only [Ruby.Node.hasJump_sequence, exists_mem_splice]
    _ ↔ ∃ n ∈ nodes, MadeJump ((reading n).statement (contextAt settings (pos :: path))) m
        around := by
      rw [exists_mem_of_mapM_eq_ok hresults]
      refine exists_congr fun n => and_congr_right fun _ => ?_
      constructor
      · rintro ⟨_, hresult, r, rfl, hr⟩
        exact ⟨r, hresult, hr⟩
      · rintro ⟨r, hresult, hr⟩
        exact ⟨_, hresult, r, rfl, hr⟩
    _ ↔ ∃ n ∈ nodes, MadeJump (made settings (pos :: path) n) m around := by
      refine exists_congr fun n => and_congr_right fun hn => ?_
      rw [made_statement hvalue fun hbreak => hend (hbreak ▸ hn)]

/-! ## What each construct puts together -/

structure Assembles (settings : Settings) (path : List Position) (n : Node) (r : Ruby.Node) :
    Prop where
  not_isLoopJump : ¬ IsLoopJump r
  hasJump_iff (m : Ruby.Node) (around : List Enclosure) :
    r.HasJump m around ↔ PartJump settings path n.parts m around

theorem Assembles.of_leaf {n : Node} {r : Ruby.Node} (hparts : n.parts = [])
    (h : ∀ m around, ¬ r.HasJump m around) : Assembles settings path n r where
  not_isLoopJump hr := h r [] ⟨hr, .here⟩
  hasJump_iff m around := by simp [hparts, h]

variable {n : Node} {r : Ruby.Node}

theorem hasJump_of_value {e : Node} {v : Ruby.Node}
    (h : (reading e).value (contextAt settings path) = .ok v) :
    MadeJump (made settings (.value :: path) e) m around ↔ v.HasJump m around := by
  simp [h]

theorem hasJump_of_keyReading {index : Node} {v : Ruby.Node}
    (h : (keyReading index).value (contextAt settings path) = .ok v) :
    MadeJump (made settings (.value :: path) index) m around ↔ v.HasJump m around := by
  unfold keyReading at h
  split at h
  · simp [reading, readings, Reading.expression, values, h]
  · exact hasJump_of_value h

theorem not_isLoopJump_opsCall (name : String) (args : List Ruby.Node) :
    ¬ IsLoopJump (opsCall name args) := by
  rintro ⟨⟩

@[simp] theorem hasJump_opsCall (name : String) (args : List Ruby.Node) :
    (opsCall name args).HasJump m around ↔ ∃ n ∈ args, n.HasJump m around := by
  simp [opsCall, moduleCall]

@[simp] theorem hasJump_compareNode (op : Ycp.CompareOp) (lhs rhs : Ruby.Node) :
    (compareNode op lhs rhs).HasJump m around ↔ lhs.HasJump m around ∨ rhs.HasJump m around := by
  cases op <;> simp [compareNode]

@[simp] theorem hasJump_binaryNode (op : Ycp.BinaryOp) (lhs rhs : Ruby.Node) :
    (binaryNode op lhs rhs).HasJump m around ↔ lhs.HasJump m around ∨ rhs.HasJump m around := by
  cases op <;> simp [binaryNode]

@[simp] theorem hasJump_unaryNode (op : Ycp.UnaryOp) (operand : Ruby.Node) :
    (unaryNode op operand).HasJump m around ↔ operand.HasJump m around := by
  cases op <;> simp [unaryNode]

theorem hasJump_of_entries {entries : List (Node × Node)} {pairs : List (Ruby.Node × Ruby.Node)}
    (h : ((entryReadings entries).mapM fun entry => do
      return (← entry.1.value (contextAt settings path),
        ← entry.2.value (contextAt settings path))) = .ok pairs) :
    (∃ pair ∈ pairs, pair.1.HasJump m around ∨ pair.2.HasJump m around) ↔
      PartJump settings path
        (entries.flatMap fun entry => [(.value, entry.1), (.value, entry.2)]) m around := by
  rw [entryReadings_eq_map, List.mapM_map] at h
  rw [exists_mem_of_mapM_eq_ok h, partJump_flatMap]
  refine exists_congr fun entry => and_congr_right fun hentry => ?_
  obtain ⟨pair, hpair⟩ := exists_ok_of_mapM_eq_ok h entry hentry
  simp only [Function.comp_apply, bind_eq_ok, pure_eq_ok] at hpair
  obtain ⟨key, hkey, value, hvalue, rfl⟩ := hpair
  simp [hkey, hvalue, enclosure?]

/-! ### Calls -/

@[simp] theorem hasJump_callNode (ctx : Context) (target : Ycp.QualifiedName)
    (category : Ycp.CallCategory) (args : List Ruby.Node) :
    (callNode ctx target category args).HasJump m around ↔ ∃ n ∈ args, n.HasJump m around := by
  unfold callNode
  split
  · simp
  · split
    · split <;> simp
    · split <;> simp

theorem not_isLoopJump_callWith (ctx : Context) (target : Ycp.QualifiedName)
    (category : Ycp.CallCategory) (args : List Argument) :
    ¬ IsLoopJump (callWith ctx target category args) := by
  unfold callWith callNode
  split
  · rintro ⟨⟩
  · split
    · exact not_isLoopJump_invoke _ _ _
    · split
      · split <;> exact not_isLoopJump_invoke _ _ _
      · split <;> exact not_isLoopJump_invoke _ _ _

theorem hasJump_callWith (ctx : Context) (target : Ycp.QualifiedName)
    (category : Ycp.CallCategory) (args : List Argument) :
    (callWith ctx target category args).HasJump m around ↔
      ∃ arg ∈ args, arg.node.HasJump m around := by
  have hin : ∀ item ∈ args.filterMap (copyIn ctx), ¬ item.HasJump m around := by
    intro item hitem
    obtain ⟨arg, -, harg⟩ := List.mem_filterMap.mp hitem
    cases arg <;> cases harg
    simp
  have hout : ∀ item ∈ args.filterMap (copyOut ctx), ¬ item.HasJump m around := by
    intro item hitem
    obtain ⟨arg, -, harg⟩ := List.mem_filterMap.mp hitem
    cases arg <;> cases harg
    simp [heldBy]
  unfold callWith
  split
  · simp only [referenceCall, Ruby.Node.hasJump_group, List.mem_append, List.mem_singleton,
      or_and_right, exists_or, exists_eq_left, Ruby.Node.hasJump_assign, hasJump_callNode,
      Ruby.Node.not_hasJump_var, false_or, or_false]
    grind
  · simp

theorem hasJump_of_arguments {nodes : List Node} {args : List Argument}
    (h : (nodes.map reading).mapM (argument (contextAt settings path)) = .ok args) :
    (∃ arg ∈ args, arg.node.HasJump m around) ↔
      PartJump settings path (nodes.map (Prod.mk .argument)) m around := by
  rw [List.mapM_map] at h
  have harg (n : Node) :
      (∃ arg, argument (contextAt settings path) (reading n) = .ok arg ∧
        arg.node.HasJump m around) ↔ MadeJump (made settings (.argument :: path) n) m around := by
    rw [made_argument, argument, node_reading]
    cases n <;> simp [Argument.node]
  rw [exists_mem_of_mapM_eq_ok h]
  simp [enclosure?, harg]

theorem not_hasJump_of_builtinReceiver {name method : String} {receiver : Ruby.Node}
    (h : builtinReceiver name = .ok (receiver, method)) : ¬ receiver.HasJump m around := by
  obtain ⟨module, rfl | rfl⟩ := builtinReceiver_forms h
  · simp
  · simp

theorem hasJump_of_closure {closure : Closure} {literal : Context → Generated Ruby.Node}
    {b : Ruby.Node} (hkind : ∀ block, closure = .block block → block.info.kind = .unspec)
    (hliteral : closureReading (some closure) = some literal)
    (hb : literal (contextAt settings path) = .ok b) :
    b.HasJump m around ↔ PartJump settings path closure.parts m around := by
  cases closure with
  | block block =>
    obtain ⟨info, body⟩ := block
    have hkind : info.kind = .unspec := hkind _ rfl
    obtain rfl : blockLiteral info (body.map reading) = literal := by
      simpa [closureReading, readings_eq_map] using hliteral
    simp only [blockLiteral, ← contextAt_blockBody, bind_eq_ok, pure_eq_ok] at hb
    obtain ⟨entries, hentries, rfl⟩ := hb
    simp [Closure.parts, Block.parts, Block.info, Block.statements, enclosure?, hkind,
      hasJump_of_statements rfl (by simp) hentries]
  | value params value =>
    obtain rfl : valueLiteral params (reading value) = literal := by
      simpa [closureReading] using hliteral
    simp only [valueLiteral, bind_eq_ok, pure_eq_ok] at hb
    obtain ⟨v, hv, rfl⟩ := hb
    simp [Closure.parts, enclosure?, hv]

@[simp] theorem hasJump_lambda (b : Ruby.Node) :
    (lambda b).HasJump m around ↔ b.HasJump m around := by
  simp [lambda, Ruby.Node.command, Ruby.Node.withBlock]

/-- A closure as a value. -/
theorem assembles_lambda {closure : Closure} {literal : Context → Generated Ruby.Node}
    {b : Ruby.Node} (hparts : n.parts = closure.parts)
    (hkind : ∀ block, closure = .block block → block.info.kind = .unspec)
    (hliteral : closureReading (some closure) = some literal)
    (hb : literal (contextAt settings path) = .ok b) : Assembles settings path n (lambda b) where
  not_isLoopJump := not_isLoopJump_attached _ _ _ _ _
  hasJump_iff m around := by
    rw [hasJump_lambda, hasJump_of_closure hkind hliteral hb, hparts]

theorem not_isLoopJump_termNode (ctx : Context) (name : String) (args : List Ruby.Node) :
    ¬ IsLoopJump (termNode ctx name args) := by
  unfold termNode
  split <;> exact not_isLoopJump_invoke _ _ _

theorem hasJump_termNode (ctx : Context) (name : String) (args : List Ruby.Node) :
    (termNode ctx name args).HasJump m around ↔ ∃ n ∈ args, n.HasJump m around := by
  unfold termNode
  split <;> simp

theorem assembles_value (hn : n.IsSound)
    (h : (reading n).value (contextAt settings path) = .ok r) : Assembles settings path n r := by
  cases n
  case const type value =>
    exact .of_leaf rfl fun m around => not_hasJump_of_constant h
  case locale text =>
    cases h
    exact .of_leaf rfl fun m around => by simp [localized]
  case list elements =>
    simp only [reading, readings_eq_map, Reading.expression, map_eq_ok] at h
    obtain ⟨vs, hvs, rfl⟩ := h
    exact ⟨by rintro ⟨⟩, fun m around => by simp [Node.parts, ← hasJump_of_values hvs]⟩
  case var target => exact .of_leaf rfl fun m around => not_hasJump_of_variableNode h
  case assign target value =>
    obtain ⟨v, hv, rfl⟩ := assign_value_eq_ok.mp h
    exact ⟨by rintro ⟨⟩, fun m around => by simp [Node.parts, hv, enclosure?]⟩
  case compare op lhs rhs =>
    obtain ⟨a, ha, b, hb, rfl⟩ := compare_value_eq_ok.mp h
    exact ⟨by cases op <;> rintro ⟨⟩, fun m around => by simp [Node.parts, ha, hb, enclosure?]⟩
  case binary op lhs rhs =>
    obtain ⟨a, ha, b, hb, rfl⟩ := binary_value_eq_ok.mp h
    exact ⟨by cases op <;> rintro ⟨⟩, fun m around => by simp [Node.parts, ha, hb, enclosure?]⟩
  case unary op operand =>
    obtain ⟨a, ha, rfl⟩ := unary_value_eq_ok.mp h
    exact ⟨by cases op <;> rintro ⟨⟩, fun m around => by simp [Node.parts, ha, enclosure?]⟩
  case ternary condition thenValue elseValue =>
    obtain ⟨c, hc, a, ha, b, hb, rfl⟩ := ternary_value_eq_ok.mp h
    exact ⟨by rintro ⟨⟩, fun m around => by simp [Node.parts, hc, ha, hb, enclosure?]⟩
  case map entries =>
    simp only [reading, Reading.expression, map_eq_ok] at h
    obtain ⟨pairs, hpairs, rfl⟩ := h
    exact ⟨by rintro ⟨⟩, fun m around => by
      simp only [Ruby.Node.hasJump_hash, Node.parts, hasJump_of_entries hpairs]⟩
  case bracket target index value =>
    simp only [reading_bracket, Reading.expression, bind_eq_ok, pure_eq_ok] at h
    obtain ⟨t, ht, k, hk, v, hv, rfl⟩ := h
    refine ⟨not_isLoopJump_opsCall _ _, fun m around => ?_⟩
    simp only [Node.parts, partJump_cons, hasJump_of_keyReading hk, hasJump_of_value hv]
    simp [not_hasJump_of_variableNode ht, enclosure?]
  case index value index fallback =>
    simp only [reading_index, Reading.expression, bind_eq_ok, pure_eq_ok] at h
    obtain ⟨v, hv, k, hk, d, hd, rfl⟩ := h
    refine ⟨not_isLoopJump_opsCall _ _, fun m around => ?_⟩
    simp only [Node.parts, partJump_cons, hasJump_of_keyReading hk, hasJump_of_value hv,
      hasJump_of_value hd]
    simp [enclosure?]
  case call target category type args =>
    simp only [reading, readings_eq_map, Reading.expression, map_eq_ok] at h
    obtain ⟨args', hargs, rfl⟩ := h
    exact ⟨not_isLoopJump_callWith _ _ _ _, fun m around => by
      rw [hasJump_callWith, hasJump_of_arguments hargs, Node.parts]⟩
  case builtin name args closure =>
    simp only [reading, readings_eq_map, Reading.expression, bind_eq_ok] at h
    obtain ⟨⟨receiver, method⟩, hreceiver, vs, hvs, h⟩ := h
    cases closure with
    | none =>
      cases h
      refine ⟨not_isLoopJump_invoke _ _ _, fun m around => ?_⟩
      simp [Node.parts, not_hasJump_of_builtinReceiver hreceiver, hasJump_of_values hvs]
    | some closure =>
      obtain ⟨literal, hliteral⟩ := exists_closureReading closure
      simp only [hliteral, bind_eq_ok, pure_eq_ok] at h
      obtain ⟨b, hb, rfl⟩ := h
      have hkind (block : Block) (hblock : closure = .block block) : block.info.kind = .unspec :=
        hn block (hblock ▸ rfl)
      refine ⟨not_isLoopJump_attached _ _ _ _ _, fun m around => ?_⟩
      simp only [Ruby.Node.invoke, Ruby.Node.withBlock, Ruby.Node.hasJump_attached, Node.parts,
        hasJump_of_values hvs, hasJump_of_closure hkind hliteral hb]
      simp [not_hasJump_of_builtinReceiver hreceiver]
  case isType type operand =>
    simp only [reading, Reading.expression, bind_eq_ok, pure_eq_ok] at h
    obtain ⟨v, hv, rfl⟩ := h
    exact ⟨not_isLoopJump_opsCall _ _, fun m around => by
      simp [typeTest, Node.parts, hv, enclosure?]⟩
  case propagate source target operand =>
    simp only [reading, Reading.expression, bind_eq_ok, pure_eq_ok] at h
    obtain ⟨v, hv, rfl⟩ := h
    exact ⟨not_isLoopJump_invoke _ _ _, fun m around => by
      simp [conversion, moduleCall, Node.parts, hv, enclosure?]⟩
  case reference target => cases h
  case returnExpr params value =>
    simp only [reading, Reading.expression, map_eq_ok] at h
    obtain ⟨b, hb, rfl⟩ := h
    exact @assembles_lambda _ _ _ (.value params value) _ _ rfl (by simp) rfl hb
  case term name args =>
    simp only [reading, readings_eq_map, Reading.expression, map_eq_ok] at h
    obtain ⟨vs, hvs, rfl⟩ := h
    refine ⟨not_isLoopJump_termNode _ _ _, fun m around => ?_⟩
    rw [hasJump_termNode, hasJump_of_values hvs, Node.parts]
  case block block =>
    obtain ⟨info, body⟩ := block
    obtain ⟨hkind, b, hb, rfl⟩ := block_value_eq_ok.mp h
    exact @assembles_lambda _ _ _ (.block (.mk info body)) _ _ rfl
      (by simpa [Block.info] using hkind) rfl hb
  all_goals
    rw [value_eq_error rfl] at h
    cases h

end YcpToRuby.Generate
