import YcpToRuby.Proofs.Generate.Faults
import YcpToRuby.Proofs.Ruby.Grammar
import YcpToRuby.Proofs.Ycp.Encode

/-!
# Generated trees keep to the grammar

Each construct puts together what its parts become. If the values of the parts fit where a value is
wanted and their statements fit into a sequence, the same holds of the node, so by induction over
the program every node of a generated tree may stand where it does.
-/

set_option autoImplicit false

namespace YcpToRuby.Generate

open Scope (Context)
open Ruby (Fits AssignableIn Place Stands WellPlaced fits_iff)
open Ruby.Node (FitEntries fits_sequence)
open Ycp (Block BlockInfo Closure Node)

variable {own : Option String} {ctx : Context} {n : Node} {r : Ruby.Node}

/-! ## Names and constants -/

@[simp] theorem fits_heldBy {holder : Ruby.Node} :
    Fits own .value (heldBy holder) ↔ Fits own .value holder := by
  simp [heldBy]

@[simp] theorem fits_nameNode (name : Ycp.QualifiedName) : Fits own .value (nameNode ctx name) := by
  unfold nameNode
  split
  · split <;> simp
  · simp

theorem eq_of_referenceValue? {name : Ycp.QualifiedName} (h : referenceValue? ctx name = some r) :
    r = heldBy (.var (ctx.resolve name.name)) := by
  unfold referenceValue? at h
  split at h
  · split at h <;> cases h
    rfl
  · cases h

@[simp] theorem fits_valueNode (name : Ycp.QualifiedName) :
    Fits own .value (valueNode ctx name) := by
  unfold valueNode
  cases h : referenceValue? ctx name with
  | none => simp
  | some r => simp [eq_of_referenceValue? h]

/-- A name is written as a variable or through an accessor. -/
theorem assignmentTarget_forms (ctx : Context) (name : Ycp.QualifiedName) :
    (∃ v, assignmentTarget ctx name = .var v) ∨
      ∃ receiver field, assignmentTarget ctx name = .command (some receiver) field [] ∧
        ∀ own, Fits own .value receiver := by
  unfold assignmentTarget
  cases h : referenceValue? ctx name with
  | some r =>
    obtain rfl := eq_of_referenceValue? h
    exact Or.inr ⟨_, _, rfl, by simp⟩
  | none =>
    obtain ⟨ns, name⟩ := name
    cases ns with
    | none => exact Or.inl ⟨_, rfl⟩
    | some ns =>
      by_cases hforeign : isForeign ctx ns = true
      · exact Or.inr ⟨.constant ns, name, by simp [targetNode, hforeign], by simp⟩
      · exact Or.inl ⟨"@" ++ name, by simp [targetNode, nameNode, hforeign]⟩

theorem fits_assign_assignmentTarget {name : Ycp.QualifiedName} {value : Ruby.Node} :
    Fits own .value (.assign (assignmentTarget ctx name) value) ↔ Fits own .value value := by
  rcases assignmentTarget_forms ctx name with ⟨v, hv⟩ | ⟨receiver, field, h, hreceiver⟩
  · simp [hv, AssignableIn.var]
  · simp [h, AssignableIn.accessor, hreceiver]

theorem fits_of_variableNode {v : Ycp.Variable} (h : variableNode ctx v = .ok r) :
    Fits own .value r := by
  unfold variableNode at h
  split at h
  · cases h
    simp
  · cases h
    simp
  · split at h <;> cases h
    unfold functionGetter
    split
    · split <;> simp
    · split <;> simp

theorem fits_of_constant {type : Ycp.ConstType} {value : Option String}
    (h : constant type value = .ok r) : Fits own .value r := by
  rcases constant_forms h with ⟨literal, rfl⟩ | ⟨text, rfl⟩ <;> simp

/-! ## Parts -/

structure Grammatical (own : Option String) (n : Node) : Prop where
  value {ctx : Context} {r : Ruby.Node} (h : (reading n).value ctx = .ok r) : Fits own .value r
  statement {ctx : Context} {result : Option Ruby.Node}
    (h : (reading n).statement ctx = .ok result) : FitEntries own (splice result)

theorem fits_of_values {nodes : List Node} {vs : List Ruby.Node}
    (hnodes : ∀ n ∈ nodes, Grammatical own n) (h : values (nodes.map reading) ctx = .ok vs) :
    ∀ v ∈ vs, Fits own .value v := by
  rw [values, List.mapM_map] at h
  intro v hv
  obtain ⟨n, hn, hvalue⟩ := exists_of_mem_of_mapM_eq_ok h hv
  exact (hnodes n hn).value hvalue

theorem fitEntries_of_statements {nodes : List Node} {entries : List (Option Ruby.Node)}
    (hnodes : ∀ n ∈ nodes, Grammatical own n)
    (h : statements (nodes.map reading) ctx = .ok entries) : FitEntries own entries := by
  induction nodes generalizing entries with
  | nil =>
    obtain rfl := statements_nil_eq_ok.mp h
    simp [FitEntries]
  | cons first rest ih =>
    obtain ⟨hfirst, hrest⟩ := List.forall_mem_cons.mp hnodes
    obtain ⟨result, hresult, others, hothers, rfl⟩ := statements_cons_eq_ok.mp h
    exact Ruby.Node.fitEntries_append.mpr ⟨hfirst.statement hresult, ih hrest hothers⟩

theorem fits_of_keyReading {index : Node} (hindex : Grammatical own index)
    (h : (keyReading index).value ctx = .ok r) : Fits own .value r := by
  unfold keyReading at h
  split at h
  · rename_i key
    have hpath : (reading (.list [key])).value ctx = .ok (.array [r]) := by
      simp [reading, readings, Reading.expression, values, h]
    simpa using hindex.value hpath
  · exact hindex.value h

theorem fits_of_closure {closure : Closure} {literal : Context → Generated Ruby.Node}
    (hparts : ∀ part ∈ closure.parts, Grammatical own part.2)
    (hliteral : closureReading (some closure) = some literal) (h : literal ctx = .ok r) :
    Fits own .attached r := by
  cases closure with
  | block block =>
    obtain ⟨info, body⟩ := block
    obtain rfl : blockLiteral info (body.map reading) = literal := by
      simpa [closureReading, readings_eq_map] using hliteral
    simp only [blockLiteral, bind_eq_ok, pure_eq_ok] at h
    obtain ⟨entries, hentries, rfl⟩ := h
    have hbody : ∀ s ∈ body, Grammatical own s := by
      simpa [Closure.parts, Block.parts, Block.statements] using hparts
    rw [Ruby.Node.fits_block, fits_sequence (by simp)]
    exact fitEntries_of_statements hbody hentries
  | value params value =>
    obtain rfl : valueLiteral params (reading value) = literal := by
      simpa [closureReading] using hliteral
    simp only [valueLiteral, bind_eq_ok, pure_eq_ok] at h
    obtain ⟨v, hv, rfl⟩ := h
    have hvalue : Grammatical own value := by simpa [Closure.parts] using hparts
    simpa using (hvalue.value hv).entry

/-! ## Calls and operators -/

@[simp] theorem fits_moduleCall {receiver name : String} {args : List Ruby.Node} :
    Fits own .value (moduleCall receiver name args) ↔ ∀ n ∈ args, Fits own .value n := by
  simp [moduleCall]

@[simp] theorem fits_opsCall {name : String} {args : List Ruby.Node} :
    Fits own .value (opsCall name args) ↔ ∀ n ∈ args, Fits own .value n := by
  simp [opsCall]

@[simp] theorem fits_lambda {block : Ruby.Node} :
    Fits own .value (lambda block) ↔ Fits own .attached block := by
  simp [lambda, Ruby.Node.command, Ruby.Node.withBlock]

@[simp] theorem fits_compareNode {op : Ycp.CompareOp} {lhs rhs : Ruby.Node} :
    Fits own .value (compareNode op lhs rhs) ↔ Fits own .value lhs ∧ Fits own .value rhs := by
  cases op <;> simp [compareNode]

@[simp] theorem fits_binaryNode {op : Ycp.BinaryOp} {lhs rhs : Ruby.Node} :
    Fits own .value (binaryNode op lhs rhs) ↔ Fits own .value lhs ∧ Fits own .value rhs := by
  cases op <;> simp [binaryNode]

@[simp] theorem fits_unaryNode {op : Ycp.UnaryOp} {operand : Ruby.Node} :
    Fits own .value (unaryNode op operand) ↔ Fits own .value operand := by
  cases op <;> simp [unaryNode]

@[simp] theorem fits_termNode {name : String} {args : List Ruby.Node} :
    Fits own .value (termNode ctx name args) ↔ ∀ n ∈ args, Fits own .value n := by
  unfold termNode
  split <;> simp

theorem fits_of_builtinReceiver {name method : String} {receiver : Ruby.Node}
    (h : builtinReceiver name = .ok (receiver, method)) : Fits own .value receiver := by
  obtain ⟨module, rfl | rfl⟩ := builtinReceiver_forms h
  · simp
  · simp

@[simp] theorem fits_callNode {target : Ycp.QualifiedName} {category : Ycp.CallCategory}
    {args : List Ruby.Node} :
    Fits own .value (callNode ctx target category args) ↔ ∀ n ∈ args, Fits own .value n := by
  unfold callNode
  split
  · simp
  · split
    · split <;> simp
    · split <;> simp

theorem fits_of_mem_copyIn {args : List Argument} {item : Ruby.Node}
    (h : item ∈ args.filterMap (copyIn ctx)) : Fits own .value item := by
  obtain ⟨arg, -, harg⟩ := List.mem_filterMap.mp h
  cases arg <;> cases harg
  simp [AssignableIn.var]

theorem fits_of_mem_copyOut {args : List Argument} {item : Ruby.Node}
    (h : item ∈ args.filterMap (copyOut ctx)) : Fits own .value item := by
  obtain ⟨arg, -, harg⟩ := List.mem_filterMap.mp h
  cases arg <;> cases harg
  exact fits_assign_assignmentTarget.mpr (by simp)

/-- A call with references copies at least one variable in, so the group around it holds the copy,
the call and the result. -/
theorem fits_callWith {target : Ycp.QualifiedName} {category : Ycp.CallCategory}
    {args : List Argument} (hargs : ∀ arg ∈ args, Fits own .value arg.node) :
    Fits own .value (callWith ctx target category args) := by
  have hnodes : ∀ n ∈ args.map Argument.node, Fits own .value n := by
    simpa using hargs
  unfold callWith
  split
  · rename_i hany
    obtain ⟨arg, harg, hreference⟩ := List.any_eq_true.mp hany
    have hcopy : 0 < (args.filterMap (copyIn ctx)).length := by
      cases arg with
      | value node => cases hreference
      | reference target => exact List.length_pos_of_mem (List.mem_filterMap.mpr ⟨_, harg, rfl⟩)
    rw [referenceCall, Ruby.Node.fits_group]
    constructor
    · simp only [List.length_append, List.length_cons, List.length_nil]
      omega
    · simp only [List.mem_append, List.mem_singleton]
      rintro item (((hin | rfl) | hout) | rfl)
      · exact fits_of_mem_copyIn hin
      · simp only [Ruby.Node.fits_assign, fits_callNode]
        exact ⟨.var _, by simp, hnodes⟩
      · exact fits_of_mem_copyOut hout
      · simp
  · exact fits_callNode.mpr hnodes

theorem fits_of_arguments {nodes : List Node} {args : List Argument}
    (hnodes : ∀ n ∈ nodes, Grammatical own n)
    (h : (nodes.map reading).mapM (argument ctx) = .ok args) :
    ∀ arg ∈ args, Fits own .value arg.node := by
  rw [List.mapM_map] at h
  intro arg harg
  obtain ⟨n, hn, hargument⟩ := exists_of_mem_of_mapM_eq_ok h harg
  rw [Function.comp_apply, argument, node_reading] at hargument
  split at hargument
  · cases hargument
    simp [Argument.node]
  · obtain ⟨v, hv, rfl⟩ := map_eq_ok.mp hargument
    exact (hnodes n hn).value hv

theorem fits_of_entries {entries : List (Node × Node)} {pairs : List (Ruby.Node × Ruby.Node)}
    (hentries : ∀ entry ∈ entries, Grammatical own entry.1 ∧ Grammatical own entry.2)
    (h : ((entryReadings entries).mapM fun entry => do
      return (← entry.1.value ctx, ← entry.2.value ctx)) = .ok pairs) :
    ∀ pair ∈ pairs, Fits own .value pair.1 ∧ Fits own .value pair.2 := by
  rw [entryReadings_eq_map, List.mapM_map] at h
  intro pair hpair
  obtain ⟨entry, hentry, hread⟩ := exists_of_mem_of_mapM_eq_ok h hpair
  simp only [Function.comp_apply, bind_eq_ok, pure_eq_ok] at hread
  obtain ⟨key, hkey, value, hvalue, rfl⟩ := hread
  exact ⟨(hentries entry hentry).1.value hkey, (hentries entry hentry).2.value hvalue⟩

/-! ## Values -/

theorem fits_value (hparts : ∀ part ∈ n.parts, Grammatical own part.2)
    (h : (reading n).value ctx = .ok r) : Fits own .value r := by
  cases n
  case const type value => exact fits_of_constant h
  case locale text =>
    cases h
    simp [localized]
  case list elements =>
    simp only [reading, readings_eq_map, Reading.expression, map_eq_ok] at h
    obtain ⟨vs, hvs, rfl⟩ := h
    exact (Ruby.Node.fits_array _).mpr (fits_of_values (by simpa [Node.parts] using hparts) hvs)
  case var target => exact fits_of_variableNode h
  case assign target value =>
    obtain ⟨v, hv, rfl⟩ := assign_value_eq_ok.mp h
    have hvalue : Grammatical own value := by simpa [Node.parts] using hparts
    exact fits_assign_assignmentTarget.mpr (hvalue.value hv)
  case compare op lhs rhs =>
    obtain ⟨a, ha, b, hb, rfl⟩ := compare_value_eq_ok.mp h
    obtain ⟨hlhs, hrhs⟩ : Grammatical own lhs ∧ Grammatical own rhs := by
      simpa [Node.parts] using hparts
    exact fits_compareNode.mpr ⟨hlhs.value ha, hrhs.value hb⟩
  case binary op lhs rhs =>
    obtain ⟨a, ha, b, hb, rfl⟩ := binary_value_eq_ok.mp h
    obtain ⟨hlhs, hrhs⟩ : Grammatical own lhs ∧ Grammatical own rhs := by
      simpa [Node.parts] using hparts
    exact fits_binaryNode.mpr ⟨hlhs.value ha, hrhs.value hb⟩
  case unary op operand =>
    obtain ⟨a, ha, rfl⟩ := unary_value_eq_ok.mp h
    have hoperand : Grammatical own operand := by simpa [Node.parts] using hparts
    exact fits_unaryNode.mpr (hoperand.value ha)
  case ternary condition thenValue elseValue =>
    obtain ⟨c, hc, a, ha, b, hb, rfl⟩ := ternary_value_eq_ok.mp h
    obtain ⟨hcondition, hthen, helse⟩ :
        Grammatical own condition ∧ Grammatical own thenValue ∧ Grammatical own elseValue := by
      simpa [Node.parts] using hparts
    exact (Ruby.Node.fits_ternary _ _ _).mpr
      ⟨hcondition.value hc, hthen.value ha, helse.value hb⟩
  case map entries =>
    simp only [reading, Reading.expression, map_eq_ok] at h
    obtain ⟨pairs, hpairs, rfl⟩ := h
    rw [Node.parts, List.forall_mem_flatMap] at hparts
    exact (Ruby.Node.fits_hash _).mpr (fits_of_entries (by simpa using hparts) hpairs)
  case bracket target index value =>
    simp only [reading_bracket, Reading.expression, bind_eq_ok, pure_eq_ok] at h
    obtain ⟨t, ht, k, hk, v, hv, rfl⟩ := h
    obtain ⟨hindex, hvalue⟩ : Grammatical own index ∧ Grammatical own value := by
      simpa [Node.parts] using hparts
    simp [fits_of_variableNode ht, fits_of_keyReading hindex hk, hvalue.value hv]
  case index value index fallback =>
    simp only [reading_index, Reading.expression, bind_eq_ok, pure_eq_ok] at h
    obtain ⟨v, hv, k, hk, d, hd, rfl⟩ := h
    obtain ⟨hvalue, hindex, hfallback⟩ :
        Grammatical own value ∧ Grammatical own index ∧ Grammatical own fallback := by
      simpa [Node.parts] using hparts
    simp [hvalue.value hv, fits_of_keyReading hindex hk, hfallback.value hd]
  case call target category type args =>
    simp only [reading, readings_eq_map, Reading.expression, map_eq_ok] at h
    obtain ⟨args', hargs, rfl⟩ := h
    exact fits_callWith (fits_of_arguments (by simpa [Node.parts] using hparts) hargs)
  case builtin name args closure =>
    simp only [reading, readings_eq_map, Reading.expression, bind_eq_ok] at h
    obtain ⟨⟨receiver, method⟩, hreceiver, vs, hvs, h⟩ := h
    rw [Node.parts, List.forall_mem_append] at hparts
    have hvalues : ∀ v ∈ vs, Fits own .value v :=
      fits_of_values (by simpa using hparts.1) hvs
    cases closure with
    | none =>
      cases h
      simpa using ⟨fits_of_builtinReceiver hreceiver, hvalues⟩
    | some closure =>
      obtain ⟨literal, hliteral⟩ := exists_closureReading closure
      simp only [hliteral, bind_eq_ok, pure_eq_ok] at h
      obtain ⟨b, hb, rfl⟩ := h
      have hb : Fits own .attached b := fits_of_closure (by simpa using hparts.2) hliteral hb
      simpa [Ruby.Node.invoke, Ruby.Node.withBlock] using
        ⟨fits_of_builtinReceiver hreceiver, hvalues, hb⟩
  case isType type operand =>
    simp only [reading, Reading.expression, bind_eq_ok, pure_eq_ok] at h
    obtain ⟨v, hv, rfl⟩ := h
    have hoperand : Grammatical own operand := by simpa [Node.parts] using hparts
    simpa [typeTest] using hoperand.value hv
  case propagate source target operand =>
    simp only [reading, Reading.expression, bind_eq_ok, pure_eq_ok] at h
    obtain ⟨v, hv, rfl⟩ := h
    have hoperand : Grammatical own operand := by simpa [Node.parts] using hparts
    simpa [conversion] using hoperand.value hv
  case reference target => cases h
  case returnExpr params value =>
    simp only [reading, Reading.expression, map_eq_ok] at h
    obtain ⟨b, hb, rfl⟩ := h
    exact fits_lambda.mpr (@fits_of_closure _ _ _ (.value params value) _ hparts rfl hb)
  case term name args =>
    simp only [reading, readings_eq_map, Reading.expression, map_eq_ok] at h
    obtain ⟨vs, hvs, rfl⟩ := h
    exact fits_termNode.mpr (fits_of_values (by simpa [Node.parts] using hparts) hvs)
  case block block =>
    obtain ⟨info, body⟩ := block
    obtain ⟨-, b, hb, rfl⟩ := block_value_eq_ok.mp h
    exact fits_lambda.mpr (@fits_of_closure _ _ _ (.block (.mk info body)) _ hparts rfl hb)
  all_goals
    rw [value_eq_error rfl] at h
    cases h

/-! ## Statements -/

theorem fits_of_body {s : Node} {place : Place} (hs : Grammatical own s)
    (hplace : place = .root ∨ place = .body ∨ place = .loopBody ∨ place = .elseOfIf)
    (h : (reading s).body ctx = .ok r) : Fits own place r := by
  obtain ⟨result, hresult, rfl⟩ := body_eq_ok.mp h
  exact (fits_sequence hplace).mpr (hs.statement hresult)

theorem fits_of_branch {part : Option Node} {result : Option Ruby.Node}
    (hpart : ∀ s ∈ part, Grammatical own s) (h : branch (part.map reading) ctx = .ok result) :
    ∀ r ∈ result, Fits own .body r := by
  cases part with
  | none =>
    cases h
    simp
  | some s =>
    simp only [Option.map_some, branch] at h
    split at h
    · cases h
      simp
    · obtain ⟨r, hr, rfl⟩ := map_eq_ok.mp h
      rintro _ ⟨⟩
      exact fits_of_body (hpart s rfl) (by simp) hr

theorem isConditional_of_conditional {condition : Node} {thenPart elsePart : Option Node}
    (h : conditional (reading condition) (optionReading thenPart) (optionReading elsePart) ctx =
      .ok r) : r.isConditional = true := by
  obtain ⟨_, -, _, _, -, -, hof⟩ := conditional_eq_ok h
  cases hof <;> rfl

/-- A conditional becomes a conditional, which may stand bare behind the `else`. -/
theorem fits_of_elseBranch {part : Option Node} {result : Option Ruby.Node}
    (hpart : ∀ s ∈ part, Grammatical own s) (h : elseBranch (part.map reading) ctx = .ok result) :
    ∀ r ∈ result, Fits own .elseOfIf r := by
  cases part with
  | none =>
    cases h
    simp
  | some s =>
    have hs := hpart s rfl
    simp only [Option.map_some, elseBranch, node_reading] at h
    split at h
    · rename_i hs'
      cases s <;> simp only [isConditional, Bool.false_eq_true] at hs'
      have hentries := hs.statement h
      obtain ⟨r, hr, rfl⟩ := solid_statement_eq_ok.mp h
      have hr := isConditional_of_conditional hr
      rintro _ ⟨⟩
      refine (hentries r ?_).elseOfIf hr
      cases r <;> simp_all [splice, Ruby.Node.isConditional]
    · obtain ⟨r, hr, rfl⟩ := map_eq_ok.mp h
      rintro _ ⟨⟩
      exact fits_of_body hs (by simp) hr

theorem fits_of_conditional {condition : Node} {thenPart elsePart : Option Node}
    (hcondition : Grammatical own condition) (hthen : ∀ s ∈ thenPart, Grammatical own s)
    (helse : ∀ s ∈ elsePart, Grammatical own s)
    (h : conditional (reading condition) (optionReading thenPart) (optionReading elsePart) ctx =
      .ok r) : Fits own .entry r := by
  simp only [optionReading_eq_map, conditional, bind_eq_ok] at h
  obtain ⟨test, htest, thenBody, hthenBody, h⟩ := h
  have htest := hcondition.value htest
  have hthenBody := fits_of_branch hthen hthenBody
  cases thenBody with
  | some thenBody =>
    obtain ⟨elseBody, helseBody, h⟩ := bind_eq_ok.mp h
    obtain rfl := pure_eq_ok.mp h
    exact Ruby.Node.fits_ifElse.mpr
      ⟨htest, hthenBody _ rfl, fits_of_elseBranch helse helseBody⟩
  | none =>
    cases elsePart with
    | some s =>
      obtain ⟨elseBody, helseBody, h⟩ := bind_eq_ok.mp h
      obtain rfl := pure_eq_ok.mp h
      simpa using ⟨htest, fits_of_body (helse s rfl) (by simp) helseBody⟩
    | none =>
      obtain rfl := pure_eq_ok.mp h
      simpa [fits_sequence, FitEntries] using htest

theorem fits_of_clause {block : Block} {entries : List (Option Ruby.Node)}
    (hblock : ∀ s ∈ block.statements, Grammatical own s) {kept : List Node}
    (hkept : kept ⊆ block.statements) (h : statements (kept.map reading) ctx = .ok entries) :
    Fits own .body (.sequence entries) :=
  (fits_sequence (by simp)).mpr
    (fitEntries_of_statements (fun s hs => hblock s (hkept hs)) h)

theorem fits_of_switch {condition : Node} {cases : List (Node × Block)} {default : Option Block}
    (hcondition : Grammatical own condition)
    (hcases : ∀ c ∈ cases, Grammatical own c.1 ∧ ∀ s ∈ c.2.statements, Grammatical own s)
    (hdefault : ∀ block ∈ default, ∀ s ∈ block.statements, Grammatical own s)
    (h : switch (reading condition) (caseReadings cases) (defaultReading default) ctx = .ok r) :
    Fits own .entry r := by
  obtain ⟨subject, hsubject, clauses, hclauses, elseBody, helse, rfl⟩ := switch_eq_ok.mp h
  refine Ruby.Node.fits_caseWhen.mpr ⟨hcondition.value hsubject, ?_, ?_⟩
  · intro clause hclause
    obtain ⟨c, hc, hof⟩ := exists_of_mem_of_mapM_eq_ok (mapM_eq_ok.mpr hclauses) hclause
    obtain ⟨test, entries, rfl, htest, kept, hend, hentries⟩ := caseClause_eq_ok hof
    obtain ⟨hvalue, hbody⟩ := hcases c hc
    exact ⟨by simpa using hvalue.value htest, fits_of_clause hbody hend.subset hentries⟩
  · intro body hbody
    cases default with
    | none =>
      cases helse
      cases hbody
    | some block =>
      obtain ⟨kept, hkept, ⟨-, rfl⟩ | ⟨entries, rfl, hentries⟩⟩ := defaultClause_eq_ok helse
      · cases hbody
      · cases hbody
        refine fits_of_clause (hdefault block rfl) ?_ hentries
        rcases hkept with hkept | hkept <;> simp [hkept]

theorem fits_of_functionDef {name : String} {params : List Ycp.Symbol} {info : BlockInfo}
    {body : List Node} (hbody : ∀ s ∈ body, Grammatical own s)
    (h : functionDef name params info (body.map reading) ctx = .ok r) : Fits own .entry r := by
  unfold functionDef at h
  split at h
  · cases h
  · split at h
    · cases h
    · simp only [bind_eq_ok, pure_eq_ok] at h
      obtain ⟨entries, hentries, rfl⟩ := h
      rw [Ruby.Node.fits_methodDef, fits_sequence (by simp), Ruby.Node.fitEntries_append]
      refine ⟨fun copy hcopy => ?_, fitEntries_of_statements hbody hentries⟩
      obtain ⟨param, -, hparam⟩ := List.mem_map.mp hcopy
      cases hparam
      exact Fits.entry (by simp [AssignableIn.var])

/-- What is no sequence is one entry. -/
theorem fitEntries_splice (h : Fits own .entry r) : FitEntries own (splice (some r)) := by
  cases r
  case sequence entries => exact absurd rfl ((fits_iff.mp h).1.sequence entries rfl)
  all_goals exact Ruby.Node.fitEntries_singleton.mpr h

theorem fitEntries_of_block {info : BlockInfo} {body : List Node} {result : Option Ruby.Node}
    (hkind : info.kind ≠ .unspec) (hbody : ∀ s ∈ body, Grammatical own s)
    (h : (reading (.block (.mk info body))).statement ctx = .ok result) :
    FitEntries own (splice result) := by
  obtain ⟨-, entries, hentries, rfl⟩ := (nonclosure_statement_eq_ok hkind).mp h
  exact fitEntries_of_statements hbody hentries

theorem fits_of_breakNode (h : breakNode ctx = .ok r) : Fits own .entry r := by
  unfold breakNode at h
  split at h <;> cases h
  · exact Fits.entry (by simp)
  · simp

theorem fits_returnNode {value : Option Ruby.Node} (h : ∀ v ∈ value, Fits own .value v) :
    Fits own .entry (returnNode value ctx) := by
  unfold returnNode
  split
  · split
    · exact Ruby.Node.fits_next.mpr h
    · exact Ruby.Node.fits_ret.mpr h
  · exact Ruby.Node.fits_ret.mpr h

theorem fits_of_returnStatement {value : Option Node} (hvalue : ∀ v ∈ value, Grammatical own v)
    (h : returnStatement (optionReading value) ctx = .ok r) : Fits own .entry r := by
  rw [optionReading_eq_map] at h
  cases value with
  | none =>
    cases h
    exact fits_returnNode (by simp)
  | some value =>
    obtain ⟨v, hv, hr⟩ := bind_eq_ok.mp h
    cases hr
    refine fits_returnNode ?_
    rintro _ ⟨⟩
    exact (hvalue value rfl).value hv

theorem fits_loopNode {kind : Ycp.LoopKind} {test : Ruby.Node} {entries : List (Option Ruby.Node)}
    (htest : Fits own .value test) (hentries : FitEntries own entries) :
    Fits own .entry (loopNode kind test (.sequence entries)) := by
  cases kind <;> simpa [loopNode, fits_sequence] using ⟨htest, hentries⟩

/-- What a statement becomes fits among the entries around it: the entries of a block, or one entry
or none. -/
theorem fitEntries_statement {result : Option Ruby.Node}
    (hparts : ∀ part ∈ n.parts, Grammatical own part.2)
    (h : (reading n).statement ctx = .ok result) : FitEntries own (splice result) := by
  cases hvalue : n.isValue with
  | true =>
    rw [statement_eq_value hvalue, map_eq_ok] at h
    obtain ⟨v, hv, rfl⟩ := h
    exact fitEntries_splice (fits_value hparts hv).entry
  | false =>
    cases n <;> simp only [Node.isValue, Bool.true_eq_false] at hvalue
    case block block =>
      obtain ⟨info, body⟩ := block
      refine fitEntries_of_block (of_decide_eq_false hvalue) ?_ h
      simpa [Node.parts, Block.parts, Block.statements] using hparts
    case ifElse condition thenBody elseBody =>
      obtain ⟨r, hr, rfl⟩ := solid_statement_eq_ok.mp h
      simp only [Node.parts, List.map_append, List.forall_mem_cons, List.forall_mem_append]
        at hparts
      obtain ⟨hcondition, hthen, helse⟩ := hparts
      exact fitEntries_splice
        (fits_of_conditional hcondition (by simpa using hthen) (by simpa using helse) hr)
    case loop kind condition body =>
      obtain ⟨r, hr, rfl⟩ := solid_statement_eq_ok.mp h
      obtain ⟨test, htest, inner, hinner, rfl⟩ := loop_eq_ok.mp hr
      obtain ⟨hcondition, hbody⟩ : Grammatical own condition ∧ Grammatical own body := by
        simpa [Node.parts] using hparts
      exact fitEntries_splice (fits_loopNode (hcondition.value htest) (hbody.statement hinner))
    case breakLoop =>
      obtain ⟨r, hr, rfl⟩ := solid_statement_eq_ok.mp h
      exact fitEntries_splice (fits_of_breakNode hr)
    case continueLoop =>
      cases h
      exact fitEntries_splice (by simp)
    case ret value =>
      obtain ⟨r, hr, rfl⟩ := solid_statement_eq_ok.mp h
      exact fitEntries_splice
        (fits_of_returnStatement (by simpa [Node.parts] using hparts) hr)
    case switch condition cases default =>
      obtain ⟨r, hr, rfl⟩ := solid_statement_eq_ok.mp h
      rw [Node.parts, List.forall_mem_cons, List.forall_mem_append, List.forall_mem_flatMap,
        List.forall_mem_flatMap] at hparts
      obtain ⟨hcondition, hcases, hdefault⟩ := hparts
      refine fitEntries_splice (fits_of_switch hcondition (fun c hc => ?_) (fun block hblock => ?_)
        hr)
      · obtain ⟨hvalue, hclause⟩ := List.forall_mem_cons.mp (hcases c hc)
        exact ⟨hvalue, Ycp.forall_statements_of_clauseParts hclause⟩
      · exact Ycp.forall_statements_of_clauseParts (hdefault block (by simpa using hblock))
    case funDef name params body =>
      obtain ⟨info, statements⟩ := body
      rw [reading, readings_eq_map] at h
      obtain ⟨r, hr, rfl⟩ := solid_statement_eq_ok.mp h
      refine fitEntries_splice (fits_of_functionDef ?_ hr)
      simpa [Node.parts, Block.statements] using hparts
    case importModule name =>
      cases h
      exact fitEntries_splice (Fits.entry (by simp [importNode]))
    case includeFile name skip =>
      cases skip <;> cases h
      · exact fitEntries_splice (Fits.entry (by simp))
      · simp [splice, includeNode, FitEntries]
    case textdomain name =>
      cases h
      exact fitEntries_splice (Fits.entry (by simp [textdomainNode]))
    case typedef =>
      cases h
      simp [splice, FitEntries]
    case filename name =>
      cases h
      simp [splice, FitEntries]

theorem grammatical (own : Option String) (n : Node) : Grammatical own n := by
  induction n using Node.induction_parts with
  | step n ih => exact ⟨fits_value ih, fitEntries_statement ih⟩

/-! ## Whole files -/

structure FitSections (own : Option String) (parts : Sections) : Prop where
  textdomains : ∀ t ∈ parts.textdomains, Fits own .entry t
  main : FitEntries own parts.main
  functions : ∀ f ∈ parts.functions, Fits own .entry f

def FitPart (own : Option String) : Part → Prop
  | .textdomain node | .function node => Fits own .entry node
  | .main entries => FitEntries own entries

theorem fitPart_of_part {s : Node} {p : Part} (h : part ctx s = .ok p) : FitPart own p := by
  unfold part at h
  split at h
  · cases h
    exact Fits.entry (by simp [textdomainNode])
  · obtain ⟨r, hr, rfl⟩ := map_eq_ok.mp h
    rw [readings_eq_map] at hr
    exact fits_of_functionDef (fun s _ => grammatical own s) hr
  · cases h
    simp [FitPart, FitEntries]
  · cases h
    simp [FitPart, FitEntries]
  · simp only [bind_eq_ok, pure_eq_ok] at h
    obtain ⟨result, hresult, rfl⟩ := h
    exact (grammatical own s).statement hresult

theorem fitSections_of_sections {body : List Node} {parts : Sections}
    (h : sections ctx body = .ok parts) : FitSections own parts := by
  obtain ⟨ps, hps, rfl⟩ := map_eq_ok.mp h
  have hfit : ∀ p ∈ ps, FitPart own p := by
    intro p hp
    obtain ⟨s, -, hs⟩ := exists_of_mem_of_mapM_eq_ok hps hp
    exact fitPart_of_part hs
  refine ⟨fun t ht => ?_, fun m hm => ?_, fun f hf => ?_⟩
  · obtain ⟨p, hp, htext⟩ := List.mem_filterMap.mp ht
    have := hfit p hp
    cases p <;> cases htext
    exact this
  · obtain ⟨p, hp, hmain⟩ := List.mem_flatMap.mp hm
    have := hfit p hp
    cases p with
    | main entries => exact this m hmain
    | textdomain node => cases hmain
    | function node => cases hmain
  · obtain ⟨p, hp, hfunction⟩ := List.mem_filterMap.mp hf
    have := hfit p hp
    cases p <;> cases hfunction
    exact this

theorem fits_mainMethod {entries : List (Option Ruby.Node)} (h : FitEntries own entries) :
    Fits own .entry (mainMethod entries) := by
  rw [mainMethod, Ruby.Node.fits_methodDef, fits_sequence (by simp)]
  exact h

theorem fits_of_publishCall {exportPrivate : Bool} {symbol : Ycp.Symbol}
    (h : publishCall exportPrivate symbol = some r) : Fits own .entry r := by
  unfold publishCall at h
  split at h
  · obtain ⟨kind, -, rfl⟩ := Option.map_eq_some_iff.mp h
    refine Fits.entry ?_
    split <;> simp
  · cases h

theorem fits_moduleProgram {name : String} (info : BlockInfo) (exportPrivate : Bool)
    {parts : Sections} (h : FitSections (some name) parts) :
    Fits (some name) .root (moduleProgram name info exportPrivate parts) := by
  have hcommand (method argument : String) :
      Fits (some name) .entry (.command none method [.constant argument]) :=
    Fits.entry (by simp)
  have hrequire : Fits (some name) .entry (.command none "require" [.string "yast"]) :=
    Fits.entry (by simp)
  have hmain : ∀ m ∈ if parts.main.any Option.isSome then [mainMethod parts.main] else [],
      Fits (some name) .entry m := by
    split
    · simpa using fits_mainMethod h.main
    · simp
  have hpublish : ∀ m ∈ info.symbols.filterMap (publishCall exportPrivate),
      Fits (some name) .entry m := by
    intro m hm
    obtain ⟨symbol, -, hsymbol⟩ := List.mem_filterMap.mp hm
    exact fits_of_publishCall hsymbol
  have hbind : Fits (some name) .entry
      (.assign (.constant name) (.command (some (.constant (name ++ "Class"))) "new" [])) :=
    Fits.entry (by simp [AssignableIn.constant])
  have hrun : ∀ m ∈ if parts.main.any Option.isSome then
      [Ruby.Node.command (some (.constant name)) "main" []] else [], Fits (some name) .entry m := by
    split
    · simpa using Fits.entry (by simp)
    · simp
  rw [moduleProgram, Ruby.Node.fits_program, Ruby.Node.fits_statements]
  simp only [List.forall_mem_cons, List.forall_mem_append, Ruby.Node.fits_moduleDef,
    Ruby.Node.fits_statements, Ruby.Node.fits_classDef, List.not_mem_nil, false_imp_iff,
    implies_true, and_true]
  exact ⟨hrequire, ⟨⟨by simp, ⟨⟨⟨⟨hcommand _ _, hcommand _ _⟩, h.textdomains⟩, hmain⟩,
    h.functions⟩, hpublish⟩, hbind⟩, hrun⟩

theorem fitEntries_withResult {entries : List (Option Ruby.Node)} (h : FitEntries own entries) :
    FitEntries own (withResult entries) := by
  have hnil : Fits own .entry .nil := Fits.entry (Ruby.Node.fits_literal _)
  unfold withResult
  split
  · split
    · exact h
    · simpa using ⟨h, hnil⟩
  · simpa using ⟨h, hnil⟩

theorem fits_clientProgram {className : String} {parts : Sections} (h : FitSections own parts) :
    Fits own .root (clientProgram className parts) := by
  have hmain : Fits own .entry (mainMethod (withResult parts.main)) :=
    fits_mainMethod (fitEntries_withResult h.main)
  have hrun : Fits own .entry (.command (some (.command
      (some (.const (some (.constant "Yast")) className)) "new" [])) "main" []) :=
    Fits.entry (by simp)
  rw [clientProgram, Ruby.Node.fits_program, Ruby.Node.fits_statements]
  simp only [List.forall_mem_cons, List.forall_mem_append, Ruby.Node.fits_moduleDef,
    Ruby.Node.fits_statements, Ruby.Node.fits_classDef, List.not_mem_nil, false_imp_iff,
    implies_true, and_true]
  exact ⟨⟨by simp, ⟨h.textdomains, hmain⟩, h.functions⟩, hrun⟩

def definedConstant? : Node → Option String
  | .block (.mk info _) => if info.kind = .module then info.name else none
  | _ => none

theorem fits_of_fragment (h : (do return ((← (reading n).statement ctx).getD (.sequence [])) :
    Generated Ruby.Node) = .ok r) : Fits own .root r := by
  simp only [bind_eq_ok, pure_eq_ok] at h
  obtain ⟨result, hresult, rfl⟩ := h
  have hentries := (grammatical own n).statement hresult
  cases result with
  | none => simp [fits_sequence, FitEntries]
  | some r =>
    cases r
    case sequence entries => exact (fits_sequence (by simp)).mpr hentries
    all_goals exact Fits.root (hentries _ (by simp [splice]))

theorem fits_unit {settings : Settings} (h : unit settings n = .ok r) :
    Fits (definedConstant? n) .root r := by
  unfold unit at h
  split at h
  · rename_i info body
    split at h
    · rename_i hkind
      unfold moduleUnit at h
      split at h
      · cases h
      · rename_i name hname
        obtain ⟨parts, hparts, rfl⟩ := map_eq_ok.mp h
        simp only [definedConstant?, hkind, hname, if_true]
        exact fits_moduleProgram info _ (fitSections_of_sections hparts)
    · unfold clientUnit at h
      split at h
      · cases h
      · simp only [bind_eq_ok, pure_eq_ok] at h
        obtain ⟨className, -, parts, hparts, rfl⟩ := h
        exact fits_clientProgram (fitSections_of_sections hparts)
    · exact fits_of_fragment h
  · exact fits_of_fragment h

/-! ## The grammar of what is generated -/

/-- Every node of a generated tree may stand where it does. -/
theorem generated_wellPlaced {settings : Settings} (h : unit settings n = .ok r) {place : Place}
    {m : Ruby.Node} (hm : Stands r place m) : WellPlaced (definedConstant? n) place m :=
  (fits_iff.mp ((fits_unit h).of_stands hm)).1

def loopWithChain : Node :=
  .loop .doWhile (.const .bool (some "true"))
    (.ifElse (.var ⟨⟨none, "a"⟩, .var, none⟩) (some .breakLoop)
      (some (.ifElse (.var ⟨⟨none, "b"⟩, .var, none⟩) (some .continueLoop) none)))

theorem loopWithChain_wellPlaced :
    ∃ r, unit {} loopWithChain = .ok r ∧
      Stands r .loopBody (.beginEnd (.sequence [some
        (.ifElse (.var "a") (.sequence [some .breakLoop])
          (some (.ifElse (.var "b") (.sequence [some (.next none)]) none)))])) ∧
      ∀ place m, Stands r place m → WellPlaced none place m := by
  have hunit : unit {} loopWithChain = .ok (.loop .whileTrue (.literal (.bool true))
      (.beginEnd (.sequence [some (.ifElse (.var "a") (.sequence [some .breakLoop])
        (some (.ifElse (.var "b") (.sequence [some (.next none)]) none)))]))) := rfl
  exact ⟨_, hunit, .part .root (by simp [Ruby.Node.placed]),
    fun place m hm => generated_wellPlaced hunit hm⟩

def chainToUnless : Node :=
  .ifElse (.var ⟨⟨none, "a"⟩, .var, none⟩) (some .breakLoop)
    (some (.ifElse (.var ⟨⟨none, "b"⟩, .var, none⟩) none (some .continueLoop)))

/-- An `unless` stands bare behind the `else`. -/
theorem chainToUnless_unless_bare :
    ∃ tree n r, Ycp.decode tree = .ok n ∧ unit {} n = .ok r ∧
      Stands r .elseOfIf (.unlessElse (.var "b") (.sequence [some (.next none)]) none) := by
  have hunit : unit {} chainToUnless = .ok (.ifElse (.var "a") (.sequence [some .breakLoop])
      (some (.unlessElse (.var "b") (.sequence [some (.next none)]) none))) := rfl
  exact ⟨chainToUnless.encode, chainToUnless, _, rfl, hunit,
    .part .root (by simp [Ruby.Node.placed])⟩

end YcpToRuby.Generate
