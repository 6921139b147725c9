import YcpToRuby.Proofs.Ruby.Resume
import YcpToRuby.Ruby.Layout

/-!
# The text of an expression determines it

Whatever strength its place asks for, the text of an expression reads back as that expression. So
two expressions with the same text are equal, and parentheses are never missing.
-/

set_option autoImplicit false

namespace YcpToRuby.Ruby

/-! ## Names -/

def isVariableName (name : String) : Bool :=
  match name.toList with
  | '@' :: cs => isIdentifier cs
  | cs => isIdentifier cs && !startsUppercase name && !isReserved name

def isConstantName (name : String) : Bool :=
  isIdentifier name.toList && startsUppercase name

theorem nameNode?_of_free {name : String} (h : isReserved name = false) :
    nameNode? name =
      if startsUppercase name then some (.const none name) else some (.var name) := by
  have hne {word : String} (hword : isReserved word = true) : name ≠ word := by
    rintro rfl
    rw [h] at hword
    cases hword
  have hself : name ≠ "self" := hne (by decide)
  have hnil : name ≠ "nil" := hne (by decide)
  have htrue : name ≠ "true" := hne (by decide)
  have hfalse : name ≠ "false" := hne (by decide)
  simp [nameNode?, hself, hnil, htrue, hfalse, h]

theorem isReserved_of_at {name : String} {cs : List Char} (h : name.toList = '@' :: cs) :
    isReserved name = false := by
  have hwords : ∀ word ∈ reservedWords, word.toList.head? ≠ some '@' := by decide
  rw [isReserved, List.contains_eq_mem, decide_eq_false_iff_not]
  intro hmem
  exact hwords name hmem (by simp [h])

theorem reads_variable {name : String} (h : isVariableName name = true) :
    Reads 16 name (.var name) := by
  unfold isVariableName at h
  split at h
  · rename_i cs hname
    have hat : Text.isUppercase '@' = false := by decide +kernel
    have hupper : startsUppercase name = false := by simp [startsUppercase, hname, hat]
    refine reads_at hname h ?_
    simp [nameNode?_of_free (isReserved_of_at hname), hupper]
  · simp only [Bool.and_eq_true, Bool.not_eq_true'] at h
    obtain ⟨⟨hname, hupper⟩, hfree⟩ := h
    refine reads_name hname ?_
    simp [nameNode?_of_free hfree, hupper]

theorem reads_constant {name : String} (h : isConstantName name = true)
    (hfree : isReserved name = false) : Reads 16 name (.const none name) := by
  obtain ⟨hname, hupper⟩ := Bool.and_eq_true_iff.mp h
  refine reads_name hname ?_
  simp [nameNode?_of_free hfree, hupper]

/-! ## Expressions -/

def Literal.isExact : Literal → Bool
  | .float _ => false
  | _ => true

/-- Expressions of names, exact literals, operators, calls, collections and groups. The operand of a
minus does not begin with a digit, which would make it a negative number. -/
inductive Readable (level : Nat) : Node → Prop
  | var {name : String} (h : isVariableName name = true) : Readable level (.var name)
  | const {name : String} (h : isConstantName name = true) (hfree : isReserved name = false) :
      Readable level (.const none name)
  | constIn {scope : Node} {name : String} (hs : Readable level scope)
      (h : isConstantName name = true) : Readable level (.const (some scope) name)
  | self : Readable level .self
  | literal {value : Literal} (h : value.isExact = true) : Readable level (.literal value)
  | unary {op : UnaryOp} {operand : Node} (h : Readable level operand)
      (hminus : op = .neg →
        ∀ c ∈ (operandText 13 operand (operand.chunk level)).toList.head?, c.isDigit = false) :
      Readable level (.unary op operand)
  | binary {op : BinaryOp} {lhs rhs : Node} (hl : Readable level lhs) (hr : Readable level rhs) :
      Readable level (.binary op lhs rhs)
  | ternary {condition thenValue elseValue : Node} (hc : Readable level condition)
      (ht : Readable level thenValue) (he : Readable level elseValue) :
      Readable level (.ternary condition thenValue elseValue)
  | assign {target value : Node} (ht : Readable level target)
      (htarget : isVarOrAccessor target = true) (hv : Readable level value) :
      Readable level (.assign target value)
  | call {name : String} {args : List Node} (hname : isIdentifier name.toList = true)
      (hfree : isReserved name = false) (ha : ∀ arg ∈ args, Readable level arg) :
      Readable level (.call none name args none true)
  | callOn {receiver : Node} {name : String} {args : List Node} (hr : Readable level receiver)
      (hname : isIdentifier name.toList = true) (ha : ∀ arg ∈ args, Readable level arg) :
      Readable level (.call (some receiver) name args none true)
  | member {receiver : Node} {name : String} (hr : Readable level receiver)
      (hname : isIdentifier name.toList = true) :
      Readable level (.call (some receiver) name [] none false)
  | array {items : List Node} (h : ∀ item ∈ items, Readable level item) :
      Readable level (.array items)
  | hash {entries : List (Node × Node)} (hk : ∀ entry ∈ entries, Readable level entry.1)
      (hv : ∀ entry ∈ entries, Readable level entry.2) : Readable level (.hash entries)
  | group {items : List Node} (hlength : 2 ≤ items.length)
      (h : ∀ item ∈ items, Readable level item) : Readable level (.group items)

def ReadsAnywhere (level : Nat) (node : Node) : Prop :=
  ∀ m, Reads m (operandText m node (node.chunk level)) node

theorem readsAnywhere {level : Nat} {node : Node}
    (h : Reads node.precedence (node.chunk level) node)
    (hline : ∀ entries, node ≠ .sequence entries) : ReadsAnywhere level node := by
  have hinline : inlineText node (node.chunk level) = node.chunk level := by
    unfold inlineText
    split
    · exact absurd rfl (hline _)
    · rfl
  intro m
  unfold operandText
  rw [hinline]
  split
  · exact h.parenthesized
  · exact h.mono (by omega)

/-! ## Literals and lists -/

theorem reads_literal {value : Literal} (h : value.isExact = true) :
    Reads (Node.literal value).precedence value.text (.literal value) := by
  cases value with
  | nil => exact reads_name (by decide) rfl
  | bool b => cases b <;> exact reads_name (by decide) rfl
  | integer n =>
    cases n with
    | ofNat n => exact reads_integer n
    | negSucc n =>
      have hstrength : (Node.literal (.integer (.negSucc n))).precedence = 13 := by
        simp [Node.precedence, Literal.isNegative, Int.negSucc_lt_zero]
      rw [hstrength]
      exact reads_negative (n + 1)
  | float x => cases h
  | symbol name => exact reads_symbol name
  | string text => exact reads_string text

section Parts

variable {level : Nat}

theorem forall₂_operandTexts {items : List Node} (h : ∀ item ∈ items, ReadsAnywhere level item) :
    List.Forall₂ (Reads 1) (operandTexts level items) items := by
  induction items with
  | nil =>
    rw [operandTexts]
    exact .nil
  | cons item items ih =>
    rw [operandTexts]
    exact .cons (h item List.mem_cons_self 1) (ih fun x hx => h x (List.mem_cons_of_mem _ hx))

theorem forall₂_hashTexts {entries : List (Node × Node)}
    (hk : ∀ entry ∈ entries, ReadsAnywhere level entry.1)
    (hv : ∀ entry ∈ entries, ReadsAnywhere level entry.2) :
    List.Forall₂ ReadsEntry (hashTexts level entries) entries := by
  induction entries with
  | nil =>
    rw [hashTexts]
    exact .nil
  | cons entry entries ih =>
    obtain ⟨key, value⟩ := entry
    rw [hashTexts]
    have hrest := ih (fun x hx => hk x (List.mem_cons_of_mem _ hx))
      fun x hx => hv x (List.mem_cons_of_mem _ hx)
    exact .cons ⟨_, _, rfl, hk _ List.mem_cons_self 1, hv _ List.mem_cons_self 1⟩ hrest

def FieldsRead (level : Nat) : Node → Prop
  | .hash entries => (∀ entry ∈ entries, ReadsAnywhere level entry.1) ∧
      ∀ entry ∈ entries, ReadsAnywhere level entry.2
  | _ => True

theorem readsArguments {args : List Node} (h : ∀ arg ∈ args, ReadsAnywhere level arg)
    (hfields : ∀ arg ∈ args, FieldsRead level arg) :
    ReadsArguments (argumentTexts level args) args := by
  induction args with
  | nil =>
    rw [argumentTexts]
    exact .nil
  | cons arg args ih =>
    have hrest := ih (fun x hx => h x (List.mem_cons_of_mem _ hx))
      fun x hx => hfields x (List.mem_cons_of_mem _ hx)
    have harg := h arg List.mem_cons_self 1
    unfold argumentTexts
    split
    · rename_i heq
      cases heq
    · rename_i entries heq
      obtain ⟨rfl, rfl⟩ := List.cons.inj heq
      obtain ⟨hk, hv⟩ := hfields _ List.mem_cons_self
      cases entries with
      | nil => exact .cons (reads_emptyHash.mono (by decide)) .nil
      | cons entry entries => exact .hash (forall₂_hashTexts hk hv) (by simp)
    · rename_i heq
      obtain ⟨rfl, rfl⟩ := List.cons.inj heq
      exact .cons harg hrest

end Parts

/-! ## Texts -/

section Texts

variable {level : Nat} {name : String}

theorem chunk_const : (Node.const none name).chunk level = name :=
  String.empty_append

theorem chunk_constIn {scope : Node} :
    (Node.const (some scope) name).chunk level =
      operandText 16 scope (scope.chunk level) ++ "::" ++ name := by
  change "" ++ _ ++ "::" ++ name = _
  rw [String.empty_append]

theorem argumentList_parens {receiver : Option Node} {texts : List String} :
    argumentList receiver name none true texts = "(" ++ ", ".intercalate texts ++ ")" := by
  cases texts with
  | nil => rfl
  | cons text texts => rfl

theorem chunk_call {args : List Node} :
    (Node.call none name args none true).chunk level =
      name ++ "(" ++ ", ".intercalate (argumentTexts level args) ++ ")" := by
  change "" ++ name ++ argumentList none name none true (argumentTexts level args) ++ "" = _
  simp only [argumentList_parens, String.empty_append, String.append_empty, String.append_assoc]

theorem chunk_callOn {receiver : Node} {args : List Node} :
    (Node.call (some receiver) name args none true).chunk level =
      operandText 16 receiver (receiver.chunk level) ++ "." ++ name ++ "(" ++
        ", ".intercalate (argumentTexts level args) ++ ")" := by
  change "" ++ _ ++ "." ++ name ++ argumentList (some receiver) name none true _ ++ "" = _
  simp only [argumentList_parens, String.empty_append, String.append_empty, String.append_assoc]

theorem precedence_call {receiver : Option Node} {args : List Node} :
    (Node.call receiver name args none true).precedence = 16 := by
  cases args with
  | nil => rfl
  | cons arg args => rfl

theorem chunk_member {receiver : Node} :
    (Node.call (some receiver) name [] none false).chunk level =
      operandText 16 receiver (receiver.chunk level) ++ "." ++ name := by
  change "" ++ _ ++ "." ++ name ++ "" ++ "" = _
  simp only [String.empty_append, String.append_empty]

theorem chunk_hash {entries : List (Node × Node)} (h : entries ≠ []) :
    (Node.hash entries).chunk level =
      "\x7b " ++ ", ".intercalate (hashTexts level entries) ++ " \x7d" := by
  change (if entries.isEmpty then _ else _) = _
  rw [if_neg (by simpa using h)]
  rfl

end Texts

/-! ## Every expression -/

theorem Readable.reads {level : Nat} {node : Node} (h : Readable level node) :
    ReadsAnywhere level node ∧ FieldsRead level node := by
  induction h with
  | var h => exact ⟨readsAnywhere (reads_variable h) (by simp), trivial⟩
  | @const name h hfree =>
    refine ⟨readsAnywhere ?_ (by simp), trivial⟩
    rw [chunk_const]
    exact reads_constant h hfree
  | @constIn scope name _ h ih =>
    obtain ⟨hname, hupper⟩ := Bool.and_eq_true_iff.mp h
    refine ⟨readsAnywhere ?_ (by simp), trivial⟩
    rw [chunk_constIn]
    exact (ih.1 16).scoped hname hupper
  | self =>
    have hself : Reads 16 "self" .self := reads_name (by decide) rfl
    exact ⟨readsAnywhere hself (by simp), trivial⟩
  | literal h => exact ⟨readsAnywhere (reads_literal h) (by simp), trivial⟩
  | @unary op operand _ hminus ih =>
    have hoperand : op = .neg →
        ∀ c ∈ (operandText op.precedence operand (operand.chunk level)).toList.head?,
          c.isDigit = false := by
      rintro rfl
      exact hminus rfl
    exact ⟨readsAnywhere ((ih.1 op.precedence).unary hoperand) (by simp), trivial⟩
  | @binary op lhs rhs _ _ ihl ihr =>
    have hbinary := (ihl.1 op.leftStrength).binary (ihr.1 op.rightStrength)
    exact ⟨readsAnywhere hbinary (by simp), trivial⟩
  | ternary _ _ _ ihc iht ihe =>
    exact ⟨readsAnywhere ((ihc.1 3).ternary (iht.1 2) (ihe.1 2)) (by simp), trivial⟩
  | assign _ htarget _ iht ihv =>
    exact ⟨readsAnywhere (Reads.assign htarget (iht.1 16) (ihv.1 1)) (by simp), trivial⟩
  | @call name args hname hfree _ ih =>
    have hargs := readsArguments (fun arg ha => (ih arg ha).1) fun arg ha => (ih arg ha).2
    refine ⟨readsAnywhere ?_ (by simp), trivial⟩
    rw [chunk_call, precedence_call]
    exact reads_call hname hfree hargs
  | @callOn receiver name args _ hname _ ihr iha =>
    have hargs := readsArguments (fun arg ha => (iha arg ha).1) fun arg ha => (iha arg ha).2
    refine ⟨readsAnywhere ?_ (by simp), trivial⟩
    rw [chunk_callOn, precedence_call]
    exact (ihr.1 16).call hname hargs
  | @member receiver name _ hname ih =>
    refine ⟨readsAnywhere ?_ (by simp), trivial⟩
    rw [chunk_member]
    exact (ih.1 16).member hname
  | @array items _ ih =>
    have hitems := forall₂_operandTexts fun item hi => (ih item hi).1
    exact ⟨readsAnywhere (reads_array hitems) (by simp), trivial⟩
  | @hash entries _ _ ihk ihv =>
    have hkeys := fun entry he => (ihk entry he).1
    have hvalues := fun entry he => (ihv entry he).1
    refine ⟨readsAnywhere ?_ (by simp), hkeys, hvalues⟩
    by_cases hne : entries = []
    · subst hne
      exact reads_emptyHash
    · rw [chunk_hash hne]
      exact Reads.hash (forall₂_hashTexts hkeys hvalues) hne
  | @group items hlength _ ih =>
    have hitems := forall₂_operandTexts fun item hi => (ih item hi).1
    exact ⟨readsAnywhere (reads_group hitems hlength) (by simp), trivial⟩

/-- In a place of any strength, the text of an expression reads back as that expression. -/
theorem operandText_reads_back {level : Nat} {node : Node} (h : Readable level node) (m : Nat) :
    read? (operandText m node (node.chunk level)) = some node :=
  (h.reads.1 m).resume_nil

def totalUpdate : Node :=
  .assign (.call (some .self) "total" [] none false)
    (.ternary
      (.binary .lt
        (.binary .sub (.var "a") (.binary .sub (.var "b") (.unary .neg (.var "c"))))
        (.binary .pow (.literal (.integer (-2))) (.literal (.integer 3))))
      (.call none "f" [.array [], .hash [(.symbol "k", .string "v\n")]] none true)
      (.group [.assign (.var "@d") .nil, .unary .not (.const (some (.const none "Ops")) "Add")]))

theorem readable_totalUpdate : Readable 0 totalUpdate := by
  have hhead : (operandText 13 (.var "c") ((Node.var "c").chunk 0)).toList.head? = some 'c' := by
    decide +kernel
  have hminus : Readable 0 (.unary .neg (.var "c")) := by
    refine .unary (.var (by decide +kernel)) fun _ c hc => ?_
    obtain rfl := Option.some.inj (hhead.symm.trans hc)
    decide
  have hdifference : Readable 0
      (.binary .sub (.var "a") (.binary .sub (.var "b") (.unary .neg (.var "c")))) :=
    .binary (.var (by decide +kernel)) (.binary (.var (by decide +kernel)) hminus)
  have hpower : Readable 0 (.binary .pow (.literal (.integer (-2))) (.literal (.integer 3))) :=
    .binary (.literal rfl) (.literal rfl)
  have hentry : ∀ entry ∈ [(Node.symbol "k", Node.string "v\n")],
      Readable 0 entry.1 ∧ Readable 0 entry.2 :=
    List.forall_mem_singleton.mpr ⟨.literal rfl, .literal rfl⟩
  have hargs : ∀ arg ∈ [Node.array [], .hash [(Node.symbol "k", Node.string "v\n")]],
      Readable 0 arg :=
    List.forall_mem_cons.mpr ⟨.array (by simp), List.forall_mem_singleton.mpr
      (.hash (fun entry he => (hentry entry he).1) fun entry he => (hentry entry he).2)⟩
  have hitems : ∀ item ∈ [Node.assign (.var "@d") .nil,
      .unary .not (.const (some (.const none "Ops")) "Add")], Readable 0 item :=
    List.forall_mem_cons.mpr ⟨.assign (.var (by decide +kernel)) rfl (.literal rfl),
      List.forall_mem_singleton.mpr (.unary
        (.constIn (.const (by decide +kernel) (by decide)) (by decide +kernel)) (by simp))⟩
  exact .assign (.member .self (by decide)) rfl
    (.ternary (.binary hdifference hpower) (.call (by decide) (by decide) hargs)
      (.group (by decide) hitems))

theorem totalUpdate_reads_back :
    operandText 2 totalUpdate (totalUpdate.chunk 0) =
        "(self.total = a - (b - -c) < (-2) ** 3 ? f([], :k => \"v\\n\") : " ++
          "(@d = nil; !Ops::Add))" ∧
      read? (operandText 2 totalUpdate (totalUpdate.chunk 0)) = some totalUpdate :=
  ⟨by decide +kernel, operandText_reads_back readable_totalUpdate 2⟩

end YcpToRuby.Ruby
