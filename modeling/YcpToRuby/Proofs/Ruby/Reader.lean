import YcpToRuby.Proofs.Ruby.Token
import YcpToRuby.Ruby.Node
import YcpToRuby.Ruby.Reserved
import YcpToRuby.Text.Uppercase

/-!
# Reading an expression

Expressions are read by operator precedence: a stack holds what is still open, and an operator that
follows an expression is compared with the one on top of the stack by their rows in the operator
table. A minus in front of a number belongs to the number, unless `**` follows, which binds tighter.
-/

set_option autoImplicit false

namespace YcpToRuby.Ruby

/-! ## The operator table -/

inductive Operator where
  | unary (op : UnaryOp)
  | binary (op : BinaryOp)
  | conditional
  | assign
  deriving DecidableEq

inductive Associativity where
  | left
  | right
  | neither

def operatorTable : List (List Operator × Associativity) := [
  ([.unary .not, .unary .bitNot], .right),
  ([.binary .pow], .right),
  ([.unary .neg], .right),
  ([.binary .mul, .binary .div, .binary .mod], .left),
  ([.binary .add, .binary .sub], .left),
  ([.binary .shl, .binary .shr], .left),
  ([.binary .bitAnd], .left),
  ([.binary .bitOr, .binary .bitXor], .left),
  ([.binary .lt, .binary .gt, .binary .le, .binary .ge], .neither),
  ([.binary .eq, .binary .ne], .neither),
  ([.binary .and], .left),
  ([.binary .or], .left),
  ([.conditional], .right),
  ([.assign], .right)]

namespace Operator

def row (op : Operator) : Nat :=
  operatorTable.findIdx fun row => row.1.contains op

def associativity (op : Operator) : Associativity :=
  match operatorTable[op.row]? with
  | some row => row.2
  | none => .neither

end Operator

inductive Action where
  | reduce
  | shift
  | reject
  deriving DecidableEq

def meet (pending next : Operator) : Action :=
  if pending.row < next.row then .reduce
  else if next.row < pending.row then .shift
  else
    match next.associativity with
    | .left => .reduce
    | .right => .shift
    | .neither => .reject

def Token.meet : Token → Operator → Action
  | .binary op, pending => Ruby.meet pending (.binary op)
  | .question, pending => Ruby.meet pending .conditional
  | .assign, pending => Ruby.meet pending .assign
  | .dot, _ | .scope, _ => .shift
  | _, _ => .reduce

/-! ## What is open -/

inductive Bracket where
  | group
  | array
  | call (receiver : Option Node) (name : String)

namespace Bracket

def separator : Bracket → Token
  | group => .semicolon
  | array | call .. => .comma

def closer : Bracket → Token
  | array => .closeBracket
  | group | call .. => .closeParen

def node : Bracket → List Node → Node
  | group, [item] => item
  | group, items => .group items
  | array, items => .array items
  | call receiver name, args => .call receiver name args none true

end Bracket

inductive Pending where
  | unary (op : UnaryOp)
  | binary (op : BinaryOp) (lhs : Node)
  | choice (condition : Node)
  | alternative (condition thenValue : Node)
  | assign (target : Node)
  | list (bracket : Bracket) (items : List Node)
  | fields (braced : Bool) (entries : List (Node × Node)) (key : Option Node)

namespace Pending

def operator? : Pending → Option Operator
  | unary op => some (.unary op)
  | binary op _ => some (.binary op)
  | alternative .. => some .conditional
  | assign _ => some .assign
  | choice _ | list .. | fields .. => none

def apply : Pending → Node → Node
  | unary op, operand => .unary op operand
  | binary op lhs, rhs => .binary op lhs rhs
  | alternative condition thenValue, elseValue => .ternary condition thenValue elseValue
  | assign target, value => .assign target value
  | choice _, node | list .., node | fields .., node => node

end Pending

inductive Stage where
  | operand
  | member (receiver : Node)
  | scope (node : Node)
  | negative (n : Nat)
  | value (node : Node)

structure Assembly where
  stack : List Pending := []
  stage : Stage := .operand

def isVarOrAccessor : Node → Bool
  | .var _ => true
  | .call (some _) _ [] none false => true
  | _ => false

def startsUppercase (name : String) : Bool :=
  name.toList.head?.any Text.isUppercase

def nameNode? (name : String) : Option Node :=
  if name = "self" then some .self
  else if name = "nil" then some (.literal .nil)
  else if name = "true" then some (.literal (.bool true))
  else if name = "false" then some (.literal (.bool false))
  else if isReserved name then none
  else if startsUppercase name then some (.const none name)
  else some (.var name)

namespace Assembly

def settle (act : Operator → Action) : List Pending → Node → Option (List Pending × Node)
  | [], node => some ([], node)
  | pending :: stack, node =>
    match pending.operator? with
    | none => some (pending :: stack, node)
    | some op =>
      match act op with
      | .reduce => settle act stack (pending.apply node)
      | .shift => some (pending :: stack, node)
      | .reject => none

def begin? (stack : List Pending) : Token → Option Assembly
  | .name text => (nameNode? text).map fun node => ⟨stack, .value node⟩
  | .invoke name =>
    if isReserved name then none else some ⟨.list (.call none name) [] :: stack, .operand⟩
  | .integer n =>
    match stack with
    | .unary .neg :: rest => some ⟨rest, .negative n⟩
    | _ => some ⟨stack, .value (.literal (.integer n))⟩
  | .string text => some ⟨stack, .value (.literal (.string text))⟩
  | .symbol name => some ⟨stack, .value (.literal (.symbol name))⟩
  | .binary .sub => some ⟨.unary .neg :: stack, .operand⟩
  | .unary op => some ⟨.unary op :: stack, .operand⟩
  | .openParen => some ⟨.list .group [] :: stack, .operand⟩
  | .openBracket => some ⟨.list .array [] :: stack, .operand⟩
  | .openBrace => some ⟨.fields true [] none :: stack, .operand⟩
  | .closeBracket =>
    match stack with
    | .list .array [] :: rest => some ⟨rest, .value (.array [])⟩
    | _ => none
  | .closeParen =>
    match stack with
    | .list (.call receiver name) [] :: rest =>
      some ⟨rest, .value (.call receiver name [] none true)⟩
    | _ => none
  | .closeBrace =>
    match stack with
    | .fields true [] none :: rest => some ⟨rest, .value (.hash [])⟩
    | _ => none
  | _ => none

def close? (stack : List Pending) (node : Node) (token : Token) : Option Assembly :=
  match stack with
  | .list bracket items :: rest =>
    if token = bracket.separator then some ⟨.list bracket (node :: items) :: rest, .operand⟩
    else if token = bracket.closer then
      some ⟨rest, .value (bracket.node (node :: items).reverse)⟩
    else none
  | .fields braced entries (some key) :: rest =>
    if token = .comma then some ⟨.fields braced ((key, node) :: entries) none :: rest, .operand⟩
    else
      let hash := Node.hash ((key, node) :: entries).reverse
      match braced, token, rest with
      | true, .closeBrace, rest => some ⟨rest, .value hash⟩
      | false, .closeParen, .list (.call receiver name) args :: rest =>
        some ⟨rest, .value (.call receiver name (hash :: args).reverse none true)⟩
      | _, _, _ => none
  | _ => none

def continue? (stack : List Pending) (node : Node) : Token → Option Assembly
  | .binary op => some ⟨.binary op node :: stack, .operand⟩
  | .question => some ⟨.choice node :: stack, .operand⟩
  | .assign => if isVarOrAccessor node then some ⟨.assign node :: stack, .operand⟩ else none
  | .dot => some ⟨stack, .member node⟩
  | .scope => some ⟨stack, .scope node⟩
  | .colon =>
    match stack with
    | .choice condition :: rest => some ⟨.alternative condition node :: rest, .operand⟩
    | _ => none
  | .arrow =>
    match stack with
    | .fields braced entries none :: rest =>
      some ⟨.fields braced entries (some node) :: rest, .operand⟩
    | .list (.call receiver name) args :: rest =>
      some ⟨.fields false [] (some node) :: .list (.call receiver name) args :: rest, .operand⟩
    | _ => none
  | token => close? stack node token

def follow? (stack : List Pending) (node : Node) (token : Token) : Option Assembly :=
  (settle token.meet stack node).bind fun (stack, node) => continue? stack node token

def step : Assembly → Token → Option Assembly
  | ⟨stack, .operand⟩, token => begin? stack token
  | ⟨stack, .member receiver⟩, .name name =>
    some ⟨stack, .value (.call (some receiver) name [] none false)⟩
  | ⟨stack, .member receiver⟩, .invoke name =>
    some ⟨.list (.call (some receiver) name) [] :: stack, .operand⟩
  | ⟨stack, .scope node⟩, .name name =>
    if startsUppercase name then some ⟨stack, .value (.const (some node) name)⟩ else none
  | ⟨stack, .negative n⟩, .binary .pow =>
    follow? (.unary .neg :: stack) (.literal (.integer n)) (.binary .pow)
  | ⟨stack, .negative n⟩, token => follow? stack (.literal (.integer (-n))) token
  | ⟨stack, .value node⟩, token => follow? stack node token
  | _, _ => none

def finish? : Assembly → Option Node
  | ⟨stack, .negative n⟩ => ended stack (.literal (.integer (-n)))
  | ⟨stack, .value node⟩ => ended stack node
  | _ => none
where
  ended (stack : List Pending) (node : Node) : Option Node :=
    match settle (fun _ => .reduce) stack node with
    | some ([], node) => some node
    | _ => none

def resume (s : Assembly) (cs : List Char) : Option Node :=
  (tokens? cs).bind fun tokens => (tokens.foldlM step s).bind finish?

end Assembly

def read? (text : String) : Option Node :=
  Assembly.resume {} text.toList

/-! ## Rows and binding strengths -/

def Operator.strength : Operator → Nat
  | unary op => op.precedence
  | binary op => op.precedence
  | conditional => 2
  | assign => 1

/-- The table has the operators in the order of their binding strength. -/
theorem row_eq (op : Operator) :
    op.row = if op.strength ≤ 2 then 14 - op.strength else 15 - op.strength := by
  cases op with
  | unary op => cases op <;> rfl
  | binary op => cases op <;> rfl
  | conditional => rfl
  | assign => rfl

theorem strength_le (op : Operator) : 1 ≤ op.strength ∧ op.strength ≤ 15 ∧ op.strength ≠ 3 := by
  cases op with
  | unary op => cases op <;> decide
  | binary op => cases op <;> decide
  | conditional => decide
  | assign => decide

theorem row_lt_row (a b : Operator) : a.row < b.row ↔ b.strength < a.strength := by
  have ha := strength_le a
  have hb := strength_le b
  rw [row_eq, row_eq]
  split <;> split <;> omega

theorem meet_eq_reduce {pending next : Operator} (h : next.strength < pending.strength) :
    meet pending next = .reduce := by
  rw [meet, if_pos ((row_lt_row _ _).mpr h)]

theorem meet_eq_shift {pending next : Operator} (h : pending.strength < next.strength) :
    meet pending next = .shift := by
  have hnot : ¬ pending.row < next.row := by
    rw [row_lt_row]
    omega
  rw [meet, if_neg hnot, if_pos ((row_lt_row _ _).mpr h)]

theorem meet_of_strength_eq {pending next : Operator} (h : pending.strength = next.strength) :
    meet pending next = match next.associativity with
      | .left => .reduce
      | .right => .shift
      | .neither => .reject := by
  have hlt : ¬ pending.row < next.row := by
    rw [row_lt_row]
    omega
  have hgt : ¬ next.row < pending.row := by
    rw [row_lt_row]
    omega
  rw [meet, if_neg hlt, if_neg hgt]

theorem associativity_binary (op : BinaryOp) :
    (Operator.binary op).associativity =
      if op.isNonAssociative then .neither else if op == .pow then .right else .left := by
  cases op <;> rfl

def Pending.demand : Pending → Nat
  | unary op => op.precedence
  | binary op _ => op.rightStrength
  | alternative .. => 2
  | assign _ => 1
  | choice _ | list .. | fields .. => 0

def Token.level : Token → Nat
  | .binary op => op.leftStrength
  | .question => 3
  | .assign | .dot | .scope => 16
  | _ => 0

def Token.joins? : Token → Option Nat
  | .binary op => some op.precedence
  | .question => some 2
  | .assign => some 1
  | .dot | .scope => some 16
  | _ => none

theorem Token.meet_eq_reduce {op : Operator} {token : Token} (h : token.level ≤ op.strength) :
    token.meet op = .reduce := by
  have hop := strength_le op
  cases token with
  | binary next =>
    have hnext : (Operator.binary next).strength = next.precedence := rfl
    simp only [Token.level, BinaryOp.leftStrength] at h
    by_cases hlt : next.precedence < op.strength
    · exact Ruby.meet_eq_reduce hlt
    · cases hassoc : (next.isNonAssociative || next == .pow) with
      | true =>
        rw [if_pos hassoc] at h
        omega
      | false =>
        rw [if_neg (by simp [hassoc])] at h
        obtain ⟨hfree, hpow⟩ := Bool.or_eq_false_iff.mp hassoc
        rw [Token.meet, meet_of_strength_eq (by omega), associativity_binary]
        simp [hfree, hpow]
  | question => exact Ruby.meet_eq_reduce h
  | assign =>
    simp only [Token.level] at h
    omega
  | dot =>
    simp only [Token.level] at h
    omega
  | scope =>
    simp only [Token.level] at h
    omega
  | _ => rfl

theorem associativity_of_strength_eq {a b : Operator} (h : a.strength = b.strength) :
    a.associativity = b.associativity := by
  have hrow : a.row = b.row := by
    rw [row_eq, row_eq, h]
  rw [Operator.associativity, Operator.associativity, hrow]

/-- An open place that accepts the strength of its own operator belongs to one that groups to the
right. -/
theorem demand_cases {pending : Pending} {op : Operator} (hop : pending.operator? = some op) :
    op.strength < pending.demand ∨ op.strength = pending.demand ∧ op.associativity = .right := by
  cases pending with
  | unary u =>
    obtain rfl := Option.some.inj hop
    exact Or.inr ⟨rfl, by cases u <;> rfl⟩
  | binary o lhs =>
    obtain rfl := Option.some.inj hop
    by_cases hpow : o = .pow
    · subst hpow
      exact Or.inr ⟨rfl, rfl⟩
    · exact Or.inl (by simp [Operator.strength, Pending.demand, BinaryOp.rightStrength, hpow])
  | alternative condition thenValue =>
    obtain rfl := Option.some.inj hop
    exact Or.inr ⟨rfl, rfl⟩
  | assign target =>
    obtain rfl := Option.some.inj hop
    exact Or.inr ⟨rfl, rfl⟩
  | choice condition => cases hop
  | list bracket items => cases hop
  | fields braced entries key => cases hop

theorem meet_of_demand_le {pending : Pending} {op next : Operator}
    (hop : pending.operator? = some op) (h : pending.demand ≤ next.strength) :
    meet op next = .shift := by
  rcases demand_cases hop with hlt | ⟨heq, hright⟩
  · exact meet_eq_shift (by omega)
  · rcases Nat.lt_or_eq_of_le (heq ▸ h) with hlt | heq
    · exact meet_eq_shift hlt
    · rw [meet_of_strength_eq heq, ← associativity_of_strength_eq heq, hright]

theorem Token.meet_eq_shift {pending : Pending} {op : Operator} {strength : Nat} {token : Token}
    (hop : pending.operator? = some op) (htoken : token.joins? = some strength)
    (hdemand : pending.demand ≤ strength) : token.meet op = .shift := by
  cases token with
  | binary next =>
    obtain rfl := Option.some.inj htoken
    exact meet_of_demand_le hop hdemand
  | question =>
    obtain rfl := Option.some.inj htoken
    exact meet_of_demand_le hop hdemand
  | assign =>
    obtain rfl := Option.some.inj htoken
    exact meet_of_demand_le hop hdemand
  | dot => rfl
  | scope => rfl
  | _ => cases htoken

end YcpToRuby.Ruby
