import YcpToRuby.Number.Binary64
import YcpToRuby.Ruby.Operator

/-!
# Ruby trees

The part of Ruby that is generated. Statements and expressions share one type, because Ruby does
not tell them apart. Absent entries of a sequence leave nothing in the text.
-/

set_option autoImplicit false

namespace YcpToRuby.Ruby

inductive Literal where
  | nil
  | bool (value : Bool)
  | integer (value : Int)
  | float (value : Number.Binary64)
  | symbol (name : String)
  | string (text : String)
  deriving DecidableEq, Repr

inductive LoopKind where
  | whileTrue
  | untilTrue
  deriving DecidableEq, Repr

inductive Node where
  | program (body : Node)
  | classDef (name : String) (superclass : Option Node) (body : Node)
  | moduleDef (name : String) (body : Node)
  | methodDef (name : String) (params : List String) (body : Node)
  | sequence (entries : List (Option Node))
  | beginEnd (body : Node)
  | ifElse (condition thenBody : Node) (elseBody : Option Node)
  | unlessElse (condition thenBody : Node) (elseBody : Option Node)
  | caseWhen (subject : Node) (clauses : List (List Node × Node)) (elseBody : Option Node)
  | loop (kind : LoopKind) (condition body : Node)
  | breakLoop
  | next (value : Option Node)
  | ret (value : Option Node)
  | group (items : List Node)
  | assign (target value : Node)
  | unary (op : UnaryOp) (operand : Node)
  | binary (op : BinaryOp) (lhs rhs : Node)
  | ternary (condition thenValue elseValue : Node)
  | call (receiver : Option Node) (name : String) (args : List Node) (block : Option Node)
      (parens : Bool)
  | block (params : List String) (body : Node)
  | const (scope : Option Node) (name : String)
  | var (name : String)
  | self
  | literal (value : Literal)
  | array (items : List Node)
  | hash (entries : List (Node × Node))
  deriving Repr

namespace Node

def nil : Node := literal .nil

def symbol (name : String) : Node := literal (.symbol name)

def string (text : String) : Node := literal (.string text)

def statements (nodes : List Node) : Node := sequence (nodes.map some)

def constant (name : String) : Node := const none name

def invoke (receiver : Option Node) (name : String) (args : List Node) : Node :=
  call receiver name args none true

def command (receiver : Option Node) (name : String) (args : List Node) : Node :=
  call receiver name args none false

def withBlock : Node → Node → Node
  | call receiver name args _ parens, attached => call receiver name args (some attached) parens
  | node, _ => node

def isStatement : Node → Bool
  | program _ | classDef .. | moduleDef .. | methodDef .. | sequence _ | beginEnd _ | ifElse ..
  | unlessElse .. | caseWhen .. | loop .. => true
  | _ => false

end Node

def Literal.isNegative : Literal → Bool
  | integer value => value < 0
  | float value => value.isNegative
  | _ => false

/-- Binding strength of a node as an operand; 16 is atomic. A negative number binds like a unary
minus, and a call with bare arguments binds loosest. -/
def Node.precedence : Node → Nat
  | unary op _ => op.precedence
  | binary op _ _ => op.precedence
  | ternary .. => 2
  | assign .. => 1
  | call _ _ (_ :: _) none false => 0
  | literal value => if value.isNegative then 13 else 16
  | breakLoop | next _ | ret _ => 0
  | node => if node.isStatement then 0 else 16

end YcpToRuby.Ruby
