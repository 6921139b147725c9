import YcpToRuby.Text.Blank
import YcpToRuby.Ycp.Kind

/-!
# YCP programs

One form of node for each construct that the front end writes. A block is a header, which holds
what is declared there, and its statements.
-/

set_option autoImplicit false

namespace YcpToRuby.Ycp

structure QualifiedName where
  ns : Option String
  name : String
  deriving DecidableEq, Repr

structure Variable where
  name : QualifiedName
  category : Category
  type : Option String
  deriving DecidableEq, Repr

structure Symbol where
  isGlobal : Bool
  category : SymbolCategory
  type : String
  name : String
  deriving DecidableEq, Repr

def Symbol.isReference (symbol : Symbol) : Bool :=
  symbol.category == .reference || (Text.trimEnd symbol.type).toList.getLast? == some '&'

structure BlockInfo where
  kind : BlockKind
  name : Option String := none
  filename : Option String := none
  params : List Symbol := []
  symbols : List Symbol := []
  deriving DecidableEq, Repr

inductive LoopKind where
  | whileTrue
  | doWhile
  | repeatUntil
  deriving DecidableEq, Repr

def LoopKind.kind : LoopKind → Kind
  | whileTrue => .whileLoop
  | doWhile => .doLoop
  | repeatUntil => .repeatLoop

mutual

inductive Node where
  | const (type : ConstType) (value : Option String)
  | locale (text : String)
  | list (elements : List Node)
  | map (entries : List (Node × Node))
  | var (target : Variable)
  | assign (target : QualifiedName) (value : Node)
  /-- `target[index] = value` -/
  | bracket (target : Variable) (index value : Node)
  /-- `value[index]:fallback` -/
  | index (value index fallback : Node)
  | call (target : QualifiedName) (category : CallCategory) (type : Option String)
      (args : List Node)
  | builtin (name : String) (args : List Node) (closure : Option Closure)
  | compare (op : CompareOp) (lhs rhs : Node)
  | binary (op : BinaryOp) (lhs rhs : Node)
  | unary (op : UnaryOp) (operand : Node)
  | ternary (condition thenValue elseValue : Node)
  | isType (type : String) (operand : Node)
  | propagate (source target : String) (operand : Node)
  | reference (target : Variable)
  | returnExpr (params : List Symbol) (value : Node)
  | term (name : String) (args : List Node)
  | block (block : Block)
  | ifElse (condition : Node) (thenBody elseBody : Option Node)
  | loop (kind : LoopKind) (condition body : Node)
  | breakLoop
  | continueLoop
  | ret (value : Option Node)
  | switch (condition : Node) (cases : List (Node × Block)) (default : Option Block)
  | funDef (name : String) (params : List Symbol) (body : Block)
  | importModule (name : String)
  | includeFile (name : String) (skip : Bool)
  | textdomain (name : String)
  | typedef
  | filename (name : String)

inductive Block where
  | mk (info : BlockInfo) (statements : List Node)

inductive Closure where
  | block (block : Block)
  | value (params : List Symbol) (value : Node)

end

def Block.info : Block → BlockInfo
  | mk info _ => info

def Block.statements : Block → List Node
  | mk _ statements => statements

namespace Node

def kind : Node → Kind
  | const .. => .const
  | locale _ => .locale
  | list _ => .list
  | map _ => .map
  | var _ => .var
  | assign .. => .assign
  | bracket .. => .bracket
  | index .. => .index
  | call .. => .call
  | builtin .. => .builtin
  | compare .. => .compare
  | binary .. => .binary
  | unary .. => .unary
  | ternary .. => .ternary
  | isType .. => .isType
  | propagate .. => .propagate
  | reference _ => .reference
  | returnExpr .. => .returnExpr
  | term .. => .term
  | block _ => .block
  | ifElse .. => .ifElse
  | loop kind .. => kind.kind
  | breakLoop => .breakLoop
  | continueLoop => .continueLoop
  | ret _ => .ret
  | switch .. => .switch
  | funDef .. => .funDef
  | importModule _ => .importModule
  | includeFile .. => .includeFile
  | textdomain _ => .textdomain
  | typedef => .typedef
  | filename _ => .filename

def describe : Node → String
  | const .string (some value) => "\x22" ++ value ++ "\x22"
  | const .symbol (some value) => "\x60" ++ value
  | const _ (some value) => value
  | var ⟨⟨some ns, name⟩, _, _⟩ => ns ++ "::" ++ name
  | var ⟨⟨none, name⟩, _, _⟩ => name
  | node => node.kind.tag

end Node

end YcpToRuby.Ycp
