/-!
# Kinds of YCP nodes and the tags of their attributes

The front end spells kinds and enumerated attributes as texts. Each enumeration has a table of its
members and a `tag` for each, and is read back by looking for the tag in the table.
-/

set_option autoImplicit false

namespace YcpToRuby.Ycp

inductive Kind where
  | const
  | locale
  | list
  | map
  | var
  | entry
  | assign
  | bracket
  | index
  | call
  | builtin
  | compare
  | binary
  | unary
  | ternary
  | isType
  | propagate
  | reference
  | returnExpr
  | term
  | block
  | ifElse
  | whileLoop
  | doLoop
  | repeatLoop
  | breakLoop
  | continueLoop
  | ret
  | switch
  | funDef
  | importModule
  | includeFile
  | textdomain
  | typedef
  | filename
  deriving DecidableEq, Repr

namespace Kind

def tag : Kind → String
  | const => "const"
  | locale => "locale"
  | list => "list"
  | map => "map"
  | var => "variable"
  | entry => "entry"
  | assign => "assign"
  | bracket => "bracket"
  | index => "yebracket"
  | call => "call"
  | builtin => "builtin"
  | compare => "compare"
  | binary => "yebinary"
  | unary => "yeunary"
  | ternary => "yetriple"
  | isType => "yeis"
  | propagate => "yepropagate"
  | reference => "yereference"
  | returnExpr => "yereturn"
  | term => "yeterm"
  | block => "block"
  | ifElse => "if"
  | whileLoop => "while"
  | doLoop => "do"
  | repeatLoop => "repeat"
  | breakLoop => "break"
  | continueLoop => "continue"
  | ret => "return"
  | switch => "switch"
  | funDef => "fun_def"
  | importModule => "import"
  | includeFile => "include"
  | textdomain => "textdomain"
  | typedef => "typedef"
  | filename => "filename"

def all : List Kind :=
  [const, locale, list, map, var, entry, assign, bracket, index, call, builtin, compare,
    binary, unary, ternary, isType, propagate, reference, returnExpr, term, block, ifElse,
    whileLoop, doLoop, repeatLoop, breakLoop, continueLoop, ret, switch, funDef, importModule,
    includeFile, textdomain, typedef, filename]

def ofTag? (text : String) : Option Kind :=
  all.find? fun kind => kind.tag == text

end Kind

inductive ConstType where
  | void
  | bool
  | int
  | float
  | symbol
  | string
  | path
  deriving DecidableEq, Repr

def ConstType.tag : ConstType → String
  | void => "void"
  | bool => "bool"
  | int => "int"
  | float => "float"
  | symbol => "symbol"
  | string => "string"
  | path => "path"

def ConstType.all : List ConstType := [void, bool, int, float, symbol, string, path]

inductive Category where
  | var
  | reference
  | function
  deriving DecidableEq, Repr

def Category.tag : Category → String
  | var => "variable"
  | reference => "reference"
  | function => "function"

def Category.all : List Category := [var, reference, function]

inductive CallCategory where
  | function
  | var
  deriving DecidableEq, Repr

def CallCategory.tag : CallCategory → String
  | function => "function"
  | var => "variable"

def CallCategory.all : List CallCategory := [function, var]

inductive SymbolCategory where
  | var
  | reference
  | function
  | filename
  deriving DecidableEq, Repr

def SymbolCategory.tag : SymbolCategory → String
  | var => "variable"
  | reference => "reference"
  | function => "function"
  | filename => "filename"

def SymbolCategory.all : List SymbolCategory := [var, reference, function, filename]

inductive BlockKind where
  | stmt
  | function
  | unspec
  | module
  | file
  deriving DecidableEq, Repr

def BlockKind.tag : BlockKind → String
  | stmt => "stmt"
  | function => "def"
  | unspec => "unspec"
  | module => "module"
  | file => "file"

def BlockKind.all : List BlockKind := [stmt, function, unspec, module, file]

inductive CompareOp where
  | eq
  | ne
  | lt
  | gt
  | le
  | ge
  deriving DecidableEq, Repr

def CompareOp.tag : CompareOp → String
  | eq => "=="
  | ne => "!="
  | lt => "<"
  | gt => ">"
  | le => "<="
  | ge => ">="

def CompareOp.all : List CompareOp := [eq, ne, lt, gt, le, ge]

inductive BinaryOp where
  | add
  | sub
  | mul
  | div
  | mod
  | bitAnd
  | bitOr
  | bitXor
  | shl
  | shr
  | and
  | or
  deriving DecidableEq, Repr

def BinaryOp.tag : BinaryOp → String
  | add => "+"
  | sub => "-"
  | mul => "*"
  | div => "/"
  | mod => "%"
  | bitAnd => "&"
  | bitOr => "|"
  | bitXor => "^"
  | shl => "<<"
  | shr => ">>"
  | and => "&&"
  | or => "||"

def BinaryOp.all : List BinaryOp :=
  [add, sub, mul, div, mod, bitAnd, bitOr, bitXor, shl, shr, and, or]

inductive UnaryOp where
  | not
  | neg
  | bitNot
  deriving DecidableEq, Repr

def UnaryOp.tag : UnaryOp → String
  | not => "!"
  | neg => "-"
  | bitNot => "~"

def UnaryOp.all : List UnaryOp := [not, neg, bitNot]

end YcpToRuby.Ycp
