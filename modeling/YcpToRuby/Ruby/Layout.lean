import YcpToRuby.Number.Shortest
import YcpToRuby.Ruby.Node
import YcpToRuby.Ruby.Quoted

/-!
# Ruby trees as text

Two spaces for each level of indentation; parentheses where an operand binds looser than its place
allows; one blank line around definitions.

`Node.chunk` is the text of a node at a level. For a sequence it is whole lines, each indented and
ended; for any other node it is text that starts where the caller stands and has no last newline.
`inlineText` and `linesText` turn a chunk into either form.
-/

set_option autoImplicit false

namespace YcpToRuby.Ruby

def floatNotation : Number.Notation := ⟨-3, 16, .up, false⟩

def floatText : Number.Binary64 → String
  | .finite negative significand exponent => floatNotation.write negative significand exponent
  | .infinite negative => if negative then "-inf" else "inf"
  | .nan _ => "NaN"

def Literal.text : Literal → String
  | nil => "nil"
  | bool value => if value then "true" else "false"
  | integer value => toString value
  | float value => floatText value
  | symbol name => symbolText name
  | string text => quoted text

def indent (level : Nat) : String :=
  String.ofList (List.replicate (2 * level) ' ')

def trimmedLines (text : String) : String :=
  String.ofList (Text.dropTail (· == '\n') (text.toList.dropWhile (· == ' ')))

def inlineText (node : Node) (chunk : String) : String :=
  match node with
  | .sequence _ => trimmedLines chunk
  | _ => chunk

def linesText (level : Nat) (node : Node) (chunk : String) : String :=
  match node with
  | .sequence _ => chunk
  | _ => indent level ++ chunk ++ "\n"

def operandText (strength : Nat) (node : Node) (chunk : String) : String :=
  if node.precedence < strength then "(" ++ inlineText node chunk ++ ")"
  else inlineText node chunk

def isSpaced : Node → Bool
  | .methodDef .. | .classDef .. | .moduleDef .. => true
  | _ => false

def entryLines (level : Nat) : List (Node × String) → String
  | [] => ""
  | [(node, chunk)] => indent level ++ inlineText node chunk ++ "\n"
  | (node, chunk) :: (next, nextChunk) :: rest =>
    indent level ++ inlineText node chunk ++ "\n" ++
      (if isSpaced node || isSpaced next then "\n" else "") ++
      entryLines level ((next, nextChunk) :: rest)

def fitsOnLine (entries : List (Option Node)) : Bool :=
  match entries.filterMap id with
  | [] => true
  | [node] => !node.isStatement
  | _ => false

def commaSeparated (items : List String) : String :=
  ", ".intercalate items

def paramList (params : List String) : String :=
  if params.isEmpty then "" else "(" ++ commaSeparated params ++ ")"

def blockParams (params : List String) : String :=
  if params.isEmpty then "" else " |" ++ commaSeparated params ++ "|"

def startsCapital (name : String) : Bool :=
  match name.toList with
  | c :: _ => c.isUpper
  | [] => false

/-- The arguments of a call with what surrounds them. Without arguments, a bare capitalized name
needs parentheses so that it is not read as a constant. -/
def argumentList (receiver : Option Node) (name : String) (block : Option Node) (parens : Bool)
    (args : List String) : String :=
  if args.isEmpty then
    if parens || (receiver.isNone && startsCapital name) then "()" else ""
  else if parens || block.isSome then "(" ++ commaSeparated args ++ ")"
  else " " ++ commaSeparated args

def LoopKind.word : LoopKind → String
  | whileTrue => "while"
  | untilTrue => "until"

mutual

def Node.chunk (level : Nat) : Node → String
  | .program body => "# encoding: utf-8\n\n" ++ linesText level body (body.chunk level)
  | .classDef name superclass body =>
    "class " ++ name ++ optionalOperand level " < " 16 superclass "" ++ "\n" ++
      linesText (level + 1) body (body.chunk (level + 1)) ++ indent level ++ "end"
  | .moduleDef name body =>
    "module " ++ name ++ "\n" ++ linesText (level + 1) body (body.chunk (level + 1)) ++
      indent level ++ "end"
  | .methodDef name params body =>
    "def " ++ name ++ paramList params ++ "\n" ++
      linesText (level + 1) body (body.chunk (level + 1)) ++ indent level ++ "end"
  | .sequence entries => entryLines level (entryChunks level entries)
  | .beginEnd body =>
    "begin\n" ++ linesText (level + 1) body (body.chunk (level + 1)) ++ indent level ++ "end"
  | .ifElse condition thenBody elseBody =>
    "if " ++ operandText 1 condition (condition.chunk level) ++ "\n" ++
      linesText (level + 1) thenBody (thenBody.chunk (level + 1)) ++ elseChain level elseBody ++
      indent level ++ "end"
  | .unlessElse condition thenBody elseBody =>
    "unless " ++ operandText 1 condition (condition.chunk level) ++ "\n" ++
      linesText (level + 1) thenBody (thenBody.chunk (level + 1)) ++ elseLines level elseBody ++
      indent level ++ "end"
  | .caseWhen subject clauses elseBody =>
    "case " ++ operandText 1 subject (subject.chunk level) ++ "\n" ++ clauseLines level clauses ++
      elseLines level elseBody ++ indent level ++ "end"
  | .loop kind condition (.beginEnd body) =>
    "begin\n" ++ linesText (level + 1) body (body.chunk (level + 1)) ++ indent level ++ "end " ++
      kind.word ++ " " ++ operandText 1 condition (condition.chunk level)
  | .loop kind condition body =>
    kind.word ++ " " ++ operandText 1 condition (condition.chunk level) ++ "\n" ++
      linesText (level + 1) body (body.chunk (level + 1)) ++ indent level ++ "end"
  | .breakLoop => "break"
  | .next value => "next" ++ optionalOperand level " " 1 value ""
  | .ret value => "return" ++ optionalOperand level " " 1 value ""
  | .group items => "(" ++ "; ".intercalate (operandTexts level items) ++ ")"
  | .assign target value =>
    operandText 16 target (target.chunk level) ++ " = " ++ operandText 1 value (value.chunk level)
  | .unary op operand => op.symbol ++ operandText op.precedence operand (operand.chunk level)
  | .binary op lhs rhs =>
    operandText op.leftStrength lhs (lhs.chunk level) ++ " " ++ op.symbol ++ " " ++
      operandText op.rightStrength rhs (rhs.chunk level)
  | .ternary condition thenValue elseValue =>
    operandText 3 condition (condition.chunk level) ++ " ? " ++
      operandText 2 thenValue (thenValue.chunk level) ++ " : " ++
      operandText 2 elseValue (elseValue.chunk level)
  | .call receiver name args block parens =>
    optionalOperand level "" 16 receiver "." ++ name ++
      argumentList receiver name block parens (argumentTexts level args) ++
      optionalOperand level " " 16 block ""
  | .block params (.sequence entries) =>
    "\x7b" ++ blockParams params ++
      if fitsOnLine entries then
        String.join ((entryChunks level entries).map fun (node, chunk) =>
          " " ++ inlineText node chunk) ++ " \x7d"
      else
        "\n" ++ entryLines (level + 1) (entryChunks (level + 1) entries) ++ indent level ++ "\x7d"
  | .block params body =>
    "\x7b" ++ blockParams params ++
      if body.isStatement then
        "\n" ++ linesText (level + 1) body (body.chunk (level + 1)) ++ indent level ++ "\x7d"
      else " " ++ body.chunk level ++ " \x7d"
  | .const scope name => optionalOperand level "" 16 scope "::" ++ name
  | .var name => name
  | .self => "self"
  | .literal value => value.text
  | .array items => "[" ++ commaSeparated (operandTexts level items) ++ "]"
  | .hash entries =>
    if entries.isEmpty then "\x7b\x7d"
    else "\x7b " ++ commaSeparated (hashTexts level entries) ++ " \x7d"

def optionalOperand (level : Nat) (before : String) (strength : Nat) :
    Option Node → String → String
  | none, _ => ""
  | some node, after => before ++ operandText strength node (node.chunk level) ++ after

def entryChunks (level : Nat) : List (Option Node) → List (Node × String)
  | [] => []
  | none :: rest => entryChunks level rest
  | some node :: rest => (node, node.chunk level) :: entryChunks level rest

def operandTexts (level : Nat) : List Node → List String
  | [] => []
  | node :: rest => operandText 1 node (node.chunk level) :: operandTexts level rest

def hashTexts (level : Nat) : List (Node × Node) → List String
  | [] => []
  | (key, value) :: rest =>
    (operandText 1 key (key.chunk level) ++ " => " ++ operandText 1 value (value.chunk level)) ::
      hashTexts level rest

def argumentTexts (level : Nat) : List Node → List String
  | [] => []
  | [.hash entries] => if entries.isEmpty then ["\x7b\x7d"] else hashTexts level entries
  | node :: rest => operandText 1 node (node.chunk level) :: argumentTexts level rest

def clauseLines (level : Nat) : List (List Node × Node) → String
  | [] => ""
  | (values, body) :: rest =>
    indent level ++ "when " ++ commaSeparated (operandTexts level values) ++ "\n" ++
      linesText (level + 1) body (body.chunk (level + 1)) ++ clauseLines level rest

def elseLines (level : Nat) : Option Node → String
  | none => ""
  | some body =>
    indent level ++ "else\n" ++ linesText (level + 1) body (body.chunk (level + 1))

def elseChain (level : Nat) : Option Node → String
  | none => ""
  | some (.ifElse condition thenBody elseBody) =>
    indent level ++ "elsif " ++ operandText 1 condition (condition.chunk level) ++ "\n" ++
      linesText (level + 1) thenBody (thenBody.chunk (level + 1)) ++ elseChain level elseBody
  | some body =>
    indent level ++ "else\n" ++ linesText (level + 1) body (body.chunk (level + 1))

end

def Node.inline (level : Nat) (node : Node) : String :=
  inlineText node (node.chunk level)

def Node.lines (level : Nat) (node : Node) : String :=
  linesText level node (node.chunk level)

def Node.emit (node : Node) : String :=
  match node with
  | .program _ => node.inline 0
  | _ => node.inline 0 ++ "\n"

end YcpToRuby.Ruby
