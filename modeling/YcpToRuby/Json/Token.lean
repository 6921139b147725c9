import YcpToRuby.Json.Value
import YcpToRuby.Number.Digits

/-!
# JSON tokens

A machine reads the text character by character. Its mode says what has been begun: nothing, a
word, a string literal or a number. A number ends at the first character that cannot continue it,
and that character is then read afresh.
-/

set_option autoImplicit false

namespace YcpToRuby.Json

inductive Token where
  | openBrace
  | closeBrace
  | openBracket
  | closeBracket
  | comma
  | colon
  | atom (value : Json)

inductive Fragment where
  | char (c : Char)
  | unit (n : Nat)

def isHighSurrogate (n : Nat) : Bool := 0xD800 ≤ n && n < 0xDC00

def isLowSurrogate (n : Nat) : Bool := 0xDC00 ≤ n && n < 0xE000

def surrogatePair (high low : Nat) : Char :=
  Char.ofNat (0x10000 + (high - 0xD800) * 0x400 + (low - 0xDC00))

def fragmentText? : List Fragment → Option (List Char)
  | [] => some []
  | .char c :: rest => (fragmentText? rest).map (c :: ·)
  | .unit high :: .unit low :: rest =>
    if isHighSurrogate high then
      if isLowSurrogate low then (fragmentText? rest).map (surrogatePair high low :: ·) else none
    else if isLowSurrogate high then none
    else (fragmentText? (.unit low :: rest)).map (Char.ofNat high :: ·)
  | .unit n :: rest =>
    if isHighSurrogate n || isLowSurrogate n then none
    else (fragmentText? rest).map (Char.ofNat n :: ·)

inductive NumberPart where
  | minus
  | zero
  | whole
  | point
  | fraction
  | mark
  | markSign
  | exponent

namespace NumberPart

def isComplete : NumberPart → Bool
  | zero | whole | fraction | exponent => true
  | _ => false

def continue? : NumberPart → Char → Option NumberPart
  | minus, c => if c == '0' then some zero else if c.isDigit then some whole else none
  | zero, c => fromWhole c
  | whole, c => if c.isDigit then some whole else fromWhole c
  | point, c => if c.isDigit then some fraction else none
  | fraction, c => if c.isDigit then some fraction else toMark c
  | mark, c =>
    if c == '+' || c == '-' then some markSign else if c.isDigit then some exponent else none
  | markSign, c => if c.isDigit then some exponent else none
  | exponent, c => if c.isDigit then some exponent else none
where
  toMark (c : Char) : Option NumberPart := if c == 'e' || c == 'E' then some mark else none
  fromWhole (c : Char) : Option NumberPart := if c == '.' then some point else toMark c

def begin? (c : Char) : Option NumberPart :=
  if c == '-' then some minus else continue? minus c

end NumberPart

inductive Mode where
  | ready
  | word (rest : List Char) (value : Json)
  | literal (read : List Fragment)
  | escape (read : List Fragment)
  | unicode (read : List Fragment) (digits : Nat) (value : Nat)
  | number (part : NumberPart) (read : List Char)

structure Lexer where
  mode : Mode := .ready
  tokens : List Token := []

def isBlank (c : Char) : Bool :=
  c == ' ' || c == '\t' || c == '\n' || c == '\r'

def punctuation? (c : Char) : Option Token :=
  match c with
  | '\x7b' => some .openBrace
  | '\x7d' => some .closeBrace
  | '[' => some .openBracket
  | ']' => some .closeBracket
  | ',' => some .comma
  | ':' => some .colon
  | _ => none

def escape? (c : Char) : Option Char :=
  match c with
  | '\x22' => some '\x22'
  | '\\' => some '\\'
  | '/' => some '/'
  | 'b' => some '\x08'
  | 'f' => some '\x0c'
  | 'n' => some '\n'
  | 'r' => some '\r'
  | 't' => some '\t'
  | _ => none

namespace Lexer

def emit (tokens : List Token) (token : Token) : Lexer :=
  ⟨.ready, token :: tokens⟩

def literalToken (read : List Fragment) : Token :=
  .atom (.string ((fragmentText? read.reverse).map String.ofList))

def numberToken (read : List Char) : Token :=
  .atom (.number (String.ofList read.reverse))

def start (tokens : List Token) (c : Char) : Option Lexer :=
  if isBlank c then some ⟨.ready, tokens⟩
  else
    match punctuation? c with
    | some token => some (emit tokens token)
    | none =>
      match c with
      | '\x22' => some ⟨.literal [], tokens⟩
      | 't' => some ⟨.word ['r', 'u', 'e'] (.bool true), tokens⟩
      | 'f' => some ⟨.word ['a', 'l', 's', 'e'] (.bool false), tokens⟩
      | 'n' => some ⟨.word ['u', 'l', 'l'] .null, tokens⟩
      | _ => (NumberPart.begin? c).map fun part => ⟨.number part [c], tokens⟩

def step : Lexer → Char → Option Lexer
  | ⟨.ready, tokens⟩, c => start tokens c
  | ⟨.word [expected] value, tokens⟩, c =>
    if c == expected then some (emit tokens (.atom value)) else none
  | ⟨.word (expected :: rest) value, tokens⟩, c =>
    if c == expected then some ⟨.word rest value, tokens⟩ else none
  | ⟨.word [] _, _⟩, _ => none
  | ⟨.literal read, tokens⟩, c =>
    if c == '\x22' then some (emit tokens (literalToken read))
    else if c == '\\' then some ⟨.escape read, tokens⟩
    else if c.toNat < 0x20 then none
    else some ⟨.literal (.char c :: read), tokens⟩
  | ⟨.escape read, tokens⟩, c =>
    if c == 'u' then some ⟨.unicode read 0 0, tokens⟩
    else (escape? c).map fun meaning => ⟨.literal (.char meaning :: read), tokens⟩
  | ⟨.unicode read digits value, tokens⟩, c =>
    (Number.hexValue? c).map fun digit =>
      if digits == 3 then ⟨.literal (.unit (16 * value + digit) :: read), tokens⟩
      else ⟨.unicode read (digits + 1) (16 * value + digit), tokens⟩
  | ⟨.number part read, tokens⟩, c =>
    match part.continue? c with
    | some next => some ⟨.number next (c :: read), tokens⟩
    | none => if part.isComplete then start (numberToken read :: tokens) c else none

def finish? : Lexer → Option (List Token)
  | ⟨.ready, tokens⟩ => some tokens.reverse
  | ⟨.number part read, tokens⟩ =>
    if part.isComplete then some (numberToken read :: tokens).reverse else none
  | _ => none

end Lexer

def tokens? (text : List Char) : Option (List Token) :=
  (text.foldlM Lexer.step {}).bind Lexer.finish?

end YcpToRuby.Json
