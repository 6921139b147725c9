import YcpToRuby.Text.Blank

/-!
# Double-quoted literals and symbols

A quoted text escapes the quote, the backslash, control characters and a `#` that would start an
interpolation. A symbol is written bare when it is an identifier with at most one `?` or `!` after
it.
-/

set_option autoImplicit false

namespace YcpToRuby.Ruby

def isControl (c : Char) : Bool :=
  c.toNat < 0x20 || (0x7F ≤ c.toNat && c.toNat < 0xA0)

def startsInterpolation : Option Char → Bool
  | some c => c == '\x7b' || c == '$' || c == '@'
  | none => false

def quotedChar (c : Char) (next : Option Char) : List Char :=
  if c == '\x22' then ['\\', '\x22']
  else if c == '\\' then ['\\', '\\']
  else if c == '\n' then ['\\', 'n']
  else if c == '\t' then ['\\', 't']
  else if c == '\r' then ['\\', 'r']
  else if c == '\x1b' then ['\\', 'e']
  else if c == '#' && startsInterpolation next then ['\\', '#']
  else if isControl c then ['\\', 'u', '\x7b'] ++ Nat.toDigits 16 c.toNat ++ ['\x7d']
  else [c]

def quotedBody : List Char → List Char
  | [] => []
  | c :: rest => quotedChar c rest.head? ++ quotedBody rest

def quoted (text : String) : String :=
  String.ofList ('\x22' :: quotedBody text.toList ++ ['\x22'])

def dropMark (cs : List Char) : List Char :=
  match cs.getLast? with
  | some '?' | some '!' => cs.dropLast
  | _ => cs

def isPlainSymbol (name : String) : Bool :=
  match dropMark name.toList with
  | [] => false
  | c :: rest => (c.isAlpha || c == '_') && rest.all fun d => d.isAlphanum || d == '_'

def symbolText (name : String) : String :=
  if isPlainSymbol name then ":" ++ name else ":" ++ quoted name

end YcpToRuby.Ruby
