import YcpToRuby.Number.Digits
import YcpToRuby.Settings.Basic
import YcpToRuby.Text.Affix
import YcpToRuby.Text.Path

/-!
# Settings in TOML

There is one key, `export_private`, and its value is a truth value. So a document is a list of
lines, each of them blank, a comment, or the setting, which comes at most once. The key is bare or
quoted.
-/

set_option autoImplicit false

namespace YcpToRuby.Settings

def isLineBlank (c : Char) : Bool :=
  c == ' ' || c == '\t'

def isCommentChar (c : Char) : Bool :=
  c == '\t' || (0x20 ≤ c.toNat && c.toNat != 0x7F)

def isLineEnd (text : List Char) : Bool :=
  match text.dropWhile isLineBlank with
  | [] => true
  | '#' :: comment => comment.all isCommentChar
  | _ => false

def isBareKeyChar (c : Char) : Bool :=
  c.isAlphanum || c == '_' || c == '-'

def charOfDigits? (digits : List Char) : Option Char := do
  let n ← Number.hexadecimal? digits
  if n.isValidChar then some (Char.ofNat n) else none

def escapedKey? : List Char → Option (List Char × List Char)
  | '\x22' :: rest => some ([], rest)
  | '\\' :: 'u' :: a :: b :: c :: d :: rest => do
    let character ← charOfDigits? [a, b, c, d]
    let (key, rest) ← escapedKey? rest
    return (character :: key, rest)
  | '\\' :: 'U' :: a :: b :: c :: d :: e :: f :: g :: h :: rest => do
    let character ← charOfDigits? [a, b, c, d, e, f, g, h]
    let (key, rest) ← escapedKey? rest
    return (character :: key, rest)
  | '\\' :: _ => none
  | c :: rest => do
    let (key, rest) ← escapedKey? rest
    return (c :: key, rest)
  | [] => none

def key? : List Char → Option (List Char × List Char)
  | '\x22' :: rest => escapedKey? rest
  | '\'' :: rest =>
    match rest.dropWhile (· != '\'') with
    | [] => none
    | _ :: after => some (rest.takeWhile (· != '\''), after)
  | text => some (text.takeWhile isBareKeyChar, text.dropWhile isBareKeyChar)

def truth? : List Char → Option (Bool × List Char)
  | 't' :: 'r' :: 'u' :: 'e' :: rest => some (true, rest)
  | 'f' :: 'a' :: 'l' :: 's' :: 'e' :: rest => some (false, rest)
  | _ => none

def assignment? (line : List Char) : Option Bool := do
  let (key, rest) ← key? (line.dropWhile isLineBlank)
  if key = "export_private".toList then
    match rest.dropWhile isLineBlank with
    | '=' :: rest =>
      let (value, rest) ← truth? (rest.dropWhile isLineBlank)
      if isLineEnd rest then some value else none
    | _ => none
  else none

def line? (line : List Char) : Option (List Bool) :=
  if isLineEnd line then some [] else (assignment? line).map ([·])

def dropReturn (line : List Char) : List Char :=
  if line.getLast? = some '\r' then line.dropLast else line

def lines (text : List Char) : List (List Char) :=
  match (Text.divideAt (· == '\n') text).reverse with
  | [] => []
  | last :: ended => (last :: ended.map dropReturn).reverse

def ofToml? (text : String) : Option Settings := do
  match (← (lines (Text.dropMark text.toList)).mapM line?).flatten with
  | [] => some {}
  | [exportPrivate] => some { exportPrivate }
  | _ => none

end YcpToRuby.Settings
