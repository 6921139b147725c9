import YcpToRuby.Number.Digits
import YcpToRuby.Xml.Char

/-!
# References

A reference stands for one character: by its number, or by one of five names.
-/

set_option autoImplicit false

namespace YcpToRuby.Xml

def namedCharacters : List (String × Char) := [
  ("lt", '<'), ("gt", '>'), ("amp", '&'), ("apos", '\''), ("quot", '\x22')]

def charOfNumber? (n : Nat) : Option Char :=
  if n.isValidChar then
    if isChar (Char.ofNat n) then some (Char.ofNat n) else none
  else none

def referent? : List Char → Option Char
  | '#' :: 'x' :: digits => (Number.hexadecimal? digits).bind charOfNumber?
  | '#' :: digits => (Number.natural? digits).bind charOfNumber?
  | name => namedCharacters.lookup (String.ofList name)

def expandFrom (literal : Char → Char) (pending : Option (List Char)) :
    List Char → Option (List Char)
  | [] => if pending.isNone then some [] else none
  | c :: rest =>
    match pending with
    | none =>
      if c = '&' then expandFrom literal (some []) rest
      else (literal c :: ·) <$> expandFrom literal none rest
    | some name =>
      if c = ';' then do
        let character ← referent? name.reverse
        return character :: (← expandFrom literal none rest)
      else expandFrom literal (some (c :: name)) rest

def attributeValue? (raw : List Char) : Option String :=
  if raw.contains '<' then none
  else
    (expandFrom (fun c => if isBlank c then ' ' else c) none raw).map String.ofList

def closesSection : List Char → Bool
  | ']' :: ']' :: '>' :: _ => true
  | _ :: rest => closesSection rest
  | [] => false

def isText (raw : List Char) : Bool :=
  !closesSection raw && (expandFrom id none raw).isSome

end YcpToRuby.Xml
