/-!
# Digits

Runs of ASCII digits, decimal or hexadecimal, and the numbers they denote, and the texts of signed
64-bit integers: an optional sign, at least one digit, and a value that fits.
-/

set_option autoImplicit false

namespace YcpToRuby.Number

def digitValue (c : Char) : Nat :=
  c.toNat - '0'.toNat

def ofDigits (ds : List Char) : Nat :=
  ds.foldl (fun n c => 10 * n + digitValue c) 0

def natural? (ds : List Char) : Option Nat :=
  if !ds.isEmpty && ds.all Char.isDigit then some (ofDigits ds) else none

def hexValue? (c : Char) : Option Nat :=
  if c.isDigit then some (Number.digitValue c)
  else if 'a' ≤ c && c ≤ 'f' then some (c.toNat - 'a'.toNat + 10)
  else if 'A' ≤ c && c ≤ 'F' then some (c.toNat - 'A'.toNat + 10)
  else none

def hexadecimal? (ds : List Char) : Option Nat := do
  let values ← ds.mapM hexValue?
  if values.isEmpty then none else some (values.foldl (fun n value => 16 * n + value) 0)

def splitSign : List Char → Bool × List Char
  | '-' :: rest => (true, rest)
  | '+' :: rest => (false, rest)
  | cs => (false, cs)

def withSign (negative : Bool) (n : Nat) : Int :=
  if negative then -(n : Int) else n

def fitsSigned64 (n : Int) : Bool :=
  -0x8000000000000000 ≤ n && n < 0x8000000000000000

def signed64? (text : String) : Option Int :=
  let (negative, rest) := splitSign text.toList
  (natural? rest).bind fun n =>
    let value := withSign negative n
    if fitsSigned64 value then some value else none

end YcpToRuby.Number
