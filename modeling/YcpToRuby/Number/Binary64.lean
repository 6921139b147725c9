import YcpToRuby.Number.Digits

/-!
# Double precision numbers

A finite number is a significand below `2 ^ 53` times a power of two, with exponents from `-1074`
to `971`. Rounding to the nearest such number, ties to the even significand, is done in exact
arithmetic. The texts read are an optional sign followed by a decimal numeral with an optional
point and exponent, or by the words `inf`, `infinity` or `nan` in any case.
-/

set_option autoImplicit false

namespace YcpToRuby.Number

inductive Binary64 where
  /-- The value is the significand times `2 ^ exponent`, with the sign in front. -/
  | finite (negative : Bool) (significand : Nat) (exponent : Int)
  | infinite (negative : Bool)
  | nan (negative : Bool)
  deriving DecidableEq, Repr

namespace Binary64

def leastExponent : Int := -1074

def greatestExponent : Int := 971

def leastNormal : Nat := 0x10000000000000

def zero (negative : Bool) : Binary64 :=
  finite negative 0 leastExponent

def isNegative : Binary64 → Bool
  | finite negative _ _ => negative
  | infinite negative => negative
  | nan negative => negative

def isFinite : Binary64 → Bool
  | finite _ _ _ => true
  | _ => false

end Binary64

def roundedQuotient (num den : Nat) : Nat :=
  let quotient := num / den
  let twice := 2 * (num % den)
  if twice < den || (twice == den && quotient % 2 == 0) then quotient else quotient + 1

def scaled (base : Nat) (power : Int) (num den : Nat) : Nat × Nat :=
  if power < 0 then (num, den * base.pow power.natAbs) else (num * base.pow power.natAbs, den)

def floorLog2 (num den : Nat) : Int :=
  let guess : Int := (Nat.log2 num : Int) - (Nat.log2 den : Int)
  let (n, d) := scaled 2 (-guess) num den
  if d ≤ n then guess else guess - 1

namespace Binary64

def ofQuotient (negative : Bool) (num den : Nat) : Binary64 :=
  let exponent := max leastExponent (floorLog2 num den - 52)
  let (n, d) := scaled 2 (-exponent) num den
  let significand := roundedQuotient n d
  let (significand, exponent) :=
    if significand == 2 * leastNormal then (leastNormal, exponent + 1) else (significand, exponent)
  if greatestExponent < exponent then infinite negative else finite negative significand exponent

/-- The double nearest to `coefficient * 10 ^ power`, where `length` bounds the number of digits of
the coefficient. Values far outside the range are settled without computing the power. -/
def ofDecimal (negative : Bool) (coefficient : Nat) (length : Nat) (power : Int) : Binary64 :=
  if coefficient == 0 || (length : Int) + power < -400 then zero negative
  else if 400 < (Nat.log2 coefficient : Int) / 4 + power then infinite negative
  else
    let (num, den) := scaled 10 power coefficient 1
    ofQuotient negative num den

end Binary64

def exponentPart? : List Char → Option Int
  | [] => some 0
  | c :: rest =>
    if c == 'e' || c == 'E' then
      let (negative, digits) := splitSign rest
      (natural? digits).map (withSign negative)
    else none

def numeral? (negative : Bool) (cs : List Char) : Option Binary64 :=
  let whole := cs.takeWhile Char.isDigit
  let rest := cs.dropWhile Char.isDigit
  let (fraction, rest) :=
    match rest with
    | '.' :: rest => (rest.takeWhile Char.isDigit, rest.dropWhile Char.isDigit)
    | _ => ([], rest)
  let digits := whole ++ fraction
  if digits.isEmpty then none
  else
    (exponentPart? rest).map fun exponent =>
      Binary64.ofDecimal negative (ofDigits digits) digits.length (exponent - fraction.length)

def binary64? (text : String) : Option Binary64 :=
  let (negative, rest) := splitSign text.toList
  let word := String.ofList (rest.map Char.toLower)
  if word == "inf" || word == "infinity" then some (.infinite negative)
  else if word == "nan" then some (.nan negative)
  else numeral? negative rest

end YcpToRuby.Number
