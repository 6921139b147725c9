import YcpToRuby.Number.Binary64

/-!
# Shortest decimal text of a double

Among the decimals that round to a given double, the one with the fewest digits is taken, and of
those the one nearest to the double. Two decimals can be equally near; which one is taken, and for
which positions of the decimal point the number is written positionally, is decided by a
`Notation`.
-/

set_option autoImplicit false

namespace YcpToRuby.Number

structure Decimal where
  coefficient : Nat
  power : Int
  deriving DecidableEq, Repr

/-- The reals that round to a finite positive double: its value and the midpoints to its
neighbours, over one denominator. The midpoints belong to it when its significand is even. -/
structure RoundingInterval where
  low : Nat
  value : Nat
  high : Nat
  den : Nat
  closed : Bool

def roundingInterval (significand : Nat) (exponent : Int) : RoundingInterval :=
  let narrow := significand == Binary64.leastNormal && exponent != Binary64.leastExponent
  let (unit, den) := scaled 2 (exponent - 2) 1 1
  { low := (4 * significand - if narrow then 1 else 2) * unit
    value := 4 * significand * unit
    high := (4 * significand + 2) * unit
    den := den
    closed := significand % 2 == 0 }

def RoundingInterval.contains (i : RoundingInterval) (num den : Nat) : Bool :=
  let x := num * i.den
  if i.closed then i.low * den ≤ x && x ≤ i.high * den else i.low * den < x && x < i.high * den

def decimalMagnitude (num den : Nat) : Int :=
  let guess : Int := floorLog2 num den * 30103 / 100000 + 1
  let (n, d) := scaled 10 (-guess) num den
  if d ≤ n then guess + 1 else guess

inductive Tie where
  | up
  | toEven
  deriving DecidableEq, Repr

def Tie.nearest (tie : Tie) (num den : Nat) : Nat :=
  match tie with
  | .up => if den ≤ 2 * (num % den) then num / den + 1 else num / den
  | .toEven => roundedQuotient num den

def RoundingInterval.onGrid? (i : RoundingInterval) (tie : Tie) (power : Int) : Option Decimal :=
  let (n, d) := scaled 10 (-power) i.value i.den
  let below := n / d
  let fits (coefficient : Nat) : Bool :=
    let (num, den) := scaled 10 power coefficient 1
    i.contains num den
  match fits below, fits (below + 1) with
  | true, true => some ⟨tie.nearest n d, power⟩
  | true, false => some ⟨below, power⟩
  | false, true => some ⟨below + 1, power⟩
  | false, false => none

def RoundingInterval.shortest (i : RoundingInterval) (tie : Tie) : Decimal :=
  let magnitude := decimalMagnitude i.value i.den
  let hit := (List.range 17).findSome? fun n => i.onGrid? tie (magnitude - (n + 1 : Nat))
  hit.getD ⟨i.value / i.den, 0⟩

def significantDigits (coefficient : Nat) : List Char :=
  let digits := (Nat.repr coefficient).toList
  (digits.reverse.dropWhile (· == '0')).reverse

/-- For which positions of the decimal point a number is written without an exponent, which way
ties go, and whether a positive exponent has a plus sign. Position `p` means that the number is
`0.d₁d₂…` times `10 ^ p`. -/
structure Notation where
  leastPoint : Int
  greatestPoint : Int
  tie : Tie
  plusSign : Bool

def zeros (n : Nat) : String :=
  String.ofList (List.replicate n '0')

def positional (digits : List Char) (point : Int) : String :=
  if point ≤ 0 then "0." ++ zeros point.natAbs ++ String.ofList digits
  else if digits.length ≤ point.natAbs then
    String.ofList digits ++ zeros (point.natAbs - digits.length) ++ ".0"
  else
    String.ofList (digits.take point.natAbs) ++ "." ++ String.ofList (digits.drop point.natAbs)

def exponential (plusSign : Bool) (digits : List Char) (point : Int) : String :=
  let tail := String.ofList (digits.drop 1)
  String.ofList (digits.take 1) ++ (if tail.isEmpty then "" else "." ++ tail) ++ "e" ++
    (if plusSign && 0 < point then "+" else "") ++ toString (point - 1)

def Notation.write (format : Notation) (negative : Bool) (significand : Nat) (exponent : Int) :
    String :=
  let sign := if negative then "-" else ""
  if significand == 0 then sign ++ "0.0"
  else
    let decimal := (roundingInterval significand exponent).shortest format.tie
    let point := decimal.power + (Nat.repr decimal.coefficient).length
    let digits := significantDigits decimal.coefficient
    if format.leastPoint ≤ point && point ≤ format.greatestPoint then
      sign ++ positional digits point
    else sign ++ exponential format.plusSign digits point

end YcpToRuby.Number
