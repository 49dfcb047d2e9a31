/-!
Scores from zero to one, kept as double-precision numbers are: as whole numbers of the smallest unit
that such a number can tell from zero, of which at most fifty-three binary digits count. A written
number becomes a score by a few rounded steps, so its score need not be the one nearest to it.
-/

namespace Covenant

def roundDiv (numerator denominator : Nat) : Nat :=
  let quotient := numerator / denominator
  let rest := numerator % denominator
  if 2 * rest > denominator || (2 * rest == denominator && quotient % 2 == 1) then quotient + 1
    else quotient

structure Score where
  units : Nat
  isNegativeZero : Bool
deriving DecidableEq, Repr

namespace Score

def unitsOfOne : Nat := Nat.pow 2 1074

def precision : Nat := 53

def one : Score := ⟨unitsOfOne, false⟩

def nearest (numerator denominator : Nat) : Nat :=
  let spare := Nat.log2 (numerator / denominator) + 1 - precision
  roundDiv numerator (denominator * Nat.pow 2 spare) * Nat.pow 2 spare

def ofRatio (numerator denominator : Nat) : Score :=
  if numerator ≥ denominator then one else ⟨nearest (numerator * unitsOfOne) denominator, false⟩

def ofHundredths (count : Nat) : Score := ofRatio count 100

def add (left right : Score) : Score :=
  ⟨min (nearest (left.units + right.units) 1) unitsOfOne, left.isNegativeZero &&
    right.isNegativeZero⟩

def order (left right : Score) : Ordering :=
  (compare left.units right.units).then (compare right.isNegativeZero left.isNegativeZero)

def text (score : Score) : String :=
  let millionths := roundDiv (score.units * 1000000) unitsOfOne
  let digits := toString (millionths % 1000000)
  (if score.isNegativeZero then "-" else "") ++ toString (millionths / 1000000) ++ "." ++
    String.ofList (List.replicate (6 - digits.length) '0') ++ digits

def numberOf (digits : List Char) : Nat :=
  digits.foldl (fun total char => total * 10 + (char.toNat - 48)) 0

structure Decimal where
  isNegative : Bool
  significand : Nat
  exponent : Int

namespace Decimal

def significandBound : Nat := Nat.pow 2 64

def extend (significand : Nat) : List Char → Nat × Nat
  | [] => (significand, 0)
  | digit :: rest =>
    let longer := significand * 10 + (digit.toNat - 48)
    if longer < significandBound then extend longer rest else (significand, rest.length + 1)

/-- Reads a number with an optional sign, fraction and exponent. Digits that would make the
significand too large are lost; the exponent makes up for those before the point. -/
def ofText (text : String) : Decimal :=
  let (isNegative, unsigned) := match text.toList with
    | '-' :: rest => (true, rest)
    | chars => (false, chars)
  let whole := unsigned.takeWhile Char.isDigit
  let afterWhole := unsigned.drop whole.length
  let fraction := match afterWhole with
    | '.' :: rest => rest.takeWhile Char.isDigit
    | _ => []
  let written : Int := match (unsigned.dropWhile fun char => char != 'e').drop 1 with
    | '-' :: digits => -(numberOf digits : Int)
    | '+' :: digits => numberOf digits
    | digits => numberOf digits
  let (integral, lost) := extend 0 whole
  let (significand, ignored) := extend integral fraction
  { isNegative, significand, exponent := written + lost - ((fraction.length : Int) - ignored) }

def maxExponent : Nat := 308

def powerOfTen (exponent : Nat) : Nat := nearest (Nat.pow 10 exponent) 1

def overflow : Nat := Nat.pow 2 1024 * unitsOfOne

/-- The number in units without its sign, unless it is too large. Each step is rounded: the
significand, the power of ten, and their product or quotient. Where the exponent is below the least
one, there are two divisions; two by the largest power of ten leave nothing of any significand. -/
def units? (decimal : Decimal) : Option Nat :=
  let units := nearest decimal.significand 1 * unitsOfOne
  let size := decimal.exponent.natAbs
  if decimal.exponent ≥ 0 then
    if units = 0 then some 0
    else if size > maxExponent then none
    else
      let product := nearest (units * powerOfTen size) 1
      if product < overflow then some product else none
  else if size ≤ maxExponent then some (nearest units (powerOfTen size))
  else if size ≤ 2 * maxExponent then
    some (nearest (nearest units (powerOfTen maxExponent)) (powerOfTen (size - maxExponent)))
  else some 0

def toScore? (decimal : Decimal) : Option Score := do
  let units ← decimal.units?
  return if decimal.isNegative then ⟨0, units == 0⟩ else ⟨min units unitsOfOne, false⟩

end Decimal

def ofDecimal? (text : String) : Option Score := (Decimal.ofText text).toScore?

end Score

end Covenant
