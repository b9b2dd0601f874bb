import TreePatch.Number.Double

/-!
# Shortest decimal text

The fewest decimal digits that still read back as a given number.
-/

namespace TreePatch

/-- The number `d.ddd * 10 ^ exponent` with the given digits. -/
structure Decimal where
  digits : List Char
  exponent : Int
  deriving DecidableEq

namespace Decimal

/-- `value * 10 ^ power`, without zeros at the end of its digits. -/
def ofNat (value : Nat) (power : Int) : Decimal :=
  let digits := Nat.toDigits 10 value
  { digits := (digits.reverse.dropWhile (· == '0')).reverse
    exponent := power + digits.length - 1 }

/-- The exponents of numbers that are written without one. -/
def positional : Int × Int := (-5, 15)

/-- The text of a number: a digit at least on both sides of the point, or an exponent with its sign. -/
def text (d : Decimal) : String :=
  let count : Int := d.digits.length
  let zeros (n : Int) : List Char := List.replicate n.toNat '0'
  if positional.1 ≤ d.exponent && d.exponent ≤ positional.2 then
    if d.exponent < 0 then
      String.ofList ('0' :: '.' :: zeros (-d.exponent - 1) ++ d.digits)
    else if count ≤ d.exponent + 1 then
      String.ofList (d.digits ++ zeros (d.exponent + 1 - count) ++ ['.', '0'])
    else
      let whole := d.exponent.toNat + 1
      String.ofList (d.digits.take whole ++ '.' :: d.digits.drop whole)
  else
    let fraction := if count ≤ 1 then [] else '.' :: d.digits.drop 1
    let sign := if d.exponent < 0 then '-' else '+'
    String.ofList (d.digits.take 1 ++ fraction ++ 'e' :: sign :: Nat.toDigits 10 d.exponent.natAbs)

end Decimal

namespace Double

/-- The number itself and the two ends of what is rounded to it, in quarters of the last place. -/
structure Rounding where
  lower : Nat
  value : Nat
  upper : Nat
  /-- Whether the ends themselves are rounded to the number. -/
  closed : Bool

/-- What is rounded to a positive number. The distance to the number below a power of two is half of
that to the number above. -/
def rounding (d : Double) : Rounding :=
  let narrow := d.mantissa == mantissaLimit / 2 && leastExponent < d.exponent
  { lower := 4 * d.mantissa - (if narrow then 1 else 2)
    value := 4 * d.mantissa
    upper := 4 * d.mantissa + 2
    closed := d.mantissa % 2 == 0 }

namespace Rounding

/-- Whether a quotient, in quarters of the last place, is rounded to the number. -/
def covers (r : Rounding) (num den : Nat) : Bool :=
  if r.closed then r.lower * den ≤ num && num ≤ r.upper * den
  else r.lower * den < num && num < r.upper * den

/-- The multiple of `num / den` that is rounded to the number and nearest to it, the even one of two.
-/
def nearestMultiple? (r : Rounding) (num den : Nat) : Option Nat :=
  let below := r.value * den / num
  let above := below + 1
  match r.covers (below * num) den, r.covers (above * num) den with
  | true, false => some below
  | false, true => some above
  | false, false => none
  | true, true =>
    let down := r.value * den - below * num
    let up := above * num - r.value * den
    some (if down < up || (down == up && below % 2 == 0) then below else above)

end Rounding

/-- The place of the first decimal digit of a positive quotient that is no power of ten below one. -/
def leadingPlace (num den : Nat) : Int :=
  if den ≤ num then
    (Nat.toDigits 10 (num / den)).length - 1
  else
    -((Nat.toDigits 10 (den / num)).length : Int)

/-- The fewest digits that are rounded to the number, and of those the nearest to it. Seventeen digits
are always enough. -/
def shortest (d : Double) : Decimal :=
  if d.isZero then
    ⟨['0'], 0⟩
  else
    let (num, den) := scaledBy d.mantissa 1 (-d.exponent)
    let first := leadingPlace num den
    let found := (List.range 17).findSome? fun (n : Nat) =>
      let place := first - n
      -- one unit at this place, in quarters of the last binary place
      let unitNum := 4 * Nat.pow 10 place.toNat * Nat.pow 2 (-d.exponent).toNat
      let unitDen := Nat.pow 10 (-place).toNat * Nat.pow 2 d.exponent.toNat
      (d.rounding.nearestMultiple? unitNum unitDen).map fun value => Decimal.ofNat value place
    found.getD (Decimal.ofNat (num / den) 0)

end Double

end TreePatch
