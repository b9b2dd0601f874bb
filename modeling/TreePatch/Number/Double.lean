/-!
# Double precision numbers

Numbers with 53 binary digits, and the arithmetic that rounds every result to the nearest of them, in
a tie to the even one. All of it is exact arithmetic on natural numbers.
-/

namespace TreePatch

/-- The number `mantissa * 2 ^ exponent`. The mantissa is below 2⁵³, and at least 2⁵² unless the
exponent is the least one, -1074. -/
structure Double where
  mantissa : Nat
  exponent : Int
  deriving DecidableEq

namespace Double

/-- The exponent of the numbers next to zero. -/
def leastExponent : Int := -1074

/-- The exponent of the greatest numbers. -/
def greatestExponent : Int := 971

/-- The least number with one binary digit too many. -/
def mantissaLimit : Nat := 0x20000000000000

def zero : Double := ⟨0, leastExponent⟩

def isZero (d : Double) : Bool :=
  d.mantissa == 0

/-- The natural number nearest to a quotient, the even one of two. -/
def roundQuotient (num den : Nat) : Nat :=
  let rest := 2 * (num % den)
  if rest < den || (rest == den && num / den % 2 == 0) then num / den else num / den + 1

/-- A quotient divided by a power of two, as numerator and denominator. -/
def scaledBy (num den : Nat) (power : Int) : Nat × Nat :=
  (num * Nat.pow 2 (-power).toNat, den * Nat.pow 2 power.toNat)

/-- The exponent for a positive quotient: its mantissa has 53 binary digits, or the exponent is the
least one. -/
def exponentFor (num den : Nat) : Int :=
  let power := max leastExponent ((num.log2 : Int) - den.log2 - 53)
  let (num, den) := scaledBy num den power
  if mantissaLimit * den ≤ num then power + 1 else power

/-- The number nearest to a quotient; none beyond the greatest. -/
def nearest? (num den : Nat) : Option Double :=
  if num = 0 then
    some zero
  else
    let power := exponentFor num den
    let (num, den) := scaledBy num den power
    let mantissa := roundQuotient num den
    let rounded : Double :=
      if mantissa = mantissaLimit then ⟨mantissa / 2, power + 1⟩ else ⟨mantissa, power⟩
    if greatestExponent < rounded.exponent then none else some rounded

/-- The product, rounded; none beyond the greatest number. -/
def mul? (a b : Double) : Option Double :=
  let (num, den) := scaledBy (a.mantissa * b.mantissa) 1 (-(a.exponent + b.exponent))
  nearest? num den

/-- The quotient, rounded; none beyond the greatest number. -/
def div? (a b : Double) : Option Double :=
  let (num, den) := scaledBy a.mantissa b.mantissa (b.exponent - a.exponent)
  nearest? num den

/-- The greatest power of ten among the numbers is 10³⁰⁸. -/
def greatestPower : Nat := 308

/-- The number nearest to a power of ten; none beyond the greatest. -/
def powerOfTen? (power : Nat) : Option Double :=
  nearest? (Nat.pow 10 power) 1

/-- Division by a power of ten in steps of at most the greatest one. -/
def scaleDown (d : Double) (power : Nat) : Option Double := do
  if power ≤ greatestPower then
    d.div? (← powerOfTen? power)
  else if d.isZero then
    return d
  else
    scaleDown (← d.div? (← powerOfTen? greatestPower)) (power - greatestPower)
  termination_by power
  decreasing_by
    rename_i h _
    simp only [greatestPower] at h ⊢
    omega

/-- `significand * 10 ^ power`, with one rounding for the significand and one for each step of scaling.
None beyond the greatest number. -/
def ofDecimal? (significand : Nat) (power : Int) : Option Double := do
  let d ← nearest? significand 1
  if power < 0 then
    d.scaleDown (-power).toNat
  else if d.isZero then
    return d
  else if (greatestPower : Int) < power then
    none
  else
    d.mul? (← powerOfTen? power.toNat)

end Double

end TreePatch
