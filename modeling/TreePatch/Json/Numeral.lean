import TreePatch.Json.Reader
import TreePatch.Number.Shortest

/-!
# Values of numerals

A numeral is taken for a significand of 64 bits and a power of ten. Digits that do not fit into the
significand count for their place only.
-/

namespace TreePatch.Json.Reader.Numeral

/-- Significands are below 2⁶⁴. -/
def significandLimit : Nat := 0x10000000000000000

/-- Exponents are below 2³¹. -/
def exponentLimit : Nat := 0x80000000

def digitValue (ch : Char) : Nat :=
  ch.toNat - '0'.toNat

/-- Reads digits behind `value` as long as the result stays below a limit. The second part is what is
left. -/
def absorb (limit : Nat) : (value : Nat) → List Char → Nat × List Char
  | value, [] => (value, [])
  | value, ch :: rest =>
    let next := value * 10 + digitValue ch
    if next < limit then absorb limit next rest else (value, ch :: rest)

/-- The value of a numeral without fraction and exponent; none beyond 64 bits. -/
def natural? (n : Numeral) : Option Nat :=
  match absorb significandLimit 0 n.whole with
  | (value, []) => if n.fraction.isEmpty && n.exponent.isNone then some value else none
  | _ => none

/-- The digits in front of the exponent: a significand, and the power of ten that it stands for. -/
def scaled (n : Numeral) : Nat × Int :=
  let (whole, left) := absorb significandLimit 0 n.whole
  let (significand, unused) := absorb significandLimit whole n.fraction
  (significand, (left.length : Int) - (n.fraction.length - unused.length))

/-- The size of a numeral in double precision. If it is beyond the greatest number, the result is how
many characters of the numeral need not be read to see that. -/
def double? (n : Numeral) : Except Nat Double :=
  let (significand, power) := n.scaled
  let (negative, digits) := n.exponent.getD (false, [])
  match absorb exponentLimit 0 digits with
  | (exponent, []) =>
    let power := if negative then power - exponent else power + exponent
    match Double.ofDecimal? significand power with
    | some d => .ok d
    | none => .error 0
  | (_, _ :: unread) =>
    if negative || significand = 0 then .ok .zero else .error unread.length

end TreePatch.Json.Reader.Numeral
