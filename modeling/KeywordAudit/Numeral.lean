/-!
# Decimal numbers

The parts of a number that is written with a point and an exponent, and whether it is too large to
be a double.
-/

namespace KeywordAudit

/-- The parts of a number without its sign. -/
structure Numeral where
  whole : List Char
  fraction : List Char := []
  exponentNegative : Bool := false
  exponent : List Char := []

namespace Numeral

/-- The natural number of decimal digits. -/
def decimalValue (ds : List Char) : Nat :=
  ds.foldl (fun n d => n * 10 + (d.toNat - 48)) 0

/-- The least number that rounds to no double: the largest double and half a unit. -/
def doubleBound : Nat := Nat.pow 2 1024 - Nat.pow 2 970

/-- Whether a number is too large for a double.  The number of digits decides before any large
power is computed. -/
def isTooLarge (n : Numeral) : Bool :=
  let significand := decimalValue (n.whole ++ n.fraction)
  let exponent := decimalValue n.exponent
  let size := (Nat.toDigits 10 significand).length
  if significand = 0 then false
  else if n.exponentNegative then
    exponent + n.fraction.length < size &&
      doubleBound * Nat.pow 10 (exponent + n.fraction.length) ≤ significand
  else if size + exponent > 400 + n.fraction.length then true
  else doubleBound * Nat.pow 10 n.fraction.length ≤ significand * Nat.pow 10 exponent

end Numeral
end KeywordAudit
