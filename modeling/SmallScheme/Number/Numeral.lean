import SmallScheme.Number.Decimal

/-! # Numerals in a text

The digits after the sign of a number may carry a sign of their own; two signs multiply.
-/

namespace SmallScheme.Numeral

/-- The number that a sign and the text behind it denote, if the text is a numeral. -/
def value? (negative : Bool) : List Char → Option Float
  | '+' :: digits =>
    (Decimal.ofDigits? digits).map fun d => Binary64.ofMagnitude negative d.magnitude
  | '-' :: digits =>
    (Decimal.ofDigits? digits).map fun d => Binary64.ofMagnitude (!negative) d.magnitude
  | digits =>
    (Decimal.ofDigits? digits).map fun d => Binary64.ofMagnitude negative d.magnitude

/-- What a numeral goes on with after its first character. -/
def isSubsequent (c : Char) : Bool := c.isDigit || c = '.'

/-- Infinity with a sign. -/
def infinity (negative : Bool) : Float := Binary64.ofMagnitude negative Binary64.infinity

/-- The quiet NaN. -/
def nan : Float := Binary64.ofMagnitude false (Binary64.infinity + 2 ^ 51)

end SmallScheme.Numeral
