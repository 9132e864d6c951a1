import SmallScheme.Number.Binary64

/-! # Decimal numerals

Digits with at most one decimal point, read to the nearest double and written with the fewest digits
that read back. `shortest` only ever answers with a decimal whose magnitude it has computed, or with
the exact value of the double.
-/

namespace SmallScheme

/-- A coefficient times a power of ten. -/
structure Decimal where
  coefficient : Nat
  exponent : Int
  deriving DecidableEq

namespace Decimal

/-- The double nearest to a decimal, without its sign. -/
def magnitude (d : Decimal) : Nat :=
  Binary64.nearest (d.coefficient * 10 ^ d.exponent.toNat) (10 ^ (-d.exponent).toNat)

/-- The value of a text of digits with at most one point among, before or after them. -/
def ofDigits? (text : List Char) : Option Decimal :=
  let whole := text.takeWhile Char.isDigit
  match text.dropWhile Char.isDigit with
  | [] => if whole.isEmpty then none else some ⟨Nat.ofDigitChars 10 whole 0, 0⟩
  | point :: fraction =>
    if point = '.' && fraction.all Char.isDigit && !(whole.isEmpty && fraction.isEmpty) then
      some ⟨Nat.ofDigitChars 10 (whole ++ fraction) 0, -(fraction.length : Int)⟩
    else none

/-- All digits in their places: no exponent, and a point only between two digits. -/
def positional (d : Decimal) : List Char :=
  let digits := Nat.toDigits 10 d.coefficient
  if 0 ≤ d.exponent then digits ++ List.replicate d.exponent.toNat '0'
  else
    let places := (-d.exponent).toNat
    let padded := List.replicate (places + 1 - digits.length) '0' ++ digits
    padded.take (padded.length - places) ++ '.' :: padded.drop (padded.length - places)

/-- The exact value of a finite magnitude. -/
def exact (magnitude : Nat) : Decimal :=
  ⟨Binary64.scaled magnitude * 5 ^ 1074, -1074⟩

/-- The multiple of `10 ^ exponent` that is nearest to a finite magnitude among the two around it
that read back as it; of two equally near ones the larger. -/
def onGrid? (magnitude : Nat) (exponent : Int) : Option Decimal :=
  let num := Binary64.scaled magnitude * 10 ^ (-exponent).toNat
  let den := Binary64.resolution * 10 ^ exponent.toNat
  let below : Decimal := ⟨num / den, exponent⟩
  let above : Decimal := ⟨num / den + 1, exponent⟩
  if below.magnitude = magnitude then
    if above.magnitude = magnitude && den ≤ 2 * (num % den) then some above else some below
  else if above.magnitude = magnitude then some above
  else none

/-- A power of ten above every decimal that reads back as the finite magnitude: 0.30103 exceeds the
logarithm of two by little, and two more make up for it where the exponent is negative. -/
def topExponent (magnitude : Nat) : Int :=
  ((Nat.log2 (Binary64.scaled magnitude) : Int) + 1 - 1074) * 30103 / 100000 + 2

/-- The fewest digits that read back as a finite magnitude other than zero. Coarse grids are tried
first, and seventeen significant digits always suffice. -/
def shortest (magnitude : Nat) : Decimal :=
  let top := topExponent magnitude
  let grids := (List.range 22).map fun (i : Nat) => top - i
  (grids.findSome? (onGrid? magnitude)).getD (exact magnitude)

end Decimal

/-- The external form of a number: the shortest positional numeral that reads back, or the name of
what is not finite. -/
def Float.external (x : Float) : List Char :=
  let size := Binary64.magnitude x
  if Binary64.infinity < size then "+nan.0".toList
  else if size = Binary64.infinity then
    if Binary64.isNegative x then "-inf.0".toList else "+inf.0".toList
  else
    let digits := if size = 0 then ['0'] else (Decimal.shortest size).positional
    if Binary64.isNegative x then '-' :: digits else digits

end SmallScheme
