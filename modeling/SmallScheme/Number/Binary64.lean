/-! # Binary64 magnitudes

A magnitude is the bit pattern of a double without its sign. Finite magnitudes count the
representable numbers upwards from zero, so the order of the patterns is the order of the numbers.
`nearest` rounds a quotient of naturals to a magnitude, ties to the even one.
-/

namespace SmallScheme.Binary64

-- Powers of naturals are the core library's, also where an algebraic hierarchy offers its own.
attribute [instance (high), default_instance (high)] instPowNat

/-- Magnitudes from here on are no finite numbers; this one is infinity, the later ones are NaN. -/
def infinity : Nat := 2047 * 2 ^ 52

/-- Added to a magnitude, the pattern of the negative number. -/
def signBit : Nat := 2 ^ 63

/-- Every finite number is a whole multiple of one over this. -/
def resolution : Nat := 2 ^ 1074

/-- The power of two by which the significand is scaled, above the smallest one. -/
def binade (magnitude : Nat) : Nat := max (magnitude / 2 ^ 52) 1 - 1

/-- The significand with its leading one, which only the lowest numbers lack. -/
def significand (magnitude : Nat) : Nat :=
  if magnitude / 2 ^ 52 = 0 then magnitude else 2 ^ 52 + magnitude % 2 ^ 52

/-- The number of a finite magnitude, as a multiple of one over `resolution`. -/
def scaled (magnitude : Nat) : Nat := significand magnitude * 2 ^ binade magnitude

/-- The quotient rounded to the nearest whole number, a half to the even neighbour. -/
def roundHalfEven (num den : Nat) : Nat :=
  let quotient := num / den
  let twice := 2 * (num % den)
  if twice < den then quotient
  else if den < twice then quotient + 1
  else quotient + quotient % 2

/-- The magnitude nearest to `num / den`. The significand of the rounded number has at most 53 bits;
one that rounds up to 54 carries into the exponent field, which is the next magnitude. -/
def nearest (num den : Nat) : Nat :=
  let shift := Nat.log2 (num * resolution / den) - 52
  min infinity (shift * 2 ^ 52 + roundHalfEven (num * resolution) (den * 2 ^ shift))

/-- The magnitude of a float. -/
def magnitude (x : Float) : Nat := x.toBits.toNat % signBit

def isNegative (x : Float) : Bool := signBit ≤ x.toBits.toNat

def ofMagnitude (negative : Bool) (magnitude : Nat) : Float :=
  Float.ofBits (UInt64.ofNat (if negative then magnitude + signBit else magnitude))

/-- The integer that a float is, if it is one; both zeros are. -/
def integer? (x : Float) : Option Int :=
  let size := magnitude x
  if size < infinity && scaled size % resolution = 0 then
    let whole := scaled size / resolution
    some (if isNegative x then -(whole : Int) else whole)
  else none

end SmallScheme.Binary64
