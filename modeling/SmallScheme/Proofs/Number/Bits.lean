import Mathlib
import SmallScheme.Number.Numeral

/-! # Floats and their bits

A float is its bit pattern, and of the patterns beyond infinity all but one are left out: there is
one NaN. So a float is made again from its sign and its magnitude.
-/

namespace SmallScheme.Binary64

open Float.Model UnpackedFloat

section Fields

variable {b : BitVec Format.binary64.numBits}

theorem toNat_unpackSign : (unpackSign b).toNat = b.toNat / 2 ^ 63 := by
  have hb := b.isLt
  simp only [unpackSign, BitVec.toNat_cast, BitVec.extractLsb_toNat, Nat.shiftRight_eq_div_pow,
    Format.numBits] at hb ⊢
  omega

theorem toNat_unpackExponent : (unpackExponent b).toNat = b.toNat / 2 ^ 52 % 2 ^ 11 := by
  simp only [unpackExponent, BitVec.toNat_cast, BitVec.extractLsb_toNat,
    Nat.shiftRight_eq_div_pow]

theorem toNat_unpackMantissa : (unpackMantissa b).toNat = b.toNat % 2 ^ 52 := by
  simp only [unpackMantissa, BitVec.toNat_cast, BitVec.extractLsb_toNat,
    Nat.shiftRight_eq_div_pow]
  omega

theorem toNat_packComponents (sign : Sign) (exponent : BitVec Format.binary64.exponentBits)
    (mantissa : BitVec Format.binary64.mantissaBitsWithoutImplicit) :
    (packComponents .binary64 sign exponent mantissa).toNat =
      sign.toBitVec.toNat * 2 ^ 63 + exponent.toNat * 2 ^ 52 + mantissa.toNat := by
  have hm := mantissa.isLt
  have he := exponent.isLt
  rw [packComponents, BitVec.toNat_append, BitVec.toNat_append,
    ← Nat.shiftLeft_add_eq_or_of_lt hm, ← Nat.shiftLeft_add_eq_or_of_lt he, Nat.shiftLeft_eq,
    Nat.shiftLeft_eq]
  simp only [Format.binary64]
  omega

theorem sign_bit (v : BitVec 1) : (Sign.ofBitVec v).toBitVec = v := by
  revert v
  decide

theorem packComponents_fields {exponent : BitVec Format.binary64.exponentBits}
    {mantissa : BitVec Format.binary64.mantissaBitsWithoutImplicit}
    (he : exponent.toNat = (unpackExponent b).toNat)
    (hm : mantissa.toNat = (unpackMantissa b).toNat) :
    packComponents .binary64 (Sign.ofBitVec (unpackSign b)) exponent mantissa = b := by
  apply BitVec.eq_of_toNat_eq
  rw [toNat_packComponents, sign_bit, he, hm, toNat_unpackSign, toNat_unpackExponent,
    toNat_unpackMantissa]
  omega

theorem pack_subnormal {sign : Sign} {m : Nat} {e : Int} (hm : 0 < m) (h : m < 2 ^ 52)
    (he : e = -1074) : UnpackedFloat.pack .binary64 (.finite sign m e hm) =
      packComponents .binary64 sign 0 (.ofNat _ m) := by
  have hlog : m.log2 < 52 := (Nat.log2_lt (by omega)).mpr h
  have hbits : Format.binary64.mantissaBits = 53 := rfl
  subst he
  rw [UnpackedFloat.pack]
  simp only [hbits]
  rw [if_neg (by decide), if_neg (by omega)]
  rfl

theorem pack_normal {sign : Sign} {m n : Nat} {e : Int} (hm : 0 < m) (hl : 2 ^ 52 ≤ m)
    (hu : m < 2 ^ 53) (hn : n < 2047) (he : e = n - 1075) :
    UnpackedFloat.pack .binary64 (.finite sign m e hm) =
      packComponents .binary64 sign (.ofNat _ n) (.ofNat _ m) := by
  have hlow : 52 ≤ m.log2 := (Nat.le_log2 (by omega)).mpr hl
  have hhigh : m.log2 < 53 := (Nat.log2_lt (by omega)).mpr hu
  have hbias : Format.binary64.exponentBias = 1023 := rfl
  have hexp : (e + Format.binary64.exponentBias + (52 : Nat)).toNat = n := by omega
  rw [UnpackedFloat.pack]
  simp only [hexp]
  rw [if_neg (by omega), if_pos (by simp only [Format.mantissaBits]; omega)]

theorem pack_unpack (h : Format.binary64.Valid b) :
    UnpackedFloat.pack .binary64 (UnpackedFloat.unpack .binary64 b) = b := by
  have hm : (unpackMantissa b).toNat < 2 ^ 52 := (unpackMantissa b).isLt
  have hbias : Format.binary64.exponentBias = 1023 := rfl
  rw [UnpackedFloat.unpack]
  split
  · rename_i he
    split
    · rename_i hm
      exact packComponents_fields (congrArg BitVec.toNat he.symm) (congrArg BitVec.toNat hm.symm)
    · rename_i hm
      exact (h.eq_packedNaN he hm).symm
  · rename_i he
    split
    · rename_i he
      split
      · rename_i hm
        exact packComponents_fields (congrArg BitVec.toNat he.symm) (congrArg BitVec.toNat hm.symm)
      · rename_i hm
        -- Subnormal numbers have the exponent of the smallest normal ones.
        have he : (unpackExponent b).toNat = 0 := by rw [he]; rfl
        rw [pack_subnormal _ ‹_› (by simp only [he, hbias]; rfl)]
        exact packComponents_fields he.symm (by simp)
    · have hne : (unpackExponent b).toNat ≠ 2047 := fun h => he (BitVec.eq_of_toNat_eq h)
      have hlt : (unpackExponent b).toNat < 2048 := (unpackExponent b).isLt
      have hsig : (1#1 ++ unpackMantissa b).toNat = 2 ^ 52 + (unpackMantissa b).toNat := by
        rw [BitVec.toNat_append, ← Nat.shiftLeft_add_eq_or_of_lt hm]
        rfl
      rw [@pack_normal _ _ (unpackExponent b).toNat _ _ (by omega) (by omega) (by omega)
        (by simp only [hbias]; omega)]
      refine packComponents_fields (by simp) ?_
      rw [hsig, BitVec.toNat_ofNat]
      simp only [Format.binary64]
      omega

end Fields

@[simp] theorem ofBits_toBits (x : Float) : Float.ofBits x.toBits = x := by
  obtain ⟨⟨bits, valid⟩⟩ := x
  simp only [Float.ofBits, Float.toBits, Float.Model.ofBits, Float.Model.pack, pack_unpack valid]

theorem ofMagnitude_magnitude (x : Float) : ofMagnitude (isNegative x) (magnitude x) = x := by
  have hlt := x.toBits.toNat_lt
  have hbits : (if isNegative x then magnitude x + signBit else magnitude x) = x.toBits.toNat := by
    rw [isNegative, magnitude, signBit]
    by_cases h : 2 ^ 63 ≤ x.toBits.toNat
    · rw [if_pos (decide_eq_true h)]
      omega
    · rw [if_neg (by simpa using h)]
      omega
  rw [ofMagnitude, hbits, UInt64.ofNat_toNat, ofBits_toBits]

theorem eq_of_toBits {x y : Float} (h : x.toBits = y.toBits) : x = y := by
  rw [← ofBits_toBits x, h, ofBits_toBits]

/-- There is one NaN. -/
theorem eq_nan {x : Float} (h : infinity < magnitude x) : x = Numeral.nan := by
  have hlt := x.toBits.toNat_lt
  rw [infinity, magnitude, signBit] at h
  have he : @unpackExponent .binary64 x.toBits.toBitVec = -1 := by
    apply BitVec.eq_of_toNat_eq
    have hone : (-1 : BitVec 11).toNat = 2047 := rfl
    rw [toNat_unpackExponent, hone, UInt64.toNat_toBitVec]
    omega
  have hm : @unpackMantissa .binary64 x.toBits.toBitVec ≠ 0 := by
    intro hm
    have hzero := congrArg BitVec.toNat hm
    rw [toNat_unpackMantissa, UInt64.toNat_toBitVec] at hzero
    simp only [BitVec.toNat_zero, BitVec.ofNat_eq_ofNat] at hzero
    omega
  have hx := x.toModel.valid.eq_packedNaN he hm
  exact eq_of_toBits (UInt64.toBitVec_inj.mp (hx.trans rfl))

end SmallScheme.Binary64
