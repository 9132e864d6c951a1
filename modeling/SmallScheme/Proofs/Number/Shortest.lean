import SmallScheme.Number.Decimal

/-! # The shortest decimal

A decimal with the exact value of a magnitude is read as it, so the search for the shortest decimal
that reads back always answers with one that does.
-/

namespace SmallScheme

namespace Binary64

variable {m num den : Nat}

theorem log2_scaled (m : Nat) : Nat.log2 (scaled m) - 52 = binade m := by
  rw [scaled, significand, binade]
  split
  · rename_i hm
    have hlog : Nat.log2 m ≤ 52 := by
      by_cases h0 : m = 0
      · simp [h0]
      · have := (Nat.log2_lt h0).mpr (by omega : m < 2 ^ 53)
        omega
    rw [hm]
    simpa using Nat.sub_eq_zero_of_le hlog
  · rename_i hm
    generalize max (m / 2 ^ 52) 1 - 1 = b
    have hpos : 0 < 2 ^ b := Nat.two_pow_pos b
    have hne : (2 ^ 52 + m % 2 ^ 52) * 2 ^ b ≠ 0 := Nat.mul_ne_zero (by omega) (by omega)
    have hlow : 52 + b ≤ Nat.log2 ((2 ^ 52 + m % 2 ^ 52) * 2 ^ b) := by
      refine (Nat.le_log2 hne).mpr ?_
      rw [Nat.pow_add]
      exact Nat.mul_le_mul_right _ (by omega)
    have hhigh : Nat.log2 ((2 ^ 52 + m % 2 ^ 52) * 2 ^ b) < 53 + b := by
      refine (Nat.log2_lt hne).mpr ?_
      rw [Nat.pow_add]
      exact Nat.mul_lt_mul_of_pos_right (by omega) hpos
    omega

theorem roundHalfEven_mul (n : Nat) (hden : 0 < den) : roundHalfEven (n * den) den = n := by
  rw [roundHalfEven, Nat.mul_div_cancel _ hden, Nat.mul_mod_left]
  simp only [Nat.mul_zero, if_pos hden]

theorem binade_add_significand (m : Nat) : binade m * 2 ^ 52 + significand m = m := by
  rw [binade, significand]
  split <;> omega

/-- The magnitude of a finite number is the nearest one to it. -/
theorem nearest_of_eq (hm : m < infinity) (hden : 0 < den)
    (h : num * resolution = scaled m * den) : nearest num den = m := by
  have hquot : scaled m * den = significand m * (den * 2 ^ binade m) := by
    rw [scaled, Nat.mul_assoc, Nat.mul_comm den]
  rw [nearest, h, Nat.mul_div_cancel _ hden, log2_scaled, hquot,
    roundHalfEven_mul _ (Nat.mul_pos hden (Nat.two_pow_pos _)), binade_add_significand]
  exact Nat.min_eq_right (Nat.le_of_lt hm)

end Binary64

namespace Decimal

open Binary64

variable {m : Nat} {d : Decimal}

theorem magnitude_whole (c n : Nat) : magnitude ⟨c, n⟩ = nearest (c * 10 ^ n) 1 := by
  simp only [magnitude, Int.toNat_natCast, Int.toNat_neg_natCast, Nat.pow_zero]

theorem magnitude_places (c n : Nat) : magnitude ⟨c, -(n : Int)⟩ = nearest c (10 ^ n) := by
  simp only [magnitude, Int.neg_neg, Int.toNat_natCast, Int.toNat_neg_natCast, Nat.pow_zero,
    Nat.mul_one]

theorem five_pow_mul_two_pow (n : Nat) : 5 ^ n * 2 ^ n = 10 ^ n := by
  rw [← Nat.mul_pow]

theorem magnitude_exact (hm : m < infinity) : (exact m).magnitude = m := by
  have hexact : exact m = ⟨scaled m * 5 ^ 1074, -((1074 : Nat) : Int)⟩ := rfl
  have hpos : ∀ n : Nat, 0 < 10 ^ n := fun n => Nat.pow_pos (by decide)
  rw [hexact, magnitude_places]
  refine nearest_of_eq hm (hpos 1074) ?_
  rw [resolution, Nat.mul_assoc, five_pow_mul_two_pow 1074]

theorem magnitude_onGrid? {e : Int} (h : onGrid? m e = some d) : d.magnitude = m := by
  simp only [onGrid?] at h
  split at h
  · split at h
    · rename_i hb ha
      cases h
      simp only [Bool.and_eq_true, decide_eq_true_eq] at ha
      exact ha.1
    · cases h
      assumption
  · split at h
    · cases h
      assumption
    · cases h

/-- The shortest decimal of a finite magnitude is read as it. -/
theorem magnitude_shortest (hm : m < infinity) : (shortest m).magnitude = m := by
  rw [shortest]
  cases hf : List.findSome? (onGrid? m) _ with
  | none => exact magnitude_exact hm
  | some d =>
    obtain ⟨e, -, he⟩ := List.exists_of_findSome?_eq_some hf
    exact magnitude_onGrid? he

end Decimal

end SmallScheme
