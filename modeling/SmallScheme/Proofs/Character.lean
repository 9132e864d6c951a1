import Mathlib
import SmallScheme.Number.Numeral
import SmallScheme.Character

/-! # Character classes by their codes

The classes are made of few ranges of codes, so that two of them have nothing in common is a matter
of arithmetic. No delimiter is part of a symbol or a numeral.
-/

namespace SmallScheme.Character

variable {c : Char}

theorem eq_iff_toNat (c d : Char) : c = d ↔ c.toNat = d.toNat := Char.toNat_inj.symm

theorem isUpper_iff : c.isUpper ↔ 65 ≤ c.toNat ∧ c.toNat ≤ 90 := by
  simp only [Char.isUpper, decide_eq_true_eq, ge_iff_le, UInt32.le_iff_toNat_le]
  rfl

theorem isLower_iff : c.isLower ↔ 97 ≤ c.toNat ∧ c.toNat ≤ 122 := by
  simp only [Char.isLower, Bool.and_eq_true, decide_eq_true_eq, ge_iff_le,
    UInt32.le_iff_toNat_le]
  rfl

theorem isDigit_iff : c.isDigit ↔ 48 ≤ c.toNat ∧ c.toNat ≤ 57 := Char.isDigit_iff_toNat

theorem isInitial_iff : isInitial c ↔
    ((65 ≤ c.toNat ∧ c.toNat ≤ 90) ∨ (97 ≤ c.toNat ∧ c.toNat ≤ 122)) ∨
      c.toNat ∈ [33, 36, 37, 38, 42, 47, 58, 60, 61, 62, 63, 94, 95, 126] := by
  simp only [isInitial, specialInitials, Char.isAlpha, Bool.or_eq_true, isUpper_iff, isLower_iff,
    List.contains_iff_mem, List.mem_cons, List.not_mem_nil, eq_iff_toNat]
  rfl

theorem isSubsequent_iff : isSubsequent c ↔
    isInitial c ∨ (48 ≤ c.toNat ∧ c.toNat ≤ 57) ∨ c.toNat ∈ [43, 45, 46, 64] := by
  simp only [isSubsequent, Bool.or_eq_true, decide_eq_true_eq, isDigit_iff, eq_iff_toNat,
    List.mem_cons, List.not_mem_nil, or_false, or_assoc]
  rfl

/-- Blanks lie below and above the graphic characters of ASCII. -/
theorem toNat_of_isBlank (h : isBlank c) : c.toNat ≤ 32 ∨ 133 ≤ c.toNat := by
  simp only [isBlank, blankRanges, List.any_cons, List.any_nil, Bool.or_eq_true,
    Bool.and_eq_true, decide_eq_true_eq, Bool.false_eq_true, or_false] at h
  omega

theorem toNat_of_isDelimiter (h : isDelimiter c) :
    c.toNat ≤ 32 ∨ 133 ≤ c.toNat ∨ c.toNat ∈ [34, 40, 41, 59] := by
  simp only [isDelimiter, Bool.or_eq_true, decide_eq_true_eq, eq_iff_toNat] at h
  rcases h with (((h | h) | h) | h) | h
  · have := toNat_of_isBlank h
    omega
  all_goals exact .inr (.inr (by rw [h]; decide))

theorem toNat_of_isSubsequent (h : isSubsequent c) :
    33 ≤ c.toNat ∧ c.toNat ≤ 126 ∧ c.toNat ∉ [34, 40, 41, 59] := by
  simp only [isSubsequent_iff, isInitial_iff, List.mem_cons, List.not_mem_nil, or_false] at h ⊢
  omega

theorem not_isSubsequent_of_isDelimiter (h : isDelimiter c) : ¬ isSubsequent c := by
  intro hs
  obtain ⟨hl, hu, hn⟩ := toNat_of_isSubsequent hs
  rcases toNat_of_isDelimiter h with h | h | h
  · omega
  · omega
  · exact hn h

theorem isSubsequent_of_isDigit (h : c.isDigit) : isSubsequent c := by
  rw [isSubsequent_iff]
  exact .inr (.inl (isDigit_iff.mp h))

theorem isSubsequent_of_numeral (h : Numeral.isSubsequent c) : isSubsequent c := by
  simp only [Numeral.isSubsequent, Bool.or_eq_true, decide_eq_true_eq] at h
  rcases h with h | rfl
  · exact isSubsequent_of_isDigit h
  · decide

theorem not_isInitial_of_isDigit (h : c.isDigit) : ¬ isInitial c := by
  simp only [isDigit_iff, isInitial_iff, List.mem_cons, List.not_mem_nil, or_false] at h ⊢
  omega

theorem toLower_of_not_isUpper (h : ¬ c.isUpper) : c.toLower = c := by
  have hn : ¬ (c.val ≥ 'A'.val ∧ c.val ≤ 'Z'.val) := by simpa [Char.isUpper] using h
  rw [Char.toLower, dif_neg hn]

theorem toLower_of_isDelimiter (h : isDelimiter c) : c.toLower = c := by
  apply toLower_of_not_isUpper
  intro hu
  rw [isUpper_iff] at hu
  have := toNat_of_isDelimiter h
  simp only [List.mem_cons, List.not_mem_nil, or_false] at this
  omega

theorem toNat_toLower_of_isUpper (h : c.isUpper) : c.toLower.toNat = c.toNat + 32 := by
  rw [isUpper_iff] at h
  have hc : c.val ≥ 'A'.val ∧ c.val ≤ 'Z'.val := by
    simp only [ge_iff_le, UInt32.le_iff_toNat_le]
    exact h
  have hshift : ('a'.val - 'A'.val).toNat = 32 := rfl
  have hle : c.val.toNat ≤ 90 := h.2
  rw [Char.toLower, dif_pos hc]
  simp only [Char.toNat, UInt32.toNat_add]
  omega

theorem not_isUpper_toLower (c : Char) : ¬ c.toLower.isUpper := by
  by_cases h : c.isUpper
  · have hlower := toNat_toLower_of_isUpper h
    rw [isUpper_iff] at h ⊢
    omega
  · rwa [toLower_of_not_isUpper h]

/-! Folding a letter to lower case keeps it in its class, and what becomes no letter has been none. -/

theorem isInitial_toLower (c : Char) : isInitial c.toLower = isInitial c := by
  by_cases h : c.isUpper
  · have hlower := toNat_toLower_of_isUpper h
    rw [isUpper_iff] at h
    rw [Bool.eq_iff_iff, isInitial_iff, isInitial_iff]
    exact iff_of_true (.inl (by omega)) (.inl (by omega))
  · rw [toLower_of_not_isUpper h]

theorem isSubsequent_toLower (c : Char) : isSubsequent c.toLower = isSubsequent c := by
  by_cases h : c.isUpper
  · have hinitial : isInitial c := by
      rw [isUpper_iff] at h
      exact isInitial_iff.mpr (.inl (.inl h))
    rw [Bool.eq_iff_iff, isSubsequent_iff, isSubsequent_iff, isInitial_toLower]
    exact iff_of_true (.inl hinitial) (.inl hinitial)
  · rw [toLower_of_not_isUpper h]

theorem isNumeral_toLower (c : Char) : Numeral.isSubsequent c.toLower = Numeral.isSubsequent c := by
  by_cases h : c.isUpper
  · have hlower := toNat_toLower_of_isUpper h
    have hnone : ∀ d : Char, Numeral.isSubsequent d → d.toNat ≤ 57 := by
      intro d hd
      simp only [Numeral.isSubsequent, Bool.or_eq_true, decide_eq_true_eq, isDigit_iff,
        eq_iff_toNat] at hd
      have hdot : '.'.toNat = 46 := rfl
      omega
    rw [isUpper_iff] at h
    rw [Bool.eq_iff_iff]
    constructor
    · intro hd
      have := hnone _ hd
      omega
    · intro hd
      have := hnone _ hd
      omega
  · rw [toLower_of_not_isUpper h]

theorem eq_of_toLower_eq {d : Char} (h : c.toLower = d) (hd : ¬ d.isLower) : c = d := by
  by_cases hc : c.isUpper
  · have hlower := toNat_toLower_of_isUpper hc
    rw [isUpper_iff] at hc
    rw [isLower_iff, ← h] at hd
    omega
  · rw [← h, toLower_of_not_isUpper hc]

theorem isDelimiter_toLower (c : Char) : isDelimiter c.toLower = isDelimiter c := by
  by_cases h : c.isUpper
  · have hlower := toNat_toLower_of_isUpper h
    have hnone : ∀ d : Char, isDelimiter d → ¬ (65 ≤ d.toNat ∧ d.toNat ≤ 122) := by
      intro d hd
      have hrange := toNat_of_isDelimiter hd
      simp only [List.mem_cons, List.not_mem_nil, or_false] at hrange
      omega
    rw [isUpper_iff] at h
    rw [Bool.eq_iff_iff]
    exact iff_of_false (fun hd => hnone _ hd (by omega)) fun hd => hnone _ hd (by omega)
  · rw [toLower_of_not_isUpper h]

end SmallScheme.Character
