import Mathlib.Data.List.TakeWhile
import SmallScheme.Number.Numeral
import SmallScheme.Proofs.Number.Bits
import SmallScheme.Proofs.Number.Shortest

/-! # Numbers in positional notation

What is written for a number is a numeral again: digits with a point only between two of them. It
is read as the number it was written for.
-/

namespace SmallScheme

namespace Decimal

variable {ds whole fraction : List Char} {d : Decimal}

theorem ofDigits?_whole (hne : ds ≠ []) (h : ∀ c ∈ ds, c.isDigit) :
    ofDigits? ds = some ⟨Nat.ofDigitChars 10 ds 0, 0⟩ := by
  have htake : ds.takeWhile Char.isDigit = ds := List.takeWhile_eq_self_iff.mpr h
  have hdrop : ds.dropWhile Char.isDigit = [] := List.dropWhile_eq_nil_iff.mpr h
  rw [ofDigits?, hdrop, htake]
  simp [hne]

theorem ofDigits?_point (hne : whole ++ fraction ≠ [])
    (hdigits : ∀ c ∈ whole ++ fraction, c.isDigit) :
    ofDigits? (whole ++ '.' :: fraction) =
      some ⟨Nat.ofDigitChars 10 (whole ++ fraction) 0, -(fraction.length : Int)⟩ := by
  have hdot : ¬ '.'.isDigit := by decide
  obtain ⟨hw, hf⟩ := List.forall_mem_append.mp hdigits
  have htake : (whole ++ '.' :: fraction).takeWhile Char.isDigit = whole := by
    rw [List.takeWhile_append_of_pos hw, List.takeWhile_cons_of_neg hdot, List.append_nil]
  have hdrop : (whole ++ '.' :: fraction).dropWhile Char.isDigit = '.' :: fraction := by
    rw [List.dropWhile_append_of_pos hw, List.dropWhile_cons_of_neg hdot]
  rw [ofDigits?, hdrop, htake]
  simp only
  rw [if_pos]
  simp only [ne_eq, List.append_eq_nil_iff, not_and_or] at hne
  simpa using ⟨hf, hne⟩

theorem isDigit_of_mem {c n : Nat} {x : Char}
    (h : x ∈ Nat.toDigits 10 c ∨ x ∈ List.replicate n '0') : x.isDigit := by
  rcases h with h | h
  · exact Nat.isDigit_of_mem_toDigits (by decide) (by decide) h
  · rw [List.eq_of_mem_replicate h]
    decide

theorem positional_whole (c n : Nat) :
    ∃ ds, positional ⟨c, n⟩ = ds ∧ ds ≠ [] ∧ (∀ c ∈ ds, c.isDigit) ∧
      Nat.ofDigitChars 10 ds 0 = c * 10 ^ n := by
  refine ⟨_, rfl, ?_⟩
  rw [positional, if_pos (Int.natCast_nonneg n), Int.toNat_natCast]
  refine ⟨by simp, fun x hx => isDigit_of_mem (List.mem_append.mp hx), ?_⟩
  rw [Nat.ofDigitChars_append, Nat.ofDigitChars_ten_toDigits, Nat.ofDigitChars_replicate_zero,
      Nat.mul_comm]

theorem positional_places (c : Nat) {n : Nat} (hn : 0 < n) :
    ∃ whole fraction, positional ⟨c, -(n : Int)⟩ = whole ++ '.' :: fraction ∧ whole ≠ [] ∧
      fraction.length = n ∧ (∀ c ∈ whole ++ fraction, c.isDigit) ∧
      Nat.ofDigitChars 10 (whole ++ fraction) 0 = c := by
  generalize hp : List.replicate (n + 1 - (Nat.toDigits 10 c).length) '0' ++ Nat.toDigits 10 c =
    padded
  have hlen : n < padded.length := by
    rw [← hp, List.length_append, List.length_replicate]
    omega
  refine ⟨padded.take (padded.length - n), padded.drop (padded.length - n), ?_, ?_, ?_, ?_, ?_⟩
  · rw [positional, if_neg (by simp; omega)]
    simp only [Int.neg_neg, Int.toNat_natCast, hp]
  · refine List.ne_nil_of_length_pos ?_
    rw [List.length_take]
    omega
  · rw [List.length_drop]
    omega
  · rw [List.take_append_drop, ← hp]
    exact fun x hx => isDigit_of_mem (List.mem_append.mp hx).symm
  · rw [List.take_append_drop, ← hp, Nat.ofDigitChars_append, Nat.ofDigitChars_replicate_zero,
      Nat.mul_zero, Nat.ofDigitChars_ten_toDigits]

theorem exponent_cases (d : Decimal) :
    (∃ c n : Nat, d = ⟨c, n⟩) ∨ ∃ c n : Nat, 0 < n ∧ d = ⟨c, -(n : Int)⟩ := by
  obtain ⟨c, e⟩ := d
  rcases e.eq_nat_or_neg with ⟨n, rfl | rfl⟩
  · exact .inl ⟨c, n, rfl⟩
  · rcases n.eq_zero_or_pos with rfl | hn
    · exact .inl ⟨c, 0, rfl⟩
    · exact .inr ⟨c, n, hn, rfl⟩

/-- What is written for a decimal is read as one of the same magnitude. -/
theorem ofDigits?_positional (d : Decimal) :
    ∃ d', ofDigits? d.positional = some d' ∧ d'.magnitude = d.magnitude := by
  rcases d.exponent_cases with ⟨c, n, rfl⟩ | ⟨c, n, hn, rfl⟩
  · obtain ⟨ds, hd, hne, hdigits, hvalue⟩ := positional_whole c n
    rw [hd, ofDigits?_whole hne hdigits, hvalue]
    refine ⟨_, rfl, ?_⟩
    rw [magnitude_whole]
    exact (magnitude_whole _ 0).trans (by rw [Nat.pow_zero, Nat.mul_one])
  · obtain ⟨whole, fraction, hp, hne, rfl, hdigits, hvalue⟩ := positional_places c hn
    rw [hp, ofDigits?_point (by simp [hne]) hdigits, hvalue]
    exact ⟨_, rfl, rfl⟩

theorem positional_eq_cons (d : Decimal) :
    ∃ first run, d.positional = first :: run ∧ first.isDigit := by
  rcases d.exponent_cases with ⟨c, n, rfl⟩ | ⟨c, n, hn, rfl⟩
  · obtain ⟨ds, hd, hne, hdigits, -⟩ := positional_whole c n
    obtain ⟨first, run, rfl⟩ := List.exists_cons_of_ne_nil hne
    exact ⟨first, run, hd, hdigits first (List.mem_cons_self ..)⟩
  · obtain ⟨whole, fraction, hp, hne, -, hdigits, -⟩ := positional_places c hn
    obtain ⟨first, run, rfl⟩ := List.exists_cons_of_ne_nil hne
    exact ⟨first, run ++ '.' :: fraction, hp, hdigits first (List.mem_cons_self ..)⟩

end Decimal

namespace Numeral

open Binary64

theorem value?_of_isDigit {negative : Bool} {first : Char} {run : List Char}
    (h : first.isDigit) : value? negative (first :: run) =
      (Decimal.ofDigits? (first :: run)).map fun d => ofMagnitude negative d.magnitude := by
  rw [value?]
  · rintro ds ⟨rfl, -⟩
    cases h
  · rintro ds ⟨rfl, -⟩
    cases h

theorem magnitude_zero : Decimal.magnitude ⟨0, 0⟩ = 0 := by
  refine (Decimal.magnitude_whole 0 0).trans (nearest_of_eq (by decide) (by decide) ?_)
  simp only [Nat.zero_mul, scaled, significand, Nat.zero_div, ↓reduceIte]

/-- A number is written by its name, or as a numeral that denotes it. -/
theorem external_cases (x : Float) :
    (Float.external x = "+nan.0".toList ∧ x = nan) ∨
    (∃ negative, Float.external x = (if negative then '-' else '+') :: "inf.0".toList ∧
      x = infinity negative) ∨
    ∃ negative first run, Float.external x =
        (if negative then '-' :: first :: run else first :: run) ∧
      first.isDigit ∧ value? negative (first :: run) = some x := by
  have hx := ofMagnitude_magnitude x
  rw [Float.external]
  split
  · rename_i h
    exact .inl ⟨rfl, eq_nan h⟩
  · split
    · rename_i h
      refine .inr (.inl ⟨isNegative x, ?_, ?_⟩)
      · cases isNegative x <;> rfl
      · rw [infinity, ← h, hx]
    · rename_i hle hne
      have hlt : magnitude x < Binary64.infinity := by omega
      obtain ⟨d, hd, hm⟩ : ∃ d : Decimal, (if magnitude x = 0 then ['0'] else
          (Decimal.shortest (magnitude x)).positional) = d.positional ∧
          d.magnitude = magnitude x := by
        by_cases h : magnitude x = 0
        · exact ⟨⟨0, 0⟩, by rw [if_pos h]; rfl, by rw [h, magnitude_zero]⟩
        · exact ⟨_, if_neg h, Decimal.magnitude_shortest hlt⟩
      obtain ⟨first, run, hp, hfirst⟩ := d.positional_eq_cons
      obtain ⟨d', hd', hm'⟩ := d.ofDigits?_positional
      refine .inr (.inr ⟨isNegative x, first, run, by rw [← hp, ← hd], hfirst, ?_⟩)
      rw [value?_of_isDigit hfirst, ← hp, hd', Option.map_some, hm', hm, hx]

end Numeral

end SmallScheme
