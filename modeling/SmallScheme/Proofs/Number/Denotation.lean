import SmallScheme.Proofs.Character
import SmallScheme.Proofs.Number.Positional

/-! # What numerals denote

Digits with at most one point, and which number they stand for with a sign in front of them, or
without one. The text behind a sign is read as a numeral of its own, though, that may carry a sign
as well. The names of the numbers that are not finite need their sign.
-/

namespace SmallScheme

/-- Digits with at most one point, and the decimal that they stand for. -/
inductive Decimal.Denotes : List Char → Decimal → Prop

  | whole {digits : List Char} : digits ≠ [] → (∀ c ∈ digits, c.isDigit) →
      Denotes digits ⟨Nat.ofDigitChars 10 digits 0, 0⟩

  | point {whole fraction : List Char} : whole ++ fraction ≠ [] →
      (∀ c ∈ whole ++ fraction, c.isDigit) →
      Denotes (whole ++ '.' :: fraction)
        ⟨Nat.ofDigitChars 10 (whole ++ fraction) 0, -(fraction.length : Int)⟩

namespace Numeral

def sign (negative : Bool) : Char := if negative then '-' else '+'

/-- A numeral with at most one sign, and its number. -/
inductive Denotes : List Char → Float → Prop

  | unsigned {digits : List Char} {d : Decimal} : d.Denotes digits →
      Denotes digits (Binary64.ofMagnitude false d.magnitude)

  | signed (negative : Bool) {digits : List Char} {d : Decimal} : d.Denotes digits →
      Denotes (sign negative :: digits) (Binary64.ofMagnitude negative d.magnitude)

/-- A name of a number that is not finite, in upper or lower case. -/
inductive Names : List Char → Float → Prop

  | infinity (negative : Bool) {name : List Char} : name.map Char.toLower = "inf.0".toList →
      Names (sign negative :: name) (Numeral.infinity negative)

  | nan (negative : Bool) {name : List Char} : name.map Char.toLower = "nan.0".toList →
      Names (sign negative :: name) Numeral.nan

/-- Digits behind two signs, which multiply. -/
inductive DoublySigned : List Char → Float → Prop

  | mk (outer inner : Bool) {digits : List Char} {d : Decimal} : d.Denotes digits →
      DoublySigned (sign outer :: sign inner :: digits)
        (Binary64.ofMagnitude (outer != inner) d.magnitude)

/-- A text that is a number for the token rules. -/
def Accepts (text : List Char) (x : Float) : Prop :=
  Names text x ∨ Denotes text x ∨ DoublySigned text x

end Numeral

namespace Decimal

variable {text digits : List Char} {d : Decimal}

theorem ofDigits?_eq_some_iff : ofDigits? text = some d ↔ d.Denotes text := by
  constructor
  · intro h
    have htext : text = text.takeWhile Char.isDigit ++ text.dropWhile Char.isDigit :=
      List.takeWhile_append_dropWhile.symm
    have hwhole : ∀ c ∈ text.takeWhile Char.isDigit, c.isDigit := fun c => List.mem_takeWhile_imp
    rw [ofDigits?] at h
    generalize text.takeWhile Char.isDigit = whole at h htext hwhole
    generalize text.dropWhile Char.isDigit = rest at h htext
    subst htext
    cases rest with
    | nil =>
      simp only [Option.ite_none_left_eq_some, List.isEmpty_iff, Option.some.injEq] at h
      obtain ⟨hne, rfl⟩ := h
      rw [List.append_nil]
      exact .whole hne hwhole
    | cons point fraction =>
      simp only [Option.ite_none_right_eq_some, Option.some.injEq, Bool.and_eq_true,
        decide_eq_true_eq, Bool.not_eq_true', List.all_eq_true] at h
      obtain ⟨⟨⟨rfl, hfraction⟩, hne⟩, rfl⟩ := h
      refine .point ?_ (List.forall_mem_append.mpr ⟨hwhole, hfraction⟩)
      rintro hnil
      obtain ⟨rfl, rfl⟩ := List.append_eq_nil_iff.mp hnil
      cases hne
  · rintro (⟨hne, hdigits⟩ | ⟨hne, hdigits⟩)
    · exact ofDigits?_whole hne hdigits
    · exact ofDigits?_point hne hdigits

theorem Denotes.subsequent (h : d.Denotes digits) : ∀ c ∈ digits, Numeral.isSubsequent c := by
  have hdigit : ∀ c : Char, c.isDigit → Numeral.isSubsequent c := by
    intro c hc
    rw [Numeral.isSubsequent, hc, Bool.true_or]
  cases h with
  | whole _ hdigits => exact fun c hc => hdigit c (hdigits c hc)
  | point _ hdigits =>
    rw [List.forall_mem_append] at hdigits ⊢
    refine ⟨fun c hc => hdigit c (hdigits.1 c hc), List.forall_mem_cons.mpr ⟨rfl, ?_⟩⟩
    exact fun c hc => hdigit c (hdigits.2 c hc)

theorem Denotes.ne_nil (h : d.Denotes digits) : digits ≠ [] := by
  cases h with
  | whole hne _ => exact hne
  | point _ _ => simp

theorem Denotes.head_ne_sign {negative : Bool} (h : d.Denotes digits) (rest : List Char) :
    digits ≠ Numeral.sign negative :: rest := by
  rintro rfl
  have hsign := h.subsequent _ (List.mem_cons_self ..)
  cases negative <;> cases hsign

end Decimal

namespace Numeral

open Binary64

variable {text : List Char} {negative : Bool} {x : Float}

theorem DoublySigned.not_numeral {y : Float} (h : DoublySigned text x) :
    ¬ (Names text y ∨ Denotes text y) := by
  obtain ⟨outer, inner, hd⟩ := h
  generalize htext : sign outer :: sign inner :: _ = text
  rintro ((⟨_, hname⟩ | ⟨_, hname⟩) | (hdigits | ⟨_, hdigits⟩))
  · rw [← (List.cons_eq_cons.mp htext).2] at hname
    cases inner <;> cases hname
  · rw [← (List.cons_eq_cons.mp htext).2] at hname
    cases inner <;> cases hname
  · exact hdigits.head_ne_sign _ htext.symm
  · exact hdigits.head_ne_sign _ (List.cons_eq_cons.mp htext).2.symm

theorem value?_sign (negative inner : Bool) (digits : List Char) :
    value? negative (sign inner :: digits) =
      (Decimal.ofDigits? digits).map fun d => ofMagnitude (negative != inner) d.magnitude := by
  cases inner <;> cases negative <;> rfl

theorem value?_of_ne_sign (h : ∀ inner digits, text ≠ sign inner :: digits) :
    value? negative text =
      (Decimal.ofDigits? text).map fun d => ofMagnitude negative d.magnitude := by
  rw [value?]
  · exact fun digits => h false digits
  · exact fun digits => h true digits

/-- What is read behind a sign, or without one, is digits or once more a sign and digits. -/
theorem value?_eq_some_iff : value? negative text = some x ↔
    (∃ d : Decimal, d.Denotes text ∧ x = ofMagnitude negative d.magnitude) ∨
      ∃ (inner : Bool) (digits : List Char) (d : Decimal), text = sign inner :: digits ∧
        d.Denotes digits ∧ x = ofMagnitude (negative != inner) d.magnitude := by
  by_cases hsign : ∃ inner digits, text = sign inner :: digits
  · obtain ⟨inner, digits, rfl⟩ := hsign
    rw [value?_sign]
    simp only [Option.map_eq_some_iff, Decimal.ofDigits?_eq_some_iff]
    constructor
    · rintro ⟨d, hd, rfl⟩
      exact .inr ⟨inner, digits, d, rfl, hd, rfl⟩
    · rintro (⟨d, hd, -⟩ | ⟨inner', digits', d, htext, hd, rfl⟩)
      · exact absurd rfl (hd.head_ne_sign digits)
      · obtain ⟨hinner, rfl⟩ := List.cons_eq_cons.mp htext
        have hinner : inner = inner' := by
          cases inner <;> cases inner' <;> first | rfl | cases hinner
        exact ⟨d, hd, by rw [hinner]⟩
  · have hne : ∀ inner digits, text ≠ sign inner :: digits := fun inner digits h =>
      hsign ⟨inner, digits, h⟩
    rw [value?_of_ne_sign hne]
    simp only [Option.map_eq_some_iff, Decimal.ofDigits?_eq_some_iff]
    constructor
    · rintro ⟨d, hd, rfl⟩
      exact .inl ⟨d, hd, rfl⟩
    · rintro (⟨d, hd, rfl⟩ | ⟨inner, digits, -, htext, -⟩)
      · exact ⟨d, hd, rfl⟩
      · exact absurd htext (hne inner digits)

theorem accepts_of_value? (h : value? false text = some x) : Accepts text x := by
  rcases value?_eq_some_iff.mp h with ⟨d, hd, rfl⟩ | ⟨inner, digits, d, rfl, hd, rfl⟩
  · exact .inr (.inl (.unsigned hd))
  · rw [Bool.false_bne]
    exact .inr (.inl (.signed inner hd))

theorem accepts_of_value?_signed (h : value? negative text = some x) :
    Accepts (sign negative :: text) x := by
  rcases value?_eq_some_iff.mp h with ⟨d, hd, rfl⟩ | ⟨inner, digits, d, rfl, hd, rfl⟩
  · exact .inr (.inl (.signed negative hd))
  · exact .inr (.inr (.mk negative inner hd))

theorem accepts_cases (h : Accepts text x) :
    Names text x ∨ (value? false text = some x ∧ ∃ d : Decimal, d.Denotes text) ∨
      ∃ negative more, text = sign negative :: more ∧ value? negative more = some x := by
  rcases h with hname | (hd | ⟨negative, hd⟩) | ⟨outer, inner, hd⟩
  · exact .inl hname
  · exact .inr (.inl ⟨value?_eq_some_iff.mpr (.inl ⟨_, hd, rfl⟩), _, hd⟩)
  · exact .inr (.inr ⟨negative, _, rfl, value?_eq_some_iff.mpr (.inl ⟨_, hd, rfl⟩)⟩)
  · exact .inr (.inr ⟨outer, _, rfl, value?_eq_some_iff.mpr (.inr ⟨inner, _, _, rfl, hd, rfl⟩)⟩)

theorem head?_sign_ne_point (negative : Bool) (text : List Char) :
    (sign negative :: text).head? ≠ some '.' := by
  cases negative <;> simp [sign]

theorem exists_cons_of_value? (h : value? negative text = some x) :
    ∃ first run, text = first :: run ∧ ∀ c ∈ run, isSubsequent c := by
  rcases value?_eq_some_iff.mp h with ⟨d, hd, -⟩ | ⟨inner, digits, d, rfl, hd, -⟩
  · obtain ⟨first, run, rfl⟩ := List.exists_cons_of_ne_nil hd.ne_nil
    exact ⟨first, run, rfl, fun c hc => hd.subsequent c (List.mem_cons_of_mem first hc)⟩
  · exact ⟨_, digits, rfl, hd.subsequent⟩

theorem toNat_of_value? (h : value? negative text = some x) :
    ∀ c ∈ text, 43 ≤ c.toNat ∧ c.toNat ≤ 57 := by
  have hrange : ∀ {digits : List Char} {d : Decimal}, d.Denotes digits →
      ∀ c ∈ digits, 43 ≤ c.toNat ∧ c.toNat ≤ 57 := by
    intro digits d hd c hc
    have hsubsequent := hd.subsequent c hc
    simp only [isSubsequent, Bool.or_eq_true, decide_eq_true_eq, Character.isDigit_iff,
      Character.eq_iff_toNat] at hsubsequent
    have hdot : '.'.toNat = 46 := rfl
    omega
  rcases value?_eq_some_iff.mp h with ⟨d, hd, -⟩ | ⟨inner, digits, d, rfl, hd, -⟩
  · exact hrange hd
  · refine List.forall_mem_cons.mpr ⟨?_, hrange hd⟩
    cases inner <;> decide

theorem not_isLower_of_value? (h : value? negative text = some x) : ∀ c ∈ text, ¬ c.isLower := by
  intro c hc
  have hrange := toNat_of_value? h c hc
  rw [Character.isLower_iff]
  omega

theorem not_isUpper_of_value? (h : value? negative text = some x) : ∀ c ∈ text, ¬ c.isUpper := by
  intro c hc
  have hrange := toNat_of_value? h c hc
  rw [Character.isUpper_iff]
  omega

theorem not_isDelimiter_of_value? (h : value? negative text = some x) :
    ∀ c ∈ text, ¬ Character.isDelimiter c := by
  intro c hc hdelimiter
  have hrange := toNat_of_value? h c hc
  have hcode := Character.toNat_of_isDelimiter hdelimiter
  simp only [List.mem_cons, List.not_mem_nil, or_false] at hcode
  omega

end Numeral

end SmallScheme
