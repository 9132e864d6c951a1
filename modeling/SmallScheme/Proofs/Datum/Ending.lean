import SmallScheme.Proofs.Datum.Joined

/-! # Going on behind errors ends

A token or an error takes characters, and so does a datum or the error in its place. Whoever calls
again and again, whatever the answers are, comes to the end of the text after no more calls than the
text has characters, and stays there.
-/

namespace SmallScheme

open Character

/-- Blanks and comments, the last of which may go on up to the end. -/
def OnlyAtmosphere (text : List Char) : Prop :=
  Atmosphere text ∨ ∃ gap remark, text = gap ++ ';' :: remark ∧ Atmosphere gap ∧
    ∀ c ∈ remark, ¬ isLineBreak c

variable {text : List Char}

theorem OnlyAtmosphere.prepend {gap : List Char} (h : OnlyAtmosphere text)
    (hgap : ∀ {rest}, Atmosphere rest → Atmosphere (gap ++ rest)) :
    OnlyAtmosphere (gap ++ text) := by
  rcases h with h | ⟨before, remark, rfl, hbefore, hremark⟩
  · exact .inl (hgap h)
  · exact .inr ⟨gap ++ before, remark, (List.append_assoc ..).symm, hgap hbefore, hremark⟩

theorem onlyAtmosphere_of_break {all : List Char} (h : Atmosphere all)
    (hall : all = text ++ ['\n']) : OnlyAtmosphere text := by
  induction h generalizing text with
  | nil => simp at hall
  | @blank c rest hc hrest ih =>
    cases text with
    | nil => exact .inl .nil
    | cons d text =>
      obtain ⟨rfl, rfl⟩ := List.cons_eq_cons.mp hall
      exact @OnlyAtmosphere.prepend text [c] (ih rfl) (.blank hc)
  | @comment remark rest c hremark hc hrest ih =>
    have hline : ∀ {rest}, Atmosphere rest → Atmosphere ((';' :: (remark ++ [c])) ++ rest) := by
      intro rest h
      rw [List.cons_append, List.append_assoc]
      exact .comment hremark hc h
    rcases List.eq_nil_or_concat rest with rfl | ⟨rest, d, rfl⟩
    · have htext : text = ';' :: remark := by
        have hconcat : (';' :: remark) ++ [c] = text ++ ['\n'] := hall
        exact (List.append_inj_left' hconcat rfl).symm
      exact .inr ⟨[], remark, htext, .nil, hremark⟩
    · have hconcat : (';' :: (remark ++ c :: rest)) ++ [d] = text ++ ['\n'] := by
        rw [← hall]
        simp
      obtain ⟨rfl, hd⟩ := List.append_inj' hconcat rfl
      have hrest := @ih rest (by rw [List.concat_eq_append, (List.cons_eq_cons.mp hd).1])
      have happly := hrest.prepend hline
      rwa [List.cons_append, List.append_assoc] at happly

theorem skipped_eq_nil_iff_only : skipped text = [] ↔ OnlyAtmosphere text := by
  rw [skipped_eq_nil_iff]
  constructor
  · intro h
    exact onlyAtmosphere_of_break h rfl
  · rintro (h | ⟨gap, remark, rfl, hgap, hremark⟩)
    · exact skipped_eq_nil_iff.mp h.skipped_eq_nil
    · rw [← skipped_eq_nil_iff, hgap.skipped_append, skipped_eq_nil_iff]
      exact .comment hremark rfl .nil

namespace Scanner

variable {α β : Type} {call : Scanner → Option α × Scanner} {answers : Scanner → List β}

/-- A call takes a character, or answers the end for good. -/
structure Progresses (call : Scanner → Option α × Scanner) (answers : Scanner → List β) : Prop where

  ends (s : Scanner) : (call s).1 = none → answers s = [] ∧ (call (call s).2).1 = none

  advances (s : Scanner) : (call s).1 ≠ none →
    (call s).2.unread.length < s.unread.length ∧
      (answers s).length = (answers (call s).2).length + 1

namespace Progresses

theorem length_le (h : Progresses call answers) (s : Scanner) :
    (answers s).length ≤ s.unread.length := by
  generalize hn : (answers s).length = n
  induction n generalizing s with
  | zero => exact Nat.zero_le _
  | succ n ih =>
    by_cases hcall : (call s).1 = none
    · rw [(h.ends s hcall).1] at hn
      cases hn
    · obtain ⟨hlt, hlength⟩ := h.advances s hcall
      have hle := ih (call s).2 (by omega)
      omega

theorem iterate_eq_none_iff (h : Progresses call answers) (n : Nat) (s : Scanner) :
    (call ((fun s => (call s).2)^[n] s)).1 = none ↔ (answers s).length ≤ n := by
  induction n generalizing s with
  | zero =>
    rw [Function.iterate_zero_apply]
    constructor
    · intro hcall
      rw [(h.ends s hcall).1, List.length_nil]
    · intro hle
      by_contra hcall
      have hlength := (h.advances s hcall).2
      omega
  | succ n ih =>
    rw [Function.iterate_succ_apply, ih]
    by_cases hcall : (call s).1 = none
    · obtain ⟨hnil, hnext⟩ := h.ends s hcall
      rw [hnil, (h.ends (call s).2 hnext).1]
      exact iff_of_true (Nat.zero_le _) (Nat.zero_le _)
    · rw [(h.advances s hcall).2, Nat.add_le_add_iff_right]

theorem iterate_eq_none (h : Progresses call answers) {s : Scanner} (hs : (call s).1 = none)
    (n : Nat) : (call ((fun s => (call s).2)^[n] s)).1 = none := by
  rw [h.iterate_eq_none_iff, (h.ends s hs).1]
  exact Nat.zero_le n

end Progresses

theorem next_eq_none_iff {s : Scanner} : s.next.1 = none ↔ OnlyAtmosphere s.unread := by
  rw [← skipped_eq_nil_iff_only]
  refine ⟨skipped_of_next, fun h => ?_⟩
  obtain ⟨s', hnext, -⟩ := next_of_skipped h
  rw [hnext]

theorem nextDatum_eq_none_iff_only {s : Scanner} :
    s.nextDatum.1 = none ↔ OnlyAtmosphere s.unread := by
  rw [← next_eq_none_iff]
  refine ⟨next_of_nextDatum, fun h => ?_⟩
  obtain ⟨s', hnext, -⟩ := nextDatum_of_skipped (skipped_of_next h)
  rw [hnext]

theorem next_progresses : Progresses next fun s => s.all.1 where
  ends s h := by
    have hskipped := skipped_of_next h
    obtain ⟨s', hnext, hunread⟩ := next_of_skipped hskipped
    refine ⟨(all_of_skipped hskipped).1, ?_⟩
    rw [hnext, next_eq_none_iff, hunread]
    exact .inl .nil
  advances s h := by
    obtain ⟨answer, hanswer⟩ := Option.ne_none_iff_exists'.mp h
    have hnext : s.next = (some answer, s.next.2) := Prod.ext hanswer rfl
    exact ⟨next_unread_lt hnext, by rw [(all_of_next hnext).1, List.length_cons]⟩

theorem nextDatum_progresses : Progresses nextDatum fun s => s.data.1 where
  ends s h := by
    obtain ⟨s', hnext, hunread⟩ := nextDatum_of_skipped (skipped_of_next (next_of_nextDatum h))
    refine ⟨data_of_none h, ?_⟩
    rw [hnext, nextDatum_eq_none_iff_only, hunread]
    exact .inl .nil
  advances s h := by
    obtain ⟨answer, hanswer⟩ := Option.ne_none_iff_exists'.mp h
    have hnext : s.nextDatum = (some answer, s.nextDatum.2) := Prod.ext hanswer rfl
    exact ⟨nextDatum_unread_lt hnext, by rw [data_of_datum hnext, List.length_cons]⟩

/-- Scanning and reading end, whatever errors they go on behind: there are no more answers than
characters. -/
theorem continuing_ends (s : Scanner) :
    ((s.next.1 ≠ none → s.next.2.unread.length < s.unread.length) ∧
      (s.next.1 = none ↔ OnlyAtmosphere s.unread) ∧
      (s.next.1 = none → ∀ n, ((fun s => s.next.2)^[n] s).next.1 = none)) ∧
    ((s.nextDatum.1 ≠ none → s.nextDatum.2.unread.length < s.unread.length) ∧
      (s.nextDatum.1 = none ↔ OnlyAtmosphere s.unread) ∧
      (s.nextDatum.1 = none → ∀ n, ((fun s => s.nextDatum.2)^[n] s).nextDatum.1 = none)) ∧
    (s.all.1.length ≤ s.unread.length ∧ s.data.1.length ≤ s.unread.length) ∧
    ∀ n, (((fun s => s.next.2)^[n] s).next.1 = none ↔ s.all.1.length ≤ n) ∧
      (((fun s => s.nextDatum.2)^[n] s).nextDatum.1 = none ↔ s.data.1.length ≤ n) :=
  ⟨⟨fun h => (next_progresses.advances s h).1, next_eq_none_iff, next_progresses.iterate_eq_none⟩,
    ⟨fun h => (nextDatum_progresses.advances s h).1, nextDatum_eq_none_iff_only,
      nextDatum_progresses.iterate_eq_none⟩,
    ⟨next_progresses.length_le s, nextDatum_progresses.length_le s⟩,
    fun n => ⟨next_progresses.iterate_eq_none_iff n s,
      nextDatum_progresses.iterate_eq_none_iff n s⟩⟩

theorem continuing_ends_open :
    let broken := ofString "(a #q"
    let comment := ofString " ;a"
    (broken.next.1 ≠ none ∧ broken.nextDatum.1 ≠ none ∧ comment.next.1 = none ∧
      comment.nextDatum.1 = none) ∧
    broken.next.2.unread.length < 5 ∧ broken.nextDatum.2.unread.length < 5 ∧
    ∀ n, ((fun s => s.next.2)^[n] comment).next.1 = none ∧
      ((fun s => s.nextDatum.2)^[n] comment).nextDatum.1 = none := by
  intro broken comment
  have hopen : broken.next.1 = some (.ok .listOpen) := rfl
  have htoken : broken.next.1 ≠ none := by simp [hopen]
  have hdatum : broken.nextDatum.1 ≠ none := fun h => htoken (next_of_nextDatum h)
  have hend : comment.next.1 = none := rfl
  have hend' : comment.nextDatum.1 = none :=
    nextDatum_eq_none_iff_only.mpr (next_eq_none_iff.mp hend)
  obtain ⟨⟨hnext, -, -⟩, ⟨hnextDatum, -, -⟩, -, -⟩ := continuing_ends broken
  obtain ⟨⟨-, -, hstays⟩, ⟨-, -, hstays'⟩, -, -⟩ := continuing_ends comment
  exact ⟨⟨htoken, hdatum, hend, hend'⟩, hnext htoken, hnextDatum hdatum,
    fun n => ⟨hstays hend n, hstays' hend' n⟩⟩

end Scanner

end SmallScheme
