import SmallScheme.Proofs.Token.Seam

/-! # Every answer fits its text

What a call takes is made of blanks, comments and what its answer stands for, and it is cut where the
answer says. A number is answered where a name, a numeral or a numeral behind two signs stands in
front of a delimiter, and nowhere else. The second sign is one too many: it comes from reading what
stands behind a sign as a number that may have its own.
-/

namespace SmallScheme

open Character

namespace Lexeme

theorem dot_ne_number (rest : List Char) (x : Float) :
    (dot rest).result ≠ .ok (.atom (.number x)) := by
  have hdelimited : ∀ {token : Token} {n m : Nat} {after : List Char},
      token ≠ .atom (.number x) →
      (delimited (.ok token) n m after).result ≠ .ok (.atom (.number x)) := by
    intro token n m after htoken
    unfold delimited
    split
    · simpa using htoken
    · split
      · simpa using htoken
      · simp
  rw [dot]
  split
  · exact hdelimited (by simp [symbolToken])
  · exact hdelimited (by simp)

end Lexeme

namespace Scanner

variable {s t : Scanner} {answer : Except SyntaxError Token} {rest : List Char} {x : Float}

theorem next_fits (h : s.next = (some answer, t)) : ∃ gap text,
    s.unread = gap ++ (text ++ t.unread) ∧ Atmosphere gap ∧ FittingAnswer answer text t.unread := by
  cases hskipped : skipped s.unread with
  | nil =>
    obtain ⟨_, hnone, -⟩ := next_of_skipped hskipped
    cases hnone.symm.trans h
  | cons c rest =>
    obtain ⟨t', hnext, hunread⟩ := next_of_skipped_cons hskipped
    cases hnext.symm.trans h
    obtain ⟨gap, hgap, hatmosphere⟩ := exists_gap (hskipped ▸ List.cons_ne_nil c rest)
    obtain ⟨taken, after, hsplit, hlength, hfits⟩ := Lexeme.cuts_front c rest
    rw [hsplit, List.drop_left' hlength] at hunread
    rw [hskipped, hsplit, ← hunread] at hgap
    exact ⟨gap, taken, hgap, hatmosphere, hunread ▸ hfits⟩

/-- Every token is a lexeme cut at its end, and a missing delimiter is reported as the next
character. -/
theorem next_lexical (s t : Scanner) :
    (∀ token, s.next = (some (.ok token), t) → ∃ gap text,
      s.unread = gap ++ (text ++ t.unread) ∧ Atmosphere gap ∧ token.Lexical text ∧
        token.EndsAt t.unread) ∧
      ∀ c, s.next = (some (.error (.expectedDelimiter c)), t) →
        t.unread.head? = some c ∧ ¬ isDelimiter c := by
  constructor
  · intro token h
    obtain ⟨gap, text, hunread, hgap, hlexical, hend⟩ := next_fits h
    exact ⟨gap, text, hunread, hgap, hlexical, hend⟩
  · intro c h
    obtain ⟨_, _, -, -, hfits⟩ := next_fits h
    exact hfits

theorem next_lexical_capitals :
    let named := ofString ";'\n#\\SPACE)"
    let longer := ofString "#TRue"
    (∃ gap text, named.unread = gap ++ (text ++ named.next.2.unread) ∧ Atmosphere gap ∧
      (Token.atom (.character ' ')).Lexical text ∧ Closed named.next.2.unread) ∧
      longer.next.2.unread.head? = some 'R' ∧ ¬ isDelimiter 'R' := by
  intro named longer
  have hnamed : named.next = (some (.ok (.atom (.character ' '))), named.next.2) := rfl
  have hlonger : longer.next = (some (.error (.expectedDelimiter 'R')), longer.next.2) := rfl
  exact ⟨(next_lexical named _).1 _ hnamed, (next_lexical longer _).2 _ hlonger⟩

theorem head?_ne_point_of_next {gap text : List Char}
    (h : s.next = (some (.ok (.atom (.number x))), t)) (hunread : s.unread = gap ++ (text ++ rest))
    (hgap : Atmosphere gap) : text.head? ≠ some '.' := by
  intro hpoint
  obtain ⟨more, rfl⟩ := List.head?_eq_some_iff.mp hpoint
  have hskipped : skipped s.unread = '.' :: (more ++ rest) := by
    rw [hunread, hgap.skipped_append]
    rfl
  obtain ⟨t', hnext, -⟩ := next_of_skipped_cons hskipped
  have hanswer := Option.some.inj (congrArg Prod.fst (hnext.symm.trans h))
  exact Lexeme.dot_ne_number (more ++ rest) x hanswer

/-- The numbers are the names and the numerals, and digits behind two signs, which multiply. -/
theorem next_number_iff (s : Scanner) (x : Float) (rest : List Char) :
    (∃ t, s.next = (some (.ok (.atom (.number x))), t) ∧ t.unread = rest) ↔
      ∃ gap text, s.unread = gap ++ (text ++ rest) ∧ Atmosphere gap ∧ Closed rest ∧
        text.head? ≠ some '.' ∧
        (Numeral.Names text x ∨ Numeral.Denotes text x ∨ Numeral.DoublySigned text x) := by
  constructor
  · rintro ⟨t, hnext, rfl⟩
    obtain ⟨gap, text, hunread, hgap, hlexical, hclosed⟩ := next_fits hnext
    cases hlexical with
    | number haccepts =>
      exact ⟨gap, text, hunread, hgap, hclosed, head?_ne_point_of_next hnext hunread hgap, haccepts⟩
  · rintro ⟨gap, text, hunread, hgap, hclosed, hpoint, haccepts⟩
    have hscans := scans_accepted haccepts hpoint hclosed
    exact next_of_scans hscans (by rw [hunread, hgap.skipped_append, hscans.skipped_eq])

/-- A negative number behind a minus is scanned as a number, but it is no numeral. -/
theorem next_number_two_signs :
    let s := ofString "--1"
    let one := Binary64.ofMagnitude false (Decimal.magnitude ⟨1, 0⟩)
    ∃ t, s.next = (some (.ok (.atom (.number one))), t) ∧
      ¬ ∃ gap text, s.unread = gap ++ (text ++ t.unread) ∧ Atmosphere gap ∧
        (Numeral.Names text one ∨ Numeral.Denotes text one) := by
  intro s one
  have htwice : Numeral.DoublySigned ['-', '-', '1'] one :=
    .mk true true (.whole (List.cons_ne_nil '1' []) (List.forall_mem_singleton.mpr rfl))
  have hscans : Scans (['-', '-', '1'] ++ []) (.atom (.number one)) [] :=
    scans_accepted (.inr (.inr htwice)) (by decide) closed_nil
  obtain ⟨t, hnext, hunread⟩ := @next_of_scans _ _ _ s hscans rfl
  refine ⟨t, hnext, ?_⟩
  rintro ⟨gap, text, htext, hgap, hnumeral⟩
  have hsplit : ['-', '-', '1'] = gap ++ text := by
    rw [hunread, List.append_nil] at htext
    exact htext
  cases hgap with
  | nil =>
    rw [List.nil_append] at hsplit
    exact htwice.not_numeral (hsplit ▸ hnumeral)
  | blank hblank _ =>
    obtain ⟨rfl, -⟩ := List.cons_eq_cons.mp hsplit
    cases hblank
  | comment _ _ _ => cases (List.cons_eq_cons.mp hsplit).1

end Scanner

end SmallScheme
