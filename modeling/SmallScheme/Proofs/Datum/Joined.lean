import SmallScheme.Proofs.Datum.Printed
import SmallScheme.Proofs.Datum.Refusal
import SmallScheme.Proofs.Token.Seam

/-! # The data of a text that goes on

Put a line break and more text behind a text. The data and errors that are read from the text come
out as before, up to an error that says that the text ends too early. If there is none, the data of
the text behind come next.
-/

namespace SmallScheme

variable {s s' s₁ t u : Scanner} {wanted : Pending} {answer : Except SyntaxError Datum}
  {more : List Char}

namespace Pending

theorem next_congr {found : Option (Except SyntaxError Datum)} (hs : wanted.next s = (found, s'))
    (ht : skipped t.unread = skipped s.unread) :
    ∃ t', wanted.next t = (found, t') ∧ t'.unread = s'.unread := by
  fun_induction next wanted s generalizing t with
  | case1 s rest h =>
    cases hs
    obtain ⟨t', hnext, hunread⟩ := Scanner.next_congr h ht
    exact ⟨t', next_of_end hnext, hunread⟩
  | case2 wanted s rest h hne =>
    cases hs
    obtain ⟨t', hnext, hunread⟩ := Scanner.next_congr h ht
    refine ⟨t', ?_, hunread⟩
    rw [next_of_end hnext]
    split
    · exact (hne rfl).elim
    · rfl
  | case3 wanted s e rest h =>
    cases hs
    obtain ⟨t', hnext, hunread⟩ := Scanner.next_congr h ht
    exact ⟨t', next_of_error hnext wanted, hunread⟩
  | case4 wanted s token rest h _ e hf | case5 wanted s token rest h _ d hf =>
    cases hs
    obtain ⟨t', hnext, hunread⟩ := Scanner.next_congr h ht
    exact ⟨t', by rw [next_of_token hnext, hf], hunread⟩
  | case6 wanted s token rest h _ wanted' hf ih =>
    obtain ⟨t₁, hnext, hunread⟩ := Scanner.next_congr h ht
    rw [next_of_token hnext, hf]
    exact ih hs (by rw [hunread])

/-- What is read in front of the seam is also read if the text goes on behind. -/
theorem next_join (hs : wanted.next s = (some answer, s'))
    (hanswer : answer ≠ .error .unexpectedEnd) (ht : t.unread = s.unread ++ '\n' :: more) :
    ∃ t', wanted.next t = (some answer, t') ∧ t'.unread = s'.unread ++ '\n' :: more := by
  fun_induction next wanted s generalizing t with
  | case1 => cases hs
  | case2 =>
    cases hs
    exact (hanswer rfl).elim
  | case3 wanted s e rest h =>
    cases hs
    have he : (.error e : Except SyntaxError Token) ≠ .error .unexpectedEnd := by
      rintro ⟨⟩
      exact hanswer rfl
    obtain ⟨t', hnext, hunread⟩ := Scanner.next_join h he ht
    exact ⟨t', next_of_error hnext wanted, hunread⟩
  | case4 wanted s token rest h _ e hf | case5 wanted s token rest h _ d hf =>
    cases hs
    obtain ⟨t', hnext, hunread⟩ := Scanner.next_join h (by rintro ⟨⟩) ht
    exact ⟨t', by rw [next_of_token hnext, hf], hunread⟩
  | case6 wanted s token rest h _ wanted' hf ih =>
    obtain ⟨t₁, hnext, hunread⟩ := Scanner.next_join h (by rintro ⟨⟩) ht
    rw [next_of_token hnext, hf]
    exact ih hs hunread

theorem supplies_of_next (h : wanted.next s = (none, s')) : ∃ ts last, s.Supplies ts last ∧
    last.next.1 = none ∧ Reads maxNesting (.pending wanted) ts (.pending (.datum [])) := by
  fun_induction next wanted s with
  | case1 s rest hnext => exact ⟨[], s, .nil, by rw [hnext], .nil _ _⟩
  | case2 | case3 | case4 | case5 => cases h
  | case6 wanted s token rest hnext _ wanted' hf ih =>
    obtain ⟨ts, last, hts, hlast, hr⟩ := ih h
    exact ⟨token :: ts, last, .cons hnext hts, hlast, (Reads.of_feed hf).append hr⟩

end Pending

namespace Scanner

theorem next_of_nextDatum (h : s.nextDatum.1 = none) : s.next.1 = none := by
  obtain ⟨ts, last, hts, hlast, hr⟩ := Pending.supplies_of_next (Prod.ext h rfl)
  cases after_nil_iff.mp (reads_iff_after.mp hr)
  cases hts
  exact hlast

theorem data_cases (s : Scanner) : (s.nextDatum.1 = none ∧ s.data.1 = []) ∨
    ∃ answer s', s.nextDatum = (some answer, s') ∧ s.data.1 = (answer, s') :: s'.data.1 := by
  cases h : s.nextDatum with
  | mk found s' =>
    cases found with
    | none => exact .inl ⟨rfl, data_of_none (by rw [h])⟩
    | some answer => exact .inr ⟨answer, s', rfl, data_of_datum h⟩

theorem data_eq_nil_iff : s.data.1 = [] ↔ skipped s.unread = [] := by
  refine ⟨fun h => ?_, data_of_skipped⟩
  rcases data_cases s with ⟨hnone, -⟩ | ⟨answer, s', -, hcons⟩
  · exact skipped_of_next (next_of_nextDatum hnone)
  · rw [h] at hcons
    cases hcons

theorem data_congr (hs : skipped t.unread = skipped s.unread) :
    t.data.1.map (·.1) = s.data.1.map (·.1) := by
  fun_induction data s generalizing t with
  | case1 s rest hnext =>
    have hskipped := skipped_of_next (next_of_nextDatum (by rw [hnext]))
    rw [data_of_skipped (hs.trans hskipped)]
  | case2 s answer rest hnext _ answers last hrest ih =>
    obtain ⟨t', hdatum, hunread⟩ := Pending.next_congr hnext hs
    rw [hrest] at ih
    rw [data_of_datum hdatum, List.map_cons, List.map_cons, ih (by rw [hunread])]

theorem data_join {before after : List (Except SyntaxError Datum)}
    (hs : s.data.1.map (·.1) = before ++ after) (hbefore : .error .unexpectedEnd ∉ before)
    (ht : t.unread = s.unread ++ '\n' :: more) :
    ∃ s' t' : Scanner, s'.data.1.map (·.1) = after ∧ t'.unread = s'.unread ++ '\n' :: more ∧
      t.data.1.map (·.1) = before ++ t'.data.1.map (·.1) := by
  induction before generalizing s t with
  | nil => exact ⟨s, t, hs, ht, rfl⟩
  | cons answer before ih =>
    obtain ⟨hne, hrest⟩ := List.ne_and_not_mem_of_not_mem_cons hbefore
    rcases data_cases s with ⟨-, hnil⟩ | ⟨answer', s₁, hdatum, hcons⟩
    · rw [hnil] at hs
      cases hs
    · rw [hcons, List.map_cons, List.cons_append, List.cons.injEq] at hs
      obtain ⟨rfl, hs⟩ := hs
      obtain ⟨t₁, hdatum', hunread⟩ := Pending.next_join hdatum hne.symm ht
      obtain ⟨s', t', hafter, hjoined, hdata⟩ := ih hs hrest hunread
      refine ⟨s', t', hafter, hjoined, ?_⟩
      rw [data_of_datum hdatum', List.map_cons, hdata, List.cons_append]

end Scanner

namespace Datum

variable {a b : String} {before after : List (Except SyntaxError Datum)}

theorem unread_join (a b : String) : (Scanner.ofString (a ++ "\n" ++ b)).unread =
    (Scanner.ofString a).unread ++ '\n' :: (Scanner.ofString b).unread := by
  simp [Scanner.ofString]

theorem readEach_eq_nil_iff : readEach b = [] ↔ Atmosphere (b.toList ++ ['\n']) := by
  rw [readEach, List.map_eq_nil_iff, Scanner.data_eq_nil_iff]
  exact skipped_eq_nil_iff

theorem readEach_join_of_prefix (h : readEach a = before ++ after)
    (hbefore : .error .unexpectedEnd ∉ before) (b : String) :
    ∃ rest, readEach (a ++ "\n" ++ b) = before ++ rest := by
  obtain ⟨_, t', -, -, hdata⟩ := Scanner.data_join h hbefore (unread_join a b)
  exact ⟨_, hdata⟩

theorem readEach_join (h : .error .unexpectedEnd ∉ readEach a) (b : String) :
    readEach (a ++ "\n" ++ b) = readEach a ++ readEach b := by
  obtain ⟨s', t', hend, hunread, hdata⟩ :=
    Scanner.data_join (List.append_nil _).symm h (unread_join a b)
  have hskipped : skipped s'.unread = [] := Scanner.data_eq_nil_iff.mp (List.map_eq_nil_iff.mp hend)
  have hrest : t'.data.1.map (·.1) = readEach b :=
    Scanner.data_congr (by rw [hunread, skipped_join_of_nil hskipped])
  rw [hrest] at hdata
  exact hdata

/-- Where a text has no error, its data come first, and then the data of the text behind. -/
theorem readAll_join {xs : List Datum} (h : readAll a = .ok xs) (b : String) :
    readAll (a ++ "\n" ++ b) = (xs ++ ·) <$> readAll b := by
  have heach := eq_map_of_mapM h
  rw [readAll, readEach_join (by rw [heach]; simp), List.mapM_append]
  rw [readAll] at h
  rw [h, readAll]
  rfl

end Datum

end SmallScheme
