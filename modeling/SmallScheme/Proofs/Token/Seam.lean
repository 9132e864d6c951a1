import SmallScheme.Proofs.Token.Layout

/-! # Texts that go on behind a line break

At the end of a text and at a line break the token rules take different branches. Still they answer
the same there, unless the text ends inside a token, and no rule looks across the seam. Behind the
last token only blanks and comments are left, and the line break ends the last comment.
-/

namespace SmallScheme

open Character

variable {text tail rest after word more : List Char} {c first : Char} {n m m' : Nat}
  {r : Except SyntaxError Token} {l l' : Lexeme}

/-- The lexemes are the same, but for how far the rules have looked. -/
def Lexeme.Agrees (l l' : Lexeme) : Prop := l.result = l'.result ∧ l.length = l'.length

namespace Lexeme

theorem agrees_of_eq (h : l = l') : l.Agrees l' := h ▸ ⟨rfl, rfl⟩

theorem delimited_append (h : Closed tail) :
    (delimited r n m (after ++ tail)).Agrees (delimited r n m' after) := by
  cases after with
  | nil =>
    rw [List.nil_append, delimited_of_closed h]
    exact ⟨rfl, rfl⟩
  | cons d after =>
    rw [List.cons_append, delimited, delimited]
    split <;> exact ⟨rfl, rfl⟩

theorem startsWith_append (h : Closed tail) (hword : word.all fun w => !isDelimiter w) :
    startsWith word (text ++ tail) = startsWith word text := by
  induction word generalizing text with
  | nil => rfl
  | cons w word ih =>
    rw [List.all_cons, Bool.and_eq_true, Bool.not_eq_true'] at hword
    cases text with
    | nil => exact startsWith_of_closed h (by rw [hword.1]; decide)
    | cons c text => rw [List.cons_append, startsWith, startsWith, ih hword.2]

theorem length_le_of_startsWith (h : startsWith word text) : word.length ≤ text.length := by
  induction word generalizing text with
  | nil => exact Nat.zero_le _
  | cons w word ih =>
    cases text with
    | nil => cases h
    | cons c text =>
      rw [startsWith, Bool.and_eq_true] at h
      exact Nat.succ_le_succ (ih h.2)

theorem delimited_drop_append (h : Closed tail) (hstarts : startsWith word text) :
    (delimited r n m ((text ++ tail).drop word.length)).Agrees
      (delimited r n m' (text.drop word.length)) := by
  rw [List.drop_append_of_le_length (length_le_of_startsWith hstarts)]
  exact delimited_append h

theorem takeWhile_append {p : Char → Bool} (hp : ∀ c, p c → isSubsequent c) (h : Closed tail)
    (text : List Char) : (text ++ tail).takeWhile p = text.takeWhile p ∧
      (text ++ tail).dropWhile p = text.dropWhile p ++ tail := by
  induction text with
  | nil => exact takeWhile_of_closed hp (List.forall_mem_nil _) h
  | cons c text ih =>
    rw [List.cons_append, List.takeWhile_cons, List.dropWhile_cons, List.takeWhile_cons,
      List.dropWhile_cons]
    split
    · exact ⟨by rw [ih.1], ih.2⟩
    · exact ⟨rfl, rfl⟩

theorem symbol_append (h : Closed tail) (c : Char) (rest : List Char) :
    (symbol c (rest ++ tail)).Agrees (symbol c rest) := by
  obtain ⟨htake, hdrop⟩ := takeWhile_append (fun _ => id) h rest
  rw [symbol, symbol, htake, hdrop]
  exact delimited_append h

theorem numeral_append (h : Closed tail) (negative : Bool) (first : Char) (rest : List Char) :
    (numeral negative n m first (rest ++ tail)).Agrees (numeral negative n m' first rest) := by
  obtain ⟨htake, hdrop⟩ := takeWhile_append (fun _ => isSubsequent_of_numeral) h rest
  rw [numeral, numeral, htake, hdrop]
  exact delimited_append h

theorem signed_append (h : Closed tail) (negative : Bool) (rest : List Char) :
    (signed negative (rest ++ tail)).Agrees (signed negative rest) := by
  cases rest with
  | nil => exact agrees_of_eq (signed_of_closed h negative)
  | cons first more =>
    have hinfinity := @startsWith_append (first :: more) tail infinityName h rfl
    have hnan := @startsWith_append (first :: more) tail nanName h rfl
    rw [List.cons_append] at hinfinity hnan ⊢
    simp only [signed, hinfinity, hnan]
    split
    · exact ⟨rfl, rfl⟩
    split
    · rename_i hstarts
      exact delimited_drop_append h hstarts
    split
    · rename_i hstarts
      exact delimited_drop_append h hstarts
    · exact numeral_append h negative first more

/-- A string that is closed, or broken by an escape, has ended before the tail. -/
theorem stringContents_append (hr : (stringContents rest).1 ≠ .error .unexpectedEnd)
    (tail : List Char) : stringContents (rest ++ tail) = stringContents rest := by
  have hmap : ∀ {c : Char} {r : Except SyntaxError (List Char)},
      r.map (c :: ·) ≠ .error .unexpectedEnd → r ≠ .error .unexpectedEnd := by
    rintro c r h rfl
    exact h rfl
  fun_induction stringContents rest with
  | case1 | case3 => exact (hr rfl).elim
  | case2 => rfl
  | case4 c rest hc contents length heq ih =>
    rw [List.cons_append, List.cons_append, stringContents, if_pos hc,
      ih (by rw [heq]; exact hmap hr), heq]
  | case5 c rest hc => rw [List.cons_append, List.cons_append, stringContents, if_neg hc]
  | case6 c rest hquote hlast hslash contents length heq ih =>
    have hc : c ≠ '\\' := by
      rintro rfl
      cases rest with
      | nil => exact hlast rfl rfl
      | cons d rest => exact hslash d rest rfl rfl
    rw [List.cons_append, stringContents, ih (by rw [heq]; exact hmap hr), heq]
    · exact hquote
    · exact fun hc' => absurd hc' hc
    · exact fun _ _ hc' => absurd hc' hc

theorem string_append (hr : (string rest).result ≠ .error .unexpectedEnd) (tail : List Char) :
    string (rest ++ tail) = string rest := by
  have hcontents : (stringContents rest).1 ≠ .error .unexpectedEnd := by
    intro h
    exact hr (by rw [string]; simp only [h]; rfl)
  rw [string, string, stringContents_append hcontents]

theorem character_append (h : Closed tail)
    (hr : (character rest).result ≠ .error .unexpectedEnd) :
    (character (rest ++ tail)).Agrees (character rest) := by
  have hnewline := @startsWith_append rest tail newlineName h rfl
  have hspace := @startsWith_append rest tail spaceName h rfl
  simp only [character, hnewline, hspace]
  split
  · rename_i hstarts
    exact delimited_drop_append h hstarts
  split
  · rename_i hstarts
    exact delimited_drop_append h hstarts
  · cases rest with
    | nil => exact (hr rfl).elim
    | cons c after => exact delimited_append h

theorem unquoted_append (h : Closed tail) (plain splicing : Abbreviation) (n : Nat)
    (rest : List Char) : unquoted plain splicing n (rest ++ tail) =
      unquoted plain splicing n rest := by
  cases rest with
  | nil =>
    have hat : tail.head? ≠ some '@' := fun hhead => absurd (h '@' hhead) (by decide)
    rw [List.nil_append, unquoted, if_neg hat]
    rfl
  | cons c rest => rfl

theorem hash_append (h : Closed tail) (hr : (hash rest).result ≠ .error .unexpectedEnd) :
    (hash (rest ++ tail)).Agrees (hash rest) := by
  cases rest with
  | nil => exact (hr rfl).elim
  | cons c after =>
    rw [List.cons_append]
    simp only [hash] at hr ⊢
    generalize c.toLower = mark at hr ⊢
    split
    · exact ⟨rfl, rfl⟩
    · exact ⟨rfl, rfl⟩
    · exact ⟨rfl, rfl⟩
    · exact agrees_of_eq (unquoted_append h _ _ _ _)
    · exact delimited_append h
    · exact delimited_append h
    · exact character_append h hr
    · exact ⟨rfl, rfl⟩

theorem dot_append (h : Closed tail) (rest : List Char) :
    (dot (rest ++ tail)).Agrees (dot rest) := by
  rw [dot, dot, @startsWith_append rest tail ['.', '.'] h rfl]
  split
  · rename_i hstarts
    exact delimited_drop_append h hstarts
  · exact delimited_append h

/-- A lexeme that the text does not end in is the same with a closed tail behind the text. -/
theorem front_append (h : Closed tail) (hr : (front c rest).result ≠ .error .unexpectedEnd) :
    (front c (rest ++ tail)).Agrees (front c rest) := by
  simp only [front] at hr ⊢
  split
  · exact symbol_append h c rest
  split
  · exact numeral_append h false c rest
  rw [if_neg ‹_›, if_neg ‹_›] at hr
  split
  · exact hash_append h hr
  · exact agrees_of_eq (string_append hr tail)
  · exact dot_append h rest
  · exact agrees_of_eq (unquoted_append h _ _ _ _)
  · exact signed_append h false rest
  · exact signed_append h true rest
  all_goals exact ⟨rfl, rfl⟩

end Lexeme

/-! Blanks and comments in front of the seam. -/

theorem atmosphere_le_length (inComment : Bool) (text : List Char) :
    atmosphere inComment text ≤ text.length := by
  induction text generalizing inComment with
  | nil => exact Nat.zero_le _
  | cons c text ih =>
    rw [atmosphere]
    split
    · exact Nat.succ_le_succ (ih _)
    · exact Nat.zero_le _

/-- What is skipped ends in front of the seam, unless all of the text is skipped. -/
theorem atmosphere_join (inComment : Bool) (text more : List Char) :
    atmosphere inComment (text ++ '\n' :: more) =
      if atmosphere inComment text = text.length then text.length + 1 + atmosphere false more
      else atmosphere inComment text := by
  induction text generalizing inComment with
  | nil =>
    have hbreak : atmosphere inComment ('\n' :: more) = atmosphere false more + 1 := by
      cases inComment <;> rfl
    rw [List.nil_append, hbreak, if_pos (by rfl), List.length_nil]
    omega
  | cons c text ih =>
    rw [List.cons_append, atmosphere, atmosphere]
    split
    · rw [ih, List.length_cons]
      split
      · rename_i hall
        rw [if_pos (by rw [hall])]
        omega
      · rename_i hsome
        rw [if_neg (fun h => hsome (Nat.succ.inj h))]
    · rfl

variable {s s' t : Scanner} {answer : Except SyntaxError Token}

theorem skipped_eq_nil_iff_atmosphere :
    skipped text = [] ↔ atmosphere false text = text.length := by
  rw [skipped, List.drop_eq_nil_iff]
  have hle := atmosphere_le_length false text
  omega

theorem skipped_join_of_nil (h : skipped text = []) (more : List Char) :
    skipped (text ++ '\n' :: more) = skipped more := by
  have hsplit : text ++ '\n' :: more = text ++ ['\n'] ++ more := by simp
  have hlength : text.length + 1 = (text ++ ['\n']).length := by simp
  rw [skipped, atmosphere_join, if_pos (skipped_eq_nil_iff_atmosphere.mp h), hsplit, hlength,
    List.drop_length_add_append, skipped]

theorem skipped_join_of_ne_nil (h : skipped text ≠ []) (more : List Char) :
    skipped (text ++ '\n' :: more) = skipped text ++ '\n' :: more := by
  rw [skipped, atmosphere_join, if_neg fun hall => h (skipped_eq_nil_iff_atmosphere.mpr hall),
    List.drop_append_of_le_length (atmosphere_le_length false text), skipped]

/-- The rest of a comment up to the break that ends its line, and then blanks and comments. -/
def InComment (text : List Char) : Prop :=
  ∃ remark c rest, text = remark ++ c :: rest ∧ (∀ d ∈ remark, ¬ isLineBreak d) ∧ isLineBreak c ∧
    Atmosphere rest

theorem InComment.cons (h : InComment text) (hc : ¬ isLineBreak c) : InComment (c :: text) := by
  obtain ⟨remark, b, rest, rfl, hremark, hb, hrest⟩ := h
  exact ⟨c :: remark, b, rest, rfl, List.forall_mem_cons.mpr ⟨hc, hremark⟩, hb, hrest⟩

theorem InComment.comment (h : InComment text) : Atmosphere (';' :: text) := by
  obtain ⟨remark, b, rest, rfl, hremark, hb, hrest⟩ := h
  exact .comment hremark hb hrest

def breakAtEnd (inComment : Bool) (text : List Char) : List Char :=
  if atmosphere inComment text = text.length then ['\n'] else []

theorem breakAtEnd_cons {outer inner : Bool}
    (h : atmosphere outer (c :: text) = atmosphere inner text + 1) :
    breakAtEnd outer (c :: text) = breakAtEnd inner text := by
  simp [breakAtEnd, h]

theorem atmosphere_take (text : List Char) :
    Atmosphere (text.take (atmosphere false text) ++ breakAtEnd false text) ∧
      InComment (text.take (atmosphere true text) ++ breakAtEnd true text) := by
  induction text with
  | nil => exact ⟨.blank rfl .nil, [], '\n', [], rfl, List.forall_mem_nil _, rfl, .nil⟩
  | cons c text ih =>
    obtain ⟨houter, hinner⟩ := ih
    constructor
    · by_cases hc : c = ';'
      · subst hc
        have hskip : atmosphere false (';' :: text) = atmosphere true text + 1 := rfl
        rw [breakAtEnd_cons hskip, hskip, List.take_succ_cons, List.cons_append]
        exact hinner.comment
      · by_cases hb : isBlank c
        · rw [breakAtEnd_cons (atmosphere_blank hb text), atmosphere_blank hb, List.take_succ_cons,
            List.cons_append]
          exact .blank hb houter
        · have hskip : atmosphere false (c :: text) = 0 := by simp [atmosphere, hc, hb]
          have hbreak : breakAtEnd false (c :: text) = [] := by simp [breakAtEnd, hskip]
          rw [hskip, hbreak]
          exact .nil
    · by_cases hc : isLineBreak c
      · have hskip : atmosphere true (c :: text) = atmosphere false text + 1 := by
          simp [atmosphere, hc, isBlank_of_isLineBreak hc]
        rw [breakAtEnd_cons hskip, hskip, List.take_succ_cons, List.cons_append]
        exact ⟨[], c, _, rfl, List.forall_mem_nil _, hc, houter⟩
      · have hskip : atmosphere true (c :: text) = atmosphere true text + 1 := by
          simp [atmosphere, hc]
        rw [breakAtEnd_cons hskip, hskip, List.take_succ_cons, List.cons_append]
        exact hinner.cons hc

theorem skipped_eq_nil_iff : skipped text = [] ↔ Atmosphere (text ++ ['\n']) := by
  constructor
  · intro h
    have hall := skipped_eq_nil_iff_atmosphere.mp h
    have htake := (atmosphere_take text).1
    rwa [breakAtEnd, if_pos hall, hall, List.take_length] at htake
  · intro h
    by_contra hne
    have hall := h.skipped_eq_nil
    rw [skipped_join_of_ne_nil hne] at hall
    exact List.cons_ne_nil _ _ (List.append_eq_nil_iff.mp hall).2

theorem exists_gap (h : skipped text ≠ []) : ∃ gap, text = gap ++ skipped text ∧ Atmosphere gap := by
  have htake := (atmosphere_take text).1
  rw [breakAtEnd, if_neg fun hall => h (skipped_eq_nil_iff_atmosphere.mpr hall),
    List.append_nil] at htake
  exact ⟨_, (List.take_append_drop _ text).symm, htake⟩

namespace Scanner

theorem next_congr {found : Option (Except SyntaxError Token)} (hs : s.next = (found, s'))
    (ht : skipped t.unread = skipped s.unread) :
    ∃ t', t.next = (found, t') ∧ t'.unread = s'.unread := by
  cases hskipped : skipped s.unread with
  | nil =>
    obtain ⟨s₁, hnext, hunread⟩ := next_of_skipped hskipped
    obtain ⟨t₁, hnext', hunread'⟩ := next_of_skipped (ht.trans hskipped)
    cases hnext.symm.trans hs
    exact ⟨t₁, hnext', hunread'.trans hunread.symm⟩
  | cons c rest =>
    obtain ⟨s₁, hnext, hunread⟩ := next_of_skipped_cons hskipped
    obtain ⟨t₁, hnext', hunread'⟩ := next_of_skipped_cons (ht.trans hskipped)
    cases hnext.symm.trans hs
    exact ⟨t₁, hnext', hunread'.trans hunread.symm⟩

/-- What a scanner answers in front of the seam it also answers if the text goes on behind. -/
theorem next_join {more : List Char} (hs : s.next = (some answer, s'))
    (hanswer : answer ≠ .error .unexpectedEnd) (ht : t.unread = s.unread ++ '\n' :: more) :
    ∃ t', t.next = (some answer, t') ∧ t'.unread = s'.unread ++ '\n' :: more := by
  cases hskipped : skipped s.unread with
  | nil =>
    obtain ⟨_, hnone, -⟩ := next_of_skipped hskipped
    cases hnone.symm.trans hs
  | cons c rest =>
    obtain ⟨s₁, hnext, hunread⟩ := next_of_skipped_cons hskipped
    cases hnext.symm.trans hs
    have hclosed : Closed ('\n' :: more) := closed_cons rfl
    obtain ⟨hresult, hlength⟩ := Lexeme.front_append hclosed hanswer
    have hjoined : skipped t.unread = c :: (rest ++ '\n' :: more) := by
      rw [ht, skipped_join_of_ne_nil (by rw [hskipped]; exact List.cons_ne_nil c rest), hskipped,
        List.cons_append]
    obtain ⟨t', hnext', hunread'⟩ := next_of_skipped_cons hjoined
    refine ⟨t', by rw [hnext', hresult], ?_⟩
    rw [hunread', hunread, hlength, ← List.cons_append]
    exact List.drop_append_of_le_length (Lexeme.front_length_le c rest)

theorem skipped_of_next (h : s.next.1 = none) : skipped s.unread = [] := by
  by_contra hne
  obtain ⟨c, rest, hcons⟩ := List.exists_cons_of_ne_nil hne
  obtain ⟨s', hnext, -⟩ := next_of_skipped_cons hcons
  rw [hnext] at h
  cases h

end Scanner

end SmallScheme
