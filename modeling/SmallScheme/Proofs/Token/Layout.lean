import SmallScheme.Proofs.Token.Lexical

/-! # Layout

How the tokens of a text are spaced out, and in which case its names are written, does not matter.
Any blanks and comments may stand before, between and behind the tokens, as long as there is
something between each two of them: the same tokens are scanned.
-/

namespace SmallScheme

open Character

/-- Blanks and comments, each of these up to the break that ends its line. -/
inductive Atmosphere : List Char → Prop

  | nil : Atmosphere []

  | blank {c : Char} {rest : List Char} : isBlank c → Atmosphere rest → Atmosphere (c :: rest)

  | comment {remark rest : List Char} {c : Char} : (∀ d ∈ remark, ¬ isLineBreak d) →
      isLineBreak c → Atmosphere rest → Atmosphere (';' :: (remark ++ c :: rest))

variable {gap text rest remark : List Char} {c : Char} {t : Token} {ts : List Token}

theorem Character.isBlank_of_isLineBreak (h : isLineBreak c) : isBlank c := by
  simp only [isLineBreak, Bool.or_eq_true, decide_eq_true_eq] at h
  rcases h with rfl | rfl <;> rfl

theorem Character.ne_semicolon_of_isBlank (h : isBlank c) : c ≠ ';' := by
  rintro rfl
  cases h

theorem atmosphere_blank (h : isBlank c) (rest : List Char) :
    atmosphere false (c :: rest) = atmosphere false rest + 1 := by
  simp [atmosphere, h, ne_semicolon_of_isBlank h]

theorem atmosphere_remark (hremark : ∀ d ∈ remark, ¬ isLineBreak d) (hc : isLineBreak c)
    (rest : List Char) :
    atmosphere true (remark ++ c :: rest) = remark.length + 1 + atmosphere false rest := by
  induction remark with
  | nil =>
    simp [atmosphere, hc, isBlank_of_isLineBreak hc]
    omega
  | cons d remark ih =>
    obtain ⟨hd, hremark⟩ := List.forall_mem_cons.mp hremark
    rw [List.cons_append, atmosphere]
    simp only [Bool.true_or, Bool.true_and, Bool.not_eq_true _ ▸ hd, Bool.not_false, if_true]
    rw [ih hremark, List.length_cons]
    omega

namespace Atmosphere

theorem atmosphere_append (h : Atmosphere gap) (text : List Char) :
    atmosphere false (gap ++ text) = gap.length + atmosphere false text := by
  induction h with
  | nil => rw [List.nil_append, List.length_nil, Nat.zero_add]
  | blank hc _ ih =>
    rw [List.cons_append, atmosphere_blank hc, ih, List.length_cons]
    omega
  | @comment remark rest c hremark hc _ ih =>
    have hsemicolon : atmosphere false (';' :: (remark ++ c :: (rest ++ text))) =
        atmosphere true (remark ++ c :: (rest ++ text)) + 1 := rfl
    rw [List.cons_append, List.append_assoc, List.cons_append, hsemicolon,
      atmosphere_remark hremark hc, ih]
    simp only [List.length_cons, List.length_append]
    omega

theorem skipped_append (h : Atmosphere gap) (text : List Char) :
    skipped (gap ++ text) = skipped text := by
  rw [skipped, h.atmosphere_append, List.drop_length_add_append]
  rfl

theorem skipped_eq_nil (h : Atmosphere gap) : skipped gap = [] := by
  have hskipped := h.skipped_append []
  rwa [List.append_nil] at hskipped

theorem closed (h : Atmosphere gap) (hgap : gap ≠ []) (rest : List Char) :
    Closed (gap ++ rest) := by
  cases h with
  | nil => exact (hgap rfl).elim
  | blank hc _ => exact closed_cons (by rw [isDelimiter, hc]; rfl)
  | comment _ _ _ => exact closed_cons rfl

end Atmosphere

def Token.Scannable (t : Token) : Prop := ∃ s s' : Scanner, s.next = (some (.ok t), s')

/-- The text is a spelling of the token. All but atoms have a single one. -/
def Token.Spells : Token → List Char → Prop
  | .atom a, text => a.Spells text
  | t, text => text = t.text.toList

/-- The text spells the tokens in order, with blanks and comments behind each of them. -/
inductive Layout : List Token → List Char → Prop

  | nil : Layout [] []

  | cons {t : Token} {ts : List Token} {text gap rest : List Char} : t.Spells text →
      Atmosphere gap → (ts = [] ∨ gap ≠ []) → Layout ts rest →
      Layout (t :: ts) (text ++ (gap ++ rest))

theorem scans_token (ht : t.Scannable) (hs : t.Spells text) (h : Closed rest) :
    Scans (text ++ rest) t rest := by
  have hat : rest.head? ≠ some '@' := fun hhead => absurd (h '@' hhead) (by decide)
  obtain ⟨s, s', hnext⟩ := ht
  cases t with
  | atom a => exact scans_spelling (Scanner.readable_of_next hnext) hs h
  | listOpen =>
    cases hs
    exact scans_listOpen rest
  | vectorOpen =>
    cases hs
    exact scans_vectorOpen rest
  | close =>
    cases hs
    exact scans_close rest
  | dot =>
    cases hs
    exact scans_dot h
  | abbreviation mark =>
    cases hs
    exact scans_abbreviation mark hat

namespace Scanner

variable {s s' : Scanner} {answer : Except SyntaxError Token}

theorem all_of_next (h : s.next = (some answer, s')) :
    s.all.1 = (answer, s') :: s'.all.1 ∧ s.all.2 = s'.all.2 := by
  rw [all]
  split
  · rename_i hnone
    cases h.symm.trans hnone
  · rename_i hsome
    cases h.symm.trans hsome
    exact ⟨rfl, rfl⟩

theorem all_of_skipped (h : skipped s.unread = []) : s.all.1 = [] ∧ s.all.2.unread = [] := by
  obtain ⟨s', hnext, hunread⟩ := next_of_skipped h
  rw [all]
  split
  · rename_i hnone
    cases hnext.symm.trans hnone
    exact ⟨rfl, hunread⟩
  · rename_i hsome
    cases hnext.symm.trans hsome

theorem all_of_layout (hts : ∀ t ∈ ts, t.Scannable) (h : Layout ts text)
    (hs : skipped s.unread = skipped text) :
    s.all.1.map (·.1) = ts.map .ok ∧ s.all.2.unread = [] := by
  induction h generalizing s with
  | nil =>
    obtain ⟨hall, hunread⟩ := all_of_skipped hs
    exact ⟨by rw [hall]; rfl, hunread⟩
  | @cons t ts text gap rest hspells hgap hsome hrest ih =>
    obtain ⟨ht, hts⟩ := List.forall_mem_cons.mp hts
    have hclosed : Closed (gap ++ rest) := by
      rcases hsome with rfl | hne
      · cases hrest
        cases gap with
        | nil => exact closed_nil
        | cons c gap => exact hgap.closed (List.cons_ne_nil c gap) []
      · exact hgap.closed hne rest
    have hscans := scans_token ht hspells hclosed
    obtain ⟨s', hnext, hunread⟩ := next_of_scans hscans (hs.trans hscans.skipped_eq)
    obtain ⟨hall, hlast⟩ := all_of_next hnext
    obtain ⟨htokens, hend⟩ := ih hts (s := s') (by rw [hunread, hgap.skipped_append])
    refine ⟨?_, hlast ▸ hend⟩
    rw [hall, List.map_cons, List.map_cons, htokens]

/-- However tokens are spelled and laid out, exactly these are scanned. -/
theorem layout_immaterial {before : List Char} (hts : ∀ t ∈ ts, t.Scannable)
    (hbefore : Atmosphere before) (h : Layout ts text) :
    (ofString (String.ofList (before ++ text))).all.1.map (·.1) = ts.map .ok ∧
      (ofString (String.ofList (before ++ text))).all.2.unread = [] := by
  refine all_of_layout hts h ?_
  rw [ofString, String.toList_ofList, hbefore.skipped_append]

theorem layout_immaterial_remark :
    let ts := [.abbreviation .unquote, .atom (.character ' '), .dot, .atom (.symbol ⟨"ab"⟩)]
    let text := [',', '\t', '#', '\\', 'S', 'P', 'A', 'C', 'E', ';', '@', '\r', '.', ' ', 'a', 'B']
    (∀ t ∈ ts, t.Scannable) ∧ Atmosphere [';', '\n'] ∧ Layout ts text ∧
      (ofString (String.ofList ([';', '\n'] ++ text))).all.1.map (·.1) = ts.map .ok := by
  intro ts text
  have hts : ∀ t ∈ ts, t.Scannable := by
    simp only [ts, List.forall_mem_cons]
    exact ⟨⟨.ofString ",", _, rfl⟩, ⟨.ofString "#\\space", _, rfl⟩, ⟨.ofString ".", _, rfl⟩,
      ⟨.ofString "ab", _, rfl⟩, List.forall_mem_nil _⟩
  have hline : Atmosphere [';', '\n'] :=
    @Atmosphere.comment [] [] '\n' (List.forall_mem_nil _) rfl .nil
  have hremark : Atmosphere [';', '@', '\r'] :=
    @Atmosphere.comment ['@'] [] '\r' (List.forall_mem_singleton.mpr (by decide)) rfl .nil
  have hlayout : Layout ts text :=
    @Layout.cons _ _ [','] ['\t'] _ rfl (.blank rfl .nil) (.inr (List.cons_ne_nil _ _)) <|
    @Layout.cons _ _ ['#', '\\', 'S', 'P', 'A', 'C', 'E'] [';', '@', '\r'] _
      (.inr ⟨.inl rfl, rfl⟩) hremark (.inr (List.cons_ne_nil _ _)) <|
    @Layout.cons _ _ ['.'] [' '] _ rfl (.blank rfl .nil) (.inr (List.cons_ne_nil _ _)) <|
    @Layout.cons _ _ ['a', 'B'] [] _ (.inr ⟨trivial, rfl⟩) .nil (.inl rfl) .nil
  exact ⟨hts, hline, hlayout, (layout_immaterial hts hline hlayout).1⟩

end Scanner

end SmallScheme
