import SmallScheme.Proofs.Number.Denotation
import SmallScheme.Proofs.Token.Recognition

/-! # Written tokens are scanned again

What is written for a token is the lexeme of that token, if what comes after it is nothing or a
delimiter, and so is any spelling of it that differs in the case of letters only. Symbols have to be
readable for this: not every text can be the name of a symbol that is read.
-/

namespace SmallScheme

/-- A peculiar symbol, or an initial character and subsequent ones without upper case. -/
def Symbol.Readable (name : Symbol) : Prop :=
  name.text ∈ ["+", "-", "..."] ∨
    ∃ initial run, name.text.toList = initial :: run ∧ Character.isInitial initial ∧
      (∀ c ∈ run, Character.isSubsequent c) ∧ ∀ c ∈ initial :: run, ¬ c.isUpper

def Atom.Readable : Atom → Prop
  | .symbol name => name.Readable
  | _ => True

/-- Letters in the written form may be of either case. -/
def Atom.IsCaseless : Atom → Prop
  | .string _ => False
  | .character c => c = ' ' ∨ c = '\n'
  | _ => True

/-- The written form of the atom, in either case of the letters where that does not matter. -/
def Atom.Spells (a : Atom) (text : List Char) : Prop :=
  text = (a.text .write).toList ∨ a.IsCaseless ∧ text.map Char.toLower = (a.text .write).toList

/-- The text starts with a lexeme of that token, and this comes after it. -/
def Scans (text : List Char) (token : Token) (rest : List Char) : Prop :=
  ∃ c more, text = c :: more ∧ (Lexeme.front c more).result = .ok token ∧
    text.drop (Lexeme.front c more).length = rest

/-- Nothing comes, or a delimiter. -/
def Closed (rest : List Char) : Prop := ∀ c ∈ rest.head?, Character.isDelimiter c

variable {rest text run word : List Char} {c first : Char} {token : Token} {n m : Nat}

theorem closed_nil : Closed [] := by
  rintro c ⟨⟩

theorem closed_cons (h : Character.isDelimiter c) : Closed (c :: rest) := by
  rintro d ⟨⟩
  exact h

namespace Lexeme

open Character

theorem delimited_of_closed (h : Closed rest) {r : Except SyntaxError Token} :
    delimited r n m rest = ⟨r, n, m⟩ := by
  cases rest with
  | nil => rfl
  | cons c more => rw [delimited, if_pos (h c rfl)]

theorem startsWith_of_closed (h : Closed rest) {w : Char} {word : List Char}
    (hw : ¬ isDelimiter w) : startsWith (w :: word) rest = false := by
  cases rest with
  | nil => rfl
  | cons c more =>
    have hc := h c rfl
    rw [startsWith, toLower_of_isDelimiter hc]
    have hne : c ≠ w := by
      rintro rfl
      exact hw hc
    simp [hne]

theorem takeWhile_of_closed {p : Char → Bool} (hp : ∀ c, p c → isSubsequent c)
    (hrun : ∀ c ∈ run, p c) (h : Closed rest) : (run ++ rest).takeWhile p = run ∧
      (run ++ rest).dropWhile p = rest := by
  have hstop : ∀ c ∈ rest.head?, ¬ p c := fun c hc hs =>
    not_isSubsequent_of_isDelimiter (h c hc) (hp c hs)
  rw [List.takeWhile_append_of_pos hrun, List.dropWhile_append_of_pos hrun]
  cases rest with
  | nil => simp
  | cons c more =>
    have hc := hstop c rfl
    simp [hc]

theorem map_toLower (h : ∀ c ∈ text, ¬ c.isUpper) : text.map Char.toLower = text := by
  rw [List.map_congr_left fun c hc => toLower_of_not_isUpper (h c hc), List.map_id']

theorem eq_of_map_toLower (h : text.map Char.toLower = word) (hword : ∀ c ∈ word, ¬ c.isLower) :
    text = word := by
  rw [← h, ← List.map_id' text, List.map_map]
  refine List.map_congr_left fun c hc => ?_
  exact eq_of_toLower_eq rfl (hword _ (h ▸ List.mem_map_of_mem hc))

theorem startsWith_of_map_toLower (h : text.map Char.toLower = word) (rest : List Char) :
    startsWith word (text ++ rest) := by
  induction text generalizing word with
  | nil =>
    subst h
    rfl
  | cons c text ih =>
    subst h
    rw [List.map_cons, List.cons_append, startsWith, ih rfl]
    simp

theorem length_of_map_toLower (h : text.map Char.toLower = word) : text.length = word.length := by
  rw [← h, List.length_map]

theorem drop_of_map_toLower (h : text.map Char.toLower = word) (rest : List Char) :
    (text ++ rest).drop word.length = rest := List.drop_left' (length_of_map_toLower h)

theorem exists_of_startsWith (h : startsWith word text) :
    ∃ spelling rest, text = spelling ++ rest ∧ spelling.map Char.toLower = word := by
  induction word generalizing text with
  | nil => exact ⟨[], text, rfl, rfl⟩
  | cons w word ih =>
    cases text with
    | nil => cases h
    | cons c text =>
      simp only [startsWith, Bool.and_eq_true, decide_eq_true_eq] at h
      obtain ⟨rfl, h⟩ := h
      obtain ⟨spelling, rest, rfl, rfl⟩ := ih h
      exact ⟨c :: spelling, rest, rfl, rfl⟩

theorem startsWith_of_ne {w : Char} (h : c.toLower ≠ w) (word text : List Char) :
    startsWith (w :: word) (c :: text) = false := by
  simp [startsWith, h]

theorem numeral_of_closed {negative : Bool} {x : Float}
    (hrun : ∀ c ∈ run, Numeral.isSubsequent c)
    (hvalue : Numeral.value? negative (first :: run) = some x) (h : Closed rest) :
    numeral negative n m first (run ++ rest) =
      ⟨.ok (.atom (.number x)), n + (run.length + 1), max (n + (run.length + 1)) m⟩ := by
  obtain ⟨htake, hdrop⟩ := takeWhile_of_closed (fun _ => isSubsequent_of_numeral) hrun h
  rw [numeral, htake, hdrop, map_toLower (Numeral.not_isUpper_of_value? hvalue), hvalue]
  exact delimited_of_closed h

theorem signed_of_closed (h : Closed rest) (negative : Bool) : signed negative rest =
    ok (symbolToken [if negative then '-' else '+']) 1 := by
  cases rest with
  | nil => rfl
  | cons c more =>
    have hc : isDelimiter c := h c rfl
    rw [signed]
    simp only [if_pos hc]

theorem signed_of_value? {negative : Bool} {x : Float}
    (hvalue : Numeral.value? negative text = some x) (h : Closed rest) :
    ∃ n, signed negative (text ++ rest) = ⟨.ok (.atom (.number x)), text.length + 1, n⟩ := by
  obtain ⟨first, run, rfl, hrun⟩ := Numeral.exists_cons_of_value? hvalue
  have hdelimiter : ¬ isDelimiter first :=
    Numeral.not_isDelimiter_of_value? hvalue first (List.mem_cons_self ..)
  have hfirst : ∀ w : Char, w.isLower → first.toLower ≠ w := by
    rintro w hw rfl
    rw [toLower_of_not_isUpper
      (Numeral.not_isUpper_of_value? hvalue first (List.mem_cons_self ..))] at hw
    exact Numeral.not_isLower_of_value? hvalue first (List.mem_cons_self ..) hw
  have hinfinity : startsWith infinityName (first :: (run ++ rest)) = false :=
    startsWith_of_ne (hfirst 'i' rfl) _ _
  have hnan : startsWith nanName (first :: (run ++ rest)) = false :=
    startsWith_of_ne (hfirst 'n' rfl) _ _
  simp only [List.cons_append, signed, if_neg hdelimiter, hinfinity, hnan, Bool.false_eq_true,
    if_false, numeral_of_closed hrun hvalue h, List.length_cons, Nat.add_comm 1]
  exact ⟨_, rfl⟩

theorem signed_of_infinityName (hword : word.map Char.toLower = infinityName) (h : Closed rest)
    (negative : Bool) : signed negative (word ++ rest) =
      ⟨.ok (.atom (.number (Numeral.infinity negative))), 6, 6⟩ := by
  have hstarts := startsWith_of_map_toLower hword rest
  have hdrop : (word ++ rest).drop 5 = rest := drop_of_map_toLower hword rest
  obtain ⟨c, word, rfl, hc, -⟩ := List.map_eq_cons_iff.mp hword
  have hdelimiter : ¬ isDelimiter c := by
    rw [← isDelimiter_toLower, hc]
    decide
  rw [List.cons_append] at hstarts hdrop ⊢
  simp only [signed, if_neg hdelimiter, if_pos hstarts, hdrop]
  exact delimited_of_closed h

theorem signed_of_nanName (hword : word.map Char.toLower = nanName) (h : Closed rest)
    (negative : Bool) : signed negative (word ++ rest) =
      ⟨.ok (.atom (.number Numeral.nan)), 6, 6⟩ := by
  have hstarts := startsWith_of_map_toLower hword rest
  have hdrop : (word ++ rest).drop 5 = rest := drop_of_map_toLower hword rest
  obtain ⟨c, word, rfl, hc, -⟩ := List.map_eq_cons_iff.mp hword
  have hdelimiter : ¬ isDelimiter c := by
    rw [← isDelimiter_toLower, hc]
    decide
  have hinfinity : ¬ startsWith infinityName (c :: (word ++ rest)) := by
    rw [infinityName, startsWith_of_ne (by rw [hc]; decide)]
    decide
  rw [List.cons_append] at hstarts hdrop ⊢
  simp only [signed, if_neg hdelimiter, if_neg hinfinity, if_pos hstarts, hdrop]
  exact delimited_of_closed h

theorem character_of_newlineName (hword : word.map Char.toLower = newlineName) (h : Closed rest) :
    character (word ++ rest) = ⟨.ok (.atom (.character '\n')), 9, 9⟩ := by
  have hdrop : (word ++ rest).drop 7 = rest := drop_of_map_toLower hword rest
  rw [character, if_pos (startsWith_of_map_toLower hword rest), hdrop]
  exact delimited_of_closed h

theorem character_of_spaceName (hword : word.map Char.toLower = spaceName) (h : Closed rest) :
    character (word ++ rest) = ⟨.ok (.atom (.character ' ')), 7, 7⟩ := by
  have hdrop : (word ++ rest).drop 5 = rest := drop_of_map_toLower hword rest
  have hnewline : ¬ startsWith newlineName (word ++ rest) := by
    obtain ⟨c, word, rfl, hc, -⟩ := List.map_eq_cons_iff.mp hword
    rw [newlineName, List.cons_append, startsWith_of_ne (by rw [hc]; decide)]
    decide
  rw [character, if_neg hnewline, if_pos (startsWith_of_map_toLower hword rest), hdrop]
  exact delimited_of_closed h

theorem unquoted_of_ne (h : rest.head? ≠ some '@') (plain splicing : Abbreviation) :
    unquoted plain splicing n rest = ok (.abbreviation plain) n := by
  rw [unquoted, if_neg h]

theorem stringContents_escaped (cs : List Char) (rest : List Char) :
    stringContents (escaped cs ++ '"' :: rest) = (.ok cs, (escaped cs).length + 1) := by
  induction cs with
  | nil => simp [escaped, stringContents]
  | cons c cs ih =>
    rw [escaped]
    split
    · rename_i hc
      simp [stringContents, hc, ih, Except.map]
    · rename_i hc
      simp only [Bool.or_eq_true, decide_eq_true_eq, not_or] at hc
      rw [List.cons_append, stringContents, ih]
      · simp [Except.map]
      · exact hc.2
      · rintro h -
        exact hc.1 h
      · rintro d more h -
        exact hc.1 h

end Lexeme

theorem Scans.of_front {more : List Char}
    (h : Lexeme.front c (more ++ rest) = ⟨.ok token, more.length + 1, n⟩) :
    Scans (c :: more ++ rest) token rest :=
  ⟨c, more ++ rest, rfl, by rw [h], by rw [h]; simp⟩

theorem scans_listOpen (rest : List Char) : Scans ('(' :: rest) .listOpen rest :=
  ⟨_, _, rfl, rfl, rfl⟩

theorem scans_vectorOpen (rest : List Char) : Scans ('#' :: '(' :: rest) .vectorOpen rest :=
  ⟨_, _, rfl, rfl, rfl⟩

theorem scans_close (rest : List Char) : Scans (')' :: rest) .close rest :=
  ⟨_, _, rfl, rfl, rfl⟩

theorem scans_dot (h : Closed rest) : Scans ('.' :: rest) .dot rest := by
  have hdots : ¬ startsWith ['.', '.'] rest := by
    rw [Lexeme.startsWith_of_closed h (by decide)]
    decide
  have hf : Lexeme.front '.' rest = ⟨.ok .dot, 1, 1 + compared ['.', '.'] rest⟩ := by
    change Lexeme.dot rest = _
    rw [Lexeme.dot, if_neg hdots]
    exact Lexeme.delimited_of_closed h
  exact ⟨_, _, rfl, by rw [hf], by rw [hf]; rfl⟩

/-- A mark is told from a longer one by the at sign, which starts no datum. -/
theorem scans_abbreviation (mark : Abbreviation) (h : rest.head? ≠ some '@') :
    Scans (mark.mark.toList ++ rest) (.abbreviation mark) rest := by
  cases mark with
  | unquote =>
    have hf : Lexeme.front ',' rest = _ := Lexeme.unquoted_of_ne h .unquote .unquoteSplicing
    exact ⟨',', rest, rfl, by rw [hf]; rfl, by rw [hf]; rfl⟩
  | syntaxUnquote =>
    have hf : Lexeme.front '#' (',' :: rest) = _ :=
      Lexeme.unquoted_of_ne h .syntaxUnquote .syntaxUnquoteSplicing
    exact ⟨'#', ',' :: rest, rfl, by rw [hf]; rfl, by rw [hf]; rfl⟩
  | _ => exact ⟨_, _, rfl, rfl, rfl⟩

theorem scans_boolean {b : Bool}
    (ht : text.map Char.toLower = (Atom.text .write (.boolean b)).toList) (h : Closed rest) :
    Scans (text ++ rest) (.atom (.boolean b)) rest := by
  have hcons : ∃ d, (Atom.text .write (.boolean b)).toList = ['#', d] ∧
      d = (if b then 't' else 'f') := by
    cases b <;> exact ⟨_, rfl, rfl⟩
  obtain ⟨d, htext, hd⟩ := hcons
  obtain ⟨mark, letters, rfl, hmark, hletters⟩ := List.map_eq_cons_iff.mp (ht.trans htext)
  obtain ⟨letter, nothing, rfl, hletter, hnothing⟩ := List.map_eq_cons_iff.mp hletters
  obtain rfl := List.map_eq_nil_iff.mp hnothing
  obtain rfl := Character.eq_of_toLower_eq hmark (by decide)
  have hf : Lexeme.front '#' ([letter] ++ rest) = ⟨.ok (.atom (.boolean b)), 2, 2⟩ := by
    change Lexeme.hash (letter :: rest) = _
    rw [Lexeme.hash, hletter, hd]
    cases b <;> exact Lexeme.delimited_of_closed h
  exact Scans.of_front hf

theorem scans_string (contents : String) (rest : List Char) :
    Scans ((Atom.text .write (.string contents)).toList ++ rest) (.atom (.string contents))
      rest := by
  have hs := Lexeme.stringContents_escaped contents.toList rest
  have htext : (Atom.text .write (.string contents)).toList ++ rest =
      '"' :: (escaped contents.toList ++ '"' :: rest) := by
    simp [Atom.text, quoted]
  have hf : Lexeme.front '"' (escaped contents.toList ++ '"' :: rest) =
      ⟨.ok (.atom (.string contents)), (escaped contents.toList).length + 2,
        (escaped contents.toList).length + 2⟩ := by
    change Lexeme.string _ = _
    simp [Lexeme.string, hs, Except.map]
  refine ⟨_, _, htext, by rw [hf], ?_⟩
  rw [hf, htext]
  simp

theorem scans_characterName (hc : c = ' ' ∨ c = '\n')
    (ht : text.map Char.toLower = (Atom.text .write (.character c)).toList) (h : Closed rest) :
    Scans (text ++ rest) (.atom (.character c)) rest := by
  obtain ⟨name, htext, hname⟩ : ∃ name, (Atom.text .write (.character c)).toList =
      '#' :: '\\' :: name ∧ (c = ' ' ∧ name = Lexeme.spaceName ∨
        c = '\n' ∧ name = Lexeme.newlineName) := by
    rcases hc with rfl | rfl
    · exact ⟨_, rfl, .inl ⟨rfl, rfl⟩⟩
    · exact ⟨_, rfl, .inr ⟨rfl, rfl⟩⟩
  obtain ⟨mark, more, rfl, hmark, hmore⟩ := List.map_eq_cons_iff.mp (ht.trans htext)
  obtain ⟨slash, word, rfl, hslash, hword⟩ := List.map_eq_cons_iff.mp hmore
  obtain rfl := Character.eq_of_toLower_eq hmark (by decide)
  obtain rfl := Character.eq_of_toLower_eq hslash (by decide)
  have hf : Lexeme.front '#' ('\\' :: word ++ rest) =
      ⟨.ok (.atom (.character c)), word.length + 2, word.length + 2⟩ := by
    change Lexeme.character (word ++ rest) = _
    rw [Lexeme.length_of_map_toLower hword]
    rcases hname with ⟨rfl, rfl⟩ | ⟨rfl, rfl⟩
    · exact Lexeme.character_of_spaceName hword h
    · exact Lexeme.character_of_newlineName hword h
  exact @Scans.of_front _ _ _ _ ('\\' :: word) hf

theorem scans_character (c : Char) (h : Closed rest) :
    Scans ((Atom.text .write (.character c)).toList ++ rest) (.atom (.character c)) rest := by
  by_cases hc : c = ' ' ∨ c = '\n'
  · refine scans_characterName hc ?_ h
    rcases hc with rfl | rfl <;> rfl
  obtain ⟨hs, hn⟩ := not_or.mp hc
  have htext : (Atom.text .write (.character c)).toList = ['#', '\\', c] := by
    simp [Atom.text, hs, hn]
  -- The names go on with a letter behind their first one, where here the text is closed.
  have hnewline : startsWith Lexeme.newlineName (c :: rest) = false := by
    rw [Lexeme.newlineName, startsWith, Lexeme.startsWith_of_closed h (by decide), Bool.and_false]
  have hspace : startsWith Lexeme.spaceName (c :: rest) = false := by
    rw [Lexeme.spaceName, startsWith, Lexeme.startsWith_of_closed h (by decide), Bool.and_false]
  obtain ⟨n, hf⟩ : ∃ n, Lexeme.front '#' ('\\' :: c :: rest) =
      ⟨.ok (.atom (.character c)), 3, n⟩ := by
    change ∃ n, Lexeme.character (c :: rest) = _
    simp only [Lexeme.character, hnewline, hspace]
    exact ⟨_, Lexeme.delimited_of_closed h⟩
  rw [htext]
  exact @Scans.of_front _ _ _ _ ['\\', c] hf

theorem scans_accepted {x : Float} (hx : Numeral.Accepts text x) (hpoint : text.head? ≠ some '.')
    (h : Closed rest) : Scans (text ++ rest) (.atom (.number x)) rest := by
  have hsign : ∀ {negative : Bool} {more : List Char},
      (∃ n, Lexeme.signed negative (more ++ rest) =
        ⟨.ok (.atom (.number x)), more.length + 1, n⟩) →
      Scans (Numeral.sign negative :: more ++ rest) (.atom (.number x)) rest := by
    rintro negative more ⟨n, hsigned⟩
    have hf : Lexeme.front (Numeral.sign negative) (more ++ rest) =
        Lexeme.signed negative (more ++ rest) := by
      cases negative <;> rfl
    exact Scans.of_front (hf.trans hsigned)
  rcases Numeral.accepts_cases hx with hname | ⟨hvalue, d, hd⟩ | ⟨negative, more, rfl, hvalue⟩
  · rcases hname with ⟨negative, hname⟩ | ⟨negative, hname⟩
    · have hlength : _ = 5 := Lexeme.length_of_map_toLower hname
      exact hsign ⟨6, by rw [Lexeme.signed_of_infinityName hname h, hlength]⟩
    · have hlength : _ = 5 := Lexeme.length_of_map_toLower hname
      exact hsign ⟨6, by rw [Lexeme.signed_of_nanName hname h, hlength]⟩
  · obtain ⟨first, run, rfl, hrun⟩ := Numeral.exists_cons_of_value? hvalue
    have hfirst : first.isDigit := by
      have hsubsequent := hd.subsequent first (List.mem_cons_self ..)
      rw [Numeral.isSubsequent, Bool.or_eq_true, decide_eq_true_eq] at hsubsequent
      exact hsubsequent.resolve_right fun hdot => hpoint (congrArg some hdot)
    have hf : Lexeme.front first (run ++ rest) =
        Lexeme.numeral false 0 0 first (run ++ rest) := by
      unfold Lexeme.front
      rw [if_neg (Character.not_isInitial_of_isDigit hfirst), if_pos hfirst]
    rw [Lexeme.numeral_of_closed hrun hvalue h, Nat.zero_add] at hf
    exact Scans.of_front hf
  · exact hsign (Lexeme.signed_of_value? hvalue h)

theorem scans_number {x : Float}
    (ht : text.map Char.toLower = (Atom.text .write (.number x)).toList) (h : Closed rest) :
    Scans (text ++ rest) (.atom (.number x)) rest := by
  rw [Atom.text, String.toList_ofList] at ht
  have hnan : "+nan.0".toList = Numeral.sign false :: "nan.0".toList := rfl
  rcases Numeral.external_cases x with ⟨hx, rfl⟩ | ⟨negative, hx, rfl⟩ |
    ⟨negative, first, run, hx, hfirst, hvalue⟩
  · rw [hx, hnan] at ht
    obtain ⟨mark, name, rfl, hmark, hname⟩ := List.map_eq_cons_iff.mp ht
    obtain rfl := Character.eq_of_toLower_eq hmark (by decide)
    exact scans_accepted (.inl (.nan false hname)) (Numeral.head?_sign_ne_point _ _) h
  · rw [hx] at ht
    obtain ⟨mark, name, rfl, hmark, hname⟩ := List.map_eq_cons_iff.mp ht
    obtain rfl : mark = Numeral.sign negative :=
      Character.eq_of_toLower_eq hmark (by cases negative <;> decide)
    exact scans_accepted (.inl (.infinity negative hname)) (Numeral.head?_sign_ne_point _ _) h
  · have hlower := Numeral.not_isLower_of_value? hvalue
    cases negative with
    | false =>
      obtain rfl := Lexeme.eq_of_map_toLower (ht.trans hx) hlower
      refine scans_accepted (Numeral.accepts_of_value? hvalue) ?_ h
      rintro ⟨⟩
      cases hfirst
    | true =>
      obtain rfl := Lexeme.eq_of_map_toLower (ht.trans hx)
        (List.forall_mem_cons.mpr ⟨by decide, hlower⟩)
      exact scans_accepted (Numeral.accepts_of_value?_signed hvalue)
        (Numeral.head?_sign_ne_point true _) h

theorem scans_symbol {name : Symbol} (hname : name.Readable)
    (ht : text.map Char.toLower = (Atom.text .write (.symbol name)).toList) (h : Closed rest) :
    Scans (text ++ rest) (.atom (.symbol name)) rest := by
  obtain ⟨letters⟩ := name
  rcases hname with hname | ⟨initial, run, htext, hinitial, hrun, -⟩
  · simp only [List.mem_cons, List.not_mem_nil, or_false] at hname
    rcases hname with rfl | rfl | rfl
    · obtain rfl := @Lexeme.eq_of_map_toLower text ['+'] ht (by simp [Char.isLower])
      exact @Scans.of_front _ _ _ _ [] (Lexeme.signed_of_closed h false)
    · obtain rfl := @Lexeme.eq_of_map_toLower text ['-'] ht (by simp [Char.isLower])
      exact @Scans.of_front _ _ _ _ [] (Lexeme.signed_of_closed h true)
    · obtain rfl := @Lexeme.eq_of_map_toLower text ['.', '.', '.'] ht (by simp [Char.isLower])
      exact @Scans.of_front _ _ _ _ ['.', '.'] (Lexeme.delimited_of_closed h)
  · obtain ⟨first, more, rfl, rfl, rfl⟩ := List.map_eq_cons_iff.mp (ht.trans htext)
    rw [Character.isInitial_toLower] at hinitial
    have hmore : ∀ c ∈ more, Character.isSubsequent c := fun c hc =>
      (Character.isSubsequent_toLower c).symm.trans (hrun _ (List.mem_map_of_mem hc))
    obtain ⟨htake, hdrop⟩ := Lexeme.takeWhile_of_closed (fun _ => id) hmore h
    have hlength : letters.toList.length = more.length + 1 := by rw [htext]; simp
    have hf : Lexeme.front first (more ++ rest) =
        ⟨.ok (.atom (.symbol ⟨letters⟩)), more.length + 1, more.length + 1⟩ := by
      unfold Lexeme.front
      rw [if_pos hinitial, Lexeme.symbol, htake, hdrop, List.map_cons, ← htext, hlength,
        Lexeme.symbolToken, String.ofList_toList]
      exact Lexeme.delimited_of_closed h
    exact Scans.of_front hf

theorem Atom.map_toLower_text {a : Atom} (ha : a.Readable) (hc : a.IsCaseless) :
    (a.text .write).toList.map Char.toLower = (a.text .write).toList := by
  cases a with
  | boolean b => cases b <;> rfl
  | string contents => exact hc.elim
  | character c => rcases hc with rfl | rfl <;> rfl
  | number x =>
    rw [text, String.toList_ofList]
    rcases Numeral.external_cases x with ⟨hx, -⟩ | ⟨negative, hx, -⟩ |
      ⟨negative, first, run, hx, -, hvalue⟩
    · rw [hx]
      rfl
    · rw [hx]
      cases negative <;> rfl
    · have hdigits : (first :: run).map Char.toLower = first :: run :=
        Lexeme.map_toLower (Numeral.not_isUpper_of_value? hvalue)
      rw [hx]
      cases negative with
      | false => exact hdigits
      | true => exact congrArg ('-' :: ·) hdigits
  | symbol name =>
    obtain ⟨letters⟩ := name
    rcases ha with ha | ⟨initial, run, htext, -, -, hlower⟩
    · simp only [List.mem_cons, List.not_mem_nil, or_false] at ha
      rcases ha with rfl | rfl | rfl <;> rfl
    · change letters.toList.map Char.toLower = letters.toList
      rw [htext, Lexeme.map_toLower hlower]

/-- Every spelling of a readable atom is scanned as the atom. -/
theorem scans_spelling {a : Atom} (ha : a.Readable) (ht : a.Spells text) (h : Closed rest) :
    Scans (text ++ rest) (.atom a) rest := by
  have hfold : a.IsCaseless → text.map Char.toLower = (a.text .write).toList := by
    intro hc
    rcases ht with rfl | ⟨-, ht⟩
    · exact a.map_toLower_text ha hc
    · exact ht
  cases a with
  | boolean b => exact scans_boolean (hfold trivial) h
  | number x => exact scans_number (hfold trivial) h
  | symbol name => exact scans_symbol ha (hfold trivial) h
  | string contents =>
    rcases ht with rfl | ⟨⟨⟩, -⟩
    exact scans_string contents rest
  | character c =>
    rcases ht with rfl | ⟨hc, ht⟩
    · exact scans_character c h
    · exact scans_characterName hc ht h

theorem scans_atom {a : Atom} (ha : a.Readable) (h : Closed rest) :
    Scans ((a.text .write).toList ++ rest) (.atom a) rest := scans_spelling ha (.inl rfl) h

/-- No lexeme starts with an at sign, a blank or a semicolon. -/
theorem Scans.head (h : Scans (c :: text) token rest) :
    c ≠ '@' ∧ c ≠ ';' ∧ ¬ Character.isBlank c := by
  obtain ⟨d, more, hc, hr, -⟩ := h
  obtain ⟨rfl, rfl⟩ := List.cons_eq_cons.mp hc
  refine ⟨?_, ?_, fun hb => ?_⟩
  · rintro rfl
    cases hr
  · rintro rfl
    cases hr
  · have hsubsequent : ¬ Character.isSubsequent c :=
      Character.not_isSubsequent_of_isDelimiter (by simp [Character.isDelimiter, hb])
    have hinitial : ¬ Character.isInitial c := fun h =>
      hsubsequent (Character.isSubsequent_iff.mpr (.inl h))
    have hdigit : ¬ c.isDigit := fun h => hsubsequent (Character.isSubsequent_of_isDigit h)
    unfold Lexeme.front at hr
    rw [if_neg hinitial, if_neg hdigit] at hr
    split at hr <;> first | cases hb | cases hr

/-- The text behind the blanks and comments at its front. -/
def skipped (text : List Char) : List Char := text.drop (atmosphere false text)

theorem skipped_blank (hb : Character.isBlank c) (hc : c ≠ ';') :
    skipped (c :: text) = skipped text := by
  simp [skipped, atmosphere, hb, hc]

theorem Scans.skipped_eq (h : Scans text token rest) : skipped text = text := by
  obtain ⟨c, more, rfl, -, -⟩ := id h
  obtain ⟨-, hc, hb⟩ := h.head
  simp [skipped, atmosphere, hc, hb]

theorem Scanner.next_of_skipped {s : Scanner} (hs : skipped s.unread = []) :
    ∃ s', s.next = (none, s') ∧ s'.unread = [] := by
  have hunread : (s.input.skipAtmosphere false).unread = [] := by
    rw [Input.skipAtmosphere_unread, input_unread]
    exact hs
  simp only [next, Input.next_of_nil hunread]
  exact ⟨_, rfl, hunread⟩

theorem Scanner.next_of_skipped_cons {s : Scanner} (hs : skipped s.unread = c :: rest) :
    ∃ s', s.next = (some (Lexeme.front c rest).result, s') ∧
      s'.unread = (c :: rest).drop (Lexeme.front c rest).length := by
  have hunread : (s.input.skipAtmosphere false).unread = c :: rest := by
    rw [Input.skipAtmosphere_unread, input_unread]
    exact hs
  obtain ⟨j, hnext, hj⟩ := Input.next_of_cons hunread
  simp only [next, hnext]
  refine ⟨_, rfl, ?_⟩
  rw [hj, advance_unread, Input.scanner_unread, hunread]

theorem Scanner.next_of_scans {s : Scanner} (h : Scans text token rest)
    (hs : skipped s.unread = text) : ∃ s', s.next = (some (.ok token), s') ∧ s'.unread = rest := by
  obtain ⟨c, more, rfl, hr, hd⟩ := h
  obtain ⟨s', hnext, hunread⟩ := next_of_skipped_cons hs
  exact ⟨s', by rw [hnext, hr], hunread.trans hd⟩

end SmallScheme
