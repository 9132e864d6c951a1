import SmallScheme.Proofs.Token.Written

/-! # Lexemes as texts

Which texts are lexemes of a token, and what may come behind one, is laid down here without a word
on how tokens are found. Each token rule then cuts its text accordingly: what it takes is a lexeme of
the token that it answers, or else what comes next is the character that its error complains about.
-/

namespace SmallScheme

open Character

inductive Token.Lexical : Token → List Char → Prop

  | symbol {initial : Char} {run : List Char} : isInitial initial →
      (∀ c ∈ run, isSubsequent c) →
      Lexical (.atom (.symbol ⟨String.ofList ((initial :: run).map Char.toLower)⟩))
        (initial :: run)

  | peculiar {text : List Char} : text ∈ [['+'], ['-'], ['.', '.', '.']] →
      Lexical (.atom (.symbol ⟨String.ofList text⟩)) text

  | number {text : List Char} {x : Float} : Numeral.Accepts text x →
      Lexical (.atom (.number x)) text

  | boolean (value : Bool) {letter : Char} : letter.toLower = (if value then 't' else 'f') →
      Lexical (.atom (.boolean value)) ['#', letter]

  | string (contents : String) : Lexical (.atom (.string contents)) (quoted contents).toList

  | newline {name : List Char} : name.map Char.toLower = "newline".toList →
      Lexical (.atom (.character '\n')) ('#' :: '\\' :: name)

  | space {name : List Char} : name.map Char.toLower = "space".toList →
      Lexical (.atom (.character ' ')) ('#' :: '\\' :: name)

  | character (c : Char) : Lexical (.atom (.character c)) ['#', '\\', c]

  | listOpen : Lexical .listOpen ['(']

  | vectorOpen : Lexical .vectorOpen ['#', '(']

  | close : Lexical .close [')']

  | dot : Lexical .dot ['.']

  | abbreviation (mark : Abbreviation) : Lexical (.abbreviation mark) mark.mark.toList

/-- What may come behind a lexeme of a token. -/
def Token.EndsAt : Token → List Char → Prop
  | .atom (.string _), _ => True
  | .atom _, rest | .dot, rest => Closed rest
  | .abbreviation .unquote, rest | .abbreviation .syntaxUnquote, rest => rest.head? ≠ some '@'
  | _, _ => True

/-- The answer is right for the characters taken and for those behind them. -/
def FittingAnswer : Except SyntaxError Token → List Char → List Char → Prop
  | .ok token, text, rest => token.Lexical text ∧ token.EndsAt rest
  | .error (.expectedDelimiter c), _, rest => rest.head? = some c ∧ ¬ isDelimiter c
  | .error _, _, _ => True

/-- The lexeme takes a first part of the text that its result fits. -/
def Lexeme.Cuts (l : Lexeme) (text : List Char) : Prop :=
  ∃ taken rest, text = taken ++ rest ∧ taken.length = l.length ∧ FittingAnswer l.result taken rest

variable {text taken rest marks : List Char} {c first : Char} {n m : Nat}

namespace Lexeme

theorem cuts_delimited {r : Except SyntaxError Token} (hlength : taken.length = n)
    (h : Closed rest → FittingAnswer r taken rest) :
    (delimited r n m rest).Cuts (taken ++ rest) := by
  refine ⟨taken, rest, rfl, by rw [delimited_length, hlength], ?_⟩
  cases rest with
  | nil => exact h closed_nil
  | cons c rest =>
    rw [delimited]
    split
    · exact h (closed_cons ‹_›)
    · exact ⟨rfl, ‹_›⟩

theorem cuts_ok {token : Token} (hlength : taken.length = n) (htoken : token.Lexical taken)
    (hend : token.EndsAt rest) : Cuts ⟨.ok token, n, m⟩ (taken ++ rest) :=
  ⟨taken, rest, rfl, hlength, htoken, hend⟩

theorem cuts_error {e : SyntaxError} (he : ∀ c, e ≠ .expectedDelimiter c)
    (hlength : n ≤ text.length) : Cuts ⟨.error e, n, m⟩ text := by
  refine ⟨text.take n, text.drop n, (List.take_append_drop n text).symm, ?_, ?_⟩
  · rw [List.length_take, Nat.min_eq_left hlength]
  · cases e with
    | expectedDelimiter c => exact (he c rfl).elim
    | _ => trivial

theorem cuts_named {token : Token} {word : List Char} (hstarts : startsWith word rest)
    (hlength : n = marks.length + word.length)
    (htoken : ∀ name, name.map Char.toLower = word → token.Lexical (marks ++ name))
    (hend : ∀ after, Closed after → token.EndsAt after) :
    (delimited (.ok token) n m (rest.drop word.length)).Cuts (marks ++ rest) := by
  obtain ⟨name, after, rfl, hname⟩ := exists_of_startsWith hstarts
  rw [← List.append_assoc, drop_of_map_toLower hname]
  exact cuts_delimited (by rw [List.length_append, length_of_map_toLower hname, hlength]) fun hclosed =>
    ⟨htoken name hname, hend after hclosed⟩

theorem cuts_symbol (hc : isInitial c) (rest : List Char) : (symbol c rest).Cuts (c :: rest) := by
  have hsplit : c :: rest =
      (c :: rest.takeWhile isSubsequent) ++ rest.dropWhile isSubsequent := by
    rw [List.cons_append, List.takeWhile_append_dropWhile]
  rw [hsplit]
  exact cuts_delimited (List.length_map ..).symm fun hclosed =>
    ⟨.symbol hc fun _ => List.mem_takeWhile_imp, hclosed⟩

theorem cuts_numeral {negative : Bool}
    (h : ∀ {text x}, Numeral.value? negative text = some x → Numeral.Accepts (marks ++ text) x)
    (first : Char) (rest : List Char) :
    (numeral negative marks.length m first rest).Cuts (marks ++ first :: rest) := by
  have hsplit : marks ++ first :: rest = (marks ++ first :: rest.takeWhile Numeral.isSubsequent) ++
      rest.dropWhile Numeral.isSubsequent := by
    rw [List.append_assoc, List.cons_append, List.takeWhile_append_dropWhile]
  rw [hsplit, numeral]
  refine cuts_delimited (by simp) fun hclosed => ?_
  cases hvalue : Numeral.value? negative
      ((first :: rest.takeWhile Numeral.isSubsequent).map Char.toLower) with
  | none => trivial
  | some x =>
    have hlower := eq_of_map_toLower rfl (Numeral.not_isLower_of_value? hvalue)
    rw [← hlower] at hvalue
    exact ⟨.number (h hvalue), hclosed⟩

theorem cuts_signed (negative : Bool) (rest : List Char) :
    (signed negative rest).Cuts (Numeral.sign negative :: rest) := by
  have halone : Closed rest → (ok (symbolToken [Numeral.sign negative]) 1).Cuts
      (Numeral.sign negative :: rest) := fun hclosed =>
    @cuts_ok [_] rest 1 1 _ rfl (.peculiar (by cases negative <;> decide)) hclosed
  cases rest with
  | nil => exact halone closed_nil
  | cons first more =>
    simp only [signed]
    split
    · exact halone (closed_cons ‹_›)
    split
    · exact @cuts_named _ [_] _ _ _ infinityName ‹_› rfl
        (fun _ hname => .number (.inl (.infinity negative hname))) fun _ => id
    split
    · exact @cuts_named _ [_] _ _ _ nanName ‹_› rfl
        (fun _ hname => .number (.inl (.nan negative hname))) fun _ => id
    · exact @cuts_numeral [_] _ _ Numeral.accepts_of_value?_signed first more

theorem stringContents_cuts (rest : List Char) :
    match stringContents rest with
    | (.ok contents, length) => ∃ after, rest = escaped contents ++ '"' :: after ∧
        length = (escaped contents).length + 1
    | (.error e, length) => (∀ c, e ≠ .expectedDelimiter c) ∧ length ≤ rest.length := by
  fun_induction stringContents rest with
  | case1 | case3 | case5 => simp
  | case2 after => exact ⟨after, rfl, rfl⟩
  | case4 c rest hc contents length heq ih =>
    rw [heq] at ih
    cases contents with
    | error e => exact ⟨ih.1, Nat.add_le_add_right ih.2 2⟩
    | ok contents =>
      obtain ⟨after, rfl, rfl⟩ := ih
      have hescaped : escaped (c :: contents) = '\\' :: c :: escaped contents := by
        rw [escaped, if_pos (by simpa using hc)]
      exact ⟨after, by rw [hescaped]; rfl, by rw [hescaped]; rfl⟩
  | case6 c rest hquote hlast hslash contents length heq ih =>
    have hc : ¬ (c = '\\' ∨ c = '"') := by
      rintro (rfl | rfl)
      · cases rest with
        | nil => exact hlast rfl rfl
        | cons d rest => exact hslash d rest rfl rfl
      · exact hquote rfl
    rw [heq] at ih
    cases contents with
    | error e => exact ⟨ih.1, Nat.succ_le_succ ih.2⟩
    | ok contents =>
      obtain ⟨after, rfl, rfl⟩ := ih
      have hescaped : escaped (c :: contents) = c :: escaped contents := by
        rw [escaped, if_neg (by simpa using hc)]
      exact ⟨after, by rw [hescaped]; rfl, by rw [hescaped]; rfl⟩

theorem cuts_string (rest : List Char) : (string rest).Cuts ('"' :: rest) := by
  have hcontents := stringContents_cuts rest
  rw [string]
  cases h : stringContents rest with
  | mk contents length =>
    rw [h] at hcontents
    cases contents with
    | error e => exact cuts_error hcontents.1 (Nat.succ_le_succ hcontents.2)
    | ok contents =>
      obtain ⟨after, rfl, rfl⟩ := hcontents
      have hquoted : (quoted (String.ofList contents)).toList =
          '"' :: (escaped contents ++ ['"']) := by simp [quoted]
      have hsplit : '"' :: (escaped contents ++ '"' :: after) =
          (quoted (String.ofList contents)).toList ++ after := by simp [hquoted]
      rw [hsplit]
      exact cuts_ok (by simp [hquoted]) (.string _) trivial

theorem cuts_character (rest : List Char) : (character rest).Cuts ('#' :: '\\' :: rest) := by
  rw [character]
  split
  · exact @cuts_named _ ['#', '\\'] _ _ _ newlineName ‹_› rfl (fun _ => .newline) fun _ => id
  split
  · exact @cuts_named _ ['#', '\\'] _ _ _ spaceName ‹_› rfl (fun _ => .space) fun _ => id
  · cases rest with
    | nil => exact cuts_error (by simp) (Nat.le_refl 2)
    | cons c after =>
      exact @cuts_delimited ['#', '\\', c] _ _ _ _ rfl fun hclosed => ⟨.character c, hclosed⟩

theorem cuts_unquoted {plain splicing : Abbreviation} (hplain : plain.mark.toList = marks)
    (hsplicing : splicing.mark.toList = marks ++ ['@'])
    (hend : ∀ rest, rest.head? ≠ some '@' → (Token.abbreviation plain).EndsAt rest)
    (hend' : ∀ rest, (Token.abbreviation splicing).EndsAt rest) (rest : List Char) :
    (unquoted plain splicing marks.length rest).Cuts (marks ++ rest) := by
  rw [unquoted]
  split
  · rename_i hat
    obtain ⟨after, rfl⟩ := List.head?_eq_some_iff.mp hat
    rw [← List.singleton_append, ← List.append_assoc, ← hsplicing]
    exact cuts_ok (by simp [hsplicing]) (.abbreviation splicing) (hend' after)
  · rename_i hne
    rw [← hplain]
    exact cuts_ok rfl (.abbreviation plain) (hend rest hne)

theorem cuts_hash (rest : List Char) : (hash rest).Cuts ('#' :: rest) := by
  cases rest with
  | nil => exact cuts_error (by simp) (Nat.le_refl 1)
  | cons c after =>
    have hpunctuation : ∀ {token : Token} {d : Char}, c.toLower = d → ¬ d.isLower →
        token.Lexical ['#', d] → token.EndsAt after → (ok token 2).Cuts ('#' :: c :: after) := by
      intro token d hd hlower htoken hend
      obtain rfl := eq_of_toLower_eq hd hlower
      exact @cuts_ok ['#', c] _ _ _ _ rfl htoken hend
    simp only [hash]
    split
    · exact hpunctuation ‹_› (by decide) .vectorOpen trivial
    · exact hpunctuation ‹_› (by decide) (.abbreviation .syntaxQuote) trivial
    · exact hpunctuation ‹_› (by decide) (.abbreviation .syntaxQuasiquote) trivial
    · rename_i hcomma
      obtain rfl := eq_of_toLower_eq hcomma (by decide)
      exact @cuts_unquoted ['#', ','] .syntaxUnquote .syntaxUnquoteSplicing rfl rfl
        (fun _ => id) (fun _ => trivial) after
    · exact @cuts_delimited ['#', c] _ _ _ _ rfl fun hclosed => ⟨.boolean true ‹_›, hclosed⟩
    · exact @cuts_delimited ['#', c] _ _ _ _ rfl fun hclosed => ⟨.boolean false ‹_›, hclosed⟩
    · rename_i hslash
      obtain rfl := eq_of_toLower_eq hslash (by decide)
      exact cuts_character after
    · exact cuts_error (by simp) (by simp)

theorem cuts_dot (rest : List Char) : (dot rest).Cuts ('.' :: rest) := by
  rw [dot]
  split
  · refine @cuts_named _ ['.'] _ _ _ ['.', '.'] ‹_› rfl ?_ fun _ => id
    intro dots hdots
    obtain rfl := eq_of_map_toLower hdots (by simp [Char.isLower])
    exact .peculiar (by decide)
  · exact @cuts_delimited ['.'] _ _ _ _ rfl fun hclosed => ⟨.dot, hclosed⟩

theorem cuts_front (c : Char) (rest : List Char) : (front c rest).Cuts (c :: rest) := by
  unfold front
  split
  · exact cuts_symbol ‹_› rest
  split
  · exact @cuts_numeral [] _ _ Numeral.accepts_of_value? c rest
  split
  · exact cuts_hash rest
  · exact cuts_string rest
  · exact cuts_dot rest
  · exact @cuts_unquoted [','] .unquote .unquoteSplicing rfl rfl (fun _ => id) (fun _ => trivial)
      rest
  · exact cuts_signed false rest
  · exact cuts_signed true rest
  · exact @cuts_ok [_] _ _ _ _ rfl (.abbreviation .quasiquote) trivial
  · exact @cuts_ok [_] _ _ _ _ rfl (.abbreviation .quote) trivial
  · exact @cuts_ok [_] _ _ _ _ rfl .listOpen trivial
  · exact @cuts_ok [_] _ _ _ _ rfl .close trivial
  · exact cuts_error (by simp) (by simp)

theorem front_length_le (c : Char) (rest : List Char) :
    (front c rest).length ≤ rest.length + 1 := by
  obtain ⟨taken, after, hsplit, hlength, -⟩ := cuts_front c rest
  rw [← hlength, ← List.length_cons (a := c), hsplit]
  exact (List.prefix_append taken after).length_le

end Lexeme

/-- Folding keeps letters in their class, so every symbol that is scanned can be read. -/
theorem Token.Lexical.readable {a : Atom} (h : (Token.atom a).Lexical text) : a.Readable := by
  cases h with
  | @symbol initial run hinitial hrun =>
    refine .inr ⟨initial.toLower, run.map Char.toLower, by simp,
      (isInitial_toLower initial).trans hinitial, ?_, ?_⟩
    · exact List.forall_mem_map.mpr fun c hc => (isSubsequent_toLower c).trans (hrun c hc)
    · rw [← List.map_cons]
      exact List.forall_mem_map.mpr fun c _ => not_isUpper_toLower c
  | peculiar htext =>
    simp only [List.mem_cons, List.not_mem_nil, or_false] at htext
    rcases htext with rfl | rfl | rfl <;> exact .inl (by decide)
  | _ => trivial

theorem Scanner.readable_of_next {s s' : Scanner} {a : Atom}
    (h : s.next = (some (.ok (.atom a)), s')) : a.Readable := by
  cases hskipped : skipped s.unread with
  | nil =>
    obtain ⟨_, hnext, -⟩ := next_of_skipped hskipped
    cases hnext.symm.trans h
  | cons c rest =>
    obtain ⟨_, hnext, -⟩ := next_of_skipped_cons hskipped
    have hanswer := Option.some.inj (congrArg Prod.fst (hnext.symm.trans h))
    obtain ⟨taken, after, -, -, hfits⟩ := Lexeme.cuts_front c rest
    rw [hanswer] at hfits
    exact hfits.1.readable

end SmallScheme
