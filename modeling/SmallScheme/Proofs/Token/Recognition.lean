import SmallScheme.Proofs.Character
import SmallScheme.Token.Scanner

/-! # Tokens are recognized by the unread text

The token rules read character by character, compare with words on trial and give back what they
took in vain. All the same they answer with the lexeme at the front of the unread text, take its
length and have looked as far as it reaches, however many of these characters had been given back
before.
-/

namespace SmallScheme

theorem Position.walk_add (p : Position) (m n : Nat) (text : List Char) :
    p.walk (m + n) text = (p.walk m text).walk n (text.drop m) := by
  induction m generalizing p text with
  | zero => simp [walk]
  | succ m ih =>
    cases text with
    | nil => cases n <;> simp [walk]
    | cons c text => simp [Nat.succ_add, walk, ih]

theorem compared_eq_one {v w : Char} {word word' text : List Char} (h : startsWith (v :: word) text)
    (hne : v ≠ w) : compared (w :: word') text = 1 := by
  cases text with
  | nil => cases h
  | cons c text =>
    simp only [startsWith, Bool.and_eq_true, decide_eq_true_eq] at h
    rw [compared, if_neg (by rw [h.1]; exact hne)]

namespace Scanner

/-- Removes the first `n` unread characters, of which the first `m` have been looked at. -/
def advance (s : Scanner) (n m : Nat) : Scanner := (s.look m).take n

variable {s : Scanner} {n m k : Nat}

theorem advance_eq (s : Scanner) (n m : Nat) : s.advance n m =
    ⟨s.unread.drop n, max s.ahead (max m n) - n,
      s.position.walk (max m n - s.ahead) (s.unread.drop s.ahead)⟩ := by
  have hsplit : max m n - s.ahead = (m - s.ahead) + (n - max s.ahead m) := by omega
  have hdrop : s.ahead + (m - s.ahead) = max s.ahead m := by omega
  simp [advance, look, take, hsplit, Position.walk_add, hdrop, Nat.max_assoc]

@[simp] theorem advance_unread (s : Scanner) (n m : Nat) :
    (s.advance n m).unread = s.unread.drop n := rfl

theorem advance_zero (h : m ≤ s.ahead) : s.advance 0 m = s := by
  have hnone : m - s.ahead = 0 := by omega
  simp [advance_eq, hnone, Position.walk, Nat.max_eq_left h]

theorem advance_congr (h : max m n = max k n) : s.advance n m = s.advance n k := by
  rw [advance_eq, advance_eq, h]

theorem advance_advance (s : Scanner) (n m n' m' : Nat) :
    (s.advance n m).advance n' m' = s.advance (n + n') (max m (n + m')) := by
  have hreach : max (max m (n + m')) (n + n') - s.ahead =
      (max m n - s.ahead) + (max m' n' - (max s.ahead (max m n) - n)) := by omega
  have hdrop : n + (max s.ahead (max m n) - n) = s.ahead + (max m n - s.ahead) := by omega
  have hahead : max (max s.ahead (max m n) - n) (max m' n') - n' =
      max s.ahead (max (max m (n + m')) (n + n')) - (n + n') := by omega
  simp only [advance_eq, List.drop_drop, hreach, Position.walk_add, hdrop, hahead]

/-- The answer is the lexeme's, and so is what has been taken and looked at from `s` on. -/
def Recognizes (s : Scanner) (l : Lexeme) (r : Except SyntaxError Token × Input) : Prop :=
  r.1 = l.result ∧ r.2.scanner = s.advance l.length l.reach

end Scanner

namespace Input

open Character Scanner

variable {i j : Input} {c first : Char} {rest word taken : List Char} {s : Scanner} {n m : Nat}

@[simp] theorem scanner_unread (i : Input) : i.scanner.unread = i.unread := rfl

theorem scanner_read (h : i.read = (some c, j)) : j.scanner = i.scanner.advance 1 1 := by
  obtain ⟨_ | ⟨d, pushback⟩, rest, p⟩ := i
  · cases rest with
    | nil => cases h
    | cons d rest =>
      cases h
      simp [scanner, unread, advance_eq, Position.walk]
  · cases h
    simp [scanner, unread, advance_eq, Position.walk]

theorem scanner_giveBack (h : j.scanner = s.advance taken.length taken.length)
    (hunread : s.unread = taken.reverse ++ j.unread) :
    (j.giveBack taken).scanner = s.advance 0 taken.length := by
  simp only [scanner, advance_eq, Scanner.mk.injEq] at h ⊢
  obtain ⟨-, hahead, hposition⟩ := h
  refine ⟨?_, ?_, ?_⟩
  · rw [giveBack_unread, hunread, List.drop_zero]
  · rw [giveBack_pushback, List.length_append, List.length_reverse]
    omega
  · simpa [giveBack] using hposition

variable (hword : word.map Char.toLower = word)
include hword

theorem readMatchFrom_eq (h : i.scanner = s.advance taken.length taken.length)
    (hunread : s.unread = taken.reverse ++ i.unread) :
    (i.readMatchFrom taken word).1 = startsWith word i.unread ∧
      (i.readMatchFrom taken word).2.scanner =
        if startsWith word i.unread then
          s.advance (taken.length + word.length) (taken.length + word.length)
        else s.advance 0 (taken.length + compared word i.unread) := by
  induction word generalizing i taken with
  | nil => exact ⟨rfl, h⟩
  | cons w word ih =>
    obtain ⟨hw, hword⟩ := List.cons_eq_cons.mp hword
    rw [readMatchFrom]
    split
    · rename_i j hread
      obtain ⟨rfl, hnil⟩ := of_read_none hread
      simpa [hnil, startsWith, compared] using scanner_giveBack h hunread
    · rename_i c j hread
      have hcons := unread_of_read hread
      have hnext : j.scanner = s.advance (c :: taken).length (c :: taken).length := by
        rw [scanner_read hread, h, advance_advance, List.length_cons]
        exact advance_congr (by omega)
      have hback : s.unread = (c :: taken).reverse ++ j.unread := by
        rw [hunread, hcons, List.reverse_cons, List.append_assoc, List.singleton_append]
      rw [hcons, startsWith, compared, hw]
      split
      · rename_i hc
        simp only [hc, decide_true, Bool.true_and]
        have hlength : ∀ k, taken.length + (k + 1) = (c :: taken).length + k := by
          intro k
          rw [List.length_cons]
          omega
        rw [List.length_cons, hlength, hlength]
        exact ih hword hnext hback
      · rename_i hc
        simpa [hc] using scanner_giveBack hnext hback

theorem readMatch_of_startsWith (h : startsWith word i.unread) : ∃ j, i.readMatch word = (true, j) ∧
    j.scanner = i.scanner.advance word.length word.length := by
  obtain ⟨hfound, hscanner⟩ := @readMatchFrom_eq i word [] i.scanner hword
    (advance_zero (Nat.zero_le _)).symm rfl
  refine ⟨_, Prod.ext (hfound.trans h) rfl, ?_⟩
  simpa [readMatch, h] using hscanner

theorem readMatch_of_not_startsWith (h : ¬ startsWith word i.unread) :
    ∃ j, i.readMatch word = (false, j) ∧
      j.scanner = i.scanner.advance 0 (compared word i.unread) := by
  obtain ⟨hfound, hscanner⟩ := @readMatchFrom_eq i word [] i.scanner hword
    (advance_zero (Nat.zero_le _)).symm rfl
  refine ⟨_, Prod.ext (hfound.trans (Bool.not_eq_true _ ▸ h)) rfl, ?_⟩
  simpa [readMatch, h] using hscanner

omit hword

/-- Two words that start with different letters, the second tried where the first was given back. -/
theorem readMatch_trials {v w : Char} {first second : List Char} (hne : w ≠ v)
    (hfirst : (v :: first).map Char.toLower = v :: first)
    (hsecond : (w :: second).map Char.toLower = w :: second) (i : Input) :
    (startsWith (v :: first) i.unread ∧ ∃ j, i.readMatch (v :: first) = (true, j) ∧
      j.scanner = i.scanner.advance (v :: first).length (v :: first).length) ∨
    (¬ startsWith (v :: first) i.unread ∧ ∃ j, i.readMatch (v :: first) = (false, j) ∧
      ((startsWith (w :: second) i.unread ∧ ∃ k, j.readMatch (w :: second) = (true, k) ∧
          k.scanner = i.scanner.advance (w :: second).length (w :: second).length) ∨
        (¬ startsWith (w :: second) i.unread ∧ ∃ k, j.readMatch (w :: second) = (false, k) ∧
          k.scanner = i.scanner.advance 0
            (max (compared (v :: first) i.unread) (compared (w :: second) i.unread))))) := by
  by_cases h : startsWith (v :: first) i.unread
  · exact .inl ⟨h, readMatch_of_startsWith hfirst h⟩
  obtain ⟨j, hmatch, hj⟩ := readMatch_of_not_startsWith hfirst h
  have hsame : j.unread = i.unread := congrArg Scanner.unread hj
  refine .inr ⟨h, j, hmatch, ?_⟩
  rw [← hsame]
  by_cases h' : startsWith (w :: second) j.unread
  · obtain ⟨k, hmatch', hk⟩ := readMatch_of_startsWith hsecond h'
    refine .inl ⟨h', k, hmatch', ?_⟩
    rw [hk, hj, compared_eq_one (hsame ▸ h') hne, advance_advance, List.length_cons]
    simp only [Nat.zero_add]
    exact advance_congr (by omega)
  · obtain ⟨k, hmatch', hk⟩ := readMatch_of_not_startsWith hsecond h'
    refine .inr ⟨h', k, hmatch', ?_⟩
    rw [hk, hj, advance_advance, hsame]
    exact advance_congr (by omega)

theorem skipAtmosphere_scanner (inComment : Bool) (i : Input) :
    (i.skipAtmosphere inComment).scanner =
      i.scanner.advance (atmosphere inComment i.unread) (atmosphere inComment i.unread) := by
  fun_induction skipAtmosphere inComment i with
  | case1 inComment i next h =>
    rw [(of_read_none h).2, atmosphere, advance_zero (Nat.zero_le _)]
  | case2 inComment i c next h _ inComment' hskip ih =>
    rw [unread_of_read h, atmosphere, if_pos hskip, ih, scanner_read h, advance_advance]
    simp only [Nat.add_comm 1, inComment']
    exact advance_congr (by omega)
  | case3 inComment i c next h _ inComment' hskip =>
    rw [unread_of_read h, atmosphere, if_neg hskip, advance_zero (Nat.zero_le _)]

theorem readRun_of_read (h : i.read = (some c, j)) (inClass : Char → Bool) : i.readRun inClass =
    if j.peekLower.any inClass then (c.toLower :: (j.readRun inClass).1, (j.readRun inClass).2)
    else ([c.toLower], j) := by
  rw [readRun]
  split
  · rename_i hnone
    cases h.symm.trans hnone
  · rename_i hsome
    cases h.symm.trans hsome
    rfl

theorem readRun_eq {inClass : Char → Bool} (hclass : ∀ c : Char, inClass c.toLower = inClass c)
    (h : i.unread = first :: rest) :
    let text := (first :: rest.takeWhile inClass).map Char.toLower
    ∃ j, i.readRun inClass = (text, j) ∧ j.unread = rest.dropWhile inClass ∧
      j.scanner = i.scanner.advance text.length text.length := by
  induction rest generalizing i first with
  | nil =>
    obtain ⟨hread, hnil⟩ := read_of_unread h
    exact ⟨i.read.2, by simp [readRun_of_read hread, peekLower_eq, hnil], hnil, scanner_read hread⟩
  | cons d rest ih =>
    obtain ⟨hread, hcons⟩ := read_of_unread h
    obtain ⟨j, hrun, hunread, hscanner⟩ := ih hcons
    rw [readRun_of_read hread, peekLower_eq, hcons, List.head?_cons, Option.map_some,
      Option.any_some, hclass, List.takeWhile_cons, List.dropWhile_cons, hrun]
    split
    · refine ⟨j, rfl, hunread, ?_⟩
      rw [hscanner, scanner_read hread, advance_advance]
      simp only [List.map_cons, List.length_cons, Nat.add_comm 1]
      exact advance_congr (by omega)
    · exact ⟨i.read.2, rfl, hcons, scanner_read hread⟩

/-! The rules one by one. Each is given where it starts, `n` characters behind the front of the
lexeme, if as many or more have been looked at. -/

theorem recognizes_delimited (h : i.scanner = s.advance n m) (answer : Except SyntaxError Token) :
    s.Recognizes (Lexeme.delimited answer n m i.unread) (i.delimited answer) := by
  rw [delimited, peek_eq]
  cases i.unread with
  | nil => exact ⟨rfl, h⟩
  | cons c rest =>
    simp only [List.head?_cons, Lexeme.delimited]
    split <;> exact ⟨rfl, h⟩

theorem recognizes_symbol (h : i.unread = first :: rest) :
    i.scanner.Recognizes (Lexeme.symbol first rest) i.symbol := by
  obtain ⟨j, hrun, hunread, hscanner⟩ := readRun_eq isSubsequent_toLower h
  rw [symbol, Lexeme.symbol, hrun, ← hunread]
  exact recognizes_delimited hscanner _

theorem recognizes_numeral (negative : Bool) (hi : i.scanner = s.advance n m)
    (h : i.unread = first :: rest) :
    s.Recognizes (Lexeme.numeral negative n m first rest) (i.numeral negative) := by
  obtain ⟨j, hrun, hunread, hscanner⟩ := readRun_eq isNumeral_toLower h
  rw [numeral, Lexeme.numeral, hrun, ← hunread]
  refine recognizes_delimited ?_ _
  rw [hscanner, hi, advance_advance]
  exact advance_congr (by omega)

theorem recognizes_signed (negative : Bool) (hi : i.scanner = s.advance 1 1) :
    s.Recognizes (Lexeme.signed negative i.unread) (i.signed negative) := by
  have hname : ∀ {j : Input}, j.scanner = i.scanner.advance 5 5 →
      j.unread = i.unread.drop 5 ∧ j.scanner = s.advance 6 6 := by
    intro j hj
    refine ⟨congrArg Scanner.unread hj, ?_⟩
    rw [hj, hi, advance_advance]
    exact advance_congr rfl
  rw [signed, peek_eq]
  cases h : i.unread with
  | nil => exact ⟨rfl, hi⟩
  | cons first rest =>
    simp only [List.head?_cons, Lexeme.signed]
    split
    · exact ⟨rfl, hi⟩
    rw [← h]
    rcases @readMatch_trials 'i' 'n' ['n', 'f', '.', '0'] ['a', 'n', '.', '0'] (by decide) rfl rfl i
      with ⟨hstarts, j, hmatch, hj⟩ | ⟨hinfinity, j, hmatch, ⟨hstarts, k, hmatch', hk⟩ |
        ⟨hnan, k, hmatch', hk⟩⟩
    · obtain ⟨hunread, hscanner⟩ := hname hj
      rw [Lexeme.infinityName, hmatch, if_pos hstarts, ← hunread]
      exact recognizes_delimited hscanner _
    · obtain ⟨hunread, hscanner⟩ := hname hk
      rw [Lexeme.infinityName, Lexeme.nanName, hmatch, if_neg hinfinity, if_pos hstarts, ← hunread]
      dsimp only
      rw [hmatch']
      exact recognizes_delimited hscanner _
    · rw [Lexeme.infinityName, Lexeme.nanName, hmatch, if_neg hinfinity, if_neg hnan]
      dsimp only
      rw [hmatch']
      refine recognizes_numeral negative ?_ ((congrArg Scanner.unread hk).trans h)
      rw [hk, hi, advance_advance]
      exact advance_congr (by omega)

theorem readContents_eq (i : Input) :
    i.readContents.1 = (Lexeme.stringContents i.unread).1 ∧
      i.readContents.2.scanner = i.scanner.advance (Lexeme.stringContents i.unread).2
        (Lexeme.stringContents i.unread).2 := by
  fun_induction readContents i with
  | case1 i next h =>
    obtain ⟨rfl, hnil⟩ := of_read_none h
    simp [hnil, Lexeme.stringContents, advance_zero (Nat.zero_le _)]
  | case2 i next h =>
    rw [unread_of_read h, Lexeme.stringContents]
    exact ⟨rfl, scanner_read h⟩
  | case3 i next h _ last h' =>
    obtain ⟨rfl, hnil⟩ := of_read_none h'
    rw [unread_of_read h, hnil, Lexeme.stringContents]
    exact ⟨rfl, scanner_read h⟩
  | case4 i next h _ c after h' _ hc contents last heq ih =>
    obtain ⟨hcontents, hscanner⟩ := ih
    rw [heq] at hcontents hscanner
    rw [unread_of_read h, unread_of_read h', Lexeme.stringContents, if_pos hc]
    refine ⟨congrArg (Except.map (c :: ·)) hcontents, ?_⟩
    rw [hscanner, scanner_read h', scanner_read h, advance_advance, advance_advance]
    simp only [Nat.add_comm 1, Nat.add_assoc]
    exact advance_congr (by omega)
  | case5 i next h _ c after h' _ hc =>
    rw [unread_of_read h, unread_of_read h', Lexeme.stringContents, if_neg hc]
    refine ⟨rfl, ?_⟩
    rw [scanner_read h', scanner_read h, advance_advance]
    exact advance_congr rfl
  | case6 i c next hquote hslash h _ contents last heq ih =>
    obtain ⟨hcontents, hscanner⟩ := ih
    rw [heq] at hcontents hscanner
    rw [unread_of_read h, Lexeme.stringContents]
    · refine ⟨congrArg (Except.map (c :: ·)) hcontents, ?_⟩
      rw [hscanner, scanner_read h, advance_advance]
      simp only [Nat.add_comm 1]
      exact advance_congr (by omega)
    · exact hquote
    · exact fun hc _ => hslash hc
    · exact fun _ _ hc _ => hslash hc

theorem recognizes_string (hi : i.scanner = s.advance 1 1) :
    s.Recognizes (Lexeme.string i.unread) i.string := by
  obtain ⟨hcontents, hscanner⟩ := i.readContents_eq
  refine ⟨?_, ?_⟩
  · simp only [string, Lexeme.string, hcontents]
  · simp only [string, Lexeme.string, hscanner, hi, advance_advance, Nat.add_comm 1]
    exact advance_congr (by omega)

theorem recognizes_character (hi : i.scanner = s.advance 2 2) :
    s.Recognizes (Lexeme.character i.unread) i.character := by
  rw [character, Lexeme.character, Lexeme.newlineName, Lexeme.spaceName]
  rcases @readMatch_trials 'n' 's' ['e', 'w', 'l', 'i', 'n', 'e'] ['p', 'a', 'c', 'e'] (by decide)
    rfl rfl i with ⟨hstarts, j, hmatch, hj⟩ | ⟨hnewline, j, hmatch, ⟨hstarts, k, hmatch', hk⟩ |
      ⟨hspace, k, hmatch', hk⟩⟩
  · have hscanner : j.scanner = s.advance 9 9 := by
      rw [hj, hi, advance_advance]
      exact advance_congr rfl
    rw [hmatch, if_pos hstarts, show i.unread.drop 7 = j.unread from (congrArg Scanner.unread hj).symm]
    exact recognizes_delimited hscanner _
  · have hscanner : k.scanner = s.advance 7 7 := by
      rw [hk, hi, advance_advance]
      exact advance_congr rfl
    rw [hmatch, if_neg hnewline, if_pos hstarts,
      show i.unread.drop 5 = k.unread from (congrArg Scanner.unread hk).symm]
    dsimp only
    rw [hmatch']
    exact recognizes_delimited hscanner _
  · have hsame : k.unread = i.unread := congrArg Scanner.unread hk
    have hscanner : k.scanner = s.advance 2 (2 + max
        (compared ['n', 'e', 'w', 'l', 'i', 'n', 'e'] k.unread)
        (compared ['s', 'p', 'a', 'c', 'e'] k.unread)) := by
      rw [hk, hi, advance_advance, hsame]
      exact advance_congr (by omega)
    rw [hmatch, if_neg hnewline, if_neg hspace, ← hsame]
    dsimp only
    rw [hmatch']
    dsimp only
    split
    · rename_i hnil
      rw [read_of_nil hnil]
      exact ⟨rfl, hscanner⟩
    · rename_i c after hcons
      obtain ⟨hread, hafter⟩ := read_of_unread hcons
      rw [hread, ← hafter]
      refine recognizes_delimited ?_ _
      rw [scanner_read hread, hscanner, advance_advance]
      exact advance_congr (by omega)

theorem recognizes_unquoted (plain splicing : Abbreviation) (hi : i.scanner = s.advance n n) :
    s.Recognizes (Lexeme.unquoted plain splicing n i.unread) (i.unquoted plain splicing) := by
  rw [unquoted, Lexeme.unquoted, peek_eq]
  split
  · rename_i hat
    obtain ⟨rest, hunread⟩ := List.head?_eq_some_iff.mp hat
    refine ⟨rfl, ?_⟩
    rw [scanner_read (read_of_unread hunread).1, hi, advance_advance]
    exact advance_congr (by simp [Lexeme.ok])
  · exact ⟨rfl, hi⟩

theorem recognizes_hash (hi : i.scanner = s.advance 1 1) :
    s.Recognizes (Lexeme.hash i.unread) i.hash := by
  rw [hash, readLower]
  cases hunread : i.unread with
  | nil =>
    rw [read_of_nil hunread]
    exact ⟨rfl, hi⟩
  | cons c after =>
    obtain ⟨hread, hafter⟩ := read_of_unread hunread
    have hscanner : i.read.2.scanner = s.advance 2 2 := by
      rw [scanner_read hread, hi, advance_advance]
      exact advance_congr rfl
    rw [hread, ← hafter]
    dsimp only [Option.map]
    generalize hmark : c.toLower = mark
    split
    all_goals rw [Lexeme.hash, hmark]
    · exact ⟨rfl, hscanner⟩
    · exact ⟨rfl, hscanner⟩
    · exact ⟨rfl, hscanner⟩
    · exact recognizes_unquoted _ _ hscanner
    · exact recognizes_delimited hscanner _
    · exact recognizes_delimited hscanner _
    · exact recognizes_character hscanner
    -- What is no mark to the rule is none to the lexeme.
    · split <;> first | contradiction | exact ⟨rfl, hscanner⟩

theorem recognizes_dot (hi : i.scanner = s.advance 1 1) :
    s.Recognizes (Lexeme.dot i.unread) i.dot := by
  rw [dot, Lexeme.dot]
  split
  · rename_i hstarts
    obtain ⟨j, hmatch, hj⟩ := readMatch_of_startsWith rfl hstarts
    have hscanner : j.scanner = s.advance 3 3 := by
      rw [hj, hi, advance_advance]
      exact advance_congr rfl
    rw [hmatch, show i.unread.drop 2 = j.unread from (congrArg Scanner.unread hj).symm]
    exact recognizes_delimited hscanner _
  · rename_i hstarts
    obtain ⟨j, hmatch, hj⟩ := readMatch_of_not_startsWith rfl hstarts
    have hsame : j.unread = i.unread := congrArg Scanner.unread hj
    rw [hmatch, ← hsame]
    refine recognizes_delimited ?_ _
    rw [hj, hi, advance_advance, hsame]
    exact advance_congr (by omega)

theorem recognizes_punctuation (hi : i.scanner = s.advance 1 1) (hinitial : ¬ isInitial c)
    (hdigit : ¬ c.isDigit) :
    s.Recognizes (Lexeme.front c i.unread) (i.punctuation c) := by
  unfold punctuation
  split
  all_goals rw [Lexeme.front, if_neg hinitial, if_neg hdigit]
  · exact recognizes_hash hi
  · exact recognizes_string hi
  · exact recognizes_dot hi
  · exact recognizes_unquoted _ _ hi
  · exact recognizes_signed false hi
  · exact recognizes_signed true hi
  · exact ⟨rfl, hi⟩
  · exact ⟨rfl, hi⟩
  · exact ⟨rfl, hi⟩
  · exact ⟨rfl, hi⟩
  · exact ⟨rfl, hi⟩
  -- What is no mark to the rule is none to the lexeme.
  all_goals assumption

/-- The rule that the next character chooses, in lower case, is that of the character itself. -/
theorem recognizes_token (h : i.unread = c :: rest) :
    i.scanner.Recognizes (Lexeme.front c rest) (i.token c.toLower) := by
  obtain ⟨hread, hrest⟩ := read_of_unread h
  rw [token, isInitial_toLower]
  split
  · rename_i hinitial
    unfold Lexeme.front
    rw [if_pos hinitial]
    exact recognizes_symbol h
  rename_i hinitial
  have hlower : c.toLower = c := by
    apply toLower_of_not_isUpper
    intro hupper
    rw [isUpper_iff] at hupper
    exact hinitial (isInitial_iff.mpr (.inl (.inl hupper)))
  rw [hlower]
  split
  · rename_i hdigit
    unfold Lexeme.front
    rw [if_neg hinitial, if_pos hdigit]
    exact recognizes_numeral false (advance_zero (Nat.zero_le _)).symm h
  · rename_i hdigit
    rw [← hrest]
    exact recognizes_punctuation (scanner_read hread) hinitial hdigit

theorem skipAtmosphere_unread (i : Input) :
    (i.skipAtmosphere false).unread = i.unread.drop (atmosphere false i.unread) :=
  congrArg Scanner.unread (i.skipAtmosphere_scanner false)

theorem next_of_nil (h : (i.skipAtmosphere false).unread = []) :
    i.next = (none, i.skipAtmosphere false) := by
  simp only [next, peekLower_eq, h, List.head?_nil, Option.map_none]

theorem next_of_cons (h : (i.skipAtmosphere false).unread = c :: rest) :
    ∃ j, i.next = (some (Lexeme.front c rest).result, j) ∧
      j.scanner = (i.skipAtmosphere false).scanner.advance (Lexeme.front c rest).length
        (Lexeme.front c rest).reach := by
  obtain ⟨hresult, hscanner⟩ := recognizes_token h
  simp only [next, peekLower_eq, h, List.head?_cons, Option.map_some, hresult]
  exact ⟨_, rfl, hscanner⟩

end Input

end SmallScheme
