import SmallScheme.Token.Input
import SmallScheme.Token.Lexeme

/-! # Token rules

The rules read a token character by character. Each of them starts behind the characters that have
told it from the others. Whatever the answer is, a token or an error, the next call goes on where
the rule has stopped.
-/

namespace SmallScheme.Input

open Character

/-- Takes blanks and comments. -/
@[semireducible]
def skipAtmosphere (inComment : Bool) (i : Input) : Input :=
  match h : i.read with
  | (none, _) => i
  | (some c, next) =>
    have := unread_lt_of_read h
    let inComment := (inComment || c = ';') && !isLineBreak c
    if inComment || isBlank c then next.skipAtmosphere inComment else i
termination_by i.unread.length

/-- Takes a character whatever it is, and those of the class that follow it, all in lower case. -/
@[semireducible]
def readRun (inClass : Char → Bool) (i : Input) : List Char × Input :=
  match h : i.read with
  | (none, i) => ([], i)
  | (some c, next) =>
    have := unread_lt_of_read h
    if next.peekLower.any inClass then
      let (text, last) := next.readRun inClass
      (c.toLower :: text, last)
    else ([c.toLower], next)
termination_by i.unread.length

/-- An answer that holds only if a delimiter or nothing comes next. -/
def delimited (answer : Except SyntaxError Token) (i : Input) : Except SyntaxError Token × Input :=
  match i.peek with
  | none => (answer, i)
  | some c => if isDelimiter c then (answer, i) else (.error (.expectedDelimiter c), i)

def symbol (i : Input) : Except SyntaxError Token × Input :=
  let (text, i) := i.readRun isSubsequent
  i.delimited (.ok (Lexeme.symbolToken text))

/-- A numeral behind a sign or none. -/
def numeral (negative : Bool) (i : Input) : Except SyntaxError Token × Input :=
  let (text, i) := i.readRun Numeral.isSubsequent
  i.delimited <|
    match Numeral.value? negative text with
    | some x => .ok (.atom (.number x))
    | none => .error (.unmetExpectation (String.ofList text) .number)

/-- What comes behind a sign. -/
def signed (negative : Bool) (i : Input) : Except SyntaxError Token × Input :=
  let alone := Lexeme.symbolToken [if negative then '-' else '+']
  match i.peek with
  | none => (.ok alone, i)
  | some c =>
    if isDelimiter c then (.ok alone, i)
    else
      match i.readMatch Lexeme.infinityName with
      | (true, i) => i.delimited (.ok (.atom (.number (Numeral.infinity negative))))
      | (false, i) =>
        match i.readMatch Lexeme.nanName with
        | (true, i) => i.delimited (.ok (.atom (.number Numeral.nan)))
        | (false, i) => i.numeral negative

/-- The contents of a string literal up to its closing quote. -/
@[semireducible]
def readContents (i : Input) : Except SyntaxError (List Char) × Input :=
  match h : i.read with
  | (none, i) => (.error .unexpectedEnd, i)
  | (some '"', i) => (.ok [], i)
  | (some '\\', i) =>
    have := unread_lt_of_read h
    match h' : i.read with
    | (none, i) => (.error .unexpectedEnd, i)
    | (some c, i) =>
      have := unread_lt_of_read h'
      if c = '\\' || c = '"' then
        let (contents, i) := i.readContents
        (contents.map (c :: ·), i)
      else (.error (.invalidEscape c), i)
  | (some c, i) =>
    have := unread_lt_of_read h
    let (contents, i) := i.readContents
    (contents.map (c :: ·), i)
termination_by i.unread.length

def string (i : Input) : Except SyntaxError Token × Input :=
  let (contents, i) := i.readContents
  (contents.map fun text => .atom (.string (String.ofList text)), i)

/-- What comes behind the mark of a character literal. -/
def character (i : Input) : Except SyntaxError Token × Input :=
  match i.readMatch Lexeme.newlineName with
  | (true, i) => i.delimited (.ok (.atom (.character '\n')))
  | (false, i) =>
    match i.readMatch Lexeme.spaceName with
    | (true, i) => i.delimited (.ok (.atom (.character ' ')))
    | (false, i) =>
      match i.read with
      | (none, i) => (.error .unexpectedEnd, i)
      | (some c, i) => i.delimited (.ok (.atom (.character c)))

def unquoted (plain splicing : Abbreviation) (i : Input) : Except SyntaxError Token × Input :=
  if i.peek = some '@' then (.ok (.abbreviation splicing), i.read.2)
  else (.ok (.abbreviation plain), i)

/-- What comes behind a number sign. -/
def hash (i : Input) : Except SyntaxError Token × Input :=
  match i.readLower with
  | (none, i) => (.error .unexpectedEnd, i)
  | (some c, i) =>
    match c with
    | '(' => (.ok .vectorOpen, i)
    | '\'' => (.ok (.abbreviation .syntaxQuote), i)
    | '\x60' => (.ok (.abbreviation .syntaxQuasiquote), i)
    | ',' => i.unquoted .syntaxUnquote .syntaxUnquoteSplicing
    | 't' => i.delimited (.ok (.atom (.boolean true)))
    | 'f' => i.delimited (.ok (.atom (.boolean false)))
    | '\\' => i.character
    | other => (.error (.invalidToken (String.ofList ['#', other])), i)

/-- What comes behind a dot. -/
def dot (i : Input) : Except SyntaxError Token × Input :=
  match i.readMatch ['.', '.'] with
  | (true, i) => i.delimited (.ok (Lexeme.symbolToken ['.', '.', '.']))
  | (false, i) => i.delimited (.ok .dot)

/-- What comes behind a character that starts neither a symbol nor a numeral. -/
def punctuation (c : Char) (i : Input) : Except SyntaxError Token × Input :=
  match c with
  | '#' => i.hash
  | '"' => i.string
  | '.' => i.dot
  | ',' => i.unquoted .unquote .unquoteSplicing
  | '+' => i.signed false
  | '-' => i.signed true
  | '\x60' => (.ok (.abbreviation .quasiquote), i)
  | '\'' => (.ok (.abbreviation .quote), i)
  | '(' => (.ok .listOpen, i)
  | ')' => (.ok .close, i)
  | other => (.error (.invalidToken other.toString), i)

/-- The token that the next character, in lower case, belongs to, or an error. -/
def token (c : Char) (i : Input) : Except SyntaxError Token × Input :=
  if isInitial c then i.symbol
  else if c.isDigit then i.numeral false
  else i.read.2.punctuation c

/-- The next token or error, `none` at the end of the text. -/
def next (i : Input) : Option (Except SyntaxError Token) × Input :=
  let i := i.skipAtmosphere false
  match i.peekLower with
  | none => (none, i)
  | some c =>
    let (answer, i) := i.token c
    (some answer, i)

/-! Whatever a rule has taken on trial, it leaves a rest of the text that it was given. -/

variable {i j : Input} {c : Char} {answer : Except SyntaxError Token}

theorem read_suffix (i : Input) : i.read.2.unread <:+ i.unread := by
  rw [read_unread]
  exact List.tail_suffix _

theorem suffix_of_read (h : i.read = (some c, j)) : j.unread <:+ i.unread := by
  have hsuffix := i.read_suffix
  rwa [h] at hsuffix

theorem skipAtmosphere_suffix (inComment : Bool) (i : Input) :
    (i.skipAtmosphere inComment).unread <:+ i.unread := by
  fun_induction skipAtmosphere inComment i with
  | case1 | case3 => exact List.suffix_rfl
  | case2 _ _ _ _ h _ _ _ ih => exact ih.trans (suffix_of_read h)

theorem readRun_suffix (inClass : Char → Bool) (i : Input) :
    (i.readRun inClass).2.unread <:+ i.read.2.unread := by
  fun_induction readRun inClass i with
  | case1 i next h | case3 i c next h => simp [h]
  | case2 i c next h _ _ text last heq ih =>
    rw [heq] at ih
    simpa [h] using ih.trans next.read_suffix

theorem readMatchFrom_suffix (i : Input) (taken word : List Char) :
    (i.readMatchFrom taken word).2.unread <:+ taken.reverse ++ i.unread := by
  induction word generalizing i taken with
  | nil => exact List.suffix_append _ _
  | cons w word ih =>
    rw [readMatchFrom]
    split
    · rename_i h
      obtain ⟨rfl, -⟩ := of_read_none h
      simp [giveBack_unread]
    · rename_i d next h
      have hback : (d :: taken).reverse ++ next.unread = taken.reverse ++ i.unread := by
        simp [unread_of_read h]
      rw [← hback]
      split
      · exact ih next (d :: taken)
      · simp [giveBack_unread]

theorem readMatch_suffix {found : Bool} {word : List Char} (h : i.readMatch word = (found, j)) :
    j.unread <:+ i.unread := by
  have hsuffix := i.readMatchFrom_suffix [] word
  rw [← readMatch, h] at hsuffix
  exact hsuffix

@[simp] theorem delimited_snd (answer : Except SyntaxError Token) (i : Input) :
    (i.delimited answer).2 = i := by
  unfold delimited
  split
  · rfl
  · split <;> rfl

theorem symbol_suffix (i : Input) : i.symbol.2.unread <:+ i.read.2.unread := by
  simpa [symbol] using i.readRun_suffix isSubsequent

theorem numeral_suffix (negative : Bool) (i : Input) :
    (i.numeral negative).2.unread <:+ i.read.2.unread := by
  simpa [numeral] using i.readRun_suffix Numeral.isSubsequent

theorem signed_suffix (negative : Bool) (i : Input) :
    (i.signed negative).2.unread <:+ i.unread := by
  simp only [signed]
  split
  · exact List.suffix_rfl
  split
  · exact List.suffix_rfl
  split
  · rename_i h
    simpa using readMatch_suffix h
  · rename_i h
    split
    · rename_i h'
      simpa using (readMatch_suffix h').trans (readMatch_suffix h)
    · rename_i next h'
      exact ((numeral_suffix negative next).trans next.read_suffix).trans
        ((readMatch_suffix h').trans (readMatch_suffix h))

theorem readContents_suffix (i : Input) : i.readContents.2.unread <:+ i.unread := by
  fun_induction readContents i with
  | case1 _ _ h => simp [(of_read_none h).1]
  | case2 _ _ h => exact suffix_of_read h
  | case3 _ _ h _ _ h' =>
    rw [(of_read_none h').1]
    exact suffix_of_read h
  | case4 _ _ h _ _ _ h' _ _ _ _ heq ih =>
    rw [heq] at ih
    exact ih.trans ((suffix_of_read h').trans (suffix_of_read h))
  | case5 _ _ h _ _ _ h' => exact (suffix_of_read h').trans (suffix_of_read h)
  | case6 _ _ _ _ _ h _ _ _ heq ih =>
    rw [heq] at ih
    exact ih.trans (suffix_of_read h)

theorem string_suffix (i : Input) : i.string.2.unread <:+ i.unread := i.readContents_suffix

theorem character_suffix (i : Input) : i.character.2.unread <:+ i.unread := by
  unfold character
  split
  · rename_i h
    simpa using readMatch_suffix h
  · rename_i h
    split
    · rename_i h'
      simpa using (readMatch_suffix h').trans (readMatch_suffix h)
    · rename_i next h'
      have hread := next.read_suffix.trans ((readMatch_suffix h').trans (readMatch_suffix h))
      split
      · rename_i heq
        rwa [heq] at hread
      · rename_i heq
        rw [heq] at hread
        simpa using hread

theorem unquoted_suffix (plain splicing : Abbreviation) (i : Input) :
    (i.unquoted plain splicing).2.unread <:+ i.unread := by
  unfold unquoted
  split
  · exact i.read_suffix
  · exact List.suffix_rfl

theorem hash_suffix (i : Input) : i.hash.2.unread <:+ i.unread := by
  have hread := i.read_suffix
  simp only [hash, readLower]
  generalize i.read.2 = next at hread ⊢
  cases i.read.1 with
  | none => exact hread
  | some c =>
    dsimp only [Option.map]
    split
    · exact hread
    · exact hread
    · exact hread
    · exact (next.unquoted_suffix _ _).trans hread
    · simpa using hread
    · simpa using hread
    · exact next.character_suffix.trans hread
    · exact hread

theorem dot_suffix (i : Input) : i.dot.2.unread <:+ i.unread := by
  unfold dot
  split
  all_goals
    rename_i h
    simpa using readMatch_suffix h

theorem punctuation_suffix (c : Char) (i : Input) :
    (i.punctuation c).2.unread <:+ i.unread := by
  unfold punctuation
  split
  · exact i.hash_suffix
  · exact i.string_suffix
  · exact i.dot_suffix
  · exact i.unquoted_suffix _ _
  · exact i.signed_suffix false
  · exact i.signed_suffix true
  all_goals exact List.suffix_rfl

theorem token_suffix (c : Char) (i : Input) :
    (i.token c).2.unread <:+ i.read.2.unread := by
  unfold token
  split
  · exact i.symbol_suffix
  split
  · exact i.numeral_suffix false
  · exact i.read.2.punctuation_suffix c

theorem next_suffix (i : Input) : i.next.2.unread <:+ i.unread := by
  have hskip := i.skipAtmosphere_suffix false
  simp only [next]
  split
  · exact hskip
  · rename_i c _
    exact ((token_suffix c _).trans (read_suffix _)).trans hskip

/-- A call that answers anything but the end takes at least one character. -/
theorem next_unread_lt (h : i.next = (some answer, j)) : j.unread.length < i.unread.length := by
  have hskip := (i.skipAtmosphere_suffix false).length_le
  simp only [next, peekLower_eq] at h
  split at h
  · cases h
  · rename_i c hc
    have htoken := (token_suffix c (i.skipAtmosphere false)).length_le
    cases hunread : (i.skipAtmosphere false).unread with
    | nil => simp [hunread] at hc
    | cons d rest =>
      rw [read_unread, hunread, List.tail_cons, (Prod.mk.inj h).2] at htoken
      rw [hunread, List.length_cons] at hskip
      omega

end SmallScheme.Input
