import SmallScheme.Character
import SmallScheme.Failure
import SmallScheme.Number.Numeral

/-! # Lexemes

The token rules. Which token stands at the front of a text, and how many characters it takes, is a
function of the text alone. Letters outside strings and character literals count as lower case.
-/

namespace SmallScheme

/-- Blanks and comments at the front of a text, by their length. A comment runs from a semicolon to
the end of its line. -/
def atmosphere (inComment : Bool) : List Char → Nat
  | [] => 0
  | c :: rest =>
    let inComment := (inComment || c = ';') && !Character.isLineBreak c
    if inComment || Character.isBlank c then atmosphere inComment rest + 1 else 0

/-- The text starts with the word, in upper or lower case. -/
def startsWith : List Char → List Char → Bool
  | [], _ => true
  | _ :: _, [] => false
  | w :: word, c :: text => c.toLower = w && startsWith word text

/-- How many characters are compared until the text turns out to start with the word or not. -/
def compared : List Char → List Char → Nat
  | w :: word, c :: text => if c.toLower = w then compared word text + 1 else 1
  | _, _ => 0

/-- What stands at the front of a text: a token or an error, the characters it takes, and how far
into the text the rules looked by comparing it with words. -/
structure Lexeme where
  result : Except SyntaxError Token
  length : Nat
  reach : Nat

namespace Lexeme

def ok (token : Token) (length : Nat) : Lexeme := ⟨.ok token, length, length⟩

def error (e : SyntaxError) (length : Nat) : Lexeme := ⟨.error e, length, length⟩

/-- A result that holds only if a delimiter or nothing comes after it. -/
def delimited (result : Except SyntaxError Token) (length reach : Nat) (after : List Char) :
    Lexeme :=
  match after with
  | [] => ⟨result, length, reach⟩
  | c :: _ =>
    if Character.isDelimiter c then ⟨result, length, reach⟩
    else ⟨.error (.expectedDelimiter c), length, reach⟩

@[simp] theorem delimited_length (result : Except SyntaxError Token) (length reach : Nat)
    (after : List Char) : (delimited result length reach after).length = length := by
  unfold delimited
  split
  · rfl
  · split <;> rfl

def symbolToken (text : List Char) : Token := .atom (.symbol ⟨String.ofList text⟩)

/-- A symbol of an initial character and subsequent ones. -/
def symbol (initial : Char) (rest : List Char) : Lexeme :=
  let run := rest.takeWhile Character.isSubsequent
  let text := (initial :: run).map Char.toLower
  delimited (.ok (symbolToken text)) text.length text.length (rest.dropWhile Character.isSubsequent)

/-- A numeral behind a sign or none. Its first character is taken whatever it is. -/
def numeral (negative : Bool) (signLength reach : Nat) (first : Char) (rest : List Char) : Lexeme :=
  let run := rest.takeWhile Numeral.isSubsequent
  let text := (first :: run).map Char.toLower
  let result :=
    match Numeral.value? negative text with
    | some x => .ok (.atom (.number x))
    | none => .error (.unmetExpectation (String.ofList text) .number)
  let length := signLength + text.length
  delimited result length (max length reach) (rest.dropWhile Numeral.isSubsequent)

def infinityName : List Char := ['i', 'n', 'f', '.', '0']

def nanName : List Char := ['n', 'a', 'n', '.', '0']

/-- A sign alone is a symbol; otherwise it starts a number. -/
def signed (negative : Bool) (rest : List Char) : Lexeme :=
  let alone := ok (symbolToken [if negative then '-' else '+']) 1
  match rest with
  | [] => alone
  | first :: more =>
    if Character.isDelimiter first then alone
    else if startsWith infinityName rest then
      delimited (.ok (.atom (.number (Numeral.infinity negative)))) 6 6 (rest.drop 5)
    else if startsWith nanName rest then
      delimited (.ok (.atom (.number Numeral.nan))) 6 6 (rest.drop 5)
    else
      let reach := 1 + max (compared infinityName rest) (compared nanName rest)
      numeral negative 1 reach first more

/-- The contents of a string literal up to its closing quote, and the characters they take. -/
def stringContents : List Char → Except SyntaxError (List Char) × Nat
  | [] => (.error .unexpectedEnd, 0)
  | '"' :: _ => (.ok [], 1)
  | ['\\'] => (.error .unexpectedEnd, 1)
  | '\\' :: c :: rest =>
    if c = '\\' || c = '"' then
      let (contents, length) := stringContents rest
      (contents.map (c :: ·), length + 2)
    else (.error (.invalidEscape c), 2)
  | c :: rest =>
    let (contents, length) := stringContents rest
    (contents.map (c :: ·), length + 1)

def string (rest : List Char) : Lexeme :=
  let (contents, length) := stringContents rest
  let result := contents.map fun text => .atom (.string (String.ofList text))
  ⟨result, length + 1, length + 1⟩

def newlineName : List Char := ['n', 'e', 'w', 'l', 'i', 'n', 'e']

def spaceName : List Char := ['s', 'p', 'a', 'c', 'e']

/-- A character literal behind its mark: a name or any one character. -/
def character (rest : List Char) : Lexeme :=
  if startsWith newlineName rest then
    delimited (.ok (.atom (.character '\n'))) 9 9 (rest.drop 7)
  else if startsWith spaceName rest then
    delimited (.ok (.atom (.character ' '))) 7 7 (rest.drop 5)
  else
    let reach := 2 + max (compared newlineName rest) (compared spaceName rest)
    match rest with
    | [] => ⟨.error .unexpectedEnd, 2, reach⟩
    | c :: after => delimited (.ok (.atom (.character c))) 3 (max 3 reach) after

def unquoted (plain splicing : Abbreviation) (length : Nat) (rest : List Char) : Lexeme :=
  if rest.head? = some '@' then ok (.abbreviation splicing) (length + 1)
  else ok (.abbreviation plain) length

/-- What a number sign introduces. -/
def hash (rest : List Char) : Lexeme :=
  match rest with
  | [] => error .unexpectedEnd 1
  | c :: after =>
    match c.toLower with
    | '(' => ok .vectorOpen 2
    | '\'' => ok (.abbreviation .syntaxQuote) 2
    | '\x60' => ok (.abbreviation .syntaxQuasiquote) 2
    | ',' => unquoted .syntaxUnquote .syntaxUnquoteSplicing 2 after
    | 't' => delimited (.ok (.atom (.boolean true))) 2 2 after
    | 'f' => delimited (.ok (.atom (.boolean false))) 2 2 after
    | '\\' => character after
    | other => error (.invalidToken (String.ofList ['#', other])) 2

/-- Three dots are a symbol, one is the dot of a pair. -/
def dot (rest : List Char) : Lexeme :=
  if startsWith ['.', '.'] rest then delimited (.ok (symbolToken ['.', '.', '.'])) 3 3 (rest.drop 2)
  else delimited (.ok .dot) 1 (1 + compared ['.', '.'] rest) rest

/-- The lexeme at the front of a text that starts with `c` and is no blank or comment. -/
def front (c : Char) (rest : List Char) : Lexeme :=
  if Character.isInitial c then symbol c rest
  else if c.isDigit then numeral false 0 0 c rest
  else
    match c with
    | '#' => hash rest
    | '"' => string rest
    | '.' => dot rest
    | ',' => unquoted .unquote .unquoteSplicing 1 rest
    | '+' => signed false rest
    | '-' => signed true rest
    | '\x60' => ok (.abbreviation .quasiquote) 1
    | '\'' => ok (.abbreviation .quote) 1
    | '(' => ok .listOpen 1
    | ')' => ok .close 1
    | other => error (.invalidToken other.toString) 1

end Lexeme

end SmallScheme
