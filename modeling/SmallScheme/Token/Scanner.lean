import SmallScheme.Token.Rules

/-! # Scanning a text

A scanner is the unread rest of a text. It also keeps the position of the first character that no
rule has looked at yet, which a comparison that failed leaves ahead of the unread text: the unread
characters before it are those that were given back. Every lexeme takes a character, so scanning
ends.
-/

namespace SmallScheme

structure Scanner where
  unread : List Char
  /-- How many unread characters the position is already past. -/
  ahead : Nat
  position : Position
  deriving DecidableEq

/-- What is kept between two calls. -/
def Input.scanner (i : Input) : Scanner := ⟨i.unread, i.pushback.length, i.position⟩

namespace Scanner

def ofString (text : String) : Scanner := ⟨text.toList, 0, .start⟩

/-- What the token rules read from. -/
def input (s : Scanner) : Input := ⟨s.unread.take s.ahead, s.unread.drop s.ahead, s.position⟩

@[simp] theorem input_unread (s : Scanner) : s.input.unread = s.unread :=
  List.take_append_drop s.ahead s.unread

/-- The next token or error, `none` at the end of the text. -/
def next (s : Scanner) : Option (Except SyntaxError Token) × Scanner :=
  let (answer, i) := s.input.next
  (answer, i.scanner)

theorem next_suffix (s : Scanner) : s.next.2.unread <:+ s.unread := by
  have hsuffix := s.input.next_suffix
  rwa [input_unread] at hsuffix

/-- A call that answers anything but the end takes at least one character. -/
theorem next_unread_lt {s t : Scanner} {answer : Except SyntaxError Token}
    (h : s.next = (some answer, t)) : t.unread.length < s.unread.length := by
  obtain ⟨hanswer, rfl⟩ := Prod.mk.inj h
  have hlt := Input.next_unread_lt (Prod.ext hanswer rfl)
  rwa [input_unread] at hlt

theorem next_unread_le (s : Scanner) : s.next.2.unread.length ≤ s.unread.length :=
  s.next_suffix.length_le

/-- All answers up to the end of the text, each with the scanner behind it, and the scanner at the
end. Errors do not stop the scan. -/
def all (s : Scanner) : List (Except SyntaxError Token × Scanner) × Scanner :=
  match h : s.next with
  | (none, rest) => ([], rest)
  | (some answer, rest) =>
    have := next_unread_lt h
    let (answers, last) := rest.all
    ((answer, rest) :: answers, last)
termination_by s.unread.length

/-! What a call looks at and what it takes, in terms of the unread text. -/

/-- Moves the position past the first `n` unread characters. -/
def look (s : Scanner) (n : Nat) : Scanner :=
  { s with
    ahead := max s.ahead n
    position := s.position.walk (n - s.ahead) (s.unread.drop s.ahead) }

/-- Removes the first `n` unread characters. -/
def take (s : Scanner) (n : Nat) : Scanner :=
  let seen := s.look n
  { seen with unread := seen.unread.drop n, ahead := seen.ahead - n }

end Scanner

end SmallScheme
