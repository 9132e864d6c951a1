import SmallScheme.Datum
import SmallScheme.Token.Scanner

/-! # Reading data

Tokens to data, one token at a time. The forms that are open are kept in a list, innermost first, so
nesting costs no recursion; `feed` says what one token does to them. A datum is complete once no form
is open. `next` feeds the tokens of a scanner, and reading goes on behind an error at the token that
follows.
-/

namespace SmallScheme

/-- The most forms that may be open at once. -/
def maxNesting : Nat := 512

/-- A datum that has been started, with its items so far in reverse order. -/
inductive OpenForm
  | list (items : List Datum)
  | vector (items : List Datum)
  /-- A list behind its dot, which wants one more datum. -/
  | dotted (items : List Datum)
  /-- A mark, which wants a datum. -/
  | abbreviation (mark : Abbreviation)

/-- What the reader waits for between two tokens. -/
inductive Pending
  /-- A datum, or an end of the innermost form. -/
  | datum (forms : List OpenForm)
  /-- The parenthesis behind a dotted list, here without it. -/
  | close (whole : Datum) (forms : List OpenForm)

inductive Progress
  | pending (wanted : Pending)
  | complete (datum : Datum)

/-- Hands a datum to the innermost open form, which it may complete in turn. -/
def Progress.deliver (d : Datum) : List OpenForm → Progress
  | [] => .complete d
  | .list items :: forms => .pending (.datum (.list (d :: items) :: forms))
  | .vector items :: forms => .pending (.datum (.vector (d :: items) :: forms))
  | .dotted items :: forms => .pending (.close (.list items.reverse d) forms)
  | .abbreviation mark :: forms => deliver (.abbreviated mark d) forms

namespace Pending

/-- Opens a form inside the others. -/
def start (form : OpenForm) (forms : List OpenForm) : Except SyntaxError Progress :=
  if maxNesting ≤ forms.length then .error (.nestingTooDeep maxNesting)
  else .ok (.pending (.datum (form :: forms)))

def feed : Pending → Token → Except SyntaxError Progress
  | .close whole forms, .close => .ok (.deliver whole forms)
  | .close _ _, token => .error (.expectedClose token)
  | .datum forms, .atom value => .ok (.deliver (.atom value) forms)
  | .datum forms, .listOpen => start (.list []) forms
  | .datum forms, .vectorOpen => start (.vector []) forms
  | .datum forms, .abbreviation mark => start (.abbreviation mark) forms
  | .datum (.list items :: forms), .close => .ok (.deliver (.list items.reverse .null) forms)
  | .datum (.vector items :: forms), .close => .ok (.deliver (.vector items.reverse) forms)
  | .datum (.list (item :: items) :: forms), .dot =>
    .ok (.pending (.datum (.dotted (item :: items) :: forms)))
  | .datum _, token => .error (.unexpectedToken token)

/-- The next datum or error, given what the reader waits for. -/
def next (wanted : Pending) (s : Scanner) : Option (Except SyntaxError Datum) × Scanner :=
  match h : s.next with
  | (none, rest) =>
    match wanted with
    | .datum [] => (none, rest)
    | _ => (some (.error .unexpectedEnd), rest)
  | (some (.error e), rest) => (some (.error e), rest)
  | (some (.ok token), rest) =>
    have := Scanner.next_unread_lt h
    match wanted.feed token with
    | .error e => (some (.error e), rest)
    | .ok (.complete d) => (some (.ok d), rest)
    | .ok (.pending wanted) => next wanted rest
termination_by s.unread.length

theorem next_unread_le (wanted : Pending) (s : Scanner) :
    (wanted.next s).2.unread.length ≤ s.unread.length := by
  fun_induction next wanted s with
  | case1 s rest h | case2 _ s rest h _ | case3 _ s _ rest h =>
    simpa [h] using s.next_unread_le
  | case4 _ _ _ _ _ lt | case5 _ _ _ _ _ lt => exact Nat.le_of_lt lt
  | case6 _ _ _ _ _ lt _ _ ih => exact Nat.le_trans ih (Nat.le_of_lt lt)

variable {wanted : Pending} {s rest : Scanner}

theorem next_of_end (h : s.next = (none, rest)) : wanted.next s =
    match wanted with
    | .datum [] => (none, rest)
    | _ => (some (.error .unexpectedEnd), rest) := by
  rw [next]
  split
  · rename_i hnext
    cases h.symm.trans hnext
    rfl
  · rename_i hnext
    cases h.symm.trans hnext
  · rename_i hnext
    cases h.symm.trans hnext

theorem next_of_error {e : SyntaxError} (h : s.next = (some (.error e), rest))
    (wanted : Pending) : wanted.next s = (some (.error e), rest) := by
  rw [next]
  split
  · rename_i hnext
    cases h.symm.trans hnext
  · rename_i hnext
    cases h.symm.trans hnext
    rfl
  · rename_i hnext
    cases h.symm.trans hnext

theorem next_of_token {token : Token} (h : s.next = (some (.ok token), rest)) : wanted.next s =
    match wanted.feed token with
    | .error e => (some (.error e), rest)
    | .ok (.complete d) => (some (.ok d), rest)
    | .ok (.pending wanted) => wanted.next rest := by
  rw [next]
  split
  · rename_i hnext
    cases h.symm.trans hnext
  · rename_i hnext
    cases h.symm.trans hnext
  · rename_i hnext
    cases h.symm.trans hnext
    rfl

end Pending

namespace Scanner

/-- The next complete datum or the error that it ends in, `none` if no token is left. -/
def nextDatum (s : Scanner) : Option (Except SyntaxError Datum) × Scanner :=
  Pending.next (.datum []) s

/-- A call that answers anything but the end takes at least one character, whatever was open. -/
theorem nextDatum_unread_lt {s t : Scanner} {answer : Except SyntaxError Datum}
    (h : s.nextDatum = (some answer, t)) : t.unread.length < s.unread.length := by
  rw [nextDatum, Pending.next] at h
  split at h
  · simp at h
  · rename_i next
    simp only [Prod.mk.injEq] at h
    exact h.2 ▸ next_unread_lt next
  · rename_i next
    have lt := next_unread_lt next
    split at h
    · simp only [Prod.mk.injEq] at h
      exact h.2 ▸ lt
    · simp only [Prod.mk.injEq] at h
      exact h.2 ▸ lt
    · rename_i wanted _
      have le := wanted.next_unread_le ‹Scanner›
      rw [h] at le
      exact Nat.lt_of_le_of_lt le lt

/-- All data and errors up to the end of the text, each with the scanner behind it, and the scanner
at the end. -/
def data (s : Scanner) : List (Except SyntaxError Datum × Scanner) × Scanner :=
  match h : s.nextDatum with
  | (none, rest) => ([], rest)
  | (some answer, rest) =>
    have := nextDatum_unread_lt h
    let (answers, last) := rest.data
    ((answer, rest) :: answers, last)
termination_by s.unread.length

theorem data_of_none {s : Scanner} (h : s.nextDatum.1 = none) : s.data.1 = [] := by
  rw [data]
  split
  · rfl
  · rename_i hsome
    rw [hsome] at h
    cases h

theorem data_of_datum {s s' : Scanner} {answer : Except SyntaxError Datum}
    (h : s.nextDatum = (some answer, s')) : s.data.1 = (answer, s') :: s'.data.1 := by
  rw [data]
  split
  · rename_i hnone
    cases h.symm.trans hnone
  · rename_i hsome
    cases h.symm.trans hsome
    rfl

end Scanner

namespace Datum

/-- The data of a text, each with the error that ended it if one did; reading goes on behind errors. -/
def readEach (text : String) : List (Except SyntaxError Datum) :=
  (Scanner.ofString text).data.1.map (·.1)

/-- The data of a text that has no error, or else its first error. -/
def readAll (text : String) : Except SyntaxError (List Datum) := (readEach text).mapM id

end Datum

end SmallScheme
