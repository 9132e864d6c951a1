import SmallScheme.Character

/-! # Character access

What the token rules read from: the characters that were given back, and then the rest of the text,
which no rule has seen. A rule may take several characters on trial and give them back if they turn
out to be something else. The position counts a character when it first leaves the rest of the text,
and not again when it is read a second time.
-/

namespace SmallScheme

/-- A line and a column, both counted from one. -/
structure Position where
  line : Nat
  column : Nat
  deriving DecidableEq

namespace Position

def start : Position := ⟨1, 1⟩

/-- The position after a character. A carriage return breaks the line unless a line feed, which then
does, comes next. -/
def after (p : Position) (c : Char) (next : Option Char) : Position :=
  if c = '\n' || (c = '\r' && next != some '\n') then ⟨p.line + 1, 1⟩ else ⟨p.line, p.column + 1⟩

/-- The position after the first `n` characters of a text. -/
def walk (p : Position) : Nat → List Char → Position
  | 0, _ => p
  | _ + 1, [] => p
  | n + 1, c :: rest => walk (p.after c rest.head?) n rest

end Position

structure Input where
  /-- The characters that were given back, the next one first. -/
  pushback : List Char
  rest : List Char
  position : Position
  deriving DecidableEq

namespace Input

def ofString (text : String) : Input := ⟨[], text.toList, .start⟩

/-- All that is still to be read. -/
def unread (i : Input) : List Char := i.pushback ++ i.rest

/-- The next character, which stays. -/
def peek (i : Input) : Option Char :=
  match i.pushback with
  | c :: _ => some c
  | [] => i.rest.head?

/-- Takes the next character. -/
def read (i : Input) : Option Char × Input :=
  match i.pushback, i.rest with
  | c :: pushback, _ => (some c, { i with pushback })
  | [], c :: rest => (some c, ⟨[], rest, i.position.after c rest.head?⟩)
  | [], [] => (none, i)

/-- The next character as a lower case letter, if it is a letter. -/
def peekLower (i : Input) : Option Char := i.peek.map Char.toLower

def readLower (i : Input) : Option Char × Input :=
  let (c, i) := i.read
  (c.map Char.toLower, i)

/-- Gives characters back one after the other. The last one is the next to be read. -/
def giveBack (i : Input) (taken : List Char) : Input :=
  { i with pushback := taken.foldl (fun pushback c => c :: pushback) i.pushback }

/-- Compares what comes next with a word, in upper or lower case. Where they differ all characters
taken so far, the latest of which is the first of `taken`, are given back. -/
def readMatchFrom (i : Input) (taken : List Char) : List Char → Bool × Input
  | [] => (true, i)
  | w :: word =>
    match i.read with
    | (none, i) => (false, i.giveBack taken)
    | (some c, i) =>
      if c.toLower = w.toLower then i.readMatchFrom (c :: taken) word
      else (false, i.giveBack (c :: taken))

/-- Takes the word if it comes next, in upper or lower case, and otherwise nothing. -/
def readMatch (i : Input) (word : List Char) : Bool × Input := i.readMatchFrom [] word

/-! What reading does to the unread text. -/

theorem peek_eq (i : Input) : i.peek = i.unread.head? := by
  obtain ⟨_ | ⟨c, pushback⟩, rest, p⟩ := i <;> simp [peek, unread]

theorem peekLower_eq (i : Input) : i.peekLower = i.unread.head?.map Char.toLower := by
  rw [peekLower, peek_eq]

theorem read_fst (i : Input) : i.read.1 = i.unread.head? := by
  obtain ⟨_ | ⟨c, pushback⟩, _ | ⟨d, rest⟩, p⟩ := i <;> simp [read, unread]

theorem read_unread (i : Input) : i.read.2.unread = i.unread.tail := by
  obtain ⟨_ | ⟨c, pushback⟩, _ | ⟨d, rest⟩, p⟩ := i <;> simp [read, unread]

theorem unread_of_read {i j : Input} {c : Char} (h : i.read = (some c, j)) :
    i.unread = c :: j.unread := by
  have hhead := i.read_fst
  have htail := i.read_unread
  rw [h] at hhead htail
  obtain ⟨rest, hunread⟩ := List.head?_eq_some_iff.mp hhead.symm
  rw [htail, hunread, List.tail_cons]

theorem read_of_unread {i : Input} {c : Char} {rest : List Char} (h : i.unread = c :: rest) :
    i.read = (some c, i.read.2) ∧ i.read.2.unread = rest := by
  refine ⟨Prod.ext ?_ rfl, ?_⟩
  · rw [read_fst, h, List.head?_cons]
  · rw [read_unread, h, List.tail_cons]

theorem read_of_nil {i : Input} (h : i.unread = []) : i.read = (none, i) := by
  obtain ⟨hpushback, hrest⟩ := List.append_eq_nil_iff.mp h
  simp only [read, hpushback, hrest]

theorem of_read_none {i j : Input} (h : i.read = (none, j)) : j = i ∧ i.unread = [] := by
  obtain ⟨_ | ⟨c, pushback⟩, _ | ⟨d, rest⟩, p⟩ := i <;> simp [read] at h
  exact ⟨h.symm, rfl⟩

theorem unread_lt_of_read {i j : Input} {c : Char} (h : i.read = (some c, j)) :
    j.unread.length < i.unread.length := by
  rw [unread_of_read h, List.length_cons]
  exact Nat.lt_succ_self _

theorem giveBack_pushback (i : Input) (taken : List Char) :
    (i.giveBack taken).pushback = taken.reverse ++ i.pushback := by
  induction taken generalizing i with
  | nil => rfl
  | cons c taken ih =>
    rw [List.reverse_cons, List.append_assoc]
    exact ih { i with pushback := c :: i.pushback }

theorem giveBack_unread (i : Input) (taken : List Char) :
    (i.giveBack taken).unread = taken.reverse ++ i.unread := by
  rw [unread, giveBack_pushback, List.append_assoc]
  rfl

end Input

end SmallScheme
