/-! # Character classes

The classes that decide where a token starts and ends. Letters are those of ASCII; blanks are
the characters with the Unicode property White_Space.
-/

namespace SmallScheme.Character

/-- The ranges of the Unicode property White_Space. -/
def blankRanges : List (Nat × Nat) :=
  [(0x09, 0x0D), (0x20, 0x20), (0x85, 0x85), (0xA0, 0xA0), (0x1680, 0x1680), (0x2000, 0x200A),
    (0x2028, 0x2029), (0x202F, 0x202F), (0x205F, 0x205F), (0x3000, 0x3000)]

def isBlank (c : Char) : Bool := blankRanges.any fun (low, high) => low ≤ c.toNat && c.toNat ≤ high

/-- A comment runs up to one of these. -/
def isLineBreak (c : Char) : Bool := c = '\n' || c = '\r'

/-- What may follow a symbol, number, boolean, character or dot. -/
def isDelimiter (c : Char) : Bool :=
  isBlank c || c = '(' || c = ')' || c = ';' || c = '"'

def specialInitials : List Char :=
  ['!', '$', '%', '&', '*', '/', ':', '<', '=', '>', '?', '^', '_', '~']

/-- What a symbol starts with. -/
def isInitial (c : Char) : Bool := c.isAlpha || specialInitials.contains c

/-- What a symbol goes on with. -/
def isSubsequent (c : Char) : Bool :=
  isInitial c || c.isDigit || c = '+' || c = '-' || c = '.' || c = '@'

end SmallScheme.Character
