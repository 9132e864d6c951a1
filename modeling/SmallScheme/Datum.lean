import SmallScheme.Token

/-! # Data

What a text denotes before it is given a meaning: atoms, pairs, vectors and the empty list, as trees.
-/

namespace SmallScheme

inductive Datum
  | atom (value : Atom)
  | null
  | pair (car cdr : Datum)
  | vector (items : List Datum)

namespace Datum

/-- The items as a chain of pairs that ends in the tail. -/
def list (items : List Datum) (tail : Datum) : Datum := items.foldr pair tail

/-- The list that an abbreviated datum stands for. -/
def abbreviated (mark : Abbreviation) (operand : Datum) : Datum :=
  list [.atom (.symbol mark.keyword), operand] .null

end Datum

end SmallScheme
