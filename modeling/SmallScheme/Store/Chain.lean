import SmallScheme.Datum
import SmallScheme.Store

/-! # Lists in the store

A list is a chain of pairs. `list` builds one from its items, `walk` takes one apart into its items
and the cdr that ends it, and `load` stores a datum as a value.
-/

namespace SmallScheme.Store

/-- A chain of new pairs, the last one first, in front of a tail. -/
def list (s : Store) (items : List Value) (tail : Value) : Value × Store :=
  items.foldr (fun item (rest, s) => s.cons item rest) (tail, s)

/-- The cars along a chain of at most `limit` pairs, behind those of `seen` in reverse, and what is
left of the chain. A circular chain has no last cdr, and following its cdrs would never end; here the
limit ends it. -/
def walkFrom (s : Store) : Nat → Value → List Value → List Value × Value
  | limit + 1, .pair ref, seen => walkFrom s limit (s.cdr ref) (s.car ref :: seen)
  | _, rest, seen => (seen.reverse, rest)

/-- The cars along a chain and its final cdr. A chain that ends is no longer than the store. -/
def walk (s : Store) (v : Value) : List Value × Value := s.walkFrom s.cells.size v []

/-- A chain that the empty list ends. -/
def isList (s : Store) (v : Value) : Bool := (s.walk v).2 = .null

mutual

/-- A datum as a value, all of whose cells are new. -/
def load (s : Store) : Datum → Value × Store
  | .atom value => (.atom value, s)
  | .null => (.null, s)
  | .pair car cdr =>
    let (car, s) := s.load car
    let (cdr, s) := s.load cdr
    s.cons car cdr
  | .vector items =>
    let (items, s) := s.loadAll items
    s.vector items

def loadAll (s : Store) : List Datum → List Value × Store
  | [] => ([], s)
  | d :: rest =>
    let (v, s) := s.load d
    let (values, s) := s.loadAll rest
    (v :: values, s)

end

end SmallScheme.Store
