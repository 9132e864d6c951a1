import SmallScheme.Arity
import SmallScheme.Expression

/-! # The store

Everything that values refer to, each sort in the order of its creation. Pairs and vectors share one
order, so a cell that is built from existing values refers to earlier cells only. Nothing is ever
removed: a reference stays good once it has been handed out.
-/

namespace SmallScheme

/-- A mutable pair or vector. -/
inductive Cell
  | pair (car cdr : Value)
  | vector (items : List Value)

/-- Work that starts from some cells and values, and changes no cell, has come to these cells and has
these values at hand. -/
inductive Builds (cells : Array Cell) (vs : List Value) : Array Cell → List Value → Prop

  | start : Builds cells vs cells vs

  | plain {cells' : Array Cell} {us : List Value} {v : Value} : Builds cells vs cells' us →
      v.kind ≠ .pair → v.kind ≠ .vector → v.kind ≠ .closure → Builds cells vs cells' (v :: us)

  | parts {cells' : Array Cell} {us : List Value} {ref : CellRef} {car cdr : Value} :
      Builds cells vs cells' us → .pair ref ∈ us → cells'[ref.index]? = some (.pair car cdr) →
      Builds cells vs cells' (car :: cdr :: us)

  | items {cells' : Array Cell} {us : List Value} {ref : CellRef} {items : List Value} :
      Builds cells vs cells' us → .vector ref ∈ us → cells'[ref.index]? = some (.vector items) →
      Builds cells vs cells' (items ++ us)

  | cons {cells' : Array Cell} {us : List Value} {car cdr : Value} : Builds cells vs cells' us →
      car ∈ us → cdr ∈ us →
      Builds cells vs (cells'.push (.pair car cdr)) (.pair ⟨cells'.size⟩ :: us)

  | vector {cells' : Array Cell} {us items : List Value} : Builds cells vs cells' us →
      items ⊆ us → Builds cells vs (cells'.push (.vector items)) (.vector ⟨cells'.size⟩ :: us)

/-- An operation of the program that embeds the interpreter. It sees its arguments and the cells, but
no environment and no output, and builds a result from them or fails. -/
structure HostOperation where
  run : Array Cell → List Value → Except EvalError (Value × Array Cell)
  no_overflow : ∀ cells vs depth limit, run cells vs ≠ .error (.stackOverflow depth limit)
  builds : ∀ {cells vs v cells'}, run cells vs = .ok (v, cells') →
    ∃ us, Builds cells vs cells' us ∧ v ∈ us

/-- What a primitive computes: an operation of the prelude, or one that the host adds. -/
inductive Operation
  | add
  | subtract
  | divide
  | multiply
  | numericEqual
  | cons
  | car
  | cdr
  | display
  | exit
  | host (operation : HostOperation)

structure Primitive where
  name : String
  arity : Arity
  operation : Operation

/-- A lambda expression together with the environment that it was evaluated in. -/
structure Closure where
  environment : ScopeRef
  formals : Formals
  body : Expression

/-- A frame of bindings in the order of their definition, inside an enclosing environment or at the
root. -/
structure Scope where
  parent : Option ScopeRef
  bindings : List (Symbol × Value)

structure Store where
  cells : Array Cell
  primitives : Array Primitive
  closures : Array Closure
  scopes : Array Scope

namespace Store

def empty : Store := ⟨#[], #[], #[], #[]⟩

/-- A store of nothing but cells. -/
def ofCells (cells : Array Cell) : Store := { empty with cells }

/-! Creation. The new object comes last among those of its sort. -/

def newCell (s : Store) (cell : Cell) : CellRef × Store :=
  (⟨s.cells.size⟩, { s with cells := s.cells.push cell })

def cons (s : Store) (car cdr : Value) : Value × Store :=
  let (ref, s) := s.newCell (.pair car cdr)
  (.pair ref, s)

def vector (s : Store) (items : List Value) : Value × Store :=
  let (ref, s) := s.newCell (.vector items)
  (.vector ref, s)

def newPrimitive (s : Store) (primitive : Primitive) : Value × Store :=
  (.procedure (.primitive ⟨s.primitives.size⟩),
    { s with primitives := s.primitives.push primitive })

def newClosure (s : Store) (closure : Closure) : Value × Store :=
  (.procedure (.closure ⟨s.closures.size⟩), { s with closures := s.closures.push closure })

def newScope (s : Store) (parent : Option ScopeRef) : ScopeRef × Store :=
  (⟨s.scopes.size⟩, { s with scopes := s.scopes.push ⟨parent, []⟩ })

/-! Access. A reference that the store has not handed out shows an empty object. -/

def pairAt (s : Store) (ref : CellRef) : Value × Value :=
  match s.cells[ref.index]? with
  | some (.pair car cdr) => (car, cdr)
  | _ => (.null, .null)

def car (s : Store) (ref : CellRef) : Value := (s.pairAt ref).1

def cdr (s : Store) (ref : CellRef) : Value := (s.pairAt ref).2

def items (s : Store) (ref : CellRef) : List Value :=
  match s.cells[ref.index]? with
  | some (.vector items) => items
  | _ => []

def primitiveAt (s : Store) (ref : PrimitiveRef) : Primitive :=
  s.primitives[ref.index]?.getD ⟨"", .atLeast 0, .add⟩

def closureAt (s : Store) (ref : ClosureRef) : Closure :=
  s.closures[ref.index]?.getD ⟨⟨0⟩, ⟨[], none⟩, .literal .void⟩

def scopeAt (s : Store) (ref : ScopeRef) : Scope := s.scopes[ref.index]?.getD ⟨none, []⟩

/-! Mutation of cells in place. -/

def modifyCell (s : Store) (ref : CellRef) (change : Cell → Cell) : Store :=
  { s with cells := s.cells.modify ref.index change }

def setCar (s : Store) (ref : CellRef) (car : Value) : Store :=
  s.modifyCell ref fun
    | .pair _ cdr => .pair car cdr
    | other => other

def setCdr (s : Store) (ref : CellRef) (cdr : Value) : Store :=
  s.modifyCell ref fun
    | .pair car _ => .pair car cdr
    | other => other

/-- The item of a vector at an index in range. -/
def item? (s : Store) (ref : CellRef) (index : Nat) : Option Value := (s.items ref)[index]?

/-- Replaces the item at an index, which has to be in range. -/
def setItem (s : Store) (ref : CellRef) (index : Nat) (value : Value) : Except EvalError Store :=
  if index < (s.items ref).length then
    .ok <| s.modifyCell ref fun
      | .vector items => .vector (items.set index value)
      | other => other
  else .error .indexOutOfRange

end Store

end SmallScheme
