import SmallScheme.Failure

/-! # Values

A value is an atom or refers to something in a store: a cell, a primitive or a closure. Two
references are the same object exactly when they are equal.
-/

namespace SmallScheme

/-- A pair or a vector in a store. -/
structure CellRef where
  index : Nat
  deriving DecidableEq

/-- A frame of bindings in a store, which stands for the environment that it starts. -/
structure ScopeRef where
  index : Nat
  deriving DecidableEq

structure PrimitiveRef where
  index : Nat
  deriving DecidableEq

structure ClosureRef where
  index : Nat
  deriving DecidableEq

inductive Procedure
  | primitive (ref : PrimitiveRef)
  | closure (ref : ClosureRef)
  deriving DecidableEq

inductive Value
  | atom (value : Atom)
  | null
  | void
  | pair (ref : CellRef)
  | vector (ref : CellRef)
  | procedure (value : Procedure)
  deriving DecidableEq

namespace Value

def ofNumber (x : Float) : Value := .atom (.number x)

def ofNat (n : Nat) : Value := ofNumber (Float.ofNat n)

def ofBool (b : Bool) : Value := .atom (.boolean b)

/-- Everything but false counts as true. -/
def isTrue (v : Value) : Bool := v != .atom (.boolean false)

def kind : Value → Kind
  | .atom (.boolean _) => .boolean
  | .atom (.number _) => .number
  | .atom (.string _) => .string
  | .atom (.character _) => .character
  | .atom (.symbol _) => .symbol
  | .null => .null
  | .void => .void
  | .pair _ => .pair
  | .vector _ => .vector
  | .procedure (.primitive _) => .primitive
  | .procedure (.closure _) => .closure

/-- Numbers are the same if they compare equal, all other atoms if they are equal, and what a store
holds if it is the same object. -/
def same : Value → Value → Bool
  | .atom (.number x), .atom (.number y) => x == y
  | v, w => v = w

def symbol? : Value → Option Symbol
  | .atom (.symbol name) => some name
  | _ => none

/-! A value of the wanted kind, or the type error that names both kinds. -/

def asNumber : Value → Except EvalError Float
  | .atom (.number x) => .ok x
  | v => .error (.wrongType .number v.kind)

def asString : Value → Except EvalError String
  | .atom (.string contents) => .ok contents
  | v => .error (.wrongType .string v.kind)

def asCharacter : Value → Except EvalError Char
  | .atom (.character c) => .ok c
  | v => .error (.wrongType .character v.kind)

def asSymbol : Value → Except EvalError Symbol
  | .atom (.symbol name) => .ok name
  | v => .error (.wrongType .symbol v.kind)

def asPair : Value → Except EvalError CellRef
  | .pair ref => .ok ref
  | v => .error (.wrongType .pair v.kind)

def asVector : Value → Except EvalError CellRef
  | .vector ref => .ok ref
  | v => .error (.wrongType .vector v.kind)

def asProcedure : Value → Except EvalError Procedure
  | .procedure p => .ok p
  | v => .error (.wrongType .closure v.kind)

end Value

end SmallScheme
