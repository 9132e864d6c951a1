import SmallScheme.Failure

/-! # Arities

How many arguments a procedure accepts.
-/

namespace SmallScheme

/-- At least so many arguments and, if there is a greatest number, at most so many. -/
structure Arity where
  least : Nat
  greatest : Option Nat
  deriving DecidableEq

namespace Arity

def exactly (n : Nat) : Arity := ⟨n, some n⟩

def atLeast (n : Nat) : Arity := ⟨n, none⟩

def between (least greatest : Nat) : Arity := ⟨least, some greatest⟩

/-- Accepts a number of arguments or says how it misses. -/
def check (arity : Arity) (given : Nat) : Except EvalError Unit :=
  if arity.greatest = some arity.least && given != arity.least then
    .error (.arityMismatch arity.least given)
  else if given < arity.least then .error (.tooFewArguments arity.least given)
  else
    match arity.greatest with
    | some greatest =>
      if greatest < given then .error (.tooManyArguments greatest given) else .ok ()
    | none => .ok ()

end Arity

end SmallScheme
