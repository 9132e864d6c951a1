import SmallScheme.Store

/-! # Environments

An environment is a scope with its chain of enclosing scopes. The parent of a scope is created before
it, so the chain is followed to smaller indices and ends at the root. Looking up a name, asking for it
and assigning to it walk along the chain from the inside, each for what it needs; `resolve` is the
scope that the name refers to.
-/

namespace SmallScheme

namespace Scope

def find? (scope : Scope) (name : Symbol) : Option Value := scope.bindings.lookup name

def binds (scope : Scope) (name : Symbol) : Bool := (scope.find? name).isSome

def names (scope : Scope) : List Symbol := scope.bindings.map (·.1)

/-- The bindings with one replaced in its place, or added behind the others. -/
def insertInto (name : Symbol) (value : Value) : List (Symbol × Value) → List (Symbol × Value)
  | [] => [(name, value)]
  | (key, old) :: rest =>
    if name = key then (key, value) :: rest else (key, old) :: insertInto name value rest

def insert (scope : Scope) (name : Symbol) (value : Value) : Scope :=
  { scope with bindings := insertInto name value scope.bindings }

end Scope

namespace Store

/-- The enclosing environment, unless the scope is a root. -/
def parent? (s : Store) (ref : ScopeRef) : Option ScopeRef :=
  (s.scopeAt ref).parent.filter (·.index < ref.index)

theorem parent?_lt {s : Store} {ref parent : ScopeRef} (h : s.parent? ref = some parent) :
    parent.index < ref.index := by
  simp only [parent?, Option.filter_eq_some_iff] at h
  simpa using h.2

/-- The number of scopes from here to the root, both included. -/
def depth (s : Store) (ref : ScopeRef) : Nat :=
  match h : s.parent? ref with
  | some parent =>
    have := parent?_lt h
    s.depth parent + 1
  | none => 1
termination_by ref.index

/-- The scopes from here to the root, both included. -/
def scopesFrom (s : Store) (ref : ScopeRef) : List ScopeRef :=
  match h : s.parent? ref with
  | some parent =>
    have := parent?_lt h
    ref :: s.scopesFrom parent
  | none => [ref]
termination_by ref.index

/-- The innermost scope that binds the name. -/
def resolve (s : Store) (ref : ScopeRef) (name : Symbol) : Option ScopeRef :=
  if (s.scopeAt ref).binds name then some ref
  else
    match h : s.parent? ref with
    | some parent =>
      have := parent?_lt h
      s.resolve parent name
    | none => none
termination_by ref.index

/-- The value that the name has in the environment. -/
def lookup (s : Store) (ref : ScopeRef) (name : Symbol) : Except EvalError Value :=
  match (s.scopesFrom ref).findSome? fun scope => (s.scopeAt scope).find? name with
  | some value => .ok value
  | none => .error (.unbound name)

/-- Some scope of the environment binds the name. -/
def contains (s : Store) (ref : ScopeRef) (name : Symbol) : Bool :=
  (s.scopesFrom ref).any fun scope => (s.scopeAt scope).binds name

/-- The names that the scope itself binds, in the order of their definition. -/
def names (s : Store) (ref : ScopeRef) : List Symbol := (s.scopeAt ref).names

/-- Binds the name in the scope itself. -/
def define (s : Store) (ref : ScopeRef) (name : Symbol) (value : Value) : Store :=
  { s with scopes := s.scopes.modify ref.index (·.insert name value) }

/-- Gives a new value to the innermost binding of the name. -/
def assign (s : Store) (ref : ScopeRef) (name : Symbol) (value : Value) :
    Except EvalError Unit × Store :=
  match s.resolve ref name with
  | some scope => (.ok (), s.define scope name value)
  | none => (.error (.unbound name), s)

/-- Binds names to values one after the other, as long as there are both. The values that no name
has asked for are left. -/
def defineEach (s : Store) (ref : ScopeRef) : List Symbol → List Value → List Value × Store
  | name :: names, value :: values => (s.define ref name value).defineEach ref names values
  | _, values => (values, s)

/-- Creates a primitive and binds it to its own name. -/
def definePrimitive (s : Store) (ref : ScopeRef) (primitive : Primitive) : Store :=
  let (value, s) := s.newPrimitive primitive
  s.define ref ⟨primitive.name⟩ value

end Store

end SmallScheme
