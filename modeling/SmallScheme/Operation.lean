import SmallScheme.Store.Inspect
import SmallScheme.World

/-! # Primitive operations

What the primitives compute from their arguments. An operation that fails leaves the world as it was.
-/

namespace SmallScheme

/-- The numbers that all values are, or the type error of the first that is none. -/
def numbers (values : List Value) : Except EvalError (List Float) := values.mapM Value.asNumber

/-- Sums start from negative zero, the neutral element of addition. -/
def sum (xs : List Float) : Float := xs.foldl (· + ·) (-0.0)

def product (xs : List Float) : Float := xs.foldl (· * ·) 1.0

/-- Combines the first number with the others in turn; a lone one is combined with the unit. -/
def reduce (unit : Float) (combine : Float → Float → Float) : List Float → Except EvalError Float
  | [] => .error (.tooFewArguments 1 0)
  | [x] => .ok (combine unit x)
  | x :: rest => .ok (rest.foldl combine x)

/-- The status that a number stands for: a whole number that fits 32 bits with a sign. -/
def exitCode? (x : Float) : Option Int :=
  (Binary64.integer? x).filter fun code => -2147483648 ≤ code && code ≤ 2147483647

/-- The only one of some arguments. -/
def one (arguments : List Value) : Except EvalError Value :=
  match arguments with
  | [v] => .ok v
  | _ => .error (.arityMismatch 1 arguments.length)

/-- The only two of some arguments. -/
def two (arguments : List Value) : Except EvalError (Value × Value) :=
  match arguments with
  | [v, w] => .ok (v, w)
  | _ => .error (.arityMismatch 2 arguments.length)

def equalNumbers (arguments : List Value) : Except EvalError Value := do
  let (v, w) ← two arguments
  return .ofBool ((← v.asNumber) == (← w.asNumber))

/-- What ends a program that calls `exit`: the status, or that the argument is none. -/
def exitRequest : List Value → EvalError
  | [] => .exit 0
  | v :: _ =>
    match v.asNumber with
    | .error e => e
    | .ok x =>
      match exitCode? x with
      | some code => .exit code
      | none => .noExitCode

namespace World

/-- Writes the displayed form of the only argument. -/
def display (w : World) (arguments : List Value) : Except EvalError Value × World :=
  match one arguments with
  | .error e => (.error e, w)
  | .ok v =>
    let ⟨store, output⟩ := w
    match output.write (store.displayed v) with
    | (.ok _, output) => (.ok .void, ⟨store, output⟩)
    | (.error reason, output) => (.error (.outputFailed reason), ⟨store, output⟩)

/-- A new pair of the only two arguments. -/
def cons (w : World) (arguments : List Value) : Except EvalError Value × World :=
  match two arguments with
  | .error e => (.error e, w)
  | .ok (car, cdr) =>
    let ⟨store, output⟩ := w
    let (pair, store) := store.cons car cdr
    (.ok pair, ⟨store, output⟩)

/-- What an operation of the host makes of the cells and the arguments. -/
def host (w : World) (operation : HostOperation) (arguments : List Value) :
    Except EvalError Value × World :=
  match operation.run w.store.cells arguments with
  | .error e => (.error e, w)
  | .ok (v, cells) => (.ok v, ⟨{ w.store with cells }, w.output⟩)

end World

/-- Whoever has the items and the tail can build the list. -/
theorem Builds.list {cells : Array Cell} {vs us : List Value} {s : Store} {tail : Value}
    (h : Builds cells vs s.cells us) (htail : tail ∈ us) {items : List Value} (hitems : items ⊆ us) :
    ∃ us', Builds cells vs (s.list items tail).2.cells us' ∧ us ⊆ us' ∧
      (s.list items tail).1 ∈ us' := by
  induction items with
  | nil => exact ⟨us, h, List.Subset.refl us, htail⟩
  | cons item items ih =>
    obtain ⟨hitem, hitems⟩ := List.cons_subset.mp hitems
    obtain ⟨us', hrest, hsubset, hmem⟩ := ih hitems
    exact ⟨_, hrest.cons (hsubset hitem) hmem, List.subset_cons_of_subset _ hsubset, .head _⟩

namespace Operation

def apply (operation : Operation) (arguments : List Value) (w : World) :
    Except EvalError Value × World :=
  match operation with
  | add => (numbers arguments >>= fun xs => .ok (.ofNumber (sum xs)), w)
  | multiply => (numbers arguments >>= fun xs => .ok (.ofNumber (product xs)), w)
  | subtract => (numbers arguments >>= reduce 0 (· - ·) >>= fun x => .ok (.ofNumber x), w)
  | divide => (numbers arguments >>= reduce 1 (· / ·) >>= fun x => .ok (.ofNumber x), w)
  | numericEqual => (equalNumbers arguments, w)
  | cons => w.cons arguments
  | car => (one arguments >>= Value.asPair >>= fun ref => .ok (w.store.car ref), w)
  | cdr => (one arguments >>= Value.asPair >>= fun ref => .ok (w.store.cdr ref), w)
  | display => w.display arguments
  | exit => (.error (exitRequest arguments), w)
  | host operation => w.host operation arguments

/-! Operations for a host that wants to see what a primitive is called with. -/

/-- How many arguments there are. -/
def countArguments : Operation := .host {
  run cells arguments := .ok (.ofNat arguments.length, cells)
  no_overflow := nofun
  builds := by
    rintro cells vs v cells' ⟨⟩
    exact ⟨_, .plain (v := .atom (.number _)) .start nofun nofun nofun, .head _⟩ }

/-- A new list of the arguments. -/
def listArguments : Operation := .host {
  run cells arguments :=
    let (list, s) := (Store.ofCells cells).list arguments .null
    .ok (list, s.cells)
  no_overflow := nofun
  builds := by
    rintro cells vs v cells' ⟨⟩
    have hnull : Builds cells vs cells (.null :: vs) := .plain .start nofun nofun nofun
    obtain ⟨us, hlist, -, hmem⟩ := Builds.list (s := .ofCells cells) hnull (.head _)
      (List.subset_cons_self _ vs)
    exact ⟨us, hlist, hmem⟩ }

/-- The last argument, if there is any. -/
def lastArgument : Operation := .host {
  run cells arguments :=
    match arguments.getLast? with
    | some v => .ok (v, cells)
    | none => .error .noArgument
  no_overflow cells arguments depth limit := by
    cases arguments.getLast? <;> nofun
  builds := by
    intro cells vs v cells' h
    split at h <;> cases h
    rename_i hlast
    exact ⟨vs, .start, List.mem_of_getLast? hlast⟩ }

/-- A failure that shows the arguments. -/
def refuse : Operation := .host {
  run cells arguments :=
    .error (.notAProcedure (bracketed (arguments.map (Store.ofCells cells).written)))
  no_overflow := nofun
  builds := nofun }

end Operation

namespace Primitive

/-- Checks the number of arguments, then computes. -/
def call (primitive : Primitive) (arguments : List Value) (w : World) :
    Except EvalError Value × World :=
  match primitive.arity.check arguments.length with
  | .error e => (.error e, w)
  | .ok _ => primitive.operation.apply arguments w

/-- The primitives of the prelude in the order of their definition. -/
def prelude : List Primitive :=
  [⟨"+", .atLeast 0, .add⟩, ⟨"-", .atLeast 1, .subtract⟩, ⟨"/", .atLeast 1, .divide⟩,
    ⟨"*", .atLeast 0, .multiply⟩, ⟨"=", .exactly 2, .numericEqual⟩, ⟨"cons", .exactly 2, .cons⟩,
    ⟨"car", .exactly 1, .car⟩, ⟨"cdr", .exactly 1, .cdr⟩, ⟨"display", .exactly 1, .display⟩,
    ⟨"exit", .between 0 1, .exit⟩]

end Primitive

namespace Store

/-- Defines the primitives of the prelude in a scope. -/
def loadPrelude (s : Store) (ref : ScopeRef) : Store :=
  Primitive.prelude.foldl (fun s primitive => s.definePrimitive ref primitive) s

/-- A new root environment that holds the prelude. -/
def newPrelude (s : Store) : ScopeRef × Store :=
  let (ref, s) := s.newScope none
  (ref, s.loadPrelude ref)

end Store

end SmallScheme
