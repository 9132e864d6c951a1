import SmallScheme.Datum.Reader
import SmallScheme.Expression.Parser
import SmallScheme.Machine

/-! # Programs

A program is a text. Its data are parsed and evaluated one after the other, each before the next is
looked at, and the first failure ends it. Evaluation is given fuel; a program that uses it up has no
outcome.
-/

namespace SmallScheme

/-- What a program ends with, or how far it came with its fuel. -/
inductive Outcome
  | finished (result : Except Failure Value) (world : World)
  | unfinished (world : World)

/-- The means of an evaluation: how deep its stack may get and how many steps it may take. -/
structure Limits where
  depth : Option Nat
  fuel : Nat

namespace World

/-- A world with nothing but a new prelude, and the environment of the latter. -/
def withPrelude : ScopeRef × World :=
  let (environment, store) := Store.empty.newPrelude
  (environment, ⟨store, .empty⟩)

def evaluate (w : World) (limits : Limits) (environment : ScopeRef) (e : Expression) : Outcome :=
  match (State.initial w e environment).run limits.depth limits.fuel with
  | .finished (.ok value) w => .finished (.ok value) w
  | .finished (.error e) w => .finished (.error (.evaluation e)) w
  | .unfinished state => .unfinished state.world

/-- Parses a value as a program of its own and evaluates it. -/
def evaluateValue (w : World) (limits : Limits) (environment : ScopeRef) (v : Value) : Outcome :=
  match w.store.parse v with
  | .ok e => w.evaluate limits environment e
  | .error e => .finished (.error (.reading e)) w

/-- Stores a datum as a value. -/
def load (w : World) (d : Datum) : Value × World :=
  let ⟨store, output⟩ := w
  let (value, store) := store.load d
  (value, ⟨store, output⟩)

/-- Stores, parses and evaluates what was read. -/
def evaluateDatum (w : World) (limits : Limits) (environment : ScopeRef) :
    Except SyntaxError Datum → Outcome
  | .error e => .finished (.error (.reading e)) w
  | .ok d =>
    let (value, w) := w.load d
    w.evaluateValue limits environment value

/-- Evaluates data in order, with the last value of those before. -/
def evaluateData (w : World) (limits : Limits) (environment : ScopeRef) (last : Value) :
    List (Except SyntaxError Datum) → Outcome
  | [] => .finished (.ok last) w
  | d :: rest =>
    match w.evaluateDatum limits environment d with
    | .finished (.ok value) w => w.evaluateData limits environment value rest
    | stopped => stopped

/-- Evaluates a text; one without data has no value. -/
def evaluateText (w : World) (limits : Limits) (environment : ScopeRef) (text : String) : Outcome :=
  w.evaluateData limits environment .void (Datum.readEach text)

end World

end SmallScheme
