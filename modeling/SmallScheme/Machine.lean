import SmallScheme.Operation

/-! # The evaluation machine

Evaluation by small steps. What remains to be done with the value of an expression is a continuation
on a stack; a step either takes an expression apart or delivers a value to the top continuation. A
tail position is evaluated on the stack that its whole expression was evaluated on, so tail calls need
no stack. The stack may be limited, and only pushing can exceed the limit.
-/

namespace SmallScheme

/-- Work that waits for a value, with the environment in which it goes on. -/
inductive Continuation
  | ifElse (consequent alternate : Expression) (environment : ScopeRef)
  | ifOnly (consequent : Expression) (environment : ScopeRef)
  | define (name : Symbol) (environment : ScopeRef)
  | assign (name : Symbol) (environment : ScopeRef)
  /-- Waits for the procedure of a call. -/
  | operator (operands : List Expression) (environment : ScopeRef)
  /-- Waits for an argument, with the values of those before it in reverse order. -/
  | operand (procedure : Procedure) (evaluated : List Value) (operands : List Expression)
      (environment : ScopeRef)
  /-- Waits for a member of a sequence, whose value matters only if none follows. -/
  | sequence (members : List Expression) (environment : ScopeRef)

/-- Continuations, the next one first, with their number. -/
structure Stack where
  frames : List Continuation
  depth : Nat
  depth_eq : depth = frames.length

namespace Stack

def empty : Stack := ⟨[], 0, rfl⟩

def push (stack : Stack) (frame : Continuation) : Stack :=
  ⟨frame :: stack.frames, stack.depth + 1, by simp [stack.depth_eq]⟩

@[simp] theorem push_frames (stack : Stack) (frame : Continuation) :
    (stack.push frame).frames = frame :: stack.frames := rfl

def pop? : Stack → Option (Continuation × Stack)
  | ⟨[], _, _⟩ => none
  | ⟨frame :: frames, depth, depth_eq⟩ => some (frame, ⟨frames, depth - 1, by simp [depth_eq]⟩)

@[ext] theorem ext {s t : Stack} (h : s.frames = t.frames) : s = t := by
  cases s with
  | mk frames depth depth_eq =>
    cases t with
    | mk frames' depth' depth_eq' =>
      subst depth_eq depth_eq'
      cases h
      rfl

theorem pop?_push (stack : Stack) (frame : Continuation) :
    (stack.push frame).pop? = some (frame, stack) := by
  simp only [push, pop?, Option.some.injEq, Prod.mk.injEq, true_and]
  exact ext rfl

/-- Pushes a continuation unless that exceeds the limit. -/
def pushWithin (limit : Option Nat) (stack : Stack) (frame : Continuation) :
    Except EvalError Stack :=
  match limit with
  | some limit =>
    if limit ≤ stack.depth then .error (.stackOverflow (stack.depth + 1) limit)
    else .ok (stack.push frame)
  | none => .ok (stack.push frame)

end Stack

/-- What the machine does next. -/
inductive Control
  | evaluate (e : Expression) (environment : ScopeRef)
  | deliver (value : Value)

structure State where
  world : World
  control : Control
  stack : Stack

/-- Accepts a number of arguments, each parameter's and any further ones that have a place, or says
how it misses. -/
def Formals.accept (formals : Formals) (given : Nat) : Except EvalError Unit :=
  let required := formals.parameters.length
  match formals.rest with
  | none => if given ≠ required then .error (.arityMismatch required given) else .ok ()
  | some _ => if given < required then .error (.tooFewArguments required given) else .ok ()

namespace Closure

/-- The scope of a call: parameters bound to arguments in order, further arguments as a list. -/
def newCallScope (closure : Closure) (arguments : List Value) (s : Store) :
    Except EvalError ScopeRef × Store :=
  match closure.formals.accept arguments.length with
  | .error e => (.error e, s)
  | .ok _ =>
    let (ref, s) := s.newScope (some closure.environment)
    let (further, s) := s.defineEach ref closure.formals.parameters arguments
    match closure.formals.rest with
    | none => (.ok ref, s)
    | some rest =>
      let (list, s) := s.list further .null
      (.ok ref, s.define ref rest list)

end Closure

/-- The machine after a step, or the result that it stops with. -/
inductive Step
  | next (state : State)
  | halt (result : Except EvalError Value) (world : World)

def Step.fail (e : EvalError) (w : World) : Step := .halt (.error e) w

namespace State

/-- The state that evaluates an expression from scratch. -/
def initial (w : World) (e : Expression) (environment : ScopeRef) : State :=
  ⟨w, .evaluate e environment, .empty⟩

/-- Goes on under a new continuation, unless the stack is too deep for it. -/
def under (limit : Option Nat) (w : World) (stack : Stack) (frame : Continuation)
    (control : Control) : Step :=
  match stack.pushWithin limit frame with
  | .ok stack => .next ⟨w, control, stack⟩
  | .error e => .fail e w

/-- Takes an expression apart. -/
def evaluate (limit : Option Nat) (w : World) (stack : Stack) (e : Expression)
    (environment : ScopeRef) : Step :=
  match e with
  | .literal value => .next ⟨w, .deliver value, stack⟩
  | .reference name =>
    match w.store.lookup environment name with
    | .ok value => .next ⟨w, .deliver value, stack⟩
    | .error e => .fail e w
  | .lambda formals body =>
    let ⟨store, output⟩ := w
    let (closure, store) := store.newClosure ⟨environment, formals, body⟩
    .next ⟨⟨store, output⟩, .deliver closure, stack⟩
  | .define name source =>
    under limit w stack (.define name environment) (.evaluate source environment)
  | .assign name source =>
    under limit w stack (.assign name environment) (.evaluate source environment)
  | .ifElse test consequent alternate =>
    under limit w stack (.ifElse consequent alternate environment)
      (.evaluate test environment)
  | .ifOnly test consequent =>
    under limit w stack (.ifOnly consequent environment) (.evaluate test environment)
  | .call operator operands =>
    under limit w stack (.operator operands environment) (.evaluate operator environment)
  | .sequence members =>
    under limit w stack (.sequence members environment) (.deliver .void)

/-- Applies a procedure. A primitive delivers its result, a closure its body in a new scope. -/
def invoke (w : World) (stack : Stack) (procedure : Procedure) (arguments : List Value) : Step :=
  match procedure with
  | .primitive ref =>
    match (w.store.primitiveAt ref).call arguments w with
    | (.ok value, w) => .next ⟨w, .deliver value, stack⟩
    | (.error e, w) => .fail e w
  | .closure ref =>
    let ⟨store, output⟩ := w
    let closure := store.closureAt ref
    match closure.newCallScope arguments store with
    | (.ok scope, store) => .next ⟨⟨store, output⟩, .evaluate closure.body scope, stack⟩
    | (.error e, store) => .fail e ⟨store, output⟩

/-- Delivers a value to a continuation that has been taken from the stack. -/
def resume (limit : Option Nat) (w : World) (stack : Stack) (value : Value) : Continuation → Step
  | .define name environment =>
    let ⟨store, output⟩ := w
    .next ⟨⟨store.define environment name value, output⟩, .deliver .void, stack⟩
  | .assign name environment =>
    let ⟨store, output⟩ := w
    match store.assign environment name value with
    | (.ok _, store) => .next ⟨⟨store, output⟩, .deliver .void, stack⟩
    | (.error e, store) => .fail e ⟨store, output⟩
  | .ifElse consequent alternate environment =>
    .next ⟨w, .evaluate (if value.isTrue then consequent else alternate) environment, stack⟩
  | .ifOnly consequent environment =>
    .next ⟨w, if value.isTrue then .evaluate consequent environment else .deliver .void, stack⟩
  | .operator operands environment =>
    match value, operands with
    | .procedure procedure, [] => invoke w stack procedure []
    | .procedure procedure, first :: rest =>
      under limit w stack (.operand procedure [] rest environment)
        (.evaluate first environment)
    | _, _ => .fail (.notAProcedure (w.store.written value)) w
  | .operand procedure evaluated operands environment =>
    match operands with
    | [] => invoke w stack procedure (value :: evaluated).reverse
    | next :: rest =>
      under limit w stack (.operand procedure (value :: evaluated) rest environment)
        (.evaluate next environment)
  | .sequence members environment =>
    match members with
    | [] => .next ⟨w, .deliver value, stack⟩
    | [last] => .next ⟨w, .evaluate last environment, stack⟩
    | next :: rest =>
      under limit w stack (.sequence rest environment) (.evaluate next environment)

/-- One step, with at most `limit` continuations on the stack. -/
def step (limit : Option Nat) : State → Step
  | ⟨w, .evaluate e environment, stack⟩ => evaluate limit w stack e environment
  | ⟨w, .deliver value, stack⟩ =>
    match stack.pop? with
    | some (frame, stack) => resume limit w stack value frame
    | none => .halt (.ok value) w

end State

/-- How far a run has come: to its result, or only to a state. -/
inductive Run
  | finished (result : Except EvalError Value) (world : World)
  | unfinished (state : State)

/-- Runs the machine for at most so many steps. -/
def State.run (limit : Option Nat) : Nat → State → Run
  | 0, state => .unfinished state
  | fuel + 1, state =>
    match state.step limit with
    | .next state => state.run limit fuel
    | .halt result w => .finished result w

end SmallScheme
