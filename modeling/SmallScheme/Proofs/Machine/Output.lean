import SmallScheme.Program
import SmallScheme.Proofs.Machine.Session

/-! # Output so far

What a program writes comes behind the output so far and does not depend on it. So a text may be put
in front of the output before a program runs or after it. A sink that takes output goes on to do so.
-/

namespace SmallScheme

def Output.behind (out : Output) (text : String) : Output := { out with text := text ++ out.text }

namespace World

def behind (w : World) (text : String) : World := ⟨w.store, w.output.behind text⟩

@[simp] theorem behind_store (w : World) (text : String) : (w.behind text).store = w.store := rfl

theorem behind_withoutOutput (w : World) : w.withoutOutput.behind w.output.text = w := by
  simp [behind, withoutOutput, Output.behind]

end World

def State.behind (s : State) (text : String) : State := ⟨s.world.behind text, s.control, s.stack⟩

def Step.behind (text : String) : Step → Step
  | .next s => .next (s.behind text)
  | .halt r w => .halt r (w.behind text)

def Run.behind (text : String) : Run → Run
  | .finished r w => .finished r (w.behind text)
  | .unfinished s => .unfinished (s.behind text)

def Outcome.behind (text : String) : Outcome → Outcome
  | .finished r w => .finished r (w.behind text)
  | .unfinished w => .unfinished (w.behind text)

theorem Output.write_behind (out : Output) (text more : String) :
    (out.behind text).write more = ((out.write more).1, (out.write more).2.behind text) := by
  unfold write behind
  split
  · rfl
  · simp [String.append_assoc]

theorem World.display_behind (w : World) (text : String) (vs : List Value) :
    (w.behind text).display vs = ((w.display vs).1, (w.display vs).2.behind text) := by
  unfold display
  cases one vs with
  | error err => rfl
  | ok v =>
    dsimp only [behind]
    rw [Output.write_behind]
    cases hwrite : w.output.write (w.store.displayed v) with
    | mk r out => cases r <;> rfl

theorem World.cons_behind (w : World) (text : String) (vs : List Value) :
    (w.behind text).cons vs = ((w.cons vs).1, (w.cons vs).2.behind text) := by
  unfold cons
  cases two vs <;> rfl

theorem World.host_behind (w : World) (text : String) (operation : HostOperation)
    (vs : List Value) : (w.behind text).host operation vs =
      ((w.host operation vs).1, (w.host operation vs).2.behind text) := by
  unfold host
  dsimp only [behind]
  cases operation.run w.store.cells vs <;> rfl

theorem Operation.apply_behind (operation : Operation) (vs : List Value) (w : World)
    (text : String) : operation.apply vs (w.behind text) =
      ((operation.apply vs w).1, (operation.apply vs w).2.behind text) := by
  cases operation with
  | cons => exact w.cons_behind text vs
  | display => exact w.display_behind text vs
  | host operation => exact w.host_behind text operation vs
  | _ => rfl

theorem Primitive.call_behind (primitive : Primitive) (vs : List Value) (w : World)
    (text : String) : primitive.call vs (w.behind text) =
      ((primitive.call vs w).1, (primitive.call vs w).2.behind text) := by
  unfold call
  cases primitive.arity.check vs.length with
  | error err => rfl
  | ok _ => exact primitive.operation.apply_behind vs w text

namespace State

theorem under_behind (limit : Option Nat) (w : World) (stack : Stack) (frame : Continuation)
    (control : Control) (text : String) :
    under limit (w.behind text) stack frame control =
      (under limit w stack frame control).behind text := by
  unfold under
  cases stack.pushWithin limit frame <;> rfl

theorem evaluate_behind (limit : Option Nat) (w : World) (stack : Stack) (e : Expression)
    (ρ : ScopeRef) (text : String) :
    evaluate limit (w.behind text) stack e ρ = (evaluate limit w stack e ρ).behind text := by
  cases e with
  | literal | lambda => rfl
  | reference name =>
    simp only [evaluate, World.behind_store]
    cases w.store.lookup ρ name <;> rfl
  | _ => exact under_behind ..

theorem invoke_behind (w : World) (stack : Stack) (p : Procedure) (vs : List Value)
    (text : String) :
    invoke (w.behind text) stack p vs = (invoke w stack p vs).behind text := by
  cases p with
  | primitive ref =>
    simp only [invoke, World.behind_store, Primitive.call_behind]
    cases (w.store.primitiveAt ref).call vs w with
    | mk r w' => cases r <;> rfl
  | closure ref =>
    simp only [invoke, World.behind]
    cases (w.store.closureAt ref).newCallScope vs w.store with
    | mk r s => cases r <;> rfl

theorem resume_behind (limit : Option Nat) (w : World) (stack : Stack) (v : Value)
    (frame : Continuation) (text : String) :
    resume limit (w.behind text) stack v frame = (resume limit w stack v frame).behind text := by
  cases frame with
  | assign name ρ =>
    simp only [resume, World.behind]
    cases w.store.assign ρ name v with
    | mk r s => cases r <;> rfl
  | operator operands ρ =>
    cases v with
    | procedure p =>
      cases operands with
      | nil => exact invoke_behind ..
      | cons next rest => exact under_behind ..
    | _ => rfl
  | operand p evaluated operands ρ =>
    cases operands with
    | nil => exact invoke_behind ..
    | cons next rest => exact under_behind ..
  | sequence members ρ =>
    rcases members with _ | ⟨next, _ | ⟨second, rest⟩⟩
    · rfl
    · rfl
    · exact under_behind ..
  | _ => rfl

theorem step_behind (limit : Option Nat) (s : State) (text : String) :
    (s.behind text).step limit = (s.step limit).behind text := by
  obtain ⟨w, control, stack⟩ := s
  cases control with
  | evaluate e ρ => exact evaluate_behind ..
  | deliver v =>
    rcases stack.eq_empty_or_push with rfl | ⟨rest, frame, rfl⟩
    · rfl
    · rw [behind, step_deliver, step_deliver, resume_behind]

theorem run_behind (limit : Option Nat) (n : Nat) (s : State) (text : String) :
    (s.behind text).run limit n = (s.run limit n).behind text := by
  induction n generalizing s with
  | zero => rfl
  | succ n ih =>
    rw [run, run, step_behind]
    cases s.step limit with
    | next t => exact ih t
    | halt r w => rfl

end State

namespace World

theorem evaluate_behind (w : World) (limits : Limits) (ρ : ScopeRef) (e : Expression)
    (text : String) :
    (w.behind text).evaluate limits ρ e = (w.evaluate limits ρ e).behind text := by
  have hinitial : State.initial (w.behind text) e ρ = (State.initial w e ρ).behind text := rfl
  rw [evaluate, evaluate, hinitial, State.run_behind]
  cases (State.initial w e ρ).run limits.depth limits.fuel with
  | unfinished s => rfl
  | finished r w' => cases r <;> rfl

theorem evaluateDatum_behind (w : World) (limits : Limits) (ρ : ScopeRef)
    (d : Except SyntaxError Datum) (text : String) :
    (w.behind text).evaluateDatum limits ρ d = (w.evaluateDatum limits ρ d).behind text := by
  cases d with
  | error e => rfl
  | ok d =>
    have hload : (w.behind text).load d = ((w.load d).1, (w.load d).2.behind text) := rfl
    simp only [evaluateDatum, hload, evaluateValue, behind_store]
    cases (w.load d).2.store.parse (w.load d).1 with
    | error e => rfl
    | ok e => exact evaluate_behind ..

theorem evaluateDatum_eq_behind (w : World) (limits : Limits) (ρ : ScopeRef)
    (d : Except SyntaxError Datum) : w.evaluateDatum limits ρ d =
      (w.withoutOutput.evaluateDatum limits ρ d).behind w.output.text := by
  rw [← evaluateDatum_behind, behind_withoutOutput]

end World

/-! Nothing that a program does fills the sink. -/

theorem Output.full_write (out : Output) (text : String) : (out.write text).2.full = out.full := by
  unfold write
  split <;> rfl

theorem World.full_display (w : World) (vs : List Value) :
    (w.display vs).2.output.full = w.output.full := by
  unfold display
  cases one vs with
  | error err => rfl
  | ok v =>
    have hfull := w.output.full_write (w.store.displayed v)
    dsimp only
    split <;> rename_i hwrite <;> rwa [hwrite] at hfull

theorem World.full_cons (w : World) (vs : List Value) :
    (w.cons vs).2.output.full = w.output.full := by
  unfold cons
  cases two vs <;> rfl

theorem World.full_host (w : World) (operation : HostOperation) (vs : List Value) :
    (w.host operation vs).2.output.full = w.output.full := by
  unfold host
  split <;> rfl

theorem Operation.full_apply (operation : Operation) (vs : List Value) (w : World) :
    (operation.apply vs w).2.output.full = w.output.full := by
  cases operation with
  | cons => exact w.full_cons vs
  | display => exact w.full_display vs
  | host operation => exact w.full_host operation vs
  | _ => rfl

theorem Primitive.full_call (primitive : Primitive) (vs : List Value) (w : World) :
    (primitive.call vs w).2.output.full = w.output.full := by
  unfold call
  cases primitive.arity.check vs.length with
  | error err => rfl
  | ok _ => exact primitive.operation.full_apply vs w

def Moment.output : Moment → Output
  | between w => w.output
  | during s => s.world.output

theorem State.full_transition {s t : State} (h : Transition s t) :
    t.world.output.full = s.world.output.full := by
  cases h with
  | primitive _ hcall =>
    rename_i w w' v r vs stack frame ref _
    have hfull := (w.store.primitiveAt ref).full_call vs w
    rwa [hcall] at hfull
  | _ => rfl

theorem Session.covers_full (root : ScopeRef) :
    Covers root fun m m' => m'.output.full = m.output.full where
  load _ _ := rfl
  program _ := rfl
  step h := State.full_transition (State.transition_of_step h)
  halt h := by
    rw [Moment.output, State.world_of_halt h]
    rfl

theorem World.full_evaluateDatum {w w' : World} {limits : Limits} {ρ : ScopeRef}
    {d : Except SyntaxError Datum} {r : Except Failure Value}
    (h : w.evaluateDatum limits ρ d = .finished r w') : w'.output.full = w.output.full := by
  have hsession := (Session.covers_full ρ).evaluateDatum h
  have hfull : ∀ {m m' : Moment}, Relation.ReflTransGen
      (fun m m' => m'.output.full = m.output.full) m m' → m'.output.full = m.output.full := by
    intro m m' hm
    induction hm with
    | refl => rfl
    | tail _ hstep ih => exact hstep.trans ih
  exact hfull hsession

end SmallScheme
