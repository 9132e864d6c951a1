import SmallScheme.Proofs.Machine.Step
import SmallScheme.Proofs.Store.Names

/-! # Transitions

All that a step can do when it goes on. Taking an expression apart opens it: its first part is
evaluated under a new continuation. A value closes the continuation that it is delivered to, which
goes on to the next part, comes down to a tail position, calls a procedure or is done.
-/

namespace SmallScheme

namespace Continuation

inductive Opens (ρ : ScopeRef) : Expression → Expression → Continuation → Prop

  | define {name : Symbol} {source : Expression} :
      Opens ρ (.define name source) source (.define name ρ)

  | assign {name : Symbol} {source : Expression} :
      Opens ρ (.assign name source) source (.assign name ρ)

  | ifElse {test consequent alternate : Expression} :
      Opens ρ (.ifElse test consequent alternate) test (.ifElse consequent alternate ρ)

  | ifOnly {test consequent : Expression} :
      Opens ρ (.ifOnly test consequent) test (.ifOnly consequent ρ)

  | call {operator : Expression} {operands : List Expression} :
      Opens ρ (.call operator operands) operator (.operator operands ρ)

inductive Continues (ρ : ScopeRef) (v : Value) : Continuation → Expression → Continuation → Prop

  | operator {p : Procedure} {next : Expression} {rest : List Expression} : v = .procedure p →
      Continues ρ v (.operator (next :: rest) ρ) next (.operand p [] rest ρ)

  | operand {p : Procedure} {evaluated : List Value} {next : Expression}
      {rest : List Expression} :
      Continues ρ v (.operand p evaluated (next :: rest) ρ) next
        (.operand p (v :: evaluated) rest ρ)

  | sequence {next second : Expression} {rest : List Expression} :
      Continues ρ v (.sequence (next :: second :: rest) ρ) next (.sequence (second :: rest) ρ)

inductive ComesTo (ρ : ScopeRef) (v : Value) : Continuation → Expression → Prop

  | consequent {consequent alternate : Expression} : v.isTrue →
      ComesTo ρ v (.ifElse consequent alternate ρ) consequent

  | alternate {consequent alternate : Expression} : v.isTrue = false →
      ComesTo ρ v (.ifElse consequent alternate ρ) alternate

  | only {consequent : Expression} : v.isTrue → ComesTo ρ v (.ifOnly consequent ρ) consequent

  | last {last : Expression} : ComesTo ρ v (.sequence [last] ρ) last

inductive Answers (v : Value) : Continuation → Value → Prop

  | nothing {consequent : Expression} {ρ : ScopeRef} : v.isTrue = false →
      Answers v (.ifOnly consequent ρ) .void

  | empty {ρ : ScopeRef} : Answers v (.sequence [] ρ) v

inductive Calls (v : Value) : Continuation → Procedure → List Value → Prop

  | operator {p : Procedure} {ρ : ScopeRef} : v = .procedure p → Calls v (.operator [] ρ) p []

  | operand {p : Procedure} {evaluated : List Value} {ρ : ScopeRef} :
      Calls v (.operand p evaluated [] ρ) p (v :: evaluated).reverse

end Continuation

open Continuation

inductive Transition : State → State → Prop

  | literal {w : World} {v : Value} {ρ : ScopeRef} {stack : Stack} :
      Transition ⟨w, .evaluate (.literal v) ρ, stack⟩ ⟨w, .deliver v, stack⟩

  | reference {w : World} {name : Symbol} {v : Value} {ρ : ScopeRef} {stack : Stack} :
      w.store.lookup ρ name = .ok v →
      Transition ⟨w, .evaluate (.reference name) ρ, stack⟩ ⟨w, .deliver v, stack⟩

  | lambda {w : World} {formals : Formals} {body : Expression} {ρ : ScopeRef} {stack : Stack} :
      Transition ⟨w, .evaluate (.lambda formals body) ρ, stack⟩
        ⟨⟨(w.store.newClosure ⟨ρ, formals, body⟩).2, w.output⟩,
          .deliver (w.store.newClosure ⟨ρ, formals, body⟩).1, stack⟩

  | opens {w : World} {e first : Expression} {ρ : ScopeRef} {stack : Stack}
      {frame : Continuation} : Opens ρ e first frame →
      Transition ⟨w, .evaluate e ρ, stack⟩ ⟨w, .evaluate first ρ, stack.push frame⟩

  | sequence {w : World} {members : List Expression} {ρ : ScopeRef} {stack : Stack} :
      Transition ⟨w, .evaluate (.sequence members) ρ, stack⟩
        ⟨w, .deliver .void, stack.push (.sequence members ρ)⟩

  | define {w : World} {v : Value} {name : Symbol} {ρ : ScopeRef} {stack : Stack} :
      Transition ⟨w, .deliver v, stack.push (.define name ρ)⟩
        ⟨⟨w.store.define ρ name v, w.output⟩, .deliver .void, stack⟩

  | assign {w : World} {v : Value} {name : Symbol} {ρ scope : ScopeRef} {stack : Stack} :
      w.store.resolve ρ name = some scope →
      Transition ⟨w, .deliver v, stack.push (.assign name ρ)⟩
        ⟨⟨w.store.define scope name v, w.output⟩, .deliver .void, stack⟩

  | continues {w : World} {v : Value} {next : Expression} {ρ : ScopeRef} {stack : Stack}
      {frame frame' : Continuation} : Continues ρ v frame next frame' →
      Transition ⟨w, .deliver v, stack.push frame⟩ ⟨w, .evaluate next ρ, stack.push frame'⟩

  | comesTo {w : World} {v : Value} {e : Expression} {ρ : ScopeRef} {stack : Stack}
      {frame : Continuation} : ComesTo ρ v frame e →
      Transition ⟨w, .deliver v, stack.push frame⟩ ⟨w, .evaluate e ρ, stack⟩

  | answers {w : World} {v v' : Value} {stack : Stack} {frame : Continuation} :
      Answers v frame v' → Transition ⟨w, .deliver v, stack.push frame⟩ ⟨w, .deliver v', stack⟩

  | primitive {w w' : World} {v r : Value} {vs : List Value} {stack : Stack}
      {frame : Continuation} {ref : PrimitiveRef} : Calls v frame (.primitive ref) vs →
      (w.store.primitiveAt ref).call vs w = (.ok r, w') →
      Transition ⟨w, .deliver v, stack.push frame⟩ ⟨w', .deliver r, stack⟩

  | closure {w : World} {v : Value} {vs : List Value} {stack : Stack} {frame : Continuation}
      {ref : ClosureRef} {ρ : ScopeRef} {s : Store} : Calls v frame (.closure ref) vs →
      (w.store.closureAt ref).newCallScope vs w.store = (.ok ρ, s) →
      Transition ⟨w, .deliver v, stack.push frame⟩
        ⟨⟨s, w.output⟩, .evaluate (w.store.closureAt ref).body ρ, stack⟩

namespace State

variable {limit : Option Nat} {s t : State} {w : World} {stack : Stack} {e : Expression}
  {ρ : ScopeRef} {v : Value} {vs : List Value} {frame : Continuation} {p : Procedure}

theorem transition_of_evaluate (h : evaluate limit w stack e ρ = .next t) :
    Transition ⟨w, .evaluate e ρ, stack⟩ t := by
  cases e with
  | literal v =>
    cases h
    exact .literal
  | reference name =>
    simp only [evaluate] at h
    split at h <;> cases h
    rename_i hv
    exact .reference hv
  | lambda formals body =>
    cases h
    exact .lambda
  | define name source =>
    rw [under_next h]
    exact .opens .define
  | assign name source =>
    rw [under_next h]
    exact .opens .assign
  | ifElse test consequent alternate =>
    rw [under_next h]
    exact .opens .ifElse
  | ifOnly test consequent =>
    rw [under_next h]
    exact .opens .ifOnly
  | call operator operands =>
    rw [under_next h]
    exact .opens .call
  | sequence members =>
    rw [under_next h]
    exact .sequence

theorem transition_of_invoke (hc : Calls v frame p vs) (h : invoke w stack p vs = .next t) :
    Transition ⟨w, .deliver v, stack.push frame⟩ t := by
  cases p with
  | primitive ref =>
    simp only [invoke] at h
    split at h <;> cases h
    rename_i hr
    exact .primitive hc hr
  | closure ref =>
    simp only [invoke] at h
    split at h <;> cases h
    rename_i hr
    exact .closure hc hr

theorem transition_of_resume (h : resume limit w stack v frame = .next t) :
    Transition ⟨w, .deliver v, stack.push frame⟩ t := by
  cases frame with
  | define name ρ =>
    cases h
    exact .define
  | assign name ρ =>
    simp only [resume, Store.assign] at h
    split at h
    · rename_i hs
      split at hs
      · cases hs
        cases h
        rename_i hr
        exact .assign hr
      · cases hs
    · cases h
  | ifElse consequent alternate ρ =>
    cases h
    split
    · rename_i hv
      exact .comesTo (.consequent hv)
    · rename_i hv
      exact .comesTo (.alternate (Bool.not_eq_true _ ▸ hv))
  | ifOnly consequent ρ =>
    cases h
    split
    · rename_i hv
      exact .comesTo (.only hv)
    · rename_i hv
      exact .answers (.nothing (Bool.not_eq_true _ ▸ hv))
  | operator operands ρ =>
    cases v with
    | procedure p =>
      cases operands with
      | nil => exact transition_of_invoke (.operator rfl) h
      | cons next rest =>
        rw [under_next h]
        exact .continues (.operator rfl)
    | _ => cases h
  | operand p evaluated operands ρ =>
    cases operands with
    | nil => exact transition_of_invoke .operand h
    | cons next rest =>
      rw [under_next h]
      exact .continues .operand
  | sequence members ρ =>
    rcases members with _ | ⟨next, _ | ⟨second, rest⟩⟩
    · cases h
      exact .answers .empty
    · cases h
      exact .comesTo .last
    · rw [under_next h]
      exact .continues .sequence

/-- A step that goes on is one of the transitions, whatever the limit. -/
theorem transition_of_step (h : s.step limit = .next t) : Transition s t := by
  obtain ⟨w, control, stack⟩ := s
  cases control with
  | evaluate e ρ => exact transition_of_evaluate h
  | deliver v =>
    rcases stack.eq_empty_or_push with rfl | ⟨rest, frame, rfl⟩
    · cases h
    · rw [step_deliver] at h
      exact transition_of_resume h

end State

/-! A primitive stores cells at most. -/

theorem World.sameButCells_display (w : World) (vs : List Value) :
    w.store.SameButCells (w.display vs).2.store := by
  unfold World.display
  split
  · exact .refl _
  · dsimp only
    split <;> exact .refl _

theorem World.sameButCells_cons (w : World) (vs : List Value) :
    w.store.SameButCells (w.cons vs).2.store := by
  unfold World.cons
  split
  · exact .refl _
  · exact .newCell _ _

theorem World.sameButCells_host (w : World) (operation : HostOperation) (vs : List Value) :
    w.store.SameButCells (w.host operation vs).2.store := by
  unfold World.host
  split
  · exact .refl _
  · exact ⟨rfl, rfl, rfl⟩

theorem Operation.sameButCells (operation : Operation) (vs : List Value) (w : World) :
    w.store.SameButCells (operation.apply vs w).2.store := by
  cases operation with
  | cons => exact w.sameButCells_cons vs
  | display => exact w.sameButCells_display vs
  | host operation => exact w.sameButCells_host operation vs
  | _ => exact .refl _

theorem Primitive.sameButCells (primitive : Primitive) (vs : List Value) (w : World) :
    w.store.SameButCells (primitive.call vs w).2.store := by
  unfold call
  split
  · exact .refl _
  · exact primitive.operation.sameButCells vs w

/-! What fails leaves the world as it was, and so does a step that stops. -/

theorem World.display_error {w w' : World} {vs : List Value} {err : EvalError}
    (h : w.display vs = (.error err, w')) : w' = w := by
  unfold World.display at h
  split at h
  · cases h
    rfl
  · dsimp only at h
    split at h <;> cases h
    rename_i hwrite
    rw [Output.write_error hwrite]

theorem World.cons_error {w w' : World} {vs : List Value} {err : EvalError}
    (h : w.cons vs = (.error err, w')) : w' = w := by
  unfold World.cons at h
  split at h <;> cases h
  rfl

theorem World.host_error {w w' : World} {operation : HostOperation} {vs : List Value}
    {err : EvalError} (h : w.host operation vs = (.error err, w')) : w' = w := by
  unfold World.host at h
  split at h <;> cases h
  rfl

theorem Operation.apply_error {operation : Operation} {vs : List Value} {w w' : World}
    {err : EvalError} (h : operation.apply vs w = (.error err, w')) : w' = w := by
  cases operation with
  | cons => exact World.cons_error h
  | display => exact World.display_error h
  | host => exact World.host_error h
  | _ =>
    obtain ⟨-, rfl⟩ := Prod.mk.inj h
    rfl

theorem Primitive.call_error {primitive : Primitive} {vs : List Value} {w w' : World}
    {err : EvalError} (h : primitive.call vs w = (.error err, w')) : w' = w := by
  unfold call at h
  split at h
  · cases h
    rfl
  · exact Operation.apply_error h

theorem Closure.newCallScope_error {closure : Closure} {vs : List Value} {s s' : Store}
    {err : EvalError} (h : closure.newCallScope vs s = (.error err, s')) : s' = s := by
  unfold newCallScope at h
  dsimp only at h
  split at h
  · cases h
    rfl
  · split at h <;> cases h

namespace State

variable {limit : Option Nat} {s : State} {w w' : World} {stack : Stack} {control : Control}
  {p : Procedure} {vs : List Value} {v : Value} {frame : Continuation} {r : Except EvalError Value}

theorem under_halt (h : under limit w stack frame control = .halt r w') :
    (∃ err, r = .error err) ∧ w' = w := by
  unfold under at h
  split at h <;> cases h
  exact ⟨⟨_, rfl⟩, rfl⟩

theorem invoke_halt (h : invoke w stack p vs = .halt r w') :
    (∃ err, r = .error err) ∧ w' = w := by
  cases p with
  | primitive ref =>
    simp only [invoke] at h
    split at h <;> cases h
    rename_i hr
    exact ⟨⟨_, rfl⟩, Primitive.call_error hr⟩
  | closure ref =>
    simp only [invoke] at h
    split at h <;> cases h
    rename_i hr
    rw [Closure.newCallScope_error hr]
    exact ⟨⟨_, rfl⟩, rfl⟩

theorem resume_halt (h : resume limit w stack v frame = .halt r w') :
    (∃ err, r = .error err) ∧ w' = w := by
  cases frame with
  | assign name ρ =>
    simp only [resume, Store.assign] at h
    split at h
    · cases h
    · rename_i hs
      split at hs <;> cases hs
      cases h
      exact ⟨⟨_, rfl⟩, rfl⟩
  | operator operands ρ =>
    cases v with
    | procedure p =>
      cases operands with
      | nil => exact invoke_halt h
      | cons next rest => exact under_halt h
    | _ =>
      cases h
      exact ⟨⟨_, rfl⟩, rfl⟩
  | operand p evaluated operands ρ =>
    cases operands with
    | nil => exact invoke_halt h
    | cons next rest => exact under_halt h
  | sequence members ρ =>
    rcases members with _ | ⟨next, _ | ⟨second, rest⟩⟩
    · cases h
    · cases h
    · exact under_halt h
  | _ => cases h

theorem evaluate_halt {e : Expression} {ρ : ScopeRef}
    (h : evaluate limit w stack e ρ = .halt r w') : (∃ err, r = .error err) ∧ w' = w := by
  cases e with
  | literal v => cases h
  | reference name =>
    simp only [evaluate] at h
    split at h <;> cases h
    exact ⟨⟨_, rfl⟩, rfl⟩
  | lambda formals body => cases h
  | _ => exact under_halt h

/-- A step that stops hands out the last value, or fails and changes nothing. -/
theorem halt_cases (h : s.step limit = .halt r w') :
    (∃ v, r = .ok v ∧ s = ⟨w', .deliver v, .empty⟩) ∨
      (∃ err, r = .error err) ∧ w' = s.world := by
  obtain ⟨w, control, stack⟩ := s
  cases control with
  | evaluate e ρ => exact .inr (evaluate_halt h)
  | deliver v =>
    rcases stack.eq_empty_or_push with rfl | ⟨rest, frame, rfl⟩
    · cases h
      exact .inl ⟨v, rfl, rfl⟩
    · rw [step_deliver] at h
      exact .inr (resume_halt h)

theorem world_of_halt (h : s.step limit = .halt r w') : w' = s.world := by
  rcases halt_cases h with ⟨v, -, rfl⟩ | ⟨-, hw⟩
  · rfl
  · exact hw

theorem store_of_halt (h : s.step limit = .halt r w') : w'.store = s.world.store := by
  rw [world_of_halt h]

theorem sameButCells_of_halt (h : s.step limit = .halt r w') :
    s.world.store.SameButCells w'.store := by
  rw [store_of_halt h]
  exact .refl _

end State

end SmallScheme
