import SmallScheme.Machine

/-! # What a step does

Equations for the steps that branch: the operands of a call are collected in the same way behind the
operator and behind an operand, and what computes a result either stops or hands a value on.
-/

namespace SmallScheme

def Step.ofResult (w : World) (stack : Stack) : Except EvalError Value → Step
  | .ok v => .next ⟨w, .deliver v, stack⟩
  | .error err => .fail err w

theorem Stack.eq_empty_or_push (stack : Stack) :
    stack = .empty ∨ ∃ rest frame, stack = .push rest frame := by
  obtain ⟨frames, depth, hd⟩ := stack
  cases frames with
  | nil => exact .inl (Stack.ext rfl)
  | cons frame frames => exact .inr ⟨⟨frames, _, rfl⟩, frame, Stack.ext rfl⟩

namespace State

variable {w w' : World} {ρ : ScopeRef} {v : Value} {vs : List Value}
  {r : Except EvalError Value} {s : Store}

/-- Goes on with a call, given the values of its operands so far in reverse order. -/
def collect (limit : Option Nat) (w : World) (stack : Stack) (p : Procedure) (done : List Value)
    (ρ : ScopeRef) : List Expression → Step
  | [] => invoke w stack p done.reverse
  | e :: es => under limit w stack (.operand p done es ρ) (.evaluate e ρ)

theorem step_deliver (limit : Option Nat) (w : World) (v : Value) (stack : Stack)
    (frame : Continuation) :
    step limit ⟨w, .deliver v, stack.push frame⟩ = resume limit w stack v frame := by
  simp only [step, Stack.pop?_push]

theorem step_operator (limit : Option Nat) (w : World) (p : Procedure) (stack : Stack)
    (es : List Expression) (ρ : ScopeRef) :
    step limit ⟨w, .deliver (.procedure p), stack.push (.operator es ρ)⟩ =
      collect limit w stack p [] ρ es := by
  rw [step_deliver]
  cases es <;> rfl

theorem step_operator_other (hv : ∀ p, v ≠ .procedure p) (limit : Option Nat) (w : World)
    (stack : Stack) (es : List Expression) (ρ : ScopeRef) :
    step limit ⟨w, .deliver v, stack.push (.operator es ρ)⟩ =
      .fail (.notAProcedure (w.store.written v)) w := by
  rw [step_deliver]
  cases v with
  | procedure p => exact (hv p rfl).elim
  | _ => rfl

theorem step_operand (limit : Option Nat) (w : World) (v : Value) (stack : Stack)
    (p : Procedure) (done : List Value) (es : List Expression) (ρ : ScopeRef) :
    step limit ⟨w, .deliver v, stack.push (.operand p done es ρ)⟩ =
      collect limit w stack p (v :: done) ρ es := by
  rw [step_deliver]
  cases es <;> rfl

theorem step_reference (limit : Option Nat) (w : World) (x : Symbol) (ρ : ScopeRef)
    (stack : Stack) : step limit ⟨w, .evaluate (.reference x) ρ, stack⟩ =
      .ofResult w stack (w.store.lookup ρ x) := by
  simp only [step, evaluate]
  cases w.store.lookup ρ x <;> rfl

theorem step_assign {x : Symbol} {a : Except EvalError Unit}
    (h : w.store.assign ρ x v = (a, s)) (limit : Option Nat) (stack : Stack) :
    step limit ⟨w, .deliver v, stack.push (.assign x ρ)⟩ =
      .ofResult ⟨s, w.output⟩ stack (a.map fun _ => .void) := by
  simp only [step_deliver, resume, h]
  cases a <;> rfl

theorem invoke_primitive {ref : PrimitiveRef}
    (h : (w.store.primitiveAt ref).call vs w = (r, w')) (stack : Stack) :
    invoke w stack (.primitive ref) vs = .ofResult w' stack r := by
  simp only [invoke, h]
  cases r <;> rfl

theorem invoke_closure {ref : ClosureRef}
    (h : (w.store.closureAt ref).newCallScope vs w.store = (.ok ρ, s)) (stack : Stack) :
    invoke w stack (.closure ref) vs =
      .next ⟨⟨s, w.output⟩, .evaluate (w.store.closureAt ref).body ρ, stack⟩ := by
  simp only [invoke, h]

theorem invoke_closure_error {ref : ClosureRef} {err : EvalError}
    (h : (w.store.closureAt ref).newCallScope vs w.store = (.error err, s)) (stack : Stack) :
    invoke w stack (.closure ref) vs = .fail err ⟨s, w.output⟩ := by
  simp only [invoke, h]

/-! Where a step that goes on leaves the stack. -/

section Next

variable {limit : Option Nat} {stack : Stack} {frame : Continuation} {control : Control}
  {p : Procedure} {t : State}

theorem under_next (h : under limit w stack frame control = .next t) :
    t = ⟨w, control, stack.push frame⟩ := by
  have hp : ∀ t', stack.pushWithin limit frame = .ok t' → t' = stack.push frame := by
    intro t' ht
    unfold Stack.pushWithin at ht
    split at ht
    · split at ht <;> cases ht
      rfl
    · cases ht
      rfl
  unfold under at h
  split at h
  · rename_i stack' hs
    cases h
    rw [hp stack' hs]
  · cases h

theorem invoke_next (h : invoke w stack p vs = .next t) : t.stack = stack := by
  cases p with
  | primitive ref =>
    simp only [invoke] at h
    split at h <;> cases h
    rfl
  | closure ref =>
    simp only [invoke] at h
    split at h <;> cases h
    rfl

theorem collect_next {done : List Value} {es : List Expression}
    (h : collect limit w stack p done ρ es = .next t) :
    es = [] ∧ t.stack = stack ∨
      ∃ d rest, es = d :: rest ∧ t.stack = stack.push (.operand p done rest ρ) := by
  cases es with
  | nil => exact .inl ⟨rfl, invoke_next h⟩
  | cons d rest => exact .inr ⟨d, rest, rfl, by rw [under_next h]⟩

end Next

end State

end SmallScheme
