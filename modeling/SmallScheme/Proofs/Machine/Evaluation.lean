import SmallScheme.Proofs.Machine.Run

/-! # Evaluation without a stack

The result of an expression by recursion on its parts, with the world passed along. A part that
fails ends everything, so each rule either uses the value of a part or hands its failure on. The
machine without a limit ends with a result exactly if the expression has it.
-/

namespace SmallScheme

mutual

/-- In a world and an environment, the expression has a result and leaves another world. -/
inductive Evaluates : World → ScopeRef → Expression → Except EvalError Value → World → Prop

  | literal {w : World} {ρ : ScopeRef} {v : Value} : Evaluates w ρ (.literal v) (.ok v) w

  | reference {w : World} {ρ : ScopeRef} {x : Symbol} :
      Evaluates w ρ (.reference x) (w.store.lookup ρ x) w

  | lambda {w : World} {ρ : ScopeRef} {formals : Formals} {body : Expression} {v : Value}
      {s : Store} : w.store.newClosure ⟨ρ, formals, body⟩ = (v, s) →
      Evaluates w ρ (.lambda formals body) (.ok v) ⟨s, w.output⟩

  | define {w w' : World} {ρ : ScopeRef} {x : Symbol} {e : Expression} {v : Value} :
      Evaluates w ρ e (.ok v) w' →
      Evaluates w ρ (.define x e) (.ok .void) ⟨w'.store.define ρ x v, w'.output⟩

  | define_error {w w' : World} {ρ : ScopeRef} {x : Symbol} {e : Expression} {err : EvalError} :
      Evaluates w ρ e (.error err) w' → Evaluates w ρ (.define x e) (.error err) w'

  | assign {w w' : World} {ρ : ScopeRef} {x : Symbol} {e : Expression} {v : Value}
      {r : Except EvalError Unit} {s : Store} : Evaluates w ρ e (.ok v) w' →
      w'.store.assign ρ x v = (r, s) →
      Evaluates w ρ (.assign x e) (r.map fun _ => .void) ⟨s, w'.output⟩

  | assign_error {w w' : World} {ρ : ScopeRef} {x : Symbol} {e : Expression} {err : EvalError} :
      Evaluates w ρ e (.error err) w' → Evaluates w ρ (.assign x e) (.error err) w'

  | ifElse {w w₁ w' : World} {ρ : ScopeRef} {e c a : Expression} {v : Value}
      {r : Except EvalError Value} : Evaluates w ρ e (.ok v) w₁ →
      Evaluates w₁ ρ (if v.isTrue then c else a) r w' → Evaluates w ρ (.ifElse e c a) r w'

  | ifElse_error {w w' : World} {ρ : ScopeRef} {e c a : Expression} {err : EvalError} :
      Evaluates w ρ e (.error err) w' → Evaluates w ρ (.ifElse e c a) (.error err) w'

  | ifOnly {w w₁ w' : World} {ρ : ScopeRef} {e c : Expression} {v : Value}
      {r : Except EvalError Value} : Evaluates w ρ e (.ok v) w₁ → v.isTrue →
      Evaluates w₁ ρ c r w' → Evaluates w ρ (.ifOnly e c) r w'

  | ifOnly_false {w w' : World} {ρ : ScopeRef} {e c : Expression} {v : Value} :
      Evaluates w ρ e (.ok v) w' → ¬ v.isTrue → Evaluates w ρ (.ifOnly e c) (.ok .void) w'

  | ifOnly_error {w w' : World} {ρ : ScopeRef} {e c : Expression} {err : EvalError} :
      Evaluates w ρ e (.error err) w' → Evaluates w ρ (.ifOnly e c) (.error err) w'

  | sequence {w w' : World} {ρ : ScopeRef} {es : List Expression}
      {r : Except EvalError (List Value)} : EvaluatesAll w ρ es r w' →
      Evaluates w ρ (.sequence es) (r.map (·.getLastD .void)) w'

  | call {w w₁ w₂ w' : World} {ρ : ScopeRef} {e : Expression} {es : List Expression}
      {p : Procedure} {vs : List Value} {r : Except EvalError Value} :
      Evaluates w ρ e (.ok (.procedure p)) w₁ → EvaluatesAll w₁ ρ es (.ok vs) w₂ →
      Applies w₂ p vs r w' → Evaluates w ρ (.call e es) r w'

  | operator_error {w w' : World} {ρ : ScopeRef} {e : Expression} {es : List Expression}
      {err : EvalError} : Evaluates w ρ e (.error err) w' →
      Evaluates w ρ (.call e es) (.error err) w'

  | notAProcedure {w w' : World} {ρ : ScopeRef} {e : Expression} {es : List Expression}
      {v : Value} : Evaluates w ρ e (.ok v) w' → (∀ p, v ≠ .procedure p) →
      Evaluates w ρ (.call e es) (.error (.notAProcedure (w'.store.written v))) w'

  | operand_error {w w₁ w' : World} {ρ : ScopeRef} {e : Expression} {es : List Expression}
      {p : Procedure} {err : EvalError} : Evaluates w ρ e (.ok (.procedure p)) w₁ →
      EvaluatesAll w₁ ρ es (.error err) w' → Evaluates w ρ (.call e es) (.error err) w'

inductive EvaluatesAll :
    World → ScopeRef → List Expression → Except EvalError (List Value) → World → Prop

  | nil {w : World} {ρ : ScopeRef} : EvaluatesAll w ρ [] (.ok []) w

  | cons {w w₁ w' : World} {ρ : ScopeRef} {e : Expression} {es : List Expression} {v : Value}
      {r : Except EvalError (List Value)} : Evaluates w ρ e (.ok v) w₁ →
      EvaluatesAll w₁ ρ es r w' → EvaluatesAll w ρ (e :: es) (r.map (v :: ·)) w'

  | error {w w' : World} {ρ : ScopeRef} {e : Expression} {es : List Expression}
      {err : EvalError} : Evaluates w ρ e (.error err) w' →
      EvaluatesAll w ρ (e :: es) (.error err) w'

inductive Applies : World → Procedure → List Value → Except EvalError Value → World → Prop

  | primitive {w w' : World} {ref : PrimitiveRef} {vs : List Value}
      {r : Except EvalError Value} : (w.store.primitiveAt ref).call vs w = (r, w') →
      Applies w (.primitive ref) vs r w'

  | closure {w w' : World} {ref : ClosureRef} {vs : List Value} {ρ : ScopeRef} {s : Store}
      {r : Except EvalError Value} :
      (w.store.closureAt ref).newCallScope vs w.store = (.ok ρ, s) →
      Evaluates ⟨s, w.output⟩ ρ (w.store.closureAt ref).body r w' →
      Applies w (.closure ref) vs r w'

  | closure_error {w : World} {ref : ClosureRef} {vs : List Value} {err : EvalError} {s : Store} :
      (w.store.closureAt ref).newCallScope vs w.store = (.error err, s) →
      Applies w (.closure ref) vs (.error err) ⟨s, w.output⟩

end

end SmallScheme
