import SmallScheme.Proofs.Machine.Evaluation
import SmallScheme.Proofs.Machine.Step

/-! # The machine evaluates

Forwards, a derivation is a run on top of any stack: its value reaches the stack as it was, its
failure ends the run. Backwards, a state means the result of its control handed on to its stack, and
no step changes what a state means.
-/

namespace SmallScheme

open State

variable {w w₁ w' : World} {ρ : ScopeRef} {stack : Stack} {s t : State} {p : Procedure}
  {v : Value} {done : List Value} {e : Expression} {es : List Expression}
  {r : Except EvalError Value} {err : EvalError} {frame : Continuation}

/-! From a derivation to a run. -/

/-- The machine hands the value to the stack, or stops with the failure. -/
def Yields (s : State) (stack : Stack) : Except EvalError Value → World → Prop
  | .ok v, w => Reaches none s ⟨w, .deliver v, stack⟩
  | .error err, w => Ends none s (.error err) w

theorem Yields.of_reaches (h : Reaches none s t) (ht : Yields t stack r w) :
    Yields s stack r w := by
  cases r with
  | ok v => exact h.trans ht
  | error err => exact h.ends ht

theorem Yields.head (h : s.step none = .next t) (ht : Yields t stack r w) :
    Yields s stack r w :=
  ht.of_reaches (.head h (.refl t))

theorem Yields.of_result (h : s.step none = .ofResult w stack r) : Yields s stack r w := by
  cases r with
  | ok v => exact .head h (.refl _)
  | error err => exact .of_halt h

theorem Yields.of_push (hs : s.step none = .next ⟨w, .evaluate e ρ, stack.push frame⟩)
    (h : Yields ⟨w, .evaluate e ρ, stack.push frame⟩ (stack.push frame) (.ok v) w₁)
    (ht : Yields ⟨w₁, .deliver v, stack.push frame⟩ stack r w') : Yields s stack r w' :=
  (ht.of_reaches h).head hs

/-- The machine comes to apply the procedure to all values, or stops with the failure. -/
def Collects (s : State) (stack : Stack) (p : Procedure) (done : List Value) :
    Except EvalError (List Value) → World → Prop
  | .ok vs, w => ∃ t, Reaches none s t ∧ t.step none = invoke w stack p (done.reverse ++ vs)
  | .error err, w => Ends none s (.error err) w

theorem Collects.of_reaches {r : Except EvalError (List Value)} (h : Reaches none s t)
    (ht : Collects t stack p (v :: done) r w) : Collects s stack p done (r.map (v :: ·)) w := by
  cases r with
  | ok vs =>
    obtain ⟨u, hu, hi⟩ := ht
    refine ⟨u, h.trans hu, ?_⟩
    rw [hi, List.reverse_cons, List.append_assoc, List.singleton_append]
  | error err => exact h.ends ht

theorem map_cons_getLastD (r : Except EvalError (List Value)) (v d : Value) :
    (r.map (v :: ·)).map (·.getLastD d) = r.map (·.getLastD v) := by
  cases r with
  | ok vs => simp only [Except.map, List.getLastD_cons]
  | error err => rfl

def YieldAll (w : World) (ρ : ScopeRef) (es : List Expression)
    (r : Except EvalError (List Value)) (w' : World) : Prop :=
  (∀ v stack, Yields ⟨w, .deliver v, stack.push (.sequence es ρ)⟩ stack
    (r.map (·.getLastD v)) w') ∧
  ∀ s stack p done, s.step none = collect none w stack p done ρ es → Collects s stack p done r w'

theorem YieldAll.nil (w : World) (ρ : ScopeRef) : YieldAll w ρ [] (.ok []) w := by
  refine ⟨fun v stack => .of_result (step_deliver ..), fun s stack p done hs => ?_⟩
  exact ⟨s, .refl s, by rw [hs, List.append_nil]; rfl⟩

theorem YieldAll.cons {r : Except EvalError (List Value)}
    (he : ∀ stack, Yields ⟨w, .evaluate e ρ, stack⟩ stack (.ok v) w₁)
    (ht : YieldAll w₁ ρ es r w') (hn : es = [] → r = .ok [] ∧ w' = w₁) :
    YieldAll w ρ (e :: es) (r.map (v :: ·)) w' := by
  refine ⟨fun d stack => ?_, fun s stack p done hs => ?_⟩
  · rw [map_cons_getLastD]
    cases es with
    | nil =>
      obtain ⟨rfl, rfl⟩ := hn rfl
      exact (he stack).head (step_deliver ..)
    | cons e' es => exact .of_push (step_deliver ..) (he _) (ht.1 v stack)
  · exact (ht.2 _ stack p _ (step_operand ..)).of_reaches (.head hs (he _))

theorem YieldAll.error (es : List Expression)
    (he : ∀ stack, Yields ⟨w, .evaluate e ρ, stack⟩ stack (.error err) w') :
    YieldAll w ρ (e :: es) (.error err) w' := by
  refine ⟨fun v stack => ?_, fun s stack p done hs => Ends.head hs (he _)⟩
  cases es with
  | nil => exact Ends.head (step_deliver ..) (he stack)
  | cons e' es => exact Ends.head (step_deliver ..) (he _)

theorem Evaluates.yields (h : Evaluates w ρ e r w') :
    ∀ stack, Yields ⟨w, .evaluate e ρ, stack⟩ stack r w' := by
  induction h using fun P => @Evaluates.rec P
    (fun w ρ es r w' _ => YieldAll w ρ es r w' ∧ (es = [] → r = .ok [] ∧ w' = w))
    (fun w p vs r w' _ => ∀ s stack, s.step none = invoke w stack p vs → Yields s stack r w') with
  | literal => exact fun stack => .of_result rfl
  | reference => exact fun stack => .of_result (step_reference ..)
  | lambda hc =>
    intro stack
    refine .of_result ?_
    simp only [step, evaluate, hc, Step.ofResult]
  | define _ he => exact fun stack => .of_push rfl (he _) (.of_result (step_deliver ..))
  | assign _ ha he => exact fun stack => .of_push rfl (he _) (.of_result (step_assign ha ..))
  | ifElse _ _ he hb =>
    exact fun stack => .of_push rfl (he _) ((hb stack).head (step_deliver ..))
  | ifOnly _ hv _ he hb =>
    intro stack
    refine .of_push rfl (he _) ((hb stack).head ?_)
    simp only [step_deliver, resume, hv, if_true]
  | ifOnly_false _ hv he =>
    intro stack
    refine .of_push rfl (he _) (.of_result ?_)
    simp only [step_deliver, resume, hv, Step.ofResult]
    rfl
  | sequence _ hs => exact fun stack => (hs.1.1 .void stack).head rfl
  | call _ _ _ he hs hp =>
    intro stack
    obtain ⟨t, ht, hi⟩ := hs.1.2 _ stack _ [] (step_operator ..)
    exact .of_push rfl (he _) ((hp t stack hi).of_reaches ht)
  | notAProcedure _ hv he =>
    exact fun stack => .of_push rfl (he _) (.of_result (step_operator_other hv ..))
  | @operand_error _ _ _ _ _ _ p _ _ _ he hs =>
    intro stack
    have hc := hs.1.2 _ stack p [] (step_operator ..)
    exact .of_push rfl (he _) hc
  | define_error _ he | assign_error _ he | ifElse_error _ he | ifOnly_error _ he
  | operator_error _ he => exact fun stack => Ends.head rfl (he _)
  | nil => exact ⟨.nil .., fun _ => ⟨rfl, rfl⟩⟩
  | cons _ _ he ht => exact ⟨.cons he ht.1 ht.2, fun h => (List.cons_ne_nil _ _ h).elim⟩
  | error _ he => exact ⟨.error _ he, fun h => (List.cons_ne_nil _ _ h).elim⟩
  | primitive hc s stack hs => exact .of_result (hs.trans (invoke_primitive hc stack))
  | closure hc _ he s stack hs => exact (he stack).head (hs.trans (invoke_closure hc stack))
  | closure_error hc s stack hs => exact .of_result (hs.trans (invoke_closure_error hc stack))

/-! From a state to the derivations that are left. -/

/-- What the rest of a call comes to, given the values of its operands so far. -/
def Finishes (w : World) (p : Procedure) (done : List Value) (ρ : ScopeRef)
    (es : List Expression) (r : Except EvalError Value) (w' : World) : Prop :=
  (∃ vs w₁, EvaluatesAll w ρ es (.ok vs) w₁ ∧ Applies w₁ p (done.reverse ++ vs) r w') ∨
  ∃ err, EvaluatesAll w ρ es (.error err) w' ∧ r = .error err

def Resumes (w : World) (v : Value) (r : Except EvalError Value) (w' : World) :
    Continuation → Prop
  | .define x ρ => r = .ok .void ∧ w' = ⟨w.store.define ρ x v, w.output⟩
  | .assign x ρ => ∃ a s, w.store.assign ρ x v = (a, s) ∧ r = a.map (fun _ => .void) ∧
      w' = ⟨s, w.output⟩
  | .ifElse c a ρ => Evaluates w ρ (if v.isTrue then c else a) r w'
  | .ifOnly c ρ => if v.isTrue then Evaluates w ρ c r w' else r = .ok .void ∧ w' = w
  | .operator es ρ => (∃ p, v = .procedure p ∧ Finishes w p [] ρ es r w') ∨
      (∀ p, v ≠ .procedure p) ∧ r = .error (.notAProcedure (w.store.written v)) ∧ w' = w
  | .operand p done es ρ => Finishes w p (v :: done) ρ es r w'
  | .sequence es ρ => ∃ rs, EvaluatesAll w ρ es rs w' ∧ r = rs.map (·.getLastD v)

/-- A failure ends everything, a value goes from one continuation to the next. -/
def Unwinds : List Continuation → Except EvalError Value → World →
    Except EvalError Value → World → Prop
  | _, .error err, w, r, w' => r = .error err ∧ w' = w
  | [], .ok v, w, r, w' => r = .ok v ∧ w' = w
  | frame :: frames, .ok v, w, r, w' =>
      ∃ r₁ w₁, Resumes w v r₁ w₁ frame ∧ Unwinds frames r₁ w₁ r w'

/-- What a state comes to: the result of its control, handed on to its stack. -/
def Means (s : State) (r : Except EvalError Value) (w' : World) : Prop :=
  match s.control with
  | .evaluate e ρ => ∃ r₁ w₁, Evaluates s.world ρ e r₁ w₁ ∧ Unwinds s.stack.frames r₁ w₁ r w'
  | .deliver v => Unwinds s.stack.frames (.ok v) s.world r w'

def Step.Means (r : Except EvalError Value) (w' : World) : Step → Prop
  | .next s => SmallScheme.Means s r w'
  | .halt r₁ w₁ => r = r₁ ∧ w' = w₁

theorem unwinds_error {frames : List Continuation} :
    Unwinds frames (.error err) w r w' ↔ r = .error err ∧ w' = w := by
  cases frames <;> rfl

theorem unwinds_of_result {r₁ : Except EvalError Value}
    (h : (Step.ofResult w stack r₁).Means r w') : Unwinds stack.frames r₁ w r w' := by
  cases r₁ with
  | ok v => exact h
  | error err => exact unwinds_error.mpr h

theorem Means.of_push {part : Expression}
    (hok : ∀ v w₁ r₁ w₂, Evaluates w ρ part (.ok v) w₁ → Resumes w₁ v r₁ w₂ frame →
      Evaluates w ρ e r₁ w₂)
    (herr : ∀ err w₁, Evaluates w ρ part (.error err) w₁ → Evaluates w ρ e (.error err) w₁)
    (h : Means ⟨w, .evaluate part ρ, stack.push frame⟩ r w') :
    Means ⟨w, .evaluate e ρ, stack⟩ r w' := by
  obtain ⟨r₁, w₁, he, hu⟩ := h
  cases r₁ with
  | ok v =>
    obtain ⟨r₂, w₂, hr, hu⟩ := hu
    exact ⟨r₂, w₂, hok v w₁ r₂ w₂ he hr, hu⟩
  | error err => exact ⟨.error err, w₁, herr err w₁ he, unwinds_error.mpr (unwinds_error.mp hu)⟩

theorem applies_of_invoke {vs : List Value} (h : (invoke w stack p vs).Means r w') :
    ∃ r₁ w₁, Applies w p vs r₁ w₁ ∧ Unwinds stack.frames r₁ w₁ r w' := by
  cases p with
  | primitive ref =>
    rw [invoke_primitive rfl] at h
    exact ⟨_, _, .primitive rfl, unwinds_of_result h⟩
  | closure ref =>
    rcases hc : (w.store.closureAt ref).newCallScope vs w.store with ⟨err | ρ, s⟩
    · rw [invoke_closure_error hc] at h
      exact ⟨_, _, .closure_error hc, unwinds_error.mpr h⟩
    · rw [invoke_closure hc] at h
      obtain ⟨r₁, w₁, he, hu⟩ := h
      exact ⟨r₁, w₁, .closure hc he, hu⟩

theorem Finishes.cons (he : Evaluates w ρ e (.ok v) w₁)
    (h : Finishes w₁ p (v :: done) ρ es r w') : Finishes w p done ρ (e :: es) r w' := by
  rcases h with ⟨vs, w₂, hs, hp⟩ | ⟨err, hs, rfl⟩
  · refine .inl ⟨v :: vs, w₂, .cons he hs, ?_⟩
    rwa [List.reverse_cons, List.append_assoc, List.singleton_append] at hp
  · exact .inr ⟨err, .cons he hs, rfl⟩

theorem finishes_of_collect (h : (collect none w stack p done ρ es).Means r w') :
    ∃ r₁ w₁, Finishes w p done ρ es r₁ w₁ ∧ Unwinds stack.frames r₁ w₁ r w' := by
  cases es with
  | nil =>
    obtain ⟨r₁, w₁, hp, hu⟩ := applies_of_invoke h
    exact ⟨r₁, w₁, .inl ⟨[], w, .nil, by rwa [List.append_nil]⟩, hu⟩
  | cons e es =>
    obtain ⟨r₁, w₁, he, hu⟩ := h
    cases r₁ with
    | ok v =>
      obtain ⟨r₂, w₂, hf, hu⟩ := hu
      exact ⟨r₂, w₂, .cons he hf, hu⟩
    | error err =>
      exact ⟨.error err, w₁, .inr ⟨err, .error he, rfl⟩, unwinds_error.mpr (unwinds_error.mp hu)⟩

theorem resumes_of_sequence
    (h : (resume none w stack v (.sequence es ρ)).Means r w') :
    ∃ r₁ w₁, Resumes w v r₁ w₁ (.sequence es ρ) ∧ Unwinds stack.frames r₁ w₁ r w' := by
  match es with
  | [] => exact ⟨.ok v, w, ⟨.ok [], .nil, rfl⟩, h⟩
  | [e] =>
    obtain ⟨r₁, w₁, he, hu⟩ := h
    refine ⟨r₁, w₁, ?_, hu⟩
    cases r₁ with
    | ok u => exact ⟨_, .cons he .nil, rfl⟩
    | error err => exact ⟨_, .error he, rfl⟩
  | e :: e' :: es =>
    obtain ⟨r₁, w₁, he, hu⟩ := h
    cases r₁ with
    | ok u =>
      obtain ⟨r₂, w₂, ⟨rs, hs, rfl⟩, hu⟩ := hu
      exact ⟨_, w₂, ⟨_, .cons he hs, (map_cons_getLastD rs u v).symm⟩, hu⟩
    | error err =>
      exact ⟨.error err, w₁, ⟨_, .error he, rfl⟩, unwinds_error.mpr (unwinds_error.mp hu)⟩

theorem resumes_of_resume (h : (resume none w stack v frame).Means r w') :
    ∃ r₁ w₁, Resumes w v r₁ w₁ frame ∧ Unwinds stack.frames r₁ w₁ r w' := by
  rw [← step_deliver] at h
  cases frame with
  | define x ρ => exact ⟨_, _, ⟨rfl, rfl⟩, by rwa [step_deliver] at h⟩
  | assign x ρ =>
    rw [step_assign rfl] at h
    exact ⟨_, _, ⟨_, _, rfl, rfl, rfl⟩, unwinds_of_result h⟩
  | ifElse c a ρ =>
    rw [step_deliver] at h
    exact h
  | ifOnly c ρ =>
    rw [step_deliver] at h
    cases hv : v.isTrue with
    | true =>
      simp only [resume, hv, if_true] at h
      obtain ⟨r₁, w₁, he, hu⟩ := h
      refine ⟨r₁, w₁, ?_, hu⟩
      simp only [Resumes, hv, if_true]
      exact he
    | false =>
      simp only [resume, hv] at h
      refine ⟨.ok .void, w, ?_, h⟩
      simp [Resumes, hv]
  | operator es ρ =>
    by_cases hv : ∃ p, v = .procedure p
    · obtain ⟨p, rfl⟩ := hv
      rw [step_operator] at h
      obtain ⟨r₁, w₁, hf, hu⟩ := finishes_of_collect h
      exact ⟨r₁, w₁, .inl ⟨p, rfl, hf⟩, hu⟩
    · have hv' := not_exists.mp hv
      rw [step_operator_other hv'] at h
      exact ⟨_, w, .inr ⟨hv', rfl, rfl⟩, unwinds_error.mpr h⟩
  | operand p done es ρ =>
    rw [step_operand] at h
    exact finishes_of_collect h
  | sequence es ρ =>
    rw [step_deliver] at h
    exact resumes_of_sequence h

/-- What the next step comes to, the state comes to. -/
theorem means_of_step (h : (s.step none).Means r w') : Means s r w' := by
  obtain ⟨w, control, stack⟩ := s
  cases control with
  | evaluate e ρ =>
    cases e with
    | literal v => exact ⟨.ok v, w, .literal, h⟩
    | reference x =>
      rw [step_reference] at h
      exact ⟨_, w, .reference, unwinds_of_result h⟩
    | lambda formals body => exact ⟨_, _, .lambda rfl, h⟩
    | define x e =>
      refine Means.of_push ?_ (fun _ _ => .define_error) h
      rintro v w₁ r₁ w₂ he ⟨rfl, rfl⟩
      exact .define he
    | assign x e =>
      refine Means.of_push ?_ (fun _ _ => .assign_error) h
      rintro v w₁ r₁ w₂ he ⟨a, s, ha, rfl, rfl⟩
      exact .assign he ha
    | ifElse e c a => exact Means.of_push (fun _ _ _ _ => .ifElse) (fun _ _ => .ifElse_error) h
    | ifOnly e c =>
      refine Means.of_push (fun v w₁ r₁ w₂ he hr => ?_) (fun _ _ => .ifOnly_error) h
      by_cases hv : v.isTrue
      · exact .ifOnly he hv (by simpa only [Resumes, hv, if_true] using hr)
      · obtain ⟨rfl, rfl⟩ : r₁ = .ok .void ∧ w₂ = w₁ := by simpa [Resumes, hv] using hr
        exact .ifOnly_false he hv
    | call e es =>
      refine Means.of_push ?_ (fun _ _ => .operator_error) h
      rintro v w₁ r₁ w₂ he (⟨p, rfl, ⟨vs, w₃, hs, hp⟩ | ⟨err, hs, rfl⟩⟩ | ⟨hv, rfl, rfl⟩)
      · exact .call he hs hp
      · exact .operand_error he hs
      · exact .notAProcedure he hv
    | sequence es =>
      obtain ⟨r₁, w₁, ⟨rs, hs, rfl⟩, hu⟩ := h
      exact ⟨_, w₁, .sequence hs, hu⟩
  | deliver v =>
    rcases stack.eq_empty_or_push with rfl | ⟨stack, frame, rfl⟩
    · exact h
    · rw [step_deliver] at h
      exact resumes_of_resume h

theorem means_of_ends (h : Ends none s r w') : Means s r w' := by
  refine Ends.induction (P := (Means · r w')) (fun s hs => ?_) (fun s t hs ht => ?_) h
  · exact means_of_step (hs ▸ ⟨rfl, rfl⟩)
  · exact means_of_step (hs ▸ ht)

/-- The machine without a limit ends with a result exactly if the expression has it. -/
theorem run_finished_iff_evaluates (w : World) (e : Expression) (ρ : ScopeRef)
    (r : Except EvalError Value) (w' : World) :
    (∃ n, (State.initial w e ρ).run none n = .finished r w') ↔ Evaluates w ρ e r w' := by
  constructor
  · intro h
    have hm : Means (State.initial w e ρ) r w' := means_of_ends h
    obtain ⟨r₁, w₁, he, hu⟩ := hm
    cases r₁ with
    | ok v =>
      obtain ⟨rfl, rfl⟩ := hu
      exact he
    | error err =>
      obtain ⟨rfl, rfl⟩ := hu
      exact he
  · intro h
    have hy := h.yields .empty
    cases r with
    | ok v => exact hy.ends (.of_halt rfl)
    | error err => exact hy

end SmallScheme
