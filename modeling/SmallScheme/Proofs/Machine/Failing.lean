import SmallScheme.Proofs.Machine.Composition
import SmallScheme.Proofs.Machine.Run
import SmallScheme.Proofs.Machine.Session

/-! # What a failure leaves behind

A program fails at one of its data, after all data before have had their effects. If this datum cannot
be read or parsed nothing else happens, and if its evaluation fails, the step that fails changes
nothing: the world is the one that the steps before have made.
-/

namespace SmallScheme

/-- The output, all scopes and the contents of all cells are the same. -/
structure World.KeptIn (w w' : World) : Prop where
  output : w'.output = w.output
  scopes : w'.store.scopes = w.store.scopes
  cells : w.store.Extends w'.store

/-- What has been read fails as the next datum of a program, and leaves a world behind. -/
inductive Fails (limits : Limits) (ρ : ScopeRef) (w : World) :
    Except SyntaxError Datum → Failure → World → Prop

  /-- It is no datum. -/
  | unread {e : SyntaxError} : Fails limits ρ w (.error e) (.reading e) w

  /-- It is stored, and is no expression. -/
  | unparsed {d : Datum} {v : Value} {w₁ : World} {e : SyntaxError} : w.load d = (v, w₁) →
      w₁.store.parse v = .error e → Fails limits ρ w (.ok d) (.reading e) w₁

  /-- It is evaluated up to a state whose next step fails, and the world of this state remains. -/
  | stopped {d : Datum} {v : Value} {w₁ : World} {e : Expression} {n : Nat} {s : State}
      {err : EvalError} : w.load d = (v, w₁) → w₁.store.parse v = .ok e → n < limits.fuel →
      (State.initial w₁ e ρ).run limits.depth n = .unfinished s →
      s.step limits.depth = .halt (.error err) s.world →
      Fails limits ρ w (.ok d) (.evaluation err) s.world

variable {limits : Limits} {ρ : ScopeRef} {w w' : World} {e : Expression} {f : Failure}

namespace World

theorem KeptIn.refl (w : World) : w.KeptIn w := ⟨rfl, rfl, .refl _⟩

theorem keptIn_load (w : World) (d : Datum) : w.KeptIn (w.load d).2 :=
  ⟨rfl, (Session.sameButCells_load w.store d).scopes, w.store.extends_load d⟩

theorem evaluate_eq_error_iff : w.evaluate limits ρ e = .finished (.error f) w' ↔
    ∃ n s err, n < limits.fuel ∧ (State.initial w e ρ).run limits.depth n = .unfinished s ∧
      s.step limits.depth = .halt (.error err) s.world ∧ f = .evaluation err ∧ w' = s.world := by
  constructor
  · intro h
    rw [evaluate] at h
    split at h <;> cases h
    rename_i err hr
    obtain ⟨n, hn, s, hs, hstep⟩ := State.run_finished_iff.mp hr
    obtain rfl := State.world_of_halt hstep
    exact ⟨n, s, err, hn, hs, hstep, rfl, rfl⟩
  · rintro ⟨n, s, err, hn, hs, hstep, rfl, rfl⟩
    rw [evaluate, State.run_finished_iff.mpr ⟨n, hn, s, hs, hstep⟩]

theorem evaluateDatum_eq_error_iff {d : Except SyntaxError Datum} :
    w.evaluateDatum limits ρ d = .finished (.error f) w' ↔ Fails limits ρ w d f w' := by
  cases d with
  | error e =>
    constructor
    · intro h
      cases h
      exact .unread
    · rintro ⟨⟩
      rfl
  | ok d =>
    obtain ⟨v, w₁, hload⟩ : ∃ v w₁, w.load d = (v, w₁) := ⟨_, _, rfl⟩
    simp only [evaluateDatum, hload, evaluateValue]
    constructor
    · intro h
      split at h
      · rename_i hparse
        obtain ⟨n, s, err, hn, hs, hstep, rfl, rfl⟩ := evaluate_eq_error_iff.mp h
        exact .stopped hload hparse hn hs hstep
      · rename_i hparse
        cases h
        exact .unparsed hload hparse
    · intro h
      cases h with
      | unparsed hload' hparse =>
        cases hload.symm.trans hload'
        rw [hparse]
      | stopped hload' hparse hn hs hstep =>
        cases hload.symm.trans hload'
        rw [hparse]
        exact evaluate_eq_error_iff.mpr ⟨_, _, _, hn, hs, hstep, rfl, rfl⟩

/-- What cannot be read or parsed has no effect. -/
theorem keptIn_of_fails {d : Except SyntaxError Datum} {err : SyntaxError}
    (h : Fails limits ρ w d (.reading err) w') : w.KeptIn w' := by
  cases h with
  | unread => exact .refl w
  | @unparsed d _ _ _ hload _ =>
    have hkept := w.keptIn_load d
    rwa [hload] at hkept

/-- A program that fails keeps the effects of all steps before the failing one, and no others. -/
theorem failure_keeps_effects (w w' : World) (limits : Limits) (ρ : ScopeRef) (text : String)
    (f : Failure) :
    (w.evaluateText limits ρ text = .finished (.error f) w' ↔
      ∃ before d after v w₁, Datum.readEach text = before ++ d :: after ∧
        w.evaluateData limits ρ .void before = .finished (.ok v) w₁ ∧ Fails limits ρ w₁ d f w') ∧
    ∀ before d after v w₁, Datum.readEach text = before ++ d :: after →
      w.evaluateData limits ρ .void before = .finished (.ok v) w₁ → Fails limits ρ w₁ d f w' →
      (∀ err, f = .reading err → w₁.KeptIn w') ∧
      (∀ datum, d = .ok datum → w₁.KeptIn (w₁.load datum).2) ∧
      ∀ text' after', Datum.readEach text' = before ++ d :: after' →
        w.evaluateText limits ρ text' = .finished (.error f) w' := by
  have hiff : ∀ text, w.evaluateText limits ρ text = .finished (.error f) w' ↔
      ∃ before d after v w₁, Datum.readEach text = before ++ d :: after ∧
        w.evaluateData limits ρ .void before = .finished (.ok v) w₁ ∧ Fails limits ρ w₁ d f w' := by
    intro text
    simp only [evaluateText, evaluateData_eq_error_iff, evaluateDatum_eq_error_iff]
  refine ⟨hiff text, fun before d after v w₁ _ hbefore hfails => ⟨?_, ?_, ?_⟩⟩
  · rintro err rfl
    exact keptIn_of_fails hfails
  · intro datum _
    exact w₁.keptIn_load datum
  · intro text' after' hread
    exact (hiff text').mpr ⟨before, d, after', v, w₁, hread, hbefore, hfails⟩

theorem failure_keeps_effects_call :
    let ρ := withPrelude.1
    let w := withPrelude.2
    let limits : Limits := ⟨none, 5⟩
    let yes := Datum.atom (.boolean true)
    let definition := Datum.list [.atom (.symbol ⟨"define"⟩), .atom (.symbol ⟨"x"⟩), yes] .null
    let call := Datum.list [.list [.atom (.symbol ⟨"lambda"⟩), .null, yes] .null, yes] .null
    let text := "(define x #t)\n((lambda () #t) #t)\n"
    let f := Failure.evaluation (.arityMismatch 0 1)
    ∃ w₁ w', Datum.readEach text = [.ok definition, .ok call] ∧
      w.evaluateData limits ρ .void [.ok definition] = .finished (.ok .void) w₁ ∧
      Fails limits ρ w₁ (.ok call) f w' ∧ w₁.KeptIn (w₁.load call).2 ∧
      w.evaluateText limits ρ text = .finished (.error f) w' := by
  intro ρ w limits yes definition call text f
  have hdefine : Symbol.Readable ⟨"define"⟩ :=
    @Scanner.readable_of_next (.ofString "define") _ (.symbol ⟨"define"⟩) rfl
  have hlambda : Symbol.Readable ⟨"lambda"⟩ :=
    @Scanner.readable_of_next (.ofString "lambda") _ (.symbol ⟨"lambda"⟩) rfl
  have hx : Symbol.Readable ⟨"x"⟩ :=
    @Scanner.readable_of_next (.ofString "x") _ (.symbol ⟨"x"⟩) rfl
  have hread : Datum.readEach text = [.ok definition, .ok call] := by
    refine @Scanner.data_lines (.ofString text) [definition, call] ?_ rfl
    simp only [List.forall_mem_cons]
    exact ⟨⟨⟨hdefine, hx, trivial, trivial⟩, by decide⟩,
      ⟨⟨⟨hlambda, trivial, trivial, trivial⟩, trivial, trivial⟩, by decide⟩,
      List.forall_mem_nil _⟩
  let w₁ : World :=
    ⟨(w.load definition).2.store.define ρ ⟨"x"⟩ (.atom (.boolean true)), .empty⟩
  have hbefore : w.evaluateData limits ρ .void [.ok definition] = .finished (.ok .void) w₁ := rfl
  obtain ⟨w', hcall⟩ : ∃ w', w₁.evaluateDatum limits ρ (.ok call) = .finished (.error f) w' :=
    ⟨_, rfl⟩
  have hfails := evaluateDatum_eq_error_iff.mp hcall
  obtain ⟨hiff, hkeeps⟩ := failure_keeps_effects w w' limits ρ text f
  exact ⟨w₁, w', hread, hbefore, hfails, (hkeeps _ _ _ _ _ hread hbefore hfails).2.1 call rfl,
    hiff.mpr ⟨_, _, _, _, _, hread, hbefore, hfails⟩⟩

end World

end SmallScheme
