import Mathlib.Tactic.IntervalCases
import SmallScheme.Program
import SmallScheme.Proofs.Machine.Overflow
import SmallScheme.Proofs.Machine.Run
import SmallScheme.Proofs.Machine.Step

/-! # The limit of the stack

A step looks at the limit only where it pushes, after it has taken the continuation that it resumes.
So a limited run takes the steps of the unlimited one until that would exceed the limit, and fails
there; no other step reports an overflow.
-/

namespace SmallScheme.State

variable {s t : State} {w : World} {stack : Stack} {ρ : ScopeRef} {p : Procedure}
  {vs done : List Value} {es : List Expression} {r : Except EvalError Value} {n k : Nat}

inductive StepShape (s : State) : (Option Nat → Step) → Prop

  | halt {r : Except EvalError Value} {w : World} : NoOverflow r →
      StepShape s fun _ => .halt r w

  | next {t : State} : t.stack.depth ≤ s.stack.depth → StepShape s fun _ => .next t

  | push {stack : Stack} {frame : Continuation} {control : Control} :
      stack.depth ≤ s.stack.depth →
      StepShape s fun limit => under limit s.world stack frame control

namespace StepShape

theorem of_result (hr : NoOverflow r) (hd : stack.depth ≤ s.stack.depth) :
    StepShape s fun _ => .ofResult w stack r := by
  cases r with
  | ok v => exact .next hd
  | error err => exact .halt hr

theorem of_invoke (hd : stack.depth ≤ s.stack.depth) :
    StepShape s fun _ => invoke w stack p vs := by
  cases p with
  | primitive ref =>
    simp only [invoke_primitive rfl]
    exact of_result (.call _ vs w) hd
  | closure ref =>
    have hn := NoOverflow.newCallScope (w.store.closureAt ref) vs w.store
    rcases hc : (w.store.closureAt ref).newCallScope vs w.store with ⟨err | ρ, store⟩
    · simp only [invoke_closure_error hc]
      rw [hc] at hn
      exact .halt hn.of_error
    · simp only [invoke_closure hc]
      exact .next hd

theorem of_collect (hd : stack.depth ≤ s.stack.depth) :
    StepShape s fun limit => collect limit s.world stack p done ρ es := by
  cases es with
  | nil => exact of_invoke hd
  | cons e es => exact .push hd

theorem of_evaluate (w : World) (e : Expression) (ρ : ScopeRef) (stack : Stack) :
    StepShape ⟨w, .evaluate e ρ, stack⟩ fun limit => step limit ⟨w, .evaluate e ρ, stack⟩ := by
  cases e with
  | literal v => exact .next (Nat.le_refl _)
  | reference x =>
    simp only [step_reference]
    exact of_result (.lookup _ ρ x) (Nat.le_refl _)
  | lambda formals body => exact .next (Nat.le_refl _)
  | define _ _ | assign _ _ | ifElse _ _ _ | ifOnly _ _ | call _ _ | sequence _ =>
    exact .push (Nat.le_refl _)

theorem of_deliver (w : World) (v : Value) (stack : Stack) (frame : Continuation) :
    StepShape ⟨w, .deliver v, stack.push frame⟩
      fun limit => step limit ⟨w, .deliver v, stack.push frame⟩ := by
  have hd : stack.depth ≤ (stack.push frame).depth := Nat.le_succ _
  cases frame with
  | define x ρ =>
    simp only [step_deliver]
    exact .next hd
  | assign x ρ =>
    simp only [step_assign rfl]
    exact of_result ((NoOverflow.assign _ ρ x v).map _) hd
  | ifElse c a ρ =>
    simp only [step_deliver]
    exact .next hd
  | ifOnly c ρ =>
    simp only [step_deliver]
    exact .next hd
  | operator es ρ =>
    by_cases hv : ∃ p, v = .procedure p
    · obtain ⟨p, rfl⟩ := hv
      simp only [step_operator]
      exact of_collect hd
    · simp only [step_operator_other (not_exists.mp hv)]
      exact .halt nofun
  | operand p done es ρ =>
    simp only [step_operand]
    exact of_collect hd
  | sequence es ρ =>
    simp only [step_deliver]
    match es with
    | [] => exact .next hd
    | [e] => exact .next hd
    | e :: e' :: es => exact .push hd

end StepShape

theorem stepShape (s : State) : StepShape s fun limit => s.step limit := by
  obtain ⟨w, control, stack⟩ := s
  cases control with
  | evaluate e ρ => exact .of_evaluate w e ρ stack
  | deliver v =>
    rcases stack.eq_empty_or_push with rfl | ⟨stack, frame, rfl⟩
    · exact .halt (.ok v)
    · exact .of_deliver w v stack frame

/-- A step that starts within the limit is the unlimited one, or that exceeds the limit. -/
theorem step_within (hs : s.stack.depth ≤ n) :
    (s.step (some n) = s.step none ∧ (∀ t, s.step none = .next t → t.stack.depth ≤ n) ∧
      ∀ r w, s.step none = .halt r w → NoOverflow r) ∨
    ∃ t, s.step none = .next t ∧ n < t.stack.depth ∧
      s.step (some n) = .fail (.stackOverflow (n + 1) n) t.world := by
  have h := s.stepShape
  generalize hf : (fun limit => s.step limit) = f at h
  have hf' (limit : Option Nat) : s.step limit = f limit := congrFun hf limit
  rw [hf', hf']
  cases h with
  | halt hr =>
    refine .inl ⟨rfl, fun t he => ?_, fun r w he => ?_⟩
    · cases he
    · cases he
      exact hr
  | next hd =>
    refine .inl ⟨rfl, fun t he => ?_, fun r w he => ?_⟩
    · cases he
      exact Nat.le_trans hd hs
    · cases he
  | @push stack frame control hd =>
    by_cases hn : n ≤ stack.depth
    · obtain rfl : n = stack.depth := by omega
      refine .inr ⟨_, rfl, Nat.lt_succ_self _, ?_⟩
      simp only [under, Stack.pushWithin, Nat.le_refl, if_true]
    · refine .inl ⟨?_, fun t he => ?_, fun r w he => ?_⟩
      · simp only [under, Stack.pushWithin, hn, if_false]
      · cases he
        exact Nat.lt_of_not_le hn
      · cases he

/-- The first time that the unlimited machine holds more than `n` continuations. -/
structure FirstExceeds (s : State) (n k : Nat) (t : State) : Prop where
  reached : s.run none k = .unfinished t
  deeper : n < t.stack.depth
  before : ∀ j < k, ∀ u, s.run none j = .unfinished u → u.stack.depth ≤ n

/-- The unlimited machine holds at most `n` continuations during so many steps. -/
def StaysWithin (s : State) (n k : Nat) : Prop :=
  ∀ j ≤ k, ∀ t, s.run none j = .unfinished t → t.stack.depth ≤ n

theorem run_eq_of_staysWithin (h : StaysWithin s n k) : s.run (some n) k = s.run none k := by
  induction k generalizing s with
  | zero => rfl
  | succ k ih =>
    rcases step_within (h 0 (Nat.zero_le _) s rfl) with ⟨he, -, -⟩ | ⟨t, ht, hd, -⟩
    · cases hs : s.step none with
      | next t =>
        rw [run_succ_of_next (he.trans hs), run_succ_of_next hs]
        refine ih fun j hj u hu => h (j + 1) (Nat.succ_le_succ hj) u ?_
        rw [run_succ_of_next hs, hu]
      | halt r w => rw [run_succ_of_halt (he.trans hs), run_succ_of_halt hs]
    · have hw := h 1 (Nat.succ_le_succ (Nat.zero_le k)) t (run_succ_of_next ht 0)
      exact (Nat.not_le_of_lt hd hw).elim

theorem FirstExceeds.run_eq (h : FirstExceeds s n k t) (hs : s.stack.depth ≤ n) :
    s.run (some n) k = .finished (.error (.stackOverflow (n + 1) n)) t.world := by
  cases k with
  | zero =>
    obtain rfl : s = t := by simpa [run] using h.reached
    exact (Nat.not_le_of_lt h.deeper hs).elim
  | succ k =>
    obtain ⟨u, hu, ht⟩ := run_succ_iff.mp h.reached
    have hk : StaysWithin s n k := fun j hj => h.before j (Nat.lt_succ_of_le hj)
    rcases step_within (hk k (Nat.le_refl k) u hu) with ⟨-, hd, -⟩ | ⟨v, hv, -, he⟩
    · exact (Nat.not_le_of_lt h.deeper (hd t ht)).elim
    · cases hv.symm.trans ht
      rw [run_add (t := u) ((run_eq_of_staysWithin hk).trans hu) 1, run_succ_of_halt he]

theorem staysWithin_or_exceeds
    (h : ∀ j < k, ∀ t, s.run none j = .unfinished t → t.stack.depth ≤ n) :
    StaysWithin s n k ∨ ∃ t, FirstExceeds s n k t := by
  by_cases hk : ∀ t, s.run none k = .unfinished t → t.stack.depth ≤ n
  · refine .inl fun j hj => ?_
    rcases Nat.lt_or_eq_of_le hj with hj | rfl
    · exact h j hj
    · exact hk
  · obtain ⟨t, hk⟩ := Classical.not_forall.mp hk
    obtain ⟨ht, hd⟩ := Classical.not_imp.mp hk
    exact .inr ⟨t, ht, Nat.lt_of_not_le hd, h⟩

theorem staysWithin_or_firstExceeds (s : State) (n k : Nat) :
    StaysWithin s n k ∨ ∃ j ≤ k, ∃ t, FirstExceeds s n j t := by
  induction k with
  | zero =>
    rcases staysWithin_or_exceeds (s := s) (n := n) (k := 0) nofun with h | ⟨t, ht⟩
    · exact .inl h
    · exact .inr ⟨0, Nat.le_refl 0, t, ht⟩
  | succ k ih =>
    rcases ih with h | ⟨j, hj, t, ht⟩
    · rcases staysWithin_or_exceeds fun j hj => h j (Nat.le_of_lt_succ hj) with h | ⟨t, ht⟩
      · exact .inl h
      · exact .inr ⟨k + 1, Nat.le_refl _, t, ht⟩
    · exact .inr ⟨j, Nat.le_succ_of_le hj, t, ht⟩

/-- Without a limit there is no overflow. -/
theorem noOverflow_of_run (h : s.run none k = .finished r w) : NoOverflow r := by
  induction k generalizing s with
  | zero => cases h
  | succ k ih =>
    rcases step_within (Nat.le_refl s.stack.depth) with ⟨-, -, hh⟩ | ⟨t, ht, -, -⟩
    · cases hs : s.step none with
      | next t =>
        rw [run_succ_of_next hs] at h
        exact ih h
      | halt r' w' =>
        rw [run_succ_of_halt hs] at h
        cases h
        exact hh r w hs
    · rw [run_succ_of_next ht] at h
      exact ih h

theorem overflow_exact {depth limit : Nat} (hs : s.stack.depth ≤ n)
    (h : s.run (some n) k = .finished (.error (.stackOverflow depth limit)) w) :
    depth = n + 1 ∧ limit = n := by
  rcases staysWithin_or_firstExceeds s n k with hk | ⟨j, hj, t, ht⟩
  · rw [run_eq_of_staysWithin hk] at h
    exact (noOverflow_of_run h depth limit rfl).elim
  · rw [run_stable (ht.run_eq hs) hj] at h
    cases h
    exact ⟨rfl, rfl⟩

theorem depth_le_of_run (hs : s.stack.depth ≤ n) (h : s.run (some n) k = .unfinished t) :
    t.stack.depth ≤ n := by
  rcases staysWithin_or_firstExceeds s n k with hk | ⟨j, hj, u, hu⟩
  · rw [run_eq_of_staysWithin hk] at h
    exact hk k (Nat.le_refl k) t h
  · rw [run_stable (hu.run_eq hs) hj] at h
    cases h

theorem staysWithin_of_noOverflow (hs : s.stack.depth ≤ n)
    (h : ∀ j w, s.run (some n) j ≠ .finished (.error (.stackOverflow (n + 1) n)) w) (k : Nat) :
    StaysWithin s n k := by
  rcases staysWithin_or_firstExceeds s n k with hk | ⟨j, -, t, ht⟩
  · exact hk
  · exact (h j t.world (ht.run_eq hs)).elim

/-- A limited run takes the steps of the unlimited one until that would exceed the limit, and fails
there. -/
theorem stack_limit_exact (w : World) (e : Expression) (ρ : ScopeRef) (n : Nat) :
    let s := State.initial w e ρ
    (∀ k, StaysWithin s n k → s.run (some n) k = s.run none k) ∧
    (∀ j t, FirstExceeds s n j t → ∀ k ≥ j,
      s.run (some n) k = .finished (.error (.stackOverflow (n + 1) n)) t.world) ∧
    (∀ k depth limit w', s.run (some n) k = .finished (.error (.stackOverflow depth limit)) w' →
      depth = n + 1 ∧ limit = n) ∧
    (∀ k t, s.run (some n) k = .unfinished t → t.stack.depth ≤ n) ∧
    ((∀ k w', s.run (some n) k ≠ .finished (.error (.stackOverflow (n + 1) n)) w') →
      ∀ m ≥ n, ∀ k, s.run (some m) k = s.run (some n) k) := by
  intro s
  have hs : s.stack.depth ≤ n := Nat.zero_le n
  refine ⟨fun k => run_eq_of_staysWithin, fun j t ht k hk => run_stable (ht.run_eq hs) hk,
    fun k depth limit w' => overflow_exact hs, fun k t => depth_le_of_run hs, ?_⟩
  intro h m hm k
  have hn := staysWithin_of_noOverflow hs h k
  have hm' : StaysWithin s m k := fun j hj t ht => Nat.le_trans (hn j hj t ht) hm
  rw [run_eq_of_staysWithin hm', run_eq_of_staysWithin hn]

/-- A call behind two parts of another, for each of which a continuation was popped and pushed
again. -/
theorem stack_limit_exact_operands :
    let symbol : String → Datum := fun name => .atom (.symbol ⟨name⟩)
    let lambda : Datum → Datum → Datum := fun formals body =>
      .list [symbol "lambda", formals, body] .null
    let yes : Datum := .atom (.boolean true)
    let d := Datum.list [lambda (.list [symbol "x", symbol "y"] .null) (symbol "y"), yes,
      .list [lambda .null yes] .null] .null
    let (v, w) := World.withPrelude.2.load d
    ∃ e, w.store.parse v = .ok e ∧
      let s := State.initial w e World.withPrelude.1
      ∃ t, FirstExceeds s 1 6 t ∧
        s.run (some 1) 6 = .finished (.error (.stackOverflow 2 1)) t.world := by
  intro symbol lambda yes d
  refine ⟨_, rfl, ?_⟩
  intro s
  have hbefore : ∀ j < 6, ∀ u, s.run none j = .unfinished u → u.stack.depth ≤ 1 := by
    intro j hj u hu
    interval_cases j <;> cases hu <;> decide
  have hs : FirstExceeds s 1 6 _ := ⟨rfl, Nat.one_lt_two, hbefore⟩
  exact ⟨_, hs, (stack_limit_exact _ _ _ 1).2.1 6 _ hs 6 le_rfl⟩

end SmallScheme.State
