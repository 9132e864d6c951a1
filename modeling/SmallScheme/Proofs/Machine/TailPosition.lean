import Mathlib.Data.List.Chain
import Mathlib.Logic.Relation
import SmallScheme.Program
import SmallScheme.Proofs.Machine.Run
import SmallScheme.Proofs.Machine.Step
import SmallScheme.Proofs.Store.Names

/-! # Tail positions

Which evaluation a delivered value belongs to can be told from the controls of a run alone: an
evaluation that waits for values encloses those that start before it has them all. Every
continuation of the machine stands on the stack of the evaluation that waits for it, so a tail
position is evaluated on the stack that its whole expression was evaluated on.
-/

namespace SmallScheme

/-- How many values an evaluation waits for. A sequence is given one to start with. -/
def Expression.needs : Expression → Nat
  | .literal _ | .reference _ | .lambda .. => 0
  | .define .. | .assign .. | .ifElse .. | .ifOnly .. => 1
  | .call _ es => es.length + 1
  | .sequence es => max es.length 1

/-- An evaluation that waits for values, with the number of steps before it. -/
structure Activity where
  start : Nat
  expression : Expression
  environment : ScopeRef
  received : List Value

namespace Activity

/-- The evaluations that wait after a step, innermost first. A value goes to the innermost one. -/
def follow (now : Nat) : Control → List Activity → List Activity
  | .evaluate e ρ, as => if e.needs = 0 then as else ⟨now, e, ρ, []⟩ :: as
  | .deliver _, [] => []
  | .deliver v, a :: as =>
    if a.received.length + 1 < a.expression.needs then
      { a with received := a.received ++ [v] } :: as
    else as

/-- The tail position that an evaluation comes down to with these values. -/
def tail? (s : Store) : Expression → ScopeRef → List Value → Option (Expression × ScopeRef)
  | .ifElse _ c a, ρ, [v] => some (if v.isTrue then c else a, ρ)
  | .ifOnly _ c, ρ, [v] => if v.isTrue then some (c, ρ) else none
  | .sequence es, ρ, vs => if vs.length = es.length then es.getLast?.map (·, ρ) else none
  | .call _ es, _, .procedure (.closure ref) :: vs =>
    if vs.length = es.length then
      match (s.closureAt ref).newCallScope vs s with
      | (.ok ρ, _) => some ((s.closureAt ref).body, ρ)
      | _ => none
    else none
  | _, _, _ => none

inductive Waits : Activity → Continuation → Prop

  | define {k : Nat} {x : Symbol} {e : Expression} {ρ : ScopeRef} :
      Waits ⟨k, .define x e, ρ, []⟩ (.define x ρ)

  | assign {k : Nat} {x : Symbol} {e : Expression} {ρ : ScopeRef} :
      Waits ⟨k, .assign x e, ρ, []⟩ (.assign x ρ)

  | ifElse {k : Nat} {e c a : Expression} {ρ : ScopeRef} :
      Waits ⟨k, .ifElse e c a, ρ, []⟩ (.ifElse c a ρ)

  | ifOnly {k : Nat} {e c : Expression} {ρ : ScopeRef} :
      Waits ⟨k, .ifOnly e c, ρ, []⟩ (.ifOnly c ρ)

  | operator {k : Nat} {e : Expression} {es : List Expression} {ρ : ScopeRef} :
      Waits ⟨k, .call e es, ρ, []⟩ (.operator es ρ)

  | operand {k : Nat} {e d : Expression} {before rest : List Expression} {ρ : ScopeRef}
      {p : Procedure} {vs : List Value} : before.length = vs.length →
      Waits ⟨k, .call e (before ++ d :: rest), ρ, .procedure p :: vs⟩
        (.operand p vs.reverse rest ρ)

  | sequence {k : Nat} {before rest : List Expression} {ρ : ScopeRef} {vs : List Value} :
      before.length = vs.length → (rest = [] → vs = []) →
      Waits ⟨k, .sequence (before ++ rest), ρ, vs⟩ (.sequence rest ρ)

end Activity

open Activity

/-- After so many steps the machine is in a state, and these evaluations wait for values. -/
inductive Trace (limit : Option Nat) (s₀ : State) : Nat → State → List Activity → Prop

  | start : Trace limit s₀ 0 s₀ []

  | step {k : Nat} {s t : State} {as : List Activity} : Trace limit s₀ k s as →
      s.step limit = .next t → Trace limit s₀ (k + 1) t (follow k s.control as)

/-- The evaluation that starts after `j` steps comes down to its tail position after `k` steps. -/
def HandsOver (limit : Option Nat) (s₀ : State) (j k : Nat) (e : Expression) (ρ : ScopeRef) :
    Prop :=
  ∃ m s a as v, k = m + 1 ∧ Trace limit s₀ m s (a :: as) ∧ a.start = j ∧
    s.control = .deliver v ∧
    tail? s.world.store a.expression a.environment (a.received ++ [v]) = some (e, ρ)

/-- Tail positions of tail positions, any number of them. -/
def TailPath (limit : Option Nat) (s₀ : State) : Nat → Nat → Prop :=
  Relation.ReflTransGen fun j k => ∃ e ρ, HandsOver limit s₀ j k e ρ

/-- A tail call in the body entered after `j` steps enters another body after `k` steps. -/
def TailCall (limit : Option Nat) (s₀ : State) (j k : Nat) : Prop :=
  ∃ c w e es ρ stack, TailPath limit s₀ j c ∧
    s₀.run limit c = .unfinished ⟨w, .evaluate (.call e es) ρ, stack⟩ ∧
    ∃ body scope, HandsOver limit s₀ c k body scope

/-- Every continuation stands on the stack of the evaluation that it belongs to. -/
inductive Stacked (limit : Option Nat) (s₀ : State) :
    List Activity → List Continuation → Prop

  | nil : Stacked limit s₀ [] []

  | cons {a : Activity} {as : List Activity} {frame : Continuation} {w : World} {stack : Stack} :
      s₀.run limit a.start = .unfinished ⟨w, .evaluate a.expression a.environment, stack⟩ →
      Waits a frame → Stacked limit s₀ as stack.frames →
      Stacked limit s₀ (a :: as) (frame :: stack.frames)

variable {limit : Option Nat} {s₀ s t : State} {j k : Nat} {w : World} {stack : Stack}
  {frame : Continuation} {control : Control} {v : Value} {vs : List Value} {p : Procedure}
  {a : Activity} {as : List Activity} {e : Expression} {ρ : ScopeRef}

theorem Stacked.evaluate (hs : s₀.run limit k = .unfinished ⟨w, .evaluate e ρ, stack⟩)
    (h : Stacked limit s₀ as stack.frames)
    (ht : State.evaluate limit w stack e ρ = .next t) :
    Stacked limit s₀ (follow k (.evaluate e ρ) as) t.stack.frames := by
  have waiting : e.needs ≠ 0 → ∀ {control frame}, Waits ⟨k, e, ρ, []⟩ frame →
      State.under limit w stack frame control = .next t →
      Stacked limit s₀ (follow k (.evaluate e ρ) as) t.stack.frames := by
    intro hn control frame hw hu
    rw [State.under_next hu, follow, if_neg hn]
    exact .cons hs hw h
  cases e with
  | literal v =>
    cases ht
    exact h
  | reference x =>
    simp only [State.evaluate] at ht
    split at ht <;> cases ht
    exact h
  | lambda formals body =>
    cases ht
    exact h
  | define x e => exact waiting Nat.one_ne_zero .define ht
  | assign x e => exact waiting Nat.one_ne_zero .assign ht
  | ifElse e c a => exact waiting Nat.one_ne_zero .ifElse ht
  | ifOnly e c => exact waiting Nat.one_ne_zero .ifOnly ht
  | call e es => exact waiting (Nat.succ_ne_zero _) .operator ht
  | sequence es =>
    have hn : (Expression.sequence es).needs ≠ 0 := by
      have := Nat.le_max_right es.length 1
      simp only [Expression.needs]
      omega
    exact waiting hn (@Waits.sequence k [] es ρ [] rfl fun _ => rfl) ht

theorem Stacked.top (h : Stacked limit s₀ as (frame :: stack.frames)) :
    ∃ a rest w, as = a :: rest ∧ Waits a frame ∧ Stacked limit s₀ rest stack.frames ∧
      s₀.run limit a.start = .unfinished ⟨w, .evaluate a.expression a.environment, stack⟩ := by
  generalize hf : frame :: stack.frames = frames at h
  rcases h with _ | ⟨hs, hw, h⟩
  · cases hf
  rename_i a as frame' w stack'
  obtain ⟨rfl, htail⟩ := List.cons_eq_cons.mp hf
  obtain rfl := Stack.ext htail
  exact ⟨a, as, w, rfl, hw, h, hs⟩

theorem Stacked.deliver (h : Stacked limit s₀ as (frame :: stack.frames))
    (ht : State.resume limit w stack v frame = .next t) :
    Stacked limit s₀ (follow k (.deliver v) as) t.stack.frames := by
  obtain ⟨a, as, w', rfl, hw, h, hs⟩ := h.top
  have done : ∀ {a : Activity}, ¬ a.received.length + 1 < a.expression.needs →
      t.stack = stack → Stacked limit s₀ (follow k (.deliver v) (a :: as)) t.stack.frames := by
    intro a hn hts
    rw [follow, if_neg hn, hts]
    exact h
  have more : ∀ {a : Activity} {frame : Continuation},
      s₀.run limit a.start = .unfinished ⟨w', .evaluate a.expression a.environment, stack⟩ →
      a.received.length + 1 < a.expression.needs →
      Waits { a with received := a.received ++ [v] } frame → t.stack = stack.push frame →
      Stacked limit s₀ (follow k (.deliver v) (a :: as)) t.stack.frames := by
    intro a frame hs hn hw hts
    rw [follow, if_pos hn, hts]
    exact .cons hs hw h
  cases hw with
  | define =>
    cases ht
    exact done (Nat.lt_irrefl 1) rfl
  | assign =>
    simp only [State.resume] at ht
    split at ht <;> cases ht
    exact done (Nat.lt_irrefl 1) rfl
  | ifElse =>
    cases ht
    exact done (Nat.lt_irrefl 1) rfl
  | ifOnly =>
    cases ht
    exact done (Nat.lt_irrefl 1) rfl
  | operator =>
    rename_i k e es ρ
    cases v with
    | procedure p =>
      have ht : State.collect limit w stack p [] ρ es = .next t := by
        cases es <;> exact ht
      rcases State.collect_next ht with ⟨rfl, hts⟩ | ⟨d, rest, rfl, hts⟩
      · exact done (Nat.lt_irrefl 1) hts
      · exact more hs (by simp [Expression.needs]) (@Waits.operand k e d [] rest ρ p [] rfl) hts
    | _ => cases ht
  | operand hb =>
    rename_i k e d before rest ρ p vs
    have ht : State.collect limit w stack p (v :: vs.reverse) ρ rest = .next t := by
      cases rest <;> exact ht
    rcases State.collect_next ht with ⟨rfl, hts⟩ | ⟨d', rest, rfl, hts⟩
    · exact done (by simp [Expression.needs, hb]) hts
    · refine more hs (by simp [Expression.needs, hb]) ?_ hts
      have hw : Waits ⟨k, .call e ((before ++ [d]) ++ d' :: rest), ρ, .procedure p :: (vs ++ [v])⟩
          (.operand p (vs ++ [v]).reverse rest ρ) := .operand (by simp [hb])
      simpa using hw
  | sequence hb hn =>
    rename_i k before rest ρ vs
    rcases rest with _ | ⟨d, _ | ⟨d', rest⟩⟩
    · cases ht
      obtain rfl := hn rfl
      obtain rfl := List.eq_nil_of_length_eq_zero hb
      exact done (Nat.lt_irrefl 1) rfl
    · cases ht
      refine done ?_ rfl
      simp [Expression.needs, hb]
    · have hn : vs.length + 1 < (Expression.sequence (before ++ d :: d' :: rest)).needs := by
        simp only [Expression.needs, List.length_append, List.length_cons]
        omega
      refine more hs hn ?_ (by rw [State.under_next ht])
      have hw : Waits ⟨k, .sequence ((before ++ [d]) ++ d' :: rest), ρ, vs ++ [v]⟩
          (.sequence (d' :: rest) ρ) := .sequence (by simp [hb]) (by simp)
      simpa using hw

theorem tail?_call {f : Store} {es : List Expression} {e' : Expression} {ρ' : ScopeRef}
    (h : tail? f (.call e es) ρ vs = some (e', ρ')) :
    ∃ ref args f', vs = .procedure (.closure ref) :: args ∧ args.length = es.length ∧
      (f.closureAt ref).newCallScope args f = (.ok ρ', f') ∧ e' = (f.closureAt ref).body := by
  rcases vs with _ | ⟨v, args⟩
  · cases h
  obtain ⟨ref, rfl⟩ : ∃ ref, v = .procedure (.closure ref) := by
    cases v with
    | procedure p =>
      cases p with
      | closure ref => exact ⟨ref, rfl⟩
      | primitive ref => cases h
    | _ => cases h
  simp only [tail?] at h
  split at h
  · rename_i hl
    split at h
    · rename_i ρ₁ f' hc
      cases h
      exact ⟨ref, args, f', rfl, hl, hc, rfl⟩
    · cases h
  · cases h

/-- On the way to a tail position nothing is pushed. -/
theorem Activity.Waits.resume_tail {e' : Expression} {ρ' : ScopeRef} (hw : Waits a frame)
    (h : tail? w.store a.expression a.environment (a.received ++ [v]) = some (e', ρ')) :
    ∃ w', State.resume limit w stack v frame = .next ⟨w', .evaluate e' ρ', stack⟩ := by
  cases hw with
  | define => cases h
  | assign => cases h
  | ifElse =>
    cases h
    exact ⟨w, rfl⟩
  | ifOnly =>
    simp only [List.nil_append, tail?] at h
    split at h
    · rename_i hv
      cases h
      exact ⟨w, by simp only [State.resume, if_pos hv]⟩
    · cases h
  | operator =>
    obtain ⟨ref, args, f', hv, hl, hc, rfl⟩ := tail?_call h
    cases hv
    obtain rfl := List.eq_nil_of_length_eq_zero hl.symm
    exact ⟨_, State.invoke_closure hc stack⟩
  | operand hb =>
    rename_i k e d before rest ρ p vs
    obtain ⟨ref, args, f', hv, hl, hc, rfl⟩ := tail?_call h
    obtain ⟨hp, ha⟩ := List.cons_eq_cons.mp hv
    cases hp
    obtain rfl : vs ++ [v] = args := ha
    simp only [List.length_append, List.length_cons, List.length_nil] at hl
    obtain rfl := List.eq_nil_of_length_eq_zero (by omega : rest.length = 0)
    have hargs : (v :: vs.reverse).reverse = vs ++ [v] := by simp
    refine ⟨⟨f', w.output⟩, ?_⟩
    simp only [State.resume]
    rw [hargs]
    exact State.invoke_closure hc stack
  | sequence hb hn =>
    rename_i k before rest ρ vs
    simp only [tail?] at h
    split at h
    · rename_i hl
      simp only [List.length_append, List.length_cons, List.length_nil, ← hb] at hl
      obtain ⟨last, rfl⟩ := List.length_eq_one_iff.mp (by omega : rest.length = 1)
      rw [List.getLast?_concat] at h
      cases h
      exact ⟨w, rfl⟩
    · cases h

/-- The controls of a run tell which evaluation every continuation belongs to. -/
theorem Trace.stacked (hs₀ : s₀.stack = .empty) (h : Trace limit s₀ k s as) :
    s₀.run limit k = .unfinished s ∧ Stacked limit s₀ as s.stack.frames := by
  induction h with
  | start =>
    rw [hs₀]
    exact ⟨rfl, .nil⟩
  | step h ht ih =>
    rename_i k s t as
    obtain ⟨hr, hs⟩ := ih
    refine ⟨State.run_succ_iff.mpr ⟨s, hr, ht⟩, ?_⟩
    obtain ⟨w, control, stack⟩ := s
    cases control with
    | evaluate e ρ => exact hs.evaluate hr ht
    | deliver v =>
      rcases stack.eq_empty_or_push with rfl | ⟨rest, frame, rfl⟩
      · cases ht
      · rw [State.step_deliver] at ht
        exact hs.deliver ht

theorem HandsOver.stack_eq {e' : Expression} {ρ' : ScopeRef} (hs₀ : s₀.stack = .empty)
    (h : HandsOver limit s₀ j k e' ρ')
    (hj : s₀.run limit j = .unfinished ⟨w, .evaluate e ρ, stack⟩) :
    ∃ w', s₀.run limit k = .unfinished ⟨w', .evaluate e' ρ', stack⟩ := by
  obtain ⟨m, s, a, as, v, rfl, htr, rfl, hc, hv⟩ := h
  obtain ⟨hr, hs⟩ := htr.stacked hs₀
  obtain ⟨w₁, control, top⟩ := s
  cases hc
  rcases top.eq_empty_or_push with rfl | ⟨rest, frame, rfl⟩
  · cases hs
  · obtain ⟨a', as', w₂, has, hw, -, hst⟩ := hs.top
    obtain ⟨rfl, -⟩ := List.cons_eq_cons.mp has
    rw [hj] at hst
    cases hst
    obtain ⟨w', hn⟩ := hw.resume_tail hv
    exact ⟨w', State.run_succ_iff.mpr ⟨_, hr, by rw [State.step_deliver]; exact hn⟩⟩

theorem TailPath.stack_eq (hs₀ : s₀.stack = .empty) (h : TailPath limit s₀ j k)
    (hj : s₀.run limit j = .unfinished ⟨w, .evaluate e ρ, stack⟩) :
    ∃ w' e' ρ', s₀.run limit k = .unfinished ⟨w', .evaluate e' ρ', stack⟩ := by
  induction h with
  | refl => exact ⟨w, e, ρ, hj⟩
  | tail _ h ih =>
    obtain ⟨w₁, e₁, ρ₁, h₁⟩ := ih
    obtain ⟨e', ρ', h⟩ := h
    obtain ⟨w', hk⟩ := h.stack_eq hs₀ h₁
    exact ⟨w', e', ρ', hk⟩

theorem TailCall.stack_eq (hs₀ : s₀.stack = .empty) (h : TailCall limit s₀ j k)
    (hj : s₀.run limit j = .unfinished ⟨w, .evaluate e ρ, stack⟩) :
    ∃ w' e' ρ', s₀.run limit k = .unfinished ⟨w', .evaluate e' ρ', stack⟩ := by
  obtain ⟨c, w₁, e₁, es, ρ₁, stack₁, hp, hc, body, scope, hb⟩ := h
  obtain ⟨w₂, e₂, ρ₂, h₂⟩ := hp.stack_eq hs₀ hj
  obtain ⟨w', hk⟩ := hb.stack_eq hs₀ h₂
  exact ⟨w', body, scope, hk⟩

theorem Trace.of_run (h : s₀.run limit k = .unfinished s) : ∃ as, Trace limit s₀ k s as := by
  induction k generalizing s with
  | zero =>
    cases h
    exact ⟨[], .start⟩
  | succ k ih =>
    obtain ⟨t, ht, hn⟩ := State.run_succ_iff.mp h
    obtain ⟨as, hs⟩ := ih ht
    exact ⟨_, .step hs hn⟩

/-- A tail position is entered on the stack of its whole expression, along calls in tail position
too. -/
theorem State.tail_positions_keep_stack (limit : Option Nat) (w : World) (e₀ : Expression)
    (ρ₀ : ScopeRef) :
    let s₀ := State.initial w e₀ ρ₀
    (∀ k s, s₀.run limit k = .unfinished s →
      ∃ as, Trace limit s₀ k s as ∧ Stacked limit s₀ as s.stack.frames) ∧
    (∀ j k w₁ e ρ stack e' ρ', s₀.run limit j = .unfinished ⟨w₁, .evaluate e ρ, stack⟩ →
      HandsOver limit s₀ j k e' ρ' →
      ∃ w₂, s₀.run limit k = .unfinished ⟨w₂, .evaluate e' ρ', stack⟩) ∧
    (∀ j ks w₁ e ρ stack, s₀.run limit j = .unfinished ⟨w₁, .evaluate e ρ, stack⟩ →
      (j :: ks).IsChain (TailCall limit s₀) →
      ∀ k ∈ ks, ∃ w₂ body scope,
        s₀.run limit k = .unfinished ⟨w₂, .evaluate body scope, stack⟩) := by
  intro s₀
  refine ⟨fun k s hk => ?_, fun j k w₁ e ρ stack e' ρ' hj h => h.stack_eq rfl hj, ?_⟩
  · obtain ⟨as, h⟩ := Trace.of_run hk
    exact ⟨as, h, (h.stacked rfl).2⟩
  · intro j ks
    induction ks generalizing j with
    | nil =>
      intro w₁ e ρ stack hj hc k hk
      cases hk
    | cons i ks ih =>
      intro w₁ e ρ stack hj hc k hk
      obtain ⟨hi, hc⟩ := List.isChain_cons_cons.mp hc
      obtain ⟨w₂, body, scope, h₂⟩ := hi.stack_eq rfl hj
      rcases List.mem_cons.mp hk with rfl | hk
      · exact ⟨w₂, body, scope, h₂⟩
      · exact ih i w₂ body scope stack h₂ hc k hk

/-- A procedure that only calls itself enters its body again and again on the empty stack. -/
theorem State.self_call_keeps_stack :
    let symbol : String → Datum := fun name => .atom (.symbol ⟨name⟩)
    let self : Datum := .list [symbol "lambda", .list [symbol "f"] .null,
      .list [symbol "f", symbol "f"] .null] .null
    let (v, w) := World.withPrelude.2.load (.list [self, self] .null)
    ∃ e, w.store.parse v = .ok e ∧
      let s₀ := State.initial w e World.withPrelude.1
      [0, 5, 10].IsChain (TailCall (some 1) s₀) ∧ ∀ k ∈ [5, 10], ∃ w₂ body scope,
        s₀.run (some 1) k = .unfinished ⟨w₂, .evaluate body scope, .empty⟩ := by
  intro symbol self
  refine ⟨_, rfl, ?_⟩
  intro s₀
  have operand {w : World} {ρ : ScopeRef} {v : Value} {stack : Stack}
      (hv : (w.store.scopeAt ρ).find? ⟨"f"⟩ = some v) :
      State.step (some 1) ⟨w, .evaluate (.reference ⟨"f"⟩) ρ, stack⟩ =
        .next ⟨w, .deliver v, stack⟩ := by
    rw [State.step_reference, Store.lookup_of_find? hv]
    rfl
  have first : Trace (some 1) s₀ 4 _ _ := .step (.step (.step (.step .start rfl) rfl) rfl) rfl
  have entered : Trace (some 1) s₀ 5 _ _ := .step first rfl
  have second : Trace (some 1) s₀ 9 _ _ :=
    .step (.step (.step (.step entered rfl) (operand rfl)) rfl) (operand rfl)
  have chain : [0, 5, 10].IsChain (TailCall (some 1) s₀) := by
    refine .cons_cons ?_ (.cons_cons ?_ (.singleton 10))
    · exact ⟨0, _, _, _, _, _, .refl, rfl, _, _, _, _, _, _, _, rfl, first, rfl, rfl, rfl⟩
    · exact ⟨5, _, _, _, _, _, .refl, (entered.stacked rfl).1, _, _, _, _, _, _, _, rfl, second,
        rfl, rfl, rfl⟩
  exact ⟨chain, (State.tail_positions_keep_stack (some 1) _ _ _).2.2 0 [5, 10] _ _ _ .empty rfl
    chain⟩

end SmallScheme
