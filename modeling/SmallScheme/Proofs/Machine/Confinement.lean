import SmallScheme.Proofs.Machine.Run
import SmallScheme.Proofs.Machine.Session
import SmallScheme.Proofs.Store.Confinement

/-! # Confined evaluation

What the evaluation of an expression can come by is what the expression and its environment lead to,
and what it creates itself. One transition keeps to that territory, and so does every run.
-/

namespace SmallScheme

open Expression Continuation

namespace Continuation

/-- The values that wait in the continuation, the literals of its code among them. -/
def values : Continuation → List Value
  | ifElse consequent alternate _ => consequent.literals ++ alternate.literals
  | ifOnly consequent _ => consequent.literals
  | define .. | assign .. => []
  | operator operands _ => allLiterals operands
  | operand procedure evaluated operands _ =>
    .procedure procedure :: (evaluated ++ allLiterals operands)
  | sequence members _ => allLiterals members

def Refers (frame : Continuation) (o : Object) : Prop :=
  o = .scope frame.environment ∨ ∃ v ∈ frame.values, v.Refers o

variable {ρ : ScopeRef} {e next : Expression} {frame frame' : Continuation} {v v' : Value}
  {p : Procedure} {vs : List Value}

theorem Opens.literals (h : Opens ρ e next frame) :
    next.literals ⊆ e.literals ∧ frame.values ⊆ e.literals := by
  cases h <;> simp [Expression.literals, values]

theorem Continues.literals (h : Continues ρ v frame next frame') :
    next.literals ⊆ frame.values ∧ frame'.values ⊆ v :: frame.values := by
  cases h with
  | operator hv => simp [hv, values, allLiterals]
  | operand =>
    constructor
    · intro u hu
      simp [values, allLiterals, hu]
    · intro u hu
      simp only [values, allLiterals, List.mem_cons, List.mem_append] at hu ⊢
      tauto
  | sequence =>
    constructor
    · intro u hu
      simp [values, allLiterals, hu]
    · intro u hu
      simp only [values, allLiterals, List.mem_cons, List.mem_append] at hu ⊢
      tauto

theorem ComesTo.literals (h : ComesTo ρ v frame e) : e.literals ⊆ frame.values := by
  cases h <;> simp [values, allLiterals]

theorem Answers.value (h : Answers v frame v') : v' = .void ∨ v' = v := by
  cases h
  · exact .inl rfl
  · exact .inr rfl

theorem Calls.values (h : Calls v frame p vs) : .procedure p :: vs ⊆ v :: frame.values := by
  cases h with
  | operator hv => simp [hv]
  | operand =>
    intro u hu
    simp only [Continuation.values, List.mem_cons, List.mem_reverse, List.mem_append] at hu ⊢
    tauto

end Continuation

def Control.Refers : Control → Object → Prop
  | evaluate e ρ, o => o = .scope ρ ∨ ∃ v ∈ e.literals, v.Refers o
  | deliver v, o => v.Refers o

def State.Refers (s : State) (o : Object) : Prop :=
  s.control.Refers o ∨ ∃ frame ∈ s.stack.frames, frame.Refers o

/-- The state has come about by confined work and has nothing else at hand. -/
structure State.Confined (s : State) (base : Object → Prop) (start : Store) : Prop where
  store : start.Confined base s.world.store
  control : ∀ o, s.control.Refers o → Territory base start s.world.store o
  frames : ∀ frame ∈ s.stack.frames, ∀ o, frame.Refers o → Territory base start s.world.store o

variable {base : Object → Prop} {start : Store} {w w' : World} {vs : List Value} {v r : Value}

theorem State.Confined.refers {s : State} (h : s.Confined base start) {o : Object}
    (ho : s.Refers o) : Territory base start s.world.store o := by
  rcases ho with ho | ⟨frame, hmem, ho⟩
  · exact h.control o ho
  · exact h.frames frame hmem o ho

/-! Primitives and calls. -/

theorem World.yields_display (h : start.Confined base w.store)
    (hr : w.display vs = (.ok r, w')) : w.store.Yields base start [r] w'.store := by
  unfold World.display at hr
  split at hr
  · cases hr
  · dsimp only at hr
    split at hr <;> cases hr
    exact .plain h rfl nofun

theorem World.yields_cons (h : start.Confined base w.store)
    (hvs : ∀ v ∈ vs, v.Within (Territory base start w.store))
    (hr : w.cons vs = (.ok r, w')) : w.store.Yields base start [r] w'.store := by
  unfold World.cons at hr
  split at hr
  · cases hr
  · rename_i car cdr htwo
    unfold two at htwo
    split at htwo <;> cases htwo
    cases hr
    exact .cons h (hvs car (by simp)) (hvs cdr (by simp))

theorem World.yields_pairAt (h : start.Confined base w.store)
    (hvs : ∀ v ∈ vs, v.Within (Territory base start w.store)) {part : CellRef → Value}
    (hpart : ∀ ref, part ref = w.store.car ref ∨ part ref = w.store.cdr ref)
    (hr : (one vs >>= Value.asPair >>= fun ref => .ok (part ref)) = .ok r) :
    w.store.Yields base start [r] w.store := by
  obtain ⟨ref, hpair, hr⟩ := bind_eq_ok_iff.mp hr
  obtain ⟨v, hone, hpair⟩ := bind_eq_ok_iff.mp hpair
  have hv : v ∈ vs := by
    unfold one at hone
    split at hone <;> cases hone
    exact List.mem_singleton_self _
  have href : v = .pair ref := by
    unfold Value.asPair at hpair
    split at hpair <;> cases hpair
    rfl
  cases hr
  subst href
  obtain ⟨hcar, hcdr⟩ := h.pairAt (hvs _ hv _ .pair)
  refine .refl h (List.forall_mem_singleton.mpr ?_)
  rcases hpart ref with hp | hp
  · exact hp ▸ hcar
  · exact hp ▸ hcdr

theorem World.yields_host {operation : HostOperation} (h : start.Confined base w.store)
    (hvs : ∀ v ∈ vs, v.Within (Territory base start w.store))
    (hr : w.host operation vs = (.ok r, w')) : w.store.Yields base start [r] w'.store := by
  unfold World.host at hr
  split at hr <;> cases hr
  rename_i hrun
  obtain ⟨us, hbuilds, hmem⟩ := operation.builds hrun
  exact (Store.Yields.builds h hvs hbuilds).of_subset (by simpa using hmem)

theorem Operation.yields {operation : Operation} (h : start.Confined base w.store)
    (hvs : ∀ v ∈ vs, v.Within (Territory base start w.store))
    (hr : operation.apply vs w = (.ok r, w')) : w.store.Yields base start [r] w'.store := by
  cases operation with
  | add | multiply | subtract | divide =>
    obtain ⟨hresult, rfl⟩ := Prod.mk.inj hr
    obtain ⟨x, -, hx⟩ := bind_eq_ok_iff.mp hresult
    cases hx
    exact .plain h rfl nofun
  | numericEqual =>
    obtain ⟨hresult, rfl⟩ := Prod.mk.inj hr
    obtain ⟨⟨a, b⟩, -, hpair⟩ := bind_eq_ok_iff.mp hresult
    obtain ⟨x, -, hx⟩ := bind_eq_ok_iff.mp hpair
    obtain ⟨y, -, hy⟩ := bind_eq_ok_iff.mp hx
    cases hy
    exact .plain h rfl nofun
  | cons => exact World.yields_cons h hvs hr
  | car =>
    obtain ⟨hresult, rfl⟩ := Prod.mk.inj hr
    exact World.yields_pairAt h hvs (fun _ => .inl rfl) hresult
  | cdr =>
    obtain ⟨hresult, rfl⟩ := Prod.mk.inj hr
    exact World.yields_pairAt h hvs (fun _ => .inr rfl) hresult
  | display => exact World.yields_display h hr
  | exit => cases hr
  | host => exact World.yields_host h hvs hr

theorem Primitive.yields {primitive : Primitive} (h : start.Confined base w.store)
    (hvs : ∀ v ∈ vs, v.Within (Territory base start w.store))
    (hr : primitive.call vs w = (.ok r, w')) : w.store.Yields base start [r] w'.store := by
  unfold call at hr
  split at hr
  · cases hr
  · exact Operation.yields h hvs hr

theorem Closure.yields {closure : Closure} {s s' : Store} {ρ : ScopeRef}
    (h : start.Confined base s) (hscope : Territory base start s (.scope closure.environment))
    (hvs : ∀ v ∈ vs, v.Within (Territory base start s))
    (hr : closure.newCallScope vs s = (.ok ρ, s')) :
    s.Yields base start [] s' ∧ Territory base start s' (.scope ρ) := by
  have hnew : s.Yields base start [] (s.newScope (some closure.environment)).2 := by
    refine ⟨.newScope s _, h.newScope ?_, nofun⟩
    rintro _ ⟨⟩
    exact hscope
  have href := h.territory_newScope (some closure.environment)
  have heach := Store.Yields.defineEach hnew.confined href
    (fun v hv => (hvs v hv).mono fun o => .mono hnew.grown) closure.formals.parameters
  have hparameters := hnew.trans heach
  have href := href.mono heach.grown
  obtain ⟨-, rfl, ⟨-, rfl⟩ | ⟨rest, -, rfl⟩⟩ := newCallScope_cases hr
  · exact ⟨hparameters, href⟩
  · have hlate : ∀ v ∈ vs.drop closure.formals.parameters.length,
        v.Within (Territory base start _) :=
      fun v hv => (hvs v (List.mem_of_mem_drop hv)).mono fun o => .mono hparameters.grown
    have hlist := Store.Yields.list hparameters.confined hlate (v := .null) nofun
    have href := href.mono hlist.grown
    have hdefine := Store.Yields.define hlist.confined href
      (hlist.within _ (List.mem_singleton_self _)) rest
    exact ⟨hparameters.trans (.trans (hlist.of_subset nofun) hdefine), href.mono hdefine.grown⟩

namespace State

variable {limit : Option Nat} {s t : State} {stack : Stack} {ρ : ScopeRef} {e : Expression}

/-- A transition keeps to the territory, and the store only grows. -/
theorem Confined.transition (h : s.Confined base start) (ht : Transition s t) :
    t.Confined base start ∧ s.world.store.Grown t.world.store := by
  obtain ⟨hs, hc, hf⟩ := h
  -- What is at hand in the popped stack stays in the territory while the store grows.
  have hrest : ∀ {frame : Continuation} {stack : Stack} {s' : Store},
      s.stack = stack.push frame → s.world.store.Grown s' →
      ∀ frame ∈ stack.frames, ∀ o, frame.Refers o → Territory base start s' o := by
    intro frame stack s' heq hgrown frame' hmem o ho
    refine (hf frame' ?_ o ho).mono hgrown
    rw [heq, Stack.push_frames]
    exact .tail _ hmem
  cases ht with
  | literal =>
    exact ⟨⟨hs, fun o ho => hc o (.inr ⟨_, List.mem_singleton_self _, ho⟩), hf⟩, .refl _⟩
  | reference hv => exact ⟨⟨hs, hs.lookup (hc _ (.inl rfl)) hv, hf⟩, .refl _⟩
  | @lambda w formals body ρ stack =>
    have hnew : w.store.Yields base start [(w.store.newClosure ⟨ρ, formals, body⟩).1]
        (w.store.newClosure ⟨ρ, formals, body⟩).2 :=
      .newClosure hs (hc _ (.inl rfl)) fun v hv o ho => hc o (.inr ⟨v, hv, ho⟩)
    refine ⟨⟨hnew.confined, hnew.within _ (List.mem_singleton_self _), ?_⟩, hnew.grown⟩
    exact fun frame hmem o ho => (hf frame hmem o ho).mono hnew.grown
  | opens ho =>
    obtain ⟨hnext, hframe⟩ := ho.literals
    refine ⟨⟨hs, ?_, List.forall_mem_cons.mpr ⟨?_, hf⟩⟩, .refl _⟩
    · rintro o (rfl | ⟨v, hv, ho⟩)
      · exact hc _ (.inl rfl)
      · exact hc o (.inr ⟨v, hnext hv, ho⟩)
    · rintro o (rfl | ⟨v, hv, hr⟩)
      · exact hc _ (.inl (by rw [ho.environment_eq]))
      · exact hc o (.inr ⟨v, hframe hv, hr⟩)
  | sequence => exact ⟨⟨hs, nofun, List.forall_mem_cons.mpr ⟨hc, hf⟩⟩, .refl _⟩
  | @define w v name ρ stack =>
    have hnew := Store.Yields.define hs (hf _ (.head _) _ (.inl rfl)) hc name
    exact ⟨⟨hnew.confined, nofun, hrest rfl hnew.grown⟩, hnew.grown⟩
  | @assign w v name ρ scope stack hresolve =>
    have hscope := hs.resolve (hf _ (.head _) _ (.inl rfl)) hresolve
    have hnew := Store.Yields.define hs hscope hc name
    exact ⟨⟨hnew.confined, nofun, hrest rfl hnew.grown⟩, hnew.grown⟩
  | @continues w v next ρ stack frame frame' hk =>
    obtain ⟨hnext, hframe⟩ := hk.literals
    obtain ⟨henv, henv'⟩ := hk.environment_eq
    have hscope := hf _ (.head _) (.scope ρ) (.inl (by rw [henv]))
    refine ⟨⟨hs, ?_, List.forall_mem_cons.mpr ⟨?_, hrest rfl (.refl _)⟩⟩, .refl _⟩
    · rintro o (rfl | ⟨u, hu, ho⟩)
      · exact hscope
      · exact hf _ (.head _) o (.inr ⟨u, hnext hu, ho⟩)
    · rintro o (rfl | ⟨u, hu, ho⟩)
      · exact henv' ▸ hscope
      · rcases List.mem_cons.mp (hframe hu) with rfl | hu
        · exact hc o ho
        · exact hf _ (.head _) o (.inr ⟨u, hu, ho⟩)
  | comesTo hk =>
    refine ⟨⟨hs, ?_, hrest rfl (.refl _)⟩, .refl _⟩
    rintro o (rfl | ⟨u, hu, ho⟩)
    · exact hf _ (.head _) _ (.inl (by rw [hk.environment_eq]))
    · exact hf _ (.head _) o (.inr ⟨u, hk.literals hu, ho⟩)
  | answers hk =>
    refine ⟨⟨hs, ?_, hrest rfl (.refl _)⟩, .refl _⟩
    rcases hk.value with rfl | rfl
    · exact nofun
    · exact hc
  | @primitive w w' v r vs stack frame ref hk hcall =>
    have hvs : ∀ u ∈ v :: frame.values, u.Within (Territory base start w.store) :=
      List.forall_mem_cons.mpr ⟨hc, fun u hu o ho => hf _ (.head _) o (.inr ⟨u, hu, ho⟩)⟩
    have hnew := Primitive.yields hs (fun u hu => hvs u (hk.values (.tail _ hu))) hcall
    exact ⟨⟨hnew.confined, hnew.within _ (List.mem_singleton_self _), hrest rfl hnew.grown⟩,
      hnew.grown⟩
  | @closure w v vs stack frame ref ρ s' hk hcall =>
    have hvs : ∀ u ∈ v :: frame.values, u.Within (Territory base start w.store) :=
      List.forall_mem_cons.mpr ⟨hc, fun u hu o ho => hf _ (.head _) o (.inr ⟨u, hu, ho⟩)⟩
    have hclosure := hvs _ (hk.values (.head _)) _ .closure
    obtain ⟨hnew, hscope⟩ := Closure.yields hs (hs.leads _ _ hclosure .environment)
      (fun u hu => hvs u (hk.values (.tail _ hu))) hcall
    refine ⟨⟨hnew.confined, ?_, hrest rfl hnew.grown⟩, hnew.grown⟩
    rintro o (rfl | ⟨u, hu, ho⟩)
    · exact hscope
    · exact (hs.leads _ _ hclosure (.value (.literal hu) ho)).mono hnew.grown

theorem Confined.initial {w : World} (h : start.Confined base w.store)
    (hscope : Territory base start w.store (.scope ρ))
    (he : ∀ v ∈ e.literals, v.Within (Territory base start w.store)) :
    (State.initial w e ρ).Confined base start := by
  refine ⟨h, ?_, nofun⟩
  rintro o (rfl | ⟨v, hv, ho⟩)
  · exact hscope
  · exact he v hv o ho

end State

def Run.store : Run → Store
  | finished _ w => w.store
  | unfinished s => s.world.store

def Run.Refers : Run → Object → Prop
  | finished (.ok v) _, o => v.Refers o
  | finished (.error _) _, _ => False
  | unfinished s, o => s.Refers o

structure Run.Confined (run : Run) (base : Object → Prop) (start : Store) : Prop where
  store : start.Confined base run.store
  refers : ∀ o, run.Refers o → Territory base start run.store o

namespace State

variable {limit : Option Nat} {s : State} {r : Except EvalError Value} {w : World}

theorem Confined.halt (h : s.Confined base start) (hs : s.step limit = .halt r w) :
    (Run.finished r w).Confined base start := by
  rcases halt_cases hs with ⟨v, rfl, rfl⟩ | ⟨⟨err, rfl⟩, rfl⟩
  · exact ⟨h.store, h.control⟩
  · exact ⟨h.store, nofun⟩

/-- A run keeps to the territory, whether it stops or not. -/
theorem Confined.run (h : s.Confined base start) (limit : Option Nat) (n : Nat) :
    (s.run limit n).Confined base start ∧ s.world.store.Grown (s.run limit n).store := by
  induction n generalizing s with
  | zero => exact ⟨⟨h.store, fun o => h.refers⟩, .refl _⟩
  | succ n ih =>
    cases hs : s.step limit with
    | next t =>
      obtain ⟨ht, hgrown⟩ := h.transition (transition_of_step hs)
      obtain ⟨hrun, hgrown'⟩ := ih ht
      rw [run_succ_of_next hs]
      exact ⟨hrun, hgrown.trans hgrown'⟩
    | halt r w =>
      have hstore : w.store = s.world.store := store_of_halt hs
      rw [run_succ_of_halt hs]
      exact ⟨h.halt hs, hstore ▸ .refl _⟩

end State

end SmallScheme
