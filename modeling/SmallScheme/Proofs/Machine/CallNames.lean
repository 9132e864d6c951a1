import SmallScheme.Proofs.Machine.Pending
import SmallScheme.Proofs.Machine.TailPosition

/-! # The names of a call

The scope of a call gets the names of the formals and those that the definitions at the start of the
body introduce. When the evaluation of the body comes to anything else, these are all, and they stay
all for good: no other code defines names in that scope.
-/

namespace SmallScheme

open Expression Continuation

variable {root ρ : ScopeRef} {limit : Option Nat} {s₀ s t u : State} {w : World}
  {body m : Expression} {base : Stack} {frame : Continuation} {v : Value} {vs : List Value}
  {p : Procedure} {j k n : Nat} {closure : Closure} {before : List Expression}
  {names : List Symbol}

theorem Continuation.Calls.resume (h : Calls v frame p vs) (limit : Option Nat) (w : World)
    (stack : Stack) : State.resume limit w stack v frame = State.invoke w stack p vs := by
  cases h with
  | operator hv =>
    subst hv
    rfl
  | operand => rfl

theorem Continuation.targets_eq_nil (h : frame.environment ≠ ρ) : frame.targets ρ = [] := by
  cases frame with
  | define name ρ' => exact if_neg h
  | sequence members ρ' => exact if_neg h
  | _ => rfl

theorem Expression.targets_eq_nil (hd : m.isDefinition = false) (hm : ∀ es, m ≠ .sequence es) :
    m.targets = [] := by
  cases m with
  | define => cases hd
  | sequence es => exact (hm es rfl).elim
  | _ => rfl

/-- After so many steps the machine calls a closure, in a new scope. -/
inductive Invocation (limit : Option Nat) (s₀ : State) : Nat → Closure → ScopeRef → Prop

  | mk {j : Nat} {w : World} {v : Value} {stack : Stack} {frame : Continuation}
      {ref : ClosureRef} {vs : List Value} {ρ : ScopeRef} {s : Store} :
      s₀.run limit j = .unfinished ⟨w, .deliver v, stack.push frame⟩ →
      Calls v frame (.closure ref) vs →
      (w.store.closureAt ref).newCallScope vs w.store = (.ok ρ, s) →
      Invocation limit s₀ j (w.store.closureAt ref) ρ

/-- A member of the body that is entered after `j` steps, with sequences looked through. -/
inductive BodyMember (limit : Option Nat) (s₀ : State) (j : Nat) (body : Expression) :
    Nat → Expression → List Expression → Prop

  | body : BodyMember limit s₀ j body j body []

  | member {k n : Nat} {m : Expression} {before es₁ es₂ : List Expression} {s : State}
      {a : Activity} {as : List Activity} {v : Value} :
      BodyMember limit s₀ j body k (.sequence (es₁ ++ m :: es₂)) before →
      Trace limit s₀ n s (a :: as) → a.start = k → a.received.length = es₁.length →
      s.control = .deliver v → BodyMember limit s₀ j body (n + 1) m (before ++ es₁)

theorem Trace.start_lt {as : List Activity} (h : Trace limit s₀ n s as) :
    ∀ a ∈ as, a.start < n := by
  induction h with
  | start => nofun
  | @step k s t as _ _ ih =>
    have older : ∀ a ∈ as, a.start < k + 1 := fun a ha => Nat.lt_succ_of_lt (ih a ha)
    intro a ha
    cases hc : s.control with
    | evaluate e ρ =>
      rw [hc, Activity.follow] at ha
      split at ha
      · exact older a ha
      · rcases List.mem_cons.mp ha with rfl | ha
        · exact Nat.lt_succ_self k
        · exact older a ha
    | deliver v =>
      rw [hc] at ha
      cases as with
      | nil => cases ha
      | cons b as =>
        rw [Activity.follow] at ha
        split at ha
        · rcases List.mem_cons.mp ha with rfl | ha
          · exact older b (.head _)
          · exact older a (.tail _ ha)
        · exact older a (.tail _ ha)

theorem BodyMember.le (h : BodyMember limit s₀ j body k m before) : j ≤ k := by
  induction h with
  | body => exact le_rfl
  | member _ ht ha _ _ ih =>
    have := ht.start_lt _ (.head _)
    omega

theorem BodyMember.stack_eq (hs₀ : s₀.stack = .empty)
    (hj : s₀.run limit j = .unfinished ⟨w, .evaluate body ρ, base⟩)
    (h : BodyMember limit s₀ j body k m before) (hk : s₀.run limit k = .unfinished u) :
    u.control = .evaluate m ρ ∧ ∃ waiting : List (List Expression),
      u.stack.frames = waiting.map (.sequence · ρ) ++ base.frames ∧
      body.targets = allTargets before ++ m.targets ++ waiting.flatMap allTargets := by
  induction h generalizing u with
  | body =>
    cases hj.symm.trans hk
    exact ⟨rfl, [], rfl, by simp⟩
  | @member k n m before es₁ es₂ s a as v _ htrace ha hlength hc ih =>
    obtain ⟨hn, hstacked⟩ := htrace.stacked hs₀
    obtain ⟨s', hn', hstep⟩ := State.run_succ_iff.mp hk
    cases hn.symm.trans hn'
    obtain ⟨w', control, top⟩ := s
    subst hc
    rcases top.eq_empty_or_push with rfl | ⟨stack, frame, rfl⟩
    · cases hstacked
    obtain ⟨a', as', w₁, has, hw, -, hstart⟩ := hstacked.top
    obtain ⟨rfl, -⟩ := List.cons_eq_cons.mp has
    obtain ⟨hcontrol, waiting, hframes, htargets⟩ := ih (ha ▸ hstart)
    obtain ⟨hexpression, henvironment⟩ := Control.evaluate.inj hcontrol
    rw [State.step_deliver] at hstep
    cases hw with
    | sequence hbefore =>
      subst henvironment
      obtain ⟨rfl, rfl⟩ := List.append_inj (Expression.sequence.inj hexpression)
        (hbefore.trans hlength)
      rw [Expression.targets, allTargets_append, allTargets_cons] at htargets
      cases es₂ with
      | nil =>
        cases hstep
        exact ⟨rfl, waiting, hframes, by simp [htargets, allTargets_append]⟩
      | cons next rest =>
        rw [State.under_next hstep]
        exact ⟨rfl, (next :: rest) :: waiting, congrArg (List.cons _) hframes,
          by simp [htargets, allTargets_append]⟩
    | _ => cases hexpression

/-- The names that a scope has and those that are still to be defined in it. -/
structure State.Foresees (root ρ : ScopeRef) (names : List Symbol) (s : State) : Prop where
  lawful : s.Lawful root
  orderly : s.Orderly ρ
  scope_lt : ρ.index < s.world.store.scopes.size
  names_eq : (s.pending ρ).foldl addName (s.world.store.names ρ) = names

theorem Transition.size_le (h : Transition s t) :
    s.world.store.scopes.size ≤ t.world.store.scopes.size := by
  cases h with
  | define => exact (Store.size_define ..).ge
  | assign => exact (Store.size_define ..).ge
  | @primitive w w' v r vs stack frame ref _ hcall =>
    have hcells := (w.store.primitiveAt ref).sameButCells vs w
    rw [hcall] at hcells
    exact hcells.scopes ▸ le_rfl
  | closure _ hcall =>
    have hsize := (Closure.enters hcall).size
    exact hsize ▸ Nat.le_succ _
  | _ => exact le_rfl

theorem State.Foresees.run (h : s.Foresees root ρ names) (hroot : ρ ≠ root)
    (hn : s.run limit n = .unfinished t) : t.Foresees root ρ names := by
  induction n generalizing t with
  | zero =>
    cases hn
    exact h
  | succ n ih =>
    obtain ⟨u, hu, hstep⟩ := State.run_succ_iff.mp hn
    obtain ⟨hlawful, horderly, hlt, hnames⟩ := ih hu
    have ht := State.transition_of_step hstep
    refine ⟨hlawful.transition ht, horderly.transition hroot hlawful ht,
      hlt.trans_le ht.size_le, ?_⟩
    rcases hlawful.pending_transition hlt ht with ⟨hpending, hsame⟩ | ⟨name, hpending, hadd⟩
    · rw [hpending, hsame, hnames]
    · rw [hpending, List.foldl_cons] at hnames
      rw [hadd, hnames]

/-- The scope has these names, and no definition in it is pending. -/
structure Moment.Settled (root ρ : ScopeRef) (names : List Symbol) (moment : Moment) : Prop where
  lawful : moment.Lawful root
  scope_lt : ρ.index < moment.store.scopes.size
  names_eq : moment.store.names ρ = names
  pending : ∀ s, moment = .during s → s.pending ρ = []

theorem Moment.Settled.of_sameButCells {moment : Moment} {w : World}
    (h : moment.Settled root ρ names) (hcells : moment.store.SameButCells w.store)
    (hw : w.store.Lawful root) : (Moment.between w).Settled root ρ names := by
  refine ⟨hw, ?_, ?_, nofun⟩
  · rw [Moment.store, hcells.scopes]
    exact h.scope_lt
  · rw [Moment.store, Store.names, Store.scopeAt, hcells.scopes]
    exact h.names_eq

theorem Moment.Settled.follows {moment moment' : Moment} (h : moment.Settled root ρ names)
    (hroot : ρ ≠ root) (hm : Follows root moment moment') : moment'.Settled root ρ names := by
  have hlawful := h.lawful.follows hm
  cases hm with
  | data hcells => exact h.of_sameButCells hcells hlawful
  | program =>
    refine ⟨hlawful, h.scope_lt, h.names_eq, ?_⟩
    rintro _ ⟨⟩
    simp [State.initial, Stack.empty, hroot.symm]
  | step hstep =>
    have ht := State.transition_of_step hstep
    have hs := h.pending _ rfl
    rcases State.Lawful.pending_transition h.lawful h.scope_lt ht with
      ⟨hpending, hsame⟩ | ⟨name, hpending, -⟩
    · refine ⟨hlawful, h.scope_lt.trans_le ht.size_le, hsame.trans h.names_eq, ?_⟩
      rintro _ ⟨⟩
      rw [hpending, hs]
    · cases hs.symm.trans hpending
  | halt hstep => exact h.of_sameButCells (State.sameButCells_of_halt hstep) hlawful

/-- A scope whose definitions are all done keeps its names for the rest of the session. -/
theorem Moment.Settled.session {moment moment' : Moment} (h : moment.Settled root ρ names)
    (hroot : ρ ≠ root) (hm : Session root moment moment') : moment'.Settled root ρ names := by
  induction hm with
  | refl => exact h
  | tail _ hstep ih => exact ih.follows hroot hstep

theorem State.Orderly.run (h : s.Orderly ρ) (hroot : ρ ≠ root) (hs : s.Lawful root)
    (hn : s.run limit n = .unfinished t) : t.Orderly ρ := by
  induction n generalizing t with
  | zero =>
    cases hn
    exact h
  | succ n ih =>
    obtain ⟨u, hu, hstep⟩ := State.run_succ_iff.mp hn
    have hlawful : u.Lawful root :=
      Moment.Lawful.session (m := .during s) hs (.of_run_unfinished hu)
    exact (ih hu).transition hroot hlawful (State.transition_of_step hstep)

theorem Invocation.foresees (hs₀ : s₀.Lawful root) (horderly : ∀ ρ, s₀.Orderly ρ)
    (h : Invocation limit s₀ j closure ρ) : ρ ≠ root ∧ ∃ w stack,
      s₀.run limit (j + 1) = .unfinished ⟨w, .evaluate closure.body ρ, stack⟩ ∧
      (∀ frame ∈ stack.frames, frame.environment ≠ ρ) ∧
      State.Foresees root ρ (closure.formals.names ++ closure.body.targets).eraseDups
        ⟨w, .evaluate closure.body ρ, stack⟩ := by
  obtain ⟨hj, hcalls, hscope⟩ := h
  rename_i w v stack frame ref vs s
  have hlawful : State.Lawful root ⟨w, .deliver v, stack.push frame⟩ :=
    Moment.Lawful.session (m := .during s₀) hs₀ (.of_run_unfinished hj)
  have henters := Closure.enters hscope
  have hroot : ρ ≠ root := by
    rintro rfl
    exact Nat.lt_irrefl _ (henters.index ▸ hlawful.store.root_lt)
  have hframes : ∀ frame ∈ stack.frames, frame.environment ≠ ρ := by
    rintro frame hmem rfl
    exact Nat.lt_irrefl _ (henters.index ▸ (hlawful.frames frame (.tail _ hmem)).2)
  have hstep : State.step limit ⟨w, .deliver v, stack.push frame⟩ =
      .next ⟨⟨s, w.output⟩, .evaluate (w.store.closureAt ref).body ρ, stack⟩ := by
    rw [State.step_deliver, hcalls.resume, State.invoke_closure hscope]
  have ht := State.transition_of_step hstep
  refine ⟨hroot, _, stack, State.run_succ_iff.mpr ⟨_, hj, hstep⟩, hframes,
    hlawful.transition ht, ?_, ?_, ?_⟩
  · exact ((horderly ρ).run hroot hs₀ hj).transition hroot hlawful ht
  · exact henters.index ▸ henters.size ▸ Nat.lt_succ_self _
  · have hpending : stack.frames.flatMap (·.targets ρ) = [] :=
      List.flatMap_eq_nil_iff.mpr fun frame hmem => targets_eq_nil (hframes frame hmem)
    rw [State.pending_evaluate, if_pos rfl, hpending, List.append_nil, henters.names,
      ← foldl_addName, ← List.foldl_append, foldl_addName]

/-- Behind the definitions of a body, the names of its scope are settled. -/
theorem Invocation.settled (hs₀ : s₀.Lawful root) (horderly : ∀ ρ, s₀.Orderly ρ)
    (hempty : s₀.stack = .empty) (hcall : Invocation limit s₀ j closure ρ)
    (hmember : BodyMember limit s₀ (j + 1) closure.body k m before)
    (hdefinition : m.isDefinition = false) (hleaf : ∀ es, m ≠ .sequence es)
    (hk : s₀.run limit k = .unfinished u) : ρ ≠ root ∧
      (Moment.during u).Settled root ρ (closure.formals.names ++ allTargets before).eraseDups := by
  obtain ⟨hroot, w, base, hj, hbase, hforesees⟩ := hcall.foresees hs₀ horderly
  obtain ⟨hcontrol, waiting, hstack, htargets⟩ := hmember.stack_eq hempty hj hk
  obtain ⟨hlawful, horderly, hlt, hnames⟩ := hforesees.run hroot (n := k - (j + 1)) (by
    rw [← State.run_add hj, Nat.add_sub_of_le hmember.le, hk])
  have hm : m.targets = [] := targets_eq_nil hdefinition hleaf
  have hsource : ∀ name, .define name ρ ∉ u.stack.frames := by
    rintro name hmem
    rw [hstack] at hmem
    rcases List.mem_append.mp hmem with hmem | hmem
    · obtain ⟨es, -, hes⟩ := List.mem_map.mp hmem
      cases hes
    · exact hbase _ hmem rfl
  have hquiet := (horderly.control m ρ hcontrol).resolve_left (by simp [hdefinition])
  have hframes := hquiet.targets_eq_nil hsource
  have hpending : u.pending ρ = [] := by
    rw [State.pending, hframes, hcontrol]
    simp [Control.targets, hm]
  have hwaiting : waiting.flatMap allTargets = [] := by
    rw [hstack, List.flatMap_append, List.flatMap_map] at hframes
    simpa [Continuation.targets] using (List.append_eq_nil_iff.mp hframes).1
  rw [hpending, List.foldl_nil, htargets, hm, hwaiting, List.append_nil, List.append_nil] at hnames
  refine ⟨hroot, hlawful, hlt, hnames, ?_⟩
  rintro _ ⟨⟩
  exact hpending

theorem State.no_definition_of_pending (h : s.pending ρ = []) :
    (∀ name source, s.control ≠ .evaluate (.define name source) ρ) ∧
      ∀ name, .define name ρ ∉ s.stack.frames := by
  obtain ⟨hcontrol, hframes⟩ := List.append_eq_nil_iff.mp h
  constructor
  · intro name source hc
    rw [hc] at hcontrol
    simp [Control.targets, Expression.targets] at hcontrol
  · intro name hmem
    have hname := List.flatMap_eq_nil_iff.mp hframes _ hmem
    simp [Continuation.targets] at hname

/-- Once a body comes to a member that defines nothing, the names of its scope stay as they are. -/
theorem Session.call_names_fixed {w : World} {v : Value} {e : Expression} {limit : Option Nat}
    {j k : Nat} {closure : Closure} {ρ : ScopeRef} {m : Expression} {before : List Expression}
    {u : State} {moment : Moment}
    (hsession : Session World.withPrelude.1 (.between World.withPrelude.2) (.between w))
    (hparse : w.store.parse v = .ok e)
    (hcall : Invocation limit (.initial w e World.withPrelude.1) j closure ρ)
    (hmember : BodyMember limit (.initial w e World.withPrelude.1) (j + 1) closure.body k m before)
    (hdefinition : m.isDefinition = false) (hleaf : ∀ es, m ≠ .sequence es)
    (hk : (State.initial w e World.withPrelude.1).run limit k = .unfinished u)
    (hlater : Session World.withPrelude.1 (.during u) moment) :
    moment.store.names ρ = (closure.formals.parameters ++ closure.formals.rest.toList ++
        allTargets before).eraseDups ∧
      ∀ s, moment = .during s →
        (∀ name source, s.control ≠ .evaluate (.define name source) ρ) ∧
        ∀ name, .define name ρ ∉ s.stack.frames := by
  have hs₀ := State.Lawful.initial (Moment.lawful_prelude.session hsession) hparse
  obtain ⟨hroot, hsettled⟩ := hcall.settled hs₀ (State.Orderly.initial w e · _) rfl hmember
    hdefinition hleaf hk
  obtain ⟨-, -, hnames, hpending⟩ := hsettled.session hroot hlater
  exact ⟨hnames, fun s hs => State.no_definition_of_pending (hpending s hs)⟩

theorem Session.call_names_fixed_sequence :
    let symbol : String → Datum := fun name => .atom (.symbol ⟨name⟩)
    let truth : Datum := .atom (.boolean true)
    let definition : String → Datum := fun name => .list [symbol "define", symbol name, truth] .null
    let d := Datum.list [.list [symbol "lambda", .list [symbol "x"] (symbol "r"),
      .list [symbol "begin", definition "y", definition "x"] .null, truth] .null, truth] .null
    let w := (World.withPrelude.2.load d).2
    let define : String → Expression := fun name => .define ⟨name⟩ (.literal (.ofBool true))
    let before : Expression := .sequence [define "y", define "x"]
    let body : Expression := .sequence [before, .literal (.ofBool true)]
    let e : Expression := .call (.lambda ⟨[⟨"x"⟩], some ⟨"r"⟩⟩ body) [.literal (.ofBool true)]
    let s₀ := State.initial w e World.withPrelude.1
    w.store.parse (World.withPrelude.2.load d).1 = .ok e ∧
      ∃ u, s₀.run none 17 = .unfinished u ∧ u.control = .evaluate (.literal (.ofBool true)) ⟨1⟩ ∧
        ∀ moment, Session World.withPrelude.1 (.during u) moment →
          moment.store.names ⟨1⟩ = [⟨"x"⟩, ⟨"r"⟩, ⟨"y"⟩] := by
  intro symbol truth definition d w define before body e s₀
  have hparse : w.store.parse (World.withPrelude.2.load d).1 = .ok e := rfl
  have hsession : Session World.withPrelude.1 (.between World.withPrelude.2) (.between w) :=
    .single (.data (sameButCells_load _ d))
  have called : Trace none s₀ 4 _ _ := .step (.step (.step (.step .start rfl) rfl) rfl) rfl
  have entered : Trace none s₀ 8 _ _ := .step (.step (.step (.step called rfl) rfl) rfl) rfl
  have first : Trace none s₀ 12 _ _ := .step (.step (.step (.step entered rfl) rfl) rfl) rfl
  have second : Trace none s₀ 16 _ _ := .step (.step (.step (.step first rfl) rfl) rfl) rfl
  have hcall : Invocation none s₀ 4 ⟨World.withPrelude.1, ⟨[⟨"x"⟩], some ⟨"r"⟩⟩, body⟩ ⟨1⟩ :=
    .mk (called.stacked rfl).1 .operand rfl
  have hbody : BodyMember none s₀ 5 body 5
      (.sequence ([before] ++ [.literal (.ofBool true)])) [] := .body
  have hmember : BodyMember none s₀ 5 body 17 (.literal (.ofBool true)) [before] :=
    .member hbody second rfl rfl rfl
  have hlast : Trace none s₀ 17 _ _ := .step second rfl
  refine ⟨hparse, _, (hlast.stacked rfl).1, rfl, fun moment hlater => ?_⟩
  exact (call_names_fixed hsession hparse hcall hmember rfl nofun (hlast.stacked rfl).1 hlater).1

end SmallScheme
