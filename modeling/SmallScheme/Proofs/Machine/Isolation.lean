import SmallScheme.Proofs.Expression.Definitions
import SmallScheme.Proofs.Machine.Confinement

/-! # Isolated environments

A program comes by nothing but what its environment leads to and what it creates. A new prelude
leads to nothing but itself, so whatever is evaluated in it leaves all other environments alone.
-/

namespace SmallScheme

open Expression

variable {base : Object → Prop} {start s : Store} {v tail : Value} {items : List Value}

/-! The literals of parsed code come from the value that is parsed. -/

theorem Chain.within (h : start.Confined base s) (hc : Chain s v items tail)
    (hv : v.Within (Territory base start s)) :
    (∀ u ∈ items, u.Within (Territory base start s)) ∧ tail.Within (Territory base start s) := by
  induction hc with
  | nil => exact ⟨nofun, hv⟩
  | cons _ ih =>
    obtain ⟨hcar, hcdr⟩ := h.pairAt (hv _ .pair)
    obtain ⟨hitems, htail⟩ := ih hcdr
    exact ⟨List.forall_mem_cons.mpr ⟨hcar, hitems⟩, htail⟩

theorem Chain.operands_within {head : Value} (h : start.Confined base s)
    (hc : Chain s v (head :: items) tail) (hv : v.Within (Territory base start s)) :
    ∀ u ∈ items, u.Within (Territory base start s) :=
  fun u hu => (hc.within h hv).1 u (.tail _ hu)

mutual

theorem Expresses.within (h : start.Confined base s) : ∀ {context : Context} {v : Value}
    {e : Expression}, Expresses s context v e → v.Within (Territory base start s) →
    ∀ u ∈ e.literals, u.Within (Territory base start s)
  | _, _, _, .reference, _ => nofun
  | _, _, _, .literal .., hv => List.forall_mem_singleton.mpr hv
  | _, _, _, .quotation hc, hv => hc.operands_within h hv
  | _, _, _, .ifOnly hc he he₁, hv => by
    have hparts := hc.operands_within h hv
    exact List.forall_mem_append.mpr ⟨he.within h (hparts _ (by simp)),
      he₁.within h (hparts _ (by simp))⟩
  | _, _, _, .ifElse hc he he₁ he₂, hv => by
    have hparts := hc.operands_within h hv
    exact List.forall_mem_append.mpr ⟨he.within h (hparts _ (by simp)),
      List.forall_mem_append.mpr ⟨he₁.within h (hparts _ (by simp)),
        he₂.within h (hparts _ (by simp))⟩⟩
  | _, _, _, .assign hc he, hv => he.within h (hc.operands_within h hv _ (by simp))
  | _, _, _, .lambda hc he, hv =>
    he.within h fun u hu => hc.operands_within h hv u (.tail _ hu)
  | _, _, _, .sequence hc _ hes, hv => hes.within h (hc.operands_within h hv)
  | _, _, _, .define _ hc he, hv => he.within h (hc.operands_within h hv _ (by simp))
  | _, _, _, .defineProcedure _ hc _ he, hv =>
    he.within h fun u hu => hc.operands_within h hv u (.tail _ hu)
  | _, _, _, .call hc _ he hes, hv => by
    obtain ⟨hoperator, hoperands⟩ := List.forall_mem_cons.mp (hc.within h hv).1
    exact List.forall_mem_append.mpr ⟨he.within h hoperator, hes.within h hoperands⟩

theorem ExpressesMembers.within (h : start.Confined base s) : ∀ {context : Context}
    {vs : List Value} {es : List Expression}, ExpressesMembers s context vs es →
    (∀ v ∈ vs, v.Within (Territory base start s)) →
    ∀ u ∈ allLiterals es, u.Within (Territory base start s)
  | _, _, _, .nil, _ => nofun
  | _, _, _, .cons _ he hes, hvs | _, _, _, .turn _ he hes, hvs => by
    obtain ⟨hv, hvs⟩ := List.forall_mem_cons.mp hvs
    exact List.forall_mem_append.mpr ⟨he.within h hv, hes.within h hvs⟩

theorem ExpressesLambda.within (h : start.Confined base s) : ∀ {v : Value} {body : List Value}
    {e : Expression}, ExpressesLambda s v body e →
    (∀ v ∈ body, v.Within (Territory base start s)) →
    ∀ u ∈ e.literals, u.Within (Territory base start s)
  | _, _, _, .single _ he, hbody => he.within h (hbody _ (.head _))
  | _, _, _, .several _ hes, hbody => hes.within h hbody

end

theorem Store.Confined.parse {e : Expression} (h : start.Confined base s)
    (hv : v.Within (Territory base start s)) (hparse : s.parse v = .ok e) :
    ∀ u ∈ e.literals, u.Within (Territory base start s) :=
  (expresses_of_parseWithin hparse).within h hv

/-! Texts. -/

def Outcome.store : Outcome → Store
  | finished _ w | unfinished w => w.store

namespace World

variable {w : World} {ρ : ScopeRef}

theorem store_evaluate (w : World) (limits : Limits) (ρ : ScopeRef) (e : Expression) :
    (w.evaluate limits ρ e).store = ((State.initial w e ρ).run limits.depth limits.fuel).store := by
  unfold evaluate
  split
  · rename_i hr
    rw [hr]
    rfl
  · rename_i hr
    rw [hr]
    rfl
  · rename_i hr
    rw [hr]
    rfl

theorem confined_evaluate {e : Expression} (h : start.Confined base w.store)
    (hscope : Territory base start w.store (.scope ρ))
    (he : ∀ v ∈ e.literals, v.Within (Territory base start w.store)) (limits : Limits) :
    start.Confined base (w.evaluate limits ρ e).store ∧
      w.store.Grown (w.evaluate limits ρ e).store := by
  obtain ⟨hrun, hgrown⟩ := (State.Confined.initial h hscope he).run limits.depth limits.fuel
  rw [store_evaluate]
  exact ⟨hrun.store, hgrown⟩

theorem confined_evaluateDatum (h : start.Confined base w.store)
    (hscope : Territory base start w.store (.scope ρ)) (limits : Limits)
    (d : Except SyntaxError Datum) : start.Confined base (w.evaluateDatum limits ρ d).store ∧
      w.store.Grown (w.evaluateDatum limits ρ d).store := by
  cases d with
  | error err => exact ⟨h, .refl _⟩
  | ok d =>
    have hload := Store.Yields.load h d
    simp only [evaluateDatum, evaluateValue]
    split
    · rename_i hparse
      obtain ⟨hconfined, hgrown⟩ := confined_evaluate (w := (w.load d).2) hload.confined
        (hscope.mono hload.grown)
        (hload.confined.parse (hload.within _ (List.mem_singleton_self _)) hparse) limits
      exact ⟨hconfined, hload.grown.trans hgrown⟩
    · exact ⟨hload.confined, hload.grown⟩

/-- The evaluation of data keeps to the territory, whatever comes of it. -/
theorem confined_evaluateData (h : start.Confined base w.store)
    (hscope : Territory base start w.store (.scope ρ)) (limits : Limits) (last : Value)
    (ds : List (Except SyntaxError Datum)) :
    start.Confined base (w.evaluateData limits ρ last ds).store := by
  induction ds generalizing w last with
  | nil => exact h
  | cons d ds ih =>
    obtain ⟨hconfined, hgrown⟩ := confined_evaluateDatum h hscope limits d
    rw [evaluateData]
    split
    · rename_i hd
      rw [hd] at hconfined hgrown
      exact ih hconfined (hscope.mono hgrown) _
    · exact hconfined

end World

/-! New preludes. -/

/-- The scope is a root and holds nothing but primitives. -/
structure Scope.Plain (scope : Scope) : Prop where
  parent : scope.parent = none
  values : ∀ b ∈ scope.bindings, ∃ ref, b.2 = .procedure (.primitive ref)

namespace Store

variable {ref other : ScopeRef}

theorem eq_of_reach_plain {o : Object} (h : (s.scopeAt ref).Plain)
    (ho : s.Reach (· = .scope ref) o) : o = .scope ref := by
  induction ho with
  | root ho => exact ho
  | leads _ hl ih =>
    subst ih
    cases hl with
    | value hv hr =>
      cases hv with
      | binding hb =>
        obtain ⟨primitive, hp⟩ := h.values _ hb
        rw [hp] at hr
        cases hr
    | parent hp =>
      rw [parent?, h.parent] at hp
      cases hp

theorem Scope.Plain.insert {scope : Scope} (h : scope.Plain) (name : Symbol)
    (primitive : PrimitiveRef) :
    (scope.insert name (.procedure (.primitive primitive))).Plain := by
  refine ⟨h.parent, fun b hb => ?_⟩
  rcases mem_insertInto hb with hb | hb
  · exact h.values b hb
  · exact ⟨primitive, hb⟩

theorem size_definePrimitive (s : Store) (ref : ScopeRef) (primitive : Primitive) :
    (s.definePrimitive ref primitive).scopes.size = s.scopes.size := size_define ..

theorem foldl_definePrimitive (primitives : List Primitive) (s : Store) (ref other : ScopeRef) :
    let s' := primitives.foldl (fun s primitive => s.definePrimitive ref primitive) s
    s'.scopes.size = s.scopes.size ∧ (ref ≠ other → s'.scopeAt other = s.scopeAt other) ∧
      ((s.scopeAt other).Plain → (s'.scopeAt other).Plain) := by
  induction primitives generalizing s with
  | nil => exact ⟨rfl, fun _ => rfl, id⟩
  | cons primitive primitives ih =>
    obtain ⟨hsize, hother, hplain⟩ := ih (s.definePrimitive ref primitive)
    refine ⟨hsize.trans (size_definePrimitive ..), fun hne => (hother hne).trans ?_,
      fun h => hplain ?_⟩
    · rcases scopeAt_define_cases (s.newPrimitive primitive).2 ref other ⟨primitive.name⟩ _ with
        heq | ⟨rfl, -⟩
      · exact heq
      · exact (hne rfl).elim
    · rcases scopeAt_define_cases (s.newPrimitive primitive).2 ref other ⟨primitive.name⟩
        (s.newPrimitive primitive).1 with heq | ⟨rfl, heq⟩
      · exact heq ▸ h
      · exact heq ▸ Scope.Plain.insert h _ _

theorem newPrelude_fst (s : Store) : s.newPrelude.1 = ⟨s.scopes.size⟩ := rfl

theorem size_newPrelude (s : Store) : s.newPrelude.2.scopes.size = s.scopes.size + 1 :=
  (foldl_definePrimitive Primitive.prelude (s.newScope none).2 _ ⟨0⟩).1.trans (Array.size_push ..)

theorem scopeAt_newPrelude (h : other.index < s.scopes.size) :
    s.newPrelude.2.scopeAt other = s.scopeAt other := by
  have hne : s.newPrelude.1 ≠ other := by
    rintro rfl
    exact Nat.lt_irrefl _ h
  refine ((foldl_definePrimitive Primitive.prelude (s.newScope none).2 _ other).2.1 hne).trans ?_
  rw [scopeAt_newScope, if_neg h.ne]

theorem plain_newPrelude (s : Store) : (s.newPrelude.2.scopeAt s.newPrelude.1).Plain := by
  refine (foldl_definePrimitive Primitive.prelude (s.newScope none).2 _ _).2.2 ?_
  rw [scopeAt_newScope, newPrelude_fst, if_pos rfl]
  exact ⟨rfl, nofun⟩

end Store

/-- In a plain environment no text changes another scope. -/
theorem World.scopeAt_evaluateText {w : World} {ρ σ : ScopeRef} (h : (w.store.scopeAt ρ).Plain)
    (hσ : (Object.scope σ).Exists w.store) (hne : σ ≠ ρ) (limits : Limits) (text : String) :
    (w.evaluateText limits ρ text).store.scopeAt σ = w.store.scopeAt σ := by
  refine (confined_evaluateData (.begin w.store (· = .scope ρ)) (.inl (.root rfl)) limits .void
    (Datum.readEach text)).outside σ hσ fun hreach => ?_
  cases Store.eq_of_reach_plain h hreach
  exact hne rfl

/-- An evaluation changes and has at hand only what its expression and environment lead to, and what
it creates. -/
theorem State.run_confined :
    (∀ (w : World) (e : Expression) (ρ : ScopeRef) (limit : Option Nat) (n : Nat),
      let run := (State.initial w e ρ).run limit n
      let reach := w.store.Reach (Control.evaluate e ρ).Refers
      (∀ σ, (Object.scope σ).Exists w.store → ¬ reach (.scope σ) →
        run.store.scopeAt σ = w.store.scopeAt σ) ∧
      ∀ o, run.store.Reach (fun o => run.Refers o ∨ reach o) o →
        reach o ∨ o.New w.store run.store) ∧
    ∀ (s : Store) (output : Output) (limits : Limits) (text : String),
      let s₁ := s.newPrelude.2
      let s₂ := s₁.newPrelude.2
      ∀ ρ ∈ [s.newPrelude.1, s₁.newPrelude.1], ∀ σ, (Object.scope σ).Exists s₂ → σ ≠ ρ →
        (World.evaluateText ⟨s₂, output⟩ limits ρ text).store.scopeAt σ = s₂.scopeAt σ := by
  constructor
  · intro w e ρ limit n run reach
    have hbegin : w.store.Confined reach w.store := .begin w.store _
    have hinitial : (State.initial w e ρ).Confined reach w.store :=
      .initial hbegin (.inl (.root (.inl rfl)))
        fun v hv o ho => .inl (.root (.inr ⟨v, hv, ho⟩))
    obtain ⟨hrun, -⟩ := hinitial.run limit n
    refine ⟨hrun.store.outside, fun o ho => hrun.store.reach ?_ ho⟩
    rintro o (ho | ho)
    · exact hrun.refers o ho
    · exact .inl ho
  · intro s output limits text s₁ s₂ ρ hρ σ hσ hne
    have hlt : s.newPrelude.1.index < s₁.scopes.size := by
      rw [Store.size_newPrelude]
      exact Nat.lt_succ_self _
    have hplain : (s₂.scopeAt ρ).Plain := by
      rcases List.mem_pair.mp hρ with rfl | rfl
      · rw [Store.scopeAt_newPrelude hlt]
        exact s.plain_newPrelude
      · exact s₁.plain_newPrelude
    exact World.scopeAt_evaluateText (w := ⟨s₂, output⟩) hplain hσ hne limits text

end SmallScheme
