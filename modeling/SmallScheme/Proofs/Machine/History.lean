import SmallScheme.Proofs.Machine.Session
import SmallScheme.Proofs.Store.Growth

/-! # Histories of environments

Operations on environments, and evaluations between them, in any order and with any outcome. Each
alters the scopes by the definitions that it carries out, so what is known of a scope at one moment
holds at every later one.
-/

namespace SmallScheme

open Continuation

/-- What can be done with environments from outside. -/
inductive EnvironmentOperation
  | new
  | withPrelude
  | extend (ρ : ScopeRef)
  | define (ρ : ScopeRef) (name : Symbol) (value : Value)
  | assign (ρ : ScopeRef) (name : Symbol) (value : Value)
  /-- A definition or an assignment. -/
  | set (ρ : ScopeRef) (name : Symbol) (value : Value) (definition : Bool)
  | definePrimitive (ρ : ScopeRef) (primitive : Primitive)
  | loadPrelude (ρ : ScopeRef)

namespace EnvironmentOperation

def apply (s : Store) : EnvironmentOperation → Store
  | new => (s.newScope none).2
  | withPrelude => s.newPrelude.2
  | extend ρ => (s.newScope (some ρ)).2
  | define ρ name value => s.define ρ name value
  | assign ρ name value => (s.assign ρ name value).2
  | set ρ name value definition =>
    if definition then s.define ρ name value else (s.assign ρ name value).2
  | definePrimitive ρ primitive => s.definePrimitive ρ primitive
  | loadPrelude ρ => s.loadPrelude ρ

def environment? : EnvironmentOperation → Option ScopeRef
  | new | withPrelude => none
  | extend ρ | define ρ .. | assign ρ .. | set ρ .. | definePrimitive ρ _ | loadPrelude ρ => some ρ

/-- Which names are defined, and in which scopes. -/
def definitions (s : Store) : EnvironmentOperation → List (ScopeRef × Symbol)
  | new | extend _ | assign .. => []
  | withPrelude => Primitive.prelude.map fun primitive => (⟨s.scopes.size⟩, ⟨primitive.name⟩)
  | define ρ name _ => [(ρ, name)]
  | set ρ name _ definition => if definition then [(ρ, name)] else []
  | definePrimitive ρ primitive => [(ρ, ⟨primitive.name⟩)]
  | loadPrelude ρ => Primitive.prelude.map fun primitive => (ρ, ⟨primitive.name⟩)

end EnvironmentOperation

def Store.parameters (s : Store) : Value → List (ScopeRef × Symbol)
  | .procedure (.closure ref) => (s.closureAt ref).formals.names.map (⟨s.scopes.size⟩, ·)
  | _ => []

def Continuation.definitions (s : Store) (v : Value) : Continuation → List (ScopeRef × Symbol)
  | define name ρ => [(ρ, name)]
  | operator [] _ => s.parameters v
  | operand p _ [] _ => s.parameters (.procedure p)
  | _ => []

/-- The definitions that the next step carries out. -/
def State.definitions (s : State) : List (ScopeRef × Symbol) :=
  match s.control, s.stack.frames with
  | .deliver v, frame :: _ => frame.definitions s.world.store v
  | _, _ => []

/-- What can happen next, with the definitions that it carries out. -/
inductive Happens : List (ScopeRef × Symbol) → Moment → Moment → Prop

  | operation {w : World} {operation : EnvironmentOperation} :
      (∀ ρ, operation.environment? = some ρ → ρ.index < w.store.scopes.size) →
      Happens (operation.definitions w.store) (.between w)
        (.between ⟨operation.apply w.store, w.output⟩)

  | data {w w' : World} : w.store.SameButCells w'.store → Happens [] (.between w) (.between w')

  | evaluation {w : World} {e : Expression} {ρ : ScopeRef} : ρ.index < w.store.scopes.size →
      Happens [] (.between w) (.during (.initial w e ρ))

  | step {limit : Option Nat} {s t : State} : s.step limit = .next t →
      Happens s.definitions (.during s) (.during t)

  | halt {limit : Option Nat} {s : State} {r : Except EvalError Value} {w : World} :
      s.step limit = .halt r w → Happens [] (.during s) (.between w)

def History : Moment → Moment → Prop := Relation.ReflTransGen fun m m' => ∃ ds, Happens ds m m'

variable {s s' : Store} {ρ : ScopeRef} {v : Value} {vs : List Value} {frame frame' : Continuation}
  {p : Procedure} {e next : Expression} {closure : Closure} {ds : List (ScopeRef × Symbol)}

theorem EnvironmentOperation.alters {operation : EnvironmentOperation}
    (h : ∀ ρ, operation.environment? = some ρ → ρ.index < s.scopes.size) :
    s.Alters (operation.definitions s) (operation.apply s) := by
  have hassign : ∀ ρ name value, s.Alters [] (s.assign ρ name value).2 := by
    intro ρ name value
    unfold Store.assign
    split
    · rename_i hr
      exact .assign hr
    · exact .refl s
  cases operation with
  | new => exact .scope nofun
  | withPrelude =>
    have hnew : s.Alters [] (s.newScope none).2 := .scope nofun
    have hlt : s.scopes.size < (s.newScope none).2.scopes.size := by simp [Store.newScope]
    exact hnew.trans (.definePrimitives hlt Primitive.prelude)
  | extend ρ =>
    refine .scope ?_
    rintro _ ⟨⟩
    exact h ρ rfl
  | define ρ name value => exact .define (h ρ rfl)
  | assign ρ name value => exact hassign ρ name value
  | set ρ name value definition =>
    cases definition with
    | true => exact .define (h ρ rfl)
    | false => exact hassign ρ name value
  | definePrimitive ρ primitive => exact .definePrimitive (h ρ rfl) primitive
  | loadPrelude ρ => exact .definePrimitives (h ρ rfl) Primitive.prelude

theorem Closure.alters (hscope : closure.environment.index < s.scopes.size)
    (h : closure.newCallScope vs s = (.ok ρ, s')) :
    s.Alters (closure.formals.names.map (⟨s.scopes.size⟩, ·)) s' := by
  obtain ⟨hlength, -, hcases⟩ := newCallScope_cases h
  have hnew : s.Alters [] (s.newScope (some closure.environment)).2 := by
    refine .scope ?_
    rintro _ ⟨⟩
    exact hscope
  have hlt : (⟨s.scopes.size⟩ : ScopeRef).index <
      (s.newScope (some closure.environment)).2.scopes.size := by
    simp [Store.newScope]
  have hparameters := hnew.trans (.defineEach hlt hlength)
  rcases hcases with ⟨hrest, rfl⟩ | ⟨rest, hrest, rfl⟩
  · rw [Formals.names, hrest, Option.toList_none, List.append_nil]
    exact hparameters
  · rw [Formals.names, hrest, Option.toList_some, List.map_append]
    refine hparameters.trans (.trans (.of_sameButCells (.list ..)) (.define ?_))
    rw [(Store.SameButCells.list ..).scopes]
    exact hlt.trans_le (Store.Alters.defineEach hlt hlength).grows.size

namespace Continuation

theorem Continues.definitions_eq (h : Continues ρ v frame next frame') (s : Store) :
    frame.definitions s v = [] := by
  cases h <;> rfl

theorem ComesTo.definitions_eq (h : ComesTo ρ v frame e) (s : Store) :
    frame.definitions s v = [] := by
  cases h <;> rfl

theorem Answers.definitions_eq {v' : Value} (h : Answers v frame v') (s : Store) :
    frame.definitions s v = [] := by
  cases h <;> rfl

theorem Calls.definitions_eq (h : Calls v frame p vs) (s : Store) :
    frame.definitions s v = s.parameters (.procedure p) := by
  cases h with
  | operator hv => exact hv ▸ rfl
  | operand => rfl

end Continuation

theorem State.definitions_deliver (w : World) (v : Value) (stack : Stack) (frame : Continuation) :
    State.definitions ⟨w, .deliver v, stack.push frame⟩ = frame.definitions w.store v := rfl

/-- All code waits in scopes that exist. -/
structure State.Founded (s : State) : Prop where
  store : s.world.store.Founded
  control : ∀ e ρ, s.control = .evaluate e ρ → ρ.index < s.world.store.scopes.size
  frames : ∀ frame ∈ s.stack.frames, frame.environment.index < s.world.store.scopes.size

theorem State.Founded.alters {s t : State} (h : s.Founded) (ht : Transition s t) :
    s.world.store.Alters s.definitions t.world.store := by
  obtain ⟨hs, hc, hf⟩ := h
  cases ht with
  | literal | reference | opens | sequence => exact .refl _
  | lambda => exact .closure (hc _ _ rfl)
  | define => exact .define (hf _ (.head _))
  | assign hr => exact .assign hr
  | continues hk | comesTo hk | answers hk =>
    rw [definitions_deliver, hk.definitions_eq]
    exact .refl _
  | @primitive w w' v r vs stack frame ref hk hcall =>
    have hcells := (w.store.primitiveAt ref).sameButCells vs w
    rw [hcall] at hcells
    rw [definitions_deliver, hk.definitions_eq]
    exact .of_sameButCells hcells
  | @closure w v vs stack frame ref ρ s' hk hcall =>
    rw [definitions_deliver, hk.definitions_eq]
    refine Closure.alters ?_ hcall
    by_cases href : ref.index < w.store.closures.size
    · exact hs.closures ref href
    · -- A closure that does not exist would belong to the first scope.
      rw [Store.closureAt, Array.getElem?_eq_none (Nat.le_of_not_lt href)]
      exact Nat.zero_lt_of_lt (hf _ (.head _))

theorem State.Founded.transition {s t : State} (h : s.Founded) (ht : Transition s t) :
    t.Founded := by
  have halters := h.alters ht
  have hsize := halters.grows.size
  obtain ⟨hs, hc, hf⟩ := h
  -- Whatever was on the stack waits in a scope that still exists.
  have hkept : ∀ frame ∈ s.stack.frames, frame.environment.index < t.world.store.scopes.size :=
    fun frame hmem => (hf frame hmem).trans_le hsize
  refine ⟨hs.alters halters, ?_, ?_⟩
  · cases ht with
    | opens =>
      rintro _ _ ⟨⟩
      exact hc _ _ rfl
    | continues hk =>
      rintro _ _ ⟨⟩
      exact hk.environment_eq.1 ▸ hf _ (.head _)
    | comesTo hk =>
      rintro _ _ ⟨⟩
      exact hk.environment_eq ▸ hf _ (.head _)
    | closure _ hcall =>
      rintro _ _ ⟨⟩
      have henters := Closure.enters hcall
      simp only [henters.index, henters.size]
      exact Nat.lt_succ_self _
    | _ => exact nofun
  · cases ht with
    | literal | reference | lambda => exact hkept
    | opens ho =>
      refine List.forall_mem_cons.mpr ⟨?_, hkept⟩
      rw [ho.environment_eq]
      exact hc _ _ rfl
    | sequence => exact List.forall_mem_cons.mpr ⟨hc _ _ rfl, hkept⟩
    | continues hk =>
      obtain ⟨henv, henv'⟩ := hk.environment_eq
      refine List.forall_mem_cons.mpr ⟨?_, fun frame hmem => hkept frame (.tail _ hmem)⟩
      rw [henv', ← henv]
      exact hkept _ (.head _)
    | define | assign | comesTo | answers | primitive | closure =>
      exact fun frame hmem => hkept frame (.tail _ hmem)

def Moment.Founded : Moment → Prop
  | between w => w.store.Founded
  | during s => s.Founded

theorem Moment.Founded.store {m : Moment} (h : m.Founded) : m.store.Founded := by
  cases m with
  | between w => exact h
  | during s => exact State.Founded.store h

theorem Moment.Founded.happens {m m' : Moment} (h : m.Founded) (hm : Happens ds m m') :
    m'.Founded ∧ m.store.Alters ds m'.store := by
  cases hm with
  | operation hρ =>
    have halters := EnvironmentOperation.alters hρ
    exact ⟨Store.Founded.alters h halters, halters⟩
  | data hcells =>
    have halters := Store.Alters.of_sameButCells hcells
    exact ⟨Store.Founded.alters h halters, halters⟩
  | evaluation hρ =>
    refine ⟨⟨h, ?_, nofun⟩, .refl _⟩
    rintro _ _ ⟨⟩
    exact hρ
  | step hstep =>
    have ht := State.transition_of_step hstep
    exact ⟨State.Founded.transition h ht, State.Founded.alters h ht⟩
  | halt hstep =>
    have hcells := Store.Alters.of_sameButCells (State.sameButCells_of_halt hstep)
    exact ⟨Store.Founded.alters h.store hcells, hcells⟩

theorem History.of_run {limit : Option Nat} {n : Nat} {s t : State}
    (h : s.run limit n = .unfinished t) : History (.during s) (.during t) :=
  Moment.of_run (fun hstep => ⟨_, .step hstep⟩) h

/-- In the course of a history, scopes only grow. -/
theorem Moment.Founded.history {m m' : Moment} (h : m.Founded) (hm : History m m') :
    m'.Founded ∧ ∃ ds, m.store.Grows ds m'.store := by
  induction hm with
  | refl => exact ⟨h, [], .of_scopes rfl⟩
  | tail _ hstep ih =>
    obtain ⟨hfounded, ds, hgrows⟩ := ih
    obtain ⟨ds', hstep⟩ := hstep
    obtain ⟨hfounded', halters⟩ := hfounded.happens hstep
    exact ⟨hfounded', ds ++ ds', hgrows.trans halters.grows⟩

/-- A scope keeps its parent, which is older, and gets new names behind its own by definitions only.
-/
theorem History.scopes_only_grow {output : Output} {m m' : Moment} {ρ : ScopeRef}
    (h : History (.between ⟨.empty, output⟩) m) (hρ : ρ.index < m.store.scopes.size)
    (h' : History m m') :
    (m'.store.scopeAt ρ).parent = (m.store.scopeAt ρ).parent ∧
    (∀ π, (m.store.scopeAt ρ).parent = some π →
      π.index < ρ.index ∧ m.store.depth ρ = m.store.depth π + 1) ∧
    (∃ path, m.store.Ancestry ρ path ∧ path.length = m.store.depth ρ) ∧
    (m.store.names ρ).Nodup ∧
    m.store.names ρ <+: m'.store.names ρ ∧
    (∀ ds m'', Happens ds m' m'' → ∃ added, m''.store.names ρ = m'.store.names ρ ++ added ∧
      ∀ name ∈ added, name ∉ m'.store.names ρ ∧ (ρ, name) ∈ ds) ∧
    ∀ name v, m.store.lookup ρ name = .ok v → ∃ v', m'.store.lookup ρ name = .ok v' := by
  have hstart : (Moment.between ⟨.empty, output⟩).Founded := Store.Founded.empty
  obtain ⟨hm, -⟩ := hstart.history h
  obtain ⟨hm', ds, hgrows⟩ := hm.history h'
  have hs := hm.store
  refine ⟨hgrows.parent ρ hρ, fun π hπ => ⟨hs.parents ρ π hπ, hs.depth_of_parent hπ⟩,
    hs.ancestry ρ, hs.names ρ, hgrows.isPrefix ρ, fun ds m'' hnext => ?_, fun name v hv => ?_⟩
  · obtain ⟨added, heq, -, hadded⟩ := (hm'.happens hnext).2.grows.names ρ
    exact ⟨added, heq, hadded⟩
  · obtain ⟨σ, hσ⟩ := Store.exists_lookup_iff.mp ⟨v, hv⟩
    exact Store.exists_lookup_iff.mpr (hgrows.resolve hρ hσ)

theorem History.scopes_only_grow_inner :
    let x : Symbol := ⟨"x"⟩
    let y : Symbol := ⟨"y"⟩
    let s := (((Store.empty.newScope none).2.define ⟨0⟩ x .null).newScope (some ⟨0⟩)).2
    let s₀ := State.initial ⟨s, .empty⟩ (.define y (.literal .void)) ⟨1⟩
    ∃ t, s₀.run none 3 = .unfinished t ∧ s.names ⟨1⟩ = [] ∧ t.world.store.names ⟨1⟩ = [y] ∧
      (t.world.store.scopeAt ⟨1⟩).parent = some ⟨0⟩ ∧ s.depth ⟨1⟩ = s.depth ⟨0⟩ + 1 ∧
      ∃ v, t.world.store.lookup ⟨1⟩ x = .ok v := by
  intro x y s s₀
  have hnew : Happens _ (.between ⟨.empty, .empty⟩) _ := @Happens.operation _ .new nofun
  have hdefine : Happens _ (.between ⟨_, .empty⟩) _ :=
    @Happens.operation ⟨(Store.empty.newScope none).2, .empty⟩ (.define ⟨0⟩ x .null) (by decide)
  have hextend : Happens _ (.between ⟨_, .empty⟩) (.between ⟨s, .empty⟩) :=
    @Happens.operation ⟨(Store.empty.newScope none).2.define ⟨0⟩ x .null, .empty⟩ (.extend ⟨0⟩)
      (by decide)
  have h : History (.between ⟨.empty, .empty⟩) (.between ⟨s, .empty⟩) :=
    .tail (.tail (.single ⟨_, hnew⟩) ⟨_, hdefine⟩) ⟨_, hextend⟩
  have hrun : s₀.run none 3 = .unfinished _ := rfl
  have hstart : History (.between ⟨s, .empty⟩) (.during s₀) :=
    .single ⟨_, .evaluation (by decide)⟩
  have h' : History (.between ⟨s, .empty⟩) (.during _) := hstart.trans (of_run hrun)
  obtain ⟨v, hv⟩ : ∃ v, s.lookup ⟨1⟩ x = .ok v := Store.exists_lookup_iff.mpr
    ⟨⟨0⟩, (Store.resolve_of_parent (by decide) rfl).trans (Store.resolve_of_binds (by decide))⟩
  have hexists : (⟨1⟩ : ScopeRef).index < s.scopes.size := by decide
  obtain ⟨hparent, hdepth, -, -, -, -, hlookup⟩ := scopes_only_grow h hexists h'
  exact ⟨_, hrun, rfl, rfl, hparent, (hdepth ⟨0⟩ rfl).2, hlookup x v hv⟩

end SmallScheme
