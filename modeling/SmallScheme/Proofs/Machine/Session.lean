import Mathlib.Logic.Relation
import SmallScheme.Program
import SmallScheme.Proofs.Expression.Definitions
import SmallScheme.Proofs.Machine.Transition

/-! # Sessions

Programs that are run one after the other in one environment. At any time of a session, all code
that waits to be evaluated or belongs to a closure has its definitions where the parser admits them,
and runs in scopes that exist.
-/

namespace SmallScheme

/-- A time in a session: between two programs or in the course of one. -/
inductive Moment
  | between (world : World)
  | during (state : State)

def Moment.store : Moment → Store
  | between w => w.store
  | during s => s.world.store

/-- What comes next in a session in an environment. A program runs until it stops. -/
inductive Follows (root : ScopeRef) : Moment → Moment → Prop

  | data {w w' : World} : w.store.SameButCells w'.store → Follows root (.between w) (.between w')

  | program {w : World} {v : Value} {e : Expression} : w.store.parse v = .ok e →
      Follows root (.between w) (.during (.initial w e root))

  | step {limit : Option Nat} {s t : State} : s.step limit = .next t →
      Follows root (.during s) (.during t)

  | halt {limit : Option Nat} {s : State} {r : Except EvalError Value} {w : World} :
      s.step limit = .halt r w → Follows root (.during s) (.between w)

def Session (root : ScopeRef) : Moment → Moment → Prop := Relation.ReflTransGen (Follows root)

theorem Moment.of_run {R : Moment → Moment → Prop} {limit : Option Nat} {n : Nat} {s t : State}
    (hR : ∀ {s t}, s.step limit = .next t → R (.during s) (.during t))
    (h : s.run limit n = .unfinished t) : Relation.ReflTransGen R (.during s) (.during t) := by
  induction n generalizing s with
  | zero =>
    cases h
    exact .refl
  | succ n ih =>
    rw [State.run] at h
    split at h
    · rename_i hs
      exact (ih h).head (hR hs)
    · cases h

/-- The relation takes in all that is done to evaluate a text. -/
structure Covers (root : ScopeRef) (R : Moment → Moment → Prop) : Prop where
  load : ∀ (w : World) (d : Datum), R (.between w) (.between (w.load d).2)
  program : ∀ {w : World} {d : Datum} {e : Expression},
    (w.load d).2.store.parse (w.load d).1 = .ok e →
    R (.between (w.load d).2) (.during (.initial (w.load d).2 e root))
  step : ∀ {limit : Option Nat} {s t : State}, s.step limit = .next t → R (.during s) (.during t)
  halt : ∀ {limit : Option Nat} {s : State} {r : Except EvalError Value} {w : World},
    s.step limit = .halt r w → R (.during s) (.between w)

namespace Covers

open Relation

variable {root : ScopeRef} {R : Moment → Moment → Prop} {limit : Option Nat} {s t : State}
  {w w' : World} {n : Nat} {limits : Limits}

theorem run_finished (hR : Covers root R) {r : Except EvalError Value}
    (h : s.run limit n = .finished r w) : ReflTransGen R (.during s) (.between w) := by
  induction n generalizing s with
  | zero => cases h
  | succ n ih =>
    rw [State.run] at h
    split at h
    · rename_i hs
      exact (ih h).head (hR.step hs)
    · rename_i hs
      cases h
      exact .single (hR.halt hs)

variable {r : Except Failure Value}

theorem evaluate (hR : Covers root R) {e : Expression}
    (h : w.evaluate limits root e = .finished r w') :
    ReflTransGen R (.during (.initial w e root)) (.between w') := by
  unfold World.evaluate at h
  split at h
  · rename_i hr
    cases h
    exact hR.run_finished hr
  · rename_i hr
    cases h
    exact hR.run_finished hr
  · cases h

theorem evaluateDatum (hR : Covers root R) {d : Except SyntaxError Datum}
    (h : w.evaluateDatum limits root d = .finished r w') :
    ReflTransGen R (.between w) (.between w') := by
  cases d with
  | error err =>
    cases h
    exact .refl
  | ok d =>
    have hload : ReflTransGen R (.between w) (.between (w.load d).2) := .single (hR.load w d)
    simp only [World.evaluateDatum, World.evaluateValue] at h
    split at h
    · rename_i hparse
      exact (hload.tail (hR.program hparse)).trans (hR.evaluate h)
    · cases h
      exact hload

theorem evaluateData (hR : Covers root R) {last : Value} {ds : List (Except SyntaxError Datum)}
    (h : w.evaluateData limits root last ds = .finished r w') :
    ReflTransGen R (.between w) (.between w') := by
  induction ds generalizing w last with
  | nil =>
    cases h
    exact .refl
  | cons d ds ih =>
    rw [World.evaluateData] at h
    split at h
    · rename_i hd
      exact (hR.evaluateDatum hd).trans (ih h)
    · exact hR.evaluateDatum h

theorem evaluateText (hR : Covers root R) {text : String}
    (h : w.evaluateText limits root text = .finished r w') :
    ReflTransGen R (.between w) (.between w') := hR.evaluateData h

end Covers

namespace Session

variable {root : ScopeRef} {limit : Option Nat} {s t : State} {w w' : World} {n : Nat}

mutual

theorem sameButCells_load (s : Store) : ∀ d : Datum, s.SameButCells (s.load d).2
  | .atom _ | .null => .refl s
  | .pair car cdr => by
    rw [Store.load]
    exact ((sameButCells_load s car).trans (sameButCells_load _ cdr)).trans (.newCell _ _)
  | .vector items => by
    rw [Store.load]
    exact (sameButCells_loadAll s items).trans (.newCell _ _)

theorem sameButCells_loadAll (s : Store) : ∀ ds : List Datum, s.SameButCells (s.loadAll ds).2
  | [] => .refl s
  | d :: rest => by
    rw [Store.loadAll]
    exact (sameButCells_load s d).trans (sameButCells_loadAll _ rest)

end

theorem covers (root : ScopeRef) : Covers root (Follows root) where
  load w d := .data (sameButCells_load w.store d)
  program := .program
  step := .step
  halt := .halt

theorem of_run_unfinished (h : s.run limit n = .unfinished t) :
    Session root (.during s) (.during t) := Moment.of_run .step h

/-- The programs of a text are a session. -/
theorem of_evaluateText {limits : Limits} {text : String} {r : Except Failure Value}
    (h : w.evaluateText limits root text = .finished r w') :
    Session root (.between w) (.between w') := (covers root).evaluateText h

end Session

open Expression Continuation

/-- The context of code that runs in a scope of a session in an environment. -/
def Context.home (root ρ : ScopeRef) : Context := if ρ = root then .topLevel else .startOfBody

namespace Continuation

def environment : Continuation → ScopeRef
  | ifElse _ _ ρ | ifOnly _ ρ | define _ ρ | assign _ ρ | operator _ ρ | operand _ _ _ ρ
  | sequence _ ρ => ρ

def Legal (root : ScopeRef) : Continuation → Prop
  | ifElse consequent alternate _ => consequent.Legal .expression ∧ alternate.Legal .expression
  | ifOnly consequent _ => consequent.Legal .expression
  | define .. | assign .. => True
  | operator operands _ | operand _ _ operands _ => AllLegal operands .expression
  | sequence members ρ => AllLegal members (.home root ρ)

variable {root ρ : ScopeRef} {e next : Expression} {frame frame' : Continuation} {v : Value}

theorem Opens.environment_eq (h : Opens ρ e next frame) : frame.environment = ρ := by
  cases h <;> rfl

theorem Continues.environment_eq (h : Continues ρ v frame next frame') :
    frame.environment = ρ ∧ frame'.environment = ρ := by
  cases h <;> exact ⟨rfl, rfl⟩

theorem ComesTo.environment_eq (h : ComesTo ρ v frame e) : frame.environment = ρ := by
  cases h <;> rfl

theorem Opens.legal {context : Context} (h : Opens ρ e next frame) (he : e.Legal context)
    (root : ScopeRef) :
    next.Legal .expression ∧ frame.Legal root := by
  cases h with
  | define => exact ⟨he.2, trivial⟩
  | assign => exact ⟨he, trivial⟩
  | ifElse => exact he
  | ifOnly => exact he
  | call => exact he

theorem Continues.legal (h : Continues ρ v frame next frame') (hf : frame.Legal root) :
    next.Legal (.home root ρ) ∧ frame'.Legal root := by
  cases h with
  | operator => exact ⟨hf.1.mono (.inl rfl), hf.2⟩
  | operand => exact ⟨hf.1.mono (.inl rfl), hf.2⟩
  | sequence => exact ⟨hf.1, hf.tail⟩

theorem ComesTo.legal (h : ComesTo ρ v frame e) (hf : frame.Legal root) :
    e.Legal (.home root ρ) := by
  cases h with
  | consequent => exact hf.1.mono (.inl rfl)
  | alternate => exact hf.2.mono (.inl rfl)
  | only => exact Expression.Legal.mono hf (.inl rfl)
  | last => exact hf.1

end Continuation

/-- All bodies of closures are legal, and the environment of the session exists. -/
structure Store.Lawful (root : ScopeRef) (s : Store) : Prop where
  bodies : ∀ ref, (s.closureAt ref).body.Legal .startOfBody
  root_lt : root.index < s.scopes.size

/-- All code that waits to be evaluated is legal, in scopes that exist. -/
structure State.Lawful (root : ScopeRef) (s : State) : Prop where
  store : s.world.store.Lawful root
  control : ∀ e ρ, s.control = .evaluate e ρ →
    e.Legal (.home root ρ) ∧ ρ.index < s.world.store.scopes.size
  frames : ∀ frame ∈ s.stack.frames,
    frame.Legal root ∧ frame.environment.index < s.world.store.scopes.size

def Moment.Lawful (root : ScopeRef) : Moment → Prop
  | between w => w.store.Lawful root
  | during s => s.Lawful root

variable {root : ScopeRef}

theorem Store.Lawful.of_sameButCells {s s' : Store} (hs : s.Lawful root)
    (h : s.SameButCells s') : s'.Lawful root := by
  refine ⟨fun ref => ?_, h.scopes ▸ hs.root_lt⟩
  rw [closureAt, h.closures]
  exact hs.bodies ref

theorem Store.Lawful.of_closures {s s' : Store} (hs : s.Lawful root)
    (hclosures : s'.closures = s.closures) (hsize : s.scopes.size ≤ s'.scopes.size) :
    s'.Lawful root := by
  refine ⟨fun ref => ?_, hs.root_lt.trans_le hsize⟩
  rw [closureAt, hclosures]
  exact hs.bodies ref

theorem Store.Lawful.define {s : Store} (hs : s.Lawful root) {ρ : ScopeRef} {name : Symbol}
    {value : Value} : (s.define ρ name value).Lawful root :=
  hs.of_closures rfl (s.size_define ρ name value).ge

theorem Store.Lawful.newClosure {s : Store} (hs : s.Lawful root) {closure : Closure}
    (h : closure.body.Legal .startOfBody) : (s.newClosure closure).2.Lawful root := by
  refine ⟨fun ref => ?_, hs.root_lt⟩
  simp only [closureAt, Store.newClosure, Array.getElem?_push]
  split
  · exact h
  · exact hs.bodies ref

theorem Context.home_admits (root ρ : ScopeRef) :
    (Context.home root ρ).Admits .startOfBody := by
  unfold home
  split
  · exact .inr (.inr rfl)
  · exact .refl _

theorem State.Lawful.transition {s t : State} (h : s.Lawful root) (ht : Transition s t) :
    t.Lawful root := by
  obtain ⟨hs, hc, hf⟩ := h
  cases ht with
  | literal => exact ⟨hs, nofun, hf⟩
  | reference => exact ⟨hs, nofun, hf⟩
  | lambda =>
    have hbody := (hc _ _ rfl).1
    exact ⟨hs.newClosure hbody, nofun, hf⟩
  | opens ho =>
    obtain ⟨he, hρ⟩ := hc _ _ rfl
    obtain ⟨hfirst, hframe⟩ := ho.legal he root
    refine ⟨hs, ?_, List.forall_mem_cons.mpr ⟨⟨hframe, ho.environment_eq ▸ hρ⟩, hf⟩⟩
    rintro _ _ ⟨⟩
    exact ⟨hfirst.mono (.inl rfl), hρ⟩
  | sequence =>
    exact ⟨hs, nofun, List.forall_mem_cons.mpr ⟨hc _ _ rfl, hf⟩⟩
  | define =>
    refine ⟨hs.define, nofun, fun frame hmem => ?_⟩
    simpa only [Store.size_define] using hf frame (.tail _ hmem)
  | assign =>
    refine ⟨hs.define, nofun, fun frame hmem => ?_⟩
    simpa only [Store.size_define] using hf frame (.tail _ hmem)
  | continues hk =>
    obtain ⟨⟨hframe, hρ⟩, hf⟩ := List.forall_mem_cons.mp hf
    obtain ⟨hnext, hframe'⟩ := hk.legal hframe
    obtain ⟨henv, henv'⟩ := hk.environment_eq
    rw [henv] at hρ
    refine ⟨hs, ?_, List.forall_mem_cons.mpr ⟨⟨hframe', henv' ▸ hρ⟩, hf⟩⟩
    rintro _ _ ⟨⟩
    exact ⟨hnext, hρ⟩
  | comesTo hk =>
    obtain ⟨⟨hframe, hρ⟩, hf⟩ := List.forall_mem_cons.mp hf
    rw [hk.environment_eq] at hρ
    refine ⟨hs, ?_, hf⟩
    rintro _ _ ⟨⟩
    exact ⟨hk.legal hframe, hρ⟩
  | answers => exact ⟨hs, nofun, fun frame hmem => hf frame (.tail _ hmem)⟩
  | primitive hk hcall =>
    rename_i w w' v r vs stack frame ref
    have hcells := (w.store.primitiveAt ref).sameButCells vs w
    rw [hcall] at hcells
    refine ⟨hs.of_sameButCells hcells, nofun, fun frame hmem => ?_⟩
    rw [hcells.scopes]
    exact hf frame (.tail _ hmem)
  | closure hk hcall =>
    obtain ⟨hindex, hsize, hclosures, -, -⟩ := Closure.enters hcall
    refine ⟨hs.of_closures hclosures (hsize ▸ Nat.le_succ _), ?_, fun frame hmem => ?_⟩
    · rintro _ _ ⟨⟩
      simp only [hindex, hsize]
      exact ⟨(hs.bodies _).mono (Context.home_admits root _), Nat.lt_succ_self _⟩
    · obtain ⟨hlegal, hlt⟩ := hf frame (.tail _ hmem)
      simp only [hsize]
      exact ⟨hlegal, Nat.lt_succ_of_lt hlt⟩

theorem State.Lawful.initial {w : World} {v : Value} {e : Expression}
    (hw : w.store.Lawful root) (h : w.store.parse v = .ok e) :
    (State.initial w e root).Lawful root := by
  refine ⟨hw, ?_, nofun⟩
  rintro _ _ ⟨⟩
  rw [Context.home, if_pos rfl]
  exact ⟨Store.legal_of_parse h, hw.root_lt⟩

theorem Moment.Lawful.follows {m m' : Moment} (h : m.Lawful root) (hm : Follows root m m') :
    m'.Lawful root := by
  cases hm with
  | data hcells => exact Store.Lawful.of_sameButCells h hcells
  | program hparse => exact State.Lawful.initial h hparse
  | step hstep => exact State.Lawful.transition h (State.transition_of_step hstep)
  | halt hstep => exact h.store.of_sameButCells (State.sameButCells_of_halt hstep)

/-- A session that starts in a lawful way stays lawful. -/
theorem Moment.Lawful.session {m m' : Moment} (h : m.Lawful root) (hm : Session root m m') :
    m'.Lawful root := by
  induction hm with
  | refl => exact h
  | tail _ hstep ih => exact ih.follows hstep

theorem Moment.lawful_prelude :
    (Moment.between World.withPrelude.2).Lawful World.withPrelude.1 := by
  constructor
  · intro ref
    exact trivial
  · decide

end SmallScheme
