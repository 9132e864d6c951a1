import SmallScheme.Proofs.Machine.Isolation
import SmallScheme.Proofs.Store.Traversal

/-! # Data without cycles

Programs that are run in preludes, one after the other. They never change a pair or a vector, and
put into a new one what has been there before. So data have no cycles, even where closures and
environments have.
-/

namespace SmallScheme

open Expression

def Object.IsCell : Object → Prop
  | pair _ | vector _ => True
  | closure _ | scope _ => False

def Cell.value (ref : CellRef) : Cell → Value
  | pair .. => .pair ref
  | vector _ => .vector ref

def Control.values : Control → List Value
  | evaluate e _ => e.literals
  | deliver v => [v]

/-- The values that there are at a moment. -/
inductive Moment.Obtains : Moment → Value → Prop

  | plain {m : Moment} {v : Value} : v.isPlain → Obtains m v

  | cell {m : Moment} {ref : CellRef} {cell : Cell} : m.store.cells[ref.index]? = some cell →
      Obtains m (cell.value ref)

  | held {m : Moment} {o : Object} {v : Value} : o.Exists m.store → m.store.Holds o v →
      Obtains m v

  | current {s : State} {v : Value} : v ∈ s.control.values → Obtains (.during s) v

  | waiting {s : State} {frame : Continuation} {v : Value} : frame ∈ s.stack.frames →
      v ∈ frame.values → Obtains (.during s) v

/-- What comes next for programs in preludes, each of which runs until it stops. -/
inductive Proceeds : Moment → Moment → Prop

  | environment {w : World} :
      Proceeds (.between w) (.between ⟨w.store.newPrelude.2, w.output⟩)

  | load {w : World} {d : Datum} : Proceeds (.between w) (.between (w.load d).2)

  | output {w : World} {output : Output} : Proceeds (.between w) (.between ⟨w.store, output⟩)

  | program {w : World} {v : Value} {e : Expression} {ρ : ScopeRef} :
      (Moment.between w).Obtains v → w.store.parse v = .ok e →
      Proceeds (.between w) (.during (.initial w e ρ))

  | step {limit : Option Nat} {s t : State} : s.step limit = .next t →
      Proceeds (.during s) (.during t)

  | halt {limit : Option Nat} {s : State} {r : Except EvalError Value} {w : World} :
      s.step limit = .halt r w → Proceeds (.during s) (.between w)

def Proceedings : Moment → Moment → Prop := Relation.ReflTransGen Proceeds

theorem Cell.refers_value {ref : CellRef} {cell : Cell} {o : Object}
    (h : (cell.value ref).Refers o) : o = cell.object ref := by
  cases cell <;> cases h <;> rfl

theorem Control.refers_of_mem {control : Control} {v : Value} {o : Object}
    (hv : v ∈ control.values) (ho : v.Refers o) : control.Refers o := by
  cases control with
  | evaluate e ρ => exact .inr ⟨v, hv, ho⟩
  | deliver u =>
    obtain rfl := List.mem_singleton.mp hv
    exact ho

theorem Proceeds.obtains_load (w : World) (d : Datum) :
    (Moment.between (w.load d).2).Obtains (w.load d).1 := by
  have hunfolds : Unfolds (w.load d).2.store (w.load d).1 d.tree := Datum.unfolds_load w.store d
  cases hv : (w.load d).1 with
  | pair ref =>
    rw [hv] at hunfolds
    obtain ⟨car, cdr, -, -, hc, -⟩ := hunfolds.of_pair
    exact @Moment.Obtains.cell (.between (w.load d).2) ref (.pair car cdr) hc
  | vector ref =>
    rw [hv] at hunfolds
    obtain ⟨items, -, hc, -⟩ := hunfolds.of_vector
    exact @Moment.Obtains.cell (.between (w.load d).2) ref (.vector items) hc
  | _ => exact .plain rfl

theorem Proceedings.covers (root : ScopeRef) : Covers root Proceeds where
  load _ _ := .load
  program := .program (Proceeds.obtains_load _ _)
  step := .step
  halt := .halt

/-- The programs of a text are such proceedings. -/
theorem Proceedings.of_evaluateText {w w' : World} {root : ScopeRef} {limits : Limits}
    {text : String} {r : Except Failure Value}
    (h : w.evaluateText limits root text = .finished r w') :
    Proceedings (.between w) (.between w') := (covers root).evaluateText h

/-! Confinement to what is created, starting from nothing. Only scopes and closures are taken for
granted. -/

section Order

variable {s : Store} {v : Value}

theorem Store.Confined.empty : Store.empty.Confined (¬ ·.IsCell) Store.empty := by
  refine ⟨.refl _, ?_, fun _ _ _ => rfl, ?_⟩
  · rintro o o' - hl
    cases hl with
    | value hv hr =>
      cases hv with
      | binding hb => cases hb
      | literal hv =>
        rw [List.mem_singleton.mp hv] at hr
        cases hr
      | car hc | cdr hc | item hc => cases hc
    | parent | environment => exact .inl id
  · intro i cell _ hc
    cases hc

theorem Store.Confined.before (hv : v.Within (Territory (¬ ·.IsCell) .empty s)) :
    v.Before s s.cells.size := by
  cases v with
  | pair ref =>
    rcases hv _ .pair with hcell | ⟨-, hexists⟩
    · exact (hcell trivial).elim
    · exact ⟨hexists.below, hexists⟩
  | vector ref =>
    rcases hv _ .vector with hcell | ⟨-, hexists⟩
    · exact (hcell trivial).elim
    · exact ⟨hexists.below, hexists⟩
  | _ => trivial

theorem Store.Confined.held {o : Object} (h : Store.empty.Confined (¬ ·.IsCell) s)
    (ho : o.Exists s) (hv : s.Holds o v) : v.Within (Territory (¬ ·.IsCell) .empty s) := by
  have hnew : ¬ o.IsCell ∨ o.New .empty s := by
    cases o with
    | pair | vector => exact .inr ⟨by simp [Object.Exists, Store.empty], ho⟩
    | closure | scope => exact .inl id
  exact fun o' hr => h.leads o o' hnew (.value hv hr)

theorem Store.Confined.ordered (h : Store.empty.Confined (¬ ·.IsCell) s) : s.Ordered := by
  intro i cell hc v hv
  have hbelow := h.order (Nat.zero_le i) hc v hv
  have hexists : (cell.object ⟨i⟩).Exists s := Object.exists_of_cell hc
  have hbefore := Store.Confined.before (h.held hexists (.of_cell hc hv))
  cases v with
  | pair ref => exact ⟨(hbelow _ .pair).resolve_left (absurd trivial), hbefore.2⟩
  | vector ref => exact ⟨(hbelow _ .vector).resolve_left (absurd trivial), hbefore.2⟩
  | _ => trivial

end Order

/-- All has come about from nothing, and only what has been created is at hand. -/
def Moment.Confined : Moment → Prop
  | between w => Store.empty.Confined (¬ ·.IsCell) w.store
  | during s => s.Confined (¬ ·.IsCell) .empty

namespace Moment.Confined

variable {m m' : Moment} {v : Value}

theorem store (h : m.Confined) : Store.empty.Confined (¬ ·.IsCell) m.store := by
  cases m with
  | between w => exact h
  | during s => exact State.Confined.store h

theorem within (h : m.Confined) (hv : m.Obtains v) :
    v.Within (Territory (¬ ·.IsCell) .empty m.store) := by
  cases hv with
  | plain hv =>
    intro o ho
    cases ho with
    | closure => exact .inl id
    | _ => cases hv
  | cell hc =>
    intro o ho
    rw [Cell.refers_value ho]
    refine .inr ⟨?_, Object.exists_of_cell hc⟩
    intro hempty
    rename_i cell
    cases cell <;> simp [Cell.object, Object.Exists, Store.empty] at hempty
  | held ho hv => exact h.store.held ho hv
  | current hv => exact fun o ho => State.Confined.control h o (Control.refers_of_mem hv ho)
  | waiting hf hv => exact fun o ho => State.Confined.frames h _ hf o (.inr ⟨v, hv, ho⟩)

theorem proceeds (h : m.Confined) (hm : Proceeds m m') :
    m'.Confined ∧ m.store.Grown m'.store := by
  cases hm with
  | environment =>
    have hnew := Store.Yields.newPrelude h
    exact ⟨hnew.confined, hnew.grown⟩
  | @load w d =>
    have hload := Store.Yields.load h d
    exact ⟨hload.confined, hload.grown⟩
  | output => exact ⟨h, .refl _⟩
  | program hv hparse =>
    exact ⟨.initial h (.inl id) (Store.Confined.parse h (within h hv) hparse), .refl _⟩
  | step hstep => exact State.Confined.transition h (State.transition_of_step hstep)
  | halt hstep =>
    have hhalt := State.Confined.halt h hstep
    refine ⟨hhalt.store, ?_⟩
    rw [Moment.store, Moment.store, State.store_of_halt hstep]
    exact .refl _

theorem proceedings (h : m.Confined) (hm : Proceedings m m') :
    m'.Confined ∧ m.store.Grown m'.store := by
  induction hm with
  | refl => exact ⟨h, .refl _⟩
  | tail _ hstep ih =>
    obtain ⟨hconfined, hgrown⟩ := ih
    obtain ⟨hconfined', hgrown'⟩ := hconfined.proceeds hstep
    exact ⟨hconfined', hgrown.trans hgrown'⟩

end Moment.Confined

/-- Programs never change a cell, and make new cells of older values. So all loops that follow
references end. -/
theorem Proceedings.cells_ordered {output : Output} {m m' : Moment}
    (h : Proceedings (.between ⟨.empty, output⟩) m) (h' : Proceedings m m') :
    m.store.Extends m'.store ∧ m'.store.Ordered ∧
      ∀ v, m.Obtains v → m'.store.Traverses v := by
  have hstart : (Moment.between ⟨.empty, output⟩).Confined := Store.Confined.empty
  obtain ⟨hm, -⟩ := hstart.proceedings h
  obtain ⟨hm', hgrown⟩ := hm.proceedings h'
  refine ⟨hgrown.cells, hm'.store.ordered, fun v hv => ?_⟩
  have hwithin := (hm.within hv).mono fun o => Territory.mono hgrown
  exact (Fits.of_before hm'.store.ordered (Store.Confined.before hwithin)).traverses

theorem Proceedings.cells_ordered_quoted :
    let a : Datum := .atom (.symbol ⟨"a"⟩)
    let w := (World.withPrelude.2.load (.abbreviated .quote (.list [a] .null))).2
    let s := State.initial w (.literal (.pair ⟨0⟩)) World.withPrelude.1
    ∃ t w', s.step none = .next t ∧ t.step none = .halt (.ok (.pair ⟨0⟩)) w' ∧
      w'.store.Ordered ∧ w'.store.Traverses (.pair ⟨0⟩) := by
  intro a w s
  have hread : Proceedings (.between ⟨.empty, .empty⟩) (.between w) :=
    .tail (.single .environment) .load
  have hprogram : Proceeds (.between w) (.during s) :=
    .program (Proceeds.obtains_load _ _) rfl
  have hstep : s.step none = .next ⟨w, .deliver (.pair ⟨0⟩), .empty⟩ := rfl
  have hhalt : State.step none ⟨w, .deliver (.pair ⟨0⟩), .empty⟩ = .halt (.ok (.pair ⟨0⟩)) w := rfl
  obtain ⟨-, hordered, htraverses⟩ :=
    cells_ordered ((hread.tail hprogram).tail (.step hstep)) (.single (.halt hhalt))
  exact ⟨_, _, hstep, hhalt, hordered, htraverses _ (.current (List.mem_singleton_self _))⟩

end SmallScheme
