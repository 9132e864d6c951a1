import SmallScheme.Proofs.Datum.Load
import SmallScheme.Proofs.Store.Names

/-! # What a store leads to

The objects of a store form a graph: a scope leads to its parent and to the values of its names, a
closure to its environment and to the literals of its body, a pair or vector to its contents. Work
on a store is confined to some objects if it changes only these and objects of its own, and comes by
no others.
-/

namespace SmallScheme

/-- What a store holds, apart from primitives, which lead to nothing. -/
inductive Object
  | pair (ref : CellRef)
  | vector (ref : CellRef)
  | closure (ref : ClosureRef)
  | scope (ref : ScopeRef)

inductive Value.Refers : Value → Object → Prop

  | pair {ref : CellRef} : Refers (.pair ref) (.pair ref)

  | vector {ref : CellRef} : Refers (.vector ref) (.vector ref)

  | closure {ref : ClosureRef} : Refers (.procedure (.closure ref)) (.closure ref)

/-- The value is one of these objects unless it is none at all. -/
def Value.Within (P : Object → Prop) (v : Value) : Prop := ∀ o, v.Refers o → P o

theorem Value.Within.mono {P Q : Object → Prop} {v : Value} (h : v.Within P)
    (hPQ : ∀ o, P o → Q o) : v.Within Q := fun o ho => hPQ o (h o ho)

namespace Expression

mutual

def literals : Expression → List Value
  | literal value => [value]
  | reference _ => []
  | define _ source | assign _ source => source.literals
  | ifElse test consequent alternate =>
    test.literals ++ (consequent.literals ++ alternate.literals)
  | ifOnly test consequent => test.literals ++ consequent.literals
  | lambda _ body => body.literals
  | call operator operands => operator.literals ++ allLiterals operands
  | sequence members => allLiterals members

def allLiterals : List Expression → List Value
  | [] => []
  | e :: rest => e.literals ++ allLiterals rest

end

end Expression

namespace Cell

def contents : Cell → List Value
  | pair car cdr => [car, cdr]
  | vector items => items

def object (ref : CellRef) : Cell → Object
  | pair .. => .pair ref
  | vector _ => .vector ref

end Cell

namespace Object

def cell? : Object → Option CellRef
  | pair ref | vector ref => some ref
  | closure _ | scope _ => none

def Exists (s : Store) : Object → Prop
  | pair ref => ∃ car cdr, s.cells[ref.index]? = some (.pair car cdr)
  | vector ref => ∃ items, s.cells[ref.index]? = some (.vector items)
  | closure ref => ref.index < s.closures.size
  | scope ref => ref.index < s.scopes.size

def Below (n : Nat) : Object → Prop
  | pair ref | vector ref => ref.index < n
  | _ => True

def New (start s : Store) (o : Object) : Prop := ¬ o.Exists start ∧ o.Exists s

variable {s : Store} {o : Object} {ref : CellRef} {cell : Cell}

theorem Exists.below (h : o.Exists s) : o.Below s.cells.size := by
  cases o with
  | pair ref =>
    obtain ⟨car, cdr, hc⟩ := h
    exact (Array.getElem?_eq_some_iff.mp hc).1
  | vector ref =>
    obtain ⟨items, hc⟩ := h
    exact (Array.getElem?_eq_some_iff.mp hc).1
  | _ => trivial

theorem exists_of_cell (h : s.cells[ref.index]? = some cell) : (cell.object ref).Exists s := by
  cases cell with
  | pair car cdr => exact ⟨car, cdr, h⟩
  | vector items => exact ⟨items, h⟩

end Object

namespace Store

inductive Holds (s : Store) : Object → Value → Prop

  | binding {ref : ScopeRef} {b : Symbol × Value} : b ∈ (s.scopeAt ref).bindings →
      Holds s (.scope ref) b.2

  | literal {ref : ClosureRef} {v : Value} : v ∈ (s.closureAt ref).body.literals →
      Holds s (.closure ref) v

  | car {ref : CellRef} {car cdr : Value} : s.cells[ref.index]? = some (.pair car cdr) →
      Holds s (.pair ref) car

  | cdr {ref : CellRef} {car cdr : Value} : s.cells[ref.index]? = some (.pair car cdr) →
      Holds s (.pair ref) cdr

  | item {ref : CellRef} {items : List Value} {v : Value} :
      s.cells[ref.index]? = some (.vector items) → v ∈ items → Holds s (.vector ref) v

section

variable {s : Store} {o : Object} {v : Value} {ref : CellRef} {cell : Cell}

theorem Holds.of_cell (h : s.cells[ref.index]? = some cell) (hv : v ∈ cell.contents) :
    s.Holds (cell.object ref) v := by
  cases cell with
  | pair car cdr =>
    rcases List.mem_pair.mp hv with rfl | rfl
    · exact .car h
    · exact .cdr h
  | vector items => exact .item h hv

theorem Holds.exists_cell (h : s.Holds o v) (ho : o.cell? = some ref) :
    ∃ cell, s.cells[ref.index]? = some cell ∧ v ∈ cell.contents := by
  cases h with
  | binding | literal => cases ho
  | car hc =>
    cases ho
    exact ⟨_, hc, .head _⟩
  | cdr hc =>
    cases ho
    exact ⟨_, hc, .tail _ (.head _)⟩
  | item hc hv =>
    cases ho
    exact ⟨_, hc, hv⟩

end

inductive Leads (s : Store) : Object → Object → Prop

  | value {o o' : Object} {v : Value} : s.Holds o v → v.Refers o' → Leads s o o'

  | parent {ref parent : ScopeRef} : s.parent? ref = some parent →
      Leads s (.scope ref) (.scope parent)

  | environment {ref : ClosureRef} :
      Leads s (.closure ref) (.scope (s.closureAt ref).environment)

/-- All that some objects lead to in the end. -/
inductive Reach (s : Store) (roots : Object → Prop) : Object → Prop

  | root {o : Object} : roots o → Reach s roots o

  | leads {o o' : Object} : Reach s roots o → s.Leads o o' → Reach s roots o'

end Store

namespace Object

/-- The object is as it was in the other store, where it was already. -/
def Same (s s' : Store) : Object → Prop
  | pair ref | vector ref => s'.cells[ref.index]? = s.cells[ref.index]?
  | closure ref => s'.closureAt ref = s.closureAt ref ∧
    (ref.index < s'.closures.size → ref.index < s.closures.size)
  | scope ref => s'.scopeAt ref = s.scopeAt ref ∧
    (ref.index < s'.scopes.size → ref.index < s.scopes.size)

variable {s s' : Store} {o o' : Object}

theorem Same.exists_of (h : o.Same s s') (ho : o.Exists s') : o.Exists s := by
  cases o with
  | pair ref | vector ref => rwa [Exists, show s'.cells[ref.index]? = _ from h] at ho
  | closure ref | scope ref => exact h.2 ho

theorem Same.leads (h : o.Same s s') (hl : s'.Leads o o') : s.Leads o o' := by
  cases hl with
  | value hv hr =>
    refine .value ?_ hr
    cases hv with
    | binding hb => exact .binding (h.1 ▸ hb)
    | literal hv => exact .literal (h.1 ▸ hv)
    | car hc => exact .car (h ▸ hc)
    | cdr hc => exact .cdr (h ▸ hc)
    | item hc hv => exact .item (h ▸ hc) hv
  | parent hp =>
    rw [Store.parent?, h.1] at hp
    exact .parent hp
  | environment =>
    rw [h.1]
    exact .environment

end Object

namespace Store

/-- Nothing has been removed, and no pair or vector has been changed. -/
structure Grown (s s' : Store) : Prop where
  cells : s.Extends s'
  closures : s.closures.size ≤ s'.closures.size
  scopes : s.scopes.size ≤ s'.scopes.size

namespace Grown

variable {s s₁ s₂ s₃ : Store}

theorem refl (s : Store) : s.Grown s := ⟨.refl s, le_rfl, le_rfl⟩

theorem trans (h : s₁.Grown s₂) (h' : s₂.Grown s₃) : s₁.Grown s₃ :=
  ⟨h.cells.trans h'.cells, h.closures.trans h'.closures, h.scopes.trans h'.scopes⟩

theorem «exists» (h : s₁.Grown s₂) {o : Object} (ho : o.Exists s₁) : o.Exists s₂ := by
  cases o with
  | pair ref =>
    obtain ⟨car, cdr, hc⟩ := ho
    exact ⟨car, cdr, h.cells hc⟩
  | vector ref =>
    obtain ⟨items, hc⟩ := ho
    exact ⟨items, h.cells hc⟩
  | closure ref => exact ho.trans_le h.closures
  | scope ref => exact ho.trans_le h.scopes

theorem newCell (s : Store) (cell : Cell) : s.Grown (s.newCell cell).2 :=
  ⟨extends_newCell s cell, le_rfl, le_rfl⟩

theorem newClosure (s : Store) (closure : Closure) : s.Grown (s.newClosure closure).2 :=
  ⟨.refl s, by simp [Store.newClosure], le_rfl⟩

theorem newScope (s : Store) (parent : Option ScopeRef) : s.Grown (s.newScope parent).2 :=
  ⟨.refl s, le_rfl, by simp [Store.newScope]⟩

theorem define (s : Store) (ref : ScopeRef) (name : Symbol) (value : Value) :
    s.Grown (s.define ref name value) :=
  ⟨.refl s, le_rfl, (s.size_define ref name value).ge⟩

end Grown

end Store

/-- Given objects, and those that work on a store has created. -/
def Territory (base : Object → Prop) (start s : Store) (o : Object) : Prop :=
  base o ∨ o.New start s

variable {base : Object → Prop} {start s s' s'' : Store} {o o' : Object} {v : Value}
  {vs : List Value}

theorem Territory.mono (h : s.Grown s') (ho : Territory base start s o) :
    Territory base start s' o := by
  rcases ho with ho | ⟨hstart, ho⟩
  · exact .inl ho
  · exact .inr ⟨hstart, h.exists ho⟩

/-- Work from the one store to the other has kept to its territory. -/
structure Store.Confined (start : Store) (base : Object → Prop) (s : Store) : Prop where
  grown : start.Grown s
  leads : ∀ o o', Territory base start s o → s.Leads o o' → Territory base start s o'
  outside : ∀ ref, (Object.scope ref).Exists start → ¬ base (.scope ref) →
    s.scopeAt ref = start.scopeAt ref
  order : ∀ ⦃i : Nat⦄ ⦃cell : Cell⦄, start.cells.size ≤ i → s.cells[i]? = some cell →
    ∀ v ∈ cell.contents, v.Within fun o => base o ∨ o.Below i

/-- Confined work goes on to another store and comes by some values. -/
structure Store.Yields (s : Store) (base : Object → Prop) (start : Store) (vs : List Value)
    (s' : Store) : Prop where
  grown : s.Grown s'
  confined : start.Confined base s'
  within : ∀ v ∈ vs, v.Within (Territory base start s')

namespace Store

/-- Work that has not begun is confined to what its objects lead to. -/
theorem Confined.begin (s : Store) (roots : Object → Prop) : s.Confined (s.Reach roots) s := by
  constructor
  · exact .refl s
  · rintro o o' (ho | ⟨hnew, ho⟩) hl
    · exact .inl (.leads ho hl)
    · exact (hnew ho).elim
  · exact fun _ _ _ => rfl
  · intro i cell hi hc
    exact absurd (Array.getElem?_eq_some_iff.mp hc).1 (Nat.not_lt_of_le hi)

theorem Confined.reach (h : start.Confined base s) {roots : Object → Prop}
    (hroots : ∀ o, roots o → Territory base start s o) (ho : s.Reach roots o) :
    Territory base start s o := by
  induction ho with
  | root ho => exact hroots _ ho
  | leads _ hl ih => exact h.leads _ _ ih hl

namespace Yields

theorem refl (h : start.Confined base s) (hvs : ∀ v ∈ vs, v.Within (Territory base start s)) :
    s.Yields base start vs s := ⟨.refl s, h, hvs⟩

theorem append {us : List Value} (h : s.Yields base start us s')
    (h' : s'.Yields base start vs s'') : s.Yields base start (us ++ vs) s'' := by
  refine ⟨h.grown.trans h'.grown, h'.confined, fun v hv => ?_⟩
  rcases List.mem_append.mp hv with hv | hv
  · exact (h.within v hv).mono fun o => .mono h'.grown
  · exact h'.within v hv

theorem of_subset {us : List Value} (h : s.Yields base start vs s') (hus : us ⊆ vs) :
    s.Yields base start us s' := ⟨h.grown, h.confined, fun v hv => h.within v (hus hv)⟩

theorem insert {us : List Value} (h : s.Yields base start us s') (vs : List Value)
    (hvs : ∀ v ∈ vs, v.Within (Territory base start s')) : s.Yields base start (vs ++ us) s' :=
  (h.append (.refl h.confined hvs)).of_subset (by simp)

theorem trans (h : s.Yields base start [] s') (h' : s'.Yields base start vs s'') :
    s.Yields base start vs s'' := h.append h'

end Yields

end Store

end SmallScheme
