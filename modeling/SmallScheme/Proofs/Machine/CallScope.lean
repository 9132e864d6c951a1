import SmallScheme.Proofs.Store.Lists
import SmallScheme.Proofs.Store.Names

/-! # The scope of a call

A call is accepted as an arity says. It then gets a new scope with one binding for each distinct
name of the formals: an argument for a parameter, a new list of the further arguments for the rest
parameter. Nothing that was there before changes.
-/

namespace SmallScheme

variable {s s' s₁ s₂ s₃ : Store} {ρ σ : ScopeRef} {name : Symbol} {names : List Symbol}
  {vs : List Value} {closure : Closure}

def Formals.arity (formals : Formals) : Arity :=
  match formals.rest with
  | none => .exactly formals.parameters.length
  | some _ => .atLeast formals.parameters.length

/-- A call checks the number of its arguments as an arity does. -/
theorem Formals.accept_eq_check (formals : Formals) (given : Nat) :
    formals.accept given = formals.arity.check given := by
  unfold accept arity
  cases formals.rest with
  | none =>
    by_cases h : given = formals.parameters.length
    · simp [Arity.check, Arity.exactly, h]
    · simp [Arity.check, Arity.exactly, h]
  | some rest =>
    by_cases h : given < formals.parameters.length
    · simp [Arity.check, Arity.atLeast, h]
    · simp [Arity.check, Arity.atLeast, h]

namespace Store

structure SameButBindings (s : Store) (ρ : ScopeRef) (s' : Store) : Prop where
  cells : s'.cells = s.cells
  closures : s'.closures = s.closures
  primitives : s'.primitives = s.primitives
  size : s'.scopes.size = s.scopes.size
  parent : (s'.scopeAt ρ).parent = (s.scopeAt ρ).parent
  others : ∀ σ, ρ ≠ σ → s'.scopeAt σ = s.scopeAt σ

namespace SameButBindings

theorem refl (s : Store) (ρ : ScopeRef) : s.SameButBindings ρ s :=
  ⟨rfl, rfl, rfl, rfl, rfl, fun _ _ => rfl⟩

theorem trans (h : s₁.SameButBindings ρ s₂) (h' : s₂.SameButBindings ρ s₃) :
    s₁.SameButBindings ρ s₃ := by
  refine ⟨h'.cells.trans h.cells, h'.closures.trans h.closures, h'.primitives.trans h.primitives,
    h'.size.trans h.size, h'.parent.trans h.parent, fun σ hσ => ?_⟩
  rw [h'.others σ hσ, h.others σ hσ]

theorem define (s : Store) (ρ : ScopeRef) (name : Symbol) (v : Value) :
    s.SameButBindings ρ (s.define ρ name v) := by
  refine ⟨rfl, rfl, rfl, s.size_define ρ name v, ?_, fun σ hσ => ?_⟩
  · rcases s.scopeAt_define_cases ρ ρ name v with h | ⟨-, h⟩
    · rw [h]
    · rw [h, Scope.insert]
  · rcases s.scopeAt_define_cases ρ σ name v with h | ⟨h, -⟩
    · exact h
    · exact (hσ h).elim

theorem defineEach (s : Store) (ρ : ScopeRef) (names : List Symbol) (vs : List Value) :
    s.SameButBindings ρ (s.defineEach ρ names vs).2 := by
  induction names generalizing s vs with
  | nil => exact .refl s ρ
  | cons name names ih =>
    cases vs with
    | nil => exact .refl s ρ
    | cons v vs => exact (define s ρ name v).trans (ih _ vs)

end SameButBindings

theorem find?_defineEach_of_notMem (hρ : ρ.index < s.scopes.size) (h : name ∉ names) :
    ((s.defineEach ρ names vs).2.scopeAt ρ).find? name = (s.scopeAt ρ).find? name := by
  induction names generalizing s vs with
  | nil => rfl
  | cons first names ih =>
    cases vs with
    | nil => rfl
    | cons v vs =>
      obtain ⟨hfirst, hnames⟩ := not_or.mp (mt List.mem_cons.mpr h)
      rw [defineEach, ih (hρ.trans_eq (s.size_define ρ first v).symm) hnames, find?_define hρ,
        if_neg fun hand => hfirst hand.2]

/-- Of the values for a name, the last one counts. -/
theorem find?_defineEach (hρ : ρ.index < s.scopes.size) {k : Nat} (hk : k < vs.length)
    (hname : names[k]? = some name) (hlast : ∀ j, k < j → names[j]? ≠ some name) :
    ((s.defineEach ρ names vs).2.scopeAt ρ).find? name = some vs[k] := by
  induction names generalizing s vs k with
  | nil => cases hname
  | cons first names ih =>
    cases vs with
    | nil => cases hk
    | cons v vs =>
      have hsize := hρ.trans_eq (s.size_define ρ first v).symm
      rw [defineEach]
      cases k with
      | zero =>
        obtain rfl : first = name := by simpa using hname
        have hnot : first ∉ names := by
          intro hmem
          obtain ⟨j, hj⟩ := List.mem_iff_getElem?.mp hmem
          exact hlast (j + 1) (Nat.succ_pos j) hj
        rw [find?_defineEach_of_notMem hsize hnot, find?_define hρ, if_pos ⟨rfl, rfl⟩]
        rfl
      | succ k =>
        exact ih hsize (Nat.lt_of_succ_lt_succ hk) hname fun j hj =>
          hlast (j + 1) (Nat.succ_lt_succ hj)

end Store

namespace Closure

/-- The second store is the first one with a new scope for a call. -/
structure CallScope (closure : Closure) (arguments : List Value) (s : Store) (ρ : ScopeRef)
    (s' : Store) : Prop where
  index : ρ.index = s.scopes.size
  size : s'.scopes.size = s.scopes.size + 1
  parent : (s'.scopeAt ρ).parent = some closure.environment
  names : s'.names ρ = closure.formals.names.eraseDups
  parameter : ∀ (k : Nat) (name : Symbol), closure.formals.parameters[k]? = some name →
    (∀ j, k < j → closure.formals.parameters[j]? ≠ some name) → closure.formals.rest ≠ some name →
    ∃ v, arguments[k]? = some v ∧ (s'.scopeAt ρ).find? name = some v
  rest : ∀ name, closure.formals.rest = some name → ∃ list, (s'.scopeAt ρ).find? name = some list ∧
    NewChain s s' list (arguments.drop closure.formals.parameters.length) .null
  scopes : ∀ σ, σ.index < s.scopes.size → s'.scopeAt σ = s.scopeAt σ
  cells : s.Extends s'
  closures : s'.closures = s.closures
  primitives : s'.primitives = s.primitives

section

variable (closure : Closure) (arguments : List Value) (s : Store)

theorem sameButBindings_bindParameters :
    (s.newScope (some closure.environment)).2.SameButBindings ⟨s.scopes.size⟩
      (closure.bindParameters arguments s) := .defineEach ..

theorem parent_bindParameters :
    ((closure.bindParameters arguments s).scopeAt ⟨s.scopes.size⟩).parent =
      some closure.environment := by
  rw [(closure.sameButBindings_bindParameters arguments s).parent, Store.scopeAt_newScope,
    if_pos rfl]

theorem extends_bindParameters : s.Extends (closure.bindParameters arguments s) := by
  intro i c hc
  rw [(closure.sameButBindings_bindParameters arguments s).cells]
  exact hc

end

theorem new_ne (hσ : σ.index < s.scopes.size) : (⟨s.scopes.size⟩ : ScopeRef) ≠ σ := by
  rintro rfl
  exact Nat.lt_irrefl _ hσ

theorem scopeAt_bindParameters (arguments : List Value) (hσ : σ.index < s.scopes.size) :
    (closure.bindParameters arguments s).scopeAt σ = s.scopeAt σ := by
  rw [(closure.sameButBindings_bindParameters arguments s).others σ (new_ne hσ),
    Store.scopeAt_newScope, if_neg hσ.ne]

theorem find?_bindParameters {arguments : List Value} {k : Nat}
    (hlength : closure.formals.parameters.length ≤ arguments.length)
    (hname : closure.formals.parameters[k]? = some name)
    (hlast : ∀ j, k < j → closure.formals.parameters[j]? ≠ some name) :
    ∃ v, arguments[k]? = some v ∧
      ((closure.bindParameters arguments s).scopeAt ⟨s.scopes.size⟩).find? name = some v := by
  have hk := (List.getElem?_eq_some_iff.mp hname).1.trans_le hlength
  have hnew : (⟨s.scopes.size⟩ : ScopeRef).index <
      (s.newScope (some closure.environment)).2.scopes.size := by
    simp [Store.newScope]
  exact ⟨arguments[k], List.getElem?_eq_getElem hk, Store.find?_defineEach hnew hk hname hlast⟩

theorem callScope {arguments : List Value} (h : closure.newCallScope arguments s = (.ok ρ, s')) :
    closure.CallScope arguments s ρ s' := by
  obtain ⟨hindex, hsize, hclosures, hnames, -⟩ := Closure.enters h
  obtain ⟨hlength, rfl, ⟨hrest, rfl⟩ | ⟨rest, hrest, rfl⟩⟩ := newCallScope_cases h
  · exact {
      index := hindex
      size := hsize
      parent := closure.parent_bindParameters arguments s
      names := hnames
      parameter := fun _ _ hname hlast _ => find?_bindParameters hlength hname hlast
      rest := fun name hname => nomatch hrest.symm.trans hname
      scopes := fun _ => scopeAt_bindParameters arguments
      cells := closure.extends_bindParameters arguments s
      closures := hclosures
      primitives := (closure.sameButBindings_bindParameters arguments s).primitives }
  · -- The rest parameter is bound after the others, when its list is in the store.
    have hbind := closure.sameButBindings_bindParameters arguments s
    have hlist : (closure.bindParameters arguments s).SameButCells
        (closure.listFurther arguments s).2 := .list ..
    have hdefine := Store.SameButBindings.define (closure.listFurther arguments s).2
      ⟨s.scopes.size⟩ rest (closure.listFurther arguments s).1
    have hnew : (⟨s.scopes.size⟩ : ScopeRef).index <
        (closure.listFurther arguments s).2.scopes.size := by
      rw [← hdefine.size, hsize]
      exact Nat.lt_succ_self _
    refine ⟨hindex, hsize, ?_, hnames, fun k name hname hlast hother => ?_, fun name hname => ?_,
      fun σ hσ => ?_, ?_, hclosures, ?_⟩
    · rw [hdefine.parent, hlist.scopeAt, parent_bindParameters]
    · have hkey : name ≠ rest := fun hkey => hother (hkey ▸ hrest)
      rw [Store.find?_define hnew, if_neg (mt And.right hkey), hlist.scopeAt]
      exact find?_bindParameters hlength hname hlast
    · cases hrest.symm.trans hname
      have hchain := Store.newChain_list (closure.bindParameters arguments s)
        (arguments.drop closure.formals.parameters.length) .null
      refine ⟨(closure.listFurther arguments s).1, ?_, hchain.mono ?_ (.refl _)⟩
      · rw [Store.find?_define hnew, if_pos ⟨rfl, rfl⟩]
      · rw [hbind.cells]
        exact le_rfl
    · rw [hdefine.others σ (new_ne hσ), hlist.scopeAt, scopeAt_bindParameters arguments hσ]
    · exact (closure.extends_bindParameters arguments s).trans (Store.extends_list ..)
    · rw [hdefine.primitives, hlist.primitives, hbind.primitives]
      rfl

/-- A call fails exactly if its arity refuses the arguments, and changes nothing then; otherwise it
gets its scope. -/
theorem newCallScope_exact (closure : Closure) (arguments : List Value) (s : Store) :
    match closure.formals.arity.check arguments.length with
    | .error e => closure.newCallScope arguments s = (.error e, s)
    | .ok _ => ∃ ρ s', closure.newCallScope arguments s = (.ok ρ, s') ∧
        closure.CallScope arguments s ρ s' := by
  rw [← Formals.accept_eq_check]
  cases haccept : closure.formals.accept arguments.length with
  | error e => simp only [newCallScope, haccept]
  | ok u =>
    obtain ⟨s', hcall⟩ : ∃ s', closure.newCallScope arguments s = (.ok ⟨s.scopes.size⟩, s') := by
      simp only [newCallScope, haccept]
      cases closure.formals.rest with
      | none => exact ⟨_, rfl⟩
      | some rest => exact ⟨_, rfl⟩
    exact ⟨_, s', hcall, callScope hcall⟩

/-- A parameter that comes up twice has its place by the first time and its value by the second. -/
example :
    let closure : Closure := ⟨⟨0⟩, ⟨[⟨"x"⟩, ⟨"y"⟩, ⟨"x"⟩], none⟩, .literal .void⟩
    ((closure.newCallScope [.null, .null, .void] .empty).2.scopeAt ⟨0⟩).bindings =
      [(⟨"x"⟩, .void), (⟨"y"⟩, .null)] := rfl

end Closure

end SmallScheme
