import Mathlib.Data.List.Induction
import SmallScheme.Machine

/-! # The names of a scope

A definition gives a value to one name of one scope. It adds the name behind those that the scope
has, or leaves them as they are. Giving a new value to a name adds none, and a call starts with the
distinct names of its formals.
-/

namespace SmallScheme

def addName (names : List Symbol) (name : Symbol) : List Symbol :=
  if name ∈ names then names else names ++ [name]

theorem foldl_addName (names : List Symbol) : names.foldl addName [] = names.eraseDups := by
  induction names using List.reverseRecOn with
  | nil => rfl
  | append_singleton names name ih =>
    rw [List.foldl_append, ih, List.foldl_cons, List.foldl_nil, addName, List.eraseDups_append]
    by_cases h : name ∈ names
    · rw [if_pos (List.mem_eraseDups.mpr h)]
      simp [List.removeAll, h]
    · have hnew : [name].removeAll names = [name] := by simp [List.removeAll, h]
      rw [if_neg (mt List.mem_eraseDups.mp h), hnew]
      rfl

def Formals.names (formals : Formals) : List Symbol := formals.parameters ++ formals.rest.toList

namespace Scope

theorem names_insert (scope : Scope) (name : Symbol) (value : Value) :
    (scope.insert name value).names = addName scope.names name := by
  obtain ⟨parent, bindings⟩ := scope
  simp only [names, insert]
  induction bindings with
  | nil => rfl
  | cons binding bindings ih =>
    obtain ⟨key, old⟩ := binding
    rw [insertInto]
    split
    · rename_i h
      subst h
      simp [addName]
    · rename_i h
      rw [List.map_cons, ih]
      by_cases hmem : name ∈ bindings.map (·.1)
      · simp [addName, h, hmem]
      · simp [addName, h, hmem]

theorem binds_iff {scope : Scope} {name : Symbol} : scope.binds name ↔ name ∈ scope.names := by
  obtain ⟨parent, bindings⟩ := scope
  simp only [binds, find?, names]
  induction bindings with
  | nil => simp
  | cons binding bindings ih =>
    rw [List.lookup_cons, List.map_cons, List.mem_cons, ← ih]
    by_cases h : name = binding.1
    · simp [h]
    · have hb : (name == binding.1) = false := by simpa using h
      simp only [hb, h, false_or]

theorem find?_eq_none_iff {scope : Scope} {name : Symbol} :
    scope.find? name = none ↔ name ∉ scope.names := by
  rw [← binds_iff, binds, Option.not_isSome_iff_eq_none]

theorem find?_insert (scope : Scope) (name key : Symbol) (value : Value) :
    (scope.insert name value).find? key = if key = name then some value else scope.find? key := by
  obtain ⟨parent, bindings⟩ := scope
  simp only [find?, insert]
  induction bindings with
  | nil =>
    rw [insertInto, List.lookup_cons]
    by_cases h : key = name
    · simp [h]
    · simp only [beq_false_of_ne h, h, if_false, List.lookup_nil]
  | cons binding bindings ih =>
    obtain ⟨other, old⟩ := binding
    rw [insertInto]
    by_cases hname : name = other
    · subst hname
      rw [if_pos rfl, List.lookup_cons, List.lookup_cons]
      by_cases h : key = name
      · simp [h]
      · simp only [beq_false_of_ne h, h, if_false]
    · rw [if_neg hname, List.lookup_cons, List.lookup_cons, ih]
      by_cases h : key = other
      · simp [h, Ne.symm hname]
      · simp only [beq_false_of_ne h]

end Scope

structure Store.SameButCells (s s' : Store) : Prop where
  scopes : s'.scopes = s.scopes
  closures : s'.closures = s.closures
  primitives : s'.primitives = s.primitives

namespace Store

variable {s s' : Store} {ref other : ScopeRef} {name : Symbol} {value : Value}

namespace SameButCells

theorem refl (s : Store) : s.SameButCells s := ⟨rfl, rfl, rfl⟩

theorem trans {s₁ s₂ s₃ : Store} (h : s₁.SameButCells s₂) (h' : s₂.SameButCells s₃) :
    s₁.SameButCells s₃ :=
  ⟨h'.scopes.trans h.scopes, h'.closures.trans h.closures, h'.primitives.trans h.primitives⟩

theorem newCell (s : Store) (cell : Cell) : s.SameButCells (s.newCell cell).2 := ⟨rfl, rfl, rfl⟩

theorem list (s : Store) (items : List Value) (tail : Value) :
    s.SameButCells (s.list items tail).2 := by
  induction items with
  | nil => exact .refl s
  | cons item items ih => exact ih.trans (newCell _ _)

theorem scopeAt (h : s.SameButCells s') (ref : ScopeRef) : s'.scopeAt ref = s.scopeAt ref := by
  rw [Store.scopeAt, h.scopes, Store.scopeAt]

end SameButCells

theorem scopeAt_newScope (s : Store) (parent : Option ScopeRef) (ref : ScopeRef) :
    (s.newScope parent).2.scopeAt ref =
      if ref.index = s.scopes.size then ⟨parent, []⟩ else s.scopeAt ref := by
  simp only [scopeAt, newScope, Array.getElem?_push]
  split <;> rfl

theorem scopeAt_define (s : Store) (ref other : ScopeRef) (name : Symbol) (value : Value)
    (h : other.index < s.scopes.size) : (s.define ref name value).scopeAt other =
      if ref = other then (s.scopeAt other).insert name value else s.scopeAt other := by
  simp only [scopeAt, define, Array.getElem?_modify, Array.getElem?_eq_getElem h]
  have hiff : ref.index = other.index ↔ ref = other := by
    cases ref
    cases other
    simp
  by_cases hr : ref = other <;> simp [hiff, hr]

theorem scopeAt_define_cases (s : Store) (ref other : ScopeRef) (name : Symbol) (value : Value) :
    (s.define ref name value).scopeAt other = s.scopeAt other ∨
      ref = other ∧
        (s.define ref name value).scopeAt other = (s.scopeAt other).insert name value := by
  by_cases h : other.index < s.scopes.size
  · rw [scopeAt_define s ref other name value h]
    split
    · exact .inr ⟨by assumption, rfl⟩
    · exact .inl rfl
  · simp [scopeAt, define, Array.getElem?_modify, Array.getElem?_eq_none (Nat.le_of_not_lt h)]

theorem parent?_define (s : Store) (ref other : ScopeRef) (name : Symbol) (value : Value) :
    (s.define ref name value).parent? other = s.parent? other := by
  rcases scopeAt_define_cases s ref other name value with h | ⟨-, h⟩
  · rw [parent?, h, parent?]
  · rw [parent?, h, parent?, Scope.insert]

theorem find?_define (h : ref.index < s.scopes.size) (other : ScopeRef) (name key : Symbol)
    (value : Value) : ((s.define ref name value).scopeAt other).find? key =
      if ref = other ∧ key = name then some value else (s.scopeAt other).find? key := by
  by_cases hr : ref = other
  · subst hr
    rw [scopeAt_define s ref ref name value h, if_pos rfl, Scope.find?_insert]
    simp only [true_and]
  · rw [if_neg fun hand => hr hand.1]
    rcases scopeAt_define_cases s ref other name value with heq | ⟨hr', -⟩
    · rw [heq]
    · exact (hr hr').elim

theorem names_define_self (h : ref.index < s.scopes.size) (name : Symbol) (value : Value) :
    (s.define ref name value).names ref = addName (s.names ref) name := by
  rw [names, scopeAt_define s ref ref name value h, if_pos rfl, Scope.names_insert, names]

theorem names_define_of_ne (h : other.index < s.scopes.size) (hne : ref ≠ other) (name : Symbol)
    (value : Value) : (s.define ref name value).names other = s.names other := by
  rw [names, scopeAt_define s ref other name value h, if_neg hne, names]

theorem names_define_of_mem (hmem : name ∈ s.names ref) (h : other.index < s.scopes.size)
    (value : Value) : (s.define ref name value).names other = s.names other := by
  by_cases hr : ref = other
  · subst hr
    rw [names_define_self h, addName, if_pos hmem]
  · exact names_define_of_ne h hr name value

theorem size_define (s : Store) (ref : ScopeRef) (name : Symbol) (value : Value) :
    (s.define ref name value).scopes.size = s.scopes.size := Array.size_modify

theorem resolve_of_binds (h : (s.scopeAt ref).binds name) : s.resolve ref name = some ref := by
  rw [resolve, if_pos h]

theorem resolve_of_parent {parent : ScopeRef} (h : ¬ (s.scopeAt ref).binds name)
    (hp : s.parent? ref = some parent) : s.resolve ref name = s.resolve parent name := by
  rw [resolve, if_neg h]
  split
  · rename_i hp'
    cases hp.symm.trans hp'
    rfl
  · rename_i hp'
    cases hp.symm.trans hp'

theorem resolve_of_root (h : ¬ (s.scopeAt ref).binds name) (hp : s.parent? ref = none) :
    s.resolve ref name = none := by
  rw [resolve, if_neg h]
  split
  · rename_i hp'
    cases hp.symm.trans hp'
  · rfl

theorem scopesFrom_of_parent {parent : ScopeRef} (hp : s.parent? ref = some parent) :
    s.scopesFrom ref = ref :: s.scopesFrom parent := by
  rw [scopesFrom]
  split
  · rename_i hp'
    cases hp.symm.trans hp'
    rfl
  · rename_i hp'
    cases hp.symm.trans hp'

theorem scopesFrom_of_root (hp : s.parent? ref = none) : s.scopesFrom ref = [ref] := by
  rw [scopesFrom]
  split
  · rename_i hp'
    cases hp.symm.trans hp'
  · rfl

theorem depth_of_parent? {parent : ScopeRef} (hp : s.parent? ref = some parent) :
    s.depth ref = s.depth parent + 1 := by
  rw [depth]
  split
  · rename_i hp'
    cases hp.symm.trans hp'
    rfl
  · rename_i hp'
    cases hp.symm.trans hp'

theorem depth_of_root (hp : s.parent? ref = none) : s.depth ref = 1 := by
  rw [depth]
  split
  · rename_i hp'
    cases hp.symm.trans hp'
  · rfl

theorem length_scopesFrom (s : Store) (ref : ScopeRef) :
    (s.scopesFrom ref).length = s.depth ref := by
  induction ref using scopesFrom.induct s with
  | case1 ref parent hp _ ih =>
    rw [scopesFrom_of_parent hp, List.length_cons, ih, depth_of_parent? hp]
  | case2 ref hp => rw [scopesFrom_of_root hp, depth_of_root hp, List.length_singleton]

theorem resolve_eq_find? (s : Store) (ref : ScopeRef) (name : Symbol) :
    s.resolve ref name = (s.scopesFrom ref).find? fun scope => (s.scopeAt scope).binds name := by
  induction ref using resolve.induct s name with
  | case1 ref hb =>
    rw [resolve_of_binds hb]
    cases hp : s.parent? ref with
    | none => simp only [scopesFrom_of_root hp, List.find?_cons, hb]
    | some parent => simp only [scopesFrom_of_parent hp, List.find?_cons, hb]
  | case2 ref hb parent hp _ ih =>
    simp only [resolve_of_parent hb hp, scopesFrom_of_parent hp, List.find?_cons, hb, ih]
  | case3 ref hb hp =>
    simp only [resolve_of_root hb hp, scopesFrom_of_root hp, List.find?_cons, hb, List.find?_nil]

theorem findSome?_scopesFrom (s : Store) (ref : ScopeRef) (name : Symbol) :
    ((s.scopesFrom ref).findSome? fun scope => (s.scopeAt scope).find? name) =
      (s.resolve ref name).bind fun scope => (s.scopeAt scope).find? name := by
  rw [resolve_eq_find?]
  induction s.scopesFrom ref with
  | nil => rfl
  | cons scope scopes ih =>
    simp only [List.findSome?_cons, List.find?_cons, Scope.binds]
    cases hv : (s.scopeAt scope).find? name with
    | some value => exact hv.symm
    | none => exact ih

/-- The value of a name is that in the scope that it refers to. -/
theorem lookup_eq_ok_iff : s.lookup ref name = .ok value ↔
    ∃ scope, s.resolve ref name = some scope ∧ (s.scopeAt scope).find? name = some value := by
  rw [← Option.bind_eq_some_iff, ← findSome?_scopesFrom, lookup]
  cases (s.scopesFrom ref).findSome? fun scope => (s.scopeAt scope).find? name <;> simp

theorem lookup_of_find? (h : (s.scopeAt ref).find? name = some value) :
    s.lookup ref name = .ok value :=
  lookup_eq_ok_iff.mpr ⟨ref, resolve_of_binds (Option.isSome_of_eq_some h), h⟩

theorem lookup_of_unresolved (h : s.resolve ref name = none) :
    s.lookup ref name = .error (.unbound name) := by
  have hnone := s.findSome?_scopesFrom ref name
  rw [h, Option.bind_none] at hnone
  simp only [lookup, hnone]

theorem mem_names_of_resolve {scope : ScopeRef} (h : s.resolve ref name = some scope) :
    name ∈ s.names scope := by
  induction ref using resolve.induct s name with
  | case1 ref hb =>
    cases (resolve_of_binds hb).symm.trans h
    exact Scope.binds_iff.mp hb
  | case2 ref hb parent hp _ ih => exact ih (resolve_of_parent hb hp ▸ h)
  | case3 ref hb hp => cases (resolve_of_root hb hp).symm.trans h

end Store

theorem Formals.length_le {formals : Formals} {given : Nat} {u : Unit}
    (h : formals.accept given = .ok u) : formals.parameters.length ≤ given := by
  unfold accept at h
  dsimp only at h
  split at h
  all_goals
    split at h
    · cases h
    · omega

structure Store.Defines (s : Store) (ref : ScopeRef) (names : List Symbol) (s' : Store) : Prop where
  size : s'.scopes.size = s.scopes.size
  closures : s'.closures = s.closures
  names : ref.index < s.scopes.size → s'.names ref = names.foldl addName (s.names ref)
  others : ∀ other, other.index < s.scopes.size → ref ≠ other → s'.names other = s.names other

namespace Store.Defines

variable {s s₁ s₂ s₃ : Store} {ref : ScopeRef} {names names' : List Symbol}

theorem of_sameButCells (h : s.SameButCells s₁) (ref : ScopeRef) : s.Defines ref [] s₁ := by
  have hnames : ∀ other, s₁.names other = s.names other := fun other => by
    rw [Store.names, h.scopeAt, Store.names]
  exact ⟨by rw [h.scopes], h.closures, fun _ => hnames ref, fun other _ _ => hnames other⟩

theorem define (s : Store) (ref : ScopeRef) (name : Symbol) (value : Value) :
    s.Defines ref [name] (s.define ref name value) :=
  ⟨s.size_define ref name value, rfl, fun h => names_define_self h name value,
    fun _ h hne => names_define_of_ne h hne name value⟩

theorem trans (h : s₁.Defines ref names s₂) (h' : s₂.Defines ref names' s₃) :
    s₁.Defines ref (names ++ names') s₃ := by
  refine ⟨h'.size.trans h.size, h'.closures.trans h.closures, fun hr => ?_, fun other ho hne => ?_⟩
  · rw [h'.names (h.size ▸ hr), h.names hr, List.foldl_append]
  · rw [h'.others other (h.size ▸ ho) hne, h.others other ho hne]

theorem defineEach (s : Store) (ref : ScopeRef) {names : List Symbol} {values : List Value}
    (h : names.length ≤ values.length) : s.Defines ref names (s.defineEach ref names values).2 := by
  induction names generalizing s values with
  | nil => exact of_sameButCells (.refl s) ref
  | cons name names ih =>
    cases values with
    | nil => exact absurd h (Nat.not_succ_le_zero _)
    | cons value values => exact (define s ref name value).trans (ih _ (Nat.le_of_succ_le_succ h))

end Store.Defines

namespace Store

theorem defineEach_fst (s : Store) (ref : ScopeRef) (names : List Symbol) (values : List Value) :
    (s.defineEach ref names values).1 = values.drop names.length := by
  induction names generalizing s values with
  | nil => rfl
  | cons name names ih =>
    cases values with
    | nil => rfl
    | cons value values => exact ih (s.define ref name value) values

end Store

namespace Closure

/-- The store with the new scope of a call, in which the parameters are bound. -/
def bindParameters (closure : Closure) (arguments : List Value) (s : Store) : Store :=
  ((s.newScope (some closure.environment)).2.defineEach ⟨s.scopes.size⟩ closure.formals.parameters
    arguments).2

def listFurther (closure : Closure) (arguments : List Value) (s : Store) : Value × Store :=
  (closure.bindParameters arguments s).list (arguments.drop closure.formals.parameters.length) .null

/-- A call binds the parameters, and then the rest parameter if there is one. -/
theorem newCallScope_cases {closure : Closure} {arguments : List Value} {s s' : Store}
    {ref : ScopeRef} (h : closure.newCallScope arguments s = (.ok ref, s')) :
    closure.formals.parameters.length ≤ arguments.length ∧ ref = ⟨s.scopes.size⟩ ∧
      (closure.formals.rest = none ∧ s' = closure.bindParameters arguments s ∨
        ∃ rest, closure.formals.rest = some rest ∧
          s' = (closure.listFurther arguments s).2.define ⟨s.scopes.size⟩ rest
            (closure.listFurther arguments s).1) := by
  simp only [newCallScope, Store.newScope, Store.defineEach_fst] at h
  split at h
  · cases h
  · rename_i haccept
    split at h
    · rename_i hrest
      cases h
      exact ⟨Formals.length_le haccept, rfl, .inl ⟨hrest, rfl⟩⟩
    · rename_i rest hrest
      cases h
      exact ⟨Formals.length_le haccept, rfl, .inr ⟨rest, hrest, rfl⟩⟩

end Closure

structure Closure.Enters (closure : Closure) (s : Store) (ref : ScopeRef) (s' : Store) : Prop where
  index : ref.index = s.scopes.size
  size : s'.scopes.size = s.scopes.size + 1
  closures : s'.closures = s.closures
  names : s'.names ref = closure.formals.names.eraseDups
  others : ∀ other, other.index < s.scopes.size → s'.names other = s.names other

theorem Closure.Enters.of_defines {closure : Closure} {s s' : Store} {parent : Option ScopeRef}
    (h : (s.newScope parent).2.Defines ⟨s.scopes.size⟩ closure.formals.names s') :
    closure.Enters s ⟨s.scopes.size⟩ s' := by
  have hsize : (s.newScope parent).2.scopes.size = s.scopes.size + 1 := Array.size_push ..
  refine ⟨rfl, h.size.trans hsize, h.closures, ?_, fun other ho => ?_⟩
  · have hempty : (s.newScope parent).2.names ⟨s.scopes.size⟩ = [] := by
      rw [Store.names, Store.scopeAt_newScope, if_pos rfl, Scope.names, List.map_nil]
    rw [h.names (by rw [hsize]; exact Nat.lt_succ_self _), hempty, foldl_addName]
  · have hne : (⟨s.scopes.size⟩ : ScopeRef) ≠ other := by
      rintro rfl
      exact Nat.lt_irrefl _ ho
    rw [h.others other (by omega) hne, Store.names, Store.scopeAt_newScope,
      if_neg (Nat.ne_of_lt ho), Store.names]

theorem Closure.enters {closure : Closure} {arguments : List Value} {s s' : Store}
    {ref : ScopeRef} (h : closure.newCallScope arguments s = (.ok ref, s')) :
    closure.Enters s ref s' := by
  obtain ⟨hlength, rfl, hcases⟩ := newCallScope_cases h
  have hparameters := Store.Defines.defineEach (s.newScope (some closure.environment)).2
    ⟨s.scopes.size⟩ hlength
  refine @Enters.of_defines closure s s' (some closure.environment) ?_
  rcases hcases with ⟨hrest, rfl⟩ | ⟨rest, hrest, rfl⟩
  · rw [Formals.names, hrest, Option.toList_none, List.append_nil]
    exact hparameters
  · rw [Formals.names, hrest, Option.toList_some]
    -- The list of the further arguments is stored before it gets its name.
    exact hparameters.trans ((Store.Defines.of_sameButCells (.list ..) _).trans (.define _ _ rest _))

end SmallScheme
