import SmallScheme.Operation
import SmallScheme.Proofs.Store.Confinement

/-! # Growing scopes

Whatever happens to scopes comes down to new ones, definitions, and assignments to names that are
there. So a scope keeps its parent, and its names only get more.
-/

namespace SmallScheme

variable {s s' s₁ s₂ : Store} {ρ σ π : ScopeRef} {name : Symbol} {v : Value} {vs : List Value}
  {names : List Symbol} {closure : Closure} {ds ds' : List (ScopeRef × Symbol)}

theorem addName_eq_append (names : List Symbol) (name : Symbol) :
    ∃ added, addName names name = names ++ added ∧ added.Nodup ∧
      ∀ x ∈ added, x ∉ names ∧ x = name := by
  by_cases h : name ∈ names
  · exact ⟨[], by simp [addName, h], .nil, List.forall_mem_nil _⟩
  · exact ⟨[name], by simp [addName, h], List.nodup_singleton _, by simpa using h⟩

namespace Store

inductive Ancestry (s : Store) : ScopeRef → List ScopeRef → Prop

  | root {ρ : ScopeRef} : (s.scopeAt ρ).parent = none → Ancestry s ρ [ρ]

  | child {ρ π : ScopeRef} {path : List ScopeRef} : (s.scopeAt ρ).parent = some π →
      Ancestry s π path → Ancestry s ρ (ρ :: path)

/-- Scopes come behind their parents, and closures belong to scopes that exist. -/
structure Founded (s : Store) : Prop where
  parents : ∀ ρ π, (s.scopeAt ρ).parent = some π → π.index < ρ.index
  names : ∀ ρ, (s.names ρ).Nodup
  closures : ∀ ref, ref.index < s.closures.size →
    (s.closureAt ref).environment.index < s.scopes.size

/-- With these definitions, each of a name in a scope, the one store becomes the other. -/
inductive Alters : Store → List (ScopeRef × Symbol) → Store → Prop

  | kept {s s' : Store} : s'.scopes = s.scopes → s'.closures = s.closures → Alters s [] s'

  | closure {s : Store} {closure : Closure} : closure.environment.index < s.scopes.size →
      Alters s [] (s.newClosure closure).2

  | scope {s : Store} {parent : Option ScopeRef} :
      (∀ π, parent = some π → π.index < s.scopes.size) → Alters s [] (s.newScope parent).2

  | define {s : Store} {ρ : ScopeRef} {name : Symbol} {v : Value} : ρ.index < s.scopes.size →
      Alters s [(ρ, name)] (s.define ρ name v)

  | assign {s : Store} {ρ σ : ScopeRef} {name : Symbol} {v : Value} :
      s.resolve ρ name = some σ → Alters s [] (s.define σ name v)

  | trans {s₁ s₂ s₃ : Store} {ds ds' : List (ScopeRef × Symbol)} : Alters s₁ ds s₂ →
      Alters s₂ ds' s₃ → Alters s₁ (ds ++ ds') s₃

/-- Scopes have kept their parents, and definitions have put new names behind the others. -/
structure Grows (s : Store) (ds : List (ScopeRef × Symbol)) (s' : Store) : Prop where
  size : s.scopes.size ≤ s'.scopes.size
  parent : ∀ ρ, ρ.index < s.scopes.size → (s'.scopeAt ρ).parent = (s.scopeAt ρ).parent
  names : ∀ ρ, ∃ added, s'.names ρ = s.names ρ ++ added ∧ added.Nodup ∧
    ∀ x ∈ added, x ∉ s.names ρ ∧ (ρ, x) ∈ ds

namespace Grows

theorem of_scopes (h : s'.scopes = s.scopes) : s.Grows [] s' := by
  have hscope : ∀ ρ, s'.scopeAt ρ = s.scopeAt ρ := fun ρ => by rw [scopeAt, h, scopeAt]
  refine ⟨h ▸ le_rfl, fun ρ _ => by rw [hscope], fun ρ => ⟨[], ?_, .nil, List.forall_mem_nil _⟩⟩
  rw [Store.names, hscope, List.append_nil, Store.names]

theorem trans (h : s.Grows ds s₁) (h' : s₁.Grows ds' s₂) : s.Grows (ds ++ ds') s₂ := by
  constructor
  · exact h.size.trans h'.size
  · intro ρ hρ
    rw [h'.parent ρ (hρ.trans_le h.size), h.parent ρ hρ]
  · intro ρ
    obtain ⟨added, heq, hnodup, hadded⟩ := h.names ρ
    obtain ⟨added', heq', hnodup', hadded'⟩ := h'.names ρ
    refine ⟨added ++ added', by rw [heq', heq, List.append_assoc], ?_, fun x hx => ?_⟩
    · refine List.nodup_append.mpr ⟨hnodup, hnodup', ?_⟩
      rintro x hx _ hx' rfl
      exact (hadded' x hx').1 (heq ▸ List.mem_append_right _ hx)
    · rcases List.mem_append.mp hx with hx | hx
      · exact ⟨(hadded x hx).1, List.mem_append_left _ (hadded x hx).2⟩
      · exact ⟨fun hmem => (hadded' x hx).1 (heq ▸ List.mem_append_left _ hmem),
          List.mem_append_right _ (hadded' x hx).2⟩

theorem isPrefix (h : s.Grows ds s') (ρ : ScopeRef) : s.names ρ <+: s'.names ρ := by
  obtain ⟨added, heq, -⟩ := h.names ρ
  exact ⟨added, heq.symm⟩

end Grows

theorem names_define_cases (s : Store) (ρ σ : ScopeRef) (name : Symbol) (v : Value) :
    (s.define ρ name v).names σ = s.names σ ∨
      ρ = σ ∧ (s.define ρ name v).names σ = addName (s.names σ) name := by
  rcases scopeAt_define_cases s ρ σ name v with h | ⟨rfl, h⟩
  · exact .inl (by rw [names, h, names])
  · exact .inr ⟨rfl, by rw [names, h, Scope.names_insert, names]⟩

theorem parent_define (s : Store) (ρ σ : ScopeRef) (name : Symbol) (v : Value) :
    ((s.define ρ name v).scopeAt σ).parent = (s.scopeAt σ).parent := by
  rcases scopeAt_define_cases s ρ σ name v with h | ⟨rfl, h⟩
  · rw [h]
  · rw [h, Scope.insert]

theorem Grows.define (s : Store) (ρ : ScopeRef) (name : Symbol) (v : Value) :
    s.Grows [(ρ, name)] (s.define ρ name v) := by
  refine ⟨(s.size_define ρ name v).ge, fun σ _ => s.parent_define ρ σ name v, fun σ => ?_⟩
  rcases s.names_define_cases ρ σ name v with h | ⟨rfl, h⟩
  · exact ⟨[], by rw [h, List.append_nil], .nil, List.forall_mem_nil _⟩
  · obtain ⟨added, heq, hnodup, hadded⟩ := addName_eq_append (s.names ρ) name
    refine ⟨added, h.trans heq, hnodup, fun x hx => ⟨(hadded x hx).1, ?_⟩⟩
    rw [(hadded x hx).2]
    exact List.mem_singleton_self _

theorem Grows.assign (h : s.resolve ρ name = some σ) (v : Value) :
    s.Grows [] (s.define σ name v) := by
  refine ⟨(s.size_define σ name v).ge, fun _ _ => s.parent_define σ _ name v, fun τ => ?_⟩
  refine ⟨[], ?_, .nil, List.forall_mem_nil _⟩
  rw [List.append_nil]
  rcases s.names_define_cases σ τ name v with heq | ⟨rfl, heq⟩
  · exact heq
  · rw [heq, addName, if_pos (mem_names_of_resolve h)]

theorem Grows.newScope (s : Store) (parent : Option ScopeRef) :
    s.Grows [] (s.newScope parent).2 := by
  constructor
  · simp [Store.newScope]
  · intro ρ hρ
    rw [scopeAt_newScope, if_neg hρ.ne]
  · intro ρ
    refine ⟨[], ?_, .nil, List.forall_mem_nil _⟩
    rw [List.append_nil, Store.names, scopeAt_newScope]
    split
    · rename_i h
      simp [Store.names, scopeAt, h, Scope.names]
    · rfl

namespace Alters

theorem refl (s : Store) : s.Alters [] s := .kept rfl rfl

theorem of_sameButCells (h : s.SameButCells s') : s.Alters [] s' := .kept h.scopes h.closures

theorem definePrimitive (hρ : ρ.index < s.scopes.size) (primitive : Primitive) :
    s.Alters [(ρ, ⟨primitive.name⟩)] (s.definePrimitive ρ primitive) := by
  have hkept : s.Alters [] (s.newPrimitive primitive).2 := .kept rfl rfl
  exact hkept.trans (.define hρ)

theorem definePrimitives (hρ : ρ.index < s.scopes.size) (primitives : List Primitive) :
    s.Alters (primitives.map fun primitive => (ρ, ⟨primitive.name⟩))
      (primitives.foldl (fun s primitive => s.definePrimitive ρ primitive) s) := by
  induction primitives generalizing s with
  | nil => exact .refl s
  | cons primitive primitives ih =>
    exact .trans (.definePrimitive hρ primitive) (ih (hρ.trans_eq (s.size_define ..).symm))

theorem defineEach (hρ : ρ.index < s.scopes.size) (h : names.length ≤ vs.length) :
    s.Alters (names.map (ρ, ·)) (s.defineEach ρ names vs).2 := by
  induction names generalizing s vs with
  | nil => exact .refl s
  | cons name names ih =>
    cases vs with
    | nil => exact absurd h (Nat.not_succ_le_zero _)
    | cons v vs =>
      exact .trans (.define hρ) (ih (hρ.trans_eq (s.size_define ρ name v).symm)
        (Nat.le_of_succ_le_succ h))

end Alters

theorem Alters.grows (h : s.Alters ds s') : s.Grows ds s' := by
  induction h with
  | kept hscopes _ => exact .of_scopes hscopes
  | closure => exact .of_scopes rfl
  | scope => exact .newScope _ _
  | define => exact .define _ _ _ _
  | assign h => exact .assign h _
  | trans _ _ ih ih' => exact ih.trans ih'

namespace Founded

theorem of_grows (h : s.Founded) (hg : s.Grows ds s')
    (hparents : ∀ ρ π, s.scopes.size ≤ ρ.index → (s'.scopeAt ρ).parent = some π →
      π.index < ρ.index)
    (hclosures : ∀ ref, ref.index < s'.closures.size → ref.index < s.closures.size ∧
      s'.closureAt ref = s.closureAt ref ∨ (s'.closureAt ref).environment.index < s'.scopes.size) :
    s'.Founded := by
  constructor
  · intro ρ π hπ
    by_cases hρ : ρ.index < s.scopes.size
    · exact h.parents ρ π (hg.parent ρ hρ ▸ hπ)
    · exact hparents ρ π (Nat.le_of_not_lt hρ) hπ
  · intro ρ
    obtain ⟨added, heq, hnodup, hadded⟩ := hg.names ρ
    rw [heq]
    refine List.nodup_append.mpr ⟨h.names ρ, hnodup, ?_⟩
    rintro x hx _ hx' rfl
    exact (hadded x hx').1 hx
  · intro ref href
    rcases hclosures ref href with ⟨hlt, heq⟩ | hlt
    · rw [heq]
      exact (h.closures ref hlt).trans_le hg.size
    · exact hlt

theorem define (h : s.Founded) (hg : s.Grows ds (s.define ρ name v)) :
    (s.define ρ name v).Founded := by
  refine h.of_grows hg (fun σ π _ hπ => ?_) fun ref href => .inl ⟨href, rfl⟩
  exact h.parents σ π (s.parent_define ρ σ name v ▸ hπ)

theorem alters (h : s.Founded) (ha : s.Alters ds s') : s'.Founded := by
  induction ha with
  | @kept s s' hscopes hclosures =>
    refine h.of_grows (.of_scopes hscopes) (fun ρ π _ hπ => ?_) fun ref href => .inl ?_
    · rw [scopeAt, hscopes] at hπ
      exact h.parents ρ π hπ
    · exact ⟨hclosures ▸ href, by rw [closureAt, hclosures, closureAt]⟩
  | @closure s closure hlt =>
    refine h.of_grows (.of_scopes rfl) (fun ρ π _ hπ => h.parents ρ π hπ) fun ref href => ?_
    rw [closureAt_newClosure]
    split
    · exact .inr hlt
    · simp only [Store.newClosure, Array.size_push] at href
      exact .inl ⟨by omega, rfl⟩
  | @scope s parent hparent =>
    refine h.of_grows (.newScope s parent) (fun ρ π _ hπ => ?_) fun ref href => .inl ⟨href, rfl⟩
    rw [scopeAt_newScope] at hπ
    split at hπ
    · rename_i hρ
      exact hρ ▸ hparent π hπ
    · exact h.parents ρ π hπ
  | define => exact h.define (.define _ _ _ _)
  | assign hr => exact h.define (.assign hr _)
  | trans _ _ ih ih' => exact ih' (ih h)

theorem empty : Store.empty.Founded := by
  constructor
  · intro ρ π hπ
    cases hπ
  · exact fun ρ => .nil
  · intro ref href
    cases href

theorem parent?_eq (h : s.Founded) (ρ : ScopeRef) : s.parent? ρ = (s.scopeAt ρ).parent := by
  cases hp : (s.scopeAt ρ).parent with
  | none => rw [parent?, hp, Option.filter_none]
  | some π => rw [parent?, hp, Option.filter_some_pos (by simpa using h.parents ρ π hp)]

theorem depth_of_parent (h : s.Founded) (hπ : (s.scopeAt ρ).parent = some π) :
    s.depth ρ = s.depth π + 1 := depth_of_parent? (h.parent?_eq ρ ▸ hπ)

theorem ancestry_scopesFrom (h : s.Founded) (ρ : ScopeRef) : s.Ancestry ρ (s.scopesFrom ρ) := by
  induction ρ using scopesFrom.induct s with
  | case1 ρ π hπ _ ih =>
    rw [scopesFrom_of_parent hπ]
    exact .child (h.parent?_eq ρ ▸ hπ) ih
  | case2 ρ hρ =>
    rw [scopesFrom_of_root hρ]
    exact .root (h.parent?_eq ρ ▸ hρ)

/-- The walk to the root ends, and takes as many scopes as the environment is deep. -/
theorem ancestry (h : s.Founded) (ρ : ScopeRef) :
    ∃ path, s.Ancestry ρ path ∧ path.length = s.depth ρ :=
  ⟨_, h.ancestry_scopesFrom ρ, s.length_scopesFrom ρ⟩

end Founded

theorem exists_lookup_iff : (∃ v, s.lookup ρ name = .ok v) ↔ ∃ σ, s.resolve ρ name = some σ := by
  constructor
  · rintro ⟨v, hv⟩
    obtain ⟨σ, hσ, -⟩ := lookup_eq_ok_iff.mp hv
    exact ⟨σ, hσ⟩
  · rintro ⟨σ, hσ⟩
    have hbinds := Scope.binds_iff.mpr (mem_names_of_resolve hσ)
    obtain ⟨v, hv⟩ := Option.isSome_iff_exists.mp hbinds
    exact ⟨v, lookup_eq_ok_iff.mpr ⟨σ, hσ, hv⟩⟩

theorem Grows.resolve (h : s.Grows ds s') (hρ : ρ.index < s.scopes.size)
    (hr : s.resolve ρ name = some σ) : ∃ τ, s'.resolve ρ name = some τ := by
  induction ρ using resolve.induct s name with
  | case1 ρ hb =>
    have hmem := (h.isPrefix ρ).subset (Scope.binds_iff.mp hb)
    exact ⟨ρ, resolve_of_binds (Scope.binds_iff.mpr hmem)⟩
  | case2 ρ hb π hπ hlt ih =>
    obtain ⟨τ, hτ⟩ := ih (hlt.trans hρ) (resolve_of_parent hb hπ ▸ hr)
    have hπ' : s'.parent? ρ = some π := by rw [parent?, h.parent ρ hρ, ← parent?, hπ]
    by_cases hb' : (s'.scopeAt ρ).binds name
    · exact ⟨ρ, resolve_of_binds hb'⟩
    · exact ⟨τ, (resolve_of_parent hb' hπ').trans hτ⟩
  | case3 ρ hb hπ => cases (resolve_of_root hb hπ).symm.trans hr

end Store

end SmallScheme
