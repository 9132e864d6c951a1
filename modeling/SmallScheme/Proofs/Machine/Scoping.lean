import SmallScheme.Proofs.Machine.History

/-! # Scoping

A name refers to the first scope on the way to the root that binds it. Looking it up, asking for it
and assigning to it agree on that. A definition or an assignment changes what the name means for
those environments only that come to its scope before any other that binds the name.
-/

namespace SmallScheme

variable {s : Store} {ρ σ τ : ScopeRef} {path : List ScopeRef} {name : Symbol} {v : Value}

namespace Store

/-- The way to the root comes to the other scope before any that binds the name. -/
def Sees (s : Store) (ρ : ScopeRef) (name : Symbol) (σ : ScopeRef) : Prop :=
  ∃ near far, s.Ancestry ρ (near ++ σ :: far) ∧ ∀ τ ∈ near, name ∉ s.names τ

/-- The other scope is the first on the way to the root that binds the name. -/
def Refers (s : Store) (ρ : ScopeRef) (name : Symbol) (σ : ScopeRef) : Prop :=
  s.Sees ρ name σ ∧ name ∈ s.names σ

/-! The way to the root that the functions follow. -/

theorem Ancestry.unique {path' : List ScopeRef} (h : s.Ancestry ρ path)
    (h' : s.Ancestry ρ path') : path = path' := by
  induction h generalizing path' with
  | root hρ =>
    cases h' with
    | root => rfl
    | child hπ => cases hρ.symm.trans hπ
  | child hπ _ ih =>
    cases h' with
    | root hρ => cases hπ.symm.trans hρ
    | child hπ' h' =>
      cases hπ.symm.trans hπ'
      rw [ih h']

namespace Founded

theorem sees_iff (h : s.Founded) : s.Sees ρ name σ ↔
    ∃ near far, s.scopesFrom ρ = near ++ σ :: far ∧ ∀ τ ∈ near, name ∉ s.names τ := by
  constructor
  · rintro ⟨near, far, hpath, hnear⟩
    exact ⟨near, far, (h.ancestry_scopesFrom ρ).unique hpath, hnear⟩
  · rintro ⟨near, far, heq, hnear⟩
    exact ⟨near, far, heq ▸ h.ancestry_scopesFrom ρ, hnear⟩

theorem resolve_eq_some_iff (h : s.Founded) : s.resolve ρ name = some σ ↔ s.Refers ρ name σ := by
  rw [resolve_eq_find?, List.find?_eq_some_iff_append, Refers, h.sees_iff, and_comm]
  simp only [Bool.not_eq_true', ← Bool.not_eq_true, Scope.binds_iff]
  rfl

theorem resolve_eq_none_iff (h : s.Founded) :
    s.resolve ρ name = none ↔ ∀ σ, ¬ s.Refers ρ name σ := by
  simp only [Option.eq_none_iff_forall_ne_some, ne_eq, h.resolve_eq_some_iff]

end Founded

theorem contains_eq (s : Store) (ρ : ScopeRef) (name : Symbol) :
    s.contains ρ name = (s.resolve ρ name).isSome := by
  rw [contains, resolve_eq_find?, Bool.eq_iff_iff, List.find?_isSome, List.any_eq_true]

theorem of_resolve_eq_some (h : s.resolve ρ name = some σ) (v : Value) :
    (∃ old, (s.scopeAt σ).find? name = some old ∧ s.lookup ρ name = .ok old) ∧
      s.contains ρ name = true ∧ s.assign ρ name v = (.ok (), s.define σ name v) := by
  refine ⟨?_, by rw [contains_eq, h, Option.isSome_some], by simp only [assign, h]⟩
  obtain ⟨old, hold⟩ := Option.isSome_iff_exists.mp (Scope.binds_iff.mpr (mem_names_of_resolve h))
  exact ⟨old, hold, lookup_eq_ok_iff.mpr ⟨σ, h, hold⟩⟩

theorem of_resolve_eq_none (h : s.resolve ρ name = none) (v : Value) :
    s.lookup ρ name = .error (.unbound name) ∧ s.contains ρ name = false ∧
      s.assign ρ name v = (.error (.unbound name), s) := by
  refine ⟨lookup_of_unresolved h, ?_, by simp only [assign, h]⟩
  rw [contains_eq, h, Option.isSome_none]

/-! What a definition changes. -/

theorem scopesFrom_define (s : Store) (σ ρ : ScopeRef) (name : Symbol) (v : Value) :
    (s.define σ name v).scopesFrom ρ = s.scopesFrom ρ := by
  induction ρ using scopesFrom.induct s with
  | case1 ρ π hπ _ ih =>
    rw [scopesFrom_of_parent hπ, scopesFrom_of_parent ((s.parent?_define ..).trans hπ), ih]
  | case2 ρ hρ => rw [scopesFrom_of_root hρ, scopesFrom_of_root ((s.parent?_define ..).trans hρ)]

theorem findSome?_update (f : ScopeRef → Option Value) (σ : ScopeRef) (v : Value)
    (path : List ScopeRef) :
    ((∃ near far, path = near ++ σ :: far ∧ ∀ τ ∈ near, f τ = none) →
      path.findSome? (fun τ => if σ = τ then some v else f τ) = some v) ∧
    ((¬ ∃ near far, path = near ++ σ :: far ∧ ∀ τ ∈ near, f τ = none) →
      path.findSome? (fun τ => if σ = τ then some v else f τ) = path.findSome? f) := by
  induction path with
  | nil => exact ⟨by simp, fun _ => rfl⟩
  | cons τ path ih =>
    obtain ⟨hfound, hother⟩ := ih
    rw [List.findSome?_cons, List.findSome?_cons]
    by_cases hτ : σ = τ
    · subst hτ
      rw [if_pos rfl]
      exact ⟨fun _ => rfl, fun h => (h ⟨[], path, rfl, List.forall_mem_nil _⟩).elim⟩
    · rw [if_neg hτ]
      -- Only a scope without a value can stand on the way to another one.
      have hcons : (∃ near far, τ :: path = near ++ σ :: far ∧ ∀ τ ∈ near, f τ = none) ↔
          f τ = none ∧ ∃ near far, path = near ++ σ :: far ∧ ∀ τ ∈ near, f τ = none := by
        constructor
        · rintro ⟨near, far, heq, hnear⟩
          cases near with
          | nil => exact (hτ (List.cons_eq_cons.mp heq).1.symm).elim
          | cons ν near =>
            obtain ⟨rfl, hpath⟩ := List.cons_eq_cons.mp heq
            obtain ⟨hν, hnear⟩ := List.forall_mem_cons.mp hnear
            exact ⟨hν, near, far, hpath, hnear⟩
        · rintro ⟨hnone, near, far, rfl, hnear⟩
          exact ⟨τ :: near, far, rfl, List.forall_mem_cons.mpr ⟨hnone, hnear⟩⟩
      rw [hcons]
      cases hf : f τ with
      | some w => exact ⟨fun h => (nomatch h.1), fun _ => rfl⟩
      | none => exact ⟨fun h => hfound h.2, fun h => hother fun hpath => h ⟨rfl, hpath⟩⟩

/-- A definition changes the value where its scope is seen, and nothing else. -/
theorem Founded.lookup_define (h : s.Founded) (hσ : σ.index < s.scopes.size) (name : Symbol)
    (v : Value) (ρ : ScopeRef) (key : Symbol) :
    (key = name ∧ s.Sees ρ name σ → (s.define σ name v).lookup ρ key = .ok v) ∧
    (¬ (key = name ∧ s.Sees ρ name σ) →
      (s.define σ name v).lookup ρ key = s.lookup ρ key) := by
  simp only [lookup, scopesFrom_define, find?_define hσ]
  by_cases hkey : key = name
  · subst hkey
    have hnone : ∀ τ, key ∉ s.names τ ↔ (s.scopeAt τ).find? key = none := fun τ =>
      Scope.find?_eq_none_iff.symm
    simp only [and_true, true_and, h.sees_iff, hnone]
    obtain ⟨hfound, hother⟩ :=
      findSome?_update (fun τ => (s.scopeAt τ).find? key) σ v (s.scopesFrom ρ)
    exact ⟨fun hsees => by rw [hfound hsees], fun hsees => by rw [hother hsees]⟩
  · simp only [hkey, and_false, if_false, false_and, false_implies, not_false_iff, true_implies,
      and_self]

theorem Founded.refers_define (h : s.Founded) (hname : name ∈ s.names σ) (v : Value)
    (ρ : ScopeRef) (key : Symbol) (τ : ScopeRef) :
    (s.define σ name v).Refers ρ key τ ↔ s.Refers ρ key τ := by
  have hnames : ∀ τ, (s.define σ name v).names τ = s.names τ := by
    intro τ
    rcases s.names_define_cases σ τ name v with heq | ⟨rfl, heq⟩
    · exact heq
    · rw [heq, addName, if_pos hname]
  have hfounded : (s.define σ name v).Founded := h.define (.define s σ name v)
  simp only [Refers, hfounded.sees_iff, h.sees_iff, scopesFrom_define, hnames]

theorem exists_of_mem_names (h : name ∈ s.names σ) : σ.index < s.scopes.size := by
  by_contra hσ
  rw [names, scopeAt, Array.getElem?_eq_none (Nat.le_of_not_lt hσ)] at h
  cases h

end Store

/-- Lookup, assignment and definition agree on the scope that a name refers to. -/
theorem History.scoping_law {output : Output} {m : Moment} {ρ : ScopeRef}
    (h : History (.between ⟨.empty, output⟩) m) (hρ : ρ.index < m.store.scopes.size)
    (name : Symbol) (v : Value) :
    let s := m.store
    (∀ ρ', ∃ path, s.Ancestry ρ' path) ∧
    ((∃ σ, s.Refers ρ name σ ∧ (∀ τ, s.Refers ρ name τ → τ = σ) ∧
        (∃ old, (s.scopeAt σ).find? name = some old ∧ s.lookup ρ name = .ok old) ∧
        s.contains ρ name = true ∧
        ∃ s', s.assign ρ name v = (.ok (), s') ∧
          (∀ ρ' key,
            (key = name ∧ s.Refers ρ' name σ → s'.lookup ρ' key = .ok v) ∧
            (¬ (key = name ∧ s.Refers ρ' name σ) → s'.lookup ρ' key = s.lookup ρ' key)) ∧
          ∀ ρ' key τ, s'.Refers ρ' key τ ↔ s.Refers ρ' key τ) ∨
      (∀ σ, ¬ s.Refers ρ name σ) ∧ s.lookup ρ name = .error (.unbound name) ∧
        s.contains ρ name = false ∧ s.assign ρ name v = (.error (.unbound name), s)) ∧
    ∀ ρ' key,
      (key = name ∧ s.Sees ρ' name ρ → (s.define ρ name v).lookup ρ' key = .ok v) ∧
      (¬ (key = name ∧ s.Sees ρ' name ρ) →
        (s.define ρ name v).lookup ρ' key = s.lookup ρ' key) := by
  intro s
  have hstart : (Moment.between ⟨.empty, output⟩).Founded := Store.Founded.empty
  have hs : s.Founded := (hstart.history h).1.store
  refine ⟨fun ρ' => ⟨_, hs.ancestry_scopesFrom ρ'⟩, ?_, hs.lookup_define hρ name v⟩
  cases hr : s.resolve ρ name with
  | none => exact .inr ⟨hs.resolve_eq_none_iff.mp hr, Store.of_resolve_eq_none hr v⟩
  | some σ =>
    obtain ⟨hold, hcontains, hassign⟩ := Store.of_resolve_eq_some hr v
    have hrefers := hs.resolve_eq_some_iff.mp hr
    have honly : ∀ τ, s.Refers ρ name τ → τ = σ := by
      intro τ hτ
      rw [← hs.resolve_eq_some_iff, hr] at hτ
      exact (Option.some.inj hτ).symm
    -- The scope binds the name, so to come to it before any other one is to refer to it.
    have hlookup := hs.lookup_define (Store.exists_of_mem_names hrefers.2) name v
    have hsees : ∀ ρ', s.Refers ρ' name σ ↔ s.Sees ρ' name σ := fun ρ' =>
      and_iff_left hrefers.2
    simp only [← hsees] at hlookup
    exact .inl ⟨σ, hrefers, honly, hold, hcontains, _, hassign, hlookup,
      hs.refers_define hrefers.2 v⟩

/-- An assignment in an inner scope is seen in the outer one. -/
theorem History.scoping_law_inner :
    let x : Symbol := ⟨"x"⟩
    let s := (((Store.empty.newScope none).2.define ⟨0⟩ x .null).newScope (some ⟨0⟩)).2
    ∃ s', s.assign ⟨1⟩ x .void = (.ok (), s') ∧ s'.lookup ⟨0⟩ x = .ok .void := by
  intro x s
  have hnew : Happens _ (.between ⟨.empty, .empty⟩) _ := @Happens.operation _ .new nofun
  have hdefine : Happens _ (.between ⟨_, .empty⟩) _ :=
    @Happens.operation ⟨(Store.empty.newScope none).2, .empty⟩ (.define ⟨0⟩ x .null) (by decide)
  have hextend : Happens _ (.between ⟨_, .empty⟩) (.between ⟨s, .empty⟩) :=
    @Happens.operation ⟨(Store.empty.newScope none).2.define ⟨0⟩ x .null, .empty⟩ (.extend ⟨0⟩)
      (by decide)
  have h : History (.between ⟨.empty, .empty⟩) (.between ⟨s, .empty⟩) :=
    .tail (.tail (.single ⟨_, hnew⟩) ⟨_, hdefine⟩) ⟨_, hextend⟩
  have hroot : s.Refers ⟨0⟩ x ⟨0⟩ := ⟨⟨[], [], .root rfl, nofun⟩, by decide⟩
  have hinner : s.Refers ⟨1⟩ x ⟨0⟩ :=
    ⟨⟨[⟨1⟩], [], .child rfl (.root rfl), by decide⟩, by decide⟩
  obtain ⟨-, ⟨σ, -, honly, -, -, s', hassign, hlookup, -⟩ | ⟨hnone, -⟩, -⟩ :=
    scoping_law h (by decide : (⟨1⟩ : ScopeRef).index < s.scopes.size) x .void
  · obtain rfl := honly ⟨0⟩ hinner
    exact ⟨s', hassign, (hlookup ⟨0⟩ x).1 ⟨rfl, hroot⟩⟩
  · exact (hnone _ hinner).elim

end SmallScheme
