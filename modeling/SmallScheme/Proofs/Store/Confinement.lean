import SmallScheme.Operation
import SmallScheme.Proofs.Store.Reach

/-! # Confined operations

What each operation of a store comes by, given values of the territory: the cells and scopes that it
creates, and nothing else.
-/

namespace SmallScheme

variable {base : Object → Prop} {start s s' : Store} {o o' : Object} {v car cdr : Value}
  {vs : List Value} {cell : Cell} {closure : Closure} {ref other : ScopeRef} {name : Symbol}

theorem Object.New.of_grown (h : start.Grown s) (hs : ¬ o.Exists s) (hs' : o.Exists s') :
    o.New start s' := ⟨fun hstart => hs (h.exists hstart), hs'⟩

namespace Store

/-- A step is confined if all that it leads to anew, and puts in cells, is in the territory. -/
theorem Confined.next (h : start.Confined base s) (hgrown : s.Grown s')
    (hleads : ∀ o, o.Same s s' ∨ ∀ o', s'.Leads o o' → Territory base start s' o')
    (houtside : ∀ ref, (Object.scope ref).Exists start → ¬ base (.scope ref) →
      s'.scopeAt ref = s.scopeAt ref)
    (hcells : ∀ ⦃i : Nat⦄ ⦃cell : Cell⦄, s'.cells[i]? = some cell → s.cells[i]? = some cell ∨
      i = s.cells.size ∧ ∀ v ∈ cell.contents, v.Within (Territory base start s)) :
    start.Confined base s' := by
  constructor
  · exact h.grown.trans hgrown
  · intro o o' ho hl
    rcases hleads o with hsame | hnew
    · have ho : Territory base start s o :=
        ho.imp_right fun hnew => ⟨hnew.1, hsame.exists_of hnew.2⟩
      exact (h.leads o o' ho (hsame.leads hl)).mono hgrown
    · exact hnew o' hl
  · intro ref hstart hbase
    rw [houtside ref hstart hbase, h.outside ref hstart hbase]
  · intro i cell hi hc
    rcases hcells hc with hc | ⟨rfl, hv⟩
    · exact h.order hi hc
    · exact fun v hmem => (hv v hmem).mono fun o => Or.imp_right fun hnew => hnew.2.below

/-! Cells and what is built from them. -/

theorem getElem?_newCell (s : Store) (cell : Cell) (i : Nat) :
    (s.newCell cell).2.cells[i]? = if i = s.cells.size then some cell else s.cells[i]? :=
  Array.getElem?_push

theorem Confined.newCell (h : start.Confined base s)
    (hcell : ∀ v ∈ cell.contents, v.Within (Territory base start s)) :
    start.Confined base (s.newCell cell).2 := by
  have hgrown := Grown.newCell s cell
  refine h.next hgrown (fun o => ?_) (fun _ _ _ => rfl) fun i cell' hc => ?_
  · have hheld : ∀ v ∈ cell.contents, ∀ o', v.Refers o' → Territory base start _ o' :=
      fun v hv o' hr => (hcell v hv o' hr).mono hgrown
    cases o with
    | pair ref | vector ref =>
      by_cases hnew : ref.index = s.cells.size
      · refine .inr fun o' hl => ?_
        cases hl with
        | value hv hr =>
          obtain ⟨cell', hc, hv⟩ := hv.exists_cell rfl
          rw [getElem?_newCell, if_pos hnew] at hc
          cases hc
          exact hheld _ hv _ hr
      · refine .inl ?_
        rw [Object.Same, getElem?_newCell, if_neg hnew]
    | closure | scope => exact .inl ⟨rfl, id⟩
  · rw [getElem?_newCell] at hc
    split at hc
    · cases hc
      exact .inr ⟨by assumption, hcell⟩
    · exact .inl hc

theorem Confined.territory_newCell (h : start.Confined base s) (cell : Cell) :
    Territory base start (s.newCell cell).2 (cell.object (s.newCell cell).1) := by
  refine .inr (.of_grown h.grown (fun hexists => ?_) (Object.exists_of_cell (newCell_cell s cell)))
  have hbelow := hexists.below
  cases cell <;> exact Nat.lt_irrefl _ hbelow

theorem Yields.cons (h : start.Confined base s) (hcar : car.Within (Territory base start s))
    (hcdr : cdr.Within (Territory base start s)) :
    s.Yields base start [(s.cons car cdr).1] (s.cons car cdr).2 := by
  refine ⟨.newCell s _, h.newCell ?_, ?_⟩
  · simpa [Cell.contents] using ⟨hcar, hcdr⟩
  · rw [List.forall_mem_singleton]
    rintro o ⟨⟩
    exact h.territory_newCell (.pair car cdr)

theorem Yields.vector (h : start.Confined base s)
    (hvs : ∀ v ∈ vs, v.Within (Territory base start s)) :
    s.Yields base start [(s.vector vs).1] (s.vector vs).2 := by
  refine ⟨.newCell s _, h.newCell hvs, ?_⟩
  rw [List.forall_mem_singleton]
  rintro o ⟨⟩
  exact h.territory_newCell (.vector vs)

theorem Yields.list (h : start.Confined base s)
    (hvs : ∀ v ∈ vs, v.Within (Territory base start s)) (hv : v.Within (Territory base start s)) :
    s.Yields base start [(s.list vs v).1] (s.list vs v).2 := by
  induction vs with
  | nil => exact .refl h (List.forall_mem_singleton.mpr hv)
  | cons u us ih =>
    obtain ⟨hu, hus⟩ := List.forall_mem_cons.mp hvs
    have hrest := ih hus
    have hcons := Yields.cons hrest.confined (hu.mono fun o => .mono hrest.grown)
      (hrest.within _ (List.mem_singleton_self _))
    exact (hrest.append hcons).of_subset (List.subset_cons_self _ _)

theorem Yields.plain (h : start.Confined base s) (hv : v.isPlain)
    (hclosure : ∀ ref, v ≠ .procedure (.closure ref)) : s.Yields base start [v] s := by
  refine .refl h ?_
  rw [List.forall_mem_singleton]
  rintro o (_ | _ | _)
  · cases hv
  · cases hv
  · exact (hclosure _ rfl).elim

mutual

theorem Yields.load : ∀ {s : Store} (_ : start.Confined base s) (d : Datum),
    s.Yields base start [(s.load d).1] (s.load d).2
  | _, h, .atom a => .plain h rfl nofun
  | _, h, .null => .plain h rfl nofun
  | s, h, .pair car cdr => by
    have hcar := Yields.load h car
    have hcdr := Yields.load hcar.confined cdr
    have hboth := hcar.append hcdr
    have hcons := Yields.cons hboth.confined (hboth.within (s.load car).1 (by simp))
      (hboth.within ((s.load car).2.load cdr).1 (by simp))
    rw [Store.load]
    exact (hboth.append hcons).of_subset (by simp)
  | s, h, .vector items => by
    have hitems := Yields.loadAll h items
    rw [Store.load]
    exact (hitems.append (.vector hitems.confined hitems.within)).of_subset (by simp)

theorem Yields.loadAll : ∀ {s : Store} (_ : start.Confined base s) (ds : List Datum),
    s.Yields base start (s.loadAll ds).1 (s.loadAll ds).2
  | _, h, [] => .refl h nofun
  | s, h, d :: ds => by
    have hd := Yields.load h d
    have hds := Yields.loadAll hd.confined ds
    rw [Store.loadAll]
    exact hd.append hds

end

/-- Who is confined to the territory can build nothing that leads out of it. -/
theorem Yields.builds {cells : Array Cell} {us : List Value} (h : start.Confined base s)
    (hvs : ∀ v ∈ vs, v.Within (Territory base start s)) (hb : Builds s.cells vs cells us) :
    s.Yields base start us { s with cells } := by
  induction hb with
  | start => exact .refl h hvs
  | plain _ hpair hvector hclosure ih =>
    refine ih.insert [_] (List.forall_mem_singleton.mpr ?_)
    rintro o (_ | _ | _)
    · exact (hpair rfl).elim
    · exact (hvector rfl).elim
    · exact (hclosure rfl).elim
  | @parts cells us ref car cdr _ hmem hc ih =>
    have href := ih.within _ hmem _ .pair
    refine ih.insert [car, cdr] fun v hv o ho => ?_
    rcases List.mem_pair.mp hv with rfl | rfl
    · exact ih.confined.leads _ o href (.value (.car hc) ho)
    · exact ih.confined.leads _ o href (.value (.cdr hc) ho)
  | items _ hmem hc ih =>
    have href := ih.within _ hmem _ .vector
    exact ih.insert _ fun v hv o ho => ih.confined.leads _ o href (.value (.item hc hv) ho)
  | cons _ hcar hcdr ih =>
    have hnew := Yields.cons ih.confined (ih.within _ hcar) (ih.within _ hcdr)
    exact (ih.append hnew).of_subset (by simp [Store.cons, Store.newCell])
  | vector _ hitems ih =>
    have hnew := Yields.vector ih.confined fun v hv => ih.within v (hitems hv)
    exact (ih.append hnew).of_subset (by simp [Store.vector, Store.newCell])

theorem Confined.pairAt (h : start.Confined base s) {ref : CellRef}
    (href : Territory base start s (.pair ref)) :
    (s.car ref).Within (Territory base start s) ∧ (s.cdr ref).Within (Territory base start s) := by
  unfold Store.car Store.cdr Store.pairAt
  split
  · rename_i car cdr hc
    exact ⟨fun o ho => h.leads _ o href (.value (.car hc) ho),
      fun o ho => h.leads _ o href (.value (.cdr hc) ho)⟩
  · exact ⟨nofun, nofun⟩

/-! Closures and scopes. -/

theorem closureAt_newClosure (s : Store) (closure : Closure) (ref : ClosureRef) :
    (s.newClosure closure).2.closureAt ref =
      if ref.index = s.closures.size then closure else s.closureAt ref := by
  simp only [closureAt, newClosure, Array.getElem?_push]
  split <;> rfl

theorem Yields.newClosure (h : start.Confined base s)
    (hscope : Territory base start s (.scope closure.environment))
    (hbody : ∀ v ∈ closure.body.literals, v.Within (Territory base start s)) :
    s.Yields base start [(s.newClosure closure).1] (s.newClosure closure).2 := by
  have hgrown := Grown.newClosure s closure
  refine ⟨hgrown, h.next hgrown (fun o => ?_) (fun _ _ _ => rfl) fun _ _ => .inl, ?_⟩
  · cases o with
    | closure ref =>
      by_cases hnew : ref.index = s.closures.size
      · refine .inr fun o' hl => ?_
        cases hl with
        | value hv hr =>
          cases hv with
          | literal hv =>
            rw [closureAt_newClosure, if_pos hnew] at hv
            exact (hbody _ hv _ hr).mono hgrown
        | environment =>
          rw [closureAt_newClosure, if_pos hnew]
          exact hscope.mono hgrown
      · refine .inl ⟨?_, fun hlt => ?_⟩
        · rw [closureAt_newClosure, if_neg hnew]
        · simp only [Store.newClosure, Array.size_push] at hlt
          omega
    | pair | vector => exact .inl rfl
    | scope => exact .inl ⟨rfl, id⟩
  · rw [List.forall_mem_singleton]
    rintro o ⟨⟩
    exact .inr (.of_grown h.grown (Nat.lt_irrefl _) (by simp [Object.Exists, Store.newClosure]))

theorem Confined.newScope (h : start.Confined base s) {parent : Option ScopeRef}
    (hparent : ∀ ref, parent = some ref → Territory base start s (.scope ref)) :
    start.Confined base (s.newScope parent).2 := by
  have hgrown := Grown.newScope s parent
  refine h.next hgrown (fun o => ?_) (fun ref hstart _ => ?_) fun _ _ => .inl
  · cases o with
    | scope ref =>
      by_cases hnew : ref.index = s.scopes.size
      · refine .inr fun o' hl => ?_
        cases hl with
        | value hv hr =>
          cases hv with
          | binding hb =>
            rw [scopeAt_newScope, if_pos hnew] at hb
            cases hb
        | parent hp =>
          rw [parent?, scopeAt_newScope, if_pos hnew] at hp
          exact (hparent _ (Option.filter_eq_some_iff.mp hp).1).mono hgrown
      · refine .inl ⟨?_, fun hlt => ?_⟩
        · rw [scopeAt_newScope, if_neg hnew]
        · simp only [Store.newScope, Array.size_push] at hlt
          omega
    | pair | vector => exact .inl rfl
    | closure => exact .inl ⟨rfl, id⟩
  · have hlt : ref.index < s.scopes.size := h.grown.exists hstart
    rw [scopeAt_newScope, if_neg hlt.ne]

theorem Confined.territory_newScope (h : start.Confined base s) (parent : Option ScopeRef) :
    Territory base start (s.newScope parent).2 (.scope (s.newScope parent).1) :=
  .inr (.of_grown h.grown (Nat.lt_irrefl _) (by simp [Object.Exists, Store.newScope]))

theorem mem_insertInto {b : Symbol × Value} {bindings : List (Symbol × Value)}
    (h : b ∈ Scope.insertInto name v bindings) : b ∈ bindings ∨ b.2 = v := by
  induction bindings with
  | nil =>
    obtain rfl := List.mem_singleton.mp h
    exact .inr rfl
  | cons binding bindings ih =>
    rw [Scope.insertInto] at h
    split at h
    · rcases List.mem_cons.mp h with rfl | h
      · exact .inr rfl
      · exact .inl (.tail _ h)
    · rcases List.mem_cons.mp h with rfl | h
      · exact .inl (.head _)
      · exact (ih h).imp_left (.tail _)

theorem Confined.define (h : start.Confined base s) (href : Territory base start s (.scope ref))
    (hv : v.Within (Territory base start s)) (name : Symbol) :
    start.Confined base (s.define ref name v) := by
  have hgrown := Grown.define s ref name v
  refine h.next hgrown (fun o => ?_) (fun other hstart hbase => ?_) fun _ _ => .inl
  · cases o with
    | scope other =>
      rcases scopeAt_define_cases s ref other name v with heq | ⟨rfl, heq⟩
      · exact .inl ⟨heq, fun hlt => s.size_define ref name v ▸ hlt⟩
      · refine .inr fun o' hl => ?_
        cases hl with
        | value hh hr =>
          cases hh with
          | binding hb =>
            rw [heq] at hb
            rcases mem_insertInto hb with hb | hb
            · exact (h.leads _ o' href (.value (.binding hb) hr)).mono hgrown
            · exact (hv o' (hb ▸ hr)).mono hgrown
        | parent hp =>
          rw [parent?_define] at hp
          exact (h.leads _ _ href (.parent hp)).mono hgrown
    | pair | vector => exact .inl rfl
    | closure => exact .inl ⟨rfl, id⟩
  · rcases scopeAt_define_cases s ref other name v with heq | ⟨rfl, -⟩
    · exact heq
    · rcases href with href | ⟨hnew, -⟩
      · exact (hbase href).elim
      · exact (hnew hstart).elim

theorem Yields.define (h : start.Confined base s) (href : Territory base start s (.scope ref))
    (hv : v.Within (Territory base start s)) (name : Symbol) :
    s.Yields base start [] (s.define ref name v) :=
  ⟨.define s ref name v, h.define href hv name, nofun⟩

theorem Yields.defineEach (h : start.Confined base s)
    (href : Territory base start s (.scope ref))
    (hvs : ∀ v ∈ vs, v.Within (Territory base start s)) (names : List Symbol) :
    s.Yields base start [] (s.defineEach ref names vs).2 := by
  induction names generalizing s vs with
  | nil => exact .refl h nofun
  | cons name names ih =>
    cases vs with
    | nil => exact .refl h nofun
    | cons v vs =>
      obtain ⟨hv, hvs⟩ := List.forall_mem_cons.mp hvs
      have hdefine := Yields.define h href hv name
      exact hdefine.trans (ih hdefine.confined (href.mono hdefine.grown)
        fun u hu => (hvs u hu).mono fun o => .mono hdefine.grown)

theorem Confined.resolve (h : start.Confined base s) (href : Territory base start s (.scope ref))
    (hr : s.resolve ref name = some other) : Territory base start s (.scope other) := by
  induction ref using resolve.induct s name with
  | case1 ref hb =>
    cases (resolve_of_binds hb).symm.trans hr
    exact href
  | case2 ref hb parent hp _ ih =>
    exact ih (h.leads _ _ href (.parent hp)) (resolve_of_parent hb hp ▸ hr)
  | case3 ref hb hp => cases (resolve_of_root hb hp).symm.trans hr

theorem mem_of_lookup {bindings : List (Symbol × Value)} (h : bindings.lookup name = some v) :
    (name, v) ∈ bindings := by
  obtain ⟨l₁, l₂, rfl, -⟩ := List.lookup_eq_some_iff.mp h
  simp

theorem Confined.lookup (h : start.Confined base s) (href : Territory base start s (.scope ref))
    (hv : s.lookup ref name = .ok v) : v.Within (Territory base start s) := by
  obtain ⟨scope, hscope, hfind⟩ := lookup_eq_ok_iff.mp hv
  have hholds : s.Holds (.scope scope) v := .binding (mem_of_lookup hfind)
  exact fun o ho => h.leads _ _ (h.resolve href hscope) (.value hholds ho)

theorem Confined.newPrimitive (h : start.Confined base s) (primitive : Primitive) :
    start.Confined base (s.newPrimitive primitive).2 := by
  refine h.next ⟨.refl s, le_rfl, le_rfl⟩ (fun o => .inl ?_) (fun _ _ _ => rfl) fun _ _ => .inl
  cases o with
  | pair | vector => rfl
  | closure | scope => exact ⟨rfl, id⟩

theorem Yields.definePrimitives (h : start.Confined base s)
    (href : Territory base start s (.scope ref)) (primitives : List Primitive) :
    s.Yields base start []
      (primitives.foldl (fun s primitive => s.definePrimitive ref primitive) s) := by
  induction primitives generalizing s with
  | nil => exact .refl h nofun
  | cons primitive primitives ih =>
    have hprimitive : s.Yields base start [] (s.newPrimitive primitive).2 :=
      ⟨⟨.refl s, le_rfl, le_rfl⟩, h.newPrimitive primitive, nofun⟩
    have hvalue : (s.newPrimitive primitive).1.Within
        (Territory base start (s.newPrimitive primitive).2) := nofun
    have hdefine := hprimitive.trans (.define hprimitive.confined
      (href.mono hprimitive.grown) hvalue ⟨primitive.name⟩)
    exact hdefine.trans (ih hdefine.confined (href.mono hdefine.grown))

theorem Yields.newPrelude (h : start.Confined base s) :
    s.Yields base start [] s.newPrelude.2 := by
  have hnew : s.Yields base start [] (s.newScope none).2 :=
    ⟨.newScope s none, h.newScope nofun, nofun⟩
  exact hnew.trans (.definePrimitives hnew.confined (h.territory_newScope none) Primitive.prelude)

end Store

end SmallScheme
