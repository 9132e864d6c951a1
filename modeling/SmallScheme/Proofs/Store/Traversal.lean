import Mathlib.Logic.Relation
import SmallScheme.Proofs.Expression.Parsing
import SmallScheme.Proofs.Store.External
import SmallScheme.Proofs.Store.Reach

/-! # Traversal of values

In a store whose cells refer to earlier cells only, the loops that follow references come to an end:
the printer that works off pieces, the walk along a list, and the search for the operands of a form.
None of them needs a bound then, and the bounded functions compute what the loops do.
-/

namespace SmallScheme

variable {s : Store} {n i : Nat} {v tail tail' : Value} {items items' vs : List Value}
  {ref : CellRef} {cell : Cell}

/-- The value is a pair or a vector among the first `n` cells, or neither. -/
def Value.Before (s : Store) (n : Nat) : Value → Prop
  | .pair ref => ref.index < n ∧ ∃ car cdr, s.cells[ref.index]? = some (.pair car cdr)
  | .vector ref => ref.index < n ∧ ∃ items, s.cells[ref.index]? = some (.vector items)
  | _ => True

/-- Each cell refers to cells before it only. -/
def Store.Ordered (s : Store) : Prop :=
  ∀ ⦃i : Nat⦄ ⦃cell : Cell⦄, s.cells[i]? = some cell → ∀ v ∈ cell.contents, v.Before s i

/-! Values of ordered stores are trees. -/

namespace Fits

theorem leaf (h : v.isPlain) (n : Nat) : Fits s n v := ⟨.leaf v, .leaf h, Nat.zero_le n⟩

theorem pair {car cdr : Value} (h : s.cells[ref.index]? = some (.pair car cdr))
    (hcar : Fits s n car) (hcdr : Fits s n cdr) : Fits s (n + 1) (.pair ref) := by
  obtain ⟨t, ht, htn⟩ := hcar
  obtain ⟨u, hu, hun⟩ := hcdr
  refine ⟨.pair t u, .pair h ht hu, ?_⟩
  rw [Tree.depth]
  omega

theorem forall_iff : (∀ v ∈ vs, Fits s n v) ↔ ∃ ts, UnfoldAll s vs ts ∧ Tree.depthAll ts ≤ n := by
  induction vs with
  | nil => exact ⟨fun _ => ⟨[], .nil, Nat.zero_le n⟩, fun _ => nofun⟩
  | cons v vs ih =>
    rw [List.forall_mem_cons, ih]
    constructor
    · rintro ⟨⟨t, ht, htn⟩, ts, hts, hn⟩
      refine ⟨t :: ts, .cons ht hts, ?_⟩
      rw [Tree.depthAll]
      omega
    · rintro ⟨_, hts, hn⟩
      cases hts with
      | cons ht hts =>
        rw [Tree.depthAll] at hn
        exact ⟨⟨_, ht, by omega⟩, _, hts, by omega⟩

theorem vector (h : s.cells[ref.index]? = some (.vector vs)) (hvs : ∀ v ∈ vs, Fits s n v) :
    Fits s (n + 1) (.vector ref) := by
  obtain ⟨ts, hts, hn⟩ := forall_iff.mp hvs
  exact ⟨.vector ts, .vector h hts, Nat.succ_le_succ hn⟩

theorem items_of_vector (h : Fits s n (.vector ref)) :
    ∃ m, n = m + 1 ∧ ∀ v ∈ s.items ref, Fits s m v := by
  obtain ⟨t, ht, hn⟩ := h
  obtain ⟨vs, ts, hc, rfl, hts⟩ := ht.of_vector
  rw [Tree.depth] at hn
  obtain ⟨m, rfl⟩ := Nat.exists_eq_add_of_le' (Nat.lt_of_lt_of_le (Nat.succ_pos _) hn)
  refine ⟨m, rfl, ?_⟩
  rw [items_eq hc]
  exact forall_iff.mpr ⟨ts, hts, Nat.le_of_succ_le_succ hn⟩

/-- No value is deeper than there are cells up to it. -/
theorem of_before (hs : s.Ordered) (h : v.Before s n) : Fits s n v := by
  induction n using Nat.strong_induction_on generalizing v with
  | _ n ih =>
    cases v with
    | pair ref =>
      obtain ⟨hlt, car, cdr, hc⟩ := h
      have hparts : ∀ v ∈ [car, cdr], Fits s ref.index v := fun v hv =>
        ih ref.index hlt (hs hc v hv)
      exact (pair hc (hparts car (by simp)) (hparts cdr (by simp))).mono hlt
    | vector ref =>
      obtain ⟨hlt, vs, hc⟩ := h
      exact (vector hc fun v hv => ih ref.index hlt (hs hc v hv)).mono hlt
    | _ => exact leaf rfl n

theorem exists_chain (h : Fits s n v) :
    ∃ items tail, Chain s v items tail ∧ ∀ ref, tail ≠ .pair ref := by
  induction n generalizing v with
  | zero =>
    refine ⟨[], v, .nil, ?_⟩
    rintro ref rfl
    obtain ⟨m, hm, -⟩ := h.of_pair
    cases hm
  | succ n ih =>
    by_cases hv : ∃ ref, v = .pair ref
    · obtain ⟨ref, rfl⟩ := hv
      obtain ⟨m, hm, -, hcdr⟩ := h.of_pair
      obtain rfl := Nat.succ.inj hm
      obtain ⟨items, tail, hc, htail⟩ := ih hcdr
      exact ⟨_, _, .cons hc, htail⟩
    · exact ⟨[], v, .nil, fun ref hv' => hv ⟨ref, hv'⟩⟩

end Fits

namespace Chain

theorem eq_of_ends (h : Chain s v items tail) (htail : ∀ ref, tail ≠ .pair ref)
    (h' : Chain s v items' tail') (htail' : ∀ ref, tail' ≠ .pair ref) :
    items = items' ∧ tail = tail' := by
  have hw := h.walkFrom htail (Nat.le_max_left items.length items'.length) []
  rw [h'.walkFrom htail' (Nat.le_max_right items.length items'.length) []] at hw
  obtain ⟨hitems, htails⟩ := Prod.mk.inj hw
  exact ⟨hitems.symm, htails.symm⟩

end Chain

/-! The printer. -/

namespace Store

/-- A turn of the printer: what has been written, and the pieces that wait. -/
inductive Prints (s : Store) (style : Style) : String × List Piece → String × List Piece → Prop

  | text {done t : String} {pending : List Piece} :
      Prints s style (done, .text t :: pending) (done ++ t, pending)

  | plain {done : String} {v : Value} {pending : List Piece} : v.isPlain →
      Prints s style (done, .value v :: pending) (done ++ plainText style v, pending)

  | abbreviated {done : String} {ref : CellRef} {mark : Abbreviation} {operand : Value}
      {pending : List Piece} : s.abbreviation? ref = some (mark, operand) →
      Prints s style (done, .value (.pair ref) :: pending)
        (done, .text mark.mark :: .value operand :: pending)

  | list {done : String} {ref : CellRef} {items : List Value} {tail : Value}
      {pending : List Piece} : s.abbreviation? ref = none → Chain s (.pair ref) items tail →
      (∀ ref, tail ≠ .pair ref) → Prints s style (done, .value (.pair ref) :: pending)
        (done, .text "(" :: (separated items ++ ending tail) ++ pending)

  | vector {done : String} {ref : CellRef} {pending : List Piece} :
      Prints s style (done, .value (.vector ref) :: pending)
        (done, .text "#(" :: (separated (s.items ref) ++ [.text ")"]) ++ pending)

theorem Prints.unique {style : Style} {a b c : String × List Piece} (hb : s.Prints style a b)
    (hc : s.Prints style a c) : b = c := by
  cases hb with
  | text =>
    cases hc
    rfl
  | plain hv =>
    cases hc with
    | plain => rfl
    | _ => cases hv
  | abbreviated h =>
    cases hc with
    | plain hv => cases hv
    | abbreviated h' =>
      rw [h] at h'
      cases h'
      rfl
    | list h' => cases h.symm.trans h'
  | list h hchain htail =>
    cases hc with
    | plain hv => cases hv
    | abbreviated h' => cases h.symm.trans h'
    | list _ hchain' htail' =>
      obtain ⟨rfl, rfl⟩ := hchain.eq_of_ends htail hchain' htail'
      rfl
  | vector =>
    cases hc with
    | plain hv => cases hv
    | vector => rfl

def FitsPiece (s : Store) (n : Nat) : Piece → Prop
  | .text _ => True
  | .value v => Fits s n v

theorem fitsPiece_separated (h : ∀ v ∈ vs, Fits s n v) :
    ∀ piece ∈ separated vs, s.FitsPiece n piece := by
  induction vs with
  | nil => exact nofun
  | cons v vs ih =>
    obtain ⟨hv, hvs⟩ := List.forall_mem_cons.mp h
    cases vs with
    | nil => exact List.forall_mem_singleton.mpr hv
    | cons w vs =>
      exact List.forall_mem_cons.mpr ⟨hv, List.forall_mem_cons.mpr ⟨trivial, ih hvs⟩⟩

theorem fitsPiece_ending (h : Fits s n tail) : ∀ piece ∈ ending tail, s.FitsPiece n piece := by
  unfold ending
  split
  · exact List.forall_mem_singleton.mpr trivial
  · exact List.forall_mem_cons.mpr ⟨trivial, List.forall_mem_cons.mpr
      ⟨h, List.forall_mem_singleton.mpr trivial⟩⟩

theorem prints_layer (style : Style) (hv : v.isPlain = false) (h : Fits s (n + 1) v)
    (done : String) (pending : List Piece) :
    s.Prints style (done, .value v :: pending) (done, s.layer v ++ pending) ∧
      ∀ piece ∈ s.layer v, s.FitsPiece n piece := by
  cases v with
  | pair ref =>
    obtain ⟨m, hm, hcar, hcdr⟩ := h.of_pair
    obtain rfl := Nat.succ.inj hm
    cases habbreviation : s.abbreviation? ref with
    | some found =>
      obtain ⟨mark, operand⟩ := found
      rw [layer_abbreviated habbreviation]
      refine ⟨.abbreviated habbreviation, ?_⟩
      have hoperand : Fits s n operand := by
        unfold abbreviation? at habbreviation
        split at habbreviation
        · rename_i rest _ hrest
          split at habbreviation
          · obtain ⟨found, -, hfound⟩ := Option.map_eq_some_iff.mp habbreviation
            cases hfound
            obtain ⟨m, rfl, hoperand, -⟩ := (hrest ▸ hcdr).of_pair
            exact hoperand.mono (Nat.le_succ m)
          · cases habbreviation
        · cases habbreviation
      exact List.forall_mem_cons.mpr ⟨trivial, List.forall_mem_singleton.mpr hoperand⟩
    | none =>
      obtain ⟨items, tail, hchain, htail⟩ := hcdr.exists_chain
      have hwhole : Chain s (.pair ref) (s.car ref :: items) tail := .cons hchain
      rw [layer_list habbreviation (hwhole.walk htail (h.length_le hwhole))]
      refine ⟨.list habbreviation hwhole htail, List.forall_mem_cons.mpr ⟨trivial, ?_⟩⟩
      obtain ⟨-, hend, hitems⟩ := Fits.chain hchain hcdr
      have hall : ∀ v ∈ s.car ref :: items, Fits s n v := by
        refine List.forall_mem_cons.mpr ⟨hcar, fun v hv => ?_⟩
        obtain ⟨m, rfl, hfits⟩ := hitems v hv
        exact hfits.mono (Nat.le_succ m)
      exact List.forall_mem_append.mpr ⟨fitsPiece_separated hall, fitsPiece_ending hend⟩
  | vector ref =>
    obtain ⟨m, hm, hitems⟩ := h.items_of_vector
    obtain rfl := Nat.succ.inj hm
    refine ⟨.vector, List.forall_mem_cons.mpr ⟨trivial, ?_⟩⟩
    exact List.forall_mem_append.mpr ⟨fitsPiece_separated hitems,
      List.forall_mem_singleton.mpr trivial⟩
  | _ => cases hv

theorem prints_expand (style : Style) (done : String) (pending : List (Nat × Piece))
    (h : ∀ p ∈ pending, s.FitsPiece p.1 p.2) :
    Relation.ReflTransGen (s.Prints style) (done, pending.map (·.2))
      (s.expand style done pending, []) := by
  induction done, pending using expand.induct s style with
  | case1 done =>
    rw [expand]
    exact .refl
  | case2 done l t pending ih =>
    rw [expand]
    exact .head .text (ih (List.forall_mem_cons.mp h).2)
  | case3 done v pending ih =>
    obtain ⟨hv, hpending⟩ := List.forall_mem_cons.mp h
    rw [expand]
    refine .head (.plain ?_) (ih hpending)
    obtain ⟨t, ht, hdepth⟩ := hv
    cases ht with
    | leaf hv => exact hv
    | pair => cases hdepth
    | vector => cases hdepth
  | case4 done l v pending ih =>
    obtain ⟨hv, hpending⟩ := List.forall_mem_cons.mp h
    rw [expand]
    cases hp : v.isPlain with
    | true =>
      have hlayer : s.layer v = [] := by
        cases v <;> first | rfl | cases hp
      rw [hlayer] at ih ⊢
      exact .head (.plain hp) (ih hpending)
    | false =>
      have htext : done ++ plainText style v = done := by
        cases v <;> first | exact String.append_empty | cases hp
      obtain ⟨hturn, hlayer⟩ := prints_layer style hp hv done (pending.map (·.2))
      rw [htext] at ih ⊢
      refine .head hturn ?_
      have hrest := ih (List.forall_mem_append.mpr ⟨?_, hpending⟩)
      · simpa only [List.map_append, List.map_map, Function.comp_def, List.map_id'] using hrest
      · exact List.forall_mem_map.mpr hlayer

theorem acc_of_prints {style : Style} {a : String × List Piece} {text : String}
    (h : Relation.ReflTransGen (s.Prints style) a (text, [])) :
    Acc (fun b a => s.Prints style a b) a := by
  induction h using Relation.ReflTransGen.head_induction_on with
  | refl => exact .intro _ nofun
  | head hturn _ ih =>
    refine .intro _ fun b hb => ?_
    rw [hb.unique hturn]
    exact ih

/-- All loops that follow the references of the value end. -/
structure Traverses (s : Store) (v : Value) : Prop where
  stops : ∀ style, Acc (fun b a => s.Prints style a b) ("", [.value v])
  prints : ∀ style,
    Relation.ReflTransGen (s.Prints style) ("", [.value v]) (s.external style v, [])
  walks : ∃ items tail, Chain s v items tail ∧ (∀ ref, tail ≠ .pair ref) ∧
    s.walk v = (items, tail)
  operands : ∀ ref, v = .pair ref → ∃ items tail, Chain s (s.cdr ref) items tail ∧
    (∀ ref, tail ≠ .pair ref) ∧
    ∀ form, s.operands form ref = if tail = .null then .ok items else s.malformed form v

end Store

namespace Fits

theorem walks (h : Fits s n v) : ∃ items tail, Chain s v items tail ∧
    (∀ ref, tail ≠ .pair ref) ∧ s.walk v = (items, tail) := by
  obtain ⟨items, tail, hc, htail⟩ := h.exists_chain
  exact ⟨items, tail, hc, htail, hc.walk htail (h.length_le hc)⟩

theorem traverses (h : Fits s n v) : s.Traverses v := by
  have hprints : ∀ style,
      Relation.ReflTransGen (s.Prints style) ("", [.value v]) (s.external style v, []) := by
    obtain ⟨t, ht, -⟩ := h
    have hfits : s.FitsPiece s.cells.size (.value v) := ⟨t, ht, ht.depth_le⟩
    exact fun style => Store.prints_expand style "" [(s.cells.size, .value v)]
      (List.forall_mem_singleton.mpr hfits)
  refine ⟨fun style => Store.acc_of_prints (hprints style), hprints, h.walks, ?_⟩
  rintro ref rfl
  obtain ⟨m, -, -, hcdr⟩ := h.of_pair
  obtain ⟨items, tail, hc, htail, hwalk⟩ := hcdr.walks
  refine ⟨items, tail, hc, htail, fun form => ?_⟩
  unfold Store.operands
  rw [hwalk]
  split
  · rename_i heq
    cases heq
    rw [if_pos rfl]
  · rename_i hnull
    rw [if_neg]
    rintro rfl
    exact hnull items rfl

end Fits

end SmallScheme
