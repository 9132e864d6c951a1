import Mathlib.Data.Fintype.Card
import Mathlib.Data.Set.Finite.List
import SmallScheme.Proofs.Store.Traversal

/-! # Values without cycles

A value is acyclic if nothing that is inside of it is inside of itself. As the store is finite, that
is the same as to be a tree.
-/

namespace SmallScheme

variable {s : Store} {n : Nat} {u v w : Value}

namespace Store

inductive HasPart (s : Store) : Value → Value → Prop

  | pair {ref : CellRef} {car cdr w : Value} : s.cells[ref.index]? = some (.pair car cdr) →
      w ∈ [car, cdr] → HasPart s (.pair ref) w

  | vector {ref : CellRef} {items : List Value} {w : Value} :
      s.cells[ref.index]? = some (.vector items) → w ∈ items → HasPart s (.vector ref) w

/-- The second value is the first one or is somewhere inside of it. -/
def Contains (s : Store) : Value → Value → Prop := Relation.ReflTransGen s.HasPart

/-- All cells of the value exist, and none of them is inside of itself. -/
structure Acyclic (s : Store) (v : Value) : Prop where
  before : ∀ w, s.Contains v w → w.Before s s.cells.size
  not_inside : ∀ w, s.Contains v w → ¬ Relation.TransGen s.HasPart w w

theorem Acyclic.of_contains (h : s.Acyclic v) (hw : s.Contains v w) : s.Acyclic w :=
  ⟨fun u hu => h.before u (hw.trans hu), fun u hu => h.not_inside u (hw.trans hu)⟩

theorem HasPart.exists_cell (h : s.HasPart v w) : ∃ cell ∈ s.cells.toList, w ∈ cell.contents := by
  cases h with
  | pair hc hw => exact ⟨_, List.mem_of_getElem? (Array.getElem?_toList.trans hc), hw⟩
  | vector hc hw => exact ⟨_, List.mem_of_getElem? (Array.getElem?_toList.trans hc), hw⟩

theorem finite_contains (s : Store) (v : Value) : Finite {w // s.Contains v w} := by
  have hsubset : {w | s.Contains v w} ⊆ {w | w ∈ v :: s.cells.toList.flatMap Cell.contents} := by
    intro w hw
    rcases Relation.ReflTransGen.cases_tail hw with rfl | ⟨u, -, hpart⟩
    · exact List.mem_cons_self
    · exact List.mem_cons_of_mem _ (List.mem_flatMap.mpr hpart.exists_cell)
  exact ((List.finite_toSet _).subset hsubset).to_subtype

/-- Going from parts to parts of an acyclic value comes to an end. -/
theorem Acyclic.wellFounded (h : s.Acyclic v) :
    WellFounded fun u w : {w // s.Contains v w} => Relation.TransGen s.HasPart w u := by
  have hfinite := s.finite_contains v
  have htrans : IsTrans {w // s.Contains v w} fun u w => Relation.TransGen s.HasPart w u :=
    ⟨fun _ _ _ h₁ h₂ => h₂.trans h₁⟩
  have hirrefl : Std.Irrefl fun u w : {w // s.Contains v w} => Relation.TransGen s.HasPart w u :=
    ⟨fun w => h.not_inside w w.property⟩
  exact Finite.wellFounded_of_trans_of_irrefl _

end Store

namespace Fits

theorem of_fits (h : Fits s n v) : Fits s s.cells.size v := by
  obtain ⟨t, ht, -⟩ := h
  exact ⟨t, ht, ht.depth_le⟩

theorem of_hasPart (h : Fits s n v) (hw : s.HasPart v w) : ∃ m, n = m + 1 ∧ Fits s m w := by
  cases hw with
  | pair hc hw =>
    obtain ⟨m, rfl, hcar, hcdr⟩ := h.of_pair
    obtain ⟨hcar', hcdr'⟩ := pairAt_eq hc
    rw [hcar'] at hcar
    rw [hcdr'] at hcdr
    rcases List.mem_pair.mp hw with rfl | rfl
    · exact ⟨m, rfl, hcar⟩
    · exact ⟨m, rfl, hcdr⟩
  | vector hc hw =>
    obtain ⟨m, rfl, hitems⟩ := h.items_of_vector
    exact ⟨m, rfl, hitems w (items_eq hc ▸ hw)⟩

theorem of_inside (h : Fits s n v) (hw : Relation.TransGen s.HasPart v w) :
    ∃ m < n, Fits s m w := by
  induction hw with
  | single hw =>
    obtain ⟨m, rfl, hm⟩ := h.of_hasPart hw
    exact ⟨m, Nat.lt_succ_self m, hm⟩
  | tail _ hw ih =>
    obtain ⟨m, hlt, hm⟩ := ih
    obtain ⟨k, rfl, hk⟩ := hm.of_hasPart hw
    exact ⟨k, Nat.lt_of_succ_lt hlt, hk⟩

theorem not_inside (h : Fits s n v) : ¬ Relation.TransGen s.HasPart v v := by
  intro hv
  induction n using Nat.strong_induction_on with
  | _ n ih =>
    obtain ⟨m, hlt, hm⟩ := h.of_inside hv
    exact ih m hlt hm

theorem before (h : Fits s n v) : v.Before s s.cells.size := by
  obtain ⟨t, ht, -⟩ := h
  cases ht with
  | leaf hv =>
    cases v with
    | pair | vector => cases hv
    | _ => trivial
  | pair hc => exact ⟨(Array.getElem?_eq_some_iff.mp hc).1, _, _, hc⟩
  | vector hc => exact ⟨(Array.getElem?_eq_some_iff.mp hc).1, _, hc⟩

end Fits

theorem Store.Acyclic.fits (h : s.Acyclic v) : Fits s s.cells.size v := by
  have hall : ∀ w : {w // s.Contains v w}, Fits s s.cells.size w := by
    intro w
    induction w using h.wellFounded.induction with
    | _ w ih =>
      obtain ⟨w, hw⟩ := w
      have hpart : ∀ u, s.HasPart w u → Fits s s.cells.size u := fun u hu =>
        ih ⟨u, hw.tail hu⟩ (.single hu)
      cases w with
      | pair ref =>
        obtain ⟨-, car, cdr, hc⟩ := h.before _ hw
        exact (Fits.pair hc (hpart car (.pair hc (by simp))) (hpart cdr (.pair hc (by simp)))).of_fits
      | vector ref =>
        obtain ⟨-, items, hc⟩ := h.before _ hw
        exact (Fits.vector hc fun u hu => hpart u (.vector hc hu)).of_fits
      | _ => exact .leaf rfl _
  exact hall ⟨v, .refl⟩

/-- Acyclic values are those that unfold to trees. -/
theorem Store.acyclic_iff : s.Acyclic v ↔ ∃ t, Unfolds s v t := by
  constructor
  · intro h
    obtain ⟨t, ht, -⟩ := h.fits
    exact ⟨t, ht⟩
  · rintro ⟨t, ht⟩
    have hfits : ∀ w, s.Contains v w → ∃ m, Fits s m w := by
      intro w hw
      have hv : Fits s t.depth v := ⟨t, ht, le_rfl⟩
      rcases Relation.reflTransGen_iff_eq_or_transGen.mp hw with rfl | hw
      · exact ⟨_, hv⟩
      · obtain ⟨m, -, hm⟩ := hv.of_inside hw
        exact ⟨m, hm⟩
    exact ⟨fun w hw => (hfits w hw).choose_spec.before, fun w hw =>
      (hfits w hw).choose_spec.not_inside⟩

end SmallScheme
