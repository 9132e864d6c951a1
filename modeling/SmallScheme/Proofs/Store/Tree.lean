import Mathlib.Data.Fintype.Card
import SmallScheme.Store.External

/-! # Values as trees

A value without cycles unfolds to a finite tree. Along a path of the tree no cell comes twice, since
a cell has only one tree and its parts have smaller ones; so a tree is no deeper than its store has
cells.
-/

namespace SmallScheme

namespace Value

def isPlain : Value → Bool
  | .pair _ | .vector _ => false
  | _ => true

end Value

/-- A value without the places of its cells. -/
inductive Tree
  | leaf (value : Value)
  | pair (car cdr : Tree)
  | vector (items : List Tree)

namespace Tree

mutual

def depth : Tree → Nat
  | leaf _ => 0
  | pair car cdr => max car.depth cdr.depth + 1
  | vector items => depthAll items + 1

def depthAll : List Tree → Nat
  | [] => 0
  | t :: rest => max t.depth (depthAll rest)

end

end Tree

mutual

/-- The value is that tree in the store. -/
inductive Unfolds (s : Store) : Value → Tree → Prop

  | leaf {v : Value} : v.isPlain → Unfolds s v (.leaf v)

  | pair {ref : CellRef} {car cdr : Value} {t u : Tree} :
      s.cells[ref.index]? = some (.pair car cdr) → Unfolds s car t → Unfolds s cdr u →
      Unfolds s (.pair ref) (.pair t u)

  | vector {ref : CellRef} {items : List Value} {ts : List Tree} :
      s.cells[ref.index]? = some (.vector items) → UnfoldAll s items ts →
      Unfolds s (.vector ref) (.vector ts)

inductive UnfoldAll (s : Store) : List Value → List Tree → Prop

  | nil : UnfoldAll s [] []

  | cons {v : Value} {t : Tree} {vs : List Value} {ts : List Tree} : Unfolds s v t →
      UnfoldAll s vs ts → UnfoldAll s (v :: vs) (t :: ts)

end

variable {s : Store} {v : Value} {vs : List Value} {n : Nat}

mutual

theorem Unfolds.unique : ∀ {t u : Tree} {v : Value}, Unfolds s v t → Unfolds s v u → t = u
  | .leaf _, _, _, .leaf hv, hu => by
    cases hu with
    | leaf => rfl
    | pair => cases hv
    | vector => cases hv
  | .pair _ _, _, _, .pair hc ht hu, h => by
    cases h with
    | leaf hv => cases hv
    | pair hc' ht' hu' =>
      rw [hc] at hc'
      cases hc'
      rw [ht.unique ht', hu.unique hu']
  | .vector _, _, _, .vector hc ht, h => by
    cases h with
    | leaf hv => cases hv
    | vector hc' ht' =>
      rw [hc] at hc'
      cases hc'
      rw [ht.unique ht']

theorem UnfoldAll.unique : ∀ {ts us : List Tree} {vs : List Value}, UnfoldAll s vs ts →
    UnfoldAll s vs us → ts = us
  | [], _, _, .nil, .nil => rfl
  | _ :: _, _, _, .cons ht hts, .cons hu hus => by rw [ht.unique hu, hts.unique hus]

end

theorem Unfolds.of_pair {ref : CellRef} {t : Tree} (h : Unfolds s (.pair ref) t) :
    ∃ car cdr a b, s.cells[ref.index]? = some (.pair car cdr) ∧ t = .pair a b ∧
      Unfolds s car a ∧ Unfolds s cdr b := by
  cases h with
  | leaf hv => cases hv
  | pair hc ha hb => exact ⟨_, _, _, _, hc, rfl, ha, hb⟩

theorem Unfolds.of_vector {ref : CellRef} {t : Tree} (h : Unfolds s (.vector ref) t) :
    ∃ items ts, s.cells[ref.index]? = some (.vector items) ∧ t = .vector ts ∧
      UnfoldAll s items ts := by
  cases h with
  | leaf hv => cases hv
  | vector hc ht => exact ⟨_, _, hc, rfl, ht⟩

def CellDepth (s : Store) (ref : CellRef) (n : Nat) : Prop :=
  ∃ v t, (v = .pair ref ∨ v = .vector ref) ∧ Unfolds s v t ∧ t.depth = n

theorem CellDepth.lt_size {ref : CellRef} (h : CellDepth s ref n) :
    ref.index < s.cells.size := by
  rcases h with ⟨v, t, rfl | rfl, h, -⟩
  · obtain ⟨car, cdr, a, b, hc, -⟩ := h.of_pair
    exact (Array.getElem?_eq_some_iff.mp hc).1
  · obtain ⟨items, ts, hc, -⟩ := h.of_vector
    exact (Array.getElem?_eq_some_iff.mp hc).1

theorem Unfolds.not_vector {ref : CellRef} {t u : Tree} (ht : Unfolds s (.pair ref) t) :
    ¬ Unfolds s (.vector ref) u := by
  intro hu
  obtain ⟨car, cdr, a, b, hc, -⟩ := ht.of_pair
  obtain ⟨items, ts, hc', -⟩ := hu.of_vector
  rw [hc] at hc'
  cases hc'

theorem CellDepth.unique {ref : CellRef} {m : Nat} (hm : CellDepth s ref m)
    (hn : CellDepth s ref n) : m = n := by
  rcases hm with ⟨v, t, rfl | rfl, ht, rfl⟩ <;> rcases hn with ⟨v', u, rfl | rfl, hu, rfl⟩
  · rw [ht.unique hu]
  · exact (ht.not_vector hu).elim
  · exact (hu.not_vector ht).elim
  · rw [ht.unique hu]

mutual

theorem Unfolds.exists_cellDepth : ∀ {t : Tree} {v : Value}, Unfolds s v t → 0 < n →
    n ≤ t.depth → ∃ ref, CellDepth s ref n
  | .leaf _, _, .leaf _, hn, h => by
    rw [Tree.depth] at h
    omega
  | .pair _ _, _, .pair hc ht hu, hn, h => by
    rw [Tree.depth] at h
    rcases Nat.lt_or_eq_of_le h with h | h
    · rcases le_max_iff.mp (Nat.le_of_lt_succ h) with h | h
      · exact ht.exists_cellDepth hn h
      · exact hu.exists_cellDepth hn h
    · exact ⟨_, _, _, .inl rfl, .pair hc ht hu, h.symm⟩
  | .vector _, _, .vector hc ht, hn, h => by
    rw [Tree.depth] at h
    rcases Nat.lt_or_eq_of_le h with h | h
    · exact ht.exists_cellDepth hn (Nat.le_of_lt_succ h)
    · exact ⟨_, _, _, .inr rfl, .vector hc ht, h.symm⟩

theorem UnfoldAll.exists_cellDepth : ∀ {ts : List Tree} {vs : List Value}, UnfoldAll s vs ts →
    0 < n → n ≤ Tree.depthAll ts → ∃ ref, CellDepth s ref n
  | [], _, .nil, hn, h => by
    rw [Tree.depthAll] at h
    omega
  | _ :: _, _, .cons ht hts, hn, h => by
    rw [Tree.depthAll] at h
    rcases le_max_iff.mp h with h | h
    · exact ht.exists_cellDepth hn h
    · exact hts.exists_cellDepth hn h

end

theorem Store.le_size_of_cells {P : CellRef → Nat → Prop}
    (hcell : ∀ k < n, ∃ ref : CellRef, ref.index < s.cells.size ∧ P ref k)
    (hunique : ∀ {ref k l}, P ref k → P ref l → k = l) : n ≤ s.cells.size := by
  choose ref hlt hnumber using fun k : Fin n => hcell k k.isLt
  let place : Fin n → Fin s.cells.size := fun k => ⟨(ref k).index, hlt k⟩
  have hplace : Function.Injective place := by
    intro k l hkl
    have href : ref k = ref l := congrArg (fun i : Fin s.cells.size => CellRef.mk i) hkl
    exact Fin.ext (hunique (hnumber k) (href ▸ hnumber l))
  simpa using Fintype.card_le_of_injective place hplace

/-- A tree is no deeper than its store has cells. -/
theorem Unfolds.depth_le {t : Tree} (h : Unfolds s v t) : t.depth ≤ s.cells.size := by
  -- Every depth down to one belongs to a cell, and no cell has two depths.
  refine Store.le_size_of_cells (P := fun ref k => CellDepth s ref (k + 1)) (fun k hk => ?_)
    fun hk hl => Nat.succ.inj (hk.unique hl)
  obtain ⟨ref, href⟩ := h.exists_cellDepth (Nat.succ_pos k) hk
  exact ⟨ref, href.lt_size, href⟩

end SmallScheme
