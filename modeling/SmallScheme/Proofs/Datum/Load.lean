import SmallScheme.Proofs.Store.Tree

/-! # Loaded data

A datum is loaded as a value that unfolds to the datum again. Loading only adds cells, and a value
keeps its tree as long as no cell is changed.
-/

namespace SmallScheme

namespace Datum

mutual

def tree : Datum → Tree
  | atom value => .leaf (.atom value)
  | null => .leaf .null
  | pair car cdr => .pair car.tree cdr.tree
  | vector items => .vector (trees items)

def trees : List Datum → List Tree
  | [] => []
  | d :: rest => d.tree :: trees rest

end

end Datum

namespace Store

/-- All cells of the store are cells of the other one. -/
def Extends (s s' : Store) : Prop :=
  ∀ ⦃i : Nat⦄ ⦃c : Cell⦄, s.cells[i]? = some c → s'.cells[i]? = some c

theorem Extends.refl (s : Store) : s.Extends s := fun _ _ h => h

theorem Extends.trans {s₁ s₂ s₃ : Store} (h : s₁.Extends s₂) (h' : s₂.Extends s₃) :
    s₁.Extends s₃ := fun _ _ hc => h' (h hc)

theorem extends_newCell (s : Store) (cell : Cell) : s.Extends (s.newCell cell).2 := by
  intro i c hc
  have hi := (Array.getElem?_eq_some_iff.mp hc).1
  rw [newCell, Array.getElem?_push, if_neg (by omega), hc]

theorem newCell_cell (s : Store) (cell : Cell) :
    (s.newCell cell).2.cells[(s.newCell cell).1.index]? = some cell := by
  simp [newCell]

mutual

theorem extends_load (s : Store) : ∀ d : Datum, s.Extends (s.load d).2
  | .atom a => .refl s
  | .null => .refl s
  | .pair car cdr => by
    have hcar := s.extends_load car
    have hcdr := (s.load car).2.extends_load cdr
    rw [load]
    exact (hcar.trans hcdr).trans (extends_newCell _ _)
  | .vector items => by
    have hitems := s.extends_loadAll items
    rw [load]
    exact hitems.trans (extends_newCell _ _)

theorem extends_loadAll (s : Store) : ∀ ds : List Datum, s.Extends (s.loadAll ds).2
  | [] => .refl s
  | d :: ds => by
    have hd := s.extends_load d
    have hds := (s.load d).2.extends_loadAll ds
    rw [loadAll]
    exact hd.trans hds

end

end Store

open Store

mutual

theorem Unfolds.mono {s s' : Store} (h : s.Extends s') : ∀ {t : Tree} {v : Value},
    Unfolds s v t → Unfolds s' v t
  | .leaf _, _, .leaf hv => .leaf hv
  | .pair _ _, _, .pair hc ht hu => .pair (h hc) (ht.mono h) (hu.mono h)
  | .vector _, _, .vector hc ht => .vector (h hc) (ht.mono h)

theorem UnfoldAll.mono {s s' : Store} (h : s.Extends s') : ∀ {ts : List Tree} {vs : List Value},
    UnfoldAll s vs ts → UnfoldAll s' vs ts
  | [], _, .nil => .nil
  | _ :: _, _, .cons ht hts => .cons (ht.mono h) (hts.mono h)

end

mutual

theorem Datum.unfolds_load (s : Store) : ∀ d : Datum, Unfolds (s.load d).2 (s.load d).1 d.tree
  | .atom a => .leaf rfl
  | .null => .leaf rfl
  | .pair car cdr => by
    have hcar := Datum.unfolds_load s car
    have hcdr := Datum.unfolds_load (s.load car).2 cdr
    have hcdr_ext := (s.load car).2.extends_load cdr
    rw [load]
    exact .pair (newCell_cell _ _) ((hcar.mono hcdr_ext).mono (extends_newCell _ _))
      (hcdr.mono (extends_newCell _ _))
  | .vector items => by
    have hitems := Datum.unfoldAll_loadAll s items
    rw [load]
    exact .vector (newCell_cell _ _) (hitems.mono (extends_newCell _ _))

theorem Datum.unfoldAll_loadAll (s : Store) : ∀ ds : List Datum,
    UnfoldAll (s.loadAll ds).2 (s.loadAll ds).1 (trees ds)
  | [] => .nil
  | d :: ds => by
    have hd := Datum.unfolds_load s d
    have hds := Datum.unfoldAll_loadAll (s.load d).2 ds
    have hext := (s.load d).2.extends_loadAll ds
    rw [loadAll]
    exact .cons (hd.mono hext) hds

end

end SmallScheme
