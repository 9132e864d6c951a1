import SmallScheme.Proofs.Datum.Load

/-! # Lists of new pairs

A list is built of pairs that were not there before, one for each item. All other cells stay as they
are.
-/

namespace SmallScheme

/-- The items in new pairs of the second store, in front of the tail. -/
inductive NewChain (s s' : Store) : Value → List Value → Value → Prop

  | nil {tail : Value} : NewChain s s' tail [] tail

  | cons {ref : CellRef} {item rest tail : Value} {items : List Value} :
      s.cells.size ≤ ref.index → s'.cells[ref.index]? = some (.pair item rest) →
      NewChain s s' rest items tail → NewChain s s' (.pair ref) (item :: items) tail

variable {s s₁ s₂ s₃ : Store} {v tail : Value} {items : List Value}

theorem NewChain.mono (h : NewChain s₁ s₂ v items tail) (hsize : s.cells.size ≤ s₁.cells.size)
    (h' : s₂.Extends s₃) : NewChain s s₃ v items tail := by
  induction h with
  | nil => exact .nil
  | cons hnew hcell _ ih => exact .cons (hsize.trans hnew) (h' hcell) ih

namespace Store

theorem list_cons (s : Store) (item : Value) (items : List Value) (tail : Value) :
    s.list (item :: items) tail = (s.list items tail).2.cons item (s.list items tail).1 := rfl

theorem size_list (s : Store) (items : List Value) (tail : Value) :
    (s.list items tail).2.cells.size = s.cells.size + items.length := by
  induction items with
  | nil => rfl
  | cons item items ih =>
    simp only [list_cons, cons, newCell, Array.size_push, ih, List.length_cons]
    omega

theorem extends_list (s : Store) (items : List Value) (tail : Value) :
    s.Extends (s.list items tail).2 := by
  induction items with
  | nil => exact .refl s
  | cons item items ih => exact ih.trans (extends_newCell _ _)

theorem newChain_list (s : Store) (items : List Value) (tail : Value) :
    NewChain s (s.list items tail).2 (s.list items tail).1 items tail := by
  induction items with
  | nil => exact .nil
  | cons item items ih =>
    rw [list_cons]
    refine .cons ?_ (newCell_cell _ _) (ih.mono le_rfl (extends_newCell _ _))
    -- The pair of an item comes behind those of all later items.
    simp only [size_list]
    exact Nat.le_add_right _ _

end Store

end SmallScheme
