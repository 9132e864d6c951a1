import SmallScheme.Proofs.Store.Lists
import SmallScheme.Proofs.Store.Traversal

/-! # Lists taken apart and put together

Building a list and walking along one undo each other. A walk comes to the items that a list was
built of and to what it was built in front of; and what a walk comes to is enough to build the list
once more, of pairs of its own.
-/

namespace SmallScheme

variable {s s' : Store} {v w tail tail' last : Value} {items items' more : List Value}

/-- The cars along a chain of pairs that ends, and its last cdr. -/
inductive FiniteChain (s : Store) : Value → List Value → Value → Prop

  | nil {tail : Value} : (∀ ref, tail ≠ .pair ref) → FiniteChain s tail [] tail

  | cons {ref : CellRef} {car cdr tail : Value} {items : List Value} :
      s.cells[ref.index]? = some (.pair car cdr) → FiniteChain s cdr items tail →
      FiniteChain s (.pair ref) (car :: items) tail

namespace FiniteChain

theorem chain (h : FiniteChain s v items tail) : Chain s v items tail := by
  induction h with
  | nil => exact .nil
  | cons hc _ ih =>
    obtain ⟨rfl, rfl⟩ := pairAt_eq hc
    exact .cons ih

theorem ends (h : FiniteChain s v items tail) : ∀ ref, tail ≠ .pair ref := by
  induction h with
  | nil htail => exact htail
  | cons _ _ ih => exact ih

theorem unique (h : FiniteChain s v items tail) (h' : FiniteChain s v items' tail') :
    items = items' ∧ tail = tail' := h.chain.eq_of_ends h.ends h'.chain h'.ends

theorem mono (h : FiniteChain s v items tail) (h' : s.Extends s') :
    FiniteChain s' v items tail := by
  induction h with
  | nil htail => exact .nil htail
  | cons hc _ ih => exact .cons (h' hc) ih

theorem exists_pair (h : FiniteChain s v items tail) {k : Nat} (hk : k < items.length) :
    ∃ ref : CellRef, ref.index < s.cells.size ∧ FiniteChain s (.pair ref) (items.drop k) tail := by
  induction h generalizing k with
  | nil => cases hk
  | cons hc hrest ih =>
    cases k with
    | zero => exact ⟨_, (Array.getElem?_eq_some_iff.mp hc).1, .cons hc hrest⟩
    | succ k => exact ih (Nat.lt_of_succ_lt_succ hk)

/-- A chain that ends is no longer than the store, whatever its items are. -/
theorem length_le (h : FiniteChain s v items tail) : items.length ≤ s.cells.size := by
  -- A pair that came twice would have the same items left both times.
  refine Store.le_size_of_cells
    (P := fun ref k => k < items.length ∧ FiniteChain s (.pair ref) (items.drop k) tail)
    (fun k hk => ?_) ?_
  · obtain ⟨ref, hlt, hchain⟩ := h.exists_pair hk
    exact ⟨ref, hlt, hk, hchain⟩
  · rintro ref k l ⟨hk, hchain⟩ ⟨hl, hchain'⟩
    have hlength := congrArg List.length (hchain.unique hchain').1
    rw [List.length_drop, List.length_drop] at hlength
    omega

end FiniteChain

theorem NewChain.append (h : NewChain s s' v items tail) (h' : FiniteChain s' tail more last) :
    FiniteChain s' v (items ++ more) last := by
  induction h with
  | nil => exact h'
  | cons _ hc _ ih => exact .cons hc (ih h')

namespace Store

/-- The walk along the value ends with these items and that tail. -/
structure Walks (s : Store) (v : Value) (items : List Value) (tail : Value) : Prop where
  chain : FiniteChain s v items tail
  walk : s.walk v = (items, tail)
  isList : s.isList v ↔ tail = .null

theorem walks_of_finiteChain (h : FiniteChain s v items tail) : s.Walks v items tail := by
  have hwalk : s.walk v = (items, tail) := h.chain.walk h.ends h.length_le
  refine ⟨h, hwalk, ?_⟩
  rw [isList, hwalk, decide_eq_true_iff]

theorem finiteChain_list (items : List Value) (h : FiniteChain s tail more last) :
    FiniteChain (s.list items tail).2 (s.list items tail).1 (items ++ more) last :=
  (newChain_list s items tail).append (h.mono (extends_list s items tail))

theorem finiteChain_list_of_ends (s : Store) (items : List Value)
    (htail : ∀ ref, tail ≠ .pair ref) :
    FiniteChain (s.list items tail).2 (s.list items tail).1 items tail := by
  have hchain := finiteChain_list items (.nil (s := s) htail)
  rwa [List.append_nil] at hchain

/-- What makes two values alike when their parts are. -/
inductive Matches (s : Store) (R : Value → Value → Prop) : Value → Value → Prop

  | same {v : Value} : Matches s R v v

  | pair {ref ref' : CellRef} {car cdr car' cdr' : Value} :
      s.cells[ref.index]? = some (.pair car cdr) → s.cells[ref'.index]? = some (.pair car' cdr') →
      R car car' → R cdr cdr' → Matches s R (.pair ref) (.pair ref')

  | vector {ref ref' : CellRef} {items items' : List Value} :
      s.cells[ref.index]? = some (.vector items) → s.cells[ref'.index]? = some (.vector items') →
      List.Forall₂ R items items' → Matches s R (.vector ref) (.vector ref')

/-- The values differ at most in which cells they are made of, even if they have cycles. -/
def Alike (s : Store) (v w : Value) : Prop :=
  ∃ R : Value → Value → Prop, (∀ a b, R a b → s.Matches R a b) ∧ R v w

theorem alike_of_finiteChain (h : FiniteChain s v items tail) (h' : FiniteChain s w items tail) :
    s.Alike v w := by
  let R : Value → Value → Prop := fun a b =>
    a = b ∨ ∃ items, FiniteChain s a items tail ∧ FiniteChain s b items tail
  refine ⟨R, ?_, .inr ⟨items, h, h'⟩⟩
  rintro a b (rfl | ⟨items, ha, hb⟩)
  · exact .same
  · cases ha with
    | nil =>
      cases hb
      exact .same
    | cons hc ha =>
      cases hb with
      | cons hc' hb => exact .pair hc hc' (.inl rfl) (.inr ⟨_, ha, hb⟩)

end Store

open Store

section

variable {R : Value → Value → Prop}

mutual

theorem Unfolds.of_matches (hR : ∀ a b, R a b → s.Matches R a b) : ∀ {t : Tree} {v w : Value},
    Unfolds s v t → R v w → Unfolds s w t
  | .leaf _, _, _, .leaf hv, h => by
    cases hR _ _ h with
    | same => exact .leaf hv
    | pair | vector => cases hv
  | .pair _ _, _, _, .pair hc ht hu, h => by
    cases hR _ _ h with
    | same => exact .pair hc ht hu
    | pair hc' hw hcar hcdr =>
      cases hc.symm.trans hc'
      exact .pair hw (ht.of_matches hR hcar) (hu.of_matches hR hcdr)
  | .vector _, _, _, .vector hc ht, h => by
    cases hR _ _ h with
    | same => exact .vector hc ht
    | vector hc' hw hitems =>
      cases hc.symm.trans hc'
      exact .vector hw (ht.of_matches hR hitems)

theorem UnfoldAll.of_matches (hR : ∀ a b, R a b → s.Matches R a b) :
    ∀ {ts : List Tree} {vs ws : List Value}, UnfoldAll s vs ts → List.Forall₂ R vs ws →
    UnfoldAll s ws ts
  | [], _, _, .nil, .nil => .nil
  | _ :: _, _, _, .cons ht hts, .cons h hs => .cons (ht.of_matches hR h) (hts.of_matches hR hs)

end

end

namespace Store

/-- What is like a value without cycles is the same tree. -/
theorem Alike.unfolds {t : Tree} (h : s.Alike v w) (hv : Unfolds s v t) : Unfolds s w t := by
  obtain ⟨R, hR, hvw⟩ := h
  exact hv.of_matches hR hvw

/-- What a list is built of is what the walk along it comes to, and conversely. -/
theorem list_walk_inverse (s : Store) :
    (∀ items tail, (∀ ref, tail ≠ .pair ref) →
      (s.list items tail).2.Walks (s.list items tail).1 items tail) ∧
    (∀ items tail more last, FiniteChain s tail more last →
      (s.list items tail).2.Walks (s.list items tail).1 (items ++ more) last) ∧
    ∀ v items tail, FiniteChain s v items tail → s.Walks v items tail ∧
      ∃ w s', s.list items tail = (w, s') ∧ s'.Alike v w ∧
        (∀ t, Unfolds s v t → Unfolds s' w t) ∧ NewChain s s' w items tail ∧
        s'.cells.size = s.cells.size + items.length ∧ s.Extends s' ∧ s.SameButCells s' := by
  refine ⟨fun items tail htail => ?_, fun items tail more last h => ?_, fun v items tail h => ?_⟩
  · exact walks_of_finiteChain (s.finiteChain_list_of_ends items htail)
  · exact walks_of_finiteChain (finiteChain_list items h)
  · have hextends := s.extends_list items tail
    have halike : (s.list items tail).2.Alike v (s.list items tail).1 :=
      alike_of_finiteChain (h.mono hextends) (s.finiteChain_list_of_ends items h.ends)
    exact ⟨walks_of_finiteChain h, _, _, rfl, halike, fun t ht => halike.unfolds (ht.mono hextends),
      s.newChain_list items tail, s.size_list items tail, hextends, .list s items tail⟩

/-- A dotted pair with itself as its first part. -/
theorem list_walk_inverse_circular :
    let b : Value := .atom (.character 'b')
    let v : Value := .pair ⟨0⟩
    let s : Store := ⟨#[.pair v b], #[], #[], #[]⟩
    (∀ ref, b ≠ .pair ref) ∧ (s.list [.null, v] b).2.walk (.pair ⟨2⟩) = ([.null, v], b) ∧
      FiniteChain s v [v] b ∧ (s.list [.null] v).2.walk (.pair ⟨1⟩) = ([.null, v], b) ∧
      (s.list [v] b).2.Alike v (.pair ⟨1⟩) := by
  intro b v s
  obtain ⟨hends, hjoined, hrebuilt⟩ := s.list_walk_inverse
  have hb : ∀ ref, b ≠ .pair ref := nofun
  have hv : FiniteChain s v [v] b := .cons rfl (.nil hb)
  obtain ⟨-, w, s', hlist, halike, -⟩ := hrebuilt v [v] b hv
  cases hlist
  exact ⟨hb, (hends [.null, v] b hb).walk, hv, (hjoined [.null] v [v] b hv).walk, halike⟩

end Store

end SmallScheme
