import SmallScheme.Proofs.Store.Tree

/-! # External representations of trees

The text of a tree by recursion on the tree. For a value without cycles the expansion piece by piece
comes to the text of its tree: a store has enough cells for the layers and for the lengths of chains
to be no limit.
-/

namespace SmallScheme

namespace Tree

def abbreviation? : Tree → Tree → Option Abbreviation
  | leaf (.atom (.symbol name)), pair _ (leaf .null) => Abbreviation.ofKeyword? name
  | _, _ => none

mutual

def text (style : Style) : Tree → String
  | leaf v => Store.plainText style v
  | pair car cdr =>
    match abbreviation? car cdr with
    | some mark => mark.mark ++ cdr.headText style
    | none => "(" ++ car.text style ++ cdr.tailText style
  | vector items => vectorText style items

def headText (style : Style) : Tree → String
  | pair car _ => car.text style
  | _ => ""

/-- The text behind the items of a list of which this is left. -/
def tailText (style : Style) : Tree → String
  | leaf .null => ")"
  | leaf v => " . " ++ Store.plainText style v ++ ")"
  | pair car cdr => " " ++ car.text style ++ cdr.tailText style
  | vector items => " . " ++ vectorText style items ++ ")"

def vectorText (style : Style) : List Tree → String
  | [] => "#()"
  | t :: rest => "#(" ++ t.text style ++ spacedText style rest

def spacedText (style : Style) : List Tree → String
  | [] => ")"
  | t :: rest => " " ++ t.text style ++ spacedText style rest

end

end Tree

namespace Store

/-- The pieces with so many layers each stand for that text wherever they come. -/
def Expands (s : Store) (style : Style) (l : Nat) (pieces : List Piece) (t : String) : Prop :=
  ∀ done pending, s.expand style done (pieces.map (l, ·) ++ pending) =
    s.expand style (done ++ t) pending

variable {s : Store} {style : Style} {v : Value} {l n : Nat} {pieces rest : List Piece}
  {t u : String}

namespace Expands

theorem nil : s.Expands style l [] "" := by
  intro done pending
  rw [String.append_empty]
  rfl

theorem append (h : s.Expands style l pieces t) (h' : s.Expands style l rest u) :
    s.Expands style l (pieces ++ rest) (t ++ u) := by
  intro done pending
  rw [List.map_append, List.append_assoc, h, h', String.append_assoc]

theorem text (t : String) : s.Expands style l [.text t] t := by
  intro done pending
  cases l <;> rw [List.map_singleton, List.singleton_append, expand]

theorem plain (h : v.isPlain) : s.Expands style l [.value v] (plainText style v) := by
  intro done pending
  rw [List.map_singleton, List.singleton_append]
  cases l with
  | zero => rw [expand]
  | succ l =>
    have hlayer : s.layer v = [] := by
      cases v <;> first | rfl | cases h
    rw [expand, hlayer]
    rfl

theorem layer (hv : v.isPlain = false) (h : s.Expands style l (s.layer v) t) :
    s.Expands style (l + 1) [.value v] t := by
  intro done pending
  have hplain : plainText style v = "" := by
    cases v <;> first | rfl | cases hv
  rw [List.map_singleton, List.singleton_append, expand, hplain, String.append_empty, h]

end Expands

def tailPieces (s : Store) : Nat → Value → List Piece
  | n + 1, .pair ref => .text " " :: .value (s.car ref) :: s.tailPieces n (s.cdr ref)
  | _, v => ending v

def spacedPieces (vs : List Value) : List Piece :=
  (vs.flatMap fun v => [.text " ", .value v]) ++ [.text ")"]

theorem separated_cons (v : Value) (vs : List Value) :
    separated (v :: vs) = .value v :: vs.flatMap fun w => [.text " ", .value w] := by
  induction vs generalizing v with
  | nil => rfl
  | cons w vs ih =>
    rw [separated, ih, List.flatMap_cons]
    · rfl
    · simp

theorem separated_concat {vs : List Value} (hvs : vs ≠ []) (v : Value) :
    separated (vs ++ [v]) = separated vs ++ [.text " ", .value v] := by
  obtain ⟨w, vs, rfl⟩ := List.exists_cons_of_ne_nil hvs
  rw [List.cons_append, separated_cons, separated_cons, List.flatMap_append]
  rfl

theorem separated_walkFrom {seen : List Value} (hseen : seen ≠ []) :
    separated (s.walkFrom n v seen).1 ++ ending (s.walkFrom n v seen).2 =
      separated seen.reverse ++ s.tailPieces n v := by
  induction n generalizing v seen with
  | zero => cases v <;> rfl
  | succ n ih =>
    cases v with
    | pair ref =>
      rw [walkFrom, ih (List.cons_ne_nil _ _), List.reverse_cons,
        separated_concat (by simpa using hseen), tailPieces]
      simp
    | _ => rfl

theorem layer_pair {ref : CellRef} (h : s.abbreviation? ref = none) (hn : s.cells.size = n + 1) :
    s.layer (.pair ref) =
      [.text "("] ++ ([.value (s.car ref)] ++ s.tailPieces n (s.cdr ref)) := by
  have hw := @separated_walkFrom s (s.cdr ref) n [s.car ref] (List.cons_ne_nil _ _)
  simp only [layer, h, walk, hn, walkFrom, List.cons_append, hw]
  rfl

theorem layer_abbreviated {ref : CellRef} {mark : Abbreviation} {operand : Value}
    (h : s.abbreviation? ref = some (mark, operand)) :
    s.layer (.pair ref) = [.text mark.mark] ++ [.value operand] := by
  simp only [layer, h, List.cons_append, List.nil_append]

theorem layer_list {ref : CellRef} {items : List Value} {tail : Value}
    (h : s.abbreviation? ref = none) (hwalk : s.walk (.pair ref) = (items, tail)) :
    s.layer (.pair ref) = .text "(" :: (separated items ++ ending tail) := by
  simp only [layer, h, hwalk, List.cons_append]

theorem spacedPieces_cons (v : Value) (vs : List Value) :
    spacedPieces (v :: vs) = [.text " "] ++ ([.value v] ++ spacedPieces vs) := rfl

theorem layer_vector {ref : CellRef} {v : Value} {vs : List Value} (h : s.items ref = v :: vs) :
    s.layer (.vector ref) = [.text "#("] ++ ([.value v] ++ spacedPieces vs) := by
  simp only [layer, h, separated_cons, spacedPieces]
  simp

theorem Expands.dotted (hv : v ≠ .null) (hp : ∀ ref, v ≠ .pair ref)
    (h : s.Expands style l [.value v] t) :
    s.Expands style l (s.tailPieces n v) (" . " ++ t ++ ")") := by
  have hpieces : s.tailPieces n v = [.text " . "] ++ ([.value v] ++ [.text ")"]) := by
    cases v with
    | null => exact (hv rfl).elim
    | pair ref => exact (hp ref rfl).elim
    | _ => cases n <;> rfl
  rw [hpieces, String.append_assoc]
  exact .append (.text _) (.append h (.text _))

end Store

open Store

variable {s : Store}

theorem pairAt_eq {ref : CellRef} {car cdr : Value}
    (h : s.cells[ref.index]? = some (.pair car cdr)) : s.car ref = car ∧ s.cdr ref = cdr := by
  simp only [Store.car, Store.cdr, Store.pairAt, h, and_self]

theorem items_eq {ref : CellRef} {vs : List Value}
    (h : s.cells[ref.index]? = some (.vector vs)) : s.items ref = vs := by
  simp only [Store.items, h]

theorem Tree.abbreviation?_eq_none {t u : Tree}
    (h : ∀ name operand, t = leaf (.atom (.symbol name)) → u ≠ pair operand (leaf .null)) :
    Tree.abbreviation? t u = none := by
  unfold Tree.abbreviation?
  split
  · exact (h _ _ rfl rfl).elim
  · rfl

theorem abbreviation?_cases {ref : CellRef} {car cdr : Value} {t u : Tree}
    (h : s.cells[ref.index]? = some (.pair car cdr)) (ht : Unfolds s car t)
    (hu : Unfolds s cdr u) :
    s.abbreviation? ref = none ∧ Tree.abbreviation? t u = none ∨
      ∃ mark place, cdr = .pair place ∧ s.abbreviation? ref = some (mark, s.car place) ∧
        Tree.abbreviation? t u = some mark := by
  obtain ⟨hcar, hcdr⟩ := pairAt_eq h
  simp only [Store.abbreviation?, hcar, hcdr]
  by_cases hsym : ∃ name place, car = .atom (.symbol name) ∧ cdr = .pair place ∧
      s.cdr place = .null
  · obtain ⟨name, place, rfl, rfl, hnull⟩ := hsym
    obtain ⟨x, y, a, b, hc, rfl, ha, hb⟩ := hu.of_pair
    rw [(pairAt_eq hc).2] at hnull
    subst hnull
    cases ht
    cases hb
    simp only [(pairAt_eq hc).2, if_true, Tree.abbreviation?]
    cases Abbreviation.ofKeyword? name with
    | none => exact .inl ⟨rfl, rfl⟩
    | some mark => exact .inr ⟨mark, place, rfl, rfl, rfl⟩
  · refine .inl ⟨?_, Tree.abbreviation?_eq_none ?_⟩
    · split
      · rename_i name place
        rw [if_neg fun hnull => hsym ⟨name, place, rfl, rfl, hnull⟩]
      · rfl
    · rintro name operand rfl rfl
      cases ht
      cases hu with
      | pair hc ha hb =>
        cases hb
        exact hsym ⟨name, _, rfl, rfl, (pairAt_eq hc).2⟩

mutual

/-- A value with enough layers is expanded to the text of its tree. -/
theorem Unfolds.expands (style : Style) : ∀ {t : Tree} {v : Value} (_ : Unfolds s v t) {l : Nat}
    (_ : t.depth ≤ l) (_ : t.depth ≤ s.cells.size), s.Expands style l [.value v] (t.text style)
  | .leaf v, _, .leaf hv, l, _, _ => .plain hv
  | .pair t u, _, .pair hc ht hu, l, hl, hs => by
    rw [Tree.depth] at hl hs
    obtain ⟨l, rfl⟩ : ∃ k, l = k + 1 := ⟨l - 1, by omega⟩
    -- The walk takes the first pair of the chain itself, which the depth accounts for.
    obtain ⟨n, hn⟩ : ∃ k, s.cells.size = k + 1 := ⟨s.cells.size - 1, by omega⟩
    obtain ⟨hcar, hcdr⟩ := pairAt_eq hc
    refine .layer rfl ?_
    rcases abbreviation?_cases hc ht hu with ⟨h, ha⟩ | ⟨mark, place, rfl, h, ha⟩
    · have hitem := ht.expands style (by omega : t.depth ≤ l) (by omega)
      have htail := hu.expands_tail style (by omega : u.depth ≤ l) (by omega : u.depth ≤ n)
        (by omega)
      rw [layer_pair h hn, Tree.text, ha, hcar, hcdr, String.append_assoc]
      exact .append (.text "(") (.append hitem htail)
    · have hoperand := hu.expands_head style (by omega : u.depth ≤ l) (by omega)
      rw [layer_abbreviated h, Tree.text, ha]
      exact .append (.text _) hoperand
  | .vector ts, _, .vector hc ht, l, hl, hs => by
    rw [Tree.depth] at hl hs
    exact ht.expands_vector style hc hl hs

theorem Unfolds.expands_head (style : Style) : ∀ {t : Tree} {ref : CellRef}
    (_ : Unfolds s (.pair ref) t) {l : Nat} (_ : t.depth ≤ l) (_ : t.depth ≤ s.cells.size),
    s.Expands style l [.value (s.car ref)] (t.headText style)
  | .leaf v, _, h, l, _, _ => by
    cases h with
    | leaf hv => cases hv
  | .vector ts, _, h, l, _, _ => by
    cases h
  | .pair t u, _, .pair hc ht hu, l, hl, hs => by
    rw [Tree.depth] at hl hs
    rw [Tree.headText, (pairAt_eq hc).1]
    exact ht.expands style (by omega) (by omega)

theorem Unfolds.expands_tail (style : Style) : ∀ {t : Tree} {v : Value} (_ : Unfolds s v t)
    {l n : Nat} (_ : t.depth ≤ l) (_ : t.depth ≤ n) (_ : t.depth ≤ s.cells.size),
    s.Expands style l (s.tailPieces n v) (t.tailText style)
  | .leaf v, _, .leaf hv, l, n, _, _, _ => by
    by_cases hnull : v = .null
    · subst hnull
      cases n <;> exact .text ")"
    · rw [Tree.tailText]
      · refine .dotted hnull ?_ (.plain hv)
        rintro ref rfl
        cases hv
      · exact hnull
  | .pair t u, _, .pair hc ht hu, l, n, hl, hn, hs => by
    rw [Tree.depth] at hl hn hs
    obtain ⟨n, rfl⟩ : ∃ k, n = k + 1 := ⟨n - 1, by omega⟩
    obtain ⟨hcar, hcdr⟩ := pairAt_eq hc
    have hitem := ht.expands style (by omega : t.depth ≤ l) (by omega)
    have htail := hu.expands_tail style (by omega : u.depth ≤ l) (by omega : u.depth ≤ n)
      (by omega)
    rw [tailPieces, Tree.tailText, hcar, hcdr, String.append_assoc]
    exact .append (.text " ") (.append hitem htail)
  | .vector ts, _, .vector hc ht, l, n, hl, hn, hs => by
    rw [Tree.depth] at hl hs
    refine .dotted ?_ ?_ (ht.expands_vector style hc hl hs)
    · rintro ⟨⟩
    · rintro ref ⟨⟩

theorem UnfoldAll.expands_vector (style : Style) : ∀ {ts : List Tree} {vs : List Value}
    (_ : UnfoldAll s vs ts) {ref : CellRef} (_ : s.cells[ref.index]? = some (.vector vs))
    {l : Nat} (_ : Tree.depthAll ts + 1 ≤ l) (_ : Tree.depthAll ts + 1 ≤ s.cells.size),
    s.Expands style l [.value (.vector ref)] (Tree.vectorText style ts)
  | [], _, .nil, ref, hc, l, hl, hs => by
    obtain ⟨l, rfl⟩ : ∃ k, l = k + 1 := ⟨l - 1, by omega⟩
    have hlayer : s.layer (.vector ref) = [.text "#("] ++ [.text ")"] := by
      simp only [layer, items_eq hc]
      rfl
    refine .layer rfl ?_
    rw [hlayer]
    exact .append (.text "#(") (.text ")")
  | t :: ts, _, .cons ht hts, ref, hc, l, hl, hs => by
    rw [Tree.depthAll] at hl hs
    obtain ⟨l, rfl⟩ : ∃ k, l = k + 1 := ⟨l - 1, by omega⟩
    have hitem := ht.expands style (by omega : t.depth ≤ l) (by omega)
    have hspaced := hts.expands_spaced style (by omega : Tree.depthAll ts ≤ l) (by omega)
    refine .layer rfl ?_
    rw [layer_vector (items_eq hc), Tree.vectorText, String.append_assoc]
    exact .append (.text "#(") (.append hitem hspaced)

theorem UnfoldAll.expands_spaced (style : Style) : ∀ {ts : List Tree} {vs : List Value}
    (_ : UnfoldAll s vs ts) {l : Nat} (_ : Tree.depthAll ts ≤ l)
    (_ : Tree.depthAll ts ≤ s.cells.size), s.Expands style l (spacedPieces vs)
      (Tree.spacedText style ts)
  | [], _, .nil, l, _, _ => .text ")"
  | t :: ts, _, .cons ht hts, l, hl, hs => by
    rw [Tree.depthAll] at hl hs
    have hitem := ht.expands style (by omega : t.depth ≤ l) (by omega)
    have hspaced := hts.expands_spaced style (by omega : Tree.depthAll ts ≤ l) (by omega)
    rw [spacedPieces_cons, Tree.spacedText, String.append_assoc]
    exact .append (.text " ") (.append hitem hspaced)

end

theorem Store.Expands.external {style : Style} {v : Value} {t : String}
    (h : s.Expands style s.cells.size [.value v] t) : s.external style v = t := by
  have hexpands := h "" []
  rw [List.map_singleton, List.append_nil, String.empty_append] at hexpands
  rw [Store.external, hexpands, expand]

/-- The external representation of a value without cycles is the text of its tree. -/
theorem Unfolds.external {v : Value} {t : Tree} (h : Unfolds s v t) (style : Style) :
    s.external style v = t.text style :=
  (h.expands style h.depth_le h.depth_le).external

end SmallScheme
