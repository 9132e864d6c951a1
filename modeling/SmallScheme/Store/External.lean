import SmallScheme.Store.Chain

/-! # External representations

The text of a value. Pairs and vectors are expanded one layer at a time into pieces that wait in a
list, so deep values cost no recursion. Below a value, every path of cells is at most as long as the
store, unless the cells form a cycle; expansion stops there.
-/

namespace SmallScheme

/-- A part of a text, or a value whose text stands there. -/
inductive Piece
  | text (t : String)
  | value (v : Value)

namespace Store

/-- The mark and the operand of a two-element list that is written as an abbreviation. -/
def abbreviation? (s : Store) (ref : CellRef) : Option (Abbreviation × Value) :=
  match s.car ref, s.cdr ref with
  | .atom (.symbol name), .pair rest =>
    if s.cdr rest = .null then
      (Abbreviation.ofKeyword? name).map fun mark => (mark, s.car rest)
    else none
  | _, _ => none

/-- The values with a space between each two. -/
def separated : List Value → List Piece
  | [] => []
  | [v] => [.value v]
  | v :: rest => .value v :: .text " " :: separated rest

/-- What ends a list behind its items. -/
def ending : Value → List Piece
  | .null => [.text ")"]
  | tail => [.text " . ", .value tail, .text ")"]

/-- One layer of a pair or a vector. -/
def layer (s : Store) : Value → List Piece
  | .pair ref =>
    match s.abbreviation? ref with
    | some (mark, operand) => [.text mark.mark, .value operand]
    | none =>
      let (items, tail) := s.walk (.pair ref)
      .text "(" :: separated items ++ ending tail
  | .vector ref => .text "#(" :: separated (s.items ref) ++ [.text ")"]
  | _ => []

/-- The text of a value that has no layers. -/
def plainText (style : Style) : Value → String
  | .atom value => value.text style
  | .null => "()"
  | .void => "#<void>"
  | .procedure (.primitive _) => "#<primitive>"
  | .procedure (.closure _) => "#<procedure>"
  | .pair _ | .vector _ => ""

-- A sum of naturals begins with the literal zero, also where an algebraic hierarchy offers its own.
attribute [local instance (high)] Zero.ofOfNat0

/-- How many steps the expansion of a piece takes, through so many layers. -/
def steps (s : Store) : Nat → Piece → Nat
  | layers + 1, .value v => ((s.layer v).map (s.steps layers)).sum + 1
  | _, _ => 1

theorem steps_pos (s : Store) (layers : Nat) (piece : Piece) : 0 < s.steps layers piece := by
  cases layers <;> cases piece <;> simp [steps]

/-- How many steps the expansion of all pending pieces takes. -/
def pendingSteps (s : Store) : List (Nat × Piece) → Nat
  | [] => 0
  | (layers, piece) :: pending => s.steps layers piece + s.pendingSteps pending

theorem pendingSteps_layer (s : Store) (layers : Nat) (pieces : List Piece)
    (pending : List (Nat × Piece)) :
    s.pendingSteps (pieces.map (fun piece => (layers, piece)) ++ pending) =
      (pieces.map (s.steps layers)).sum + s.pendingSteps pending := by
  induction pieces with
  | nil => simp
  | cons piece pieces ih =>
    simp only [List.map_cons, List.cons_append, pendingSteps, ih, List.sum_cons]
    omega

/-- The text so far followed by that of the pending pieces, each with the layers it may have. -/
def expand (s : Store) (style : Style) (done : String) : List (Nat × Piece) → String
  | [] => done
  | (_, .text t) :: pending => s.expand style (done ++ t) pending
  | (0, .value v) :: pending => s.expand style (done ++ plainText style v) pending
  | (layers + 1, .value v) :: pending =>
    s.expand style (done ++ plainText style v)
      ((s.layer v).map (fun piece => (layers, piece)) ++ pending)
termination_by pending => s.pendingSteps pending
decreasing_by
  · exact Nat.lt_add_of_pos_left (s.steps_pos _ _)
  · exact Nat.lt_add_of_pos_left (s.steps_pos _ _)
  · rw [pendingSteps_layer, pendingSteps, steps]
    omega

/-- The text of a value in a style. A value that contains itself has no text, and expanding it would
never end; here it is cut off at as many layers as the store has cells. -/
def external (s : Store) (style : Style) (v : Value) : String :=
  s.expand style "" [(s.cells.size, .value v)]

def written (s : Store) (v : Value) : String := s.external .write v

def displayed (s : Store) (v : Value) : String := s.external .display v

end Store

end SmallScheme
