import SmallScheme.Machine

/-! # Where overflows do not come from

Whatever the machine asks of the store, of a primitive or of a closure, the answer is never that the
stack is too deep.
-/

namespace SmallScheme

def NoOverflow {α : Type} (r : Except EvalError α) : Prop :=
  ∀ depth limit, r ≠ .error (.stackOverflow depth limit)

namespace NoOverflow

variable {α β : Type}

theorem ok (a : α) : NoOverflow (.ok a) := nofun

theorem of_error {err : EvalError} (h : NoOverflow (.error err : Except EvalError α)) :
    NoOverflow (.error err : Except EvalError β) := by
  intro depth limit he
  cases he
  exact h depth limit rfl

theorem map {r : Except EvalError α} (h : NoOverflow r) (f : α → β) : NoOverflow (r.map f) := by
  cases r with
  | ok a => exact ok (f a)
  | error err => exact h.of_error

theorem bind {r : Except EvalError α} {f : α → Except EvalError β} (h : NoOverflow r)
    (hf : ∀ a, NoOverflow (f a)) : NoOverflow (r >>= f) := by
  cases r with
  | ok a => exact hf a
  | error err => exact h.of_error

theorem mapM {f : α → Except EvalError β} (hf : ∀ a, NoOverflow (f a)) (as : List α) :
    NoOverflow (as.mapM f) := by
  induction as with
  | nil => exact ok []
  | cons a as ih =>
    rw [List.mapM_cons]
    exact (hf a).bind fun b => ih.bind fun bs => ok (b :: bs)

theorem asNumber (v : Value) : NoOverflow v.asNumber := by
  unfold Value.asNumber
  split <;> nofun

theorem asPair (v : Value) : NoOverflow v.asPair := by
  unfold Value.asPair
  split <;> nofun

theorem one (vs : List Value) : NoOverflow (SmallScheme.one vs) := by
  unfold SmallScheme.one
  split
  · exact ok _
  · intro depth limit he
    cases he

theorem two (vs : List Value) : NoOverflow (SmallScheme.two vs) := by
  unfold SmallScheme.two
  split <;> nofun

theorem reduce (unit : Float) (combine : Float → Float → Float) (xs : List Float) :
    NoOverflow (SmallScheme.reduce unit combine xs) := by
  unfold SmallScheme.reduce
  split <;> nofun

theorem numbers (vs : List Value) : NoOverflow (SmallScheme.numbers vs) := mapM asNumber vs

theorem equalNumbers (vs : List Value) : NoOverflow (SmallScheme.equalNumbers vs) :=
  (two vs).bind fun p => (asNumber p.1).bind fun _ => (asNumber p.2).bind fun _ => ok _

theorem exitRequest (vs : List Value) :
    NoOverflow (.error (SmallScheme.exitRequest vs) : Except EvalError Value) := by
  unfold SmallScheme.exitRequest
  split
  · nofun
  · rename_i v _
    have hv := asNumber v
    split
    · rename_i he
      rw [he] at hv
      exact hv.of_error
    · split <;> nofun

theorem check (arity : Arity) (given : Nat) : NoOverflow (arity.check given) := by
  unfold Arity.check
  repeat' split
  all_goals nofun

theorem accept (formals : Formals) (given : Nat) : NoOverflow (formals.accept given) := by
  unfold Formals.accept
  dsimp only
  repeat' split
  all_goals nofun

theorem display (w : World) (vs : List Value) : NoOverflow (w.display vs).1 := by
  unfold World.display
  have h := one vs
  split
  · rename_i he
    rw [he] at h
    exact h.of_error
  · dsimp only
    split
    · exact ok _
    · nofun

theorem cons (w : World) (vs : List Value) : NoOverflow (w.cons vs).1 := by
  unfold World.cons
  have h := two vs
  split
  · rename_i he
    rw [he] at h
    exact h.of_error
  · exact ok _

theorem host (w : World) (operation : HostOperation) (vs : List Value) :
    NoOverflow (w.host operation vs).1 := by
  unfold World.host
  have h := operation.no_overflow w.store.cells vs
  split
  · rename_i he
    intro depth limit hr
    cases hr
    exact h depth limit he
  · exact ok _

theorem apply (operation : Operation) (vs : List Value) (w : World) :
    NoOverflow (operation.apply vs w).1 := by
  cases operation with
  | add | multiply => exact (numbers vs).bind fun _ => ok _
  | subtract | divide =>
    exact ((numbers vs).bind fun _ => reduce _ _ _).bind fun _ => ok _
  | numericEqual => exact equalNumbers vs
  | cons => exact cons w vs
  | car | cdr => exact ((one vs).bind asPair).bind fun _ => ok _
  | display => exact display w vs
  | exit => exact exitRequest vs
  | host operation => exact host w operation vs

theorem call (primitive : Primitive) (vs : List Value) (w : World) :
    NoOverflow (primitive.call vs w).1 := by
  unfold Primitive.call
  have h := check primitive.arity vs.length
  split
  · rename_i he
    rw [he] at h
    exact h.of_error
  · exact apply primitive.operation vs w

theorem lookup (s : Store) (ρ : ScopeRef) (x : Symbol) : NoOverflow (s.lookup ρ x) := by
  unfold Store.lookup
  split
  · exact ok _
  · intro depth limit he
    cases he

theorem assign (s : Store) (ρ : ScopeRef) (x : Symbol) (v : Value) :
    NoOverflow (s.assign ρ x v).1 := by
  unfold Store.assign
  split <;> nofun

theorem newCallScope (closure : Closure) (vs : List Value) (s : Store) :
    NoOverflow (closure.newCallScope vs s).1 := by
  unfold Closure.newCallScope
  have h := accept closure.formals vs.length
  split
  · rename_i he
    rw [he] at h
    exact h.of_error
  · dsimp only
    split <;> exact ok _

end NoOverflow

end SmallScheme
