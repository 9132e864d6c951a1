import SmallScheme.Expression.Parser
import SmallScheme.Proofs.Store.Tree

/-! # The grammar of expressions

Which expression a value is. The context of a form decides whether a definition may stand there: it
is handed on to the members of a sequence, and parts of any other form are plain expressions. The
body of a procedure admits definitions up to its first member that is none.
-/

namespace SmallScheme

def Value.ofSymbol (name : Symbol) : Value := .atom (.symbol name)

/-- The symbol in front of a special form. -/
def Form.head (form : Form) : Value := .ofSymbol ⟨form.keyword⟩

/-- The cars along some pairs, and the cdr of the last one. -/
inductive Chain (s : Store) : Value → List Value → Value → Prop

  | nil {v : Value} : Chain s v [] v

  | cons {ref : CellRef} {items : List Value} {tail : Value} : Chain s (s.cdr ref) items tail →
      Chain s (.pair ref) (s.car ref :: items) tail

/-- The formals that a symbol or a chain of symbols stands for. -/
inductive Declares (s : Store) (v : Value) : Formals → Prop

  | fixed {names : List Symbol} : Chain s v (names.map .ofSymbol) .null →
      Declares s v ⟨names, none⟩

  | variadic {names : List Symbol} {rest : Symbol} :
      Chain s v (names.map .ofSymbol) (.ofSymbol rest) → Declares s v ⟨names, some rest⟩

inductive Expression.DefinesOnly : Expression → Prop

  | define {name : Symbol} {source : Expression} : DefinesOnly (.define name source)

  | sequence {members : List Expression} : (∀ e ∈ members, DefinesOnly e) →
      DefinesOnly (.sequence members)

mutual

/-- The value is that expression in such a context. -/
inductive Expresses (s : Store) : Context → Value → Expression → Prop

  | reference {context : Context} {name : Symbol} :
      Expresses s context (.ofSymbol name) (.reference name)

  | literal {context : Context} {v : Value} : (∀ name, v ≠ .ofSymbol name) →
      (∀ ref, v ≠ .pair ref) → Expresses s context v (.literal v)

  | quotation {context : Context} {v quoted : Value} :
      Chain s v [Form.quotation.head, quoted] .null → Expresses s context v (.literal quoted)

  | ifOnly {context : Context} {v test consequent : Value} {e e₁ : Expression} :
      Chain s v [Form.conditional.head, test, consequent] .null →
      Expresses s .expression test e → Expresses s .expression consequent e₁ →
      Expresses s context v (.ifOnly e e₁)

  | ifElse {context : Context} {v test consequent alternate : Value} {e e₁ e₂ : Expression} :
      Chain s v [Form.conditional.head, test, consequent, alternate] .null →
      Expresses s .expression test e → Expresses s .expression consequent e₁ →
      Expresses s .expression alternate e₂ → Expresses s context v (.ifElse e e₁ e₂)

  | assign {context : Context} {v source : Value} {name : Symbol} {e : Expression} :
      Chain s v [Form.assignment.head, .ofSymbol name, source] .null →
      Expresses s .expression source e → Expresses s context v (.assign name e)

  | lambda {context : Context} {v formals : Value} {body : List Value} {e : Expression} :
      Chain s v (Form.lambda.head :: formals :: body) .null → ExpressesLambda s formals body e →
      Expresses s context v e

  | sequence {context : Context} {v : Value} {members : List Value} {es : List Expression} :
      Chain s v (Form.sequence.head :: members) .null → members ≠ [] →
      ExpressesMembers s context members es → Expresses s context v (.sequence es)

  | define {context : Context} {v source : Value} {name : Symbol} {e : Expression} :
      context ≠ .expression → Chain s v [Form.definition.head, .ofSymbol name, source] .null →
      Expresses s .expression source e → Expresses s context v (.define name e)

  | defineProcedure {context : Context} {v target formals : Value} {body : List Value}
      {name : Symbol} {e : Expression} :
      context ≠ .expression → Chain s v (Form.definition.head :: target :: body) .null →
      Chain s target [.ofSymbol name] formals → ExpressesLambda s formals body e →
      Expresses s context v (.define name e)

  | call {context : Context} {v operator : Value} {operands : List Value} {e : Expression}
      {es : List Expression} :
      Chain s v (operator :: operands) .null →
      (∀ form, form ≠ Form.call → operator ≠ form.head) →
      Expresses s .expression operator e → ExpressesMembers s .expression operands es →
      Expresses s context v (.call e es)

/-- The members of a sequence. The start of a body ends with the first that is no definition. -/
inductive ExpressesMembers (s : Store) : Context → List Value → List Expression → Prop

  | nil {context : Context} : ExpressesMembers s context [] []

  | cons {context : Context} {v : Value} {vs : List Value} {e : Expression}
      {es : List Expression} : (context = .startOfBody → e.DefinesOnly) →
      Expresses s context v e → ExpressesMembers s context vs es →
      ExpressesMembers s context (v :: vs) (e :: es)

  | turn {v : Value} {vs : List Value} {e : Expression} {es : List Expression} :
      ¬ e.DefinesOnly → Expresses s .startOfBody v e →
      ExpressesMembers s .expression vs es →
      ExpressesMembers s .startOfBody (v :: vs) (e :: es)

inductive ExpressesLambda (s : Store) : Value → List Value → Expression → Prop

  | single {v body : Value} {formals : Formals} {e : Expression} : Declares s v formals →
      Expresses s .startOfBody body e → ExpressesLambda s v [body] (.lambda formals e)

  | several {v first second : Value} {rest : List Value} {formals : Formals}
      {es : List Expression} : Declares s v formals →
      ExpressesMembers s .startOfBody (first :: second :: rest) es →
      ExpressesLambda s v (first :: second :: rest) (.lambda formals (.sequence es))

end

namespace Expression

mutual

theorem isDefinition_iff : ∀ {e : Expression}, e.isDefinition ↔ e.DefinesOnly
  | define .. => ⟨fun _ => .define, fun _ => rfl⟩
  | sequence _ => by
    rw [isDefinition, areDefinitions_iff]
    exact ⟨.sequence, fun | .sequence h => h⟩
  | literal _ | reference _ | assign .. | ifElse .. | ifOnly .. | lambda .. | call .. =>
    ⟨nofun, nofun⟩

theorem areDefinitions_iff : ∀ {es : List Expression},
    areDefinitions es ↔ ∀ e ∈ es, e.DefinesOnly
  | [] => ⟨fun _ => List.forall_mem_nil _, fun _ => rfl⟩
  | e :: es => by
    rw [areDefinitions, Bool.and_eq_true, isDefinition_iff, areDefinitions_iff,
      List.forall_mem_cons]

end

end Expression

namespace Context

variable {context : Context} {e : Expression}

theorem behind_eq (h : context = .startOfBody → e.DefinesOnly) : context.behind e = context := by
  cases context with
  | startOfBody => rw [behind, if_pos (Expression.isDefinition_iff.mpr (h rfl))]
  | _ => rfl

theorem behind_startOfBody (h : ¬ e.DefinesOnly) : startOfBody.behind e = .expression := by
  rw [behind, if_neg (Expression.isDefinition_iff.not.mpr h)]

end Context

theorem ExpressesLambda.body_ne_nil {s : Store} {v : Value} {body : List Value} {e : Expression}
    (h : ExpressesLambda s v body e) : body ≠ [] := by
  cases h <;> nofun

namespace Chain

variable {s : Store} {v tail : Value} {items : List Value}

theorem of_walkFrom {limit : Nat} {seen : List Value}
    (h : s.walkFrom limit v seen = (items, tail)) :
    ∃ rest, items = seen.reverse ++ rest ∧ Chain s v rest tail := by
  induction limit generalizing v seen with
  | zero =>
    rw [Store.walkFrom] at h
    · cases h
      exact ⟨[], by simp, .nil⟩
    · nofun
  | succ limit ih =>
    by_cases hv : ∃ ref, v = .pair ref
    · obtain ⟨ref, rfl⟩ := hv
      rw [Store.walkFrom] at h
      obtain ⟨rest, rfl, hrest⟩ := ih h
      exact ⟨s.car ref :: rest, by simp, .cons hrest⟩
    · rw [Store.walkFrom] at h
      · cases h
        exact ⟨[], by simp, .nil⟩
      · rintro n ref - rfl
        exact hv ⟨ref, rfl⟩

theorem of_walk (h : s.walk v = (items, tail)) : Chain s v items tail := by
  obtain ⟨rest, rfl, hrest⟩ := of_walkFrom h
  exact hrest

theorem walkFrom (h : Chain s v items tail) (htail : ∀ ref, tail ≠ .pair ref) {limit : Nat}
    (hlimit : items.length ≤ limit) (seen : List Value) :
    s.walkFrom limit v seen = (seen.reverse ++ items, tail) := by
  induction h generalizing limit seen with
  | nil =>
    rw [Store.walkFrom, List.append_nil]
    exact fun _ ref _ => htail ref
  | cons _ ih =>
    obtain ⟨limit, rfl⟩ := Nat.exists_eq_add_of_le' (Nat.lt_of_lt_of_le (Nat.succ_pos _) hlimit)
    rw [Store.walkFrom, ih htail (Nat.le_of_succ_le_succ hlimit), List.reverse_cons,
      List.append_assoc, List.singleton_append]

theorem walk (h : Chain s v items tail) (htail : ∀ ref, tail ≠ .pair ref)
    (hlength : items.length ≤ s.cells.size) : s.walk v = (items, tail) :=
  h.walkFrom htail hlength []

theorem eq_tail (h : Chain s v [] tail) : v = tail := by
  cases h
  rfl

theorem of_cons {head : Value} (h : Chain s v (head :: items) tail) :
    ∃ ref, v = .pair ref ∧ s.car ref = head ∧ Chain s (s.cdr ref) items tail := by
  cases h with
  | cons h => exact ⟨_, rfl, rfl, h⟩

theorem unique {items' : List Value} (h : Chain s v items .null) (h' : Chain s v items' .null) :
    items = items' := by
  have hw := h.walkFrom nofun (Nat.le_max_left items.length items'.length) []
  rw [h'.walkFrom nofun (Nat.le_max_right items.length items'.length) []] at hw
  exact (Prod.mk.inj hw).1.symm

theorem form_unique {items' : List Value} {form form' : Form}
    (h : Chain s v (form.head :: items) .null) (h' : Chain s v (form'.head :: items') .null) :
    form = form' ∧ items = items' := by
  obtain ⟨hhead, htail⟩ := List.cons_eq_cons.mp (h.unique h')
  refine ⟨?_, htail⟩
  cases form <;> cases form' <;> first | rfl | exact absurd hhead (by decide)

end Chain

namespace Expresses

variable {s : Store} {context : Context} {v : Value} {e : Expression} {items : List Value}

theorem of_definition (h : Expresses s context v e)
    (hc : Chain s v (Form.definition.head :: items) .null) : context ≠ .expression ∧
      ((∃ name source e', items = [.ofSymbol name, source] ∧ Expresses s .expression source e' ∧
        e = .define name e') ∨
      ∃ target body name formals e', items = target :: body ∧
        Chain s target [.ofSymbol name] formals ∧ ExpressesLambda s formals body e' ∧
        e = .define name e') := by
  cases h with
  | reference => cases hc
  | literal _ hpair =>
    obtain ⟨ref, rfl, -⟩ := hc.of_cons
    exact (hpair ref rfl).elim
  | define hcontext hc' he =>
    obtain ⟨-, rfl⟩ := hc.form_unique hc'
    exact ⟨hcontext, .inl ⟨_, _, _, rfl, he, rfl⟩⟩
  | defineProcedure hcontext hc' htarget he =>
    obtain ⟨-, rfl⟩ := hc.form_unique hc'
    exact ⟨hcontext, .inr ⟨_, _, _, _, _, rfl, htarget, he, rfl⟩⟩
  | call hc' hhead =>
    exact (hhead .definition nofun (List.cons_eq_cons.mp (hc'.unique hc)).1).elim
  | quotation hc' | ifOnly hc' | ifElse hc' | assign hc' | lambda hc' | sequence hc' =>
    cases (hc.form_unique hc').1

theorem of_lambda {formals : Value} {body : List Value} (h : Expresses s context v e)
    (hc : Chain s v (Form.lambda.head :: formals :: body) .null) :
    ExpressesLambda s formals body e := by
  cases h with
  | reference => cases hc
  | literal _ hpair =>
    obtain ⟨ref, rfl, -⟩ := hc.of_cons
    exact (hpair ref rfl).elim
  | lambda hc' he =>
    obtain ⟨-, h⟩ := hc.form_unique hc'
    cases h
    exact he
  | call hc' hhead =>
    exact (hhead .lambda nofun (List.cons_eq_cons.mp (hc'.unique hc)).1).elim
  | quotation hc' | ifOnly hc' | ifElse hc' | assign hc' | define _ hc' | defineProcedure _ hc'
  | sequence hc' => cases (hc.form_unique hc').1

/-- To define a procedure is to define its name by a lambda expression. -/
theorem define_lambda_iff {w target lambda formals : Value} {body : List Value} {name : Symbol}
    (hv : Chain s v (Form.definition.head :: target :: body) .null)
    (htarget : Chain s target [.ofSymbol name] formals)
    (hw : Chain s w [Form.definition.head, .ofSymbol name, lambda] .null)
    (hlambda : Chain s lambda (Form.lambda.head :: formals :: body) .null) :
    Expresses s context v e ↔ Expresses s context w e := by
  obtain ⟨ref, rfl, hname, hformals⟩ := htarget.of_cons
  obtain rfl := hformals.eq_tail
  constructor
  · intro h
    obtain ⟨hcontext, ⟨name', source, e', hitems, -⟩ |
      ⟨target', body', name', formals', e', hitems, htarget', he, rfl⟩⟩ := h.of_definition hv
    · cases hitems
    · cases hitems
      obtain ⟨ref', href, hname', hformals'⟩ := htarget'.of_cons
      cases href
      obtain rfl := hformals'.eq_tail
      cases hname.symm.trans hname'
      exact .define hcontext hw (.lambda hlambda he)
  · intro h
    obtain ⟨hcontext, ⟨name', source, e', hitems, he, rfl⟩ |
      ⟨target', body', name', formals', e', hitems, htarget', -⟩⟩ := h.of_definition hw
    · cases hitems
      exact .defineProcedure hcontext hv htarget (he.of_lambda hlambda)
    · cases hitems
      cases htarget'

end Expresses

end SmallScheme
