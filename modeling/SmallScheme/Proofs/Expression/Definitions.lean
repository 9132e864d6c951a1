import SmallScheme.Proofs.Expression.Parsing

/-! # Where definitions stand

An expression that the parser accepts has its definitions where the contexts of its parts admit
them. In the body of a procedure all definitions come first, however they are grouped in sequences.
-/

namespace SmallScheme

namespace Expression

mutual

/-- In such a context the expression has definitions only where they are admitted. -/
def Legal : Expression → Context → Prop
  | literal _, _ | reference _, _ => True
  | define _ source, context => context ≠ .expression ∧ source.Legal .expression
  | assign _ source, _ => source.Legal .expression
  | ifElse test consequent alternate, _ =>
    test.Legal .expression ∧ consequent.Legal .expression ∧ alternate.Legal .expression
  | ifOnly test consequent, _ => test.Legal .expression ∧ consequent.Legal .expression
  | lambda _ body, _ => body.Legal .startOfBody
  | call operator operands, _ => operator.Legal .expression ∧ AllLegal operands .expression
  | sequence members, context => AllLegal members context

def AllLegal : List Expression → Context → Prop
  | [], _ => True
  | e :: rest, context => e.Legal context ∧ AllLegal rest (context.behind e)

end

mutual

/-- The names that the expression defines in its environment, in order. -/
def targets : Expression → List Symbol
  | define name _ => [name]
  | sequence members => allTargets members
  | _ => []

def allTargets : List Expression → List Symbol
  | [] => []
  | e :: rest => e.targets ++ allTargets rest

end

@[simp] theorem allTargets_nil : allTargets [] = [] := rfl

@[simp] theorem allTargets_cons (e : Expression) (es : List Expression) :
    allTargets (e :: es) = e.targets ++ allTargets es := rfl

theorem allTargets_append (es es' : List Expression) :
    allTargets (es ++ es') = allTargets es ++ allTargets es' := by
  induction es with
  | nil => rfl
  | cons e es ih => rw [List.cons_append, allTargets_cons, allTargets_cons, ih, List.append_assoc]

mutual

/-- A plain expression defines nothing. -/
theorem Legal.targets_eq_nil : ∀ {e : Expression}, e.Legal .expression → e.targets = []
  | define .., h => (h.1 rfl).elim
  | sequence _, h => AllLegal.allTargets_eq_nil h
  | literal _, _ | reference _, _ | assign .., _ | ifElse .., _ | ifOnly .., _ | lambda .., _
  | call .., _ => rfl

theorem AllLegal.allTargets_eq_nil : ∀ {es : List Expression}, AllLegal es .expression →
    allTargets es = []
  | [], _ => rfl
  | _ :: _, h => by
    rw [allTargets_cons, h.1.targets_eq_nil, AllLegal.allTargets_eq_nil h.2, List.append_nil]

end

end Expression

/-- A context admits whatever a stricter one admits. -/
def Context.Admits (context strict : Context) : Prop :=
  strict = .expression ∨ context = strict ∨ context = .topLevel

namespace Context.Admits

variable {context strict : Context}

theorem refl (context : Context) : context.Admits context := .inr (.inl rfl)

theorem behind (h : context.Admits strict) (e : Expression) :
    (context.behind e).Admits (strict.behind e) := by
  rcases h with rfl | rfl | rfl
  · exact .inl rfl
  · exact .refl _
  · exact .inr (.inr rfl)

theorem expression_of (h : Context.expression.Admits strict) : strict = .expression := by
  rcases h with h | h | h
  · exact h
  · exact h.symm
  · cases h

theorem of_behind (context : Context) (e : Expression) : context.Admits (context.behind e) := by
  unfold Context.behind
  split
  · split
    · exact .refl _
    · exact .inl rfl
  · exact .refl _

end Context.Admits

namespace Expression

mutual

theorem Legal.mono : ∀ {e : Expression} {context strict : Context}, e.Legal strict →
    context.Admits strict → e.Legal context
  | define .., _, _, h, hc => ⟨fun he => h.1 (Context.Admits.expression_of (he ▸ hc)), h.2⟩
  | sequence _, _, _, h, hc => AllLegal.mono h hc
  | literal _, _, _, h, _ | reference _, _, _, h, _ | assign .., _, _, h, _ | ifElse .., _, _, h, _
  | ifOnly .., _, _, h, _ | lambda .., _, _, h, _ | call .., _, _, h, _ => h

theorem AllLegal.mono : ∀ {es : List Expression} {context strict : Context}, AllLegal es strict →
    context.Admits strict → AllLegal es context
  | [], _, _, _, _ => trivial
  | e :: _, _, _, h, hc => ⟨h.1.mono hc, AllLegal.mono h.2 (hc.behind e)⟩

end

theorem AllLegal.tail {e : Expression} {es : List Expression} {context : Context}
    (h : AllLegal (e :: es) context) : AllLegal es context :=
  AllLegal.mono h.2 (.of_behind context e)

/-- Nothing is defined behind a member of a body that is no definition. -/
theorem AllLegal.allTargets_behind {e : Expression} {es : List Expression}
    (h : AllLegal (e :: es) .startOfBody) (he : e.isDefinition = false) : allTargets es = [] := by
  have hturn := Context.behind_startOfBody (isDefinition_iff.not.mp (Bool.eq_false_iff.mp he))
  exact AllLegal.allTargets_eq_nil (hturn ▸ h.2)

end Expression

open Expression

variable {s : Store}

mutual

theorem Expresses.legal : ∀ {context : Context} {v : Value} {e : Expression},
    Expresses s context v e → e.Legal context
  | _, _, _, .reference | _, _, _, .literal .. | _, _, _, .quotation _ => trivial
  | _, _, _, .ifOnly _ he he₁ => ⟨he.legal, he₁.legal⟩
  | _, _, _, .ifElse _ he he₁ he₂ => ⟨he.legal, he₁.legal, he₂.legal⟩
  | _, _, _, .assign _ he => he.legal
  | context, _, _, .lambda _ he => he.legal context
  | _, _, _, .sequence _ _ hes => hes.legal
  | _, _, _, .define hcontext _ he => ⟨hcontext, he.legal⟩
  | _, _, _, .defineProcedure hcontext _ _ he => ⟨hcontext, he.legal .expression⟩
  | _, _, _, .call _ _ he hes => ⟨he.legal, hes.legal⟩

theorem ExpressesMembers.legal : ∀ {context : Context} {vs : List Value} {es : List Expression},
    ExpressesMembers s context vs es → AllLegal es context
  | _, _, _, .nil => trivial
  | _, _, _, .cons hkeep he hes => ⟨he.legal, (Context.behind_eq hkeep).symm ▸ hes.legal⟩
  | _, _, _, .turn hd he hes => ⟨he.legal, (Context.behind_startOfBody hd).symm ▸ hes.legal⟩

theorem ExpressesLambda.legal : ∀ {v : Value} {body : List Value} {e : Expression},
    ExpressesLambda s v body e → ∀ context, e.Legal context
  | _, _, _, .single _ he, _ => he.legal
  | _, _, _, .several _ hes, _ => hes.legal

end

theorem Store.legal_of_parse {v : Value} {e : Expression} (h : s.parse v = .ok e) :
    e.Legal .topLevel :=
  (expresses_of_parseWithin h).legal

end SmallScheme
