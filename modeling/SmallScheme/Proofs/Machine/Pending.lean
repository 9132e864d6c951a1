import SmallScheme.Proofs.Machine.Session

/-! # Pending definitions

The definitions that a state is still to carry out in a scope can be read off its control and its
continuations. A step either leaves the names of a scope and its pending definitions alone, or it
carries out the first of them. In a scope of a call, once something else than a definition is
evaluated there, no definition is pending but one that waits for its source.
-/

namespace SmallScheme

open Expression Continuation

namespace Continuation

def targets (ρ : ScopeRef) : Continuation → List Symbol
  | define name ρ' => if ρ' = ρ then [name] else []
  | sequence members ρ' => if ρ' = ρ then allTargets members else []
  | _ => []

/-- The continuation carries out definitions in the scope and nothing else. -/
def OnlyDefines (ρ : ScopeRef) : Continuation → Prop
  | define _ ρ' => ρ' = ρ
  | sequence members ρ' => ρ' = ρ ∧ areDefinitions members
  | _ => False

end Continuation

def Control.targets (ρ : ScopeRef) : Control → List Symbol
  | evaluate e ρ' => if ρ' = ρ then e.targets else []
  | deliver _ => []

/-- The names still to be defined in the scope, in order. -/
def State.pending (ρ : ScopeRef) (s : State) : List Symbol :=
  s.control.targets ρ ++ s.stack.frames.flatMap (·.targets ρ)

variable {root ρ ρ' : ScopeRef} {e next : Expression} {frame frame' : Continuation} {v : Value}
  {p : Procedure} {vs : List Value} {frames : List Continuation} {s t : State}

/-! What becomes of the definitions of a continuation when it gets its value. -/

namespace Continuation

theorem Opens.targets_eq (h : Opens ρ' e next frame) :
    frame.targets ρ = if ρ' = ρ then e.targets else [] := by
  cases h with
  | define => rfl
  | _ => simp only [targets, Expression.targets, ite_self]

theorem Continues.targets_eq (h : Continues ρ' v frame next frame') (hf : frame.Legal root) :
    frame.targets ρ = (if ρ' = ρ then next.targets else []) ++ frame'.targets ρ := by
  cases h with
  | operator => simp only [targets, hf.1.targets_eq_nil, ite_self, List.append_nil]
  | operand => simp only [targets, hf.1.targets_eq_nil, ite_self, List.append_nil]
  | sequence =>
    simp only [targets, allTargets_cons]
    split <;> rfl

theorem ComesTo.targets_eq (h : ComesTo ρ' v frame e) (hf : frame.Legal root) :
    frame.targets ρ = if ρ' = ρ then e.targets else [] := by
  cases h with
  | consequent => simp only [targets, hf.1.targets_eq_nil, ite_self]
  | alternate => simp only [targets, hf.2.targets_eq_nil, ite_self]
  | only => simp only [targets, Expression.Legal.targets_eq_nil hf, ite_self]
  | last => simp only [targets, allTargets_cons, allTargets_nil, List.append_nil]

theorem Answers.targets_eq {v' : Value} (h : Answers v frame v') : frame.targets ρ = [] := by
  cases h with
  | nothing => rfl
  | empty => simp only [targets, allTargets_nil, ite_self]

theorem Calls.targets_eq (h : Calls v frame p vs) : frame.targets ρ = [] := by
  cases h <;> rfl

end Continuation

namespace State

variable {w : World} {stack : Stack}

@[simp] theorem pending_evaluate : pending ρ ⟨w, .evaluate e ρ', stack⟩ =
    (if ρ' = ρ then e.targets else []) ++ stack.frames.flatMap (·.targets ρ) := rfl

@[simp] theorem pending_deliver :
    pending ρ ⟨w, .deliver v, stack⟩ = stack.frames.flatMap (·.targets ρ) := rfl

/-- A step carries out the first pending definition of a scope, or leaves the scope its names. -/
theorem Lawful.pending_transition (h : s.Lawful root)
    (hρ : ρ.index < s.world.store.scopes.size) (ht : Transition s t) :
    t.pending ρ = s.pending ρ ∧ t.world.store.names ρ = s.world.store.names ρ ∨
      ∃ name, s.pending ρ = name :: t.pending ρ ∧
        t.world.store.names ρ = addName (s.world.store.names ρ) name := by
  obtain ⟨hs, hc, hf⟩ := h
  cases ht with
  | literal => exact .inl ⟨by simp [Expression.targets], rfl⟩
  | reference => exact .inl ⟨by simp [Expression.targets], rfl⟩
  | lambda => exact .inl ⟨by simp [Expression.targets], rfl⟩
  | opens ho =>
    have hfirst := (ho.legal (hc _ _ rfl).1 root).1.targets_eq_nil
    exact .inl ⟨by simp [hfirst, ho.targets_eq], rfl⟩
  | sequence => exact .inl ⟨by simp [Continuation.targets, Expression.targets], rfl⟩
  | @define w v name ρ' stack =>
    by_cases hr : ρ' = ρ
    · subst hr
      exact .inr ⟨name, by simp [Continuation.targets], Store.names_define_self hρ name v⟩
    · exact .inl ⟨by simp [Continuation.targets, hr], Store.names_define_of_ne hρ hr name v⟩
  | @assign w v name ρ' scope stack hscope =>
    have hnames := Store.names_define_of_mem (Store.mem_names_of_resolve hscope) hρ v
    exact .inl ⟨by simp [Continuation.targets], hnames⟩
  | continues hk =>
    have hframe := (hf _ (.head _)).1
    exact .inl ⟨by simp [hk.targets_eq hframe], rfl⟩
  | comesTo hk =>
    have hframe := (hf _ (.head _)).1
    exact .inl ⟨by simp [hk.targets_eq hframe], rfl⟩
  | answers hk => exact .inl ⟨by simp [hk.targets_eq], rfl⟩
  | @primitive w w' v r vs stack frame ref hk hcall =>
    have hcells := (w.store.primitiveAt ref).sameButCells vs w
    rw [hcall] at hcells
    refine .inl ⟨by simp [hk.targets_eq], ?_⟩
    rw [Store.names, Store.scopeAt, hcells.scopes]
    rfl
  | @closure w v vs stack frame ref ρ' s' hk hcall =>
    have henters := Closure.enters hcall
    have hne : ρ' ≠ ρ := by
      rintro rfl
      exact Nat.lt_irrefl _ (henters.index ▸ hρ)
    exact .inl ⟨by simp [hk.targets_eq, hne], henters.others ρ hρ⟩

end State

/-! The order of definitions. -/

/-- No definition in the scope is pending, unless one that waits for its source comes first. -/
def Quiet (ρ : ScopeRef) : List Continuation → Prop
  | [] => True
  | frame :: frames => (∃ name, frame = .define name ρ) ∨ frame.targets ρ = [] ∧ Quiet ρ frames

/-- Behind every continuation that does not only carry out definitions in the scope, all is quiet
there. -/
def Ordered (ρ : ScopeRef) : List Continuation → Prop
  | [] => True
  | frame :: frames => (frame.OnlyDefines ρ ∨ Quiet ρ frames) ∧ Ordered ρ frames

/-- Definitions in the scope come before anything else there. -/
structure State.Orderly (ρ : ScopeRef) (s : State) : Prop where
  frames : Ordered ρ s.stack.frames
  control : ∀ e ρ', s.control = .evaluate e ρ' →
    ρ' = ρ ∧ e.isDefinition ∨ Quiet ρ s.stack.frames

namespace Continuation

theorem Opens.quiet (h : Opens ρ' e next frame)
    (he : ρ' = ρ ∧ e.isDefinition ∨ Quiet ρ frames) :
    (frame.OnlyDefines ρ ∨ Quiet ρ frames) ∧ Quiet ρ (frame :: frames) := by
  cases h with
  | define =>
    by_cases hr : ρ' = ρ
    · subst hr
      exact ⟨.inl rfl, .inl ⟨_, rfl⟩⟩
    · have hquiet := he.resolve_left fun h => hr h.1
      exact ⟨.inr hquiet, .inr ⟨if_neg hr, hquiet⟩⟩
  | _ =>
    have hquiet := he.resolve_left fun h => Bool.false_ne_true h.2
    exact ⟨.inr hquiet, .inr ⟨rfl, hquiet⟩⟩

theorem Continues.quiet (h : Continues ρ' v frame next frame') (hroot : ρ ≠ root)
    (hf : frame.Legal root) (hframe : frame.OnlyDefines ρ ∨ Quiet ρ frames) :
    (frame'.OnlyDefines ρ ∨ Quiet ρ frames) ∧
      (ρ' = ρ ∧ next.isDefinition ∨ Quiet ρ (frame' :: frames)) := by
  cases h with
  | operator =>
    have hquiet := hframe.resolve_left id
    exact ⟨.inr hquiet, .inr (.inr ⟨rfl, hquiet⟩)⟩
  | operand =>
    have hquiet := hframe.resolve_left id
    exact ⟨.inr hquiet, .inr (.inr ⟨rfl, hquiet⟩)⟩
  | sequence =>
    by_cases hr : ρ' = ρ
    · subst hr
      by_cases hd : next.isDefinition
      · refine ⟨hframe.imp_left fun h => ⟨rfl, ?_⟩, .inl ⟨rfl, hd⟩⟩
        exact (Bool.and_eq_true _ _ ▸ h.2).2
      · have hquiet := hframe.resolve_left fun h => hd (Bool.and_eq_true _ _ ▸ h.2).1
        -- The rest of the body is parsed as plain expressions.
        have hrest := AllLegal.allTargets_behind
          (by rwa [Continuation.Legal, Context.home, if_neg hroot] at hf)
          (Bool.not_eq_true _ ▸ hd)
        exact ⟨.inr hquiet, .inr (.inr ⟨(if_pos rfl).trans hrest, hquiet⟩)⟩
    · have hquiet := hframe.resolve_left fun h => hr h.1
      exact ⟨.inr hquiet, .inr (.inr ⟨if_neg hr, hquiet⟩)⟩

theorem ComesTo.quiet (h : ComesTo ρ' v frame e)
    (hframe : frame.OnlyDefines ρ ∨ Quiet ρ frames) :
    ρ' = ρ ∧ e.isDefinition ∨ Quiet ρ frames := by
  cases h with
  | last => exact hframe.imp_left fun h => ⟨h.1, (Bool.and_eq_true _ _ ▸ h.2).1⟩
  | _ => exact .inr (hframe.resolve_left id)

theorem Calls.quiet (h : Calls v frame p vs) (hframe : frame.OnlyDefines ρ ∨ Quiet ρ frames) :
    Quiet ρ frames := by
  cases h <;> exact hframe.resolve_left id

end Continuation

namespace State

theorem Orderly.initial (w : World) (e : Expression) (ρ ρ' : ScopeRef) :
    (State.initial w e ρ').Orderly ρ :=
  ⟨trivial, fun _ _ _ => .inr trivial⟩

theorem Orderly.transition (h : s.Orderly ρ) (hroot : ρ ≠ root) (hs : s.Lawful root)
    (ht : Transition s t) : t.Orderly ρ := by
  obtain ⟨hframes, hc⟩ := h
  cases ht with
  | literal => exact ⟨hframes, nofun⟩
  | reference => exact ⟨hframes, nofun⟩
  | lambda => exact ⟨hframes, nofun⟩
  | opens ho =>
    obtain ⟨hframe, hquiet⟩ := ho.quiet (hc _ _ rfl)
    exact ⟨⟨hframe, hframes⟩, fun _ _ _ => .inr hquiet⟩
  | sequence => exact ⟨⟨hc _ _ rfl, hframes⟩, nofun⟩
  | define => exact ⟨hframes.2, nofun⟩
  | assign => exact ⟨hframes.2, nofun⟩
  | continues hk =>
    obtain ⟨hframe, hnext⟩ := hk.quiet hroot (hs.frames _ (.head _)).1 hframes.1
    refine ⟨⟨hframe, hframes.2⟩, ?_⟩
    rintro _ _ ⟨⟩
    exact hnext
  | comesTo hk =>
    refine ⟨hframes.2, ?_⟩
    rintro _ _ ⟨⟩
    exact hk.quiet hframes.1
  | answers => exact ⟨hframes.2, nofun⟩
  | primitive => exact ⟨hframes.2, nofun⟩
  | closure hk => exact ⟨hframes.2, fun _ _ _ => .inr (hk.quiet hframes.1)⟩

end State

theorem Quiet.targets_eq_nil (h : Quiet ρ frames) (hd : ∀ name, .define name ρ ∉ frames) :
    frames.flatMap (·.targets ρ) = [] := by
  induction frames with
  | nil => rfl
  | cons frame frames ih =>
    rcases h with ⟨name, rfl⟩ | ⟨hframe, h⟩
    · exact (hd name (.head _)).elim
    · rw [List.flatMap_cons, hframe, ih h fun name hmem => hd name (.tail _ hmem)]
      rfl

end SmallScheme
