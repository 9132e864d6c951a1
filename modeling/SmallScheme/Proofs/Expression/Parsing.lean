import SmallScheme.Proofs.Datum.Load
import SmallScheme.Proofs.Expression.Grammar

/-! # Parsing follows the grammar

What the parser makes of a value the grammar derives. Conversely, a value without cycles is parsed
as the expression that it is: its parts have smaller trees, and the store has enough cells for the
levels of nesting and for the lengths of chains to be no limit.
-/

namespace SmallScheme

theorem bind_eq_ok_iff {ε α β : Type} {x : Except ε α} {f : α → Except ε β} {b : β} :
    x >>= f = .ok b ↔ ∃ a, x = .ok a ∧ f a = .ok b := by
  cases x <;> simp [bind, Except.bind]

theorem map_eq_ok_iff {ε α β : Type} {x : Except ε α} {f : α → β} {b : β} :
    f <$> x = .ok b ↔ ∃ a, x = .ok a ∧ f a = b := by
  cases x <;> simp [Functor.map, Except.map]

theorem Form.ofKeyword?_eq_some_iff {name : Symbol} {form : Form} :
    ofKeyword? name = some form ↔ form ≠ .call ∧ Value.ofSymbol name = form.head := by
  constructor
  · intro h
    have hname : form.keyword = name.text := by simpa using List.find?_some h
    refine ⟨?_, by rw [head, hname]⟩
    rintro rfl
    exact absurd (List.mem_of_find?_eq_some h) (by decide)
  · rintro ⟨hform, hname⟩
    cases hname
    cases form with
    | call => exact (hform rfl).elim
    | _ => rfl

theorem Value.symbol_or_pair_or_other (v : Value) :
    (∃ name, v = .ofSymbol name) ∨ (∃ ref, v = .pair ref) ∨
      (∀ name, v ≠ .ofSymbol name) ∧ ∀ ref, v ≠ .pair ref := by
  cases v with
  | atom a =>
    cases a with
    | symbol name => exact .inl ⟨name, rfl⟩
    | _ => exact .inr (.inr ⟨nofun, nofun⟩)
  | pair ref => exact .inr (.inl ⟨ref, rfl⟩)
  | _ => exact .inr (.inr ⟨nofun, nofun⟩)

namespace Store

def formOf (s : Store) (ref : CellRef) : Form :=
  ((s.car ref).symbol?.bind Form.ofKeyword?).getD .call

variable {s : Store} {ref : CellRef} {form : Form} {v : Value} {vs : List Value} {e : Expression}
  {context : Context} {formals : Formals}

theorem formOf_eq_iff (hform : form ≠ .call) : s.formOf ref = form ↔ s.car ref = form.head := by
  constructor
  · intro h
    cases hk : (s.car ref).symbol?.bind Form.ofKeyword? with
    | none =>
      rw [formOf, hk] at h
      exact (hform h.symm).elim
    | some found =>
      rw [formOf, hk] at h
      obtain rfl : found = form := h
      obtain ⟨name, hname, hk⟩ := Option.bind_eq_some_iff.mp hk
      have hcar : s.car ref = .ofSymbol name := by
        unfold Value.symbol? at hname
        split at hname <;> cases hname
        assumption
      rw [hcar, (Form.ofKeyword?_eq_some_iff.mp hk).2]
  · intro h
    have hk := Form.ofKeyword?_eq_some_iff.mpr ⟨hform, (rfl : _ = form.head)⟩
    rw [formOf, h]
    simp only [Form.head, Value.ofSymbol, Value.symbol?, Option.bind_some, hk, Option.getD_some]

theorem formOf_eq_call_iff :
    s.formOf ref = .call ↔ ∀ form, form ≠ Form.call → s.car ref ≠ form.head := by
  constructor
  · intro h form hform hcar
    exact hform (h ▸ ((formOf_eq_iff hform).mpr hcar).symm)
  · intro h
    by_contra hcall
    exact h _ hcall ((formOf_eq_iff hcall).mp rfl)

theorem chain_of_operands (h : s.operands form ref = .ok vs) :
    Chain s (.pair ref) (s.car ref :: vs) .null := by
  unfold operands at h
  split at h
  · rename_i items hw
    cases h
    exact .cons (.of_walk hw)
  · cases h

theorem expectSymbol_eq_ok_iff {name : Symbol} :
    s.expectSymbol v = .ok name ↔ v = .ofSymbol name := by
  constructor
  · intro h
    unfold expectSymbol at h
    split at h <;> cases h
    rfl
  · rintro rfl
    rfl

theorem mapM_expectSymbol_eq_ok_iff {names : List Symbol} :
    vs.mapM s.expectSymbol = .ok names ↔ vs = names.map .ofSymbol := by
  induction vs generalizing names with
  | nil =>
    rw [List.mapM_nil]
    cases names with
    | nil => simp [pure, Except.pure]
    | cons => simp [pure, Except.pure]
  | cons v vs ih =>
    rw [List.mapM_cons, bind_eq_ok_iff]
    simp only [bind_eq_ok_iff, expectSymbol_eq_ok_iff, ih, pure, Except.pure]
    constructor
    · rintro ⟨name, rfl, names', rfl, h⟩
      cases h
      rfl
    · cases names with
      | nil => nofun
      | cons name names =>
        intro h
        obtain ⟨rfl, rfl⟩ := List.cons_eq_cons.mp h
        exact ⟨name, rfl, names, rfl, rfl⟩

theorem declares_of_formals (h : s.formals v = .ok formals) : Declares s v formals := by
  unfold Store.formals at h
  split at h
  · cases h
    exact .variadic .nil
  · cases h
    exact .fixed .nil
  · rename_i ref
    cases hw : s.walk (.pair ref) with
    | mk items tail =>
      simp only [hw, bind_eq_ok_iff, mapM_expectSymbol_eq_ok_iff] at h
      obtain ⟨names, rfl, h⟩ := h
      have hchain := Chain.of_walk hw
      split at h
      · cases h
        exact .fixed hchain
      · obtain ⟨rest, hrest, h⟩ := bind_eq_ok_iff.mp h
        obtain rfl := expectSymbol_eq_ok_iff.mp hrest
        cases h
        exact .variadic hchain
  · cases h

theorem mapM_eq_parseMembers (parse : Context → Value → Except SyntaxError Expression) :
    vs.mapM (parse .expression) = parseMembers parse .expression vs := by
  induction vs with
  | nil => rfl
  | cons v vs ih =>
    rw [List.mapM_cons, parseMembers, ih]
    rfl

/-! What is parsed has been derived, if that holds of the parts. -/

section Sound

variable {parse : Context → Value → Except SyntaxError Expression} {es : List Expression}
  (hparse : ∀ {context v e}, parse context v = .ok e → Expresses s context v e)

include hparse

theorem members_of_parse (h : parseMembers parse context vs = .ok es) :
    ExpressesMembers s context vs es := by
  induction vs generalizing context es with
  | nil =>
    cases h
    exact .nil
  | cons v vs ih =>
    simp only [parseMembers, bind_eq_ok_iff] at h
    obtain ⟨e, he, es, hes, h⟩ := h
    cases h
    have hrest := ih hes
    by_cases hturn : context = .startOfBody ∧ ¬ e.DefinesOnly
    · obtain ⟨rfl, hd⟩ := hturn
      rw [Context.behind_startOfBody hd] at hrest
      exact .turn hd (hparse he) hrest
    · have hkeep : context = .startOfBody → e.DefinesOnly := fun hc => by simpa [hc] using hturn
      rw [Context.behind_eq hkeep] at hrest
      exact .cons hkeep (hparse he) hrest

theorem lambda_of_parse {first : Value} (h : s.parseLambda parse v (first :: vs) = .ok e) :
    ExpressesLambda s v (first :: vs) e := by
  simp only [parseLambda, bind_eq_ok_iff] at h
  obtain ⟨formals, hformals, body, hbody, h⟩ := h
  cases h
  have hformals := declares_of_formals hformals
  cases vs with
  | nil => exact .single hformals (hparse hbody)
  | cons second rest =>
    obtain ⟨es, hes, rfl⟩ := map_eq_ok_iff.mp hbody
    exact .several hformals (members_of_parse hparse hes)

theorem definition_of_parse (hhead : s.car ref = Form.definition.head)
    (hcontext : context ≠ .expression) (h : s.parseDefinition parse ref = .ok e) :
    Expresses s context (.pair ref) e := by
  simp only [parseDefinition, bind_eq_ok_iff] at h
  obtain ⟨operands, hoperands, h⟩ := h
  have hchain := chain_of_operands hoperands
  rw [hhead] at hchain
  split at h
  · obtain ⟨e', he, h⟩ := bind_eq_ok_iff.mp h
    cases h
    exact .define hcontext hchain (hparse he)
  · cases h
  · rename_i signature first body
    obtain ⟨name, hname, h⟩ := bind_eq_ok_iff.mp h
    obtain ⟨e', he, h⟩ := bind_eq_ok_iff.mp h
    cases h
    have htarget : Chain s (.pair signature) [s.car signature] (s.cdr signature) := .cons .nil
    rw [expectSymbol_eq_ok_iff.mp hname] at htarget
    exact .defineProcedure hcontext hchain htarget (lambda_of_parse hparse he)
  · cases h
  · cases h
  · cases h

theorem form_of_parse (h : s.parseForm parse context ref (s.formOf ref) = .ok e) :
    Expresses s context (.pair ref) e := by
  have hhead : s.formOf ref ≠ .call → s.car ref = (s.formOf ref).head := fun hform =>
    (formOf_eq_iff hform).mp rfl
  cases hform : s.formOf ref with
  | lambda =>
    rw [hform] at h hhead
    obtain ⟨operands, hoperands, h⟩ := bind_eq_ok_iff.mp h
    have hchain := hhead nofun ▸ chain_of_operands hoperands
    split at h
    · exact .lambda hchain (lambda_of_parse hparse h)
    · cases h
  | assignment =>
    rw [hform] at h hhead
    obtain ⟨operands, hoperands, h⟩ := bind_eq_ok_iff.mp h
    have hchain := hhead nofun ▸ chain_of_operands hoperands
    split at h
    · simp only [bind_eq_ok_iff] at h
      obtain ⟨name, hname, e', he, h⟩ := h
      cases h
      rw [expectSymbol_eq_ok_iff.mp hname] at hchain
      exact .assign hchain (hparse he)
    · cases h
  | definition =>
    rw [hform] at h hhead
    rw [parseForm] at h
    split at h
    · cases h
    · rename_i hcontext
      exact definition_of_parse hparse (hhead nofun) hcontext h
  | conditional =>
    rw [hform] at h hhead
    obtain ⟨operands, hoperands, h⟩ := bind_eq_ok_iff.mp h
    have hchain := hhead nofun ▸ chain_of_operands hoperands
    split at h
    · simp only [bind_eq_ok_iff] at h
      obtain ⟨e', he, e₁, he₁, h⟩ := h
      cases h
      exact .ifOnly hchain (hparse he) (hparse he₁)
    · simp only [bind_eq_ok_iff] at h
      obtain ⟨e', he, e₁, he₁, e₂, he₂, h⟩ := h
      cases h
      exact .ifElse hchain (hparse he) (hparse he₁) (hparse he₂)
    · cases h
  | quotation =>
    rw [hform] at h hhead
    obtain ⟨operands, hoperands, h⟩ := bind_eq_ok_iff.mp h
    have hchain := hhead nofun ▸ chain_of_operands hoperands
    split at h
    · cases h
      exact .quotation hchain
    · cases h
  | sequence =>
    rw [hform] at h hhead
    obtain ⟨operands, hoperands, h⟩ := bind_eq_ok_iff.mp h
    have hchain := hhead nofun ▸ chain_of_operands hoperands
    split at h
    · cases h
    · rename_i hmembers
      obtain ⟨es, hes, rfl⟩ := map_eq_ok_iff.mp h
      exact .sequence hchain hmembers (members_of_parse hparse hes)
  | call =>
    rw [hform] at h
    simp only [parseForm, bind_eq_ok_iff] at h
    obtain ⟨e', he, operands, hoperands, es, hes, h⟩ := h
    cases h
    rw [mapM_eq_parseMembers] at hes
    exact .call (chain_of_operands hoperands) (formOf_eq_call_iff.mp hform) (hparse he)
      (members_of_parse hparse hes)

end Sound

theorem parseWithin_symbol (n : Nat) (name : Symbol) :
    s.parseWithin n context (.ofSymbol name) = .ok (.reference name) := by
  cases n <;> rfl

theorem parseWithin_pair (n : Nat) :
    s.parseWithin (n + 1) context (.pair ref) =
      s.parseForm (s.parseWithin n) context ref (s.formOf ref) := rfl

theorem parseWithin_literal (n : Nat) (hname : ∀ name, v ≠ .ofSymbol name)
    (hpair : ∀ ref, v ≠ .pair ref) : s.parseWithin n context v = .ok (.literal v) := by
  cases v with
  | atom a =>
    cases a with
    | symbol name => exact (hname name rfl).elim
    | _ => cases n <;> rfl
  | pair ref => exact (hpair ref rfl).elim
  | _ => cases n <;> rfl

theorem expresses_of_parseWithin {n : Nat} (h : s.parseWithin n context v = .ok e) :
    Expresses s context v e := by
  induction n generalizing context v e with
  | zero =>
    rcases v.symbol_or_pair_or_other with ⟨name, rfl⟩ | ⟨ref, rfl⟩ | ⟨hname, hpair⟩
    · cases h
      exact .reference
    · cases h
    · rw [parseWithin_literal _ hname hpair] at h
      cases h
      exact .literal hname hpair
  | succ n ih =>
    rcases v.symbol_or_pair_or_other with ⟨name, rfl⟩ | ⟨ref, rfl⟩ | ⟨hname, hpair⟩
    · cases h
      exact .reference
    · exact form_of_parse ih h
    · rw [parseWithin_literal _ hname hpair] at h
      cases h
      exact .literal hname hpair

end Store

/-- The value is a tree of no greater depth. -/
def Fits (s : Store) (n : Nat) (v : Value) : Prop := ∃ t, Unfolds s v t ∧ t.depth ≤ n

namespace Fits

variable {s : Store} {n : Nat} {ref : CellRef} {v tail : Value} {items : List Value}

theorem of_pair (h : Fits s n (.pair ref)) :
    ∃ m, n = m + 1 ∧ Fits s m (s.car ref) ∧ Fits s m (s.cdr ref) := by
  obtain ⟨t, ht, hn⟩ := h
  obtain ⟨car, cdr, a, b, hc, rfl, ha, hb⟩ := ht.of_pair
  rw [Tree.depth] at hn
  obtain ⟨m, rfl⟩ := Nat.exists_eq_add_of_le' (Nat.lt_of_lt_of_le (Nat.succ_pos _) hn)
  have hcar : s.car ref = car := by simp only [Store.car, Store.pairAt, hc]
  have hcdr : s.cdr ref = cdr := by simp only [Store.cdr, Store.pairAt, hc]
  rw [hcar, hcdr]
  exact ⟨m, rfl, ⟨a, ha, by omega⟩, b, hb, by omega⟩

theorem mono {m : Nat} (h : Fits s m v) (hmn : m ≤ n) : Fits s n v := by
  obtain ⟨t, ht, hm⟩ := h
  exact ⟨t, ht, hm.trans hmn⟩

theorem chain (hc : Chain s v items tail) (h : Fits s n v) :
    items.length ≤ n ∧ Fits s n tail ∧ ∀ w ∈ items, ∃ m, n = m + 1 ∧ Fits s m w := by
  induction hc generalizing n with
  | nil => exact ⟨Nat.zero_le n, h, nofun⟩
  | cons _ ih =>
    obtain ⟨m, rfl, hcar, hcdr⟩ := h.of_pair
    obtain ⟨hlength, htail, hitems⟩ := ih hcdr
    refine ⟨Nat.succ_le_succ hlength, htail.mono (Nat.le_succ m), fun w hw => ?_⟩
    rcases List.mem_cons.mp hw with rfl | hw
    · exact ⟨m, rfl, hcar⟩
    · obtain ⟨k, rfl, hk⟩ := hitems w hw
      exact ⟨k + 1, rfl, hk.mono (Nat.le_succ k)⟩

theorem length_le (hc : Chain s v items tail) (h : Fits s n v) :
    items.length ≤ s.cells.size := by
  obtain ⟨t, ht, -⟩ := h
  exact (chain hc ⟨t, ht, le_rfl⟩).1.trans ht.depth_le

end Fits

namespace Store

variable {s : Store} {n : Nat} {v w : Value} {vs : List Value} {form : Form} {formals : Formals}

theorem parseWithin_chain (hc : Chain s v (w :: vs) .null) (h : Fits s n v) :
    ∃ m ref, n = m + 1 ∧ v = .pair ref ∧ s.car ref = w ∧
      (∀ form, s.operands form ref = .ok vs) ∧ ∀ u ∈ w :: vs, Fits s m u := by
  obtain ⟨ref, rfl, hcar, hcdr⟩ := hc.of_cons
  have hitems := (Fits.chain hc h).2.2
  obtain ⟨m, rfl, -, hm⟩ := h.of_pair
  refine ⟨m, ref, rfl, rfl, hcar, fun form => ?_, fun u hu => ?_⟩
  · rw [operands, hcdr.walk nofun (Fits.length_le hcdr hm)]
  · obtain ⟨k, hk, hu⟩ := hitems u hu
    rwa [Nat.add_right_cancel hk]

theorem parseWithin_form (context : Context) (hc : Chain s v (form.head :: vs) .null)
    (hform : form ≠ .call) (h : Fits s n v) : ∃ m ref, n = m + 1 ∧
      s.parseWithin n context v = s.parseForm (s.parseWithin m) context ref form ∧
      s.operands form ref = .ok vs ∧ ∀ u ∈ vs, Fits s m u := by
  obtain ⟨m, ref, rfl, rfl, hcar, hoperands, hitems⟩ := parseWithin_chain hc h
  refine ⟨m, ref, rfl, ?_, hoperands form, fun u hu => hitems u (.tail _ hu)⟩
  rw [parseWithin_pair, (formOf_eq_iff hform).mpr hcar]

theorem formals_of_declares (h : Declares s v formals) (hv : Fits s n v) :
    s.formals v = .ok formals := by
  have names_ok : ∀ names : List Symbol,
      (names.map Value.ofSymbol).mapM s.expectSymbol = .ok names :=
    fun _ => mapM_expectSymbol_eq_ok_iff.mpr rfl
  cases h with
  | @fixed names hc =>
    have hw := hc.walk nofun (hv.length_le hc)
    cases names with
    | nil =>
      cases hc
      rfl
    | cons =>
      obtain ⟨ref, rfl, -⟩ := hc.of_cons
      simp only [Store.formals, hw, names_ok]
      rfl
  | @variadic names rest hc =>
    have hw := hc.walk nofun (hv.length_le hc)
    cases names with
    | nil =>
      cases hc
      rfl
    | cons =>
      obtain ⟨ref, rfl, -⟩ := hc.of_cons
      simp only [Store.formals, hw, names_ok]
      rfl

end Store

variable {s : Store} {context : Context}

mutual

/-- A value that is an expression, and not too deep, is parsed as it. -/
theorem Expresses.parseWithin : ∀ {context : Context} {v : Value} {e : Expression} {n : Nat},
    Expresses s context v e → Fits s n v → s.parseWithin n context v = .ok e
  | _, _, _, n, .reference, _ => s.parseWithin_symbol n _
  | _, _, _, n, .literal hname hpair, _ => s.parseWithin_literal n hname hpair
  | context, _, _, _, .quotation hc, hv => by
    obtain ⟨m, ref, rfl, hparse, hoperands, -⟩ :=
      Store.parseWithin_form context hc nofun hv
    rw [hparse, Store.parseForm, hoperands]
    rfl
  | context, _, _, _, .ifOnly hc he he₁, hv => by
    obtain ⟨m, ref, rfl, hparse, hoperands, hitems⟩ :=
      Store.parseWithin_form context hc nofun hv
    have he := he.parseWithin (hitems _ (by simp))
    have he₁ := he₁.parseWithin (hitems _ (by simp))
    simp only [hparse, Store.parseForm, hoperands, bind, Except.bind, he, he₁]
    rfl
  | context, _, _, _, .ifElse hc he he₁ he₂, hv => by
    obtain ⟨m, ref, rfl, hparse, hoperands, hitems⟩ :=
      Store.parseWithin_form context hc nofun hv
    have he := he.parseWithin (hitems _ (by simp))
    have he₁ := he₁.parseWithin (hitems _ (by simp))
    have he₂ := he₂.parseWithin (hitems _ (by simp))
    simp only [hparse, Store.parseForm, hoperands, bind, Except.bind, he, he₁, he₂]
    rfl
  | context, _, _, _, .assign hc he, hv => by
    obtain ⟨m, ref, rfl, hparse, hoperands, hitems⟩ :=
      Store.parseWithin_form context hc nofun hv
    have he := he.parseWithin (hitems _ (by simp))
    simp only [hparse, Store.parseForm, hoperands, bind, Except.bind, he]
    rfl
  | context, _, _, _, .lambda hc he, hv => by
    obtain ⟨m, ref, rfl, hparse, hoperands, hitems⟩ :=
      Store.parseWithin_form context hc nofun hv
    have hbody := he.body_ne_nil
    have he := he.parseWithin (hitems _ (.head _)) fun u hu => hitems u (.tail _ hu)
    obtain ⟨first, rest, rfl⟩ := List.exists_cons_of_ne_nil hbody
    simp only [hparse, Store.parseForm, hoperands, bind, Except.bind, he]
  | context, _, _, _, .sequence hc hmembers hes, hv => by
    obtain ⟨m, ref, rfl, hparse, hoperands, hitems⟩ :=
      Store.parseWithin_form context hc nofun hv
    have hes := hes.parseWithin hitems
    obtain ⟨first, rest, rfl⟩ := List.exists_cons_of_ne_nil hmembers
    simp only [hparse, Store.parseForm, hoperands, bind, Except.bind, hes]
    rfl
  | context, _, _, _, .define hcontext hc he, hv => by
    obtain ⟨m, ref, rfl, hparse, hoperands, hitems⟩ :=
      Store.parseWithin_form context hc nofun hv
    have he := he.parseWithin (hitems _ (by simp))
    simp only [hparse, Store.parseForm, if_neg hcontext, Store.parseDefinition, hoperands, bind,
      Except.bind, Value.ofSymbol, he]
    rfl
  | context, _, _, _, .defineProcedure hcontext hc htarget he, hv => by
    obtain ⟨m, ref, rfl, hparse, hoperands, hitems⟩ :=
      Store.parseWithin_form context hc nofun hv
    obtain ⟨signature, rfl, hname, hformals⟩ := htarget.of_cons
    obtain rfl := hformals.eq_tail
    have hsignature : Fits s m (s.cdr signature) := by
      obtain ⟨k, rfl, -, hk⟩ := (hitems _ (.head _)).of_pair
      exact hk.mono (Nat.le_succ k)
    have hbody := he.body_ne_nil
    have he := he.parseWithin hsignature fun u hu => hitems u (.tail _ hu)
    obtain ⟨first, rest, rfl⟩ := List.exists_cons_of_ne_nil hbody
    simp only [hparse, Store.parseForm, if_neg hcontext, Store.parseDefinition, hoperands, hname,
      bind, Except.bind, he]
    rfl
  | _, _, _, _, .call hc hhead he hes, hv => by
    obtain ⟨m, ref, rfl, rfl, rfl, hoperands, hitems⟩ := Store.parseWithin_chain hc hv
    have he := he.parseWithin (hitems _ (.head _))
    have hes := hes.parseWithin fun u hu => hitems u (.tail _ hu)
    rw [Store.parseWithin_pair, Store.formOf_eq_call_iff.mpr hhead]
    simp only [Store.parseForm, hoperands, bind, Except.bind, he, Store.mapM_eq_parseMembers, hes]
    rfl

theorem ExpressesMembers.parseWithin : ∀ {context : Context} {vs : List Value}
    {es : List Expression} {n : Nat}, ExpressesMembers s context vs es → (∀ v ∈ vs, Fits s n v) →
    parseMembers (s.parseWithin n) context vs = .ok es
  | _, _, _, _, .nil, _ => rfl
  | _, _, _, _, .cons hkeep he hes, hvs => by
    have he := he.parseWithin (hvs _ (.head _))
    have hes := hes.parseWithin fun v hv => hvs v (.tail _ hv)
    simp only [parseMembers, he, bind, Except.bind, Context.behind_eq hkeep, hes]
    rfl
  | _, _, _, _, .turn hd he hes, hvs => by
    have he := he.parseWithin (hvs _ (.head _))
    have hes := hes.parseWithin fun v hv => hvs v (.tail _ hv)
    simp only [parseMembers, he, bind, Except.bind, Context.behind_startOfBody hd, hes]
    rfl

theorem ExpressesLambda.parseWithin : ∀ {v : Value} {vs : List Value} {e : Expression} {n : Nat},
    ExpressesLambda s v vs e → Fits s n v → (∀ v ∈ vs, Fits s n v) →
    s.parseLambda (s.parseWithin n) v vs = .ok e
  | _, _, _, _, .single hformals he, hv, hvs => by
    have hformals := Store.formals_of_declares hformals hv
    have he := he.parseWithin (hvs _ (.head _))
    simp only [Store.parseLambda, hformals, parseBody, he, bind, Except.bind]
    rfl
  | _, _, _, _, .several hformals hes, hv, hvs => by
    have hformals := Store.formals_of_declares hformals hv
    have hes := hes.parseWithin hvs
    simp only [Store.parseLambda, hformals, parseBody, hes, bind, Except.bind]
    rfl

end

/-- A value without cycles is parsed at top level as the one expression that it is there. -/
theorem Store.parse_eq_ok_iff {v : Value} {t : Tree} (h : Unfolds s v t) (e : Expression) :
    s.parse v = .ok e ↔ Expresses s .topLevel v e :=
  ⟨expresses_of_parseWithin, fun he => he.parseWithin ⟨t, h, h.depth_le⟩⟩

/-- Definitions at the start of a body, one of them in nested sequences. -/
theorem Store.parse_eq_ok_iff_procedure :
    let symbol : String → Datum := fun name => .atom (.symbol ⟨name⟩)
    let define : String → String → Datum := fun name source =>
      .list [symbol "define", symbol name, symbol source] .null
    let d := Datum.list [symbol "define", .list [symbol "f", symbol "x"] .null, define "y" "x",
      .list [symbol "begin", .list [symbol "begin", define "z" "y"] .null] .null,
      .list [symbol "begin", symbol "y", symbol "z"] .null] .null
    let s := (empty.load d).2
    let v := (empty.load d).1
    Unfolds s v d.tree ∧ Expresses s .topLevel v (.define ⟨"f"⟩ (.lambda ⟨[⟨"x"⟩], none⟩
      (.sequence [.define ⟨"y"⟩ (.reference ⟨"x"⟩),
        .sequence [.sequence [.define ⟨"z"⟩ (.reference ⟨"y"⟩)]],
        .sequence [.reference ⟨"y"⟩, .reference ⟨"z"⟩]]))) := by
  intro symbol define d s v
  have h : Unfolds s v d.tree := d.unfolds_load empty
  exact ⟨h, (parse_eq_ok_iff h _).mp rfl⟩

end SmallScheme
