import SmallScheme.Proofs.Store.Cycles
import SmallScheme.Store.Inspect

/-! # The printer and the external form

The external form of a value by recursion on the value, and what the printer makes of an acyclic
value piece by piece. The two are the same in both styles, which differ in strings and characters
only, and the text that shows what is inside a pair is the written form of the pair.
-/

namespace SmallScheme

variable {s : Store} {style : Style} {leaf leaf' : Value → String} {l n : Nat} {ref : CellRef}
  {v tail operand operand' : Value} {mark mark' : Abbreviation} {vs items : List Value}
  {texts texts' : List String} {text text' : String} {pieces : List Piece}

def Value.IsText : Value → Prop
  | .atom (.string _) | .atom (.character _) => True
  | _ => False

namespace Store

/-- The pair is a list of a keyword that a mark stands for and an operand. -/
def Abbreviates (s : Store) (ref : CellRef) (mark : Abbreviation) (operand : Value) : Prop :=
  Chain s (.pair ref) [.ofSymbol mark.keyword, operand] .null

mutual

/-- The external form of the value, given the texts of values without parts. -/
inductive HasForm (s : Store) (leaf : Value → String) : Value → String → Prop

  | plain {v : Value} : v.isPlain → HasForm s leaf v (leaf v)

  | abbreviated {ref : CellRef} {mark : Abbreviation} {operand : Value} {text : String} :
      s.Abbreviates ref mark operand → HasForm s leaf operand text →
      HasForm s leaf (.pair ref) (mark.mark ++ text)

  | list {ref : CellRef} {items : List Value} {texts : List String} :
      (∀ mark operand, ¬ s.Abbreviates ref mark operand) → Chain s (.pair ref) items .null →
      HaveForms s leaf items texts →
      HasForm s leaf (.pair ref) ("(" ++ " ".intercalate texts ++ ")")

  | dotted {ref : CellRef} {items : List Value} {tail : Value} {texts : List String}
      {text : String} : (∀ mark operand, ¬ s.Abbreviates ref mark operand) →
      Chain s (.pair ref) items tail → tail ≠ .null → (∀ ref, tail ≠ .pair ref) →
      HaveForms s leaf items texts → HasForm s leaf tail text →
      HasForm s leaf (.pair ref) ("(" ++ " ".intercalate texts ++ " . " ++ text ++ ")")

  | vector {ref : CellRef} {texts : List String} : HaveForms s leaf (s.items ref) texts →
      HasForm s leaf (.vector ref) ("#(" ++ " ".intercalate texts ++ ")")

inductive HaveForms (s : Store) (leaf : Value → String) : List Value → List String → Prop

  | nil : HaveForms s leaf [] []

  | cons {v : Value} {text : String} {vs : List Value} {texts : List String} :
      HasForm s leaf v text → HaveForms s leaf vs texts →
      HaveForms s leaf (v :: vs) (text :: texts)

end

/-! A value has one external form at most, and it depends on the values inside only. -/

theorem abbreviation?_eq_some_iff :
    s.abbreviation? ref = some (mark, operand) ↔ s.Abbreviates ref mark operand := by
  constructor
  · intro h
    unfold abbreviation? at h
    split at h
    · rename_i name rest hcar hcdr
      split at h
      · rename_i hnull
        obtain ⟨found, hfound, heq⟩ := Option.map_eq_some_iff.mp h
        cases heq
        obtain rfl := Abbreviation.ofKeyword?_eq_some_iff.mp hfound
        have hrest : Chain s (s.cdr ref) [s.car rest] .null := by
          rw [hcdr, ← hnull]
          exact .cons .nil
        have hchain : Chain s (.pair ref) [s.car ref, s.car rest] .null := .cons hrest
        rwa [hcar] at hchain
      · cases h
    · cases h
  · intro h
    obtain ⟨ref', href, hcar, htail⟩ := Chain.of_cons h
    cases href
    obtain ⟨rest, hcdr, rfl, hend⟩ := htail.of_cons
    have hnull : s.cdr rest = .null := hend.eq_tail
    simp only [abbreviation?, hcar, Value.ofSymbol, hcdr, hnull, if_true,
      Abbreviation.ofKeyword?_keyword, Option.map_some]

theorem Abbreviates.unique (h : s.Abbreviates ref mark operand)
    (h' : s.Abbreviates ref mark' operand') : mark = mark' ∧ operand = operand' := by
  rw [← abbreviation?_eq_some_iff] at h h'
  exact Prod.mk.inj (Option.some.inj (h.symm.trans h'))

mutual

theorem HasForm.unique : ∀ {v : Value} {text text' : String}, HasForm s leaf v text →
    HasForm s leaf v text' → text = text'
  | _, _, _, .plain hv, h => by
    cases h with
    | plain => rfl
    | _ => cases hv
  | _, _, _, .abbreviated ha ht, h => by
    cases h with
    | plain hv => cases hv
    | abbreviated ha' ht' =>
      obtain ⟨rfl, rfl⟩ := ha.unique ha'
      rw [ht.unique ht']
    | list hno => exact (hno _ _ ha).elim
    | dotted hno => exact (hno _ _ ha).elim
  | _, _, _, .list hno hc hts, h => by
    cases h with
    | plain hv => cases hv
    | abbreviated ha => exact (hno _ _ ha).elim
    | list _ hc' hts' =>
      obtain ⟨rfl, -⟩ := hc.eq_of_ends nofun hc' nofun
      rw [hts.unique hts']
    | dotted _ hc' hnull hend =>
      obtain ⟨-, rfl⟩ := hc.eq_of_ends nofun hc' hend
      exact (hnull rfl).elim
  | _, _, _, .dotted hno hc hnull hend hts ht, h => by
    cases h with
    | plain hv => cases hv
    | abbreviated ha => exact (hno _ _ ha).elim
    | list _ hc' =>
      obtain ⟨-, rfl⟩ := hc.eq_of_ends hend hc' nofun
      exact (hnull rfl).elim
    | dotted _ hc' _ hend' hts' ht' =>
      obtain ⟨rfl, rfl⟩ := hc.eq_of_ends hend hc' hend'
      rw [hts.unique hts', ht.unique ht']
  | _, _, _, .vector hts, h => by
    cases h with
    | plain hv => cases hv
    | vector hts' => rw [hts.unique hts']

theorem HaveForms.unique : ∀ {vs : List Value} {texts texts' : List String},
    HaveForms s leaf vs texts → HaveForms s leaf vs texts' → texts = texts'
  | _, _, _, .nil, .nil => rfl
  | _, _, _, .cons ht hts, .cons ht' hts' => by rw [ht.unique ht', hts.unique hts']

end

theorem Acyclic.contains_chain (h : s.Acyclic v) (hc : Chain s v items tail) :
    (∀ w ∈ items, s.Contains v w) ∧ s.Contains v tail := by
  induction hc with
  | nil => exact ⟨nofun, .refl⟩
  | @cons ref items tail _ ih =>
    obtain ⟨-, car, cdr, hcell⟩ := h.before _ .refl
    obtain ⟨hcar, hcdr⟩ := pairAt_eq hcell
    have hpart : ∀ w ∈ [s.car ref, s.cdr ref], s.HasPart (.pair ref) w := by
      rw [hcar, hcdr]
      exact fun w => .pair hcell
    have hrest : s.Contains (.pair ref) (s.cdr ref) := .single (hpart _ (by simp))
    obtain ⟨hitems, htail⟩ := ih (h.of_contains hrest)
    refine ⟨fun w hw => ?_, hrest.trans htail⟩
    rcases List.mem_cons.mp hw with rfl | hw
    · exact .single (hpart _ (by simp))
    · exact hrest.trans (hitems w hw)

theorem Acyclic.contains_operand (h : s.Acyclic (.pair ref)) (ha : s.Abbreviates ref mark operand) :
    s.Contains (.pair ref) operand := (h.contains_chain ha).1 operand (by simp)

theorem Acyclic.contains_items (h : s.Acyclic (.vector ref)) :
    ∀ w ∈ s.items ref, s.Contains (.vector ref) w := by
  intro w hw
  obtain ⟨-, items, hcell⟩ := h.before _ .refl
  rw [items_eq hcell] at hw
  exact .single (.vector hcell hw)

/-- The texts are the same for all values inside that are no pairs and no vectors. -/
def AgreesOn (s : Store) (leaf leaf' : Value → String) (v : Value) : Prop :=
  ∀ w, s.Contains v w → w.isPlain → leaf w = leaf' w

theorem AgreesOn.of_contains {w : Value} (h : s.AgreesOn leaf leaf' v) (hw : s.Contains v w) :
    s.AgreesOn leaf leaf' w := fun u hu => h u (hw.trans hu)

mutual

theorem HasForm.congr : ∀ {v : Value} {text : String}, HasForm s leaf v text → s.Acyclic v →
    s.AgreesOn leaf leaf' v → HasForm s leaf' v text
  | v, _, .plain hv, _, h => by
    rw [h v .refl hv]
    exact .plain hv
  | _, _, .abbreviated ha ht, hv, h => by
    have hoperand := hv.contains_operand ha
    exact .abbreviated ha (ht.congr (hv.of_contains hoperand) (h.of_contains hoperand))
  | _, _, .list hno hc hts, hv, h => by
    obtain ⟨hitems, -⟩ := hv.contains_chain hc
    exact .list hno hc (hts.congr fun w hw =>
      ⟨hv.of_contains (hitems w hw), h.of_contains (hitems w hw)⟩)
  | _, _, .dotted hno hc hnull hend hts ht, hv, h => by
    obtain ⟨hitems, htail⟩ := hv.contains_chain hc
    refine .dotted hno hc hnull hend (hts.congr fun w hw => ?_) ?_
    · exact ⟨hv.of_contains (hitems w hw), h.of_contains (hitems w hw)⟩
    · exact ht.congr (hv.of_contains htail) (h.of_contains htail)
  | _, _, .vector hts, hv, h => .vector (hts.congr fun w hw =>
      ⟨hv.of_contains (hv.contains_items w hw), h.of_contains (hv.contains_items w hw)⟩)

theorem HaveForms.congr : ∀ {vs : List Value} {texts : List String}, HaveForms s leaf vs texts →
    (∀ v ∈ vs, s.Acyclic v ∧ s.AgreesOn leaf leaf' v) → HaveForms s leaf' vs texts
  | _, _, .nil, _ => .nil
  | _, _, .cons ht hts, h => by
    obtain ⟨⟨hv, hleaf⟩, hvs⟩ := List.forall_mem_cons.mp h
    exact .cons (ht.congr hv hleaf) (hts.congr hvs)

end

/-! What the printer makes of the layers of a value. -/

def pieceText (s : Store) (style : Style) : Piece → String
  | .text t => t
  | .value v => s.external style v

theorem Expands.of_fits (h : ∀ piece ∈ pieces, s.FitsPiece l piece) (hl : l ≤ s.cells.size) :
    s.Expands style l pieces (String.join (pieces.map (s.pieceText style))) := by
  induction pieces with
  | nil => exact .nil
  | cons piece pieces ih =>
    obtain ⟨hpiece, hpieces⟩ := List.forall_mem_cons.mp h
    rw [List.map_cons, String.join_cons, ← List.singleton_append]
    refine .append ?_ (ih hpieces)
    cases piece with
    | text t => exact .text t
    | value v =>
      obtain ⟨t, ht, hdepth⟩ := hpiece
      rw [pieceText, ht.external style]
      exact ht.expands style hdepth (hdepth.trans hl)

theorem external_layer (style : Style) (hv : v.isPlain = false) (h : Fits s n v) :
    s.external style v = String.join ((s.layer v).map (s.pieceText style)) := by
  obtain ⟨m, hm⟩ : ∃ m, s.cells.size = m + 1 := by
    cases v with
    | pair ref =>
      obtain ⟨m, hm, -⟩ := h.of_fits.of_pair
      exact ⟨m, hm⟩
    | vector ref =>
      obtain ⟨m, hm, -⟩ := h.of_fits.items_of_vector
      exact ⟨m, hm⟩
    | _ => cases hv
  obtain ⟨-, hpieces⟩ := prints_layer style hv (hm ▸ h.of_fits) "" []
  have hexpands := Expands.layer hv (@Expands.of_fits s style m _ hpieces (by omega))
  rw [← hm] at hexpands
  exact hexpands.external

theorem external_plain (style : Style) (hv : v.isPlain) :
    s.external style v = plainText style v := by
  rw [(Unfolds.leaf hv).external style, Tree.text]

theorem join_separated (s : Store) (style : Style) (vs : List Value) :
    String.join ((separated vs).map (s.pieceText style)) =
      " ".intercalate (vs.map (s.external style)) := by
  induction vs with
  | nil => rfl
  | cons v vs ih =>
    cases vs with
    | nil => simp [separated, pieceText]
    | cons w vs =>
      have hseparated : separated (v :: w :: vs) =
          .value v :: .text " " :: separated (w :: vs) := rfl
      rw [hseparated, List.map_cons, List.map_cons, String.join_cons, String.join_cons, ih]
      simp only [List.map_cons, String.intercalate_cons_cons, pieceText, String.append_assoc]

theorem haveForms_map (h : ∀ v ∈ vs, s.HasForm leaf v (s.external style v)) :
    s.HaveForms leaf vs (vs.map (s.external style)) := by
  induction vs with
  | nil => exact .nil
  | cons v vs ih =>
    obtain ⟨hv, hvs⟩ := List.forall_mem_cons.mp h
    exact .cons hv (ih hvs)

/-! In these two, what is less deep than a pair or a vector has its external form already. -/

theorem hasForm_pair (h : Fits s (n + 1) (.pair ref))
    (hform : ∀ w, Fits s n w → s.HasForm (plainText style) w (s.external style w)) :
    s.HasForm (plainText style) (.pair ref) (s.external style (.pair ref)) := by
  obtain ⟨-, hpieces⟩ := prints_layer style rfl h "" []
  rw [external_layer style rfl h]
  cases ha : s.abbreviation? ref with
  | some found =>
    obtain ⟨mark, operand⟩ := found
    rw [layer_abbreviated ha] at hpieces ⊢
    have hoperand := hform operand (hpieces (.value operand) (by simp))
    simpa [pieceText] using HasForm.abbreviated (abbreviation?_eq_some_iff.mp ha) hoperand
  | none =>
    have hno : ∀ mark operand, ¬ s.Abbreviates ref mark operand := by
      intro mark operand hab
      cases ha.symm.trans (abbreviation?_eq_some_iff.mpr hab)
    obtain ⟨items, tail, hchain, htail, hwalk⟩ := h.walks
    have hitems : s.HaveForms (plainText style) items (items.map (s.external style)) := by
      refine haveForms_map fun w hw => hform w ?_
      obtain ⟨m, hm, hw⟩ := (Fits.chain hchain h).2.2 w hw
      rwa [Nat.succ.inj hm]
    rw [layer_list ha hwalk] at hpieces ⊢
    by_cases hnull : tail = .null
    · subst hnull
      simpa [ending, pieceText, join_separated, String.append_assoc] using
        HasForm.list hno hchain hitems
    · have hending : ending tail = [.text " . ", .value tail, .text ")"] := by
        cases tail <;> first | rfl | exact (hnull rfl).elim
      rw [hending] at hpieces ⊢
      have htext := hform tail (hpieces (.value tail) (by simp))
      simpa [pieceText, join_separated, String.append_assoc] using
        HasForm.dotted hno hchain hnull htail hitems htext

theorem hasForm_vector (h : Fits s (n + 1) (.vector ref))
    (hform : ∀ w, Fits s n w → s.HasForm (plainText style) w (s.external style w)) :
    s.HasForm (plainText style) (.vector ref) (s.external style (.vector ref)) := by
  obtain ⟨m, hm, hitems⟩ := h.items_of_vector
  obtain rfl := Nat.succ.inj hm
  have hlayer : s.external style (.vector ref) =
      "#(" ++ " ".intercalate ((s.items ref).map (s.external style)) ++ ")" := by
    rw [external_layer style rfl h]
    simp [layer, join_separated, pieceText, String.append_assoc]
  rw [hlayer]
  exact .vector (haveForms_map fun w hw => hform w (hitems w hw))

/-- The printer writes a value without cycles in its external form. -/
theorem hasForm_external (style : Style) (h : Fits s n v) :
    s.HasForm (plainText style) v (s.external style v) := by
  induction n using Nat.strong_induction_on generalizing v with
  | _ n ih =>
    cases v with
    | pair ref =>
      obtain ⟨m, rfl, -⟩ := h.of_pair
      exact hasForm_pair h fun w => ih m (Nat.lt_succ_self m)
    | vector ref =>
      obtain ⟨m, rfl, -⟩ := h.items_of_vector
      exact hasForm_vector h fun w => ih m (Nat.lt_succ_self m)
    | _ =>
      rw [external_plain style rfl]
      exact .plain rfl

theorem plainText_eq_of_not_isText (hv : ¬ v.IsText) :
    plainText .write v = plainText .display v := by
  cases v with
  | atom value =>
    cases value with
    | string | character => exact (hv trivial).elim
    | boolean b => cases b <;> rfl
    | _ => rfl
  | procedure procedure => cases procedure <;> rfl
  | _ => rfl

theorem inspectPair_eq_join (s : Store) (ref : CellRef) :
    s.inspectPair ref = String.join ((s.layer (.pair ref)).map (s.pieceText .write)) := by
  refine congrArg String.join (List.map_congr_left fun piece _ => ?_)
  cases piece <;> rfl

/-- The printer writes an acyclic value in its one external form, and the styles differ on texts
only. -/
theorem Acyclic.renders_form (h : s.Acyclic v) :
    (∀ style, Acc (fun b a => s.Prints style a b) ("", [.value v]) ∧
      Relation.ReflTransGen (s.Prints style) ("", [.value v]) (s.external style v, []) ∧
      ∀ text, s.external style v = text ↔ s.HasForm (plainText style) v text) ∧
    (∀ w : Value, ¬ w.IsText → plainText .write w = plainText .display w) ∧
    ((∀ w, s.Contains v w → ¬ w.IsText) → s.written v = s.displayed v) ∧
    ∀ ref, v = .pair ref → s.inspectPair ref = s.written v := by
  have htraverses := h.fits.traverses
  have hforms : ∀ style text, s.external style v = text ↔ s.HasForm (plainText style) v text := by
    intro style text
    have hform := hasForm_external style h.fits
    exact ⟨fun heq => heq ▸ hform, hform.unique⟩
  refine ⟨fun style => ⟨htraverses.stops style, htraverses.prints style, hforms style⟩,
    fun w => plainText_eq_of_not_isText, fun hno => ?_, ?_⟩
  · have hwritten := (hforms .write _).mp rfl
    exact ((hforms .display _).mpr (hwritten.congr h fun w hw _ =>
      plainText_eq_of_not_isText (hno w hw))).symm
  · rintro ref rfl
    rw [inspectPair_eq_join, written, external_layer .write rfl h.fits]

/-- A dotted list with a vector in it that holds an abbreviation. -/
theorem Acyclic.renders_form_nested :
    let symbol : String → Datum := fun name => .atom (.symbol ⟨name⟩)
    let d : Datum := .pair (symbol "a")
      (.pair (.vector [.abbreviated .quote (symbol "x")]) (.atom (.character 'b')))
    let s := (Store.empty.load d).2
    s.Acyclic (.pair ⟨4⟩) ∧ s.written (.pair ⟨4⟩) = "(a #('x) . #\\b)" ∧
      s.inspectPair ⟨4⟩ = s.written (.pair ⟨4⟩) := by
  intro symbol d s
  have hacyclic : s.Acyclic (.pair ⟨4⟩) := acyclic_iff.mpr ⟨_, Datum.unfolds_load .empty d⟩
  obtain ⟨hprints, -, -, hinspect⟩ := hacyclic.renders_form
  obtain ⟨-, -, hform⟩ := hprints .write
  have hno : ∀ mark operand, ¬ s.Abbreviates ⟨4⟩ mark operand := by
    intro mark operand ha
    have hnone : s.abbreviation? ⟨4⟩ = none := rfl
    cases hnone.symm.trans (abbreviation?_eq_some_iff.mpr ha)
  have hquoted : s.HasForm (plainText .write) (.pair ⟨1⟩) ("'" ++ "x") :=
    @HasForm.abbreviated s _ ⟨1⟩ .quote _ _ (.cons (.cons .nil)) (.plain rfl)
  have hchain : Chain s (.pair ⟨4⟩) [.ofSymbol ⟨"a"⟩, .vector ⟨2⟩] (.atom (.character 'b')) :=
    .cons (.cons .nil)
  have htext := (hform _).mpr (.dotted hno hchain nofun nofun
    (.cons (.plain rfl) (.cons (.vector (.cons hquoted .nil)) .nil)) (.plain rfl))
  exact ⟨hacyclic, htext, hinspect _ rfl⟩

end Store

end SmallScheme
