import SmallScheme.Proofs.Datum.Grammar

/-! # Reading follows the grammar

The reader keeps what the tokens so far leave open: reading some tokens comes to a progress exactly
if the grammar says so of the tokens. A datum is answered for the tokens that derive it, and the
token that is refused is the first that no derivation goes on with.
-/

namespace SmallScheme

def Token.form? : Token → Option OpenForm
  | .listOpen => some (.list [])
  | .vectorOpen => some (.vector [])
  | .abbreviation mark => some (.abbreviation mark)
  | _ => none

/-- What a token makes of a progress, if it is accepted. -/
def Progress.accept (limit : Nat) : Progress → Token → Option Progress
  | .pending (.datum forms), t =>
    match t.form? with
    | some form =>
      if forms.length < limit then some (.pending (.datum (form :: forms))) else none
    | none => (Pending.feed (.datum forms) t).toOption
  | .pending wanted, t => (wanted.feed t).toOption
  | .complete _, _ => none

/-- Accepting the tokens one after the other leads from one progress to the other. -/
def Reads (limit : Nat) (p : Progress) (ts : List Token) (q : Progress) : Prop :=
  ts.foldlM (Progress.accept limit) p = some q

variable {n limit : Nat} {ts us : List Token} {t : Token} {d : Datum} {ds items : List Datum}
  {form : OpenForm} {forms : List OpenForm} {wanted : Pending} {p q r : Progress}
  {e : SyntaxError}

namespace Reads

theorem nil (limit : Nat) (p : Progress) : Reads limit p [] p := rfl

theorem append_iff : Reads limit p (ts ++ us) r ↔ ∃ q, Reads limit p ts q ∧ Reads limit q us r := by
  simp only [Reads, List.foldlM_append, Option.bind_eq_bind, Option.bind_eq_some_iff]

theorem append (h : Reads limit p ts q) (h' : Reads limit q us r) : Reads limit p (ts ++ us) r :=
  append_iff.mpr ⟨q, h, h'⟩

theorem singleton_iff : Reads limit p [t] q ↔ p.accept limit t = some q := by
  simp [Reads]

theorem unique (h : Reads limit p ts q) (h' : Reads limit p ts r) : q = r :=
  Option.some.inj (Eq.trans h.symm h')

theorem of_complete (h : Reads limit (.complete d) ts q) : ts = [] ∧ q = .complete d := by
  cases ts with
  | nil =>
    cases h
    exact ⟨rfl, rfl⟩
  | cons t ts => cases h

theorem opening (ht : t.form? = some form) (hlt : forms.length < limit) :
    Reads limit (.pending (.datum forms)) [t] (.pending (.datum (form :: forms))) := by
  simp [singleton_iff, Progress.accept, ht, hlt]

theorem token (ht : t.form? = none) (hf : wanted.feed t = .ok p) :
    Reads limit (.pending wanted) [t] p := by
  cases wanted <;> simp [singleton_iff, Progress.accept, ht, hf, Except.toOption]

end Reads

theorem Progress.accept_maxNesting (wanted : Pending) (t : Token) :
    accept maxNesting (.pending wanted) t = (wanted.feed t).toOption := by
  cases wanted with
  | close whole forms => rfl
  | datum forms =>
    have hopen : ∀ form, (if forms.length < maxNesting then
        some (Progress.pending (.datum (form :: forms))) else none) =
          (Pending.start form forms).toOption := by
      intro form
      rw [Pending.start]
      split <;> split <;> first | rfl | omega
    cases t with
    | listOpen | vectorOpen | abbreviation mark => exact hopen _
    | _ => rfl

theorem Reads.of_feed (h : wanted.feed t = .ok p) : Reads maxNesting (.pending wanted) [t] p := by
  rw [singleton_iff, Progress.accept_maxNesting, h]
  rfl

/-! From a derivation to what the reader does. -/

mutual

theorem Derives.reads : ∀ {n : Nat} {ts : List Token} {d : Datum}, Derives n ts d →
    ∀ {forms : List OpenForm}, forms.length + n ≤ limit →
      Reads limit (.pending (.datum forms)) ts (.deliver d forms)
  | _, _, _, .atom, _, _ => .token rfl rfl
  | _, _, _, @Derives.list n ts ds hs, forms, h => by
    have hitems := hs.reads .list (fun _ _ _ => rfl) [] (by omega : forms.length + 1 + n ≤ limit)
    have hclose : Reads limit (.pending (.datum (.list (ds.reverse ++ []) :: forms))) [.close]
        (.deliver (.list ds .null) forms) := .token rfl (by simp [Pending.feed])
    exact (Reads.opening rfl (by omega)).append (hitems.append hclose)
  | _, _, _, @Derives.dotted n ts us ds tail hs hne ht, forms, h => by
    have hitems := hs.reads .list (fun _ _ _ => rfl) [] (by omega : forms.length + 1 + n ≤ limit)
    have hdot : Reads limit (.pending (.datum (.list (ds.reverse ++ []) :: forms))) [.dot]
        (.pending (.datum (.dotted ds.reverse :: forms))) := by
      obtain ⟨d, rest, hd⟩ := List.exists_cons_of_ne_nil (List.reverse_ne_nil_iff.mpr hne)
      rw [List.append_nil, hd]
      exact .token rfl rfl
    have hroom : (OpenForm.dotted ds.reverse :: forms).length + n ≤ limit := by
      simp
      omega
    have htail := ht.reads hroom
    have hclose : Reads limit (.deliver tail (.dotted ds.reverse :: forms)) [.close]
        (.deliver (.list ds tail) forms) := .token rfl (by simp [Pending.feed])
    simpa using (Reads.opening rfl (by omega)).append
      (hitems.append (hdot.append (htail.append hclose)))
  | _, _, _, @Derives.vector n ts ds hs, forms, h => by
    have hitems := hs.reads .vector (fun _ _ _ => rfl) [] (by omega : forms.length + 1 + n ≤ limit)
    have hclose : Reads limit (.pending (.datum (.vector (ds.reverse ++ []) :: forms))) [.close]
        (.deliver (.vector ds) forms) := .token rfl (by simp [Pending.feed])
    exact (Reads.opening rfl (by omega)).append (hitems.append hclose)
  | _, _, _, @Derives.abbreviation n mark ts d hd, forms, h => by
    have hoperand := hd.reads
      (by simp; omega : (OpenForm.abbreviation mark :: forms).length + n ≤ limit)
    exact (Reads.opening rfl (by omega)).append hoperand

theorem DerivesAll.reads : ∀ {n : Nat} {ts : List Token} {ds : List Datum}, DerivesAll n ts ds →
    ∀ (form : List Datum → OpenForm), (∀ d items forms, Progress.deliver d (form items :: forms) =
      .pending (.datum (form (d :: items) :: forms))) → ∀ (items : List Datum)
    {forms : List OpenForm}, forms.length + 1 + n ≤ limit →
      Reads limit (.pending (.datum (form items :: forms))) ts
        (.pending (.datum (form (ds.reverse ++ items) :: forms)))
  | _, _, _, .nil, _, _, _, _, _ => .nil _ _
  | _, _, _, @DerivesAll.cons n ts us d ds hd hs, form, hform, items, forms, h => by
    have hitem := hd.reads (by simp; omega : (form items :: forms).length + n ≤ limit)
    have hrest := hs.reads form hform (d :: items) h
    rw [hform] at hitem
    simpa using hitem.append hrest

end

theorem Begins.reads (h : Begins n form ts) (hlt : forms.length + 1 + n ≤ limit) :
    Reads limit (.pending (.datum forms)) ts (.pending (.datum (form :: forms))) := by
  cases h with
  | list hs =>
    have hitems := hs.reads .list (fun _ _ _ => rfl) [] hlt
    simpa using (Reads.opening rfl (by omega)).append hitems
  | vector hs =>
    have hitems := hs.reads .vector (fun _ _ _ => rfl) [] hlt
    simpa using (Reads.opening rfl (by omega)).append hitems
  | @dotted ts items hs hne =>
    have hitems := hs.reads .list (fun _ _ _ => rfl) [] hlt
    have hdot : Reads limit (.pending (.datum (.list items :: forms))) [.dot]
        (.pending (.datum (.dotted items :: forms))) := by
      obtain ⟨d, rest, rfl⟩ := List.exists_cons_of_ne_nil hne
      exact .token rfl rfl
    rw [List.reverse_reverse, List.append_nil] at hitems
    simpa using (Reads.opening rfl (by omega)).append (hitems.append hdot)
  | abbreviation => exact .opening rfl (by omega)

theorem Unclosed.reads (h : Unclosed limit n forms ts) :
    Reads limit (.pending (.datum [])) ts (.pending (.datum forms)) := by
  induction h with
  | nil => exact .nil _ _
  | @cons n form forms ts us hu hb ih =>
    have hlength := hu.add_length
    exact ih.append (hb.reads (by omega))

/-! From what the reader does to a derivation. -/

/-- What the grammar says of tokens that lead to a progress. -/
def After (limit : Nat) : Progress → List Token → Prop
  | .pending (.datum forms), ts => ∃ n, Unclosed limit n forms ts
  | .pending (.close whole forms), ts => ∃ n items tail,
    TailComplete limit n items tail forms ts ∧ whole = .list items.reverse tail
  | .complete d, ts => Derives limit ts d

theorem Unclosed.deliver (h : Unclosed limit n forms ts) (hd : Derives n us d) :
    After limit (.deliver d forms) (ts ++ us) := by
  induction forms generalizing n ts us d with
  | nil =>
    cases h
    exact hd
  | cons form forms ih =>
    rcases h with _ | ⟨hu, hb⟩
    cases hb with
    | list hs =>
      refine ⟨n, ?_⟩
      rw [List.append_assoc]
      exact .cons hu (.list (by simpa using hs.concat hd))
    | vector hs =>
      refine ⟨n, ?_⟩
      rw [List.append_assoc]
      exact .cons hu (.vector (by simpa using hs.concat hd))
    | dotted hs hne => exact ⟨n, _, d, .intro (.cons hu (.dotted hs hne)) hd, rfl⟩
    | abbreviation =>
      rw [List.append_assoc]
      exact ih hu (.abbreviation hd)

theorem TailComplete.deliver {tail : Datum} (h : TailComplete limit n items tail forms ts) :
    After limit (.deliver (.list items.reverse tail) forms) (ts ++ [.close]) := by
  obtain ⟨hu, hd⟩ := h
  rcases hu with _ | ⟨hu, hb⟩
  rcases hb with _ | _ | ⟨hs, hne⟩ | _
  have hwhole := hu.deliver (.dotted hs (List.reverse_ne_nil_iff.mpr hne) hd)
  simpa using hwhole

theorem Unclosed.opened (h : Unclosed limit n forms ts) (hlt : forms.length < limit)
    (hb : ∀ n, Begins n form [t]) :
    After limit (.pending (.datum (form :: forms))) (ts ++ [t]) := by
  have hlength := h.add_length
  obtain ⟨k, rfl⟩ : ∃ k, n = k + 1 := ⟨n - 1, by omega⟩
  exact ⟨k, .cons h (hb k)⟩

theorem Token.begins (h : t.form? = some form) (n : Nat) : Begins n form [t] := by
  cases t <;> cases h
  · exact .list .nil
  · exact .vector .nil
  · exact .abbreviation

theorem After.accept (h : After limit p ts) (ht : p.accept limit t = some q) :
    After limit q (ts ++ [t]) := by
  match p with
  | .complete d => cases ht
  | .pending (.close whole forms) =>
    obtain ⟨n, items, tail, h, rfl⟩ := h
    cases t <;> cases ht
    exact h.deliver
  | .pending (.datum forms) =>
    obtain ⟨n, h⟩ := h
    cases hform : t.form? with
    | some form =>
      simp only [Progress.accept, hform] at ht
      split at ht
      · rename_i hlt
        cases ht
        exact h.opened hlt (Token.begins hform)
      · cases ht
    | none =>
      simp only [Progress.accept, hform] at ht
      cases t with
      | listOpen | vectorOpen | abbreviation mark => cases hform
      | atom a =>
        cases ht
        exact h.deliver .atom
      | close =>
        match forms, h with
        | .list items :: forms, .cons hu (.list hs) =>
          cases ht
          simpa using hu.deliver (.list hs)
        | .vector items :: forms, .cons hu (.vector hs) =>
          cases ht
          simpa using hu.deliver (.vector hs)
      | dot =>
        match forms, h with
        | .list (d :: items) :: forms, .cons hu (.list hs) =>
          cases ht
          refine ⟨n, ?_⟩
          rw [List.append_assoc]
          exact .cons hu (.dotted hs (List.cons_ne_nil d items))

theorem After.reads (h : After limit p ts) : Reads limit (.pending (.datum [])) ts p := by
  match p with
  | .complete d => exact Derives.reads h (by simp)
  | .pending (.datum forms) =>
    obtain ⟨n, h⟩ := h
    exact h.reads
  | .pending (.close whole forms) =>
    obtain ⟨n, items, tail, ⟨hu, hd⟩, rfl⟩ := h
    have hlength := hu.add_length
    exact hu.reads.append (hd.reads (by omega))

theorem After.of_reads (h : After limit p ts) (hr : Reads limit p us q) :
    After limit q (ts ++ us) := by
  induction us generalizing ts p with
  | nil =>
    cases hr
    simpa using h
  | cons t us ih =>
    obtain ⟨p', hp, hr⟩ := (@Reads.append_iff limit [t] us p q).mp hr
    simpa using ih (h.accept (Reads.singleton_iff.mp hp)) hr

/-- The reader comes to a progress exactly if the grammar says so of the tokens. -/
theorem reads_iff_after : Reads limit (.pending (.datum [])) ts p ↔ After limit p ts := by
  refine ⟨fun h => ?_, After.reads⟩
  have hstart : After limit (.pending (.datum [])) [] := ⟨limit, .nil⟩
  exact hstart.of_reads h

theorem After.add (h : After limit p ts) (k : Nat) : After (limit + k) p ts := by
  match p with
  | .complete d => exact Derives.mono h (Nat.le_add_right limit k)
  | .pending (.datum forms) =>
    obtain ⟨n, h⟩ := h
    exact ⟨n + k, h.add k⟩
  | .pending (.close whole forms) =>
    obtain ⟨n, items, tail, h, rfl⟩ := h
    exact ⟨n + k, items, tail, h.add k, rfl⟩

theorem reads_complete_iff :
    Reads limit (.pending (.datum [])) ts (.complete d) ↔ Derives limit ts d := reads_iff_after

theorem after_nil_iff : After limit (.pending (.datum [])) ts ↔ ts = [] := by
  constructor
  · rintro ⟨n, ⟨⟩⟩
    rfl
  · rintro rfl
    exact ⟨limit, .nil⟩

theorem After.starts (h : After limit (.pending wanted) ts) : ∃ t, Starts limit (ts ++ [t]) := by
  cases wanted with
  | datum forms =>
    obtain ⟨n, hu⟩ := h
    exact ⟨_, hu.starts (.atom (a := .boolean true))⟩
  | close whole forms =>
    obtain ⟨n, items, tail, ht, -⟩ := h
    exact ⟨_, ht.starts⟩

/-- A token is accepted exactly if some datum goes on with it. -/
theorem After.accept_iff (h : After limit p ts) :
    (∃ q, p.accept limit t = some q) ↔ Starts limit (ts ++ [t]) := by
  constructor
  · rintro ⟨q, hq⟩
    have hafter := h.accept hq
    match q with
    | .complete d => exact ⟨[], d, by rwa [List.append_nil]⟩
    | .pending wanted =>
      obtain ⟨u, more, d, hd⟩ := hafter.starts
      exact ⟨u :: more, d, by simpa using hd⟩
  · rintro ⟨more, d, hd⟩
    obtain ⟨q, hq, -⟩ := Reads.append_iff.mp (reads_complete_iff.mpr hd)
    obtain ⟨p', hp, hq⟩ := Reads.append_iff.mp hq
    cases hp.unique h.reads
    exact ⟨q, Reads.singleton_iff.mp hq⟩

theorem after_pending_iff :
    (∃ wanted, After limit (.pending wanted) ts) ↔ ∃ t, Starts limit (ts ++ [t]) := by
  constructor
  · rintro ⟨wanted, h⟩
    exact h.starts
  · rintro ⟨t, more, d, hd⟩
    obtain ⟨q, hq, -⟩ := Reads.append_iff.mp (reads_complete_iff.mpr hd)
    obtain ⟨p, hp, hq⟩ := Reads.append_iff.mp hq
    cases p with
    | pending wanted => exact ⟨wanted, reads_iff_after.mp hp⟩
    | complete d =>
      have hnil := hq.of_complete.1
      cases hnil

end SmallScheme
