import SmallScheme.Datum.Reader

/-! # The grammar of data

Which tokens make up which datum, with a bound on the forms that are open at once. Tokens that end
inside a datum leave forms unclosed: each has begun with an opening token and some complete items,
perhaps a dot, and the next one has begun inside it. Whatever is unclosed can be completed.
-/

namespace SmallScheme

mutual

/-- The tokens are a datum in which at most `n` forms are open at once. -/
inductive Derives : Nat → List Token → Datum → Prop

  | atom {n : Nat} {a : Atom} : Derives n [.atom a] (.atom a)

  | list {n : Nat} {ts : List Token} {ds : List Datum} : DerivesAll n ts ds →
      Derives (n + 1) (.listOpen :: ts ++ [.close]) (.list ds .null)

  | dotted {n : Nat} {ts us : List Token} {ds : List Datum} {tail : Datum} :
      DerivesAll n ts ds → ds ≠ [] → Derives n us tail →
      Derives (n + 1) (.listOpen :: ts ++ .dot :: us ++ [.close]) (.list ds tail)

  | vector {n : Nat} {ts : List Token} {ds : List Datum} : DerivesAll n ts ds →
      Derives (n + 1) (.vectorOpen :: ts ++ [.close]) (.vector ds)

  | abbreviation {n : Nat} {mark : Abbreviation} {ts : List Token} {d : Datum} :
      Derives n ts d → Derives (n + 1) (.abbreviation mark :: ts) (.abbreviated mark d)

inductive DerivesAll : Nat → List Token → List Datum → Prop

  | nil {n : Nat} : DerivesAll n [] []

  | cons {n : Nat} {ts us : List Token} {d : Datum} {ds : List Datum} : Derives n ts d →
      DerivesAll n us ds → DerivesAll n (ts ++ us) (d :: ds)

end

variable {m n limit : Nat} {ts us : List Token} {d : Datum} {ds : List Datum}
  {form : OpenForm} {forms : List OpenForm}

mutual

theorem Derives.mono : ∀ {m n : Nat} {ts : List Token} {d : Datum}, Derives m ts d → m ≤ n →
    Derives n ts d
  | _, _, _, _, .atom, _ => .atom
  | _, _ + 1, _, _, .list hs, h => .list (hs.mono (Nat.le_of_succ_le_succ h))
  | _, _ + 1, _, _, .dotted hs hne ht, h =>
    .dotted (hs.mono (Nat.le_of_succ_le_succ h)) hne (ht.mono (Nat.le_of_succ_le_succ h))
  | _, _ + 1, _, _, .vector hs, h => .vector (hs.mono (Nat.le_of_succ_le_succ h))
  | _, _ + 1, _, _, .abbreviation hd, h => .abbreviation (hd.mono (Nat.le_of_succ_le_succ h))

theorem DerivesAll.mono : ∀ {m n : Nat} {ts : List Token} {ds : List Datum},
    DerivesAll m ts ds → m ≤ n → DerivesAll n ts ds
  | _, _, _, _, .nil, _ => .nil
  | _, _, _, _, .cons hd hs, h => .cons (hd.mono h) (hs.mono h)

end

theorem DerivesAll.append {es : List Datum} (h : DerivesAll n ts ds) (h' : DerivesAll n us es) :
    DerivesAll n (ts ++ us) (ds ++ es) := by
  induction ds generalizing ts with
  | nil =>
    cases h
    exact h'
  | cons d ds ih =>
    rcases h with _ | ⟨hd, hs⟩
    rw [List.append_assoc]
    exact .cons hd (ih hs)

theorem DerivesAll.concat (h : DerivesAll n ts ds) (hd : Derives n us d) :
    DerivesAll n (ts ++ us) (ds ++ [d]) := by
  have hone : DerivesAll n (us ++ []) [d] := .cons hd .nil
  rw [List.append_nil] at hone
  exact h.append hone

def Starts (limit : Nat) (ts : List Token) : Prop := ∃ more d, Derives limit (ts ++ more) d

/-- The tokens are a form up to where it is still open. -/
inductive Begins (n : Nat) : OpenForm → List Token → Prop

  | list {ts : List Token} {items : List Datum} : DerivesAll n ts items.reverse →
      Begins n (.list items) (.listOpen :: ts)

  | vector {ts : List Token} {items : List Datum} : DerivesAll n ts items.reverse →
      Begins n (.vector items) (.vectorOpen :: ts)

  | dotted {ts : List Token} {items : List Datum} : DerivesAll n ts items.reverse → items ≠ [] →
      Begins n (.dotted items) (.listOpen :: ts ++ [.dot])

  | abbreviation {mark : Abbreviation} : Begins n (.abbreviation mark) [.abbreviation mark]

theorem Begins.mono (h : Begins m form ts) (hmn : m ≤ n) : Begins n form ts := by
  cases h with
  | list hs => exact .list (hs.mono hmn)
  | vector hs => exact .vector (hs.mono hmn)
  | dotted hs hne => exact .dotted (hs.mono hmn) hne
  | abbreviation => exact .abbreviation

/-- The tokens leave these forms open, innermost first, and `n` more may be opened. -/
inductive Unclosed (limit : Nat) : Nat → List OpenForm → List Token → Prop

  | nil : Unclosed limit limit [] []

  | cons {n : Nat} {form : OpenForm} {forms : List OpenForm} {ts us : List Token} :
      Unclosed limit (n + 1) forms ts → Begins n form us →
      Unclosed limit n (form :: forms) (ts ++ us)

/-- The tokens end with the datum behind the dot of a list that they leave open. -/
inductive TailComplete (limit : Nat) : Nat → List Datum → Datum → List OpenForm → List Token → Prop

  | intro {n : Nat} {items : List Datum} {tail : Datum} {forms : List OpenForm}
      {ts us : List Token} : Unclosed limit n (.dotted items :: forms) ts → Derives n us tail →
      TailComplete limit n items tail forms (ts ++ us)

theorem Unclosed.add_length (h : Unclosed limit n forms ts) : n + forms.length = limit := by
  induction h with
  | nil => rfl
  | cons _ _ ih =>
    rw [List.length_cons]
    omega

theorem Unclosed.add (h : Unclosed limit n forms ts) (k : Nat) :
    Unclosed (limit + k) (n + k) forms ts := by
  induction h with
  | nil => exact .nil
  | @cons n form forms ts us _ hb ih =>
    rw [Nat.add_right_comm] at ih
    exact .cons ih (hb.mono (Nat.le_add_right n k))

theorem TailComplete.add {items : List Datum} {tail : Datum}
    (h : TailComplete limit n items tail forms ts) (k : Nat) :
    TailComplete (limit + k) (n + k) items tail forms ts := by
  obtain ⟨hu, hd⟩ := h
  exact .intro (hu.add k) (hd.mono (Nat.le_add_right n k))

theorem Unclosed.starts (h : Unclosed limit n forms ts) :
    ∀ {us : List Token} {d : Datum}, Derives n us d → Starts limit (ts ++ us) := by
  induction h with
  | nil =>
    intro us d hd
    exact ⟨[], d, by simpa using hd⟩
  | @cons n form forms ts bs _ hb ih =>
    intro us d hd
    cases hb with
    | list hs =>
      obtain ⟨more, e, he⟩ := ih (.list (hs.concat hd))
      exact ⟨.close :: more, e, by simpa using he⟩
    | vector hs =>
      obtain ⟨more, e, he⟩ := ih (.vector (hs.concat hd))
      exact ⟨.close :: more, e, by simpa using he⟩
    | dotted hs hne =>
      obtain ⟨more, e, he⟩ := ih (.dotted hs (List.reverse_ne_nil_iff.mpr hne) hd)
      exact ⟨.close :: more, e, by simpa using he⟩
    | abbreviation =>
      obtain ⟨more, e, he⟩ := ih (.abbreviation hd)
      exact ⟨more, e, by simpa using he⟩

theorem TailComplete.starts {items : List Datum} {tail : Datum}
    (h : TailComplete limit n items tail forms ts) : Starts limit (ts ++ [.close]) := by
  obtain ⟨hu, hd⟩ := h
  rcases hu with _ | ⟨hu, hb⟩
  rcases hb with _ | _ | ⟨hs, hne⟩ | _
  obtain ⟨more, e, he⟩ := hu.starts (.dotted hs (List.reverse_ne_nil_iff.mpr hne) hd)
  exact ⟨more, e, by simpa using he⟩

end SmallScheme
