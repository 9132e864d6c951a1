import SmallScheme.Proofs.Datum.Reading

/-! # What a call of the reader answers

The tokens that a scanner supplies decide what the next datum is. If they start with a datum it is
answered and nothing behind it is looked at; if they are no beginning of a datum, the first token
that no derivation goes on with is to blame; and otherwise the text ends too early.
-/

namespace SmallScheme

/-- The next answers of the scanner are these tokens. -/
inductive Scanner.Supplies : Scanner → List Token → Scanner → Prop

  | nil {s : Scanner} : Supplies s [] s

  | cons {s s₁ s₂ : Scanner} {t : Token} {ts : List Token} : s.next = (some (.ok t), s₁) →
      Supplies s₁ ts s₂ → Supplies s (t :: ts) s₂

/-- Why a token cannot come behind these tokens. -/
inductive Refused (before : List Token) : Token → SyntaxError → Prop

  /-- As many forms are open as may be, and otherwise another could be opened. -/
  | tooDeep {n : Nat} {t : Token} {form : OpenForm} {forms : List OpenForm} :
      t.form? = some form → Unclosed maxNesting n forms before → forms.length = maxNesting →
      (∃ m, Starts m (before ++ [t])) → Refused before t (.nestingTooDeep maxNesting)

  /-- The datum behind a dot is complete. -/
  | expectedClose {n : Nat} {t : Token} {items : List Datum} {tail : Datum}
      {forms : List OpenForm} : TailComplete maxNesting n items tail forms before → t ≠ .close →
      Refused before t (.expectedClose t)

  /-- An end or a dot has no place here, however many forms may be open. -/
  | unexpected {t : Token} : t = .close ∨ t = .dot →
      (∀ n items tail forms, ¬ TailComplete maxNesting n items tail forms before) →
      (∀ m, ¬ Starts m (before ++ [t])) → Refused before t (.unexpectedToken t)

variable {limit : Nat} {ts us before : List Token} {t : Token} {d : Datum} {wanted : Pending}
  {p q : Progress} {e : SyntaxError} {s s' s₁ : Scanner}

theorem Pending.feed_error_cases (h : wanted.feed t = .error e) :
    (∃ form forms, wanted = .datum forms ∧ t.form? = some form ∧ maxNesting ≤ forms.length ∧
      e = .nestingTooDeep maxNesting) ∨
    (∃ whole forms, wanted = .close whole forms ∧ t ≠ .close ∧ e = .expectedClose t) ∨
    ∃ forms, wanted = .datum forms ∧ (t = .close ∨ t = .dot) ∧ e = .unexpectedToken t := by
  have hopen : ∀ form forms, Pending.start form forms = .error e →
      maxNesting ≤ forms.length ∧ e = .nestingTooDeep maxNesting := by
    intro form forms h
    rw [Pending.start] at h
    split at h <;> cases h
    exact ⟨‹_›, rfl⟩
  cases wanted with
  | close whole forms =>
    have ht : t ≠ .close := by
      rintro rfl
      cases h
    refine .inr (.inl ⟨whole, forms, rfl, ht, ?_⟩)
    cases t <;> cases h <;> rfl
  | datum forms =>
    cases t with
    | atom a => cases h
    | listOpen | vectorOpen | abbreviation mark =>
      obtain ⟨hle, rfl⟩ := hopen _ forms h
      exact .inl ⟨_, forms, rfl, rfl, hle, rfl⟩
    | close =>
      refine .inr (.inr ⟨forms, rfl, .inl rfl, ?_⟩)
      rcases forms with _ | ⟨form, forms⟩
      · cases h
        rfl
      · cases form <;> cases h <;> rfl
    | dot =>
      refine .inr (.inr ⟨forms, rfl, .inr rfl, ?_⟩)
      rcases forms with _ | ⟨form, forms⟩
      · cases h
        rfl
      · cases form with
        | list items =>
          cases items <;> cases h
          rfl
        | _ =>
          cases h
          rfl

theorem Pending.accept_of_feed_error (ht : t.form? = none) (hf : wanted.feed t = .error e)
    (limit : Nat) : Progress.accept limit (.pending wanted) t = none := by
  cases wanted <;> simp [Progress.accept, ht, hf, Except.toOption]

/-- The reader refuses a token exactly if no derivation goes on with it, for the grammar's reason.
-/
theorem refused_iff (h : After maxNesting (.pending wanted) before) :
    ¬ Starts maxNesting (before ++ [t]) ∧ Refused before t e ↔ wanted.feed t = .error e := by
  have haccept := h.accept_iff (t := t)
  rw [Progress.accept_maxNesting] at haccept
  constructor
  · rintro ⟨hnone, hrefused⟩
    cases hrefused with
    | @tooDeep _ _ form forms ht hu hlength _ =>
      cases h.reads.unique hu.reads
      cases t <;> cases ht <;> simp [Pending.feed, Pending.start, hlength]
    | @expectedClose _ _ items tail forms hc ht =>
      have hclose : After maxNesting (.pending (.close (.list items.reverse tail) forms)) before :=
        ⟨_, items, tail, hc, rfl⟩
      cases h.reads.unique hclose.reads
      cases t <;> first | rfl | exact (ht rfl).elim
    | unexpected ht hc _ =>
      cases hf : wanted.feed t with
      | ok p => exact (hnone (haccept.mp ⟨p, by rw [hf]; rfl⟩)).elim
      | error e' =>
        rcases Pending.feed_error_cases hf with
          ⟨form, _, -, hform, -⟩ | ⟨whole, forms, rfl, -, -⟩ | ⟨_, -, -, rfl⟩
        · rcases ht with rfl | rfl <;> cases hform
        · obtain ⟨n, items, tail, htail, -⟩ := h
          exact (hc n items tail forms htail).elim
        · rfl
  · intro hf
    refine ⟨fun hstarts => ?_, ?_⟩
    · obtain ⟨q, hq⟩ := haccept.mpr hstarts
      rw [hf] at hq
      cases hq
    · rcases Pending.feed_error_cases hf with
        ⟨form, forms, rfl, hform, hle, rfl⟩ | ⟨whole, forms, rfl, ht, rfl⟩ | ⟨forms, rfl, ht, rfl⟩
      · obtain ⟨n, hu⟩ := h
        have hlength := hu.add_length
        have hopen : After (maxNesting + 1) (.pending (.datum forms)) before := ⟨n + 1, hu.add 1⟩
        have hfree : ∃ q, Progress.accept (maxNesting + 1) (.pending (.datum forms)) t = some q :=
          ⟨_, Reads.singleton_iff.mp (.opening hform (by omega))⟩
        exact .tooDeep hform hu (by omega) ⟨_, hopen.accept_iff.mp hfree⟩
      · obtain ⟨n, items, tail, htail, -⟩ := h
        exact .expectedClose htail ht
      · refine .unexpected ht (fun n items tail forms' htail => ?_) ?_
        · have hclose : After maxNesting (.pending (.close (.list items.reverse tail) forms'))
              before := ⟨n, items, tail, htail, rfl⟩
          cases h.reads.unique hclose.reads
        · rintro m ⟨more, d, hd⟩
          have hform : t.form? = none := by
            rcases ht with rfl | rfl <;> rfl
          obtain ⟨q, hq⟩ := (h.add m).accept_iff.mpr ⟨more, d, hd.mono (Nat.le_add_left m _)⟩
          rw [Pending.accept_of_feed_error hform hf] at hq
          cases hq

/-! From tokens to the answers of a scanner. -/

namespace Scanner.Supplies

theorem append_iff {last : Scanner} : s.Supplies (ts ++ us) last ↔
    ∃ middle, s.Supplies ts middle ∧ middle.Supplies us last := by
  induction ts generalizing s with
  | nil =>
    constructor
    · intro h
      exact ⟨s, .nil, h⟩
    · rintro ⟨middle, ⟨⟩, h⟩
      exact h
  | cons t ts ih =>
    constructor
    · rintro (_ | ⟨hnext, h⟩)
      obtain ⟨middle, hts, hus⟩ := ih.mp h
      exact ⟨middle, .cons hnext hts, hus⟩
    · rintro ⟨middle, _ | ⟨hnext, hts⟩, hus⟩
      exact .cons hnext (ih.mpr ⟨middle, hts, hus⟩)

end Scanner.Supplies

theorem Scanner.Supplies.next_of_reads (h : s.Supplies ts s₁) :
    ∀ {wanted : Pending}, Reads maxNesting (.pending wanted) ts p → wanted.next s =
      match p with
      | .complete d => (some (.ok d), s₁)
      | .pending wanted => wanted.next s₁ := by
  induction h with
  | nil =>
    intro wanted hr
    cases hr
    rfl
  | @cons s s₁ s₂ t ts hnext hs ih =>
    intro wanted hr
    obtain ⟨q, hq, hr⟩ := (@Reads.append_iff maxNesting [t] ts (.pending wanted) p).mp hr
    rw [Reads.singleton_iff, Progress.accept_maxNesting] at hq
    rw [Pending.next_of_token hnext]
    cases hf : wanted.feed t with
    | error e =>
      rw [hf] at hq
      cases hq
    | ok q' =>
      rw [hf] at hq
      cases hq
      cases q with
      | pending next => exact ih hr
      | complete d =>
        obtain ⟨rfl, rfl⟩ := hr.of_complete
        cases hs
        rfl

/-- Either the tokens start with a datum, or one of them is refused, or more is waited for. -/
theorem reads_cases (wanted : Pending) (ts : List Token) :
    (∃ used rest d, ts = used ++ rest ∧
      Reads maxNesting (.pending wanted) used (.complete d)) ∨
    (∃ before t after next e, ts = before ++ t :: after ∧
      Reads maxNesting (.pending wanted) before (.pending next) ∧ next.feed t = .error e) ∨
    ∃ next, Reads maxNesting (.pending wanted) ts (.pending next) := by
  induction ts generalizing wanted with
  | nil => exact .inr (.inr ⟨wanted, .nil _ _⟩)
  | cons t ts ih =>
    cases hf : wanted.feed t with
    | error e => exact .inr (.inl ⟨[], t, ts, wanted, e, rfl, .nil _ _, hf⟩)
    | ok p =>
      have ht : Reads maxNesting (.pending wanted) [t] p := .of_feed hf
      cases p with
      | complete d => exact .inl ⟨[t], ts, d, rfl, ht⟩
      | pending next =>
        rcases ih next with ⟨used, rest, d, rfl, hr⟩ | ⟨before, u, after, last, e, rfl, hr, hu⟩ |
          ⟨last, hr⟩
        · exact .inl ⟨t :: used, rest, d, rfl, ht.append hr⟩
        · exact .inr (.inl ⟨t :: before, u, after, last, e, rfl, ht.append hr, hu⟩)
        · exact .inr (.inr ⟨last, ht.append hr⟩)

namespace Scanner

variable {last : Scanner}

theorem nextDatum_of_derives (h : s.Supplies ts s₁) (hd : Derives maxNesting ts d) :
    s.nextDatum = (some (.ok d), s₁) :=
  h.next_of_reads (reads_complete_iff.mpr hd)

theorem nextDatum_of_refused (h : s.Supplies (before ++ [t]) s₁)
    (hmore : ∃ u, Starts maxNesting (before ++ [u])) (hnone : ¬ Starts maxNesting (before ++ [t]))
    (he : Refused before t e) : s.nextDatum = (some (.error e), s₁) := by
  obtain ⟨wanted, hafter⟩ := after_pending_iff.mpr hmore
  have hf := (refused_iff hafter).mp ⟨hnone, he⟩
  obtain ⟨middle, hbefore, ht⟩ := Supplies.append_iff.mp h
  rcases ht with _ | ⟨hnext, ⟨⟩⟩
  have hdatum := hbefore.next_of_reads hafter.reads
  rw [nextDatum, hdatum]
  simp only [Pending.next_of_token hnext, hf]

theorem nextDatum_of_end (h : s.Supplies ts last) (hlast : last.next.1 = none)
    (hmore : ∃ u, Starts maxNesting (ts ++ [u])) : s.nextDatum =
      (if ts = [] then none else some (.error .unexpectedEnd), last.next.2) := by
  obtain ⟨wanted, hafter⟩ := after_pending_iff.mpr hmore
  have hnext : last.next = (none, last.next.2) := Prod.ext hlast rfl
  have hdatum := h.next_of_reads hafter.reads
  rw [nextDatum, hdatum]
  simp only [Pending.next_of_end hnext]
  split
  · rw [if_pos (after_nil_iff.mp hafter)]
  · rename_i hne
    rw [if_neg]
    rintro rfl
    cases hafter.reads
    exact hne rfl

theorem nextDatum_cases (h : s.Supplies ts last) (hlast : last.next.1 = none) :
    (∃ used rest d s', ts = used ++ rest ∧ s.Supplies used s' ∧ Derives maxNesting used d ∧
      s.nextDatum = (some (.ok d), s')) ∨
    (∃ before t after e s', ts = before ++ t :: after ∧ s.Supplies (before ++ [t]) s' ∧
      (∃ u, Starts maxNesting (before ++ [u])) ∧ ¬ Starts maxNesting (before ++ [t]) ∧
      Refused before t e ∧ s.nextDatum = (some (.error e), s')) ∨
    (∃ u, Starts maxNesting (ts ++ [u])) ∧
      s.nextDatum = (if ts = [] then none else some (.error .unexpectedEnd), last.next.2) := by
  rcases reads_cases (.datum []) ts with ⟨used, rest, d, rfl, hr⟩ |
    ⟨before, t, after, wanted, e, rfl, hr, hf⟩ | ⟨wanted, hr⟩
  · obtain ⟨s', hused, -⟩ := Supplies.append_iff.mp h
    have hd := reads_complete_iff.mp hr
    exact .inl ⟨used, rest, d, s', rfl, hused, hd, nextDatum_of_derives hused hd⟩
  · have hsplit : before ++ t :: after = before ++ [t] ++ after := by simp
    obtain ⟨s', hused, -⟩ := Supplies.append_iff.mp (hsplit ▸ h)
    have hafter := reads_iff_after.mp hr
    have hmore := after_pending_iff.mp ⟨wanted, hafter⟩
    obtain ⟨hnone, he⟩ := (refused_iff hafter).mpr hf
    exact .inr (.inl ⟨before, t, after, e, s', rfl, hused, hmore, hnone, he,
      nextDatum_of_refused hused hmore hnone he⟩)
  · have hmore := after_pending_iff.mp ⟨wanted, reads_iff_after.mp hr⟩
    exact .inr (.inr ⟨hmore, nextDatum_of_end h hlast hmore⟩)

theorem nextDatum_eq_datum_iff (h : s.Supplies ts last) (hlast : last.next.1 = none) :
    s.nextDatum = (some (.ok d), s') ↔
      ∃ used rest, ts = used ++ rest ∧ s.Supplies used s' ∧ Derives maxNesting used d := by
  constructor
  · intro hd
    rcases nextDatum_cases h hlast with ⟨used, rest, d', s'', hts, hused, hd', heq⟩ |
      ⟨before, t, after, e, s'', -, -, -, -, -, heq⟩ | ⟨-, heq⟩
    · cases hd.symm.trans heq
      exact ⟨used, rest, hts, hused, hd'⟩
    · cases hd.symm.trans heq
    · split at heq <;> cases hd.symm.trans heq
  · rintro ⟨used, rest, -, hused, hd⟩
    exact nextDatum_of_derives hused hd

theorem nextDatum_eq_none_iff (h : s.Supplies ts last) (hlast : last.next.1 = none) :
    s.nextDatum.1 = none ↔ ts = [] := by
  constructor
  · intro hn
    rcases nextDatum_cases h hlast with ⟨used, rest, d, s'', -, -, -, heq⟩ |
      ⟨before, t, after, e, s'', -, -, -, -, -, heq⟩ | ⟨-, heq⟩ <;> rw [heq] at hn
    · cases hn
    · cases hn
    · by_cases hts : ts = []
      · exact hts
      · rw [if_neg hts] at hn
        cases hn
  · rintro rfl
    rw [nextDatum_of_end h hlast (after_pending_iff.mp ⟨_, after_nil_iff.mpr rfl⟩)]
    rfl

theorem nextDatum_eq_error_iff (h : s.Supplies ts last) (hlast : last.next.1 = none) :
    s.nextDatum = (some (.error e), s') ↔
      (∃ before t after, ts = before ++ t :: after ∧ s.Supplies (before ++ [t]) s' ∧
        (∃ u, Starts maxNesting (before ++ [u])) ∧ ¬ Starts maxNesting (before ++ [t]) ∧
        Refused before t e) ∨
      ts ≠ [] ∧ (∃ u, Starts maxNesting (ts ++ [u])) ∧ e = .unexpectedEnd ∧
        s' = last.next.2 := by
  constructor
  · intro he
    rcases nextDatum_cases h hlast with ⟨used, rest, d, s'', -, -, -, heq⟩ |
      ⟨before, t, after, e', s'', hts, hused, hmore, hnone, he', heq⟩ | ⟨hmore, heq⟩
    · cases he.symm.trans heq
    · cases he.symm.trans heq
      exact .inl ⟨before, t, after, hts, hused, hmore, hnone, he'⟩
    · split at heq <;> cases he.symm.trans heq
      exact .inr ⟨‹_›, hmore, rfl, rfl⟩
  · rintro (⟨before, t, after, -, hused, hmore, hnone, he⟩ | ⟨hne, hmore, rfl, rfl⟩)
    · exact nextDatum_of_refused hused hmore hnone he
    · rw [nextDatum_of_end h hlast hmore, if_neg hne]

/-- The reader answers the datum that tokens derive, or fails at the first token that no derivation
goes on with. -/
theorem nextDatum_follows_grammar (h : s.Supplies ts last) (hlast : last.next.1 = none) :
    (∀ d s', s.nextDatum = (some (.ok d), s') ↔
      ∃ used rest, ts = used ++ rest ∧ s.Supplies used s' ∧ Derives maxNesting used d) ∧
    (s.nextDatum.1 = none ↔ ts = []) ∧
    ∀ e s', s.nextDatum = (some (.error e), s') ↔
      (∃ before t after, ts = before ++ t :: after ∧ s.Supplies (before ++ [t]) s' ∧
        (∃ u, Starts maxNesting (before ++ [u])) ∧ ¬ Starts maxNesting (before ++ [t]) ∧
        Refused before t e) ∨
      ts ≠ [] ∧ (∃ u, Starts maxNesting (ts ++ [u])) ∧ e = .unexpectedEnd ∧
        s' = last.next.2 :=
  ⟨fun _ _ => nextDatum_eq_datum_iff h hlast, nextDatum_eq_none_iff h hlast,
    fun _ _ => nextDatum_eq_error_iff h hlast⟩

theorem nextDatum_follows_grammar_marks :
    let s := Scanner.ofString "'#t '."
    let s' : Scanner := ⟨[' ', '\'', '.'], 0, ⟨1, 4⟩⟩
    let last : Scanner := ⟨[], 0, ⟨1, 7⟩⟩
    let first := [.abbreviation .quote, .atom (.boolean true)]
    let second := [.abbreviation .quote, .dot]
    s.Supplies (first ++ second) last ∧ s'.Supplies second last ∧ last.next.1 = none ∧
      s.nextDatum = (some (.ok (.abbreviated .quote (.atom (.boolean true)))), s') ∧
      s'.nextDatum = (some (.error (.unexpectedToken .dot)), last) := by
  intro s s' last first second
  have hopen : s.next = (some (.ok (.abbreviation .quote)), ⟨"#t '.".toList, 0, ⟨1, 2⟩⟩) := rfl
  have hopen' : s'.next = (some (.ok (.abbreviation .quote)), ⟨['.'], 0, ⟨1, 6⟩⟩) := rfl
  have hfirst : s.Supplies first s' := .cons hopen (.cons rfl .nil)
  have hsecond : s'.Supplies second last := .cons hopen' (.cons rfl .nil)
  have hboth := Supplies.append_iff.mpr ⟨s', hfirst, hsecond⟩
  have hmark : After maxNesting (.pending (.datum [.abbreviation .quote])) [.abbreviation .quote] :=
    ⟨511, .cons .nil .abbreviation⟩
  have hnone : ∀ m, ¬ Starts m ([.abbreviation .quote] ++ [.dot]) := by
    rintro m ⟨more, d, _ | _ | _ | _ | ⟨⟨⟩⟩⟩
  have htail : ∀ n items tail forms,
      ¬ TailComplete maxNesting n items tail forms [.abbreviation .quote] := by
    intro n items tail forms h
    have hclose : After maxNesting (.pending (.close (.list items.reverse tail) forms))
        [.abbreviation .quote] := ⟨n, items, tail, h, rfl⟩
    cases hmark.reads.unique hclose.reads
  refine ⟨hboth, hsecond, rfl, ?_, ?_⟩
  · exact ((nextDatum_follows_grammar hboth rfl).1 _ s').mpr
      ⟨first, second, rfl, hfirst, .abbreviation .atom⟩
  · exact ((nextDatum_follows_grammar hsecond rfl).2.2 _ last).mpr (.inl ⟨[.abbreviation .quote],
      .dot, [], rfl, hsecond, hmark.starts, hnone _, .unexpected (.inr rfl) htail hnone⟩)

end Scanner

end SmallScheme
