import SmallScheme.Datum.Reader
import SmallScheme.Proofs.Datum.Load
import SmallScheme.Proofs.Store.External
import SmallScheme.Proofs.Token.Written

/-! # Reading undoes writing

The reader is followed along the written form of a tree: behind the text of each part it stands
where the part has been handed to the forms that were open before it. The nesting of the written
form is how many more forms are open at once.
-/

namespace SmallScheme

namespace Tree

mutual

/-- How many forms are open at once when the external representation is read. -/
def nesting : Tree → Nat
  | leaf .null => 1
  | leaf _ => 0
  | pair car cdr =>
    match abbreviation? car cdr with
    | some _ => cdr.headNesting + 1
    | none => max car.nesting cdr.tailNesting + 1
  | vector items => nestingAll items + 1

def headNesting : Tree → Nat
  | pair car _ => car.nesting
  | _ => 0

def tailNesting : Tree → Nat
  | leaf _ => 0
  | pair car cdr => max car.nesting cdr.tailNesting
  | vector items => nestingAll items + 1

def nestingAll : List Tree → Nat
  | [] => 0
  | t :: rest => max t.nesting (nestingAll rest)

end

end Tree

namespace Datum

mutual

/-- All atoms of the datum can be read. -/
def Readable : Datum → Prop
  | atom value => value.Readable
  | null => True
  | pair car cdr => car.Readable ∧ cdr.Readable
  | vector items => AllReadable items

def AllReadable : List Datum → Prop
  | [] => True
  | d :: rest => d.Readable ∧ AllReadable rest

end

end Datum

def Progress.resume : Progress → Scanner → Option (Except SyntaxError Datum) × Scanner
  | .pending wanted, s => wanted.next s
  | .complete d, s => (some (.ok d), s)

/-- Reading that text comes to this progress and leaves this rest. -/
def Feeds (wanted : Pending) (text : List Char) (p : Progress) (rest : List Char) : Prop :=
  ∀ s : Scanner, skipped s.unread = skipped text →
    ∃ s' : Scanner, s'.unread = rest ∧ wanted.next s = p.resume s'

namespace Feeds

variable {wanted next : Pending} {text rest more : List Char} {p : Progress} {token : Token}

theorem of_token (h : Scans text token rest) (hf : wanted.feed token = .ok p) :
    Feeds wanted text p rest := by
  intro s hs
  rw [h.skipped_eq] at hs
  obtain ⟨s', hnext, hrest⟩ := Scanner.next_of_scans h hs
  refine ⟨s', hrest, ?_⟩
  rw [Pending.next_of_token hnext, hf]
  cases p <;> rfl

theorem trans (h : Feeds wanted text (.pending next) rest) (h' : Feeds next rest p more) :
    Feeds wanted text p more := by
  intro s hs
  obtain ⟨s₁, h₁, hs₁⟩ := h s hs
  obtain ⟨s₂, h₂, hs₂⟩ := h' s₁ (by rw [h₁])
  exact ⟨s₂, h₂, hs₁.trans hs₂⟩

theorem space (h : Feeds wanted text p rest) : Feeds wanted (' ' :: text) p rest := by
  intro s hs
  exact h s (hs.trans (skipped_blank rfl (by decide)))

end Feeds

variable {forms : List OpenForm} {rest : List Char} {d item : Datum} {items : List Datum}

theorem Feeds.opening {form : OpenForm} {token : Token} {text : List Char}
    (hf : (Pending.datum forms).feed token = Pending.start form forms)
    (hs : Scans text token rest) (hlt : forms.length < maxNesting) :
    Feeds (.datum forms) text (.pending (.datum (form :: forms))) rest := by
  refine .of_token hs (hf.trans ?_)
  rw [Pending.start, if_neg (Nat.not_le_of_lt hlt)]

namespace Datum

theorem tailText_atom (style : Style) (a : Atom) : (atom a).tree.tailText style =
    " . " ++ a.text style ++ ")" := rfl

theorem list_reverse_cons (items : List Datum) (d tail : Datum) :
    list (d :: items).reverse tail = list items.reverse (.pair d tail) := by
  simp [list]

theorem of_abbreviation? {car cdr : Datum} {mark : Abbreviation}
    (h : Tree.abbreviation? car.tree cdr.tree = some mark) :
    ∃ operand, car = .atom (.symbol mark.keyword) ∧ cdr = .pair operand .null := by
  unfold Tree.abbreviation? at h
  split at h
  · rename_i name t hcar hcdr
    obtain rfl := Abbreviation.ofKeyword?_eq_some_iff.mp h
    cases car <;> cases hcar
    cases cdr with
    | pair operand tail =>
      cases tail <;> cases hcdr
      exact ⟨operand, rfl, rfl⟩
    | _ => cases hcdr
  · cases h

theorem text_eq_cons (hd : d.Readable) :
    ∃ c more, (d.tree.text .write).toList = c :: more ∧ c ≠ '@' := by
  cases d with
  | atom a =>
    have hs := scans_atom hd closed_nil
    rw [List.append_nil] at hs
    obtain ⟨c, more, hc, -⟩ := id hs
    rw [hc] at hs
    exact ⟨c, more, hc, hs.head.1⟩
  | null => exact ⟨_, _, rfl, by decide⟩
  | pair car cdr =>
    rw [tree, Tree.text]
    split
    · rename_i mark _
      rw [String.toList_append]
      cases mark <;> exact ⟨_, _, rfl, by decide⟩
    · rw [String.toList_append, String.toList_append]
      exact ⟨_, _, rfl, by decide⟩
  | vector items =>
    rw [tree, Tree.text]
    cases items with
    | nil => exact ⟨_, _, rfl, by decide⟩
    | cons d items =>
      rw [trees, Tree.vectorText, String.toList_append, String.toList_append]
      exact ⟨_, _, rfl, by decide⟩

theorem closed_tail (d : Datum) (rest : List Char) :
    Closed ((d.tree.tailText .write).toList ++ rest) := by
  cases d with
  | null => exact closed_cons rfl
  | atom a =>
    rw [tailText_atom, String.toList_append, String.toList_append]
    exact closed_cons rfl
  | pair car cdr =>
    rw [tree, Tree.tailText, String.toList_append, String.toList_append]
    exact closed_cons rfl
  | vector items =>
    rw [tree, Tree.tailText, String.toList_append, String.toList_append]
    exact closed_cons rfl

theorem closed_spaced (ds : List Datum) (rest : List Char) :
    Closed ((Tree.spacedText .write (trees ds)).toList ++ rest) := by
  cases ds with
  | nil => exact closed_cons rfl
  | cons d ds =>
    rw [trees, Tree.spacedText, String.toList_append, String.toList_append]
    exact closed_cons rfl

end Datum

open Datum

theorem Feeds.dotted {text : List Char}
    (h : Feeds (.datum (.dotted (item :: items) :: forms)) (text ++ ')' :: rest)
      (Progress.deliver d (.dotted (item :: items) :: forms)) (')' :: rest)) :
    Feeds (.datum (.list (item :: items) :: forms)) (" . ".toList ++ text ++ ")".toList ++ rest)
      (Progress.deliver (.list (item :: items).reverse d) forms) rest := by
  have htext : " . ".toList ++ text ++ ")".toList ++ rest =
      ' ' :: '.' :: ' ' :: (text ++ ')' :: rest) := by
    simp
  have hdot : Feeds (.datum (.list (item :: items) :: forms)) ('.' :: ' ' :: (text ++ ')' :: rest))
      (.pending (.datum (.dotted (item :: items) :: forms))) (' ' :: (text ++ ')' :: rest)) :=
    .of_token (scans_dot (closed_cons rfl)) rfl
  have hclose : Feeds (.close (.list (item :: items).reverse d) forms) (')' :: rest)
      (Progress.deliver (.list (item :: items).reverse d) forms) rest :=
    .of_token (scans_close rest) rfl
  rw [htext]
  exact (hdot.trans (h.space.trans hclose)).space

mutual

theorem feeds_text : ∀ {d : Datum} (_ : d.Readable) {forms : List OpenForm}
    (_ : forms.length + d.tree.nesting ≤ maxNesting) {rest : List Char} (_ : Closed rest),
    Feeds (.datum forms) ((d.tree.text .write).toList ++ rest) (Progress.deliver d forms) rest
  | .atom a, hd, forms, hn, rest, hrest => .of_token (scans_atom hd hrest) rfl
  | .null, hd, forms, hn, rest, hrest => by
    have hopen := Feeds.opening rfl (scans_listOpen (')' :: rest)) hn
    exact hopen.trans (.of_token (scans_close rest) rfl)
  | .pair car cdr, hd, forms, hn, rest, hrest => by
    rw [tree, Tree.nesting] at hn
    rw [tree, Tree.text]
    rcases hmark : Tree.abbreviation? car.tree cdr.tree with _ | mark
    · rw [hmark] at hn
      simp only at hn ⊢
      have hopen := fun text => Feeds.opening rfl (scans_listOpen text)
        (by omega : forms.length < maxNesting)
      have hcar := @feeds_text car hd.1 (.list [] :: forms) (by rw [List.length_cons]; omega) _
        (closed_tail cdr rest)
      have hcdr := @feeds_tail cdr hd.2 forms (by omega) car [] rest
      rw [String.toList_append, String.toList_append, List.append_assoc, List.append_assoc]
      exact (hopen _).trans (hcar.trans hcdr)
    · rw [hmark] at hn
      simp only at hn ⊢
      obtain ⟨operand, hcar, hcdr⟩ := of_abbreviation? hmark
      have hoperand := @feeds_head cdr hd.2 (.abbreviation mark :: forms)
        (by rw [List.length_cons]; omega) rest hrest operand .null hcdr
      have hat : ((cdr.tree.headText .write).toList ++ rest).head? ≠ some '@' := by
        rw [hcdr] at hd ⊢
        obtain ⟨c, more, hc, hat⟩ := text_eq_cons hd.2.1
        rw [tree, Tree.headText, hc]
        simpa using hat
      have hopen := Feeds.opening rfl (scans_abbreviation mark hat)
        (by omega : forms.length < maxNesting)
      have hwhole : Datum.pair car cdr = .abbreviated mark operand := by
        rw [hcar, hcdr]
        rfl
      rw [String.toList_append, List.append_assoc, hwhole]
      exact hopen.trans hoperand
  | .vector items, hd, forms, hn, rest, hrest => by
    rw [tree, Tree.nesting] at hn
    exact feeds_vector hd (by omega) rest

theorem feeds_head : ∀ {d : Datum} (_ : d.Readable) {forms : List OpenForm}
    (_ : forms.length + d.tree.headNesting ≤ maxNesting) {rest : List Char} (_ : Closed rest)
    {operand tail : Datum} (_ : d = .pair operand tail),
    Feeds (.datum forms) ((d.tree.headText .write).toList ++ rest)
      (Progress.deliver operand forms) rest
  | .pair car cdr, hd, forms, hn, rest, hrest, _, _, rfl => feeds_text hd.1 hn hrest

theorem feeds_tail : ∀ {d : Datum} (_ : d.Readable) {forms : List OpenForm}
    (_ : forms.length + 1 + d.tree.tailNesting ≤ maxNesting) (item : Datum) (items : List Datum)
    (rest : List Char),
    Feeds (.datum (.list (item :: items) :: forms)) ((d.tree.tailText .write).toList ++ rest)
      (Progress.deliver (.list (item :: items).reverse d) forms) rest
  | .atom a, hd, forms, hn, item, items, rest => by
    rw [tailText_atom, String.toList_append, String.toList_append]
    exact .dotted (.of_token (scans_atom hd (closed_cons rfl)) rfl)
  | .null, hd, forms, hn, item, items, rest => .of_token (scans_close rest) rfl
  | .pair car cdr, hd, forms, hn, item, items, rest => by
    rw [tree, Tree.tailNesting] at hn
    have hcar := @feeds_text car hd.1 (.list (item :: items) :: forms)
      (by rw [List.length_cons]; omega) _ (closed_tail cdr rest)
    have hcdr := @feeds_tail cdr hd.2 forms (by omega) car (item :: items) rest
    rw [list_reverse_cons] at hcdr
    rw [tree, Tree.tailText, String.toList_append, String.toList_append, List.append_assoc,
      List.append_assoc]
    exact (hcar.trans hcdr).space
  | .vector ds, hd, forms, hn, item, items, rest => by
    rw [tree, Tree.tailNesting] at hn
    rw [tree, Tree.tailText, String.toList_append, String.toList_append]
    exact .dotted (feeds_vector hd (by rw [List.length_cons]; omega) _)

theorem feeds_vector : ∀ {ds : List Datum} (_ : AllReadable ds) {forms : List OpenForm}
    (_ : forms.length + 1 + Tree.nestingAll (trees ds) ≤ maxNesting) (rest : List Char),
    Feeds (.datum forms) ((Tree.vectorText .write (trees ds)).toList ++ rest)
      (Progress.deliver (.vector ds) forms) rest
  | [], hd, forms, hn, rest => by
    have hopen := Feeds.opening rfl (scans_vectorOpen (')' :: rest))
      (by omega : forms.length < maxNesting)
    exact hopen.trans (.of_token (scans_close rest) rfl)
  | d :: ds, hd, forms, hn, rest => by
    rw [trees, Tree.nestingAll] at hn
    have hopen := fun text => Feeds.opening rfl (scans_vectorOpen text)
      (by omega : forms.length < maxNesting)
    have hitem := @feeds_text d hd.1 (.vector [] :: forms) (by rw [List.length_cons]; omega) _
      (closed_spaced ds rest)
    have hspaced := @feeds_spaced ds hd.2 forms (by omega) [d] rest
    rw [trees, Tree.vectorText, String.toList_append, String.toList_append, List.append_assoc,
      List.append_assoc]
    exact (hopen _).trans (hitem.trans hspaced)

theorem feeds_spaced : ∀ {ds : List Datum} (_ : AllReadable ds) {forms : List OpenForm}
    (_ : forms.length + 1 + Tree.nestingAll (trees ds) ≤ maxNesting) (items : List Datum)
    (rest : List Char),
    Feeds (.datum (.vector items :: forms)) ((Tree.spacedText .write (trees ds)).toList ++ rest)
      (Progress.deliver (.vector (items.reverse ++ ds)) forms) rest
  | [], hd, forms, hn, items, rest => by
    rw [List.append_nil]
    exact .of_token (scans_close rest) rfl
  | d :: ds, hd, forms, hn, items, rest => by
    rw [trees, Tree.nestingAll] at hn
    have hitem := @feeds_text d hd.1 (.vector items :: forms) (by rw [List.length_cons]; omega) _
      (closed_spaced ds rest)
    have hspaced := @feeds_spaced ds hd.2 forms (by omega) (d :: items) rest
    rw [List.reverse_cons, List.append_assoc, List.singleton_append] at hspaced
    rw [trees, Tree.spacedText, String.toList_append, String.toList_append, List.append_assoc,
      List.append_assoc]
    exact (hitem.trans hspaced).space

end

namespace Scanner

variable {s s' : Scanner}

theorem nextDatum_of_skipped (h : skipped s.unread = []) :
    ∃ s', s.nextDatum = (none, s') ∧ s'.unread = [] := by
  obtain ⟨s', hnext, hunread⟩ := next_of_skipped h
  exact ⟨s', Pending.next_of_end hnext, hunread⟩

theorem data_of_skipped (h : skipped s.unread = []) : s.data.1 = [] := by
  obtain ⟨s', hnext, -⟩ := nextDatum_of_skipped h
  exact data_of_none (by rw [hnext])

theorem data_of_nil (h : s.unread = []) : s.data.1 = [] :=
  data_of_skipped (by rw [skipped, h, List.drop_nil])

end Scanner

/-- Reading undoes writing, for readable data that are nested no deeper than the reader goes. -/
theorem Datum.readAll_written {s : Store} {v : Value} {d : Datum} (hv : Unfolds s v d.tree)
    (hd : d.Readable) (hn : d.tree.nesting ≤ maxNesting) :
    Datum.readAll (s.written v) = .ok [d] ∧
      ∀ s₂ : Store, Unfolds (s₂.load d).2 (s₂.load d).1 d.tree := by
  refine ⟨?_, fun s₂ => unfolds_load s₂ d⟩
  have hfeeds := @feeds_text d hd [] (by simpa using hn) [] closed_nil
  rw [List.append_nil, ← hv.external] at hfeeds
  obtain ⟨s', hunread, hdatum⟩ := hfeeds (Scanner.ofString (s.written v)) rfl
  have heach : readEach (s.written v) = [.ok d] := by
    rw [readEach, Scanner.data_of_datum hdatum, Scanner.data_of_nil hunread]
    rfl
  rw [readAll, heach]
  rfl

/-- A quoted vector of a newline and a string that needs escapes. -/
theorem Datum.readAll_written_quoted :
    let d := Datum.abbreviated .quote
      (.vector [.atom (.character '\n'), .atom (.string "a\"b\\"), .null])
    let s := (Store.empty.load d).2
    let v := (Store.empty.load d).1
    Unfolds s v d.tree ∧ d.Readable ∧ d.tree.nesting ≤ maxNesting ∧
      Datum.readAll (s.written v) = .ok [d] := by
  intro d s v
  have hv : Unfolds s v d.tree := unfolds_load Store.empty d
  have hd : d.Readable := by
    refine ⟨.inr ⟨'q', ['u', 'o', 't', 'e'], rfl, rfl, ?_, ?_⟩,
      ⟨trivial, trivial, trivial, trivial⟩, trivial⟩
    · simp only [List.forall_mem_cons]
      exact ⟨rfl, rfl, rfl, rfl, nofun⟩
    · simp only [List.forall_mem_cons]
      exact ⟨nofun, nofun, nofun, nofun, nofun, nofun⟩
  have hn : d.tree.nesting ≤ maxNesting := by decide
  exact ⟨hv, hd, hn, (Datum.readAll_written hv hd hn).1⟩

end SmallScheme
