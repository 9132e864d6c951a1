import SmallScheme.Proofs.Datum.Refusal
import SmallScheme.Proofs.Datum.RoundTrip
import SmallScheme.Proofs.Token.Lexical

/-! # Data that were read can be read again

Everything in a datum that the reader answers comes from scanned atoms and from the keywords of
marks. Its written form may put the parts together in another way, but opens no more forms at once
than the tokens that it was read from.
-/

namespace SmallScheme

namespace Tree

mutual

def leaves : Tree → List Value
  | leaf v => [v]
  | pair car cdr => car.leaves ++ cdr.leaves
  | vector items => leavesAll items

def leavesAll : List Tree → List Value
  | [] => []
  | t :: rest => t.leaves ++ leavesAll rest

end

theorem headNesting_le (t : Tree) : t.headNesting ≤ t.tailNesting := by
  cases t with
  | pair car cdr => exact Nat.le_max_left _ _
  | _ => exact Nat.zero_le _

theorem nesting_pair_le {car cdr : Tree} {n : Nat} (hcar : car.nesting ≤ n)
    (hcdr : cdr.tailNesting ≤ n) : (pair car cdr).nesting ≤ n + 1 := by
  rw [nesting]
  split
  · exact Nat.succ_le_succ (Nat.le_trans cdr.headNesting_le hcdr)
  · exact Nat.succ_le_succ (Nat.max_le.mpr ⟨hcar, hcdr⟩)

theorem tailNesting_le (t : Tree) : t.tailNesting ≤ t.nesting := by
  cases t with
  | leaf v => exact Nat.zero_le _
  | vector items => exact Nat.le_refl _
  | pair car cdr =>
    rw [tailNesting, nesting]
    split
    · rename_i mark hmark
      unfold abbreviation? at hmark
      split at hmark
      · simp [nesting, tailNesting, headNesting]
      · cases hmark
    · exact Nat.le_succ _

end Tree

namespace Datum

variable {n : Nat} {ts : List Token} {d tail : Datum} {ds : List Datum}

theorem readable_list : (list ds tail).Readable ↔ (∀ d ∈ ds, d.Readable) ∧ tail.Readable := by
  induction ds with
  | nil => simp [list]
  | cons d ds ih =>
    have hcons : list (d :: ds) tail = pair d (list ds tail) := rfl
    rw [hcons, Readable, ih, List.forall_mem_cons, and_assoc]

theorem allReadable_iff : AllReadable ds ↔ ∀ d ∈ ds, d.Readable := by
  induction ds with
  | nil => simp [AllReadable]
  | cons d ds ih => rw [AllReadable, ih, List.forall_mem_cons]

theorem readable_of_all {name : Symbol} {initial : Char} {run : List Char}
    (h : name.text.toList = initial :: run) (hinitial : Character.isInitial initial)
    (hrun : run.all Character.isSubsequent) (hupper : (initial :: run).all (!·.isUpper)) :
    name.Readable :=
  .inr ⟨initial, run, h, hinitial, List.all_eq_true.mp hrun, by simpa using hupper⟩

theorem readable_keyword (mark : Abbreviation) : mark.keyword.Readable := by
  cases mark <;> exact readable_of_all rfl rfl rfl rfl

theorem readable_abbreviated (mark : Abbreviation) (h : d.Readable) :
    (abbreviated mark d).Readable := by
  rw [abbreviated, readable_list]
  exact ⟨by simpa using ⟨readable_keyword mark, h⟩, trivial⟩

theorem tailNesting_list (hds : ∀ d ∈ ds, d.tree.nesting ≤ n) (htail : tail.tree.tailNesting ≤ n) :
    (list ds tail).tree.tailNesting ≤ n := by
  induction ds with
  | nil => exact htail
  | cons d ds ih =>
    rw [List.forall_mem_cons] at hds
    exact Nat.max_le.mpr ⟨hds.1, ih hds.2⟩

theorem nesting_list_le (hds : ∀ d ∈ ds, d.tree.nesting ≤ n) (htail : tail.tree.tailNesting ≤ n)
    (hne : ds ≠ []) : (list ds tail).tree.nesting ≤ n + 1 := by
  obtain ⟨d, ds, rfl⟩ := List.exists_cons_of_ne_nil hne
  rw [List.forall_mem_cons] at hds
  exact Tree.nesting_pair_le hds.1 (tailNesting_list hds.2 htail)

theorem nestingAll_le (hds : ∀ d ∈ ds, d.tree.nesting ≤ n) : Tree.nestingAll (trees ds) ≤ n := by
  induction ds with
  | nil => exact Nat.zero_le n
  | cons d ds ih =>
    rw [List.forall_mem_cons] at hds
    exact Nat.max_le.mpr ⟨hds.1, ih hds.2⟩

end Datum

open Datum

variable {n : Nat} {ts : List Token} {d : Datum} {ds : List Datum}

mutual

/-- A datum is nested no deeper when written than in any derivation of it. -/
theorem Derives.nesting_le : ∀ {n : Nat} {ts : List Token} {d : Datum}, Derives n ts d →
    d.tree.nesting ≤ n
  | _, _, _, .atom => Nat.zero_le _
  | _, _, _, @Derives.list n _ [] _ => Nat.succ_le_succ (Nat.zero_le n)
  | _, _, _, @Derives.list n _ (d :: ds) hs =>
    nesting_list_le hs.nesting_le (Nat.zero_le n) (List.cons_ne_nil d ds)
  | _, _, _, .dotted hs hne ht =>
    nesting_list_le hs.nesting_le (Nat.le_trans (Tree.tailNesting_le _) ht.nesting_le) hne
  | _, _, _, .vector hs => Nat.succ_le_succ (nestingAll_le hs.nesting_le)
  | _, _, _, @Derives.abbreviation n mark ts d hd => by
    have hoperand := hd.nesting_le
    refine nesting_list_le ?_ (Nat.zero_le n) (List.cons_ne_nil _ _)
    rintro e (_ | ⟨_, _ | ⟨_, ⟨⟩⟩⟩)
    · exact Nat.zero_le n
    · exact hoperand

theorem DerivesAll.nesting_le : ∀ {n : Nat} {ts : List Token} {ds : List Datum},
    DerivesAll n ts ds → ∀ d ∈ ds, d.tree.nesting ≤ n
  | _, _, _, .nil => nofun
  | _, _, _, .cons hd hs => List.forall_mem_cons.mpr ⟨hd.nesting_le, hs.nesting_le⟩

end

mutual

theorem Derives.readable : ∀ {n : Nat} {ts : List Token} {d : Datum}, Derives n ts d →
    (∀ a, .atom a ∈ ts → a.Readable) → d.Readable
  | _, _, _, .atom, h => h _ (List.mem_singleton_self _)
  | _, _, _, .list hs, h => readable_list.mpr ⟨hs.readable fun a ha => h a (by simp [ha]), trivial⟩
  | _, _, _, .dotted hs _ ht, h => readable_list.mpr
    ⟨hs.readable fun a ha => h a (by simp [ha]), ht.readable fun a ha => h a (by simp [ha])⟩
  | _, _, _, .vector hs, h => allReadable_iff.mpr (hs.readable fun a ha => h a (by simp [ha]))
  | _, _, _, .abbreviation hd, h =>
    readable_abbreviated _ (hd.readable fun a ha => h a (List.mem_cons_of_mem _ ha))

theorem DerivesAll.readable : ∀ {n : Nat} {ts : List Token} {ds : List Datum},
    DerivesAll n ts ds → (∀ a, .atom a ∈ ts → a.Readable) → ∀ d ∈ ds, d.Readable
  | _, _, _, .nil, _ => nofun
  | _, _, _, .cons hd hs, h => List.forall_mem_cons.mpr
    ⟨hd.readable fun a ha => h a (List.mem_append_left _ ha),
      hs.readable fun a ha => h a (List.mem_append_right _ ha)⟩

end

theorem Scanner.Supplies.readable {s s' : Scanner} (h : s.Supplies ts s') :
    ∀ a, .atom a ∈ ts → a.Readable := by
  induction h with
  | nil => nofun
  | cons hnext _ ih =>
    rintro a (_ | ⟨_, ha⟩)
    · exact Scanner.readable_of_next hnext
    · exact ih a ha

theorem Pending.reads_of_next {wanted : Pending} {s s' : Scanner}
    (h : wanted.next s = (some (.ok d), s')) :
    ∃ ts, s.Supplies ts s' ∧ Reads maxNesting (.pending wanted) ts (.complete d) := by
  fun_induction Pending.next wanted s with
  | case1 | case2 | case3 | case4 => cases h
  | case5 _ _ t rest hnext _ e hfeed =>
    cases h
    exact ⟨[t], .cons hnext .nil, Reads.of_feed hfeed⟩
  | case6 _ _ t rest hnext _ next hfeed ih =>
    obtain ⟨ts, hts, hr⟩ := ih h
    exact ⟨t :: ts, .cons hnext hts, (Reads.of_feed hfeed).append hr⟩

mutual

theorem Datum.leaves_of_readable : ∀ {d : Datum}, d.Readable → ∀ v ∈ d.tree.leaves,
    v = .null ∨ ∃ a : Atom, v = .atom a ∧ a.Readable
  | .atom a, h, _, .head _ => .inr ⟨a, rfl, h⟩
  | .null, _, _, .head _ => .inl rfl
  | .pair _ _, h, v, hv => (List.mem_append.mp hv).elim (leaves_of_readable h.1 v)
    (leaves_of_readable h.2 v)
  | .vector _, h, v, hv => leavesAll_of_readable h v hv

theorem Datum.leavesAll_of_readable : ∀ {ds : List Datum}, AllReadable ds →
    ∀ v ∈ Tree.leavesAll (trees ds), v = .null ∨ ∃ a : Atom, v = .atom a ∧ a.Readable
  | [], _, _, hv => nomatch hv
  | _ :: _, h, v, hv => (List.mem_append.mp hv).elim (leaves_of_readable h.1 v)
    (leavesAll_of_readable h.2 v)

end

/-- Whatever datum the reader answers can be written and read again within its limit of nesting. -/
theorem Scanner.nextDatum_readable {s s' : Scanner} {d : Datum}
    (h : s.nextDatum = (some (.ok d), s')) (store : Store) :
    Unfolds (store.load d).2 (store.load d).1 d.tree ∧
      (∀ v ∈ d.tree.leaves, v ≠ .void ∧ (∀ p, v ≠ .procedure p) ∧
        ∀ name, v = .atom (.symbol name) → name.Readable) ∧
      d.tree.nesting ≤ maxNesting ∧
      ∃ ts, s.Supplies ts s' ∧ Derives maxNesting ts d ∧
        ∀ n, Derives n ts d → d.tree.nesting ≤ n := by
  obtain ⟨ts, hts, hr⟩ := Pending.reads_of_next h
  have hd := reads_complete_iff.mp hr
  have hreadable := hd.readable hts.readable
  refine ⟨unfolds_load store d, fun v hv => ?_, hd.nesting_le, ts, hts, hd,
    fun n hn => hn.nesting_le⟩
  rcases leaves_of_readable hreadable v hv with rfl | ⟨a, rfl, ha⟩
  · exact ⟨nofun, nofun, nofun⟩
  · refine ⟨nofun, nofun, ?_⟩
    rintro name ⟨⟩
    exact ha

theorem Scanner.nextDatum_readable_behind_error :
    let s := Scanner.ofString ")'a"
    let s' : Scanner := ⟨"'a".toList, 0, ⟨1, 2⟩⟩
    let last : Scanner := ⟨[], 0, ⟨1, 4⟩⟩
    let d := Datum.abbreviated .quote (.atom (.symbol ⟨"a"⟩))
    s.nextDatum = (some (.error (.unexpectedToken .close)), s') ∧
      s'.nextDatum = (some (.ok d), last) ∧ d.tree.nesting = 1 ∧ d.tree.nesting ≤ maxNesting ∧
      ∀ v ∈ d.tree.leaves, ∀ name, v = .atom (.symbol name) → name.Readable := by
  intro s s' last d
  have hfirst : s.next = (some (.ok .close), s') := rfl
  have herror : s.nextDatum = (some (.error (.unexpectedToken .close)), s') :=
    Pending.next_of_token hfirst
  have hquote : s'.next = (some (.ok (.abbreviation .quote)), ⟨['a'], 0, ⟨1, 3⟩⟩) := rfl
  have hsymbol : (⟨['a'], 0, ⟨1, 3⟩⟩ : Scanner).next =
      (some (.ok (.atom (.symbol ⟨"a"⟩))), last) := rfl
  have hd : Derives 1 [.abbreviation .quote, .atom (.symbol ⟨"a"⟩)] d := .abbreviation .atom
  have hdatum := nextDatum_of_derives (.cons hquote (.cons hsymbol .nil)) (hd.mono (by decide))
  obtain ⟨-, hleaves, hnesting, -⟩ := nextDatum_readable hdatum .empty
  exact ⟨herror, hdatum, rfl, hnesting, fun v hv => (hleaves v hv).2.2⟩

end SmallScheme
