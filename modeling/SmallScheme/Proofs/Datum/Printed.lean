import SmallScheme.Program
import SmallScheme.Proofs.Datum.Readable
import SmallScheme.Proofs.Expression.Parsing

/-! # Printed programs

The data of a text, written one on a line, are read back as the same data. So to print a program and
to run what has been printed is to run the program.
-/

namespace SmallScheme

open Datum

/-- The written forms of the data of a program, each on a line of its own. -/
def Store.printed (s : Store) (ds : List Datum) : String :=
  let (vs, s) := s.loadAll ds
  vs.foldr (fun v text => s.written v ++ "\n" ++ text) ""

structure Observation where
  result : Except Failure (String × String)
  output : String
  names : List Symbol

def Outcome.observation? (ρ : ScopeRef) : Outcome → Option Observation
  | finished r w =>
    some ⟨r.map fun v => (w.store.written v, w.store.displayed v), w.output.text, w.store.names ρ⟩
  | unfinished _ => none

namespace Program

def observation? (depth : Option Nat) (fuel : Nat) (text : String) : Option Observation :=
  (World.withPrelude.2.evaluateText ⟨depth, fuel⟩ World.withPrelude.1 text).observation?
    World.withPrelude.1

/-- No fuel is enough for the program to end. -/
def Diverges (depth : Option Nat) (text : String) : Prop :=
  ∀ fuel, observation? depth fuel text = none

def Ends (depth : Option Nat) (text : String) (o : Observation) : Prop :=
  ∃ fuel, observation? depth fuel text = some o

end Program

namespace Datum

def lines : List Datum → String
  | [] => ""
  | d :: ds => d.tree.text .write ++ "\n" ++ lines ds

theorem printed_eq_lines (s : Store) (ds : List Datum) : s.printed ds = lines ds := by
  have hlines : ∀ {s : Store} {vs : List Value} {ds : List Datum}, UnfoldAll s vs (trees ds) →
      vs.foldr (fun v text => s.written v ++ "\n" ++ text) "" = lines ds := by
    intro s vs ds h
    induction ds generalizing vs with
    | nil =>
      cases h
      rfl
    | cons d ds ih =>
      cases h with
      | cons hd hds => rw [List.foldr_cons, ih hds, Store.written, hd.external, lines]
  exact hlines (unfoldAll_loadAll s ds)

end Datum

namespace Scanner

variable {s s' : Scanner} {d : Datum} {ds : List Datum}

theorem readable_of_nextDatum (h : s.nextDatum = (some (.ok d), s')) :
    d.Readable ∧ d.tree.nesting ≤ maxNesting := by
  obtain ⟨ts, hts, hr⟩ := Pending.reads_of_next h
  have hd := reads_complete_iff.mp hr
  exact ⟨hd.readable hts.readable, hd.nesting_le⟩

theorem readable_of_data (h : .ok d ∈ s.data.1.map (·.1)) :
    d.Readable ∧ d.tree.nesting ≤ maxNesting := by
  fun_induction data s with
  | case1 => cases h
  | case2 s answer rest hnext _ answers last hrest ih =>
    rcases List.mem_cons.mp h with rfl | h
    · exact readable_of_nextDatum hnext
    · rw [hrest] at ih
      exact ih h

theorem data_lines (hds : ∀ d ∈ ds, d.Readable ∧ d.tree.nesting ≤ maxNesting)
    (hs : skipped s.unread = skipped (lines ds).toList) :
    s.data.1.map (·.1) = ds.map .ok := by
  induction ds generalizing s with
  | nil =>
    rw [data_of_skipped hs]
    rfl
  | cons d ds ih =>
    obtain ⟨⟨hd, hn⟩, hds⟩ := List.forall_mem_cons.mp hds
    have hfeeds := @feeds_text d hd [] (by simpa using hn) ('\n' :: (lines ds).toList)
      (closed_cons rfl)
    obtain ⟨s', hunread, hdatum⟩ := hfeeds s (by simpa [lines] using hs)
    have hrest := ih hds (s := s') (by rw [hunread, skipped_blank rfl (by decide)])
    rw [data_of_datum hdatum, List.map_cons, List.map_cons, hrest]

end Scanner

theorem eq_map_of_mapM {ε α : Type} {xs : List (Except ε α)} {as : List α}
    (h : xs.mapM id = .ok as) : xs = as.map .ok := by
  induction xs generalizing as with
  | nil =>
    cases h
    rfl
  | cons x xs ih =>
    rw [List.mapM_cons] at h
    obtain ⟨a, hx, h⟩ := bind_eq_ok_iff.mp h
    obtain ⟨rest, hxs, h⟩ := bind_eq_ok_iff.mp h
    cases h
    cases hx
    rw [ih hxs, List.map_cons]

theorem Datum.readEach_printed {text : String} {ds : List Datum} (h : readAll text = .ok ds)
    (s : Store) : readEach (s.printed ds) = readEach text := by
  have heach : readEach text = ds.map .ok := eq_map_of_mapM h
  rw [printed_eq_lines, heach]
  refine Scanner.data_lines (fun d hd => Scanner.readable_of_data (?_ : _ ∈ readEach text)) rfl
  rw [heach]
  exact List.mem_map_of_mem hd

/-- Running the printed data of a program is running the program, from whatever store they are
printed. -/
theorem Program.printed_behaves {text : String} {ds : List Datum}
    (h : Datum.readAll text = .ok ds) (s : Store) :
    (∀ depth, Diverges depth (s.printed ds) ↔ Diverges depth text) ∧
    (∀ depth o, Ends depth (s.printed ds) o ↔ Ends depth text o) ∧
    ∀ (w : World) (limits : Limits) (ρ : ScopeRef),
      w.evaluateText limits ρ (s.printed ds) = w.evaluateText limits ρ text := by
  have hsame : ∀ (w : World) (limits : Limits) (ρ : ScopeRef),
      w.evaluateText limits ρ (s.printed ds) = w.evaluateText limits ρ text := by
    intro w limits ρ
    rw [World.evaluateText, Datum.readEach_printed h, World.evaluateText]
  have hobservation : ∀ depth fuel,
      observation? depth fuel (s.printed ds) = observation? depth fuel text := by
    intro depth fuel
    rw [observation?, hsame, observation?]
  refine ⟨fun depth => ?_, fun depth o => ?_, hsame⟩
  · simp only [Diverges, hobservation]
  · simp only [Ends, hobservation]

/-- A quotation that is spelled out is printed as a mark. -/
theorem Program.printed_behaves_quotation :
    let d := Datum.abbreviated .quote (.atom (.symbol ⟨"a"⟩))
    Datum.readAll "(quote a)" = .ok [d] ∧ Store.empty.printed [d] = "'a\n" ∧
      ∀ depth o, Ends depth "'a\n" o ↔ Ends depth "(quote a)" o := by
  intro d
  let s : Scanner := .ofString "(quote a)"
  let last : Scanner := ⟨[], 0, ⟨1, 10⟩⟩
  have hopen : s.next = (some (.ok .listOpen), ⟨"quote a)".toList, 0, ⟨1, 2⟩⟩) := rfl
  have hquote : (⟨"quote a)".toList, 0, ⟨1, 2⟩⟩ : Scanner).next =
      (some (.ok (.atom (.symbol ⟨"quote"⟩))), ⟨" a)".toList, 0, ⟨1, 7⟩⟩) := rfl
  have hsymbol : (⟨" a)".toList, 0, ⟨1, 7⟩⟩ : Scanner).next =
      (some (.ok (.atom (.symbol ⟨"a"⟩))), ⟨")".toList, 0, ⟨1, 9⟩⟩) := rfl
  have hclose : (⟨")".toList, 0, ⟨1, 9⟩⟩ : Scanner).next = (some (.ok .close), last) := rfl
  have hd : Derives 1 _ d := .list (.cons .atom (.cons .atom .nil))
  have hdatum : s.nextDatum = (some (.ok d), last) := Scanner.nextDatum_of_derives
    (.cons hopen (.cons hquote (.cons hsymbol (.cons hclose .nil)))) (hd.mono (by decide))
  have hread : Datum.readAll "(quote a)" = .ok [d] := by
    rw [Datum.readAll, Datum.readEach, Scanner.data_of_datum hdatum, Scanner.data_of_nil rfl]
    rfl
  have hprinted : Store.empty.printed [d] = "'a\n" := by
    rw [Datum.printed_eq_lines]
    rfl
  refine ⟨hread, hprinted, ?_⟩
  rw [← hprinted]
  exact (printed_behaves hread .empty).2.1

end SmallScheme
