import SmallScheme.Batch.Runner
import SmallScheme.Proofs.Machine.Composition
import SmallScheme.Proofs.Machine.Output

/-! # The batch runner and the evaluation of texts

A batch run does what evaluating its texts one after the other does. It differs in its output only:
the written form of each value that is not void comes in between, on a line of its own, unless the
run is quiet.
-/

namespace SmallScheme

/-- Evaluates texts in order, up to the first that fails. -/
def World.evaluateTexts (w : World) (limits : Limits) (ρ : ScopeRef) : List String → Outcome
  | [] => .finished (.ok .void) w
  | text :: rest =>
    match w.evaluateText limits ρ text with
    | .finished (.ok _) w => w.evaluateTexts limits ρ rest
    | stopped => stopped

def Outcome.withoutValue : Outcome → Outcome
  | .finished (.ok _) w => .finished (.ok .void) w
  | stopped => stopped

namespace Batch

/-- The text that a datum displayed, its value, and how that is written. -/
structure Showing where
  displayed : String
  value : Value
  written : String

def Showing.text (quiet : Bool) (s : Showing) : String :=
  if quiet || s.value = .void then s.displayed else s.displayed ++ s.written ++ "\n"

def transcript (quiet : Bool) : List Showing → String
  | [] => ""
  | s :: shown => s.text quiet ++ transcript quiet shown

/-- The data show these things in order, up to their end or a failure. -/
inductive Shows (limits : Limits) (ρ : ScopeRef) : World → List (Except SyntaxError Datum) →
    List Showing → String → Except Failure Unit → World → Prop

  | nil {w : World} : Shows limits ρ w [] [] "" (.ok ()) w

  | value {w w₁ w' : World} {d : Except SyntaxError Datum} {ds : List (Except SyntaxError Datum)}
      {v : Value} {displayed text : String} {shown : List Showing} {r : Except Failure Unit} :
      w.evaluateDatum limits ρ d = .finished (.ok v) w₁ →
      w₁.output.text = w.output.text ++ displayed → Shows limits ρ w₁ ds shown text r w' →
      Shows limits ρ w (d :: ds) (⟨displayed, v, w₁.store.written v⟩ :: shown) text r w'

  | failure {w w' : World} {d : Except SyntaxError Datum} {ds : List (Except SyntaxError Datum)}
      {f : Failure} {displayed : String} : w.evaluateDatum limits ρ d = .finished (.error f) w' →
      w'.output.text = w.output.text ++ displayed →
      Shows limits ρ w (d :: ds) [] displayed (.error f) w'

/-- The texts of a run: the expressions, then the file, or standard input if there are neither. -/
inductive Sources (file : Option String) (expressions : List String) (inputs : Inputs) :
    List String → Prop

  | file {path text : String} {bytes : ByteArray} : file = some path →
      inputs.file path = .ok bytes → String.fromUTF8? bytes = some text →
      Sources file expressions inputs (expressions ++ [text])

  | expressions : file = none → expressions ≠ [] → Sources file expressions inputs expressions

  | standardInput {text : String} : file = none → expressions = [] →
      String.fromUTF8? inputs.standardInput = some text → Sources file expressions inputs [text]

inductive Unreadable (file : Option String) (expressions : List String) (inputs : Inputs) :
    String → Prop

  | file {path reason : String} : file = some path → inputs.file path = .error reason →
      Unreadable file expressions inputs ("reading " ++ path ++ ": " ++ reason)

  | invalidFile {path : String} {bytes : ByteArray} : file = some path →
      inputs.file path = .ok bytes → String.fromUTF8? bytes = none →
      Unreadable file expressions inputs
        ("reading " ++ path ++ ": stream did not contain valid UTF-8")

  | invalidInput : file = none → expressions = [] → String.fromUTF8? inputs.standardInput = none →
      Unreadable file expressions inputs
        "reading standard input: stream did not contain valid UTF-8"

inductive Exits : Except Failure Value → Nat → String → Prop

  | value {v : Value} : Exits (.ok v) 0 ""

  | status {n : Nat} : n ≤ 255 → Exits (.error (.evaluation (.exit n))) n ""

  | otherStatus {code : Int} : (∀ n : Nat, n ≤ 255 → code ≠ n) →
      Exits (.error (.evaluation (.exit code))) 1 ""

  | failure {f : Failure} : (∀ code, f ≠ .evaluation (.exit code)) →
      Exits (.error f) 1 (f.message ++ "\n")

variable {w w₁ w' : World} {limits : Limits} {ρ : ScopeRef} {d : Except SyntaxError Datum}
  {ds : List (Except SyntaxError Datum)} {shown : List Showing} {displayed text : String}
  {v last : Value} {f : Failure} {file : Option String} {expressions texts : List String}
  {inputs : Inputs}

theorem exists_displayed {r : Except Failure Value}
    (h : w.evaluateDatum limits ρ d = .finished r w') :
    ∃ displayed, w'.output.text = w.output.text ++ displayed ∧ ∀ before,
      (w.withoutOutput.behind before).evaluateDatum limits ρ d =
        .finished r (w'.withoutOutput.behind (before ++ displayed)) := by
  rw [w.evaluateDatum_eq_behind] at h
  cases ho : w.withoutOutput.evaluateDatum limits ρ d with
  | unfinished w₀ =>
    rw [ho] at h
    cases h
  | finished r₀ w₀ =>
    rw [ho] at h
    cases h
    refine ⟨w₀.output.text, rfl, fun before => ?_⟩
    rw [World.evaluateDatum_behind, ho]
    simp [Outcome.behind, World.behind, Output.behind, World.withoutOutput]

theorem evaluateDatum_displayed {r : Except Failure Value}
    (h : w.evaluateDatum limits ρ d = .finished r w')
    (htext : w'.output.text = w.output.text ++ displayed) (before : String) :
    (w.withoutOutput.behind before).evaluateDatum limits ρ d =
      .finished r (w'.withoutOutput.behind (before ++ displayed)) := by
  obtain ⟨displayed', htext', heval⟩ := exists_displayed h
  rw [htext] at htext'
  rw [heval, (String.append_right_inj _).mp htext']

theorem printResult_of_not_full (h : w.output.full = false) (before : String) (v : Value) :
    printResult (w.withoutOutput.behind before) v =
      (none, w.withoutOutput.behind (before ++ (w.store.written v ++ "\n"))) := by
  have hfull : (w.withoutOutput.output.behind before).full = false := h
  simp only [printResult, World.behind, Output.write, hfull]
  simp [Output.behind, World.withoutOutput, h, String.push_eq_append]

theorem runDatum_of_value (h : w.evaluateDatum limits ρ d = .finished (.ok v) w')
    (htext : w'.output.text = w.output.text ++ displayed) (hfull : w.output.full = false)
    (quiet : Bool) (before : String) : runDatum limits quiet ρ (w.withoutOutput.behind before) d =
      (none, w'.withoutOutput.behind
        (before ++ Showing.text quiet ⟨displayed, v, w'.store.written v⟩)) := by
  have hfull' : w'.output.full = false := (World.full_evaluateDatum h).trans hfull
  rw [runDatum, evaluateDatum_displayed h htext]
  dsimp only
  split
  · rename_i hquiet
    rw [Showing.text, if_pos hquiet]
  · rename_i hquiet
    rw [printResult_of_not_full hfull', Showing.text, if_neg hquiet, String.append_assoc,
      String.append_assoc]

theorem runDatum_of_failure (h : w.evaluateDatum limits ρ d = .finished (.error f) w')
    (htext : w'.output.text = w.output.text ++ displayed) (quiet : Bool) (before : String) :
    runDatum limits quiet ρ (w.withoutOutput.behind before) d =
      (some (.ofFailure f), w'.withoutOutput.behind (before ++ displayed)) := by
  rw [runDatum, evaluateDatum_displayed h htext]

theorem runDatum_of_unfinished (h : w.evaluateDatum limits ρ d = .unfinished w') (quiet : Bool)
    (before : String) :
    (runDatum limits quiet ρ (w.withoutOutput.behind before) d).1 = some .outOfFuel := by
  rw [w.evaluateDatum_eq_behind] at h
  rw [runDatum, World.evaluateDatum_behind]
  cases ho : w.withoutOutput.evaluateDatum limits ρ d with
  | unfinished w₀ => rfl
  | finished r₀ w₀ =>
    rw [ho] at h
    cases h

theorem exists_shows {r : Except Failure Value}
    (h : w.evaluateData limits ρ last ds = .finished r w') :
    ∃ shown text, Shows limits ρ w ds shown text (r.map fun _ => ()) w' := by
  induction ds generalizing w last with
  | nil =>
    cases h
    exact ⟨[], "", .nil⟩
  | cons d ds ih =>
    rw [World.evaluateData] at h
    split at h
    · rename_i v w₁ hd
      obtain ⟨displayed, htext, -⟩ := exists_displayed hd
      obtain ⟨shown, text, hrest⟩ := ih h
      exact ⟨_, text, .value hd htext hrest⟩
    · rename_i hno
      cases r with
      | ok v => exact (hno v w' h).elim
      | error f =>
        obtain ⟨displayed, htext, -⟩ := exists_displayed h
        exact ⟨[], displayed, .failure h htext⟩

/-- Without the lines in between, what data show is what they display. -/
theorem Shows.output_eq {r : Except Failure Unit} (h : Shows limits ρ w ds shown text r w') :
    w'.output.text = w.output.text ++ (transcript true shown ++ text) := by
  induction h with
  | nil => simp [transcript]
  | value _ htext _ ih => simp [ih, htext, transcript, Showing.text, String.append_assoc]
  | failure _ htext => simp [htext, transcript]

def Stop.ofResult : Except Failure Unit → Option Stop
  | .ok _ => none
  | .error f => some (.ofFailure f)

/-- A batch run puts out what the data show, behind the output so far. -/
theorem Shows.runData {r : Except Failure Unit} (h : Shows limits ρ w ds shown text r w')
    (hfull : w.output.full = false) (quiet : Bool) (before : String) :
    runData limits quiet ρ (w.withoutOutput.behind before) ds = (Stop.ofResult r,
      w'.withoutOutput.behind (before ++ (transcript quiet shown ++ text))) := by
  induction h generalizing before with
  | nil => simp [Batch.runData, transcript, Stop.ofResult]
  | value hd htext _ ih =>
    rw [Batch.runData, runDatum_of_value hd htext hfull]
    dsimp only
    rw [ih ((World.full_evaluateDatum hd).trans hfull), transcript, String.append_assoc,
      String.append_assoc]
  | failure hd htext =>
    rw [Batch.runData, runDatum_of_failure hd htext]
    simp [transcript, Stop.ofResult]

theorem runData_of_unfinished (h : w.evaluateData limits ρ last ds = .unfinished w')
    (hfull : w.output.full = false) (quiet : Bool) (before : String) :
    (runData limits quiet ρ (w.withoutOutput.behind before) ds).1 = some .outOfFuel := by
  induction ds generalizing w last before with
  | nil => cases h
  | cons d ds ih =>
    rw [World.evaluateData] at h
    split at h
    · rename_i v w₁ hd
      obtain ⟨displayed, htext, -⟩ := exists_displayed hd
      rw [runData, runDatum_of_value hd htext hfull]
      exact ih h ((World.full_evaluateDatum hd).trans hfull) _
    · have hstop := runDatum_of_unfinished h quiet before
      rw [runData]
      split
      · rename_i hrun
        rw [hrun] at hstop
        cases hstop
      · exact hstop

theorem runData_append (limits : Limits) (quiet : Bool) (ρ : ScopeRef) (w : World)
    (ds more : List (Except SyntaxError Datum)) : runData limits quiet ρ w (ds ++ more) =
      match runData limits quiet ρ w ds with
      | (none, w) => runData limits quiet ρ w more
      | stopped => stopped := by
  induction ds generalizing w with
  | nil => rfl
  | cons d ds ih =>
    rw [List.cons_append, runData, runData]
    cases runDatum limits quiet ρ w d with
    | mk stop w₁ =>
      cases stop with
      | none => exact ih w₁
      | some stop => rfl

theorem runTexts_eq_runData (limits : Limits) (quiet : Bool) (ρ : ScopeRef) (w : World)
    (texts : List String) :
    runTexts limits quiet ρ w texts = runData limits quiet ρ w (texts.flatMap Datum.readEach) := by
  induction texts generalizing w with
  | nil => rfl
  | cons text texts ih =>
    rw [runTexts, List.flatMap_cons, runData_append]
    cases runData limits quiet ρ w (Datum.readEach text) with
    | mk stop w₁ =>
      cases stop with
      | none => exact ih w₁
      | some stop => rfl

theorem eq_finished_of_withoutValue {o : Outcome} {r : Except Failure Value}
    (h : o.withoutValue = .finished r w) :
    ∃ r₀, o = .finished r₀ w ∧ (r₀.map fun _ => ()) = r.map fun _ => () := by
  cases o with
  | unfinished w₀ => cases h
  | finished r₀ w₀ => cases r₀ <;> cases h <;> exact ⟨_, rfl, rfl⟩

theorem eq_unfinished_of_withoutValue {o : Outcome} (h : o.withoutValue = .unfinished w) :
    o = .unfinished w := by
  cases o with
  | unfinished w₀ => exact h
  | finished r₀ w₀ => cases r₀ <;> cases h

theorem withoutValue_evaluateData (w : World) (limits : Limits) (ρ : ScopeRef) (v v' : Value)
    (ds : List (Except SyntaxError Datum)) : (w.evaluateData limits ρ v ds).withoutValue =
      (w.evaluateData limits ρ v' ds).withoutValue := by
  cases ds <;> rfl

theorem evaluateTexts_eq (w : World) (limits : Limits) (ρ : ScopeRef) (last : Value)
    (texts : List String) : w.evaluateTexts limits ρ texts =
      (w.evaluateData limits ρ last (texts.flatMap Datum.readEach)).withoutValue := by
  induction texts generalizing w last with
  | nil => rfl
  | cons text texts ih =>
    rw [withoutValue_evaluateData w limits ρ last .void, List.flatMap_cons,
      World.evaluateData_append, World.evaluateTexts, World.evaluateText]
    cases w.evaluateData limits ρ .void (Datum.readEach text) with
    | unfinished w₁ => rfl
    | finished r w₁ =>
      cases r with
      | error f => rfl
      | ok v => exact ih w₁ v

theorem sources_of_sources (h : Sources file expressions inputs texts) (depth : Option Nat)
    (quiet : Bool) : sources ⟨file, expressions, false, depth, quiet⟩ inputs = .ok texts := by
  cases h with
  | file hfile hbytes htext =>
    subst hfile
    simp [sources, readFile, hbytes, decode, htext]
  | expressions hfile hne =>
    subst hfile
    simp [sources, hne]
  | standardInput hfile hnil htext =>
    subst hfile hnil
    simp [sources, decode, htext]

theorem sources_of_unreadable {message : String} (h : Unreadable file expressions inputs message)
    (depth : Option Nat) (quiet : Bool) :
    sources ⟨file, expressions, false, depth, quiet⟩ inputs = .error message := by
  cases h with
  | file hfile hreason =>
    subst hfile
    simp only [sources, readFile, hreason]
    rfl
  | invalidFile hfile hbytes htext =>
    subst hfile
    simp only [sources, readFile, hbytes, decode, htext]
    rfl
  | invalidInput hfile hnil htext =>
    subst hfile hnil
    simp only [sources, List.isEmpty_nil, if_true, decode, htext]
    rfl

theorem sources_or_unreadable (file : Option String) (expressions : List String)
    (inputs : Inputs) : (∃ texts, Sources file expressions inputs texts) ∨
      ∃ message, Unreadable file expressions inputs message := by
  cases file with
  | some path =>
    cases hbytes : inputs.file path with
    | error reason => exact .inr ⟨_, .file rfl hbytes⟩
    | ok bytes =>
      cases htext : String.fromUTF8? bytes with
      | some text => exact .inl ⟨_, .file rfl hbytes htext⟩
      | none => exact .inr ⟨_, .invalidFile rfl hbytes htext⟩
  | none =>
    by_cases hnil : expressions = []
    · cases htext : String.fromUTF8? inputs.standardInput with
      | some text => exact .inl ⟨_, .standardInput rfl hnil htext⟩
      | none => exact .inr ⟨_, .invalidInput rfl hnil htext⟩
    · exact .inl ⟨_, .expressions rfl hnil⟩

theorem exitStatus_of_le {n : Nat} (h : n ≤ 255) : exitStatus n = n := by
  simp only [exitStatus, Bool.and_eq_true, decide_eq_true_eq]
  rw [if_pos (by omega), Int.toNat_natCast]

theorem exitStatus_of_ne {code : Int} (h : ∀ n : Nat, n ≤ 255 → code ≠ n) :
    exitStatus code = 1 := by
  simp only [exitStatus, Bool.and_eq_true, decide_eq_true_eq]
  rw [if_neg]
  rintro ⟨hle, hge⟩
  exact h code.toNat (by omega) (by omega)

theorem Stop.ofFailure_of_ne (h : ∀ code, f ≠ .evaluation (.exit code)) :
    Stop.ofFailure f = .failed f.message := by
  have hcode : f.exitCode? = none := by
    unfold Failure.exitCode?
    split
    · exact (h _ rfl).elim
    · rfl
  rw [ofFailure, hcode]

theorem ofStop_failed (output message : String) :
    Report.ofStop output (some (.failed message)) = some ⟨1, output, message ++ "\n"⟩ := by
  rw [Report.ofStop, String.push_eq_append]
  rfl

theorem exists_exits (r : Except Failure Value) : ∃ status errors, Exits r status errors ∧
    ∀ output, Report.ofStop output (Stop.ofResult (r.map fun _ => ())) =
      some ⟨status, output, errors⟩ := by
  cases r with
  | ok v => exact ⟨0, "", .value, fun _ => rfl⟩
  | error f =>
    by_cases hexit : ∃ code, f = .evaluation (.exit code)
    · obtain ⟨code, rfl⟩ := hexit
      have hreport : ∀ output, Report.ofStop output (some (.exit code)) =
        some ⟨exitStatus code, output, ""⟩ := fun _ => rfl
      by_cases hcode : ∃ n : Nat, n ≤ 255 ∧ code = n
      · obtain ⟨n, hn, rfl⟩ := hcode
        rw [exitStatus_of_le hn] at hreport
        exact ⟨n, "", .status hn, hreport⟩
      · have hne : ∀ n : Nat, n ≤ 255 → code ≠ n := fun n hn hc => hcode ⟨n, hn, hc⟩
        rw [exitStatus_of_ne hne] at hreport
        exact ⟨1, "", .otherStatus hne, hreport⟩
    · have hne : ∀ code, f ≠ .evaluation (.exit code) := fun code hc => hexit ⟨code, hc⟩
      refine ⟨1, f.message ++ "\n", .failure hne, fun output => ?_⟩
      rw [Except.map, Stop.ofResult, Stop.ofFailure_of_ne hne]
      exact ofStop_failed output f.message

/-- A run takes all data of its texts in order, in a new prelude. -/
theorem run_of_sources (h : Sources file expressions inputs texts) (fuel : Nat)
    (depth : Option Nat) (quiet : Bool) :
    run fuel ⟨file, expressions, false, depth, quiet⟩ inputs false =
      let (stop, w) := runData ⟨depth, fuel⟩ quiet World.withPrelude.1
        (World.withPrelude.2.withoutOutput.behind "") (texts.flatMap Datum.readEach)
      Report.ofStop w.output.text stop := by
  rw [run, sources_of_sources h]
  dsimp only
  rw [runTexts_eq_runData]
  rfl

theorem run_of_finished {fuel : Nat} {depth : Option Nat} {r : Except Failure Value}
    (h : Sources file expressions inputs texts)
    (hr : World.withPrelude.2.evaluateTexts ⟨depth, fuel⟩ World.withPrelude.1 texts =
      .finished r w') :
    ∃ shown text status errors, Shows ⟨depth, fuel⟩ World.withPrelude.1 World.withPrelude.2
        (texts.flatMap Datum.readEach) shown text (r.map fun _ => ()) w' ∧
      Exits r status errors ∧ w'.output.text = transcript true shown ++ text ∧
      ∀ quiet, run fuel ⟨file, expressions, false, depth, quiet⟩ inputs false =
        some ⟨status, transcript quiet shown ++ text, errors⟩ := by
  rw [evaluateTexts_eq _ _ _ .void] at hr
  obtain ⟨r₀, ho, hresult⟩ := eq_finished_of_withoutValue hr
  obtain ⟨shown, text, hshows⟩ := exists_shows ho
  rw [hresult] at hshows
  obtain ⟨status, errors, hexits, hreport⟩ := exists_exits r
  refine ⟨shown, text, status, errors, hshows, hexits, ?_, fun quiet => ?_⟩
  · exact hshows.output_eq.trans String.empty_append
  · rw [run_of_sources h, hshows.runData rfl, ← hreport]
    simp [World.behind, Output.behind, World.withoutOutput]

theorem run_of_unfinished {fuel : Nat} {depth : Option Nat}
    (h : Sources file expressions inputs texts)
    (hr : World.withPrelude.2.evaluateTexts ⟨depth, fuel⟩ World.withPrelude.1 texts =
      .unfinished w') (quiet : Bool) :
    run fuel ⟨file, expressions, false, depth, quiet⟩ inputs false = none := by
  rw [evaluateTexts_eq _ _ _ .void] at hr
  have hstop := runData_of_unfinished (eq_unfinished_of_withoutValue hr) rfl quiet ""
  rw [run_of_sources h]
  dsimp only
  rw [hstop]
  rfl

/-- A batch run agrees with the evaluation of its texts in status, errors and output. -/
theorem run_agrees (fuel : Nat) (file : Option String) (expressions : List String)
    (depth : Option Nat) (inputs : Inputs) :
    let ρ := World.withPrelude.1
    let w := World.withPrelude.2
    let limits : Limits := ⟨depth, fuel⟩
    let report? (quiet : Bool) := run fuel ⟨file, expressions, false, depth, quiet⟩ inputs false
    ((∃ texts, Sources file expressions inputs texts) ∨
      ∃ message, Unreadable file expressions inputs message) ∧
    (∀ texts, Sources file expressions inputs texts →
      (∀ quiet, (report? quiet).isSome ↔
        ∃ r w', w.evaluateTexts limits ρ texts = .finished r w') ∧
      ∀ r w', w.evaluateTexts limits ρ texts = .finished r w' →
        ∃ shown text status errors,
          Shows limits ρ w (texts.flatMap Datum.readEach) shown text (r.map fun _ => ()) w' ∧
          Exits r status errors ∧ w'.output.text = transcript true shown ++ text ∧
          ∀ quiet, report? quiet = some ⟨status, transcript quiet shown ++ text, errors⟩) ∧
    ∀ message, Unreadable file expressions inputs message →
      ∀ quiet, report? quiet = some ⟨1, "", message ++ "\n"⟩ := by
  intro ρ w limits report?
  refine ⟨sources_or_unreadable file expressions inputs,
    fun texts hsources => ⟨fun quiet => ?_, fun r w' => run_of_finished hsources⟩, ?_⟩
  · cases hr : w.evaluateTexts limits ρ texts with
    | finished r w' =>
      obtain ⟨_, _, _, _, -, -, -, hreport⟩ := run_of_finished hsources hr
      exact iff_of_true (Option.isSome_of_eq_some (hreport quiet)) ⟨r, w', rfl⟩
    | unfinished w' =>
      have hnone : report? quiet = none := run_of_unfinished hsources hr quiet
      rw [hnone]
      exact iff_of_false Bool.false_ne_true (by rintro ⟨r, w', ⟨⟩⟩)
  · intro message hmessage quiet
    simp only [report?, run, sources_of_unreadable hmessage]
    exact ofStop_failed "" message

/-- A value, and behind it a parenthesis that closes nothing. -/
theorem run_agrees_parenthesis :
    let inputs : Inputs := ⟨fun _ => .error "", .empty⟩
    let texts := ["#t", ")"]
    let f := Failure.reading (.unexpectedToken .close)
    let report? (quiet : Bool) := run 2 ⟨none, texts, false, none, quiet⟩ inputs false
    Sources none texts inputs texts ∧
      World.withPrelude.2.evaluateTexts ⟨none, 2⟩ World.withPrelude.1 texts =
        .finished (.error f) World.withPrelude.2 ∧
      ∃ shown text, ∀ quiet,
        report? quiet = some ⟨1, transcript quiet shown ++ text, f.message ++ "\n"⟩ := by
  intro inputs texts f report?
  have htrue : (Scanner.ofString "#t").next =
      (some (.ok (.atom (.boolean true))), ⟨[], 0, ⟨1, 3⟩⟩) := rfl
  have hclose : (Scanner.ofString ")").next = (some (.ok .close), ⟨[], 0, ⟨1, 2⟩⟩) := rfl
  have hvalue : Datum.readEach "#t" = [.ok (.atom (.boolean true))] := by
    rw [Datum.readEach, Scanner.data_of_datum (Pending.next_of_token htrue),
      Scanner.data_of_nil rfl]
    rfl
  have hfailure : Datum.readEach ")" = [.error (.unexpectedToken .close)] := by
    rw [Datum.readEach, Scanner.data_of_datum (Pending.next_of_token hclose),
      Scanner.data_of_nil rfl]
    rfl
  have hsources : Sources none texts inputs texts := .expressions rfl (List.cons_ne_nil _ _)
  have hr : World.withPrelude.2.evaluateTexts ⟨none, 2⟩ World.withPrelude.1 texts =
      .finished (.error f) World.withPrelude.2 := by
    rw [evaluateTexts_eq _ _ _ .void, List.flatMap_cons, List.flatMap_cons, hvalue, hfailure]
    rfl
  obtain ⟨-, hreports, -⟩ := run_agrees 2 none texts none inputs
  obtain ⟨shown, text, status, errors, -, hexits, -, hreport⟩ := (hreports texts hsources).2 _ _ hr
  have hfailed : Exits (.error (.reading (.unexpectedToken .close))) status errors := hexits
  cases hfailed with
  | failure _ => exact ⟨hsources, hr, shown, text, hreport⟩

end Batch

end SmallScheme
