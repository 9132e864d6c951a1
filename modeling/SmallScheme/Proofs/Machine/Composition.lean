import SmallScheme.Proofs.Datum.Joined

/-! # Texts one behind the other

The data of a program are evaluated in order, so data in two parts are evaluated part by part. A text
that is put behind another, on a line of its own, is evaluated in the world that the first one
leaves; a failure of the first is not undone by it.
-/

namespace SmallScheme

variable {w w' : World} {limits : Limits} {ρ : ScopeRef} {last v : Value} {f : Failure}
  {ds : List (Except SyntaxError Datum)} {d : Except SyntaxError Datum}

namespace World

theorem evaluateData_append (w : World) (limits : Limits) (ρ : ScopeRef) (last : Value)
    (ds more : List (Except SyntaxError Datum)) : w.evaluateData limits ρ last (ds ++ more) =
      match w.evaluateData limits ρ last ds with
      | .finished (.ok v) w' => w'.evaluateData limits ρ v more
      | stopped => stopped := by
  induction ds generalizing w last with
  | nil => rfl
  | cons d ds ih =>
    rw [List.cons_append, evaluateData, evaluateData]
    cases w.evaluateDatum limits ρ d with
    | unfinished w' => rfl
    | finished r w' =>
      cases r with
      | error f => rfl
      | ok v => exact ih w' v

theorem evaluateData_congr (h : ds ≠ []) (v v' : Value) :
    w.evaluateData limits ρ v ds = w.evaluateData limits ρ v' ds := by
  cases ds with
  | nil => exact (h rfl).elim
  | cons d ds => rfl

/-- The first datum that fails decides how the program fails. -/
theorem evaluateData_eq_error_iff : w.evaluateData limits ρ last ds = .finished (.error f) w' ↔
    ∃ before d after v w₁, ds = before ++ d :: after ∧
      w.evaluateData limits ρ last before = .finished (.ok v) w₁ ∧
      w₁.evaluateDatum limits ρ d = .finished (.error f) w' := by
  constructor
  · intro h
    induction ds generalizing w last with
    | nil => cases h
    | cons d ds ih =>
      rw [evaluateData] at h
      split at h
      · rename_i v w₁ hd
        obtain ⟨before, d', after, v', w₂, rfl, hbefore, hd'⟩ := ih h
        refine ⟨d :: before, d', after, v', w₂, rfl, ?_, hd'⟩
        rw [evaluateData, hd]
        exact hbefore
      · exact ⟨[], d, ds, last, w, rfl, rfl, h⟩
  · rintro ⟨before, d, after, v, w₁, rfl, hbefore, hd⟩
    rw [evaluateData_append, hbefore]
    simp only [evaluateData, hd]

theorem error_not_mem_of_evaluateData (h : w.evaluateData limits ρ last ds = .finished (.ok v) w')
    (e : SyntaxError) : .error e ∉ ds := by
  induction ds generalizing w last with
  | nil => exact List.not_mem_nil
  | cons d ds ih =>
    rw [evaluateData] at h
    split at h
    · rename_i hd
      rw [List.mem_cons]
      rintro (rfl | hmem)
      · cases hd
      · exact ih h hmem
    · rename_i hd
      exact (hd v w' h).elim

/-- A text that ends with a value is followed by the next one. -/
theorem evaluateText_join {a : String} (h : w.evaluateText limits ρ a = .finished (.ok v) w')
    (b : String) : w.evaluateText limits ρ (a ++ "\n" ++ b) =
      w'.evaluateData limits ρ v (Datum.readEach b) := by
  have hno : .error .unexpectedEnd ∉ Datum.readEach a := error_not_mem_of_evaluateData h _
  rw [evaluateText] at h
  rw [evaluateText, Datum.readEach_join hno, evaluateData_append, h]

/-- A failure stays the same whatever comes behind, unless the text has ended too early. -/
theorem evaluateText_join_of_error {a : String}
    (h : w.evaluateText limits ρ a = .finished (.error f) w') (hf : f ≠ .reading .unexpectedEnd)
    (b : String) : w.evaluateText limits ρ (a ++ "\n" ++ b) = .finished (.error f) w' := by
  obtain ⟨before, d, after, v, w₁, hread, hbefore, hd⟩ := evaluateData_eq_error_iff.mp h
  have hno : .error .unexpectedEnd ∉ before ++ [d] := by
    rw [List.mem_append, List.mem_singleton]
    rintro (hmem | rfl)
    · exact error_not_mem_of_evaluateData hbefore _ hmem
    · cases hd
      exact hf rfl
  have hsplit : Datum.readEach a = before ++ [d] ++ after := by simpa using hread
  obtain ⟨rest, hjoin⟩ := Datum.readEach_join_of_prefix hsplit hno b
  exact evaluateData_eq_error_iff.mpr ⟨before, d, rest, v, w₁, by simpa using hjoin, hbefore, hd⟩

end World

/-- A text behind another one is read and evaluated where that one ends, unless it fails. -/
theorem Program.texts_compose (a b : String) :
    (∀ xs, Datum.readAll a = .ok xs →
      Datum.readAll (a ++ "\n" ++ b) = (xs ++ ·) <$> Datum.readAll b) ∧
    ∀ (w w' : World) (limits : Limits) (ρ : ScopeRef),
      (∀ v, w.evaluateText limits ρ a = .finished (.ok v) w' →
        (¬ Atmosphere (b.toList ++ ['\n']) →
          w.evaluateText limits ρ (a ++ "\n" ++ b) = w'.evaluateText limits ρ b) ∧
        (Atmosphere (b.toList ++ ['\n']) →
          w.evaluateText limits ρ (a ++ "\n" ++ b) = .finished (.ok v) w' ∧
          w'.evaluateText limits ρ b = .finished (.ok .void) w')) ∧
      ∀ f, w.evaluateText limits ρ a = .finished (.error f) w' → f ≠ .reading .unexpectedEnd →
        w.evaluateText limits ρ (a ++ "\n" ++ b) = .finished (.error f) w' := by
  refine ⟨fun xs h => Datum.readAll_join h b, fun w w' limits ρ => ⟨fun v h => ?_, ?_⟩⟩
  · rw [World.evaluateText_join h, World.evaluateText, ← Datum.readEach_eq_nil_iff]
    constructor
    · intro hdata
      exact World.evaluateData_congr hdata v .void
    · intro hnone
      rw [hnone]
      exact ⟨rfl, rfl⟩
  · intro f h hf
    exact World.evaluateText_join_of_error h hf b

theorem Program.texts_compose_comment :
    let ρ := World.withPrelude.1
    let w := World.withPrelude.2
    let limits : Limits := ⟨none, 2⟩
    let yes := Datum.atom (.boolean true)
    let fails := Outcome.finished (.error (.reading (.unexpectedToken .close))) w
    Datum.readAll "#t;" = .ok [yes] ∧
      Datum.readAll ("#t;" ++ "\n" ++ "#f") = ([yes] ++ ·) <$> Datum.readAll "#f" ∧
      w.evaluateText limits ρ "#t;" = .finished (.ok (.atom (.boolean true))) w ∧
      ¬ Atmosphere ("#f".toList ++ ['\n']) ∧
      w.evaluateText limits ρ ("#t;" ++ "\n" ++ "#f") = w.evaluateText limits ρ "#f" ∧
      w.evaluateText limits ρ ")" = fails ∧
      w.evaluateText limits ρ (")" ++ "\n" ++ "#f") = fails := by
  intro ρ w limits yes fails
  have htrue : (Scanner.ofString "#t;").next =
      (some (.ok (.atom (.boolean true))), ⟨[';'], 0, ⟨1, 3⟩⟩) := rfl
  have hclose : (Scanner.ofString ")").next = (some (.ok .close), ⟨[], 0, ⟨1, 2⟩⟩) := rfl
  have heach : Datum.readEach "#t;" = [.ok yes] := by
    rw [Datum.readEach, Scanner.data_of_datum (Pending.next_of_token htrue),
      Scanner.data_of_skipped rfl]
    rfl
  have hread : Datum.readAll "#t;" = .ok [yes] := by
    rw [Datum.readAll, heach]
    rfl
  have hvalue : w.evaluateText limits ρ "#t;" = .finished (.ok (.atom (.boolean true))) w := by
    rw [World.evaluateText, heach]
    rfl
  have hfails : w.evaluateText limits ρ ")" = fails := by
    rw [World.evaluateText, Datum.readEach, Scanner.data_of_datum (Pending.next_of_token hclose),
      Scanner.data_of_nil rfl]
    rfl
  have hsome : ¬ Atmosphere ("#f".toList ++ ['\n']) := by
    rintro (_ | ⟨⟨⟩, _⟩)
  obtain ⟨hreads, hruns⟩ := texts_compose "#t;" "#f"
  exact ⟨hread, hreads _ hread, hvalue, hsome, ((hruns w w limits ρ).1 _ hvalue).1 hsome, hfails,
    ((texts_compose ")" "#f").2 w w limits ρ).2 _ hfails (by decide)⟩

end SmallScheme
