import SmallScheme.Proofs.Token.Written

/-! # Characters that were given back

Some of the unread characters may have been taken on trial and given back, by this call or by one
before it. No rule can tell them from characters that nothing has looked at yet: what a call answers
and what it takes depends on the unread text alone, and nothing of the text is lost on the way.
-/

namespace SmallScheme

def consumed (text : List Char) : List Char :=
  let lexeme :=
    match skipped text with
    | [] => 0
    | c :: rest => (Lexeme.front c rest).length
  text.take (atmosphere false text + lexeme)

namespace Input

/-- What a scanner reads from that starts on the unread text. -/
def afresh (i : Input) : Input := ofString (String.ofList i.unread)

@[simp] theorem afresh_unread (i : Input) : i.afresh.unread = i.unread := String.toList_ofList

@[simp] theorem scanner_input (i : Input) : i.scanner.input = i := by
  simp [scanner, Scanner.input, unread]

/-- What a call answers and what it leaves are functions of the unread text. -/
theorem next_eq (i : Input) :
    i.next.1 = (match skipped i.unread with
      | [] => none
      | c :: rest => some (Lexeme.front c rest).result) ∧
      i.unread = consumed i.unread ++ i.next.2.unread := by
  have hskip : (i.skipAtmosphere false).unread = skipped i.unread := i.skipAtmosphere_unread
  suffices hdrop : ∃ n, consumed i.unread = i.unread.take n ∧ i.next.2.unread = i.unread.drop n by
    obtain ⟨n, htake, hdrop⟩ := hdrop
    refine ⟨?_, by rw [htake, hdrop, List.take_append_drop]⟩
    cases hskipped : skipped i.unread with
    | nil => rw [next_of_nil (hskip.trans hskipped)]
    | cons c rest =>
      obtain ⟨j, hnext, -⟩ := next_of_cons (hskip.trans hskipped)
      rw [hnext]
  refine ⟨_, rfl, ?_⟩
  cases hskipped : skipped i.unread with
  | nil => rw [next_of_nil (hskip.trans hskipped), hskip, skipped, Nat.add_zero]
  | cons c rest =>
    obtain ⟨j, hnext, hj⟩ := next_of_cons (hskip.trans hskipped)
    rw [hnext, ← scanner_unread, hj, Scanner.advance_unread, scanner_unread, hskip, skipped,
      List.drop_drop]

theorem readMatchFrom_toLower (i : Input) (taken word : List Char) :
    i.readMatchFrom taken (word.map Char.toLower) = i.readMatchFrom taken word := by
  induction word generalizing i taken with
  | nil => rfl
  | cons w word ih =>
    have hw : w.toLower.toLower = w.toLower :=
      Character.toLower_of_not_isUpper (Character.not_isUpper_toLower w)
    simp only [List.map_cons, readMatchFrom, hw, ih]

/-- A word is taken as a whole, or not at all if something else comes next. -/
theorem readMatch_unread (i : Input) (word : List Char) :
    if (i.readMatch word).1 then
      ∃ text, i.unread = text ++ (i.readMatch word).2.unread ∧
        text.map Char.toLower = word.map Char.toLower
    else (i.readMatch word).2.unread = i.unread ∧
      ∀ text, text <+: i.unread → text.map Char.toLower ≠ word.map Char.toLower := by
  have hword : (word.map Char.toLower).map Char.toLower = word.map Char.toLower :=
    Lexeme.map_toLower (List.forall_mem_map.mpr fun c _ => Character.not_isUpper_toLower c)
  have hmatch : i.readMatch word = i.readMatch (word.map Char.toLower) :=
    (i.readMatchFrom_toLower [] word).symm
  rw [hmatch]
  by_cases h : startsWith (word.map Char.toLower) i.unread
  · obtain ⟨j, hfound, hj⟩ := readMatch_of_startsWith hword h
    obtain ⟨text, rest, hunread, htext⟩ := Lexeme.exists_of_startsWith h
    have hrest : j.unread = rest := by
      rw [← scanner_unread, hj, Scanner.advance_unread, scanner_unread, hunread,
        Lexeme.drop_of_map_toLower htext]
    rw [hfound, if_pos rfl, hrest]
    exact ⟨text, hunread, htext⟩
  · obtain ⟨j, hfound, hj⟩ := readMatch_of_not_startsWith hword h
    have hsame : j.unread = i.unread := congrArg Scanner.unread hj
    rw [hfound, if_neg Bool.false_ne_true]
    refine ⟨hsame, ?_⟩
    rintro text ⟨rest, hunread⟩ htext
    exact h (hunread ▸ Lexeme.startsWith_of_map_toLower htext rest)

theorem iterate_next (source : String) (n : Nat) :
    ((fun s : Scanner => s.next.2)^[n] (.ofString source)).input =
      (fun i : Input => i.next.2)^[n] (ofString source) := by
  have hstep : Function.Semiconj Scanner.input (fun s : Scanner => s.next.2)
      (fun i : Input => i.next.2) := fun s => scanner_input s.input.next.2
  exact hstep.iterate_right n (.ofString source)

theorem iterate_next_suffix (i : Input) (n : Nat) :
    ((fun i : Input => i.next.2)^[n] i).unread <:+ i.unread := by
  induction n with
  | zero => exact List.suffix_rfl
  | succ n ih =>
    rw [Function.iterate_succ_apply']
    exact (next_suffix _).trans ih

/-- A call shortens the unread text by what it consumes, and answers as a scanner does that starts
on it. -/
theorem pushback_transparent (source : String) (n : Nat) (i : Input) (word : List Char) :
    (((fun s : Scanner => s.next.2)^[n] (.ofString source)).input =
        (fun i : Input => i.next.2)^[n] (ofString source) ∧
      ((fun i : Input => i.next.2)^[n] (ofString source)).unread <:+ source.toList) ∧
    (i.unread = consumed i.unread ++ i.next.2.unread ∧
      i.afresh.next.1 = i.next.1 ∧ i.afresh.next.2.unread = i.next.2.unread) ∧
    if (i.readMatch word).1 then
      ∃ text, i.unread = text ++ (i.readMatch word).2.unread ∧
        text.map Char.toLower = word.map Char.toLower
    else (i.readMatch word).2.unread = i.unread ∧
      ∀ text, text <+: i.unread → text.map Char.toLower ≠ word.map Char.toLower := by
  obtain ⟨hanswer, hunread⟩ := i.next_eq
  obtain ⟨hanswer', hunread'⟩ := i.afresh.next_eq
  rw [afresh_unread] at hanswer' hunread'
  refine ⟨⟨iterate_next source n, iterate_next_suffix (ofString source) n⟩, ⟨hunread, ?_, ?_⟩,
    i.readMatch_unread word⟩
  · rw [hanswer, hanswer']
  · exact List.append_cancel_left (hunread'.symm.trans hunread)

/-- Two letters were compared with a name in vain, and are read as a symbol by the next call. -/
example :
    let i := (ofString "#\\Nex y").next
    i.1 = some (.error (.expectedDelimiter 'e')) ∧ i.2.pushback = ['e', 'x'] ∧
      i.2.next.1 = some (.ok (.atom (.symbol ⟨"ex"⟩))) := ⟨rfl, rfl, rfl⟩

end Input

end SmallScheme
