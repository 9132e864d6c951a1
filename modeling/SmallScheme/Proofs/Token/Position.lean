import SmallScheme.Proofs.Token.Pushback

/-! # Positions

Between two calls, a position counts all characters that have been taken from the text, each of them
once. That are those that have been consumed and those that were given back and wait to be read
again, of which there are at most six: no comparison with a word goes farther in vain.
-/

namespace SmallScheme

namespace Position

/-- A line feed ends a line, and so does a carriage return unless a line feed comes next. -/
def EndsLine (source : List Char) (n : Nat) : Prop :=
  source[n]? = some '\n' ∨ source[n]? = some '\r' ∧ source[n + 1]? ≠ some '\n'

/-- The position behind so many characters of a text. -/
inductive Reached (source : List Char) : Nat → Position → Prop

  | start : Reached source 0 ⟨1, 1⟩

  | nextLine {n line column : Nat} : Reached source n ⟨line, column⟩ → EndsLine source n →
      Reached source (n + 1) ⟨line + 1, 1⟩

  | nextColumn {n line column : Nat} : Reached source n ⟨line, column⟩ → n < source.length →
      ¬ EndsLine source n → Reached source (n + 1) ⟨line, column + 1⟩

/-- The one position is on an earlier line than the other, or on the same line and farther left. -/
def Before (p q : Position) : Prop := p.line < q.line ∨ p.line = q.line ∧ p.column < q.column

variable {p q r : Position} {source : List Char} {m n : Nat}

theorem Before.ne (h : p.Before q) : p ≠ q := by
  rintro rfl
  rcases h with h | ⟨-, h⟩ <;> exact Nat.lt_irrefl _ h

theorem Before.trans (h : p.Before q) (h' : q.Before r) : p.Before r := by
  unfold Before at *
  omega

theorem before_after (p : Position) (c : Char) (next : Option Char) :
    p.Before (p.after c next) := by
  unfold after
  split
  · exact .inl (Nat.lt_succ_self _)
  · exact .inr ⟨rfl, Nat.lt_succ_self _⟩

theorem before_walk (hn : 0 < n) (hsource : source ≠ []) (p : Position) :
    p.Before (p.walk n source) := by
  induction source generalizing p n with
  | nil => exact (hsource rfl).elim
  | cons c source ih =>
    obtain ⟨n, rfl⟩ := Nat.exists_eq_add_of_le' hn
    have hafter := p.before_after c source.head?
    by_cases h : 0 < n ∧ source ≠ []
    · exact hafter.trans (ih h.1 h.2 _)
    · have hstay : (p.after c source.head?).walk n source = p.after c source.head? := by
        rcases Nat.eq_zero_or_pos n with rfl | hn
        · rw [walk]
        · obtain rfl : source = [] := by simpa [hn] using h
          cases n <;> rw [walk]
      rw [walk, hstay]
      exact hafter

theorem walk_min (p : Position) (n : Nat) (source : List Char) :
    p.walk (min n source.length) source = p.walk n source := by
  induction source generalizing p n with
  | nil => cases n <;> simp [walk]
  | cons c source ih =>
    cases n with
    | zero => rw [Nat.zero_min]
    | succ n => rw [List.length_cons, Nat.add_min_add_right, walk, walk, ih]

theorem walk_succ (h : n < source.length) (p : Position) :
    p.walk (n + 1) source = (p.walk n source).after source[n] source[n + 1]? := by
  rw [walk_add, List.drop_eq_getElem_cons h, walk, walk, List.head?_drop]

theorem endsLine_iff (h : n < source.length) :
    EndsLine source n ↔ source[n] = '\n' ∨ source[n] = '\r' ∧ source[n + 1]? ≠ some '\n' := by
  rw [EndsLine, List.getElem?_eq_getElem h, Option.some_inj, Option.some_inj]

theorem reached_iff : Reached source n p ↔ n ≤ source.length ∧ p = start.walk n source := by
  constructor
  · intro h
    induction h with
    | start => exact ⟨Nat.zero_le _, rfl⟩
    | @nextLine n line column _ hends ih =>
      have hn : n < source.length := by
        by_contra hn
        simp [EndsLine, List.getElem?_eq_none (Nat.le_of_not_lt hn)] at hends
      rw [endsLine_iff hn] at hends
      refine ⟨hn, ?_⟩
      rw [walk_succ hn, ← ih.2, after, if_pos (by simpa using hends)]
    | nextColumn _ hn hends ih =>
      rw [endsLine_iff hn] at hends
      refine ⟨hn, ?_⟩
      rw [walk_succ hn, ← ih.2, after, if_neg (by simpa using hends)]
  · rintro ⟨hn, rfl⟩
    induction n with
    | zero => exact .start
    | succ n ih =>
      have hreached := ih (Nat.le_of_succ_le hn)
      rw [walk_succ hn, after]
      split
      · rename_i hends
        exact .nextLine hreached ((endsLine_iff hn).mpr (by simpa using hends))
      · rename_i hends
        exact .nextColumn hreached hn (mt (endsLine_iff hn).mp (by simpa using hends))

/-- More characters lead to a later position. -/
theorem Reached.before (hp : Reached source m p) (hq : Reached source n q) (h : m < n) :
    p.Before q := by
  obtain ⟨hm, rfl⟩ := reached_iff.mp hp
  obtain ⟨hn, rfl⟩ := reached_iff.mp hq
  obtain ⟨k, rfl⟩ := Nat.exists_eq_add_of_lt h
  rw [Nat.add_assoc, walk_add]
  refine before_walk (Nat.succ_pos k) ?_ _
  rw [ne_eq, List.drop_eq_nil_iff]
  omega

theorem Reached.walk {before taken rest : List Char} (h : Reached source before.length p)
    (hsource : source = before ++ (taken ++ rest)) :
    Reached source (before ++ taken).length (p.walk taken.length (taken ++ rest)) := by
  obtain ⟨-, rfl⟩ := reached_iff.mp h
  refine reached_iff.mpr ⟨?_, ?_⟩
  · simp [hsource]
  · rw [List.length_append, walk_add, hsource, List.drop_left]

end Position

namespace Lexeme

@[simp] theorem delimited_reach (result : Except SyntaxError Token) (length reach : Nat)
    (after : List Char) : (delimited result length reach after).reach = reach := by
  unfold delimited
  split
  · rfl
  · split <;> rfl

theorem compared_le (word text : List Char) : compared word text ≤ word.length := by
  induction word generalizing text with
  | nil => exact Nat.le_refl 0
  | cons w word ih =>
    cases text with
    | nil => exact Nat.zero_le _
    | cons c text =>
      rw [compared, List.length_cons]
      split
      · exact Nat.succ_le_succ (ih text)
      · exact Nat.succ_le_succ (Nat.zero_le _)

theorem reach_numeral (negative : Bool) (n : Nat) {reach : Nat} (h : reach ≤ 6) (first : Char)
    (rest : List Char) : (numeral negative n reach first rest).reach ≤
      (numeral negative n reach first rest).length + 6 := by
  simp only [numeral, delimited_reach, delimited_length]
  omega

theorem reach_signed (negative : Bool) (rest : List Char) :
    (signed negative rest).reach ≤ (signed negative rest).length + 6 := by
  have hinfinity := compared_le infinityName rest
  have hnan := compared_le nanName rest
  simp only [infinityName, nanName, List.length_cons, List.length_nil] at hinfinity hnan
  cases rest with
  | nil => exact Nat.le_add_right _ _
  | cons first more =>
    simp only [signed]
    split
    · exact Nat.le_add_right _ _
    split
    · simp
    split
    · simp
    · refine reach_numeral negative 1 ?_ first more
      simp only [infinityName, nanName]
      omega

theorem reach_character (rest : List Char) :
    (character rest).reach ≤ (character rest).length + 6 := by
  have hnewline := compared_le newlineName rest
  have hspace := compared_le spaceName rest
  simp only [newlineName, spaceName, List.length_cons, List.length_nil] at hnewline hspace
  unfold character
  repeat' split
  · simp
  · simp
  · simp [newlineName, spaceName, compared]
  · simp only [newlineName, spaceName, delimited_reach, delimited_length]
    omega

theorem reach_unquoted (plain splicing : Abbreviation) (n : Nat) (rest : List Char) :
    (unquoted plain splicing n rest).reach = (unquoted plain splicing n rest).length := by
  unfold unquoted
  split <;> rfl

theorem reach_hash (rest : List Char) : (hash rest).reach ≤ (hash rest).length + 6 := by
  unfold hash
  split
  · exact Nat.le_add_right _ _
  split
  · exact Nat.le_add_right _ _
  · exact Nat.le_add_right _ _
  · exact Nat.le_add_right _ _
  · exact (reach_unquoted _ _ _ _).trans_le (Nat.le_add_right _ _)
  · simp
  · simp
  · exact reach_character _
  · exact Nat.le_add_right _ _

theorem reach_dot (rest : List Char) : (dot rest).reach ≤ (dot rest).length + 6 := by
  have hdots := compared_le ['.', '.'] rest
  rw [List.length_cons, List.length_singleton] at hdots
  unfold dot
  split
  · simp
  · rw [delimited_reach, delimited_length]
    omega

/-- A rule looks at six characters at most behind its lexeme. -/
theorem reach_front (c : Char) (rest : List Char) :
    (front c rest).reach ≤ (front c rest).length + 6 := by
  unfold front
  split
  · simp [symbol]
  split
  · exact reach_numeral false 0 (Nat.zero_le 6) c rest
  split
  · exact reach_hash rest
  · exact Nat.le_add_right _ _
  · exact reach_dot rest
  · exact (reach_unquoted _ _ _ _).trans_le (Nat.le_add_right _ _)
  · exact reach_signed false rest
  · exact reach_signed true rest
  all_goals exact Nat.le_add_right _ _

end Lexeme

namespace Input

open Scanner

variable {i : Input} {source consumed : List Char}

theorem next_advance (i : Input) :
    ∃ n m, m ≤ n + 6 ∧ i.next.2.scanner = i.scanner.advance n m := by
  have hskip := i.skipAtmosphere_scanner false
  cases hskipped : (i.skipAtmosphere false).unread with
  | nil =>
    rw [next_of_nil hskipped]
    exact ⟨_, _, Nat.le_add_right _ _, hskip⟩
  | cons c rest =>
    obtain ⟨j, hnext, hj⟩ := next_of_cons hskipped
    rw [hskip, advance_advance] at hj
    rw [hnext]
    refine ⟨_, _, ?_, hj⟩
    have hreach := Lexeme.reach_front c rest
    omega

theorem next_takes (i : Input) : ∃ taken, i.rest = taken ++ i.next.2.rest ∧
    i.next.2.position = i.position.walk taken.length i.rest ∧
    (i.pushback.length ≤ 6 → i.next.2.pushback.length ≤ 6) := by
  obtain ⟨n, m, hreach, hscanner⟩ := i.next_advance
  simp only [scanner, advance_eq, Scanner.mk.injEq] at hscanner
  obtain ⟨hunread, hpushback, hposition⟩ := hscanner
  have hrest : ∀ j : Input, j.unread.drop j.pushback.length = j.rest := fun j => List.drop_left
  rw [hrest] at hposition
  have hnext : i.next.2.rest = i.rest.drop (max m n - i.pushback.length) := by
    rw [← hrest i.next.2, hunread, hpushback, ← hrest i, List.drop_drop, List.drop_drop]
    congr 1
    omega
  refine ⟨i.rest.take (max m n - i.pushback.length), ?_, ?_, fun h => ?_⟩
  · rw [hnext, List.take_append_drop]
  · rw [hposition, List.length_take, Position.walk_min]
  · omega

/-- The position is behind the characters that were given back, which are few. -/
structure Tracks (source consumed : List Char) (i : Input) : Prop where
  text : source = consumed ++ i.pushback ++ i.rest
  position : Position.Reached source (consumed ++ i.pushback).length i.position
  pushback : i.pushback.length ≤ 6

theorem Tracks.next (h : i.Tracks source consumed) : ∃ taken, i.rest = taken ++ i.next.2.rest ∧
    i.next.2.position = i.position.walk taken.length i.rest ∧
    Position.Reached source (consumed ++ i.pushback ++ taken).length i.next.2.position ∧
    i.next.2.Tracks source (consumed ++ SmallScheme.consumed i.unread) := by
  obtain ⟨taken, hrest, hposition, hpushback⟩ := i.next_takes
  have htext := h.text
  rw [hrest] at htext
  have hreached : Position.Reached source (consumed ++ i.pushback ++ taken).length
      i.next.2.position := by
    rw [hposition, hrest]
    exact h.position.walk htext
  -- What is in front of the rest that the call leaves has been consumed or was given back.
  have hfront : consumed ++ i.pushback ++ taken =
      consumed ++ SmallScheme.consumed i.unread ++ i.next.2.pushback := by
    refine @List.append_cancel_right _ _ i.next.2.rest _ ?_
    calc consumed ++ i.pushback ++ taken ++ i.next.2.rest
        _ = consumed ++ i.unread := by simp [unread, ← hrest]
        _ = consumed ++ (SmallScheme.consumed i.unread ++ i.next.2.unread) := by rw [← i.next_eq.2]
        _ = consumed ++ SmallScheme.consumed i.unread ++ i.next.2.pushback ++ i.next.2.rest := by
          simp only [unread, List.append_assoc]
  refine ⟨taken, hrest, hposition, hreached, ?_, hfront ▸ hreached, hpushback h.pushback⟩
  rw [← hfront, htext, List.append_assoc _ taken]

theorem tracks_iterate (source : String) (n : Nat) : ∃ consumed,
    ((fun i : Input => i.next.2)^[n] (ofString source)).Tracks source.toList consumed := by
  induction n with
  | zero => exact ⟨[], rfl, .start, Nat.zero_le 6⟩
  | succ n ih =>
    obtain ⟨consumed, h⟩ := ih
    obtain ⟨_, -, -, -, hnext⟩ := h.next
    rw [Function.iterate_succ_apply']
    exact ⟨_, hnext⟩

end Input

namespace Scanner

def afterCalls (source : String) (n : Nat) : Scanner :=
  (fun s : Scanner => s.next.2)^[n] (ofString source)

/-- The position counts every character once, also those that wait to be read again, six at most. -/
theorem position_counts_once (source : String) (n : Nat) :
    (afterCalls source n).input = (fun i : Input => i.next.2)^[n] (.ofString source) ∧
    ∃ consumed pushback rest, source.toList = consumed ++ pushback ++ rest ∧
      (afterCalls source n).input = ⟨pushback, rest, (afterCalls source n).position⟩ ∧
      (afterCalls source n).unread = pushback ++ rest ∧ pushback.length ≤ 6 ∧
      Position.Reached source.toList (consumed ++ pushback).length
        (afterCalls source n).position ∧
      (∃ unread, Position.Reached source.toList consumed.length unread ∧
        ((afterCalls source n).position = unread ↔ pushback = []) ∧
        (pushback ≠ [] → unread.Before (afterCalls source n).position)) ∧
      ∃ taken, rest = taken ++ (afterCalls source (n + 1)).input.rest ∧
        Position.Reached source.toList (consumed ++ pushback ++ taken).length
          (afterCalls source (n + 1)).position ∧
        (taken = [] → (afterCalls source (n + 1)).position = (afterCalls source n).position) := by
  have hsucc : afterCalls source (n + 1) = (afterCalls source n).next.2 :=
    Function.iterate_succ_apply' ..
  have hinput : (afterCalls source n).input = (fun i : Input => i.next.2)^[n] (.ofString source) :=
    Input.iterate_next source n
  rw [hsucc]
  generalize afterCalls source n = s at hinput ⊢
  obtain ⟨consumed, h⟩ := Input.tracks_iterate source n
  rw [← hinput] at h
  obtain ⟨taken, hrest, hposition, hnext, -⟩ := h.next
  have hlength : consumed.length ≤ source.toList.length := by simp [h.text]
  have hunread : Position.Reached source.toList consumed.length _ :=
    Position.reached_iff.mpr ⟨hlength, rfl⟩
  have hbefore : s.input.pushback ≠ [] →
      (Position.start.walk consumed.length source.toList).Before s.position := by
    intro hne
    refine hunread.before h.position ?_
    rw [List.length_append]
    exact Nat.lt_add_of_pos_right (List.length_pos_of_ne_nil hne)
  refine ⟨hinput, consumed, s.input.pushback, s.input.rest, h.text, rfl, s.input_unread.symm,
    h.pushback, h.position, ⟨_, hunread, ⟨fun heq => ?_, fun hnil => ?_⟩, hbefore⟩, taken, ?_,
    hnext, ?_⟩
  · by_contra hne
    exact (hbefore hne).ne heq.symm
  · have hposition := h.position
    rw [hnil, List.append_nil] at hposition
    exact (Position.reached_iff.mp hposition).2
  · rw [show s.next.2.input = s.input.next.2 from Input.scanner_input _, hrest]
  · rintro rfl
    rw [show s.next.2.position = _ from hposition]
    rfl

/-- The name of the line feed fails at its last letter. -/
example :
    let s := (ofString "#\\newlinx").next.2
    s.input.pushback = ['e', 'w', 'l', 'i', 'n', 'x'] ∧ s.position = ⟨1, 10⟩ := ⟨rfl, rfl⟩

end Scanner

end SmallScheme
