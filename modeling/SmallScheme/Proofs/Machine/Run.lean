import SmallScheme.Machine

/-! # Runs of the machine

A run of some steps has finished with a result or come to a state. Runs compose, a finished run
stays finished, and a run ends in one way only.
-/

namespace SmallScheme.State

variable {limit : Option Nat} {s t u : State} {m n : Nat} {r r' : Except EvalError Value}
  {w w' : World}

theorem run_succ_of_next (h : s.step limit = .next t) (n : Nat) :
    s.run limit (n + 1) = t.run limit n := by
  simp only [run, h]

theorem run_succ_of_halt (h : s.step limit = .halt r w) (n : Nat) :
    s.run limit (n + 1) = .finished r w := by
  simp only [run, h]

theorem run_add (h : s.run limit m = .unfinished t) (n : Nat) :
    s.run limit (m + n) = t.run limit n := by
  induction m generalizing s with
  | zero => cases h; rw [Nat.zero_add]
  | succ m ih =>
    rw [Nat.add_right_comm]
    cases hs : s.step limit with
    | next u =>
      rw [run_succ_of_next hs] at h ⊢
      exact ih h
    | halt r w => rw [run_succ_of_halt hs] at h; cases h

theorem run_stable (h : s.run limit m = .finished r w) (hm : m ≤ n) :
    s.run limit n = .finished r w := by
  induction n generalizing s m with
  | zero => rwa [Nat.le_zero.mp hm] at h
  | succ n ih =>
    cases m with
    | zero => cases h
    | succ m =>
      cases hs : s.step limit with
      | next u =>
        rw [run_succ_of_next hs] at h ⊢
        exact ih h (Nat.le_of_succ_le_succ hm)
      | halt r w => rwa [run_succ_of_halt hs] at h ⊢

theorem run_unfinished_of_le (h : s.run limit n = .unfinished t) (hm : m ≤ n) :
    ∃ u, s.run limit m = .unfinished u := by
  cases hr : s.run limit m with
  | unfinished u => exact ⟨u, rfl⟩
  | finished r w => rw [run_stable hr hm] at h; cases h

theorem run_succ_iff : s.run limit (n + 1) = .unfinished u ↔
    ∃ t, s.run limit n = .unfinished t ∧ t.step limit = .next u := by
  constructor
  · intro h
    obtain ⟨t, ht⟩ := run_unfinished_of_le h (Nat.le_succ n)
    rw [run_add ht] at h
    refine ⟨t, ht, ?_⟩
    cases hs : t.step limit with
    | next v => rw [run_succ_of_next hs] at h; cases h; rfl
    | halt r w => rw [run_succ_of_halt hs] at h; cases h
  · rintro ⟨t, ht, hs⟩
    rw [run_add ht, run_succ_of_next hs, run]

theorem run_finished_iff : s.run limit n = .finished r w ↔
    ∃ m < n, ∃ t, s.run limit m = .unfinished t ∧ t.step limit = .halt r w := by
  constructor
  · intro h
    induction n generalizing s with
    | zero => cases h
    | succ n ih =>
      cases hs : s.step limit with
      | next u =>
        rw [run_succ_of_next hs] at h
        obtain ⟨m, hm, t, ht, hstep⟩ := ih h
        exact ⟨m + 1, Nat.succ_lt_succ hm, t, by rw [run_succ_of_next hs, ht], hstep⟩
      | halt r' w' =>
        rw [run_succ_of_halt hs] at h
        cases h
        exact ⟨0, Nat.succ_pos n, s, rfl, hs⟩
  · rintro ⟨m, hm, t, ht, hstep⟩
    have hfinished : s.run limit (m + 1) = .finished r w := by
      rw [run_add ht, run_succ_of_halt hstep]
    exact run_stable hfinished hm

def Reaches (limit : Option Nat) (s t : State) : Prop := ∃ n, s.run limit n = .unfinished t

def Ends (limit : Option Nat) (s : State) (r : Except EvalError Value) (w : World) : Prop :=
  ∃ n, s.run limit n = .finished r w

theorem Reaches.refl (s : State) : Reaches limit s s := ⟨0, rfl⟩

theorem Reaches.head (h : s.step limit = .next t) (ht : Reaches limit t u) :
    Reaches limit s u := by
  obtain ⟨n, hn⟩ := ht
  exact ⟨n + 1, by rw [run_succ_of_next h, hn]⟩

theorem Reaches.trans (h : Reaches limit s t) (ht : Reaches limit t u) : Reaches limit s u := by
  obtain ⟨m, hm⟩ := h
  obtain ⟨n, hn⟩ := ht
  exact ⟨m + n, by rw [run_add hm, hn]⟩

theorem Reaches.ends (h : Reaches limit s t) (ht : Ends limit t r w) : Ends limit s r w := by
  obtain ⟨m, hm⟩ := h
  obtain ⟨n, hn⟩ := ht
  exact ⟨m + n, by rw [run_add hm, hn]⟩

theorem Ends.of_halt (h : s.step limit = .halt r w) : Ends limit s r w :=
  ⟨1, run_succ_of_halt h 0⟩

theorem Ends.head (h : s.step limit = .next t) (ht : Ends limit t r w) : Ends limit s r w :=
  (Reaches.head h (.refl t)).ends ht

/-- Induction along a run, from its result back to its start. -/
theorem Ends.induction {P : State → Prop} (halt : ∀ s, s.step limit = .halt r w → P s)
    (next : ∀ s t, s.step limit = .next t → P t → P s) (h : Ends limit s r w) : P s := by
  obtain ⟨n, hn⟩ := h
  induction n generalizing s with
  | zero => cases hn
  | succ n ih =>
    cases hs : s.step limit with
    | next t =>
      rw [run_succ_of_next hs] at hn
      exact next s t hs (ih hn)
    | halt r' w' =>
      rw [run_succ_of_halt hs] at hn
      cases hn
      exact halt s hs

end SmallScheme.State
