import Aesd.Device.Mutex
import Aesd.Lib.Progress

/-!
# Every call on the device returns

`aesd_read`, `aesd_write`, `aesd_llseek` and `aesd_unlocked_ioctl` have no loop around their
blocking points, and the one point where they block is the lock attempt.  The owner of the mutex is
always a call that has its body or its unlock before it, so it can go on; this holds although an
interrupted call may unlock the mutex of another one.

* `step_rank`: each event brings its call nearer to its return, and no other call;
* `exists_step`: as long as a call has not returned, some call can go on without a signal;
* `calls_return`: every run is short, and every run can be brought to its end.
-/

namespace Aesd

/-- How many events a call has before it at most. -/
def Phase.rank : Phase → ℕ
  | .enter => 5
  | .lock _ => 4
  | .body _ => 3
  | .unlock _ _ => 2
  | .leave _ _ => 1
  | .done _ => 0

/-- The call has returned. -/
def Phase.Returned (p : Phase) : Prop := ∃ r, p = .done r

/-- The event is the end of a lock attempt by a signal. -/
def Event.IsSignal {ι : Type*} (e : Event ι) : Prop := ∃ i, e = .interrupt i

namespace Sys

variable {ι : Type*} [DecidableEq ι]

section Rank

variable {K : Kernel} {calls : ι → Call} {s t : Sys ι}

theorem rank_entry (fPos : ℤ) (q : Request) : (q.entry fPos).rank < 5 := by
  rcases entry_cases fPos q with h | ⟨r, h⟩ <;> simp [h, Phase.rank]

theorem rank_interrupted (pos : ℤ) (q : Request) : (q.interrupted pos).rank < 4 := by
  cases q <;> simp [Request.interrupted, Phase.rank]

/-- An event brings its call nearer to its return. -/
theorem step_rank {e : Event ι} (h : s.step K calls e = some t) :
    (t.phase e.call).rank < (s.phase e.call).rank := by
  cases e with
  | enter i =>
    obtain ⟨hp, ht, -⟩ := step_enter h
    rw [Event.call, hp, ht]
    exact rank_entry _ _
  | acquire i =>
    obtain ⟨pos, hp, -, ht, -⟩ := step_acquire h
    simp [Event.call, hp, ht, Phase.rank]
  | interrupt i =>
    obtain ⟨pos, hp, ht, -⟩ := step_interrupt h
    rw [Event.call, hp, ht]
    exact rank_interrupted _ _
  | body i =>
    obtain ⟨pos, r, pos', hp, ht, -⟩ := step_body h
    simp [Event.call, hp, ht, Phase.rank]
  | unlock i =>
    obtain ⟨r, pos, hp, ht, -⟩ := step_unlock h
    simp [Event.call, hp, ht, Phase.rank]
  | leave i =>
    obtain ⟨r, pos, r', hp, ht, -⟩ := step_leave h
    simp [Event.call, hp, ht, Phase.rank]

/-- How many events all calls together have before them at most. -/
def rank [Fintype ι] (s : Sys ι) : ℕ := ∑ i, (s.phase i).rank

omit [DecidableEq ι] in
theorem rank_start [Fintype ι] (d : Dev) (fPos : ℕ → ℤ) :
    (start d fPos : Sys ι).rank = 5 * Fintype.card ι := by
  simp [rank, start, Phase.rank, Nat.mul_comm]

theorem step_rank_lt [Fintype ι] {e : Event ι} (h : s.step K calls e = some t) :
    t.rank < s.rank := by
  refine Finset.sum_lt_sum (fun i _ => ?_) ⟨e.call, Finset.mem_univ _, step_rank h⟩
  by_cases hi : i = e.call
  · exact hi ▸ (step_rank h).le
  · rw [step_phase_ne h hi]

end Rank

section Enabled

variable {K : Kernel} {calls : ι → Call} {d : Dev} {fPos : ℕ → ℤ} {es : List (Event ι)} {t : Sys ι}

/-- The owner of the mutex can go on. -/
theorem exists_step_owner (h : Exec.run (step K calls) (start d fPos) es = some t) {i : ι}
    (ho : t.owner = some i) : ∃ e, ¬ e.IsSignal ∧ (t.step K calls e).isSome := by
  obtain ⟨ha, hu⟩ := owner_past h ho
  have hpast := phase_past h i
  rw [ha, hu] at hpast
  cases hp : t.phase i with
  | body pos => exact ⟨.body i, by simp [Event.IsSignal], by simp [step, hp]⟩
  | unlock r pos => exact ⟨.unlock i, by simp [Event.IsSignal], by simp [step, hp]⟩
  | enter | lock | leave | done => simp [hp, Phase.Past] at hpast

/-- **No deadlock.**  As long as a call has not returned, some call can go on without a signal. -/
theorem exists_step (h : Exec.run (step K calls) (start d fPos) es = some t) {i : ι}
    (hi : ¬ (t.phase i).Returned) : ∃ e, ¬ e.IsSignal ∧ (t.step K calls e).isSome := by
  cases hp : t.phase i with
  | enter => exact ⟨.enter i, by simp [Event.IsSignal], by simp [step, hp]⟩
  | lock pos =>
    -- the mutex is free, or its owner is not at a lock attempt
    cases ho : t.owner with
    | none => exact ⟨.acquire i, by simp [Event.IsSignal], by simp [step, hp, ho]⟩
    | some j => exact exists_step_owner h ho
  | body pos => exact ⟨.body i, by simp [Event.IsSignal], by simp [step, hp]⟩
  | unlock r pos => exact ⟨.unlock i, by simp [Event.IsSignal], by simp [step, hp]⟩
  | leave r pos => exact ⟨.leave i, by simp [Event.IsSignal], by simp [step, hp]⟩
  | done r => exact absurd ⟨r, hp⟩ hi

/-- A call that has returned does not own the mutex. -/
theorem returned_not_owner (h : Exec.run (step K calls) (start d fPos) es = some t) {i : ι}
    (hi : (t.phase i).Returned) : t.owner ≠ some i := by
  intro ho
  obtain ⟨ha, hu⟩ := owner_past h ho
  obtain ⟨r, hp⟩ := hi
  have hpast := phase_past h i
  rw [hp, ha, hu] at hpast
  simp [Phase.Past] at hpast

/-- All calls have returned, and the mutex is free. -/
def Quiescent (t : Sys ι) : Prop := t.owner = none ∧ ∀ i, (t.phase i).Returned

theorem quiescent_of_returned (h : Exec.run (step K calls) (start d fPos) es = some t)
    (hall : ∀ i, (t.phase i).Returned) : t.Quiescent := by
  refine ⟨?_, hall⟩
  cases ho : t.owner with
  | none => rfl
  | some i => exact absurd ho (returned_not_owner h (hall i))

theorem exists_step_of_not_quiescent (h : Exec.run (step K calls) (start d fPos) es = some t)
    (hq : ¬ t.Quiescent) : ∃ e u, ¬ e.IsSignal ∧ t.step K calls e = some u := by
  by_contra hno
  refine hq (quiescent_of_returned h fun i => ?_)
  by_contra hi
  obtain ⟨e, hsig, he⟩ := exists_step h hi
  obtain ⟨u, hu⟩ := Option.isSome_iff_exists.1 he
  exact hno ⟨e, u, hsig, hu⟩

end Enabled

/-- **Every call returns.**  Whatever calls are under way on the device, on whatever files and with
whatever signals: no run has more than five events for each call; a run that cannot go on without a
signal has come to its end, with all calls returned and the mutex free; and every run can be
brought to that end without a signal. -/
theorem calls_return [Fintype ι] {K : Kernel} {calls : ι → Call} {d : Dev} {fPos : ℕ → ℤ}
    {es : List (Event ι)} {t : Sys ι}
    (h : Exec.run (step K calls) (start d fPos) es = some t) :
    es.length ≤ 5 * Fintype.card ι ∧
    ((∀ e u, t.step K calls e = some u → e.IsSignal) → t.Quiescent) ∧
    ∃ es' t', (∀ e ∈ es', ¬ e.IsSignal) ∧ Exec.run (step K calls) t es' = some t' ∧
      t'.Quiescent := by
  refine ⟨?_, fun hend => ?_, ?_⟩
  · have hlower : ∀ (s : Sys ι) e t, True → True → s.step K calls e = some t →
        True ∧ t.rank < s.rank := fun s e t _ _ he => ⟨trivial, step_rank_lt he⟩
    have hle := (Exec.run_length_le hlower trivial (fun _ _ => trivial) h).2
    rw [rank_start] at hle
    omega
  · by_contra hq
    obtain ⟨e, u, hsig, he⟩ := exists_step_of_not_quiescent h hq
    exact hsig (hend e u he)
  · -- every state on the way is reached by a run, so it is not stuck before the end
    have hmove : ∀ s : Sys ι, (∃ es, Exec.run (step K calls) (start d fPos) es = some s) →
        ¬ s.Quiescent → ∃ e u, ¬ e.IsSignal ∧ s.step K calls e = some u ∧
          (∃ es, Exec.run (step K calls) (start d fPos) es = some u) ∧ u.rank < s.rank := by
      rintro s ⟨es, hs⟩ hq
      obtain ⟨e, u, hsig, he⟩ := exists_step_of_not_quiescent hs hq
      exact ⟨e, u, hsig, he, ⟨es ++ [e], Exec.run_concat.2 ⟨s, hs, he⟩⟩, step_rank_lt he⟩
    obtain ⟨es', t', hall, hrun, -, hq⟩ := Exec.exists_run_goal hmove ⟨es, h⟩
    exact ⟨es', t', hall, hrun, hq⟩

/-- A read that was interrupted has unlocked the mutex of a write, and a second write is inside
with the first: all three return. -/
theorem calls_return_after_signal :
    let calls : Fin 3 → Call := fun i => ⟨i, if i = 1 then .read 1 false
      else .write (.served [97, newline])⟩
    let es : List (Event (Fin 3)) := [.enter 0, .acquire 0, .enter 1, .interrupt 1, .unlock 1,
      .enter 2, .acquire 2]
    ∃ t, Exec.run (step .x86 calls) (start aesdInitModule fun _ => 0) es = some t ∧
      t.owner = some 2 ∧
      ∃ es' t', (∀ e ∈ es', ¬ e.IsSignal) ∧ Exec.run (step .x86 calls) t es' = some t' ∧
        t'.Quiescent := by
  intro calls es
  have hrun : ∃ t, Exec.run (step .x86 calls) (start aesdInitModule fun _ => 0) es = some t ∧
      t.owner = some 2 := ⟨_, rfl, rfl⟩
  obtain ⟨t, hrun, howner⟩ := hrun
  exact ⟨t, hrun, howner, (calls_return hrun).2.2⟩

end Sys

end Aesd
