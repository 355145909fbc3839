import Aesd.Device.Conservation

/-!
# How the writer cuts its stream

A write that brings a newline commits all that waits, with everything behind the newline, as one
command.  So the device state after a stream depends on how the stream was cut into calls, but
only through the commit points: the positions at which a call with a newline ends.  Writers that
end a call at each newline all reach the same state, with one newline in each command.
-/

namespace Aesd

/-- Every call of the run returns the length of its buffer. -/
def AllAccepted (K : Kernel) (d : Dev) (ws : List WriteCall) : Prop :=
  (aesdWrites K d ws).2 = ws.map fun w => (w.buf.length : ℤ)

instance (K : Kernel) (d : Dev) (ws : List WriteCall) : Decidable (AllAccepted K d ws) :=
  inferInstanceAs (Decidable (_ = _))

/-- The buffers of the calls, in order. -/
def chunks (ws : List WriteCall) : List (List UInt8) := ws.map WriteCall.buf

section Accepted

variable {K : Kernel} {d : Dev} {a : Log}

/-- A run in which nothing is refused is a run of the log on the buffers. -/
theorem aesdWrites_accepted (h : Represents K d a) {ws : List WriteCall}
    (hall : AllAccepted K d ws) : Represents K (aesdWrites K d ws).1 (a.run (chunks ws)) := by
  induction ws generalizing d a with
  | nil => exact h
  | cons w ws ih =>
    obtain ⟨hret, hrest⟩ := List.cons_eq_cons.1 hall
    have htaken : (writeStep K d w).taken = w.buf := by
      unfold WriteStep.taken
      rw [show (writeStep K d w).retval = w.buf.length from hret, Int.toNat_natCast]
      exact List.take_length
    have hstep := writeStep_represents h w
    rw [htaken] at hstep
    exact ih hstep hrest

end Accepted

/-- **Command boundaries.**  Two ways of cutting one stream into calls lead to the same stored
commands and pending bytes if their commit points are the same, in particular if no call of
either goes on behind a newline.  Then each command has one newline, its last byte, and the bytes
behind the last newline are pending. -/
theorem aesdWrites_chunking (K : Kernel) (ws vs : List WriteCall)
    (hstream : (chunks ws).flatten = (chunks vs).flatten)
    (hws : AllAccepted K aesdInitModule ws) (hvs : AllAccepted K aesdInitModule vs) :
    let d := (aesdWrites K aesdInitModule ws).1
    let e := (aesdWrites K aesdInitModule vs).1
    (RecordLog.commitPoints newline 0 (chunks ws) = RecordLog.commitPoints newline 0 (chunks vs) →
      d.storedCommands = e.storedCommands ∧ d.pendingBytes = e.pendingBytes) ∧
    ((∀ c ∈ chunks ws, RecordLog.SepLast newline c) →
      (∀ c ∈ chunks vs, RecordLog.SepLast newline c) →
      d.storedCommands = e.storedCommands ∧ d.pendingBytes = e.pendingBytes ∧
        (∀ c ∈ d.storedCommands, RecordLog.IsRecord newline c) ∧
        d.pendingBytes = (chunks ws).flatten.rtakeWhile (· ≠ newline)) := by
  intro d e
  have hd := aesdWrites_accepted (init_represents K) hws
  have he := aesdWrites_accepted (init_represents K) hvs
  set a := (RecordLog.empty newline).run (chunks ws) with ha
  have hsame : a = (RecordLog.empty newline).run (chunks vs) →
      d.storedCommands = e.storedCommands ∧ d.pendingBytes = e.pendingBytes := by
    intro hlog
    rw [← hlog] at he
    exact ⟨hd.storedCommands.trans he.storedCommands.symm,
      hd.pendingBytes.trans he.pendingBytes.symm⟩
  refine ⟨fun hpoints => hsame (RecordLog.run_congr _ hstream hpoints), fun hcw hcv => ?_⟩
  obtain ⟨hstored, hpend⟩ := hsame (RecordLog.run_eq_of_sepLast _ hstream hcw hcv)
  have hrec : ∀ c ∈ a.committed, RecordLog.IsRecord newline c :=
    RecordLog.record_of_sepLast _ (by simp [RecordLog.empty]) hcw
  refine ⟨hstored, hpend, ?_, ?_⟩
  · rw [hd.storedCommands]
    exact fun c hc => hrec c (List.mem_of_mem_drop hc)
  · rw [hd.pendingBytes, a.pending_eq_rtakeWhile hrec, ha, RecordLog.stream_run]
    rfl

/-- Two commands and an unfinished one, cut in two ways. -/
theorem aesdWrites_chunking_two_ways :
    let ws : List WriteCall := [[97, newline], [98, 99, newline], [100]].map .served
    let vs : List WriteCall := [[97], [newline], [98], [99, newline], [100]].map .served
    (aesdWrites .x86 aesdInitModule ws).1.storedCommands =
        (aesdWrites .x86 aesdInitModule vs).1.storedCommands ∧
      (aesdWrites .x86 aesdInitModule ws).1.pendingBytes = [100] := by
  intro ws vs
  obtain ⟨hstored, -, -, hpend⟩ := (aesdWrites_chunking .x86 ws vs (by decide +kernel)
    (by decide +kernel) (by decide +kernel)).2 (by decide +kernel) (by decide +kernel)
  exact ⟨hstored, hpend.trans (by decide +kernel)⟩

/-- Two commands in one call become one stored command. -/
theorem aesdWrites_chunking_fails :
    let ws : List WriteCall := [[97, newline, 98, newline]].map .served
    let vs : List WriteCall := [[97, newline], [98, newline]].map .served
    (chunks ws).flatten = (chunks vs).flatten ∧ AllAccepted .x86 aesdInitModule ws ∧
      AllAccepted .x86 aesdInitModule vs ∧
      (aesdWrites .x86 aesdInitModule ws).1.storedCommands = [[97, newline, 98, newline]] ∧
      (aesdWrites .x86 aesdInitModule vs).1.storedCommands = [[97, newline], [98, newline]] := by
  decide +kernel

end Aesd
