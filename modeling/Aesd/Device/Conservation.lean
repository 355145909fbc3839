import Aesd.Device.Refinement

/-!
# Stream conservation of the write path

A run of `aesd_write` is looked at call by call: `WriteStep` records the state before and after a
call with its return value, `taken` is the prefix of the user buffer that the return value
acknowledges, and `command` is the command the call commits, if the bytes that wait and the bytes
taken contain a newline.

The log of `Aesd.Device.Refinement` is determined by the steps (`steps_log`).  So the bytes taken
in a run are the commands committed, in their order, and the pending bytes; the ring holds the
last ten of the commands.
-/

namespace Aesd

/-- One call in a run. -/
structure WriteStep where
  before : Dev
  call : WriteCall
  retval : ℤ
  after : Dev

/-- The calls of a run, in order. -/
def aesdWriteSteps (K : Kernel) (d : Dev) : List WriteCall → List WriteStep
  | [] => []
  | w :: ws =>
    let r := aesdWrite K d true w
    ⟨d, w, r.2, r.1⟩ :: aesdWriteSteps K r.1 ws

theorem aesdWriteSteps_append (K : Kernel) (d : Dev) (ws ws' : List WriteCall) :
    aesdWriteSteps K d (ws ++ ws') =
      aesdWriteSteps K d ws ++ aesdWriteSteps K (aesdWrites K d ws).1 ws' := by
  induction ws generalizing d with
  | nil => rfl
  | cons w ws ih => simp only [List.cons_append, aesdWriteSteps, aesdWrites, ih]

theorem aesdWrites_append_fst (K : Kernel) (d : Dev) (ws ws' : List WriteCall) :
    (aesdWrites K d (ws ++ ws')).1 = (aesdWrites K (aesdWrites K d ws).1 ws').1 := by
  induction ws generalizing d with
  | nil => rfl
  | cons w ws ih => simp only [List.cons_append, aesdWrites, ih]

namespace WriteStep

/-- The bytes the return value acknowledges. -/
def taken (s : WriteStep) : List UInt8 := s.call.buf.take s.retval.toNat

/-- The bytes that wait in the device when the call decides whether to commit. -/
def accumulated (s : WriteStep) : List UInt8 := s.before.pendingBytes ++ s.taken

/-- The command the call commits. -/
def command (s : WriteStep) : Option (List UInt8) :=
  if newline ∈ s.accumulated then some s.accumulated else none

/-- The return value is a negative error, and nothing has changed, or it is the number of bytes
copied, which come from the front of the buffer. -/
def ReturnOk (s : WriteStep) : Prop :=
  (s.retval < 0 ∧ s.after = s.before) ∨
    (s.retval = (s.call.buf.length - s.call.notCopied : ℕ) ∧
      s.taken = s.call.buf.take (s.call.buf.length - s.call.notCopied))

/-- A call commits exactly if what has accumulated contains a newline; a commit appends to the
stored commands, of which at most ten are kept. -/
def CommitOk (s : WriteStep) : Prop :=
  (newline ∈ s.accumulated →
    s.after.storedCommands = (s.before.storedCommands ++ [s.accumulated]).rtake 10 ∧
      s.after.pendingBytes = []) ∧
  (newline ∉ s.accumulated →
    s.after.storedCommands = s.before.storedCommands ∧ s.after.pendingBytes = s.accumulated)

end WriteStep

section Step

variable {K : Kernel} {d : Dev} {a : Log}

/-- The step a call makes from state `d`. -/
def writeStep (K : Kernel) (d : Dev) (w : WriteCall) : WriteStep :=
  ⟨d, w, (aesdWrite K d true w).2, (aesdWrite K d true w).1⟩

theorem writeStep_returnOk (h : Represents K d a) (w : WriteCall) :
    (writeStep K d w).ReturnOk := by
  obtain ⟨-, hret⟩ := aesdWrite_refines h w
  have hnot := w.notCopied_le
  by_cases h0 : w.buf.length = 0
  · have hzero : (aesdWrite K d true w).2 = 0 := by rw [hret, logWrite, if_pos h0]
    have hnil : w.buf = [] := List.length_eq_zero_iff.1 h0
    right
    simp [writeStep, WriteStep.taken, hzero, hnil]
  · by_cases hs : Served K a w
    · have hval : (aesdWrite K d true w).2 = (w.buf.length - w.notCopied : ℕ) := by
        rw [hret, logWrite, if_neg h0, if_pos hs, w.accepted_length]
      right
      refine ⟨hval, ?_⟩
      simp only [writeStep, WriteStep.taken, hval, Int.toNat_natCast]
    · left
      have hneg : (aesdWrite K d true w).2 = -ENOMEM := by
        rw [hret, logWrite, if_neg h0, if_neg hs]
      refine ⟨by simp only [writeStep, hneg]; decide, ?_⟩
      obtain ⟨bs, h⟩ := h
      exact congrArg Prod.fst (aesdWriteBody_refused h h0 hs)

/-- On the log, a call is the acceptance of the bytes it acknowledges. -/
theorem logWrite_eq_accept (h : Represents K d a) (w : WriteCall) :
    (logWrite K a w).1 = a.accept (writeStep K d w).taken := by
  obtain ⟨-, hret⟩ := aesdWrite_refines h w
  have htaken : (writeStep K d w).taken = w.buf.take (logWrite K a w).2.toNat := by
    simp only [writeStep, WriteStep.taken, hret]
  rw [htaken]
  unfold logWrite
  split_ifs with h0 hs
  · simp
  · simp only [Int.toNat_natCast]
    rw [WriteCall.accepted_length]
    rfl
  · simp [ENOMEM]

theorem writeStep_represents (h : Represents K d a) (w : WriteCall) :
    Represents K (writeStep K d w).after (a.accept (writeStep K d w).taken) := by
  rw [← logWrite_eq_accept h]
  exact (aesdWrite_refines h w).1

theorem writeStep_accumulated (h : Represents K d a) (w : WriteCall) :
    (writeStep K d w).accumulated = a.pending ++ (writeStep K d w).taken := by
  unfold WriteStep.accumulated
  rw [show (writeStep K d w).before = d from rfl, h.pendingBytes]

theorem writeStep_commitOk (h : Represents K d a) (w : WriteCall) :
    (writeStep K d w).CommitOk := by
  have h' := writeStep_represents h w
  have hacc := writeStep_accumulated h w
  have hmem := RecordLog.sep_mem_append a (writeStep K d w).taken
  refine ⟨fun hn => ?_, fun hn => ?_⟩
  · rw [hacc, hmem] at hn
    rw [h'.storedCommands, h'.pendingBytes, stored_accept hn, (a.accept_mem hn).2, hacc,
      show (writeStep K d w).before = d from rfl, h.storedCommands]
    exact ⟨rfl, rfl⟩
  · rw [hacc, hmem] at hn
    rw [h'.storedCommands, h'.pendingBytes, (a.accept_not_mem hn).2, hacc,
      show (writeStep K d w).before = d from rfl, h.storedCommands, Log.stored, Log.stored,
      (a.accept_not_mem hn).1]
    exact ⟨rfl, rfl⟩

/-- The command a step commits is the record the log gains. -/
theorem committed_accept (h : Represents K d a) (w : WriteCall) :
    (a.accept (writeStep K d w).taken).committed =
      a.committed ++ (writeStep K d w).command.toList := by
  have hacc := writeStep_accumulated h w
  have hmem := RecordLog.sep_mem_append a (writeStep K d w).taken
  unfold WriteStep.command
  split_ifs with hn
  · rw [hacc, hmem] at hn
    rw [(a.accept_mem hn).1, hacc]
    rfl
  · rw [hacc, hmem] at hn
    rw [(a.accept_not_mem hn).1]
    simp

end Step

/-- The commands committed in a run, in the order of the commits. -/
def commits (steps : List WriteStep) : List (List UInt8) := steps.filterMap WriteStep.command

/-- The bytes taken in a run. -/
def takenStream (steps : List WriteStep) : List UInt8 := (steps.map WriteStep.taken).flatten

theorem takenStream_append (steps steps' : List WriteStep) :
    takenStream (steps ++ steps') = takenStream steps ++ takenStream steps' := by
  unfold takenStream
  rw [List.map_append, List.flatten_append]

/-- Every step of a run is as it should be, and together they make up the log. -/
theorem steps_log {K : Kernel} {d : Dev} {a : Log} (h : Represents K d a) (ws : List WriteCall) :
    ∃ a', Represents K (aesdWrites K d ws).1 a' ∧
      a'.committed = a.committed ++ commits (aesdWriteSteps K d ws) ∧
      a'.stream = a.stream ++ takenStream (aesdWriteSteps K d ws) ∧
      ∀ s ∈ aesdWriteSteps K d ws, s.ReturnOk ∧ s.CommitOk := by
  induction ws generalizing d a with
  | nil => exact ⟨a, h, by simp [commits, aesdWriteSteps], by simp [takenStream, aesdWriteSteps],
      by simp [aesdWriteSteps]⟩
  | cons w ws ih =>
    obtain ⟨a', h', hc, hs, hall⟩ := ih (writeStep_represents h w)
    have hsteps : aesdWriteSteps K d (w :: ws) =
        writeStep K d w :: aesdWriteSteps K (writeStep K d w).after ws := rfl
    refine ⟨a', h', ?_, ?_, ?_⟩
    · rw [hc, committed_accept h w, hsteps, commits, commits, List.append_assoc]
      congr 1
      cases hcmd : (writeStep K d w).command with
      | none => rw [List.filterMap_cons_none hcmd]; rfl
      | some c => rw [List.filterMap_cons_some hcmd]; rfl
    · rw [hs, RecordLog.stream_accept, hsteps]
      simp [takenStream]
    · rw [hsteps]
      intro s hmem
      rcases List.mem_cons.1 hmem with rfl | hmem
      · exact ⟨writeStep_returnOk h w, writeStep_commitOk h w⟩
      · exact hall s hmem

/-- The stream of a run is the evicted commands, the stored ones and the pending bytes. -/
theorem evicted_commands (K : Kernel) (ws : List WriteCall) :
    let steps := aesdWriteSteps K aesdInitModule ws
    let d := (aesdWrites K aesdInitModule ws).1
    ∃ D : List (List UInt8),
      takenStream steps = D.flatten ++ d.storedCommands.flatten ++ d.pendingBytes ∧
      D ++ d.storedCommands = commits steps ∧ D.length = (commits steps).length - 10 := by
  obtain ⟨a, h, hc, hs, -⟩ := steps_log (init_represents K) ws
  rw [show (RecordLog.empty newline).committed = [] from rfl, List.nil_append] at hc
  rw [show (RecordLog.empty newline).stream = [] from rfl, List.nil_append] at hs
  have hsplit : a.committed.take (a.committed.length - 10) ++ a.stored = a.committed :=
    List.take_append_drop _ _
  refine ⟨a.committed.take (a.committed.length - 10), ?_, ?_, ?_⟩
  · rw [h.storedCommands, h.pendingBytes, ← List.flatten_append, hsplit, ← hs]
    rfl
  · rw [h.storedCommands, hsplit, hc]
  · rw [← hc, List.length_take]
    omega

/-- **Stream conservation.**  In every run from the initialised module every call acknowledges
exactly the bytes it has taken and commits exactly if a newline has come in; the stream of bytes
taken is the evicted commands `D`, the stored ones and the pending bytes, and `D` are the oldest
of the commands committed, all but the last ten. -/
theorem aesdWrites_conserve (K : Kernel) (ws : List WriteCall) :
    let steps := aesdWriteSteps K aesdInitModule ws
    let d := (aesdWrites K aesdInitModule ws).1
    (∀ s ∈ steps, s.ReturnOk ∧ s.CommitOk) ∧
      (∃ D : List (List UInt8),
        takenStream steps = D.flatten ++ d.storedCommands.flatten ++ d.pendingBytes ∧
        D ++ d.storedCommands = commits steps ∧ D.length = (commits steps).length - 10) ∧
      d.storedCommands.length ≤ 10 ∧ newline ∉ d.pendingBytes ∧
      ∀ c ∈ d.storedCommands, newline ∈ c := by
  obtain ⟨a, h, -, -, hall⟩ := steps_log (init_represents K) ws
  refine ⟨hall, evicted_commands K ws, ?_, ?_, ?_⟩
  · rw [h.storedCommands, a.stored_length]
    exact Nat.min_le_right _ _
  · rw [h.pendingBytes]
    exact a.sep_not_mem
  · rw [h.storedCommands]
    intro c hmem
    exact a.sep_mem c (List.mem_of_mem_drop hmem)

end Aesd
