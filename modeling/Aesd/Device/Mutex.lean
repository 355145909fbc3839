import Aesd.Device.Request
import Aesd.Lib.Run

/-!
# Concurrent calls and the mutex

Any number of calls of `aesd_read`, `aesd_write`, `aesd_llseek` and `aesd_unlocked_ioctl` are
under way on one device; a call is at a `Phase` and goes on by an `Event`.  The VFS hands `read`
and `write` a copy of `filp->f_pos` (`enter`) and stores it back when they return (`leave`); in
between stand the lock attempt, which a signal may end at any time, the body and the unlock.
`mutex_unlock` frees the mutex whoever holds it.

`exit:` of `aesd_read`, `aesd_write` and `aesd_adjust_file_offset` stands before `mutex_unlock`,
and the failed lock attempt jumps there; `exit:` of `aesd_llseek` stands behind it.

* `run_alone`: a call that is alone does what `Aesd.Device` says;
* `phase_past`, `owner_past`: what holds in every run;
* `mutex_discipline_iff`: exactly when a run respects the mutex.
-/

namespace Aesd

/-- Where a call stands.  `pos` is the copy of `filp->f_pos` that the VFS hands down. -/
inductive Phase
  | enter
  | lock (pos : ℤ)
  | body (pos : ℤ)
  | unlock (r : Ret) (pos : ℤ)
  | leave (r : Ret) (pos : ℤ)
  | done (r : Ret)

namespace Request

/-- Before the lock attempt: `aesd_unlocked_ioctl` rejects what it does not know. -/
def entry (fPos : ℤ) : Request → Phase
  | read _ _ | write _ | llseek _ _ => .lock fPos
  | ioctl cmd arg =>
    if iocType cmd ≠ aesdIocMagic ∨ iocNr cmd > aesdcharIocMaxnr then .done ⟨-ENOTTY, []⟩
    else if cmd = aesdcharIocseekto then
      match arg with
      | none => .done ⟨-EFAULT, []⟩
      | some _ => .lock fPos
    else .done ⟨-ENOTTY, []⟩

/-- After a lock attempt that was interrupted: where the label `exit` stands. -/
def interrupted (pos : ℤ) : Request → Phase
  | read _ _ | write _ | ioctl _ _ => .unlock ⟨-ERESTARTSYS, []⟩ pos
  | llseek _ _ => .done ⟨-ERESTARTSYS, []⟩

/-- The code under the mutex: the device, `filp->f_pos`, what is returned, and the copy of
`filp->f_pos`.  `aesd_llseek` only computes the size here. -/
def critical (K : Kernel) (d : Dev) (fPos pos : ℤ) : Request → Dev × ℤ × Ret × ℤ
  | read count fault =>
    let r := aesdReadBody d pos count fault
    (r.dev, fPos, ⟨r.retval, r.data⟩, r.fPos)
  | write w =>
    let r := aesdWriteBody K d w
    (r.1, fPos, ⟨r.2, []⟩, pos)
  | llseek _ _ => (d, fPos, ⟨CInt.toLong d.circularBuffer.entriesTotalSize, []⟩, pos)
  | ioctl _ none => (d, fPos, ⟨-EFAULT, []⟩, pos)
  | ioctl _ (some s) =>
    let r := aesdAdjustFileOffsetBody d fPos s.writeCmd s.writeCmdOffset
    (d, r.2, ⟨r.1, []⟩, pos)

/-- Behind the unlock: `fixed_size_llseek`, and the VFS, which stores the position of a `read` or
`write` that has not failed. -/
def leave (fPos : ℤ) (r : Ret) (pos : ℤ) : Request → ℤ × Ret
  | read _ _ | write _ => (if 0 ≤ r.retval then pos else fPos, r)
  | llseek off whence =>
    let s := fixedSizeLlseek fPos off whence r.retval
    (s.2, ⟨s.1, []⟩)
  | ioctl _ _ => (fPos, r)

/-- The calls that work on a copy of the position. -/
def copies : Request → Bool
  | read _ _ | write _ => true
  | llseek _ _ | ioctl _ _ => false

end Request

/-- A call: the open file it is made on, and its arguments. -/
structure Call where
  file : ℕ
  request : Request

/-- What the phase of a call tells about its past: how often it has acquired the mutex, been
interrupted, and unlocked. -/
def Phase.Past : Phase → ℕ → ℕ → ℕ → Prop
  | .enter, a, n, u | .lock _, a, n, u => a = 0 ∧ n = 0 ∧ u = 0
  | .body _, a, n, u => a = 1 ∧ n = 0 ∧ u = 0
  | .unlock _ _, a, n, u => a + n = 1 ∧ u = 0
  | .leave _ _, a, n, u => a + n = 1 ∧ u = 1
  | .done _, a, n, u => a + n ≤ 1 ∧ a ≤ u ∧ u ≤ a + n

/-- The device, the positions of the open files, the owner of the mutex, and where each call
stands. -/
structure Sys (ι : Type*) where
  dev : Dev
  fPos : ℕ → ℤ
  owner : Option ι
  phase : ι → Phase

/-- What happens next, and to which call. -/
inductive Event (ι : Type*)
  | enter (i : ι)
  | acquire (i : ι)
  | interrupt (i : ι)
  | body (i : ι)
  | unlock (i : ι)
  | leave (i : ι)
  deriving DecidableEq

/-- The call an event is about. -/
def Event.call {ι : Type*} : Event ι → ι
  | enter i | acquire i | interrupt i | body i | unlock i | leave i => i

namespace Sys

variable {ι : Type*}

/-- No call has begun, and the mutex is free. -/
def start (d : Dev) (fPos : ℕ → ℤ) : Sys ι := ⟨d, fPos, none, fun _ => .enter⟩

variable [DecidableEq ι]

/-- Call `i` goes on to phase `p`. -/
def goto (s : Sys ι) (i : ι) (p : Phase) : Sys ι := { s with phase := Function.update s.phase i p }

/-- One step. -/
def step (K : Kernel) (calls : ι → Call) (s : Sys ι) : Event ι → Option (Sys ι)
  | .enter i => match s.phase i with
    | .enter => some (s.goto i ((calls i).request.entry (s.fPos (calls i).file)))
    | _ => none
  | .acquire i => match s.phase i, s.owner with
    | .lock pos, none => some { s.goto i (.body pos) with owner := some i }
    | _, _ => none
  | .interrupt i => match s.phase i with
    | .lock pos => some (s.goto i ((calls i).request.interrupted pos))
    | _ => none
  | .body i => match s.phase i with
    | .body pos =>
      let r := (calls i).request.critical K s.dev (s.fPos (calls i).file) pos
      some { s.goto i (.unlock r.2.2.1 r.2.2.2) with
        dev := r.1
        fPos := Function.update s.fPos (calls i).file r.2.1 }
    | _ => none
  | .unlock i => match s.phase i with
    -- whoever owns the mutex
    | .unlock r pos => some { s.goto i (.leave r pos) with owner := none }
    | _ => none
  | .leave i => match s.phase i with
    | .leave r pos =>
      let q := (calls i).request.leave (s.fPos (calls i).file) r pos
      some { s.goto i (.done q.2) with fPos := Function.update s.fPos (calls i).file q.1 }
    | _ => none

/-! ### What a step does -/

section Step

variable {K : Kernel} {calls : ι → Call} {s t : Sys ι}

@[simp] theorem goto_phase_self (s : Sys ι) (i : ι) (p : Phase) : (s.goto i p).phase i = p :=
  Function.update_self ..

theorem goto_phase_ne (s : Sys ι) {i j : ι} (h : j ≠ i) (p : Phase) :
    (s.goto i p).phase j = s.phase j :=
  Function.update_of_ne h ..

@[simp] theorem goto_owner (s : Sys ι) (i : ι) (p : Phase) : (s.goto i p).owner = s.owner := rfl

theorem step_enter_eq {i : ι} (h : s.step K calls (.enter i) = some t) :
    s.phase i = .enter ∧ t = s.goto i ((calls i).request.entry (s.fPos (calls i).file)) := by
  unfold step at h
  cases hp : s.phase i <;> simp only [hp, Option.some.injEq, reduceCtorEq] at h
  exact ⟨rfl, h.symm⟩

theorem step_acquire_eq {i : ι} (h : s.step K calls (.acquire i) = some t) :
    ∃ pos, s.phase i = .lock pos ∧ s.owner = none ∧
      t = { s.goto i (.body pos) with owner := some i } := by
  unfold step at h
  cases hp : s.phase i <;> cases ho : s.owner <;>
    simp only [hp, ho, Option.some.injEq, reduceCtorEq] at h
  exact ⟨_, rfl, rfl, h.symm⟩

theorem step_interrupt_eq {i : ι} (h : s.step K calls (.interrupt i) = some t) :
    ∃ pos, s.phase i = .lock pos ∧ t = s.goto i ((calls i).request.interrupted pos) := by
  unfold step at h
  cases hp : s.phase i <;> simp only [hp, Option.some.injEq, reduceCtorEq] at h
  exact ⟨_, rfl, h.symm⟩

theorem step_body_eq {i : ι} (h : s.step K calls (.body i) = some t) :
    ∃ pos, s.phase i = .body pos ∧
      let r := (calls i).request.critical K s.dev (s.fPos (calls i).file) pos
      t = { s.goto i (.unlock r.2.2.1 r.2.2.2) with
        dev := r.1
        fPos := Function.update s.fPos (calls i).file r.2.1 } := by
  unfold step at h
  cases hp : s.phase i <;> simp only [hp, Option.some.injEq, reduceCtorEq] at h
  exact ⟨_, rfl, h.symm⟩

theorem step_unlock_eq {i : ι} (h : s.step K calls (.unlock i) = some t) :
    ∃ r pos, s.phase i = .unlock r pos ∧ t = { s.goto i (.leave r pos) with owner := none } := by
  unfold step at h
  cases hp : s.phase i <;> simp only [hp, Option.some.injEq, reduceCtorEq] at h
  exact ⟨_, _, rfl, h.symm⟩

theorem step_leave_eq {i : ι} (h : s.step K calls (.leave i) = some t) :
    ∃ r pos, s.phase i = .leave r pos ∧
      let q := (calls i).request.leave (s.fPos (calls i).file) r pos
      t = { s.goto i (.done q.2) with fPos := Function.update s.fPos (calls i).file q.1 } := by
  unfold step at h
  cases hp : s.phase i <;> simp only [hp, Option.some.injEq, reduceCtorEq] at h
  exact ⟨_, _, rfl, h.symm⟩

theorem step_enter {i : ι} (h : s.step K calls (.enter i) = some t) :
    s.phase i = .enter ∧ t.phase i = (calls i).request.entry (s.fPos (calls i).file) ∧
      t.owner = s.owner := by
  obtain ⟨hp, rfl⟩ := step_enter_eq h
  exact ⟨hp, goto_phase_self .., rfl⟩

theorem step_acquire {i : ι} (h : s.step K calls (.acquire i) = some t) :
    ∃ pos, s.phase i = .lock pos ∧ s.owner = none ∧ t.phase i = .body pos ∧
      t.owner = some i := by
  obtain ⟨pos, hp, ho, rfl⟩ := step_acquire_eq h
  exact ⟨pos, hp, ho, goto_phase_self .., rfl⟩

theorem step_interrupt {i : ι} (h : s.step K calls (.interrupt i) = some t) :
    ∃ pos, s.phase i = .lock pos ∧ t.phase i = (calls i).request.interrupted pos ∧
      t.owner = s.owner := by
  obtain ⟨pos, hp, rfl⟩ := step_interrupt_eq h
  exact ⟨pos, hp, goto_phase_self .., rfl⟩

theorem step_body {i : ι} (h : s.step K calls (.body i) = some t) :
    ∃ pos r pos', s.phase i = .body pos ∧ t.phase i = .unlock r pos' ∧ t.owner = s.owner := by
  obtain ⟨pos, hp, rfl⟩ := step_body_eq h
  exact ⟨pos, _, _, hp, goto_phase_self .., rfl⟩

theorem step_unlock {i : ι} (h : s.step K calls (.unlock i) = some t) :
    ∃ r pos, s.phase i = .unlock r pos ∧ t.phase i = .leave r pos ∧ t.owner = none := by
  obtain ⟨r, pos, hp, rfl⟩ := step_unlock_eq h
  exact ⟨r, pos, hp, goto_phase_self .., rfl⟩

theorem step_leave {i : ι} (h : s.step K calls (.leave i) = some t) :
    ∃ r pos r', s.phase i = .leave r pos ∧ t.phase i = .done r' ∧ t.owner = s.owner := by
  obtain ⟨r, pos, hp, rfl⟩ := step_leave_eq h
  exact ⟨r, pos, _, hp, goto_phase_self .., rfl⟩

/-- Only an acquisition and an unlock change the owner. -/
theorem step_owner {e : Event ι} (h : s.step K calls e = some t) (ha : ∀ j, e ≠ .acquire j)
    (hu : ∀ j, e ≠ .unlock j) : t.owner = s.owner := by
  cases e with
  | enter j => exact (step_enter h).2.2
  | acquire j => exact absurd rfl (ha j)
  | interrupt j =>
    obtain ⟨pos, -, -, ht⟩ := step_interrupt h
    exact ht
  | body j =>
    obtain ⟨pos, r, pos', -, -, ht⟩ := step_body h
    exact ht
  | unlock j => exact absurd rfl (hu j)
  | leave j =>
    obtain ⟨r, pos, r', -, -, ht⟩ := step_leave h
    exact ht

/-- The other calls stay where they are. -/
theorem step_phase_ne {e : Event ι} (h : s.step K calls e = some t) {j : ι} (hj : j ≠ e.call) :
    t.phase j = s.phase j := by
  unfold step at h
  split at h <;> split at h <;> simp only [Option.some.injEq, reduceCtorEq] at h <;>
    subst h <;> exact Function.update_of_ne hj ..

end Step

/-! ### A call that is alone -/

section Alone

variable {K : Kernel} {calls : ι → Call} {s : Sys ι} {i : ι}

/-- The steps of a call that reaches the lock attempt and is not disturbed. -/
theorem run_undisturbed (hp : s.phase i = .enter) (ho : s.owner = none)
    (hlock : (calls i).request.entry (s.fPos (calls i).file) = .lock (s.fPos (calls i).file)) :
    let fPos := s.fPos (calls i).file
    let c := (calls i).request.critical K s.dev fPos fPos
    let q := (calls i).request.leave c.2.1 c.2.2.1 c.2.2.2
    ∃ t, Exec.run (step K calls) s [.enter i, .acquire i, .body i, .unlock i, .leave i] = some t ∧
      t.phase i = .done q.2 ∧ t.dev = c.1 ∧ t.fPos (calls i).file = q.1 ∧ t.owner = none := by
  simp [Exec.run, step, hp, ho, hlock, goto]

/-- A call that is rejected before the lock attempt. -/
theorem run_rejected {r : Ret} (hp : s.phase i = .enter)
    (hdone : (calls i).request.entry (s.fPos (calls i).file) = .done r) :
    Exec.run (step K calls) s [.enter i] = some (s.goto i (.done r)) := by
  simp [Exec.run, step, hp, hdone]

/-- An ioctl is rejected, with nothing changed, or it reaches the lock attempt. -/
theorem ioctl_cases (d : Dev) (fPos : ℤ) (cmd : UInt32) (arg : Option Seekto) :
    (∃ e, (Request.ioctl cmd arg).entry fPos = .done ⟨e, []⟩ ∧
      aesdUnlockedIoctl d true fPos cmd arg = (e, fPos)) ∨
    ∃ s, arg = some s ∧ (Request.ioctl cmd arg).entry fPos = .lock fPos ∧
      aesdUnlockedIoctl d true fPos cmd arg =
        aesdAdjustFileOffsetBody d fPos s.writeCmd s.writeCmdOffset := by
  unfold aesdUnlockedIoctl
  by_cases hknown : iocType cmd ≠ aesdIocMagic ∨ iocNr cmd > aesdcharIocMaxnr
  · exact Or.inl ⟨-ENOTTY, by simp only [Request.entry, if_pos hknown], by rw [if_pos hknown]⟩
  · by_cases hcmd : cmd = aesdcharIocseekto
    · cases arg with
      | none =>
        exact Or.inl ⟨-EFAULT, by simp only [Request.entry, if_neg hknown, if_pos hcmd],
          by rw [if_neg hknown, if_pos hcmd]⟩
      | some s =>
        exact Or.inr ⟨s, rfl, by simp only [Request.entry, if_neg hknown, if_pos hcmd],
          by rw [if_neg hknown, if_pos hcmd]; rfl⟩
    · exact Or.inl ⟨-ENOTTY, by simp only [Request.entry, if_neg hknown, if_neg hcmd],
        by rw [if_neg hknown, if_neg hcmd]⟩

/-- A call reaches the lock attempt with a copy of the position, or it is rejected. -/
theorem entry_cases (fPos : ℤ) (q : Request) :
    q.entry fPos = .lock fPos ∨ ∃ r, q.entry fPos = .done r := by
  cases q with
  | read count fault | write w | llseek off whence => exact Or.inl rfl
  | ioctl cmd arg =>
    rcases ioctl_cases aesdInitModule fPos cmd arg with ⟨e, he, -⟩ | ⟨s, -, he, -⟩
    · exact Or.inr ⟨_, he⟩
    · exact Or.inl he

/-- What a call that reaches the lock attempt does from there on; only a `read` or `write` looks
at the copy of the position. -/
theorem serve_eq {q : Request} {fPos pos : ℤ} (d : Dev)
    (hlock : q.entry fPos = .lock fPos) (hpos : q.copies = true → pos = fPos) :
    let c := q.critical K d fPos pos
    q.serve K d true fPos =
      (c.1, (q.leave c.2.1 c.2.2.1 c.2.2.2).1, (q.leave c.2.1 c.2.2.1 c.2.2.2).2) := by
  cases q with
  | read count fault =>
    obtain rfl := hpos rfl
    rfl
  | write w =>
    obtain rfl := hpos rfl
    exact Prod.ext rfl (Prod.ext (ite_self _).symm rfl)
  | llseek off whence =>
    simp only [Request.leave, Request.critical, Request.serve, aesdLlseek, if_true]
  | ioctl cmd arg =>
    rcases ioctl_cases d fPos cmd arg with ⟨e, hentry, -⟩ | ⟨a, rfl, -, hio⟩
    · rw [hlock] at hentry
      simp at hentry
    · simp only [Request.leave, Request.critical, Request.serve, hio]

/-- A call that is rejected changes nothing, wherever the position stands. -/
theorem serve_rejected {q : Request} {fPos fPos' : ℤ} {r : Ret} (d : Dev)
    (hdone : q.entry fPos = .done r) : q.serve K d true fPos' = (d, fPos', r) := by
  cases q with
  | read count fault | write w | llseek off whence => simp [Request.entry] at hdone
  | ioctl cmd arg =>
    rcases ioctl_cases d fPos' cmd arg with ⟨e, hentry, hio⟩ | ⟨a, rfl, hentry, -⟩
    · simp only [Request.serve, hio]
      cases arg <;> simp only [Request.entry] at hdone hentry <;> grind
    · simp only [Request.entry] at hdone hentry
      grind

/-- **A call that is alone** does what the sequential model of the operation says. -/
theorem run_alone (hp : s.phase i = .enter) (ho : s.owner = none) :
    ∃ es t r, Exec.run (step K calls) s es = some t ∧ t.phase i = .done r ∧ t.owner = none ∧
      (t.dev, t.fPos (calls i).file, r) =
        (calls i).request.serve K s.dev true (s.fPos (calls i).file) := by
  rcases entry_cases (s.fPos (calls i).file) (calls i).request with hlock | ⟨r, hdone⟩
  · obtain ⟨t, ht, hphase, hdev, hpos, howner⟩ := run_undisturbed (K := K) hp ho hlock
    refine ⟨_, t, _, ht, hphase, howner, ?_⟩
    rw [hdev, hpos, serve_eq s.dev hlock fun _ => rfl]
  · refine ⟨_, _, r, run_rejected (K := K) hp hdone, goto_phase_self s i _, ho, ?_⟩
    rw [serve_rejected s.dev hdone]
    rfl

end Alone

/-! ### What has happened so far -/

section Past

variable {K : Kernel} {calls : ι → Call} {d : Dev} {fPos : ℕ → ℤ} {es : List (Event ι)} {t : Sys ι}

theorem entry_past (fPos : ℤ) (q : Request) : (q.entry fPos).Past 0 0 0 := by
  cases q with
  | ioctl cmd arg =>
    cases arg <;> simp only [Request.entry] <;> split_ifs <;> simp [Phase.Past]
  | _ => simp [Request.entry, Phase.Past]

theorem interrupted_past (pos : ℤ) (q : Request) : (q.interrupted pos).Past 0 1 0 := by
  cases q <;> simp [Request.interrupted, Phase.Past]

/-- The phase of every call tells its past. -/
theorem phase_past (h : Exec.run (step K calls) (start d fPos) es = some t) (i : ι) :
    (t.phase i).Past (es.count (.acquire i)) (es.count (.interrupt i)) (es.count (.unlock i)) := by
  refine Exec.run_induction (I := fun es t => (t.phase i).Past (es.count (.acquire i))
    (es.count (.interrupt i)) (es.count (.unlock i))) (by simp [start, Phase.Past]) ?_ h
  intro es s e t _ ih he
  simp only [Exec.count_concat]
  by_cases hi : i = e.call
  · -- an event of this call: its phase and one of the three counts move on together
    cases e with
    | enter j =>
      obtain rfl : i = j := hi
      obtain ⟨hp, ht, -⟩ := step_enter he
      rw [hp] at ih
      obtain ⟨ha, hn, hu⟩ := ih
      simp only [ha, hn, hu, ht, reduceCtorEq, if_false]
      exact entry_past _ _
    | acquire j =>
      obtain rfl : i = j := hi
      obtain ⟨pos, hp, -, ht, -⟩ := step_acquire he
      rw [hp] at ih
      obtain ⟨ha, hn, hu⟩ := ih
      simp [ha, hn, hu, ht, Phase.Past]
    | interrupt j =>
      obtain rfl : i = j := hi
      obtain ⟨pos, hp, ht, -⟩ := step_interrupt he
      rw [hp] at ih
      obtain ⟨ha, hn, hu⟩ := ih
      simp only [ha, hn, hu, ht, reduceCtorEq, if_false, if_true]
      exact interrupted_past _ _
    | body j =>
      obtain rfl : i = j := hi
      obtain ⟨pos, r, pos', hp, ht, -⟩ := step_body he
      rw [hp] at ih
      obtain ⟨ha, hn, hu⟩ := ih
      simp [ha, hn, hu, ht, Phase.Past]
    | unlock j =>
      obtain rfl : i = j := hi
      obtain ⟨r, pos, hp, ht, -⟩ := step_unlock he
      rw [hp] at ih
      obtain ⟨han, hu⟩ := ih
      simp [han, hu, ht, Phase.Past]
    | leave j =>
      obtain rfl : i = j := hi
      obtain ⟨r, pos, r', hp, ht, -⟩ := step_leave he
      rw [hp] at ih
      obtain ⟨han, hu⟩ := ih
      simp only [ht, Phase.Past, reduceCtorEq, if_false]
      omega
  · rw [step_phase_ne he hi]
    have hne : ∀ e' : Event ι, e'.call = i → e ≠ e' := by
      rintro e' rfl rfl
      exact hi rfl
    simpa only [if_neg (hne (.acquire i) rfl), if_neg (hne (.interrupt i) rfl),
      if_neg (hne (.unlock i) rfl), Nat.add_zero] using ih

/-- The owner has acquired the mutex and not unlocked it. -/
theorem owner_past (h : Exec.run (step K calls) (start d fPos) es = some t) {i : ι}
    (ho : t.owner = some i) : es.count (.acquire i) = 1 ∧ es.count (.unlock i) = 0 := by
  revert ho
  refine Exec.run_induction (I := fun es t => t.owner = some i →
    es.count (.acquire i) = 1 ∧ es.count (.unlock i) = 0) (by simp [start]) ?_ h
  intro es s e t hrun ih he
  simp only [Exec.count_concat]
  cases e with
  | acquire j =>
    obtain ⟨pos, hp, -, -, ht⟩ := step_acquire he
    intro ho
    obtain rfl : j = i := by rw [ht] at ho; simpa using ho
    have hpast := phase_past hrun j
    rw [hp] at hpast
    obtain ⟨ha, -, hu⟩ := hpast
    simp [ha, hu]
  | unlock j =>
    obtain ⟨r, pos, -, -, ht⟩ := step_unlock he
    simp [ht]
  | enter j | interrupt j | body j | leave j =>
    rw [step_owner he (by simp) (by simp)]
    simpa using ih

/-- No call that was interrupted has come to its unlock. -/
def NoInterruptedUnlock (es : List (Event ι)) : Prop :=
  ∀ i : ι, .interrupt i ∈ es → .unlock i ∉ es

/-- Without such unlocks a call that is inside is the owner. -/
theorem inside_owner (h : Exec.run (step K calls) (start d fPos) es = some t)
    (hno : NoInterruptedUnlock es) {i : ι} (ha : es.count (.acquire i) = 1)
    (hu : es.count (.unlock i) = 0) : t.owner = some i := by
  revert hno i
  refine Exec.run_induction (I := fun es t => NoInterruptedUnlock es → ∀ {i : ι},
    es.count (.acquire i) = 1 → es.count (.unlock i) = 0 → t.owner = some i) (by simp) ?_ h
  intro es s e t hrun ih he hno i
  have hno' : NoInterruptedUnlock es := fun j hn hu =>
    hno j (List.mem_append_left _ hn) (List.mem_append_left _ hu)
  have ih := @ih hno'
  simp only [Exec.count_concat]
  cases e with
  | acquire j =>
    -- the mutex was free, so no other call was inside
    obtain ⟨pos, -, hfree, -, ht⟩ := step_acquire he
    intro ha hu
    by_cases hij : j = i
    · rw [ht, hij]
    · rw [ih (by simpa [hij] using ha) (by simpa using hu)] at hfree
      simp at hfree
  | unlock j =>
    -- `j` was not interrupted, so it was the owner and the only one inside
    obtain ⟨r, pos, hp, -, -⟩ := step_unlock he
    have hpast := phase_past hrun j
    rw [hp] at hpast
    obtain ⟨han, hu0⟩ := hpast
    have hn : es.count (.interrupt j) = 0 := by
      rw [List.count_eq_zero]
      exact fun hn => hno j (List.mem_append_left _ hn) (by simp)
    have hj : s.owner = some j := ih (by omega) hu0
    intro ha hu
    by_cases hij : j = i
    · simp [hij] at hu
    · have hi := ih (by simpa using ha) (by simpa [hij] using hu)
      rw [hj] at hi
      exact absurd (Option.some.inj hi) hij
  | enter j | interrupt j | body j | leave j =>
    rw [step_owner he (by simp) (by simp)]
    simpa using ih

end Past

/-- The call is between its successful lock and its unlock. -/
def Inside (es : List (Event ι)) (i : ι) : Prop := .acquire i ∈ es ∧ .unlock i ∉ es

/-- What mutual exclusion asks of the run `es` from `s` to `t`: only the owner unlocks, a call
that is done has unlocked as often as it has acquired, and never are two calls inside. -/
structure Discipline (K : Kernel) (calls : ι → Call) (s : Sys ι) (es : List (Event ι))
    (t : Sys ι) : Prop where
  unlock_owner : ∀ x ∈ Exec.trace (step K calls) s es, ∀ i, x.event = .unlock i →
    x.before.owner = some i
  released_once : ∀ i r, t.phase i = .done r →
    es.count (.acquire i) = es.count (.unlock i) ∧ es.count (.acquire i) ≤ 1
  exclusive : ∀ es', es' <+: es → ∀ i j, Inside es' i → Inside es' j → i = j

section Discipline

variable {K : Kernel} {calls : ι → Call} {d : Dev} {fPos : ℕ → ℤ} {es : List (Event ι)} {t : Sys ι}

theorem past_le_one {p : Phase} {a n u : ℕ} (h : p.Past a n u) : a + n ≤ 1 := by
  cases p <;> simp only [Phase.Past] at h <;> omega

theorem Inside.counts (h : Exec.run (step K calls) (start d fPos) es = some t) {i : ι}
    (hi : Inside es i) : es.count (.acquire i) = 1 ∧ es.count (.unlock i) = 0 := by
  have hle := past_le_one (phase_past h i)
  have hpos := List.count_pos_iff.2 hi.1
  exact ⟨by omega, List.count_eq_zero.2 hi.2⟩

/-- Before an unlock, the call has either acquired the mutex or been interrupted. -/
theorem counts_of_unlock {x : Exec.Trans (Sys ι) (Event ι)} {es₁ : List (Event ι)} {i : ι}
    (h : Exec.run (step K calls) (start d fPos) es₁ = some x.before)
    (he : step K calls x.before (.unlock i) = some x.after) :
    es₁.count (.acquire i) + es₁.count (.interrupt i) = 1 ∧ es₁.count (.unlock i) = 0 := by
  obtain ⟨r, pos, hp, -, -⟩ := step_unlock he
  have hpast := phase_past h i
  rwa [hp] at hpast

/-- **Mutual exclusion.**  In every run of any number of calls on any files, only owners unlock,
every acquired mutex is released once, and never are two calls inside, exactly if no call whose
lock attempt was interrupted comes to its unlock. -/
theorem mutex_discipline_iff (h : Exec.run (step K calls) (start d fPos) es = some t) :
    Discipline K calls (start d fPos) es t ↔ NoInterruptedUnlock es := by
  constructor
  · intro hd i hn hu
    obtain ⟨x, hx, hev⟩ := Exec.exists_trans_of_mem h hu
    obtain ⟨es₁, es₂, rfl, hrun, -⟩ := Exec.exists_of_mem_trace hx
    have ha := (owner_past hrun (hd.unlock_owner x hx i hev)).1
    have hle := past_le_one (phase_past h i)
    have hpos := List.count_pos_iff.2 hn
    rw [List.count_append] at hle
    omega
  · intro hno
    refine ⟨fun x hx i hev => ?_, fun i r hdone => ?_, fun es' hpre i j hi hj => ?_⟩
    · obtain ⟨es₁, es₂, rfl, hrun, hstep⟩ := Exec.exists_of_mem_trace hx
      rw [hev] at hstep hno
      obtain ⟨han, hu⟩ := counts_of_unlock hrun hstep
      have hn : es₁.count (.interrupt i) = 0 := by
        rw [List.count_eq_zero]
        exact fun hn => hno i (List.mem_append_left _ hn) (by simp)
      refine inside_owner hrun (fun j hj hju => ?_) (by omega) hu
      exact hno j (List.mem_append_left _ hj) (List.mem_append_left _ hju)
    · have hpast := phase_past h i
      rw [hdone] at hpast
      obtain ⟨h1, h2, h3⟩ := hpast
      rcases Nat.eq_zero_or_pos (es.count (.interrupt i)) with hn | hn
      · omega
      · have hu := List.count_eq_zero.2 (hno i (List.count_pos_iff.1 hn))
        omega
    · obtain ⟨es₂, rfl⟩ := hpre
      obtain ⟨u, hu, -⟩ := Exec.run_append.1 h
      have hno' : NoInterruptedUnlock es' := fun j hj hju =>
        hno j (List.mem_append_left _ hj) (List.mem_append_left _ hju)
      have howner : ∀ k, Inside es' k → u.owner = some k := fun k hk =>
        inside_owner hu hno' (hk.counts hu).1 (hk.counts hu).2
      exact Option.some.inj ((howner i hi).symm.trans (howner j hj))

end Discipline

/-- Two calls, one after the other; the second, an `llseek`, is interrupted and returns. -/
theorem mutex_discipline_two_calls :
    let calls : ℕ → Call := fun i => ⟨0, if i = 0 then .write (.served [97, newline])
      else .llseek 0 2⟩
    let es : List (Event ℕ) := [.enter 0, .enter 1, .acquire 0, .body 0, .interrupt 1, .unlock 0,
      .leave 0]
    ∃ t, Exec.run (step .x86 calls) (start aesdInitModule fun _ => 0) es = some t ∧
      Discipline .x86 calls (start aesdInitModule fun _ => 0) es t := by
  intro calls es
  refine ⟨_, rfl, (mutex_discipline_iff rfl).2 ?_⟩
  intro i hn hu
  simp only [es, List.mem_cons, reduceCtorEq, Event.interrupt.injEq, Event.unlock.injEq,
    List.not_mem_nil, or_false, false_or] at hn hu
  omega

/-- A write holds the mutex, a read is interrupted while it waits and unlocks all the same, and a
second write gets in. -/
theorem mutex_discipline_fails :
    let calls : ℕ → Call := fun i => ⟨i, if i = 1 then .read 1 false
      else .write (.served [97, newline])⟩
    let es : List (Event ℕ) := [.enter 0, .acquire 0, .enter 1, .interrupt 1, .unlock 1, .enter 2,
      .acquire 2]
    ∃ t, Exec.run (step .x86 calls) (start aesdInitModule fun _ => 0) es = some t ∧
      Inside es 0 ∧ Inside es 2 ∧
      ¬ Discipline .x86 calls (start aesdInitModule fun _ => 0) es t := by
  intro calls es
  have h0 : Inside es 0 := by constructor <;> simp [es]
  have h2 : Inside es 2 := by constructor <;> simp [es]
  refine ⟨_, rfl, h0, h2, fun hd => ?_⟩
  have := hd.exclusive es List.prefix_rfl 0 2 h0 h2
  omega

end Sys

end Aesd
