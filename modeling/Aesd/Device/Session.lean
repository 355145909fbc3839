import Aesd.Device.Request
import Aesd.Device.Seek

/-!
# Calls one after the other

A `Session` is the device with the positions of its open files; any sequence of calls on any of
the files can be made in it, with any outcome of the lock attempts, allocations and copies.  Every
device state of a session stands for a log, whose stream is the bytes that the calls have copied.

* `serve_represents`, `calls_represents`: one call, and a session;
* `serve_failed`: a call that is interrupted or returns an error changes nothing;
* `failed_call_leaves_alone`: the same in a session, with what it means for a retry.
-/

namespace Aesd

/-- A call: the open file it is made on, whether it gets the mutex, and its arguments. -/
structure Invocation where
  file : ℕ
  lock : Bool
  request : Request

/-- The device, and `f_pos` of each open file. -/
structure Session where
  dev : Dev
  fPos : ℕ → ℤ

/-- The bytes that a call has copied from the user, given its return value. -/
def Request.taken (retval : ℤ) : Request → List UInt8
  | .write w => w.buf.take retval.toNat
  | .read _ _ | .llseek _ _ | .ioctl _ _ => []

namespace Session

/-- The module has been loaded, and every file is at its beginning. -/
def start : Session := ⟨aesdInitModule, fun _ => 0⟩

/-- One call. -/
def call (K : Kernel) (s : Session) (c : Invocation) : Session × Ret :=
  let r := c.request.serve K s.dev c.lock (s.fPos c.file)
  (⟨r.1, Function.update s.fPos c.file r.2.1⟩, r.2.2)

/-- A sequence of calls: the final state, and what each call returns. -/
def calls (K : Kernel) (s : Session) : List Invocation → Session × List Ret
  | [] => (s, [])
  | c :: cs =>
    let r := calls K (call K s c).1 cs
    (r.1, (call K s c).2 :: r.2)

/-- The bytes copied from the users, in order. -/
def taken (K : Kernel) (s : Session) : List Invocation → List UInt8
  | [] => []
  | c :: cs => c.request.taken (call K s c).2.retval ++ taken K (call K s c).1 cs

end Session

section Serve

variable {K : Kernel} {d : Dev} {a : Log}

/-- **One call** keeps the representation; a `write` accepts the bytes it has copied. -/
theorem serve_represents (h : Represents K d a) (lock : Bool) (fPos : ℤ) (q : Request) :
    let r := q.serve K d lock fPos
    Represents K r.1 (a.accept (q.taken r.2.2.retval)) := by
  intro r
  cases q with
  | read count fault =>
    rw [show (Request.read count fault).taken r.2.2.retval = [] from rfl, RecordLog.accept_nil]
    cases lock with
    | false => exact h
    | true => rwa [show r.1 = d from aesdReadBody_dev h fPos count fault]
  | write w =>
    cases lock with
    | false =>
      have hnil : (Request.write w).taken r.2.2.retval = [] := List.take_zero (l := w.buf)
      rw [hnil, RecordLog.accept_nil]
      exact h
    | true => exact writeStep_represents h w
  | llseek off whence =>
    rw [show (Request.llseek off whence).taken r.2.2.retval = [] from rfl, RecordLog.accept_nil]
    exact h
  | ioctl cmd arg =>
    rw [show (Request.ioctl cmd arg).taken r.2.2.retval = [] from rfl, RecordLog.accept_nil]
    exact h

/-- A session keeps it. -/
theorem calls_represents {s : Session} (h : Represents K s.dev a) (cs : List Invocation) :
    ∃ a', Represents K (Session.calls K s cs).1.dev a' ∧
      a'.stream = a.stream ++ Session.taken K s cs := by
  induction cs generalizing s a with
  | nil => exact ⟨a, h, by simp [Session.taken]⟩
  | cons c cs ih =>
    obtain ⟨a', h', hs⟩ := ih (s := (Session.call K s c).1)
      (serve_represents h c.lock (s.fPos c.file) c.request)
    refine ⟨a', h', ?_⟩
    rw [hs, RecordLog.stream_accept, List.append_assoc]
    rfl

/-- Every device state that calls can lead to stands for the bytes they have copied. -/
theorem session_represents (K : Kernel) (cs : List Invocation) :
    ∃ a, Represents K (Session.calls K .start cs).1.dev a ∧
      a.stream = Session.taken K .start cs := by
  obtain ⟨a, h, hs⟩ := calls_represents (s := .start) (init_represents K) cs
  exact ⟨a, h, hs⟩

/-! ### Calls that fail -/

theorem vfsSetpos_neg {fPos offset maxsize : ℤ} (h : (vfsSetpos fPos offset maxsize).1 < 0) :
    (vfsSetpos fPos offset maxsize).2 = fPos := by
  unfold vfsSetpos at h ⊢
  split_ifs at h ⊢ with hneg hbig
  · rfl
  · rfl
  · exact absurd h hneg

theorem fixedSizeLlseek_neg {fPos offset size : ℤ} {whence : ℕ}
    (h : (fixedSizeLlseek fPos offset whence size).1 < 0) :
    (fixedSizeLlseek fPos offset whence size).2 = fPos := by
  unfold fixedSizeLlseek at h ⊢
  split at h
  · exact vfsSetpos_neg h
  · -- reporting the position changes nothing either
    split_ifs at h ⊢ with h0
    · rfl
    · exact vfsSetpos_neg h
  · exact vfsSetpos_neg h
  · rfl

theorem aesdAdjustFileOffsetBody_neg {fPos : ℤ} {writeCmd writeCmdOffset : UInt32}
    (h : (aesdAdjustFileOffsetBody d fPos writeCmd writeCmdOffset).1 < 0) :
    (aesdAdjustFileOffsetBody d fPos writeCmd writeCmdOffset).2 = fPos := by
  unfold aesdAdjustFileOffsetBody at h ⊢
  split_ifs at h ⊢
  · rfl
  · exact absurd h (lt_irrefl 0)

theorem aesdUnlockedIoctl_neg {lock : Bool} {fPos : ℤ} {cmd : UInt32} {arg : Option Seekto}
    (h : (aesdUnlockedIoctl d lock fPos cmd arg).1 < 0) :
    (aesdUnlockedIoctl d lock fPos cmd arg).2 = fPos := by
  unfold aesdUnlockedIoctl at h ⊢
  split_ifs at h ⊢ with hknown hcmd
  · rfl
  · cases arg with
    | none => rfl
    | some s =>
      cases lock with
      | false => rfl
      | true => exact aesdAdjustFileOffsetBody_neg h
  · rfl

/-- A `write` that returns an error leaves the device alone. -/
theorem aesdWrite_neg (h : Represents K d a) {w : WriteCall} (hneg : (aesdWrite K d true w).2 < 0) :
    (aesdWrite K d true w).1 = d := by
  rcases writeStep_returnOk h w with ⟨-, hafter⟩ | ⟨hval, -⟩
  · exact hafter
  · have : (aesdWrite K d true w).2 = (w.buf.length - w.notCopied : ℕ) := hval
    omega

/-- Every operation that is interrupted at the lock attempt returns an error. -/
theorem serve_interrupted (d : Dev) (fPos : ℤ) (q : Request) :
    (q.serve K d false fPos).2.2.retval < 0 := by
  cases q with
  | read count fault => simp [Request.serve, aesdRead, ERESTARTSYS]
  | write w => simp [Request.serve, aesdWrite, ERESTARTSYS]
  | llseek off whence => simp [Request.serve, aesdLlseek, ERESTARTSYS]
  | ioctl cmd arg =>
    simp only [Request.serve, aesdUnlockedIoctl]
    split_ifs
    · simp [ENOTTY]
    · cases arg <;> simp [EFAULT, aesdAdjustFileOffset, ERESTARTSYS]
    · simp [ENOTTY]

/-- **A call that returns an error changes nothing**, in the heap neither. -/
theorem serve_failed (h : Represents K d a) {lock : Bool} {fPos : ℤ} {q : Request}
    (hneg : (q.serve K d lock fPos).2.2.retval < 0) :
    (q.serve K d lock fPos).1 = d ∧ (q.serve K d lock fPos).2.1 = fPos := by
  cases q with
  | read count fault =>
    refine ⟨?_, if_neg (not_le.2 hneg)⟩
    cases lock with
    | false => rfl
    | true => exact aesdReadBody_dev h fPos count fault
  | write w =>
    refine ⟨?_, rfl⟩
    cases lock with
    | false => rfl
    | true => exact aesdWrite_neg h hneg
  | llseek off whence =>
    refine ⟨rfl, ?_⟩
    cases lock with
    | false => rfl
    | true => exact fixedSizeLlseek_neg hneg
  | ioctl cmd arg => exact ⟨rfl, aesdUnlockedIoctl_neg hneg⟩

end Serve

namespace Session

/-- **A failed call leaves the device and the files alone.**  In every device state that calls can
lead to and at all file positions, a call that is interrupted before it has the mutex or that
returns an error keeps what is stored, what is pending, the indices and flag of the ring and every
file position; whatever is called next, the same call in particular, returns and does what it
would have without the failure. -/
theorem failed_call_leaves_alone (K : Kernel) (cs : List Invocation) (fPos : ℕ → ℤ)
    (c : Invocation) :
    let s : Session := ⟨(calls K .start cs).1.dev, fPos⟩
    let r := call K s c
    (c.lock = false ∨ r.2.retval < 0) →
      r.1.dev.storedCommands = s.dev.storedCommands ∧
      r.1.dev.pendingBytes = s.dev.pendingBytes ∧
      r.1.dev.circularBuffer.inOffs = s.dev.circularBuffer.inOffs ∧
      r.1.dev.circularBuffer.outOffs = s.dev.circularBuffer.outOffs ∧
      r.1.dev.circularBuffer.full = s.dev.circularBuffer.full ∧
      r.1.fPos = s.fPos ∧
      ∀ retry : Invocation, call K r.1 retry = call K s retry := by
  intro s r hfail
  obtain ⟨a, h, -⟩ := session_represents K cs
  have hneg : (c.request.serve K s.dev c.lock (s.fPos c.file)).2.2.retval < 0 := by
    rcases hfail with hlock | hneg
    · have := serve_interrupted (K := K) s.dev (s.fPos c.file) c.request
      rwa [← hlock] at this
    · exact hneg
  obtain ⟨hdev, hpos⟩ := serve_failed h hneg
  have hsame : r.1 = s := by
    have hfiles : Function.update s.fPos c.file
        (c.request.serve K s.dev c.lock (s.fPos c.file)).2.1 = s.fPos := by
      rw [hpos, Function.update_eq_self]
    exact congrArg₂ Session.mk hdev hfiles
  rw [hsame]
  exact ⟨rfl, rfl, rfl, rfl, rfl, rfl, fun _ => rfl⟩

/-- `krealloc` fails while unfinished data waits; the retry then commits the whole command. -/
theorem failed_call_leaves_alone_krealloc :
    let cs : List Invocation := [⟨0, true, .write (.served [97])⟩]
    let c : Invocation := ⟨0, true, .write ⟨[newline], false, 0, by decide, by decide⟩⟩
    let retry : Invocation := ⟨0, true, .write (.served [newline])⟩
    let s : Session := ⟨(calls .x86 .start cs).1.dev, fun _ => 0⟩
    (call .x86 s c).2.retval = -ENOMEM ∧
      (call .x86 s c).1.dev.pendingBytes = [97] ∧
      (call .x86 (call .x86 s c).1 retry).1.dev.storedCommands = [[97, newline]] := by
  intro cs c retry s
  have hret : (call .x86 s c).2.retval = -ENOMEM := by decide +kernel
  obtain ⟨-, hpend, -, -, -, -, hretry⟩ :=
    failed_call_leaves_alone .x86 cs (fun _ => 0) c (Or.inr (by decide +kernel))
  refine ⟨hret, hpend.trans (by decide +kernel), ?_⟩
  rw [hretry retry]
  decide +kernel

end Session

end Aesd
