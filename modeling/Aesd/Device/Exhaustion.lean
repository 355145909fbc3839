import Aesd.Device.Session

/-!
# A line that has grown too long

`aesd_write` joins the bytes that wait for their newline in one buffer, so they are limited by what
`krealloc` can allocate at once.  When the waiting bytes have reached that limit, the buffer cannot
grow by the newline that would release it, and there is no other way out: the device stays as it
is until the module is unloaded.  Below the limit one newline is enough.

* `calls_full`: no call changes a device whose buffer has reached the limit;
* `call_newline`: the newline that commits the waiting bytes;
* `refuses_forever_iff`: the limit is exactly where writing ends.
-/

namespace Aesd

section Full

variable {K : Kernel} {d : Dev} {a : Log}

/-- The bytes waiting for their newline have reached the limit of an allocation. -/
def Log.Full (K : Kernel) (a : Log) : Prop := a.pending.length = K.kmallocMaxSize

theorem Log.Full.not_served (hf : a.Full K) {w : WriteCall} (hw : w.buf.length ≠ 0) :
    ¬ Served K a w := by
  rintro ⟨-, hle⟩
  unfold Log.Full at hf
  omega

/-- Such a device refuses every byte. -/
theorem serve_write_full (h : Represents K d a) (hf : a.Full K) (lock : Bool) (fPos : ℤ)
    {w : WriteCall} (hw : w.buf.length ≠ 0) :
    ((Request.write w).serve K d lock fPos).2.2.retval < 0 := by
  cases lock with
  | false => exact serve_interrupted d fPos _
  | true =>
    obtain ⟨bs, hbs⟩ := h
    have hbody : aesdWrite K d true w = (d, -ENOMEM) :=
      aesdWriteBody_refused hbs hw (hf.not_served hw)
    simp only [Request.serve, hbody]
    decide

theorem taken_full (h : Represents K d a) (hf : a.Full K) (lock : Bool) (fPos : ℤ) (q : Request) :
    q.taken (q.serve K d lock fPos).2.2.retval = [] := by
  cases q with
  | write w =>
    by_cases hw : w.buf.length = 0
    · simp [Request.taken, List.length_eq_zero_iff.1 hw]
    · have hneg := serve_write_full h hf lock fPos hw
      simp only [Request.taken, Int.toNat_of_nonpos hneg.le, List.take_zero]
  | read count fault | llseek off whence | ioctl cmd arg => rfl

/-- No sequence of calls changes what such a device holds. -/
theorem calls_full {s : Session} (h : Represents K s.dev a) (hf : a.Full K)
    (cs : List Invocation) : Represents K (Session.calls K s cs).1.dev a := by
  induction cs generalizing s with
  | nil => exact h
  | cons c cs ih =>
    have hrep := serve_represents h c.lock (s.fPos c.file) c.request
    simp only [taken_full h hf, RecordLog.accept_nil] at hrep
    exact ih (s := (Session.call K s c).1) hrep

/-- Below the limit a newline is accepted, and releases the bytes that wait. -/
theorem call_newline (h : Represents K d a) (hlt : a.pending.length < K.kmallocMaxSize) :
    let r := aesdWrite K d true (.served [newline])
    r.2 = 1 ∧ r.1.pendingBytes = [] ∧
      r.1.storedCommands = (d.storedCommands ++ [d.pendingBytes ++ [newline]]).rtake 10 := by
  have hserved : Served K a (.served [newline]) := ⟨rfl, by simpa [WriteCall.served, maxRwCount]⟩
  have hacc : (WriteCall.served [newline]).accepted = [newline] := rfl
  have hlog : logWrite K a (.served [newline]) = (a.accept [newline], 1) := by
    rw [logWrite, if_neg (by decide), if_pos hserved, hacc]
    rfl
  obtain ⟨hrep, hret⟩ := aesdWrite_refines h (.served [newline])
  rw [hlog] at hrep hret
  refine ⟨hret, ?_, ?_⟩
  · rw [hrep.pendingBytes, (a.accept_mem (by simp)).2]
  · rw [hrep.storedCommands, stored_accept (by simp), h.storedCommands, h.pendingBytes]

end Full

namespace Session

/-- **Where writing ends.**  In every state that calls on the module can lead to: no call of
`aesd_write` with a byte to write ever succeeds again, whatever is called before it and however
much memory there is, exactly if the bytes waiting for a newline have reached the limit of an
allocation.  Then what is stored and what waits stays the same for ever; otherwise a single newline
commits the bytes that wait. -/
theorem refuses_forever_iff (K : Kernel) (cs : List Invocation) (fPos : ℕ → ℤ) :
    let s : Session := ⟨(calls K .start cs).1.dev, fPos⟩
    let full := s.dev.pendingBytes.length = K.kmallocMaxSize
    (full ↔ ∀ (cs' : List Invocation) (file : ℕ) (lock : Bool) (w : WriteCall), w.buf ≠ [] →
      (call K (calls K s cs').1 ⟨file, lock, .write w⟩).2.retval < 0) ∧
    (full → ∀ cs', (calls K s cs').1.dev.storedCommands = s.dev.storedCommands ∧
      (calls K s cs').1.dev.pendingBytes = s.dev.pendingBytes) ∧
    (¬ full → ∀ file,
      let r := call K s ⟨file, true, .write (.served [newline])⟩
      r.2.retval = 1 ∧ r.1.dev.pendingBytes = [] ∧ r.1.dev.storedCommands =
        (s.dev.storedCommands ++ [s.dev.pendingBytes ++ [newline]]).rtake 10) := by
  intro s full
  obtain ⟨a, h, -⟩ := session_represents K cs
  have hrep : Represents K s.dev a := h
  have hfull : full ↔ a.Full K := by
    change s.dev.pendingBytes.length = _ ↔ _
    rw [hrep.pendingBytes, Log.Full]
  have hnewline : ¬ full → ∀ file,
      let r := call K s ⟨file, true, .write (.served [newline])⟩
      r.2.retval = 1 ∧ r.1.dev.pendingBytes = [] ∧ r.1.dev.storedCommands =
        (s.dev.storedCommands ++ [s.dev.pendingBytes ++ [newline]]).rtake 10 := by
    intro hn file
    obtain ⟨bs, hbs⟩ := hrep
    have hle := hbs.pending_length_le
    exact call_newline ⟨bs, hbs⟩ (lt_of_le_of_ne hle (hfull.not.1 hn))
  refine ⟨⟨fun hf cs' file lock w hw => ?_, fun hrefuse => ?_⟩, fun hf cs' => ?_, hnewline⟩
  · exact serve_write_full (calls_full hrep (hfull.1 hf) cs') (hfull.1 hf) lock
      ((calls K s cs').1.fPos file)
      (mt List.length_eq_zero_iff.1 hw)
  · by_contra hn
    have hneg := hrefuse [] 0 true (.served [newline]) (by simp [WriteCall.served, maxRwCount])
    have hone := (hnewline hn 0).1
    change (call K s _).2.retval < 0 at hneg
    omega
  · have hsame := calls_full hrep (hfull.1 hf) cs'
    rw [hsame.storedCommands, hsame.pendingBytes, hrep.storedCommands, hrep.pendingBytes]
    exact ⟨rfl, rfl⟩

/-- With a limit of two bytes: a line of two bytes without a newline shuts the device, after a line
that can still be read. -/
theorem refuses_forever_two_bytes :
    let K : Kernel := ⟨2, by decide⟩
    let cs : List Invocation := [⟨0, true, .write (.served [97, newline])⟩,
      ⟨0, true, .write (.served [97, 98])⟩]
    let s : Session := ⟨(calls K .start cs).1.dev, fun _ => 0⟩
    (call K s ⟨1, true, .write (.served [newline])⟩).2.retval < 0 ∧
      ∀ cs', (calls K s cs').1.dev.storedCommands = [[97, newline]] := by
  intro K cs s
  obtain ⟨hrefuse, hsame, -⟩ := refuses_forever_iff K cs fun _ => 0
  have hfull : s.dev.pendingBytes.length = K.kmallocMaxSize := by decide +kernel
  refine ⟨hrefuse.1 hfull [] 1 true _ (by simp [WriteCall.served, maxRwCount]), fun cs' => ?_⟩
  rw [(hsame hfull cs').1]
  decide +kernel

end Session

end Aesd
