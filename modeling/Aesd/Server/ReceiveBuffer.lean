import Aesd.Server.Handler

/-!
# The receive buffer of a handler

The same buffer holds the bytes that `recv` brings and the replies on their way to the client, and
both tests of the loop body look at bytes behind the received ones: `memchr` at the whole buffer,
`strncmp` at as many bytes as the identifying string has.  The buffer is zero at every `recv`, so
both see the received bytes only.

* `resume_zero`, `resumes_zero`: one step, and a whole connection;
* `receive_buffer`: what the tests of an iteration see.
-/

namespace Aesd

open Scan

namespace Handler

/-- The handler after a sequence of results of its system calls, with what lies behind the buffer
at each of them. -/
def resumes (charDevice : Bool) (h : Handler) (rs : List (Ret × List UInt8)) : Handler :=
  rs.foldl (fun h r => h.resume charDevice r.1 r.2) h

/-- In front of a `recv` the buffer is zero. -/
def ZeroAtRecv (h : Handler) : Prop := h.pc = .recv → h.buffer = .zero

variable {charDevice : Bool} {h : Handler}

theorem zeroAtRecv_of_ne (hpc : h.pc ≠ .recv) : h.ZeroAtRecv := fun h' => absurd h' hpc

theorem clear_zero (h : Handler) : h.clear.ZeroAtRecv := fun _ => rfl

theorem afterStore_zero (charDevice : Bool) (h : Handler) :
    (h.afterStore charDevice).ZeroAtRecv := by
  unfold afterStore
  split_ifs
  · exact zeroAtRecv_of_ne (by simp)
  · exact zeroAtRecv_of_ne (by simp)
  · exact clear_zero h

/-- What has been received is written, or it is a request in the device build. -/
theorem received_pc (charDevice : Bool) (h : Handler) (data beyond : List UInt8) :
    (h.received charDevice data beyond).buffer = h.buffer.store data ∧
      ((h.received charDevice data beyond).pc = .write ∨
        charDevice = true ∧
          strncmp (h.buffer.store data).bytes ioctlIdString ioctlIdString.length = 0 ∧
          ∃ s, (h.received charDevice data beyond).pc = .ioctl s) := by
  unfold received
  cases hreq : request charDevice (h.buffer.store data) beyond with
  | none => simp [hreq]
  | some s =>
    simp only [hreq, reduceCtorEq, false_or, Pc.ioctl.injEq, exists_eq', and_true, true_and]
    unfold request at hreq
    split_ifs at hreq with hc
    unfold seekRequest at hreq
    split_ifs at hreq with hprefix
    exact ⟨hc, (strncmp_ioctlIdString _).2 hprefix⟩

/-- **One step**: whatever the result of the system call is, the loop comes to `recv` with a buffer
that is zero. -/
theorem resume_zero (r : Ret) (beyond : List UInt8) (hz : h.ZeroAtRecv) :
    (h.resume charDevice r beyond).ZeroAtRecv := by
  unfold resume
  cases hpc : h.pc with
  | «open» => exact zeroAtRecv_of_ne (by dsimp only; split_ifs <;> simp)
  | malloc =>
    dsimp only
    split_ifs
    · exact zeroAtRecv_of_ne (by simp)
    · exact clear_zero h
  | recv =>
    dsimp only
    split_ifs
    · obtain ⟨-, hw | ⟨-, -, s, hi⟩⟩ := received_pc charDevice h r.data beyond
      · exact zeroAtRecv_of_ne (by simp [hw])
      · exact zeroAtRecv_of_ne (by simp [hi])
    · exact zeroAtRecv_of_ne (by simp)
  | write | ioctl s =>
    dsimp only
    split_ifs
    · exact zeroAtRecv_of_ne (by simp)
    · exact afterStore_zero charDevice h
  | read =>
    dsimp only
    split_ifs
    · exact zeroAtRecv_of_ne (by simp)
    · exact zeroAtRecv_of_ne (by simp)
    · exact clear_zero h
  | lseek | send n | close | closeSock => exact zeroAtRecv_of_ne (by simp)
  | done | cleanup | exit => exact hz

/-- **Every sequence of results.** -/
theorem resumes_zero (rs : List (Ret × List UInt8)) (hz : h.ZeroAtRecv) :
    (h.resumes charDevice rs).ZeroAtRecv := by
  induction rs generalizing h with
  | nil => exact hz
  | cons r rs ih => exact ih (resume_zero r.1 r.2 hz)

theorem afterStore_pc (charDevice : Bool) (h : Handler) :
    (h.afterStore charDevice).pc =
      if newline ∈ h.buffer.bytes then if charDevice then .read else .lseek else .recv := by
  unfold afterStore clear
  split_ifs <;> rfl

/-- After the store the handler has failed, or it replies exactly if there is a newline. -/
theorem resume_stored (hpc : h.pc = .write ∨ ∃ s, h.pc = .ioctl s) (r : Ret)
    (beyond : List UInt8) :
    (h.resume charDevice r beyond).pc = .cleanup ∨
      (h.resume charDevice r beyond).pc =
        if newline ∈ h.buffer.bytes then if charDevice then .read else .lseek else .recv := by
  unfold resume
  rcases hpc with hpc | ⟨s, hpc⟩ <;> rw [hpc] <;> dsimp only
  · by_cases hfail : r.retval = -1
    · rw [if_pos hfail]
      exact Or.inl rfl
    · rw [if_neg hfail]
      exact Or.inr (afterStore_pc charDevice h)
  · by_cases hfail : r.retval ≠ 0
    · rw [if_pos hfail]
      exact Or.inl rfl
    · rw [if_neg hfail]
      exact Or.inr (afterStore_pc charDevice h)

end Handler

/-- **The receive buffer.**  Whatever a handler has received, read back and sent so far: when it
comes to `recv` its buffer is zero.  When it has received `data` then, `strncmp` asks whether `data`
begins with all of the identifying string, without which nothing is taken for a request, and
`memchr` asks whether `data` has a newline, which alone decides about a reply. -/
theorem receive_buffer (charDevice : Bool) (rs : List (Ret × List UInt8))
    (hrecv : (Handler.start.resumes charDevice rs).pc = .recv) :
    let h := Handler.start.resumes charDevice rs
    h.buffer = .zero ∧ ∀ data beyond, 1 ≤ data.length → data.length ≤ bufferSize →
      let received := h.resume charDevice ⟨data.length, data⟩ beyond
      (strncmp received.buffer.bytes ioctlIdString ioctlIdString.length = 0 ↔
        ioctlIdString <+: data) ∧
      (newline ∈ received.buffer.bytes ↔ newline ∈ data) ∧
      (received.pc = .write ∨
        charDevice = true ∧ ioctlIdString <+: data ∧ ∃ s, received.pc = .ioctl s) ∧
      ∀ r beyond', (received.resume charDevice r beyond').pc = .cleanup ∨
        (received.resume charDevice r beyond').pc =
          if newline ∈ data then if charDevice then .read else .lseek else .recv := by
  intro h
  have hzero : h.buffer = .zero :=
    Handler.resumes_zero (h := .start) rs (Handler.zeroAtRecv_of_ne (by simp [Handler.start])) hrecv
  refine ⟨hzero, ?_⟩
  intro data beyond hpos hlen received
  have hreceived : received = h.received charDevice data beyond := by
    have hgt : (0 : ℤ) < data.length := by omega
    simp only [received, Handler.resume, show h.pc = .recv from hrecv, if_pos hgt]
  obtain ⟨hbuffer, hpc⟩ := Handler.received_pc charDevice h data beyond
  rw [← hreceived] at hbuffer hpc
  rw [hzero] at hbuffer hpc
  have hmemchr : newline ∈ received.buffer.bytes ↔ newline ∈ data := by
    rw [hbuffer]
    exact Buffer.newline_mem_store_zero hlen
  refine ⟨by rw [hbuffer, Buffer.strncmp_store_zero hlen], hmemchr, ?_, fun r beyond' => ?_⟩
  · refine hpc.imp_right ?_
    rintro ⟨hc, hcmp, hs⟩
    exact ⟨hc, (Buffer.strncmp_store_zero hlen).1 hcmp, hs⟩
  · have hstored : received.pc = .write ∨ ∃ s, received.pc = .ioctl s :=
      hpc.imp_right fun hp => hp.2.2
    simpa only [hmemchr] using Handler.resume_stored hstored r beyond'

/-- A reply with two newlines has gone through the buffer when the next bytes arrive. -/
theorem receive_buffer_after_reply :
    let rs : List (Ret × List UInt8) := [(⟨5, []⟩, []), (⟨1, []⟩, []), (⟨2, [97, newline]⟩, []),
      (⟨2, []⟩, []), (⟨0, []⟩, []), (⟨4, [98, newline, 97, newline]⟩, []), (⟨4, []⟩, []),
      (⟨0, []⟩, [])]
    (Handler.start.resumes false rs).pc = .recv ∧
      (Handler.start.resumes false rs).buffer = .zero ∧
      newline ∉ ((Handler.start.resumes false rs).resume false ⟨1, [99]⟩ []).buffer.bytes := by
  intro rs
  have hrecv : (Handler.start.resumes false rs).pc = .recv := by decide +kernel
  obtain ⟨hzero, htests⟩ := receive_buffer false rs hrecv
  refine ⟨hrecv, hzero, ?_⟩
  obtain ⟨-, hmemchr, -⟩ := htests [99] [] (by decide) (by decide)
  exact fun h => absurd (hmemchr.1 h) (by decide)

end Aesd
