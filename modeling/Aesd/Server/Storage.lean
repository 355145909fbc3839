import Aesd.Device.Conservation
import Aesd.Device.Seek
import Aesd.Server.Connection

/-!
# What a connection stores

`Conn.stored` is the chunk that a step of a connection puts into the data file.  A driver
`Collects` chunks if a `write` that succeeds adds its bytes as one chunk, and nothing else changes
what is there.  The file collects them one behind the other; the device collects them into a log.

The handler looks for a request at the front of every segment and nowhere else, so what it writes
and what it asks for is a function of the segments: `writtenOf` and `requestsOf`.

* `step_collects`: what a step writes is in the data file, as one chunk;
* `step_progress`: at every point of a connection, what has been written and requested so far.
-/

namespace Aesd

theorem Handler.afterStore_pc_ne (h : Handler) (c : Bool) : (h.afterStore c).pc ≠ .cleanup := by
  unfold Handler.afterStore
  split_ifs <;> simp [Handler.clear]

/-- The data file holds chunks, as `R` says: a `write` adds one, if it succeeds, and the other
calls leave them alone. -/
structure Driver.Collects {σ : Type*} (D : Driver σ) (R : σ → List (List UInt8) → Prop) :
    Prop where
  write : ∀ {st bs} pos {b}, R st bs → b.length ≤ bufferSize →
    R (D.serve st pos (.write b)).1
      (if (D.serve st pos (.write b)).2.2.retval = -1 then bs else bs ++ [b])
  other : ∀ {st bs} pos {fc}, R st bs → (∀ b, fc ≠ .write b) → R (D.serve st pos fc).1 bs

theorem fileDriver_collects : fileDriver.Collects fun st bs => st = bs.flatten where
  write := by
    rintro st bs pos b rfl -
    have hret : (fileDriver.serve bs.flatten pos (.write b)).2.2.retval ≠ -1 := by
      change (b.length : ℤ) ≠ -1
      omega
    rw [if_neg hret, List.flatten_append, List.flatten_singleton]
    rfl
  other := by
    rintro st bs pos fc rfl hfc
    cases fc with
    | write b => exact absurd rfl (hfc b)
    | _ => rfl

/-- The device, with the log `a` at first. -/
theorem deviceDriver_collects (K : Kernel) (a : Log) :
    (deviceDriver K).Collects fun d bs => Represents K d (a.run bs) where
  write := by
    intro d bs pos b h hb
    have hret : ((deviceDriver K).serve d pos (.write b)).2.2.retval =
        if (writeStep K d (.served b)).retval < 0 then -1
        else (writeStep K d (.served b)).retval := rfl
    rw [hret]
    rcases writeStep_returnOk h (.served b) with ⟨hneg, hafter⟩ | ⟨hval, htaken⟩
    · rw [if_pos hneg, if_pos rfl]
      change Represents K (writeStep K d (.served b)).after (a.run bs)
      rw [hafter]
      exact h
    · have hrep := writeStep_represents h (.served b)
      have hall : (writeStep K d (.served b)).taken = b := by
        rw [htaken]
        change (WriteCall.served b).buf.take ((WriteCall.served b).buf.length - 0) = b
        rw [served_buf hb, Nat.sub_zero, List.take_length]
      have hnonneg : 0 ≤ (writeStep K d (.served b)).retval := by rw [hval]; omega
      rw [hall] at hrep
      rw [if_neg (not_lt.2 hnonneg), if_neg (by omega), RecordLog.run_append]
      exact hrep
  other := by
    intro d bs pos fc h hfc
    cases fc with
    | write b => exact absurd rfl (hfc b)
    | ioctl s => exact h
    | lseek => exact h
    | read n =>
      change Represents K (aesdReadBody d pos n false).dev (a.run bs)
      rwa [aesdReadBody_dev h]

namespace Conn

variable {σ : Type*} {D : Driver σ} {R : σ → List (List UInt8) → Prop} {c : Conn σ}
  {bs : List (List UInt8)}

/-- The chunk that the next step puts into the data file, if its `write` does not fail. -/
def stored (D : Driver σ) (c : Conn σ) : List (List UInt8) :=
  match c.handler.pc with
  | .write => if (c.step D).handler.pc = .cleanup then []
    else [c.handler.buffer.bytes.take c.handler.recvSize]
  | _ => []

theorem stored_of_ne (h : c.handler.pc ≠ .write) : c.stored D = [] := by
  unfold stored
  split
  · exact absurd ‹_› h
  · rfl

/-- The bytes a step writes are what it stores. -/
theorem step_written (h : (c.step D).handler.pc ≠ .cleanup) :
    (c.step D).written = c.written ++ (c.stored D).flatten := by
  by_cases hpc : c.handler.pc = .write
  · unfold stored
    rw [hpc]
    simp only [if_neg h, List.flatten_singleton]
    simp only [step, Handler.call, hpc, file]
  · rw [stored_of_ne hpc, List.flatten_nil, List.append_nil]
    unfold step Handler.call
    cases hp : c.handler.pc <;> simp only [hp, reduceCtorEq, not_true_eq_false] at hpc ⊢ <;>
      first | rfl | (cases c.input <;> rfl)

/-- A step stores what it stores. -/
theorem step_collects (hD : D.Collects R) (h : R c.store bs) :
    R (c.step D).store (bs ++ c.stored D) := by
  by_cases hpc : c.handler.pc = .write
  · have hlen : (c.handler.buffer.bytes.take c.handler.recvSize).length ≤ bufferSize := by
      rw [List.length_take, c.handler.buffer.length_eq]
      omega
    have hwrite := hD.write c.pos h hlen
    have hstep : c.step D = c.file D (.write (c.handler.buffer.bytes.take c.handler.recvSize)) := by
      simp only [step, Handler.call, hpc]
    have hend : (c.step D).handler.pc = .cleanup ↔ (D.serve c.store c.pos (.write
        (c.handler.buffer.bytes.take c.handler.recvSize))).2.2.retval = -1 := by
      rw [hstep]
      simp only [file, Handler.resume, hpc]
      split_ifs with hr <;> simp [hr, Handler.afterStore_pc_ne]
    have hstored : bs ++ c.stored D = if (D.serve c.store c.pos (.write
        (c.handler.buffer.bytes.take c.handler.recvSize))).2.2.retval = -1 then bs
        else bs ++ [c.handler.buffer.bytes.take c.handler.recvSize] := by
      unfold stored
      simp only [hpc, hend]
      split_ifs <;> simp
    rw [hstored, hstep]
    exact hwrite
  · rw [stored_of_ne hpc, List.append_nil]
    unfold step Handler.call
    cases hp : c.handler.pc <;> simp only [hp, reduceCtorEq, not_true_eq_false] at hpc ⊢
    case ioctl | lseek | read => exact hD.other c.pos h (by simp)
    case recv => cases c.input <;> exact h
    all_goals exact h

end Conn

/-! ### Segments -/

/-- The bytes the handler writes for the segments. -/
def writtenOf (c : Bool) (gs : List Segment) : List UInt8 :=
  gs.flatMap fun g => if g.request c = none then g.bytes else []

/-- The requests the handler issues for the segments. -/
def requestsOf (c : Bool) (gs : List Segment) : List Seekto := gs.filterMap (·.request c)

theorem writtenOf_plain {c : Bool} {gs : List Segment} (h : ∀ g ∈ gs, g.request c = none) :
    writtenOf c gs = (gs.map Segment.bytes).flatten := by
  induction gs with
  | nil => rfl
  | cons g gs ih =>
    have htail := ih fun g hg => h g (List.mem_cons_of_mem _ hg)
    have hhead := h g List.mem_cons_self
    unfold writtenOf at htail ⊢
    rw [List.flatMap_cons, htail, if_pos hhead, List.map_cons, List.flatten_cons]

namespace Conn

variable {σ : Type*}

/-- The segments `gs` have been received and dealt with, and nothing else. -/
structure Settled (D : Driver σ) (gs : List Segment) (c : Conn σ) : Prop where
  written : c.written = writtenOf D.charDevice gs
  requests : c.requests = requestsOf D.charDevice gs

/-- How far the handler has come with the segments `gs` received so far. -/
def Progress (D : Driver σ) (gs : List Segment) (c : Conn σ) : Prop :=
  match c.handler.pc with
  | .open | .malloc => gs = [] ∧ c.Settled D []
  | .recv => c.handler.buffer = .zero ∧ c.Settled D gs
  | .write => ∃ hs g, gs = hs ++ [g] ∧ g.request D.charDevice = none ∧
      c.handler.buffer.bytes.take c.handler.recvSize = g.bytes ∧ c.Settled D hs
  | .ioctl s => ∃ hs g, gs = hs ++ [g] ∧ g.request D.charDevice = some s ∧ c.Settled D hs
  | .lseek | .read | .send _ => c.Settled D gs
  | .close | .closeSock | .done => c.input = [] ∧ c.Settled D gs
  | .cleanup | .exit => True

section Progress

variable {D : Driver σ} {c : Conn σ} {gs : List Segment}

theorem Settled.write {g : Segment} (h : c.Settled D gs) (hg : g.request D.charDevice = none)
    (d : Conn σ) (hw : d.written = c.written ++ g.bytes) (hr : d.requests = c.requests) :
    d.Settled D (gs ++ [g]) := by
  constructor
  · rw [hw, h.written]; simp [writtenOf, hg]
  · rw [hr, h.requests]; simp [requestsOf, hg]

theorem Settled.ioctl {g : Segment} {s : Seekto} (h : c.Settled D gs)
    (hg : g.request D.charDevice = some s) (d : Conn σ) (hw : d.written = c.written)
    (hr : d.requests = c.requests ++ [s]) : d.Settled D (gs ++ [g]) := by
  constructor
  · rw [hw, h.written]; simp [writtenOf, hg]
  · rw [hr, h.requests]; simp [requestsOf, hg]

/-- Behind the `write` or `ioctl` all is settled, whether or not a reply is due. -/
theorem progress_afterStore {h : Handler} (hc : c.handler = h.afterStore D.charDevice)
    (hs : c.Settled D gs) : c.Progress D gs := by
  unfold Progress
  rw [hc, Handler.afterStore]
  by_cases hn : newline ∈ h.buffer.bytes
  · rw [if_pos hn]
    cases hD : D.charDevice <;> exact hs
  · rw [if_neg hn]
    exact ⟨rfl, hs⟩

/-- One step: at most one more segment has been received. -/
theorem step_progress (h : c.Progress D gs) :
    ∃ gs', gs' ++ (c.step D).input = gs ++ c.input ∧ (c.step D).Progress D gs' := by
  obtain ⟨store, pos, ⟨pc, buffer, recvSize⟩, input, written, requests, current, turns⟩ := c
  cases pc with
  | «open» => exact ⟨gs, rfl, h.1, h.2.written, h.2.requests⟩
  | malloc =>
    obtain ⟨rfl, hs⟩ := h
    exact ⟨[], rfl, rfl, hs.written, hs.requests⟩
  | recv =>
    obtain ⟨hzero, hs⟩ := h
    simp only at hzero
    subst hzero
    cases input with
    | nil => exact ⟨gs, rfl, rfl, hs.written, hs.requests⟩
    | cons g input =>
      refine ⟨gs ++ [g], by simp [step, Handler.call], ?_⟩
      have hpos : 0 < g.bytes.length := List.length_pos_iff.2 g.ne_nil
      cases hg : g.request D.charDevice with
      | none =>
        have hreq : Handler.request D.charDevice (Buffer.zero.store g.bytes) g.beyond = none := hg
        simp only [step, Handler.call, Handler.resume, Handler.received, hreq]
        rw [if_pos (by omega)]
        exact ⟨gs, g, rfl, hg, Buffer.store_take _ g.length_le, hs.written, hs.requests⟩
      | some s =>
        have hreq : Handler.request D.charDevice (Buffer.zero.store g.bytes) g.beyond = some s := hg
        simp only [step, Handler.call, Handler.resume, Handler.received, hreq]
        rw [if_pos (by omega)]
        exact ⟨gs, g, rfl, hg, hs.written, hs.requests⟩
  | write =>
    obtain ⟨hs, g, rfl, hg, htake, hsettled⟩ := h
    refine ⟨hs ++ [g], by simp [step, Handler.call, file], ?_⟩
    simp only at htake
    simp only [step, Handler.call, file, Handler.resume, htake]
    split_ifs with hfail
    · trivial
    · exact progress_afterStore rfl (hsettled.write hg _ rfl rfl)
  | ioctl s =>
    obtain ⟨hs, g, rfl, hg, hsettled⟩ := h
    refine ⟨hs ++ [g], by simp [step, Handler.call, file], ?_⟩
    simp only [step, Handler.call, file, Handler.resume]
    split_ifs with hfail
    · trivial
    · exact progress_afterStore rfl (hsettled.ioctl hg _ rfl rfl)
  | lseek => exact ⟨gs, rfl, h.written, h.requests⟩
  | read =>
    refine ⟨gs, by simp [step, Handler.call, file], ?_⟩
    simp only [step, Handler.call, file, Handler.resume]
    split_ifs with hfail hmore
    · trivial
    · exact ⟨h.written, h.requests⟩
    · exact ⟨rfl, h.written, h.requests⟩
  | send n => exact ⟨gs, rfl, h.written, h.requests⟩
  | close => exact ⟨gs, rfl, h.1, h.2.written, h.2.requests⟩
  | closeSock => exact ⟨gs, rfl, h.1, h.2.written, h.2.requests⟩
  | done => exact ⟨gs, rfl, h⟩
  | cleanup => exact ⟨gs, rfl, h⟩
  | exit => exact ⟨gs, rfl, h⟩

end Progress

end Conn

end Aesd
