import Aesd.CircularBuffer.Lookup
import Aesd.Device
import Aesd.Lib.RecordLog

/-!
# The device refines a log of commands

To its users the device is a log: the bytes written to it, cut into commands, of which the last
ten can still be read.  `Log` is that log, a `RecordLog` separated by newlines, and `logWrite` a
`write` on it.  `Represents K d a` says that the device state `d` stands for the log `a`: the
occupied slots hold the last ten commands, the cached entry holds the pending bytes, every live
block of the heap belongs to exactly one of them, and no memory was ever misused.

* `aesdWrite_refines`: one call of `aesd_write` is one `logWrite`;
* `aesdWrites_refines`: so is a run, from the initialised module.
-/

namespace Aesd

open CInt

/-- The log of commands behind a device. -/
abbrev Log := RecordLog newline

/-- The commands of the log that can still be read. -/
def Log.stored (a : Log) : List (List UInt8) := a.committed.rtake maxWriteOperationsSupported

/-- The bytes of a call that reach the device. -/
def WriteCall.accepted (w : WriteCall) : List UInt8 := w.buf.take (w.buf.length - w.notCopied)

/-- Whether the kernel serves the allocation the call asks for. -/
def Served (K : Kernel) (a : Log) (w : WriteCall) : Prop :=
  w.allocOk = true ∧ a.pending.length + w.buf.length ≤ K.kmallocMaxSize

instance (K : Kernel) (a : Log) (w : WriteCall) : Decidable (Served K a w) :=
  inferInstanceAs (Decidable (_ ∧ _))

/-- A `write` on the log: the new log and the return value. -/
def logWrite (K : Kernel) (a : Log) (w : WriteCall) : Log × ℤ :=
  if w.buf.length = 0 then (a, 0)
  else if Served K a w then (a.accept w.accepted, w.accepted.length)
  else (a, -ENOMEM)

/-- A sequence of writes on the log. -/
def logWrites (K : Kernel) (a : Log) : List WriteCall → Log × List ℤ
  | [] => (a, [])
  | w :: ws =>
    let r := logWrites K (logWrite K a w).1 ws
    (r.1, (logWrite K a w).2 :: r.2)

theorem WriteCall.accepted_length (w : WriteCall) :
    w.accepted.length = w.buf.length - w.notCopied := by
  unfold WriteCall.accepted; simp

/-- The entry that describes a block and its contents. -/
def entryOf (b : ℕ × List UInt8) : BufferEntry ℕ := ⟨some b.1, b.2.length⟩

/-- The device state `d` stands for the log `a`: `bs` are the blocks of the occupied slots. -/
structure RepresentsWith (K : Kernel) (d : Dev) (a : Log) (bs : List (ℕ × List UInt8)) : Prop where
  wf : d.circularBuffer.WF
  inOffs : d.circularBuffer.inOffs = a.committed.length % maxWriteOperationsSupported
  live : d.circularBuffer.live = bs.map entryOf
  stored : bs.map Prod.snd = a.stored
  cached : (d.cachedEntry = .null ∧ a.pending = [] ∧ d.heap.Owns K.kmallocMaxSize bs) ∨
    ∃ p, d.cachedEntry = entryOf (p, a.pending) ∧
      d.heap.Owns K.kmallocMaxSize (bs ++ [(p, a.pending)])

/-- The device state `d` stands for the log `a`. -/
def Represents (K : Kernel) (d : Dev) (a : Log) : Prop := ∃ bs, RepresentsWith K d a bs

theorem init_represents (K : Kernel) : Represents K aesdInitModule (RecordLog.empty newline) :=
  ⟨[], CircularBuffer.init_wf, rfl, CircularBuffer.init_live, rfl,
    Or.inl ⟨rfl, rfl, BlockLedger.owns_empty⟩⟩

/-! ### What a represented device shows -/

section Observe

variable {K : Kernel} {d : Dev} {a : Log} {bs : List (ℕ × List UInt8)}

theorem RepresentsWith.read (h : RepresentsWith K d a bs) {b : ℕ × List UInt8} (hb : b ∈ bs)
    {off len : ℕ} (hlen : off + len ≤ b.2.length) :
    d.heap.read b.1 off len = (d.heap, (b.2.drop off).take len) := by
  rcases h.cached with ⟨-, -, ho⟩ | ⟨p, -, ho⟩
  · exact ho.read hb hlen
  · exact ho.read (List.mem_append_left _ hb) hlen

theorem RepresentsWith.length_le (h : RepresentsWith K d a bs) {b : ℕ × List UInt8}
    (hb : b ∈ bs) : b.2.length ≤ K.kmallocMaxSize := by
  rcases h.cached with ⟨-, -, ho⟩ | ⟨p, -, ho⟩
  · exact ho.length_le hb
  · exact ho.length_le (List.mem_append_left _ hb)

theorem RepresentsWith.pending_length_le (h : RepresentsWith K d a bs) :
    a.pending.length ≤ K.kmallocMaxSize := by
  rcases h.cached with ⟨-, hp, -⟩ | ⟨p, -, ho⟩
  · simp [hp]
  · exact ho.length_le (b := (p, a.pending)) (by simp)

theorem Represents.wf (h : Represents K d a) : d.circularBuffer.WF := by
  obtain ⟨bs, h⟩ := h
  exact h.wf

theorem Represents.faults (h : Represents K d a) : d.heap.faults = [] := by
  obtain ⟨bs, h⟩ := h
  rcases h.cached with ⟨-, -, ho⟩ | ⟨p, -, ho⟩ <;> exact ho.faults

/-- What the slots hold is what the log says. -/
theorem Represents.storedCommands (h : Represents K d a) : d.storedCommands = a.stored := by
  obtain ⟨bs, h⟩ := h
  unfold Dev.storedCommands
  rw [h.live, ← h.stored, List.map_map]
  apply List.map_congr_left
  intro b hb
  have hread : d.heap.read b.1 0 b.2.length = _ := h.read hb (by omega)
  simp [Dev.contents, entryOf, BlockLedger.readPtr, hread]

theorem Represents.pendingBytes (h : Represents K d a) : d.pendingBytes = a.pending := by
  obtain ⟨bs, h⟩ := h
  unfold Dev.pendingBytes Dev.contents
  rcases h.cached with ⟨hc, hp, -⟩ | ⟨p, hc, ho⟩
  · rw [hc, hp]; rfl
  · have hread : d.heap.read p 0 a.pending.length = _ :=
      ho.read (l := a.pending) (by simp) (by omega)
    simp [hc, entryOf, BlockLedger.readPtr, hread]

/-- What the device shows is the end of the stream it has taken in. -/
theorem Represents.stream (h : Represents K d a) :
    ∃ D : List UInt8, D ++ d.storedCommands.flatten ++ d.pendingBytes = a.stream := by
  have hsplit : a.committed.take (a.committed.length - maxWriteOperationsSupported) ++ a.stored =
      a.committed := List.take_append_drop _ _
  refine ⟨(a.committed.take (a.committed.length - maxWriteOperationsSupported)).flatten, ?_⟩
  rw [h.storedCommands, h.pendingBytes, ← List.flatten_append, hsplit]
  rfl

/-- The sizes of the occupied slots are the lengths of the stored commands. -/
theorem Represents.sizes (h : Represents K d a) :
    d.circularBuffer.sizes = a.stored.map List.length := by
  obtain ⟨bs, h⟩ := h
  rw [CircularBuffer.sizes, h.live, ← h.stored, List.map_map, List.map_map]
  rfl

theorem Represents.live_ptr (h : Represents K d a) :
    ∀ e ∈ d.circularBuffer.live, e.buffptr.isSome = true := by
  obtain ⟨bs, h⟩ := h
  rw [h.live]
  intro e he
  obtain ⟨b, -, rfl⟩ := List.mem_map.1 he
  rfl

theorem Log.stored_length (a : Log) :
    a.stored.length = min a.committed.length maxWriteOperationsSupported := by
  unfold Log.stored List.rtake
  rw [List.length_drop]
  omega

theorem Represents.count (h : Represents K d a) : d.circularBuffer.count = a.stored.length := by
  have := congrArg List.length h.sizes
  rwa [CircularBuffer.sizes_length, List.length_map] at this

/-- The oldest command is in the slot the next one goes to, once the ring is full. -/
theorem Represents.outOffs (h : Represents K d a) :
    d.circularBuffer.outOffs =
      if d.circularBuffer.full then a.committed.length % maxWriteOperationsSupported else 0 := by
  have hcount := h.count
  obtain ⟨bs, h⟩ := h
  have hin := h.inOffs
  have hout := h.wf.outOffs_lt
  cases hf : d.circularBuffer.full with
  | true => rw [← hin, h.wf.meet hf, if_pos rfl]
  | false =>
    have hlt := CircularBuffer.count_lt_of_not_full hf
    rw [hcount, a.stored_length] at hlt
    rw [CircularBuffer.count, hf, a.stored_length] at hcount
    simp only [maxWriteOperationsSupported, Bool.false_eq_true, if_false] at *
    omega

/-- Ten commands that `kmalloc` has served do not fill the address space. -/
theorem Represents.stored_small (h : Represents K d a) :
    (a.stored.map List.length).sum < 2 ^ 63 := by
  obtain ⟨bs, h⟩ := h
  have hle : ∀ n ∈ a.stored.map List.length, n ≤ K.kmallocMaxSize := by
    intro n hn
    rw [← h.stored, List.map_map] at hn
    obtain ⟨b, hb, rfl⟩ := List.mem_map.1 hn
    exact h.length_le hb
  have hsum := List.sum_le_card_nsmul _ _ hle
  have hlen := a.stored_length
  have hlim := K.kmallocMaxSize_lt
  rw [List.length_map, smul_eq_mul] at hsum
  simp only [maxWriteOperationsSupported] at hlen
  have : a.stored.length * K.kmallocMaxSize ≤ 10 * K.kmallocMaxSize :=
    Nat.mul_le_mul_right _ (by omega)
  omega

end Observe

/-! ### One call -/

section Write

variable {K : Kernel} {d : Dev} {a : Log} {bs : List (ℕ × List UInt8)}

/-- The allocation of a call: it is served exactly if the log says so, and the buffer then begins
with the pending bytes. -/
theorem aesdWriteAlloc_spec (h : RepresentsWith K d a bs) (w : WriteCall) :
    let temp := aesdWriteAlloc K d w.allocOk w.buf.length
    temp.writeOffset = a.pending.length ∧ temp.size = a.pending.length + w.buf.length ∧
      (Served K a w → ∃ heap p, temp.buf = some (heap, p) ∧
        heap.Owns K.kmallocMaxSize (bs ++ [(p, a.pending)]) ∧
        heap.Holds p (a.pending.length + w.buf.length) a.pending) ∧
      (¬ Served K a w → temp.buf = none) := by
  have hlim := K.kmallocMaxSize_lt
  have hcount := w.count_le
  unfold maxRwCount at hcount
  rcases h.cached with ⟨hc, hp, ho⟩ | ⟨p, hc, ho⟩
  · have hserved : Served K a w ↔ w.allocOk = true ∧ w.buf.length ≤ K.kmallocMaxSize := by
      simp [Served, hp]
    unfold aesdWriteAlloc
    simp only [hc, BufferEntry.null, hp, List.length_nil, Nat.zero_add, true_and, hserved, kmalloc]
    refine ⟨fun hs => ?_, fun hs => if_neg hs⟩
    rw [if_pos hs]
    exact ⟨_, _, rfl, ho.alloc hs.2, d.heap.alloc_holds w.buf.length⟩
  · -- the pending bytes move to a longer block
    have hpl := h.pending_length_le
    have hsize : sizeAdd w.buf.length a.pending.length = a.pending.length + w.buf.length := by
      rw [sizeAdd_eq (by omega), Nat.add_comm]
    unfold aesdWriteAlloc
    simp only [hc, entryOf]
    rw [hsize]
    refine ⟨trivial, rfl, fun hs => ?_, fun hs => if_neg hs⟩
    obtain ⟨n, -, hh⟩ := ho.holds (p, a.pending) (by simp)
    refine ⟨(d.heap.realloc p (a.pending.length + w.buf.length)).1, d.heap.next, ?_,
      ho.realloc (by omega) hs.2, hh.realloc _ (by dsimp only; omega)⟩
    have hs' : w.allocOk = true ∧ a.pending.length + w.buf.length ≤ K.kmallocMaxSize := hs
    rw [krealloc, if_pos hs',
      ← BlockLedger.realloc_snd (h := d.heap) (p := p) (a.pending.length + w.buf.length)]

/-- The last ten of a history with one more command. -/
theorem stored_accept {c : List UInt8} (hc : newline ∈ c) :
    Log.stored (a.accept c) = (a.stored ++ [a.pending ++ c]).rtake maxWriteOperationsSupported := by
  unfold Log.stored
  rw [(a.accept_mem hc).1, SlotRing.rtake_rtake_concat]

/-- The buffer is cached exactly if it has no newline. -/
theorem aesdWriteStore_cached {heap : Heap} {p : ℕ} {l : List UInt8}
    (ho : heap.Owns K.kmallocMaxSize (bs ++ [(p, l)])) :
    (aesdWriteStore d heap p l.length).cachedEntry.buffptr =
      if newline ∈ l then none else some p := by
  have hread : heap.read p 0 l.length = (heap, l) := by
    rw [ho.read (l := l) (by simp) (by omega)]
    simp
  unfold aesdWriteStore
  simp only [hread]
  split_ifs <;> rfl

/-- Committing a buffer, or caching it, keeps the representation. -/
theorem aesdWriteStore_spec (h : RepresentsWith K d a bs) {heap : Heap} {p : ℕ} (c : List UInt8)
    (ho : heap.Owns K.kmallocMaxSize (bs ++ [(p, a.pending ++ c)])) :
    Represents K (aesdWriteStore d heap p (a.pending ++ c).length) (a.accept c) := by
  have hread : heap.read p 0 (a.pending ++ c).length = (heap, a.pending ++ c) := by
    rw [ho.read (l := a.pending ++ c) (by simp) (by omega)]
    simp
  have hsep := RecordLog.sep_mem_append a c
  unfold aesdWriteStore
  simp only [hread]
  by_cases hc : newline ∈ c
  · have hpend := (a.accept_mem hc).2
    have hwf := CircularBuffer.addEntry_wf (entryOf (p, a.pending ++ c)) h.wf
    have hrep := CircularBuffer.addEntry_replaced (entryOf (p, a.pending ++ c)) h.wf
    have hlen : bs.length = d.circularBuffer.count := by
      rw [← CircularBuffer.live_length, h.live, List.length_map]
    have hstored := stored_accept (a := a) hc
    have hin : (d.circularBuffer.addEntry (entryOf (p, a.pending ++ c))).1.inOffs =
        (a.accept c).committed.length % maxWriteOperationsSupported := by
      rw [(a.accept_mem hc).1, List.length_append]
      change (d.circularBuffer.inOffs + 1) % maxWriteOperationsSupported = _
      rw [h.inOffs, Nat.mod_add_mod]
      rfl
    rw [if_pos (hsep.2 hc), show (⟨some p, (a.pending ++ c).length⟩ : BufferEntry ℕ) =
      entryOf (p, a.pending ++ c) from rfl]
    cases hf : d.circularBuffer.full with
    | false =>
      -- there is room: nothing is evicted, nothing is freed
      have hlive := CircularBuffer.live_addEntry_not_full (entryOf (p, a.pending ++ c)) h.wf hf
      have hroom := CircularBuffer.count_lt_of_not_full hf
      rw [hf] at hrep
      rw [hrep]
      refine ⟨bs ++ [(p, a.pending ++ c)], hwf, hin, ?_, ?_, Or.inl ⟨rfl, hpend, ho⟩⟩
      · rw [hlive, h.live, List.map_append]
        rfl
      · have hall : (a.stored ++ [a.pending ++ c]).length ≤ maxWriteOperationsSupported := by
          rw [List.length_append, ← h.stored, List.length_map, hlen]
          exact hroom
        rw [hstored, List.rtake, Nat.sub_eq_zero_of_le hall, List.drop_zero, List.map_append,
          h.stored]
        rfl
    | true =>
      -- the block of the oldest command is evicted and freed
      have hlive := CircularBuffer.live_addEntry_full (entryOf (p, a.pending ++ c)) h.wf hf
      rw [CircularBuffer.count_of_full hf] at hlen
      cases bs with
      | nil => simp [maxWriteOperationsSupported] at hlen
      | cons b bs =>
        rw [hf, h.live] at hrep
        rw [show (d.circularBuffer.addEntry (entryOf (p, a.pending ++ c))).2 = some b.1 from hrep]
        refine ⟨bs ++ [(p, a.pending ++ c)], hwf, hin, ?_, ?_, Or.inl ⟨rfl, hpend, ho.free⟩⟩
        · rw [hlive, h.live, List.map_append]
          rfl
        · have hcut : (a.stored ++ [a.pending ++ c]).length - maxWriteOperationsSupported = 1 := by
            rw [List.length_append, ← h.stored, List.length_map, hlen]
            rfl
          rw [hstored, List.rtake, hcut, ← h.stored, List.map_append]
          rfl
  · -- the buffer waits in the cached entry
    rw [if_neg (hsep.not.2 hc)]
    obtain ⟨h1, h2⟩ := a.accept_not_mem hc
    refine ⟨bs, h.wf, ?_, h.live, ?_, Or.inr ⟨p, ?_, ?_⟩⟩
    · rw [h1]; exact h.inOffs
    · rw [h.stored, Log.stored, Log.stored, h1]
    · rw [h2]; rfl
    · rw [h2]; exact ho

theorem copyFromUser_eq (heap : Heap) (p off : ℕ) (w : WriteCall) :
    copyFromUser heap p off w.buf w.notCopied =
      heap.write p off (w.accepted ++ List.replicate w.notCopied 0) := rfl

/-- A call that is refused its memory leaves everything as it is. -/
theorem aesdWriteBody_refused (h : RepresentsWith K d a bs) {w : WriteCall} (h0 : w.buf.length ≠ 0)
    (hs : ¬ Served K a w) : aesdWriteBody K d w = (d, -ENOMEM) := by
  obtain ⟨-, -, -, hnull⟩ := aesdWriteAlloc_spec h w
  unfold aesdWriteBody
  simp only [if_neg h0, hnull hs]

/-- A call that has its memory goes on with a buffer that holds the pending bytes and those it has
copied. -/
theorem aesdWriteBody_served (h : RepresentsWith K d a bs) {w : WriteCall} (h0 : w.buf.length ≠ 0)
    (hs : Served K a w) :
    ∃ heap p, heap.Owns K.kmallocMaxSize (bs ++ [(p, a.pending ++ w.accepted)]) ∧
      aesdWriteBody K d w =
        (aesdWriteStore d heap p (a.pending ++ w.accepted).length, (w.accepted.length : ℤ)) := by
  have hcount := w.count_le
  have hnot := w.notCopied_le
  have hacc := w.accepted_length
  have hlim := hs.2
  have hK := K.kmallocMaxSize_lt
  obtain ⟨hoff, hsize, hok, -⟩ := aesdWriteAlloc_spec h w
  obtain ⟨heap, p, htemp, ho, hh⟩ := hok hs
  have hwrite := ho.write hh hlim (m := w.accepted) (z := List.replicate w.notCopied 0)
    (by rw [List.length_append, List.length_replicate]; omega)
  have hlen : (a.pending ++ w.accepted).length =
      a.pending.length + w.buf.length - w.notCopied := by
    rw [List.length_append, hacc]; omega
  refine ⟨_, p, hwrite, ?_⟩
  unfold aesdWriteBody
  simp only [if_neg h0, htemp, hoff, hsize, copyFromUser_eq]
  unfold maxRwCount at hcount
  split_ifs with hn
  · rw [hlen, hn, Nat.sub_zero]
    rw [hn, Nat.sub_zero] at hacc
    rw [toLong_eq (by omega), hacc]
  · rw [sizeSub_eq (by omega) (by omega), ← hlen, sizeSub_eq hnot (by omega),
      toLong_eq (by omega), hacc]

/-- **One call of `aesd_write` is one write on the log.** -/
theorem aesdWriteBody_refines (h : Represents K d a) (w : WriteCall) :
    Represents K (aesdWriteBody K d w).1 (logWrite K a w).1 ∧
      (aesdWriteBody K d w).2 = (logWrite K a w).2 := by
  obtain ⟨bs, h⟩ := h
  unfold logWrite
  by_cases h0 : w.buf.length = 0
  · have hbody : aesdWriteBody K d w = (d, 0) := by simp only [aesdWriteBody, h0, if_true]
    rw [if_pos h0, hbody]
    exact ⟨⟨bs, h⟩, rfl⟩
  · by_cases hs : Served K a w
    · obtain ⟨heap, p, ho, hbody⟩ := aesdWriteBody_served h h0 hs
      rw [if_neg h0, if_pos hs, hbody]
      exact ⟨aesdWriteStore_spec h w.accepted ho, rfl⟩
    · rw [if_neg h0, if_neg hs, aesdWriteBody_refused h h0 hs]
      exact ⟨⟨bs, h⟩, rfl⟩

theorem aesdWrite_refines (h : Represents K d a) (w : WriteCall) :
    Represents K (aesdWrite K d true w).1 (logWrite K a w).1 ∧
      (aesdWrite K d true w).2 = (logWrite K a w).2 :=
  aesdWriteBody_refines h w

/-- **A run of `aesd_write` is a run on the log.** -/
theorem aesdWrites_refines (h : Represents K d a) (ws : List WriteCall) :
    Represents K (aesdWrites K d ws).1 (logWrites K a ws).1 ∧
      (aesdWrites K d ws).2 = (logWrites K a ws).2 := by
  induction ws generalizing d a with
  | nil => exact ⟨h, rfl⟩
  | cons w ws ih =>
    obtain ⟨h1, h2⟩ := aesdWrite_refines h w
    obtain ⟨h3, h4⟩ := ih h1
    exact ⟨h3, by simp only [aesdWrites, logWrites, h2, h4]⟩

end Write

/-- Every state reached from the initialised module stands for a log. -/
theorem aesdWrites_represents (K : Kernel) (ws : List WriteCall) :
    Represents K (aesdWrites K aesdInitModule ws).1
      (logWrites K (RecordLog.empty newline) ws).1 :=
  (aesdWrites_refines (init_represents K) ws).1

end Aesd
