import Aesd.Device.Session

/-!
# Who owns the memory of the device

The driver gets its buffers from `kmalloc` and `krealloc` and gives them back with `kfree`.  In
between a buffer belongs to a slot of the ring or to the cached entry: `Dev.references` are their
pointers.

* `serve_accounted`: every block ever given out is live, or it has been freed once;
* `ownership`: in every state that calls lead to, the live blocks are the ones referenced, and no
  memory has been misused;
* `unload_clean_iff`: exactly when `aesd_cleanup_module` leaves no block behind.
-/

namespace Aesd

open CInt

namespace Dev

/-- The ten slots, and the cached entry. -/
def entries (d : Dev) : List (BufferEntry ℕ) := d.circularBuffer.entry.toList ++ [d.cachedEntry]

/-- The buffers the device points to. -/
def references (d : Dev) : List ℕ := d.entries.filterMap BufferEntry.buffptr

/-- The blocks of the heap and the entries of the device fit together: every live block is
referenced by exactly one entry, the bytes an entry describes have been written to its block,
every block given out is live or has been freed once, and memory has never been misused. -/
structure OwnsBlocks (d : Dev) : Prop where
  distinct : d.references.Nodup
  live : ∀ p, d.heap.block p ≠ none ↔ p ∈ d.references
  initialised : ∀ e ∈ d.entries, ∀ p, e.buffptr = some p →
    ∃ n bytes, d.heap.Holds p n bytes ∧ bytes.length = e.size
  freed : ∀ p, d.heap.freed.count p ≤ 1 ∧
    (p ∈ d.heap.freed ↔ p < d.heap.next ∧ d.heap.block p = none)
  faults : d.heap.faults = []

end Dev

/-! ### Blocks are freed once -/

section Accounted

variable {K : Kernel} {d : Dev}

theorem aesdWriteAlloc_accounted (ha : d.heap.Accounted) {ok : Bool} {count : ℕ} {heap : Heap}
    {p : ℕ} (h : (aesdWriteAlloc K d ok count).buf = some (heap, p)) : heap.Accounted := by
  unfold aesdWriteAlloc at h
  cases hc : d.cachedEntry.buffptr with
  | none =>
    simp only [hc, kmalloc] at h
    split_ifs at h
    obtain rfl := congrArg Prod.fst (Option.some.inj h)
    exact ha.alloc count
  | some q =>
    simp only [hc, krealloc] at h
    split_ifs at h
    obtain rfl := congrArg Prod.fst (Option.some.inj h)
    exact ha.realloc q _

theorem aesdWriteStore_accounted {heap : Heap} (ha : heap.Accounted) (p n : ℕ) :
    (aesdWriteStore d heap p n).heap.Accounted := by
  have hscan : (heap.read p 0 n).1.Accounted := ha.readPtr (some p) 0 n
  unfold aesdWriteStore
  dsimp only
  split_ifs
  · cases (d.circularBuffer.addEntry ⟨some p, n⟩).2 with
    | none => exact hscan
    | some q => exact hscan.free q
  · exact hscan

theorem aesdWriteBody_accounted (ha : d.heap.Accounted) (w : WriteCall) :
    (aesdWriteBody K d w).1.heap.Accounted := by
  unfold aesdWriteBody
  by_cases h0 : w.buf.length = 0
  · simp only [if_pos h0]
    exact ha
  · simp only [if_neg h0]
    cases hbuf : (aesdWriteAlloc K d w.allocOk w.buf.length).buf with
    | none => exact ha
    | some r =>
      obtain ⟨heap, p⟩ := r
      have hcopy := (aesdWriteAlloc_accounted ha hbuf).write p
        (aesdWriteAlloc K d w.allocOk w.buf.length).writeOffset
        (w.accepted ++ List.replicate w.notCopied 0)
      by_cases hn : w.notCopied = 0
      · simp only [if_pos hn]
        exact aesdWriteStore_accounted hcopy _ _
      · simp only [if_neg hn]
        exact aesdWriteStore_accounted hcopy _ _

theorem aesdReadBody_accounted (ha : d.heap.Accounted) (fPos : ℤ) (count : ℕ) (fault : Bool) :
    (aesdReadBody d fPos count fault).dev.heap.Accounted := by
  unfold aesdReadBody
  cases d.circularBuffer.findEntryOffsetForFpos (toSize fPos) with
  | none => exact ha
  | some r =>
    cases fault with
    | false => exact ha.readPtr _ _ _
    | true => exact ha.readPtr _ _ _

/-- One call, whatever it is. -/
theorem serve_accounted (ha : d.heap.Accounted) (lock : Bool) (fPos : ℤ) (q : Request) :
    (q.serve K d lock fPos).1.heap.Accounted := by
  cases q with
  | read count fault =>
    cases lock with
    | false => exact ha
    | true => exact aesdReadBody_accounted ha fPos count fault
  | write w =>
    cases lock with
    | false => exact ha
    | true => exact aesdWriteBody_accounted ha w
  | llseek off whence => exact ha
  | ioctl cmd arg => exact ha

theorem calls_accounted {s : Session} (ha : s.dev.heap.Accounted) (cs : List Invocation) :
    (Session.calls K s cs).1.dev.heap.Accounted := by
  induction cs generalizing s with
  | nil => exact ha
  | cons c cs ih => exact ih (serve_accounted ha c.lock (s.fPos c.file) c.request)

theorem aesdWrites_accounted (ha : d.heap.Accounted) (ws : List WriteCall) :
    (aesdWrites K d ws).1.heap.Accounted := by
  induction ws generalizing d with
  | nil => exact ha
  | cons w ws ih => exact ih (aesdWriteBody_accounted ha w)

end Accounted

/-! ### Live blocks are referenced -/

section Owned

variable {K : Kernel} {d : Dev} {a : Log} {bs : List (ℕ × List UInt8)}

/-- The blocks of the heap are those of the ring and at most one more, that of the cached entry. -/
theorem RepresentsWith.owns (h : RepresentsWith K d a bs) :
    ∃ cs, d.heap.Owns K.kmallocMaxSize (bs ++ cs) ∧
      cs.map Prod.fst = d.cachedEntry.buffptr.toList ∧ ∀ c ∈ cs, d.cachedEntry = entryOf c := by
  rcases h.cached with ⟨hc, -, ho⟩ | ⟨p, hc, ho⟩
  · exact ⟨[], by rwa [List.append_nil], by rw [hc]; rfl, by simp⟩
  · exact ⟨[(p, a.pending)], ho, by rw [hc]; rfl, by simpa using hc⟩

/-- The pointers in the array are those of the blocks of the ring, in some order. -/
theorem RepresentsWith.ring_perm (h : RepresentsWith K d a bs) :
    (d.circularBuffer.entry.toList.filterMap BufferEntry.buffptr).Perm (bs.map Prod.fst) := by
  have hlive : d.circularBuffer.live.filterMap BufferEntry.buffptr = bs.map Prod.fst := by
    rw [h.live, List.filterMap_map]
    exact congrFun (List.filterMap_eq_map' (f := Prod.fst)) bs
  rw [← hlive]
  exact CircularBuffer.buffptrs_perm h.wf

theorem RepresentsWith.references_perm (h : RepresentsWith K d a bs) {cs : List (ℕ × List UInt8)}
    (hcs : cs.map Prod.fst = d.cachedEntry.buffptr.toList) :
    d.references.Perm ((bs ++ cs).map Prod.fst) := by
  have hcached : [d.cachedEntry].filterMap BufferEntry.buffptr = cs.map Prod.fst := by
    rw [hcs]
    cases hp : d.cachedEntry.buffptr <;> simp [hp]
  unfold Dev.references Dev.entries
  rw [List.filterMap_append, hcached, List.map_append]
  exact h.ring_perm.append_right _

/-- An entry of the array that has a buffer describes a block of the ring. -/
theorem RepresentsWith.entry_eq (h : RepresentsWith K d a bs) {e : BufferEntry ℕ}
    (he : e ∈ d.circularBuffer.entry.toList) (hp : e.buffptr ≠ none) :
    ∃ b ∈ bs, e = entryOf b := by
  rw [← List.mem_rotate (n := d.circularBuffer.outOffs), CircularBuffer.rotate_entry h.wf, h.live,
    List.mem_append, List.mem_map] at he
  rcases he with ⟨b, hb, rfl⟩ | hnull
  · exact ⟨b, hb, rfl⟩
  · rw [List.eq_of_mem_replicate hnull] at hp
    exact absurd rfl hp

/-- **A device that stands for a log owns its blocks.** -/
theorem Represents.ownsBlocks (h : Represents K d a) (ha : d.heap.Accounted) : d.OwnsBlocks := by
  have hfaults := h.faults
  obtain ⟨bs, h⟩ := h
  obtain ⟨cs, ho, hcs, hcached⟩ := h.owns
  have hperm := h.references_perm hcs
  refine ⟨hperm.nodup_iff.2 ho.nodup, fun p => (ho.live p).trans hperm.mem_iff.symm,
    fun e he p hp => ?_, fun p => ?_, hfaults⟩
  · -- the entry describes one of the blocks listed
    obtain ⟨b, hb, rfl⟩ : ∃ b ∈ bs ++ cs, e = entryOf b := by
      rcases List.mem_append.1 he with he | he
      · obtain ⟨b, hb, rfl⟩ := h.entry_eq he (by simp [hp])
        exact ⟨b, List.mem_append_left _ hb, rfl⟩
      · rw [List.mem_singleton.1 he] at hp ⊢
        have hmem : p ∈ cs.map Prod.fst := by rw [hcs, hp]; simp
        obtain ⟨c, hc, -⟩ := List.mem_map.1 hmem
        exact ⟨c, List.mem_append_right _ hc, hcached c hc⟩
    obtain rfl : b.1 = p := Option.some.inj hp
    obtain ⟨n, -, hh⟩ := ho.holds b hb
    exact ⟨n, b.2, hh, rfl⟩
  · by_cases hp : d.heap.block p = none
    · rcases Nat.lt_or_ge p d.heap.next with hlt | hge
      · have hone := ha.dead p hlt hp
        exact ⟨hone.le, iff_of_true (List.count_pos_iff.1 (by omega)) ⟨hlt, hp⟩⟩
      · have hzero := ha.unused p hge
        exact ⟨by omega, iff_of_false (List.count_eq_zero.1 hzero) (by omega)⟩
    · have hzero := ha.live p hp
      exact ⟨by omega, iff_of_false (List.count_eq_zero.1 hzero) fun h => hp h.2⟩

/-- The bytes that a `write` copies go to its block. -/
theorem Represents.copy_inside (h : Represents K d a) (w : WriteCall) {heap : Heap} {p : ℕ}
    (hbuf : (aesdWriteAlloc K d w.allocOk w.buf.length).buf = some (heap, p)) :
    ∃ cells, heap.block p = some cells ∧
      (aesdWriteAlloc K d w.allocOk w.buf.length).writeOffset + w.buf.length ≤ cells.length := by
  obtain ⟨bs, h⟩ := h
  obtain ⟨hoff, -, hok, hnull⟩ := aesdWriteAlloc_spec h w
  by_cases hs : Served K a w
  · obtain ⟨heap', p', hbuf', -, cells, hcells, hlen, -⟩ := hok hs
    obtain ⟨rfl, rfl⟩ := Prod.mk.inj (Option.some.inj (hbuf.symm.trans hbuf'))
    exact ⟨cells, hcells, by rw [hoff, hlen]⟩
  · rw [hnull hs] at hbuf
    simp at hbuf

end Owned

/-- **Block ownership.**  In every state that calls lead to, with any outcomes of allocations and
copies: the live blocks are exactly those the ten slots and the cached entry point to, each
referenced once; the bytes an entry describes have been written to its block, and together they
are the last bytes copied from the users; a further `write` copies into its own block only; every
block given out is live or has been freed once, and no memory has been misused. -/
theorem ownership (K : Kernel) (cs : List Invocation) :
    let d := (Session.calls K .start cs).1.dev
    d.OwnsBlocks ∧
      (∃ D, D ++ d.storedCommands.flatten ++ d.pendingBytes = Session.taken K .start cs) ∧
      ∀ (w : WriteCall) heap p, (aesdWriteAlloc K d w.allocOk w.buf.length).buf = some (heap, p) →
        ∃ cells, heap.block p = some cells ∧
          (aesdWriteAlloc K d w.allocOk w.buf.length).writeOffset + w.buf.length ≤
            cells.length := by
  intro d
  obtain ⟨a, h, hs⟩ := session_represents K cs
  have ha : d.heap.Accounted :=
    calls_accounted (s := .start) (BlockLedger.accounted_empty) cs
  refine ⟨h.ownsBlocks ha, ?_, fun w heap p hbuf => h.copy_inside w hbuf⟩
  obtain ⟨D, hD⟩ := h.stream
  exact ⟨D, hD.trans hs⟩

/-! ### Unloading the module -/

/-- One turn of the loop in `aesd_cleanup_module`. -/
def cleanupSlot (d : Dev) (index : ℕ) : Dev :=
  match (d.circularBuffer.slot index).buffptr with
  | some p =>
    let entry := { d.circularBuffer.slot index with buffptr := none }
    { d with
      heap := d.heap.free p
      circularBuffer :=
        { d.circularBuffer with entry := d.circularBuffer.entry.setIfInBounds index entry } }
  | none => d

theorem aesdCleanupModule_eq (d : Dev) :
    aesdCleanupModule d = (List.range maxWriteOperationsSupported).foldl cleanupSlot d := rfl

/-- The other slots are left alone. -/
theorem cleanupSlot_slot (d : Dev) {index i : ℕ} (hi : i ≠ index) :
    (cleanupSlot d index).circularBuffer.slot i = d.circularBuffer.slot i := by
  unfold cleanupSlot
  cases (d.circularBuffer.slot index).buffptr with
  | none => rfl
  | some p =>
    unfold CircularBuffer.slot
    rw [Vector.getElem?_setIfInBounds, if_neg hi.symm]

/-- The loop frees the buffers of the slots it visits. -/
theorem foldl_cleanupSlot {is : List ℕ} (hnd : is.Nodup) (d : Dev) :
    (is.foldl cleanupSlot d).heap =
      (is.filterMap fun i => (d.circularBuffer.slot i).buffptr).foldl BlockLedger.free d.heap := by
  induction is generalizing d with
  | nil => rfl
  | cons i is ih =>
    obtain ⟨hi, hnd⟩ := List.nodup_cons.1 hnd
    have hrest : (is.filterMap fun j => ((cleanupSlot d i).circularBuffer.slot j).buffptr) =
        is.filterMap fun j => (d.circularBuffer.slot j).buffptr := by
      refine List.filterMap_congr fun j hj => ?_
      rw [cleanupSlot_slot d (ne_of_mem_of_not_mem hj hi)]
    rw [List.foldl_cons, ih hnd, hrest, List.filterMap_cons]
    unfold cleanupSlot
    cases (d.circularBuffer.slot i).buffptr with
    | none => rfl
    | some p => rfl

/-- **Unloading the module** frees the buffers in the array. -/
theorem aesdCleanupModule_heap (d : Dev) :
    (aesdCleanupModule d).heap =
      (d.circularBuffer.entry.toList.filterMap BufferEntry.buffptr).foldl BlockLedger.free
        d.heap := by
  rw [aesdCleanupModule_eq, foldl_cleanupSlot List.nodup_range, ← CircularBuffer.map_slot_range,
    List.filterMap_map]
  rfl

section Unload

variable {K : Kernel} {d : Dev} {a : Log}

/-- What is live after unloading is the buffer of the cached entry. -/
theorem Represents.unload_live (h : Represents K d a) (p : ℕ) :
    (aesdCleanupModule d).heap.block p ≠ none ↔ d.cachedEntry.buffptr = some p := by
  obtain ⟨bs, h⟩ := h
  obtain ⟨cs, ho, hcs, -⟩ := h.owns
  rw [aesdCleanupModule_heap, (ho.free_all h.ring_perm).live, hcs, Option.mem_toList]

/-- Unloading frees no block that is not live. -/
theorem Represents.unload_faults (h : Represents K d a) :
    (aesdCleanupModule d).heap.faults = [] := by
  obtain ⟨bs, h⟩ := h
  obtain ⟨cs, ho, -, -⟩ := h.owns
  rw [aesdCleanupModule_heap]
  exact (ho.free_all h.ring_perm).faults

theorem Represents.clean_iff (h : Represents K d a) (ha : d.heap.Accounted) :
    (aesdCleanupModule d).heap.Clean ↔ d.cachedEntry.buffptr = none := by
  have hacc : (aesdCleanupModule d).heap.Accounted := by
    rw [aesdCleanupModule_heap]
    exact ha.free_all _
  rw [hacc.clean_iff, Option.eq_none_iff_forall_ne_some]
  exact forall_congr' fun p => by rw [← not_iff_not, ← ne_eq, h.unload_live p, not_not]

/-- The call has had its memory: it is not empty, and it has returned no error. -/
def WriteStep.HadMemory (s : WriteStep) : Prop := s.call.buf.length ≠ 0 ∧ 0 ≤ s.retval

instance (s : WriteStep) : Decidable s.HadMemory := inferInstanceAs (Decidable (_ ∧ _))

/-- Whether a buffer is cached after a call. -/
theorem writeStep_cached (h : Represents K d a) (w : WriteCall) :
    (writeStep K d w).after.cachedEntry.buffptr = none ↔
      if (writeStep K d w).HadMemory then newline ∈ (writeStep K d w).taken
      else d.cachedEntry.buffptr = none := by
  obtain ⟨bs, h⟩ := h
  by_cases h0 : w.buf.length = 0
  · have hbody : aesdWriteBody K d w = (d, 0) := by simp only [aesdWriteBody, h0, if_true]
    rw [if_neg fun hm => hm.1 h0]
    change (aesdWriteBody K d w).1.cachedEntry.buffptr = none ↔ _
    rw [hbody]
  · by_cases hs : Served K a w
    · obtain ⟨heap, p, ho, hbody⟩ := aesdWriteBody_served h h0 hs
      have hval : (writeStep K d w).retval = w.accepted.length := congrArg Prod.snd hbody
      have hacc : (writeStep K d w).taken = w.accepted := by
        unfold WriteStep.taken
        rw [hval, Int.toNat_natCast, w.accepted_length]
        rfl
      rw [if_pos ⟨h0, by rw [hval]; omega⟩, hacc]
      change (aesdWriteBody K d w).1.cachedEntry.buffptr = none ↔ _
      rw [hbody, aesdWriteStore_cached ho, ← a.sep_mem_append w.accepted]
      split_ifs with hn
      · exact iff_of_true rfl hn
      · exact iff_of_false (by simp) hn
    · have hbody := aesdWriteBody_refused h h0 hs
      have hval : (writeStep K d w).retval = -ENOMEM := congrArg Prod.snd hbody
      rw [if_neg fun hm => by have := hm.2; rw [hval] at this; simp [ENOMEM] at this]
      change (aesdWriteBody K d w).1.cachedEntry.buffptr = none ↔ _
      rw [hbody]

/-- Whether a buffer is cached after a run: the last call that has had its memory tells. -/
theorem aesdWrites_cached (h : Represents K d a) (ws : List WriteCall) :
    (aesdWrites K d ws).1.cachedEntry.buffptr = none ↔
      match ((aesdWriteSteps K d ws).filter (·.HadMemory)).getLast? with
      | some s => newline ∈ s.taken
      | none => d.cachedEntry.buffptr = none := by
  induction ws generalizing d a with
  | nil => exact Iff.rfl
  | cons w ws ih =>
    have hstep := writeStep_cached h w
    have hsteps : aesdWriteSteps K d (w :: ws) =
        writeStep K d w :: aesdWriteSteps K (writeStep K d w).after ws := rfl
    rw [show (aesdWrites K d (w :: ws)).1 = (aesdWrites K (writeStep K d w).after ws).1 from rfl,
      ih (writeStep_represents h w), hsteps, List.filter_cons]
    by_cases hm : (writeStep K d w).HadMemory
    · rw [if_pos hm] at hstep
      rw [if_pos (by simpa using hm), List.getLast?_cons]
      cases ((aesdWriteSteps K (writeStep K d w).after ws).filter (·.HadMemory)).getLast? with
      | none => exact hstep
      | some s => exact Iff.rfl
    · rw [if_neg hm] at hstep
      rw [if_neg (by simpa using hm)]
      cases ((aesdWriteSteps K (writeStep K d w).after ws).filter (·.HadMemory)).getLast? with
      | none => exact hstep
      | some s => exact Iff.rfl

end Unload

/-- **When unloading leaks nothing.**  A run of writes that ends with `aesd_cleanup_module` leaves
no block live and has freed every block exactly once if and only if no buffer is cached when the
module is unloaded, i.e. if the last call that has had its memory has brought a newline, or there
is none.  Otherwise the cached buffer, and no other, stays behind.  In no run does unloading free
a block that is not live. -/
theorem unload_clean_iff (K : Kernel) (ws : List WriteCall) :
    let d := (aesdWrites K aesdInitModule ws).1
    ((aesdCleanupModule d).heap.Clean ↔ d.cachedEntry.buffptr = none) ∧
      (d.cachedEntry.buffptr = none ↔
        ∀ s ∈ ((aesdWriteSteps K aesdInitModule ws).filter (·.HadMemory)).getLast?,
          newline ∈ s.taken) ∧
      (∀ p, (aesdCleanupModule d).heap.block p ≠ none ↔ d.cachedEntry.buffptr = some p) ∧
      (aesdCleanupModule d).heap.faults = [] := by
  intro d
  have h : Represents K d _ := aesdWrites_represents K ws
  have ha : d.heap.Accounted :=
    aesdWrites_accounted (d := aesdInitModule) BlockLedger.accounted_empty ws
  refine ⟨h.clean_iff ha, (aesdWrites_cached (init_represents K) ws).trans ?_, h.unload_live,
    h.unload_faults⟩
  cases ((aesdWriteSteps K aesdInitModule ws).filter (·.HadMemory)).getLast? with
  | none => exact iff_of_true rfl fun s hs => absurd hs (Option.not_mem_none s)
  | some s => simp

/-- One write without a newline: its buffer is still live after the module is unloaded. -/
theorem unload_not_clean :
    let ws : List WriteCall := [[97]].map .served
    ¬ (aesdCleanupModule (aesdWrites .x86 aesdInitModule ws).1).heap.Clean := by
  intro ws hclean
  have h := aesdWrites_represents .x86 ws
  have hcached : (aesdWrites .x86 aesdInitModule ws).1.cachedEntry.buffptr = some 0 := by
    decide +kernel
  exact (h.unload_live 0).2 hcached (hclean.dead 0)

end Aesd
