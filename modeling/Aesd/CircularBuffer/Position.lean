import Aesd.CircularBuffer.Lookup

/-!
# The position lookup is exact

`lookup_exact` puts `Aesd.CircularBuffer.Lookup` together for the buffers that can be reached: the
entries may have any sizes, zero included, as long as those of the last ten add up in a `size_t`.

`findOps` and `totalSizeOps` are the additions and subtractions of sizes that the two functions
carry out, read off their loops.  That none of them wraps is part of the result.
-/

namespace Aesd

namespace CircularBuffer

open CInt

variable {P : Type*}

/-- `aesd_circular_buffer_find_entry_offset_for_fpos` with its third argument: the entry returned,
and what `*entry_offset_byte_rtn` holds then, if it has held `rtn`. -/
def findEntryOffsetForFposRtn (b : CircularBuffer P) (charOffset rtn : ℕ) : Option ℕ × ℕ :=
  match b.findEntryOffsetForFpos charOffset with
  | some (entryIndex, byteOffset) => (some entryIndex, byteOffset)
  | none => (none, rtn)

/-- The size arithmetic of `findLoop`. -/
def findLoopOps (b : CircularBuffer P) (charOffset : ℕ) : ℕ → ℕ → ℕ → List SizeOp
  | 0, _, _ => []
  | n + 1, entryIndex, cumulativeLength =>
    let e := b.slot entryIndex
    let next := (entryIndex + 1) % maxWriteOperationsSupported
    if e.buffptr.isSome then
      let length := sizeAdd cumulativeLength e.size
      .add cumulativeLength e.size ::
        if charOffset < length then [.sub length e.size, .sub charOffset (sizeSub length e.size)]
        else findLoopOps b charOffset n next length
    else findLoopOps b charOffset n next cumulativeLength

/-- The size arithmetic of a lookup. -/
def findOps (b : CircularBuffer P) (charOffset : ℕ) : List SizeOp :=
  findLoopOps b charOffset maxWriteOperationsSupported b.outOffs 0

/-- The size arithmetic of `aesd_circular_buffer_entries_total_size`. -/
def totalSizeOps (b : CircularBuffer P) : List SizeOp :=
  sumOps 0 ((List.range maxWriteOperationsSupported).map fun index => (b.slot index).size)

section Exact

variable {b : CircularBuffer P} (hwf : b.WF) (hptr : ∀ e ∈ b.live, e.buffptr.isSome = true)
  (hsum : b.sizes.sum < 2 ^ 64)

include hwf hptr hsum

/-- The loop, entered at ring position `k` with the sizes of the `k` older entries summed up, does
not wrap. -/
theorem findLoopOps_exact (off : ℕ) (n k : ℕ) (hk : k + n = maxWriteOperationsSupported)
    (hoff : (b.sizes.take k).sum ≤ off) :
    ∀ op ∈ b.findLoopOps off n ((k + b.outOffs) % maxWriteOperationsSupported)
      (b.sizes.take k).sum, op.Exact := by
  induction n generalizing k with
  | zero => simp [findLoopOps]
  | succ n ih =>
    rw [findLoopOps]
    simp only [show b.slot ((k + b.outOffs) % maxWriteOperationsSupported) = b.ringSlot k from rfl,
      ring_next]
    rcases Nat.lt_or_ge k b.count with hlt | hge
    · have htake := sum_take_sizes hlt
      have hle := sum_take_le b.sizes (k + 1)
      have hsome : (b.ringSlot k).buffptr.isSome = true :=
        hptr _ (List.mem_of_getElem? (live_getElem? hlt))
      have hadd : (b.sizes.take k).sum + (b.ringSlot k).size < 2 ^ 64 := by omega
      rw [if_pos hsome, sizeAdd_eq hadd, ← htake,
        sizeSub_eq (by omega : (b.ringSlot k).size ≤ (b.sizes.take (k + 1)).sum) (by omega)]
      intro op hop
      rcases List.mem_cons.1 hop with rfl | hop
      · exact hadd
      split_ifs at hop with hfound
      · -- the entry is found: both differences are those of prefix sums
        simp only [List.mem_cons, List.not_mem_nil, or_false] at hop
        rcases hop with rfl | rfl
        · unfold SizeOp.Exact; omega
        · unfold SizeOp.Exact; omega
      · exact ih (k + 1) (by omega) (by omega) op hop
    · -- an all-zero slot is skipped without any arithmetic
      have hlen : b.sizes.length ≤ k := by rw [sizes_length]; exact hge
      have hdead : b.ringSlot k = .null := hwf.dead k hge (by omega)
      have htake : b.sizes.take k = b.sizes.take (k + 1) := by
        rw [List.take_of_length_le hlen, List.take_of_length_le (by omega)]
      rw [hdead, if_neg (by simp [BufferEntry.null]), htake]
      exact ih (k + 1) (by omega) (by rw [← htake]; exact hoff)

theorem findOps_exact (off : ℕ) : ∀ op ∈ b.findOps off, op.Exact := by
  have h := findLoopOps_exact hwf hptr hsum off maxWriteOperationsSupported 0 rfl (by simp)
  have hmod : (0 + b.outOffs) % maxWriteOperationsSupported = b.outOffs := by
    rw [Nat.zero_add]; exact Nat.mod_eq_of_lt hwf.outOffs_lt
  rw [hmod] at h
  simpa [findOps] using h

/-- The lookup with its third argument, as a position in the concatenation. -/
theorem findEntryOffsetForFposRtn_eq (off rtn : ℕ) :
    b.findEntryOffsetForFposRtn off rtn = match Concat.locate b.sizes off with
      | some (k, j) => (some ((k + b.outOffs) % maxWriteOperationsSupported), j)
      | none => (none, rtn) := by
  unfold findEntryOffsetForFposRtn
  rw [findEntryOffsetForFpos_eq hwf hptr hsum off]
  cases Concat.locate b.sizes off <;> rfl

end Exact

/-- The entry at a position of the concatenation is live. -/
theorem live_of_locate {b : CircularBuffer P} {off k j : ℕ}
    (h : Concat.locate b.sizes off = some (k, j)) :
    b.live[k]? = some (b.ringSlot k) ∧ j < (b.ringSlot k).size ∧
      ((b.live.take k).map BufferEntry.size).sum + j = off := by
  obtain ⟨s, hs, hj, hoff⟩ := (Concat.locate_eq_some_iff _ _ _ _).1 h
  have hk : k < b.count := by
    rw [← sizes_length]
    exact (List.getElem?_eq_some_iff.1 hs).1
  have hget := live_getElem? hk
  have hsize : (b.ringSlot k).size = s := by
    rw [sizes, List.getElem?_map, hget, Option.map_some, Option.some.injEq] at hs
    exact hs
  refine ⟨hget, by rw [hsize]; exact hj, ?_⟩
  rw [List.map_take]
  exact hoff

/-- **The lookup is exact.**  After any calls on the fresh buffer whose last ten entries add up in
a `size_t`, an entry is found exactly below the total size.  It is live, and its older entries and
the byte offset inside it make up the position, so that the byte found is the one at that position
of the concatenation, oldest entry first.  If none is found, `*entry_offset_byte_rtn` is left
alone.  No addition or subtraction of sizes wraps. -/
theorem lookup_exact {β : Type*} (content : BufferEntry P → List β) (es : List (BufferEntry P))
    (hptr : ∀ e ∈ es, e.buffptr.isSome = true)
    (hcontent : ∀ e ∈ es, (content e).length = e.size)
    (hsum : ((es.rtake maxWriteOperationsSupported).map BufferEntry.size).sum < 2 ^ 64)
    (charOffset rtn : ℕ) :
    let b := (init.addEntries es).1
    let live := es.rtake maxWriteOperationsSupported
    let r := b.findEntryOffsetForFposRtn charOffset rtn
    (r.1.isSome = true ↔ charOffset < b.entriesTotalSize) ∧
      (∀ i, r.1 = some i → ∃ k, i = (k + b.outOffs) % maxWriteOperationsSupported ∧
        live[k]? = some (b.slot i) ∧ r.2 < (b.slot i).size ∧
        ((live.take k).map BufferEntry.size).sum + r.2 = charOffset ∧
        (live.flatMap content)[charOffset]? = (content (b.slot i))[r.2]?) ∧
      (r.1 = none → r.2 = rtn) ∧
      ∀ op ∈ b.findOps charOffset ++ b.totalSizeOps, op.Exact := by
  intro b live r
  obtain ⟨hwf, hlive⟩ : b.WF ∧ b.live = live := addEntries_live es
  have hmem : ∀ e ∈ live, e ∈ es := fun e he => List.mem_of_mem_drop he
  have hsizes : b.sizes = live.map BufferEntry.size := by rw [sizes, hlive]
  have hptr' : ∀ e ∈ b.live, e.buffptr.isSome = true := by
    rw [hlive]
    exact fun e he => hptr e (hmem e he)
  have hsum' : b.sizes.sum < 2 ^ 64 := by rw [hsizes]; exact hsum
  have hrtn : r = _ := findEntryOffsetForFposRtn_eq hwf hptr' hsum' charOffset rtn
  have htotal := entriesTotalSize_eq hwf hsum'
  have hsome := Concat.locate_isSome b.sizes charOffset
  refine ⟨?_, fun i hi => ?_, fun hnone => ?_, fun op hop => ?_⟩
  · rw [htotal, ← hsome, hrtn]
    cases Concat.locate b.sizes charOffset <;> simp
  · cases hloc : Concat.locate b.sizes charOffset with
    | none => simp [hrtn, hloc] at hi
    | some p =>
      obtain ⟨k, j⟩ := p
      have hr : r = (some ((k + b.outOffs) % maxWriteOperationsSupported), j) := by
        rw [hrtn, hloc]
      rw [hr, Option.some.injEq] at hi
      subst hi
      obtain ⟨hget, hj, hoff⟩ := live_of_locate hloc
      rw [hlive] at hget hoff
      refine ⟨k, rfl, hget, by rw [hr]; exact hj, by rw [hr]; exact hoff, ?_⟩
      have hmap : (live.map content).map List.length = b.sizes := by
        rw [hsizes, List.map_map]
        exact List.map_congr_left fun e he => hcontent e (hmem e he)
      have hcmd : (live.map content)[k]? = some (content (b.ringSlot k)) := by
        rw [List.getElem?_map, hget]; rfl
      rw [hr, List.flatMap_def]
      exact Concat.getElem?_flatten_of_locate _ hcmd (by rw [hmap]; exact hloc)
  · cases hloc : Concat.locate b.sizes charOffset with
    | none => rw [hrtn, hloc]
    | some p => simp [hrtn, hloc] at hnone
  · rcases List.mem_append.1 hop with hop | hop
    · exact findOps_exact hwf hptr' hsum' charOffset op hop
    · have hadd : ((List.range maxWriteOperationsSupported).map
          fun index => (b.slot index).size).sum < 2 ^ 64 := by
        rw [map_size_range]
        exact lt_of_eq_of_lt (sum_entry_sizes hwf) hsum'
      exact sumOps_exact (by omega) op hop

/-- Eleven entries of the sizes `0, 1, .., 10`; the last of them has gone to slot `0`, behind the
empty entry it has replaced.  Position `46` is byte `1` of the newest entry. -/
theorem lookup_exact_wrapped :
    let es : List (BufferEntry ℕ) := (List.range 11).map fun n => ⟨some n, n⟩
    let r := (init.addEntries es).1.findEntryOffsetForFposRtn 46 99
    r = (some 0, 1) ∧ 46 < (init.addEntries es).1.entriesTotalSize := by
  intro es r
  have hr : r = (some 0, 1) := by decide +kernel
  refine ⟨hr, (lookup_exact (fun e => List.replicate e.size ()) es ?_ ?_ ?_ 46 99).1.1 ?_⟩
  · decide
  · intro e _
    exact List.length_replicate
  · decide
  · rw [show (init.addEntries es).1.findEntryOffsetForFposRtn 46 99 = (some 0, 1) from hr]
    rfl

end CircularBuffer

end Aesd
