import Aesd.CircularBuffer
import Aesd.Lib.Concat

/-!
# Looking up a position, and the total size

`findEntryOffsetForFpos` walks the ring from `outOffs` with a running sum; `entriesTotalSize` adds
up the array from slot `0`.  Both are functions of the ring order alone: the first is
`Concat.locate` on the sizes of the occupied slots, the second their sum.

Hypotheses, shared by the section: the invariant, every occupied slot holds a buffer, and the
sizes do not wrap when added up.
-/

namespace Aesd

namespace CircularBuffer

open CInt

variable {P : Type*} {b : CircularBuffer P}

/-- The sizes of the occupied slots, oldest first. -/
def sizes (b : CircularBuffer P) : List ℕ := b.live.map BufferEntry.size

theorem sizes_length (b : CircularBuffer P) : b.sizes.length = b.count := by
  rw [sizes, List.length_map, live_length]

/-- Slot `k` of the ring order. -/
def ringSlot (b : CircularBuffer P) (k : ℕ) : BufferEntry P :=
  b.slot ((k + b.outOffs) % maxWriteOperationsSupported)

theorem live_getElem? {k : ℕ} (hk : k < b.count) : b.live[k]? = some (b.ringSlot k) := by
  rw [live_eq_map_slot, List.getElem?_map, List.getElem?_range hk, Option.map_some]; rfl

theorem drop_sizes {k : ℕ} (hk : k < b.count) :
    b.sizes.drop k = (b.ringSlot k).size :: b.sizes.drop (k + 1) := by
  have hlen : k < b.sizes.length := by rw [sizes_length]; exact hk
  have hget : b.sizes[k]? = some (b.ringSlot k).size := by
    rw [sizes, List.getElem?_map, live_getElem? hk]; rfl
  rw [List.getElem?_eq_getElem hlen, Option.some.injEq] at hget
  rw [List.drop_eq_getElem_cons hlen, hget]

theorem sum_take_sizes {k : ℕ} (hk : k < b.count) :
    (b.sizes.take (k + 1)).sum = (b.sizes.take k).sum + (b.ringSlot k).size := by
  have hget : b.sizes[k]? = some (b.ringSlot k).size := by
    rw [sizes, List.getElem?_map, live_getElem? hk]; rfl
  rw [List.take_add_one, hget, List.sum_append]
  simp

theorem sum_take_le (l : List ℕ) (k : ℕ) : (l.take k).sum ≤ l.sum :=
  List.Sublist.sum_le_sum (List.take_sublist _ _) (fun _ _ => Nat.zero_le _)

theorem ring_next (b : CircularBuffer P) (k : ℕ) :
    ((k + b.outOffs) % maxWriteOperationsSupported + 1) % maxWriteOperationsSupported =
      (k + 1 + b.outOffs) % maxWriteOperationsSupported := by
  simp only [maxWriteOperationsSupported]; omega

section Find

variable (hwf : b.WF) (hptr : ∀ e ∈ b.live, e.buffptr.isSome = true)
  (hsum : b.sizes.sum < 2 ^ 64)

include hptr hsum in
/-- One turn of the loop at an occupied slot. -/
theorem findLoop_occupied (off n : ℕ) {k : ℕ} (hk : k < b.count)
    (hoff : (b.sizes.take k).sum ≤ off) :
    b.findLoop off (n + 1) ((k + b.outOffs) % maxWriteOperationsSupported) (b.sizes.take k).sum =
      if off < (b.sizes.take (k + 1)).sum then
        some ((k + b.outOffs) % maxWriteOperationsSupported, off - (b.sizes.take k).sum)
      else b.findLoop off n ((k + 1 + b.outOffs) % maxWriteOperationsSupported)
        (b.sizes.take (k + 1)).sum := by
  have htake := sum_take_sizes hk
  have hle := sum_take_le b.sizes (k + 1)
  have hsome : (b.ringSlot k).buffptr.isSome = true :=
    hptr _ (List.mem_of_getElem? (live_getElem? hk))
  have hadd : sizeAdd (b.sizes.take k).sum (b.ringSlot k).size = (b.sizes.take (k + 1)).sum := by
    rw [htake]; exact sizeAdd_eq (by omega)
  have hsub : sizeSub (b.sizes.take (k + 1)).sum (b.ringSlot k).size = (b.sizes.take k).sum := by
    rw [sizeSub_eq (by omega) (by omega), htake, Nat.add_sub_cancel]
  rw [findLoop]
  change (if (b.ringSlot k).buffptr.isSome = true then _ else _) = _
  rw [if_pos hsome, ring_next]
  simp only [show b.slot ((k + b.outOffs) % maxWriteOperationsSupported) = b.ringSlot k from rfl,
    hadd, hsub]
  split_ifs with hfound
  · rw [sizeSub_eq hoff (by omega)]
  · rfl

include hwf in
/-- One turn of the loop at an all-zero slot. -/
theorem findLoop_dead (off n c : ℕ) {k : ℕ} (hk : b.count ≤ k)
    (hlt : k < maxWriteOperationsSupported) :
    b.findLoop off (n + 1) ((k + b.outOffs) % maxWriteOperationsSupported) c =
      b.findLoop off n ((k + 1 + b.outOffs) % maxWriteOperationsSupported) c := by
  rw [findLoop, hwf.dead k hk hlt, ring_next]
  rfl

include hwf hptr hsum

/-- The loop, entered at ring position `k` with the sizes of the `k` older entries summed up. -/
theorem findLoop_eq (off : ℕ) (n k : ℕ) (hk : k + n = maxWriteOperationsSupported)
    (hoff : (b.sizes.take k).sum ≤ off) :
    b.findLoop off n ((k + b.outOffs) % maxWriteOperationsSupported) (b.sizes.take k).sum =
      (Concat.locate (b.sizes.drop k) (off - (b.sizes.take k).sum)).map fun p =>
        ((k + p.1 + b.outOffs) % maxWriteOperationsSupported, p.2) := by
  induction n generalizing k with
  | zero =>
    have hlen : b.sizes.length ≤ k := by rw [sizes_length]; have := b.count_le; omega
    rw [List.drop_eq_nil_of_le hlen]
    rfl
  | succ n ih =>
    rcases Nat.lt_or_ge k b.count with hlt | hge
    · have htake := sum_take_sizes hlt
      rw [findLoop_occupied hptr hsum off n hlt hoff, drop_sizes hlt]
      split_ifs with hfound
      · rw [Concat.locate_cons_lt _ (by omega)]
        rfl
      · rw [ih (k + 1) (by omega) (by omega), Concat.locate_cons_ge _ (by omega), htake,
          Option.map_map, Nat.sub_sub]
        congr 1
        funext p
        simp only [Function.comp_apply, Nat.add_assoc, Nat.add_comm 1]
    · -- nothing is found behind the occupied region, and the sum stays
      have hlen : b.sizes.length ≤ k := by rw [sizes_length]; exact hge
      have htake : b.sizes.take (k + 1) = b.sizes.take k := by
        rw [List.take_of_length_le hlen, List.take_of_length_le (by omega)]
      rw [findLoop_dead hwf off n _ hge (by omega), ← htake, ih (k + 1) (by omega)
        (by rw [htake]; exact hoff), List.drop_eq_nil_of_le hlen, List.drop_eq_nil_of_le (by omega)]
      rfl

/-- **Lookup by file position** is the position in the concatenation, oldest entry first. -/
theorem findEntryOffsetForFpos_eq (off : ℕ) :
    b.findEntryOffsetForFpos off = (Concat.locate b.sizes off).map fun p =>
      ((p.1 + b.outOffs) % maxWriteOperationsSupported, p.2) := by
  have h := findLoop_eq hwf hptr hsum off maxWriteOperationsSupported 0 rfl (by simp)
  have hmod : (0 + b.outOffs) % maxWriteOperationsSupported = b.outOffs := by
    rw [Nat.zero_add]; exact Nat.mod_eq_of_lt hwf.outOffs_lt
  rw [hmod] at h
  simpa [findEntryOffsetForFpos] using h

end Find

/-- The array, rotated to ring order, is the occupied region followed by all-zero slots. -/
theorem rotate_entry (hwf : b.WF) :
    b.entry.toList.rotate b.outOffs =
      b.live ++ List.replicate (maxWriteOperationsSupported - b.count) .null := by
  have hle := b.count_le
  rw [← List.take_append_drop b.count (b.entry.toList.rotate b.outOffs)]
  congr 1
  apply List.ext_getElem?
  intro i
  rw [List.getElem?_drop, List.getElem?_replicate]
  split_ifs with hi
  · have hlt : b.count + i < b.entry.toList.length := by rw [entry_length]; omega
    have hmod :
        (b.count + i + b.outOffs) % maxWriteOperationsSupported < b.entry.toList.length := by
      rw [entry_length]; exact Nat.mod_lt _ (by decide)
    have hnull := hwf.dead (b.count + i) (by omega) (by omega)
    rw [slot_eq_getElem?, List.getElem?_eq_getElem hmod, Option.getD_some] at hnull
    rw [List.getElem?_rotate hlt, entry_length, List.getElem?_eq_getElem hmod, hnull]
  · rw [List.getElem?_eq_none (by rw [List.length_rotate, entry_length]; omega)]

/-- The array and the occupied region hold the same buffers, up to their order. -/
theorem buffptrs_perm (hwf : b.WF) :
    (b.entry.toList.filterMap BufferEntry.buffptr).Perm
      (b.live.filterMap BufferEntry.buffptr) := by
  have hperm := (b.entry.toList.rotate_perm b.outOffs).filterMap BufferEntry.buffptr
  have hnull : (List.replicate (maxWriteOperationsSupported - b.count)
      (BufferEntry.null : BufferEntry P)).filterMap BufferEntry.buffptr = [] := by
    rw [List.filterMap_replicate_of_none rfl]
  rw [rotate_entry hwf, List.filterMap_append, hnull, List.append_nil] at hperm
  exact hperm.symm

theorem map_slot_range (b : CircularBuffer P) :
    (List.range maxWriteOperationsSupported).map b.slot = b.entry.toList := by
  apply List.ext_getElem?
  intro i
  rw [List.getElem?_map]
  rcases Nat.lt_or_ge i maxWriteOperationsSupported with hi | hi
  · rw [List.getElem?_range hi, Option.map_some, slot_eq_getElem?,
      List.getElem?_eq_getElem (by rw [entry_length]; exact hi), Option.getD_some]
  · rw [List.getElem?_eq_none (by simpa using hi),
      List.getElem?_eq_none (by rw [entry_length]; exact hi)]
    rfl

theorem map_size_range (b : CircularBuffer P) :
    (List.range maxWriteOperationsSupported).map (fun i => (b.slot i).size) =
      b.entry.toList.map BufferEntry.size := by
  rw [← map_slot_range, List.map_map]; rfl

/-- The array and the occupied region have the same sizes, up to their order and zeros. -/
theorem sum_entry_sizes (hwf : b.WF) : (b.entry.toList.map BufferEntry.size).sum = b.sizes.sum := by
  rw [← ((b.entry.toList.rotate_perm b.outOffs).map BufferEntry.size).sum_eq, rotate_entry hwf]
  simp [sizes, BufferEntry.null]

/-- **The total size** is the sum over the occupied slots, in whatever order they are added. -/
theorem entriesTotalSize_eq (hwf : b.WF) (hsum : b.sizes.sum < 2 ^ 64) :
    b.entriesTotalSize = b.sizes.sum := by
  have hperm := sum_entry_sizes hwf
  -- no partial sum wraps, since none is above the last
  unfold entriesTotalSize
  rw [map_size_range, foldl_sizeAdd (by rw [hperm]; omega), hperm, Nat.zero_add]

end CircularBuffer

end Aesd
