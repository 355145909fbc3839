import Mathlib.Data.List.DropRight
import Aesd.Lib.CInt
import Aesd.Lib.SlotRing

/-!
# The circular buffer (`aesd-circular-buffer.c`)

The driver keeps the most recent write commands in an array of ten entries with two indices and
a flag: `inOffs` is the slot of the next command, `outOffs` the slot of the oldest one, and
`full` tells the full buffer from the empty one when the two indices meet.

* `CircularBuffer.init`, `addEntry`, `findEntryOffsetForFpos`, `entriesTotalSize` are the four
  functions of the file, over an arbitrary type `P` of pointers;
* `live b` is the occupied slots in ring order, oldest first;
* `WF` is the invariant, and `addEntry_live` the step lemma: one call of `addEntry` is one push
  on a queue that keeps its last ten elements;
* `fifo_refinement` puts the calls together: after any sequence of them the buffer holds
  exactly the last ten entries, and each call returns the buffer pointer it evicts.
-/

namespace Aesd

open CInt

/-- `AESDCHAR_MAX_WRITE_OPERATIONS_SUPPORTED`. -/
abbrev maxWriteOperationsSupported : ℕ := 10

/-- `struct aesd_buffer_entry`; a null `buffptr` is `none`. -/
structure BufferEntry (P : Type*) where
  buffptr : Option P
  size : ℕ
  deriving DecidableEq, Repr

/-- The all-zero entry. -/
def BufferEntry.null {P : Type*} : BufferEntry P := ⟨none, 0⟩

/-- `struct aesd_circular_buffer`. -/
structure CircularBuffer (P : Type*) where
  entry : Vector (BufferEntry P) maxWriteOperationsSupported
  inOffs : ℕ
  outOffs : ℕ
  full : Bool
  deriving DecidableEq, Repr

namespace CircularBuffer

variable {P : Type*}

/-- `buffer->entry[i]`. -/
def slot (b : CircularBuffer P) (i : ℕ) : BufferEntry P := b.entry[i]?.getD .null

/-- `aesd_circular_buffer_init`. -/
def init : CircularBuffer P := ⟨Vector.replicate _ .null, 0, 0, false⟩

/-- `aesd_circular_buffer_add_entry`: the new buffer and the pointer of the replaced entry. -/
def addEntry (b : CircularBuffer P) (e : BufferEntry P) : CircularBuffer P × Option P :=
  let outOffs := if b.full then (b.outOffs + 1) % maxWriteOperationsSupported else b.outOffs
  let replaced := if b.full then (b.slot b.inOffs).buffptr else none
  let inOffs := (b.inOffs + 1) % maxWriteOperationsSupported
  ({ entry := b.entry.setIfInBounds b.inOffs e
     inOffs := inOffs
     outOffs := outOffs
     full := if inOffs = outOffs then true else b.full }, replaced)

/-- The loop of `aesd_circular_buffer_find_entry_offset_for_fpos`, with `n` entries still to be
checked: the index of the entry found and the byte offset inside it. -/
def findLoop (b : CircularBuffer P) (charOffset : ℕ) : ℕ → ℕ → ℕ → Option (ℕ × ℕ)
  | 0, _, _ => none
  | n + 1, entryIndex, cumulativeLength =>
    let e := b.slot entryIndex
    let next := (entryIndex + 1) % maxWriteOperationsSupported
    -- an entry without a buffer is skipped, whatever its size
    if e.buffptr.isSome then
      let cumulativeLength := sizeAdd cumulativeLength e.size
      if charOffset < cumulativeLength then
        some (entryIndex, sizeSub charOffset (sizeSub cumulativeLength e.size))
      else findLoop b charOffset n next cumulativeLength
    else findLoop b charOffset n next cumulativeLength

/-- `aesd_circular_buffer_find_entry_offset_for_fpos`. -/
def findEntryOffsetForFpos (b : CircularBuffer P) (charOffset : ℕ) : Option (ℕ × ℕ) :=
  findLoop b charOffset maxWriteOperationsSupported b.outOffs 0

/-- `aesd_circular_buffer_entries_total_size`: `AESD_CIRCULAR_BUFFER_FOREACH` visits the slots in
array order. -/
def entriesTotalSize (b : CircularBuffer P) : ℕ :=
  ((List.range maxWriteOperationsSupported).map fun index => (b.slot index).size).foldl sizeAdd 0

/-! ### Ring order -/

/-- The number of occupied slots. -/
def count (b : CircularBuffer P) : ℕ :=
  if b.full then maxWriteOperationsSupported
  else (b.inOffs + maxWriteOperationsSupported - b.outOffs) % maxWriteOperationsSupported

/-- The occupied slots in ring order from `outOffs`: the oldest entry first. -/
def live (b : CircularBuffer P) : List (BufferEntry P) :=
  SlotRing.walk b.entry.toList b.outOffs b.count

/-- The invariant: both indices lie in the array, they meet when the buffer is full, and every
slot behind the occupied region is all zero. -/
structure WF (b : CircularBuffer P) : Prop where
  inOffs_lt : b.inOffs < maxWriteOperationsSupported
  outOffs_lt : b.outOffs < maxWriteOperationsSupported
  meet : b.full = true → b.inOffs = b.outOffs
  dead : ∀ k, b.count ≤ k → k < maxWriteOperationsSupported →
    b.slot ((k + b.outOffs) % maxWriteOperationsSupported) = .null

theorem slot_eq_getElem? (b : CircularBuffer P) (i : ℕ) :
    b.slot i = b.entry.toList[i]?.getD .null := by
  unfold slot; rw [Vector.getElem?_toList]

theorem entry_length (b : CircularBuffer P) :
    b.entry.toList.length = maxWriteOperationsSupported := Vector.length_toList

theorem init_wf : (init : CircularBuffer P).WF where
  inOffs_lt := by simp [init]
  outOffs_lt := by simp [init]
  meet := by simp [init]
  dead := by
    intro k _ hk
    have : k % 10 < 10 := Nat.mod_lt _ (by decide)
    simp [slot, init, maxWriteOperationsSupported, this]

@[simp] theorem init_live : (init : CircularBuffer P).live = [] := by
  simp [live, count, init, maxWriteOperationsSupported]

section Step

variable {b : CircularBuffer P}

theorem count_le (b : CircularBuffer P) : b.count ≤ maxWriteOperationsSupported := by
  unfold count
  split_ifs
  · exact le_rfl
  · exact (Nat.mod_lt _ (by decide)).le

theorem live_length (b : CircularBuffer P) : b.live.length = b.count :=
  SlotRing.walk_length (by rw [entry_length]; exact b.count_le)

theorem count_of_full (h : b.full = true) : b.count = maxWriteOperationsSupported := by
  simp [count, h]

theorem count_lt_of_not_full (h : b.full = false) : b.count < maxWriteOperationsSupported := by
  simp only [count, h]
  exact Nat.mod_lt _ (by decide)

/-- The write index is the slot behind the occupied region. -/
theorem WF.inOffs_eq (h : b.WF) :
    b.inOffs = (b.count + b.outOffs) % maxWriteOperationsSupported := by
  have h1 := h.inOffs_lt
  have h2 := h.outOffs_lt
  have h3 := h.meet
  unfold count
  simp only [maxWriteOperationsSupported] at *
  split_ifs with hf
  · have := h3 hf; omega
  · omega

theorem addEntry_not_full (e : BufferEntry P) (hf : b.full = false) :
    b.addEntry e =
      ({ entry := b.entry.setIfInBounds b.inOffs e
         inOffs := (b.inOffs + 1) % maxWriteOperationsSupported
         outOffs := b.outOffs
         full := decide ((b.inOffs + 1) % maxWriteOperationsSupported = b.outOffs) }, none) := by
  unfold addEntry
  simp only [hf, Bool.false_eq_true, if_false, Bool.if_false_right, Bool.and_true]

theorem addEntry_full (e : BufferEntry P) (h : b.WF) (hf : b.full = true) :
    b.addEntry e =
      ({ entry := b.entry.setIfInBounds b.outOffs e
         inOffs := (b.outOffs + 1) % maxWriteOperationsSupported
         outOffs := (b.outOffs + 1) % maxWriteOperationsSupported
         full := true }, (b.slot b.outOffs).buffptr) := by
  unfold addEntry
  simp only [hf, h.meet hf, if_true]

/-- What one call does to the occupied region of a buffer with room: it grows by one slot. -/
theorem count_addEntry_not_full (e : BufferEntry P) (h : b.WF) (hf : b.full = false) :
    (b.addEntry e).1.count = b.count + 1 := by
  have h1 := h.inOffs_lt
  have h2 := h.outOffs_lt
  rw [addEntry_not_full e hf]
  unfold count
  simp only [maxWriteOperationsSupported, hf, decide_eq_true_eq] at *
  split_ifs with h3 <;> simp_all <;> omega

theorem slot_addEntry (e : BufferEntry P) {j : ℕ} (hj : j < maxWriteOperationsSupported) :
    (b.addEntry e).1.slot j = if b.inOffs = j then e else b.slot j := by
  have hget : (b.addEntry e).1.slot j = ((b.entry.setIfInBounds b.inOffs e)[j]?).getD .null := rfl
  rw [hget, Vector.getElem?_setIfInBounds]
  split_ifs with h1 h2
  · rfl
  · omega
  · rfl

/-- **One call keeps the invariant.** -/
theorem addEntry_wf (e : BufferEntry P) (h : b.WF) : (b.addEntry e).1.WF := by
  have h1 := h.outOffs_lt
  cases hf : b.full with
  | true =>
    have hfull : (b.addEntry e).1.full = true := by rw [addEntry_full e h hf]
    -- both indices move on, and no slot is behind the occupied region
    refine ⟨?_, ?_, fun _ => ?_, fun k hk hlt => ?_⟩
    · rw [addEntry_full e h hf]; exact Nat.mod_lt _ (by decide)
    · rw [addEntry_full e h hf]; exact Nat.mod_lt _ (by decide)
    · rw [addEntry_full e h hf]
    · rw [count_of_full hfull] at hk
      omega
  | false =>
    -- the new entry goes to the first slot behind the occupied region
    have hin := h.inOffs_eq
    have hout : (b.addEntry e).1.outOffs = b.outOffs := by rw [addEntry_not_full e hf]
    refine ⟨?_, ?_, fun hm => ?_, fun k hk hlt => ?_⟩
    · rw [addEntry_not_full e hf]; exact Nat.mod_lt _ (by decide)
    · rw [hout]; exact h1
    · rw [addEntry_not_full e hf] at hm ⊢
      simpa using hm
    · rw [count_addEntry_not_full e h hf] at hk
      rw [hout, slot_addEntry e (Nat.mod_lt _ (by decide)), if_neg]
      · exact h.dead k (by omega) hlt
      · simp only [maxWriteOperationsSupported] at *
        omega

/-- On a buffer with room a call appends to the ring order. -/
theorem live_addEntry_not_full (e : BufferEntry P) (h : b.WF) (hf : b.full = false) :
    (b.addEntry e).1.live = b.live ++ [e] := by
  have hcount := count_lt_of_not_full hf
  have hlist : (b.addEntry e).1.entry.toList =
      b.entry.toList.set ((b.count + b.outOffs) % b.entry.toList.length) e := by
    rw [addEntry_not_full e hf, Vector.toList_setIfInBounds, h.inOffs_eq, entry_length]
  have hout : (b.addEntry e).1.outOffs = b.outOffs := by rw [addEntry_not_full e hf]
  unfold live
  rw [hlist, hout, count_addEntry_not_full e h hf]
  exact SlotRing.walk_set_next _ _ _ _ (by rw [entry_length]; exact hcount)

/-- On a full buffer a call drops the oldest entry and appends the new one. -/
theorem live_addEntry_full (e : BufferEntry P) (h : b.WF) (hf : b.full = true) :
    (b.addEntry e).1.live = b.live.tail ++ [e] := by
  have hlen := b.entry_length
  have hwalk := SlotRing.walk_set_oldest b.entry.toList b.outOffs e
    (by rw [hlen]; exact h.outOffs_lt)
  rw [hlen] at hwalk
  unfold live
  rw [addEntry_full e h hf, count_of_full hf]
  simpa only [count, if_true, Vector.toList_setIfInBounds] using hwalk

/-- **One call is one push** on a queue that keeps its last ten elements. -/
theorem addEntry_live (e : BufferEntry P) (h : b.WF) :
    (b.addEntry e).1.live = (b.live ++ [e]).rtake maxWriteOperationsSupported := by
  have hlen := b.live_length
  cases hf : b.full with
  | true =>
    rw [count_of_full hf] at hlen
    rw [live_addEntry_full e h hf, List.rtake, List.length_append, hlen,
      List.drop_append_of_le_length (by rw [hlen]; simp)]
    simp [List.drop_one]
  | false =>
    have := count_lt_of_not_full hf
    rw [live_addEntry_not_full e h hf, List.rtake, List.length_append, hlen]
    rw [show b.count + [e].length - maxWriteOperationsSupported = 0 by
      simp only [List.length_singleton]; omega, List.drop_zero]

/-- The pointer returned is that of the entry the call evicts, the oldest one. -/
theorem addEntry_replaced (e : BufferEntry P) (h : b.WF) :
    (b.addEntry e).2 =
      if b.full then b.live[0]?.bind BufferEntry.buffptr else none := by
  cases hf : b.full with
  | true =>
    have hslot : b.live[0]? = b.entry.toList[b.outOffs]? := by
      unfold live
      rw [SlotRing.getElem?_walk (by rw [count_of_full hf]; decide)
        (by rw [entry_length]; exact b.count_le), Nat.zero_add, entry_length,
        Nat.mod_eq_of_lt h.outOffs_lt]
    rw [addEntry_full e h hf, if_pos rfl, hslot, slot_eq_getElem?]
    cases b.entry.toList[b.outOffs]? <;> rfl
  | false => rw [addEntry_not_full e hf]; simp

end Step

/-! ### Sequences of calls -/

/-- A sequence of calls: the final buffer, and the pointer each call returns. -/
def addEntries (b : CircularBuffer P) : List (BufferEntry P) → CircularBuffer P × List (Option P)
  | [] => (b, [])
  | e :: es =>
    let r := (b.addEntry e).1.addEntries es
    (r.1, (b.addEntry e).2 :: r.2)

theorem addEntries_append (b : CircularBuffer P) (es fs : List (BufferEntry P)) :
    b.addEntries (es ++ fs) =
      (((b.addEntries es).1.addEntries fs).1,
        (b.addEntries es).2 ++ ((b.addEntries es).1.addEntries fs).2) := by
  induction es generalizing b with
  | nil => rfl
  | cons e es ih => simp only [List.cons_append, addEntries, ih]

theorem addEntries_concat (b : CircularBuffer P) (es : List (BufferEntry P)) (e : BufferEntry P) :
    b.addEntries (es ++ [e]) =
      (((b.addEntries es).1.addEntry e).1,
        (b.addEntries es).2 ++ [((b.addEntries es).1.addEntry e).2]) := by
  rw [addEntries_append]; rfl

theorem addEntries_returns_length (b : CircularBuffer P) (es : List (BufferEntry P)) :
    (b.addEntries es).2.length = es.length := by
  induction es generalizing b with
  | nil => rfl
  | cons e es ih => simp only [addEntries, List.length_cons, ih]

/-- The invariant and the queue after a sequence of calls on the fresh buffer. -/
theorem addEntries_live (es : List (BufferEntry P)) :
    (init.addEntries es).1.WF ∧
      (init.addEntries es).1.live = es.rtake maxWriteOperationsSupported := by
  induction es using List.reverseRecOn with
  | nil => exact ⟨init_wf, by simp [addEntries]⟩
  | append_singleton es e ih =>
    obtain ⟨hwf, hlive⟩ := ih
    rw [addEntries_concat]
    refine ⟨addEntry_wf e hwf, ?_⟩
    rw [addEntry_live e hwf, hlive, SlotRing.rtake_rtake_concat]

theorem count_addEntries (es : List (BufferEntry P)) :
    (init.addEntries es).1.count = min es.length maxWriteOperationsSupported := by
  rw [← live_length, (addEntries_live es).2, List.rtake, List.length_drop]
  omega

theorem full_iff {b : CircularBuffer P} :
    b.full = true ↔ b.count = maxWriteOperationsSupported := by
  constructor
  · exact count_of_full
  · intro hc
    cases hf : b.full with
    | true => rfl
    | false => have := count_lt_of_not_full hf; omega

/-- The pointer returned by the call that adds `e` after the entries `es`. -/
theorem addEntry_replaced_history (es : List (BufferEntry P)) (e : BufferEntry P) :
    ((init.addEntries es).1.addEntry e).2 =
      if maxWriteOperationsSupported ≤ es.length then
        es[es.length - maxWriteOperationsSupported]?.bind BufferEntry.buffptr
      else none := by
  obtain ⟨hwf, hlive⟩ := addEntries_live es
  have hcount := count_addEntries es
  rw [addEntry_replaced e hwf]
  split_ifs with hf hlen hlen
  · rw [hlive, SlotRing.getElem?_rtake, Nat.add_zero]
  · have := full_iff.1 hf
    omega
  · exact absurd (full_iff.2 (by omega)) hf
  · rfl

theorem addEntries_returns (es : List (BufferEntry P)) {k : ℕ} (hk : k < es.length) :
    (init.addEntries es).2[k]? = some
      (if maxWriteOperationsSupported ≤ k then
        es[k - maxWriteOperationsSupported]?.bind BufferEntry.buffptr else none) := by
  induction es using List.reverseRecOn with
  | nil => simp at hk
  | append_singleton es e ih =>
    have hlen := addEntries_returns_length (init : CircularBuffer P) es
    rw [addEntries_concat]
    rcases Nat.lt_or_ge k es.length with hlt | hge
    · rw [List.getElem?_append_left (by rw [hlen]; exact hlt), ih hlt,
        List.getElem?_append_left (by omega)]
    · have hk' : k = es.length := by
        rw [List.length_append, List.length_singleton] at hk; omega
      subst hk'
      rw [List.getElem?_append_right (by rw [hlen]), hlen, Nat.sub_self,
        addEntry_replaced_history es e]
      split_ifs with h10
      · rw [List.getElem?_append_left (by simp only [maxWriteOperationsSupported] at *; omega)]
        rfl
      · rfl

/-- The occupied region, slot by slot. -/
theorem live_eq_map_slot (b : CircularBuffer P) :
    b.live = (List.range b.count).map fun k =>
      b.slot ((k + b.outOffs) % maxWriteOperationsSupported) := by
  apply List.ext_getElem?
  intro k
  rcases Nat.lt_or_ge k b.count with hlt | hge
  · have hmod : (k + b.outOffs) % maxWriteOperationsSupported < b.entry.toList.length := by
      rw [entry_length]; exact Nat.mod_lt _ (by decide)
    unfold live
    rw [SlotRing.getElem?_walk hlt (by rw [entry_length]; exact b.count_le), entry_length,
      List.getElem?_map, List.getElem?_range hlt, Option.map_some, slot_eq_getElem?,
      List.getElem?_eq_getElem hmod, Option.getD_some]
  · rw [List.getElem?_eq_none (by rw [live_length]; exact hge),
      List.getElem?_eq_none (by simpa using hge)]

/-- Every slot that is no slot of the occupied region is all zero. -/
theorem WF.slot_eq_null {b : CircularBuffer P} (h : b.WF) {i : ℕ}
    (hi : i < maxWriteOperationsSupported)
    (hout : ∀ k < b.count, i ≠ (k + b.outOffs) % maxWriteOperationsSupported) :
    b.slot i = .null := by
  have hlt := h.outOffs_lt
  simp only [maxWriteOperationsSupported] at hi hlt hout
  have hi' : i = ((i + 10 - b.outOffs) % 10 + b.outOffs) % 10 := by omega
  rw [hi']
  refine h.dead _ ?_ (Nat.mod_lt _ (by decide))
  by_contra hk
  exact hout _ (by omega) hi'

/-- **The circular buffer refines a bounded FIFO.**  After any sequence of calls on the fresh
buffer the slots read in ring order from `outOffs` are the last ten entries, the flag tells the
full buffer from the empty one, the other slots are untouched, and every call has returned the
pointer it evicted. -/
theorem fifo_refinement (es : List (BufferEntry P)) :
    let b := (init.addEntries es).1
    ((List.range (min es.length 10)).map fun k => b.slot ((k + b.outOffs) % 10)) =
        es.drop (es.length - 10) ∧
      b.inOffs < 10 ∧ b.outOffs < 10 ∧
      (b.full = true ↔ 10 ≤ es.length) ∧
      (b.inOffs = b.outOffs ↔ es.length = 0 ∨ b.full = true) ∧
      (∀ i < 10, (∀ k < min es.length 10, i ≠ (k + b.outOffs) % 10) → b.slot i = .null) ∧
      ∀ k < es.length, (init.addEntries es).2[k]? =
        some (if 10 ≤ k then es[k - 10]?.bind BufferEntry.buffptr else none) := by
  obtain ⟨hwf, hlive⟩ := addEntries_live es
  have hcount := count_addEntries es
  have hin := hwf.inOffs_eq
  have h1 := hwf.inOffs_lt
  have h2 := hwf.outOffs_lt
  have hfull : (init.addEntries es).1.full = true ↔ 10 ≤ es.length := by
    rw [full_iff, hcount]; simp only [maxWriteOperationsSupported]; omega
  refine ⟨?_, h1, h2, hfull, ?_, ?_, fun k hk => addEntries_returns es hk⟩
  · rw [← hcount, ← live_eq_map_slot, hlive]; rfl
  · rw [hfull]
    simp only [maxWriteOperationsSupported] at *
    omega
  · intro i hi hout
    exact hwf.slot_eq_null hi (by rwa [hcount])

end CircularBuffer

end Aesd
