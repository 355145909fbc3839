import Aesd.Device.Conservation

/-!
# Reading, and seeking to a command

A read finds its position in ring order, so on a represented device it is a read of the stored
commands, oldest first: `aesdReadBody_eq` says what one call returns, `aesdReadBody_content` that
repeated calls walk through the concatenation.

`AESDCHAR_IOCSEEKTO` looks its command up in array order.  `slotOrder n ls` is the array order of
the stored commands after `n` commits, written for their lengths `ls`.  The number of a command
in array order is its number in stored order as long as the oldest command is in slot `0`.

* `aesdAdjustFileOffsetBody_eq`: what a seek request does, in terms of `slotOrder`;
* `seekto_meets_iff`: exactly when a request does what the interface promises.
-/

namespace Aesd

open CInt

section Read

variable {K : Kernel} {d : Dev} {a : Log}

/-- The slot of command `k` describes its block. -/
theorem RepresentsWith.ringSlot {bs : List (ℕ × List UInt8)} (h : RepresentsWith K d a bs) {k : ℕ}
    (hk : k < d.circularBuffer.count) :
    ∃ b ∈ bs, d.circularBuffer.ringSlot k = entryOf b ∧ a.stored[k]? = some b.2 := by
  have hslot := CircularBuffer.live_getElem? hk
  rw [h.live, List.getElem?_map] at hslot
  obtain ⟨b, hb, hentry⟩ := Option.map_eq_some_iff.1 hslot
  refine ⟨b, List.mem_of_getElem? hb, hentry.symm, ?_⟩
  rw [← h.stored, List.getElem?_map, hb]
  rfl

/-- The bytes between the position and the end of the entry, as far as the caller has room. -/
theorem RepresentsWith.readEntry {bs : List (ℕ × List UInt8)} (h : RepresentsWith K d a bs)
    {b : ℕ × List UInt8} (hb : b ∈ bs) {j : ℕ} (hj : j < b.2.length) (count : ℕ) :
    let availableBytes := sizeSub b.2.length j
    let bytesToRead := if count > availableBytes then availableBytes else count
    bytesToRead = ((b.2.drop j).take count).length ∧
      d.heap.readPtr (some b.1) j bytesToRead = (d.heap, (b.2.drop j).take count) := by
  have hle := h.length_le hb
  have hlim := K.kmallocMaxSize_lt
  have hlen : ((b.2.drop j).take count).length = min count (b.2.length - j) := by
    rw [List.length_take, List.length_drop]
  have hmin : (if count > b.2.length - j then b.2.length - j else count) =
      min count (b.2.length - j) := by split_ifs <;> omega
  have hread : d.heap.read b.1 j (min count (b.2.length - j)) = _ := h.read hb (by omega)
  have hdata : (b.2.drop j).take (min count (b.2.length - j)) = (b.2.drop j).take count := by
    rw [← List.length_drop, ← List.take_take, List.take_length]
  dsimp only
  rw [sizeSub_eq hj.le (by omega), hmin]
  exact ⟨hlen.symm, by rw [BlockLedger.readPtr, hread, hdata]⟩

/-- A read on a represented device: it stays inside the command that contains the position. -/
theorem aesdReadBody_eq (h : Represents K d a) (fPos : ℤ) (count : ℕ) :
    aesdReadBody d fPos count false =
      match Concat.locate (a.stored.map List.length) (toSize fPos) with
      | none => ⟨d, 0, fPos, []⟩
      | some (k, j) =>
        let data := ((a.stored[k]?.getD []).drop j).take count
        ⟨d, data.length, longAdd fPos data.length, data⟩ := by
  have hsmall := h.stored_small
  have hfind := CircularBuffer.findEntryOffsetForFpos_eq h.wf h.live_ptr
    (by rw [h.sizes]; omega) (toSize fPos)
  rw [h.sizes] at hfind
  unfold aesdReadBody
  rw [hfind]
  cases hloc : Concat.locate (a.stored.map List.length) (toSize fPos) with
  | none => rfl
  | some p =>
    obtain ⟨k, j⟩ := p
    obtain ⟨s, hs, hj, -⟩ := (Concat.locate_eq_some_iff _ _ _ _).1 hloc
    have hk : k < d.circularBuffer.count := by
      rw [h.count]
      simpa using (List.getElem?_eq_some_iff.1 hs).1
    obtain ⟨bs, h⟩ := h
    obtain ⟨b, hb, hentry, hcmd⟩ := h.ringSlot hk
    rw [List.getElem?_map, hcmd, Option.map_some, Option.some.injEq] at hs
    obtain ⟨hlen, hread⟩ := h.readEntry hb (by omega : j < b.2.length) count
    have hsmall : ((b.2.drop j).take count).length < 2 ^ 63 := by
      have hle := h.length_le hb
      have hlim := K.kmallocMaxSize_lt
      rw [List.length_take, List.length_drop]
      omega
    have hslot : d.circularBuffer.slot
        ((k + d.circularBuffer.outOffs) % maxWriteOperationsSupported) = entryOf b := hentry
    simp only [Option.map_some, hslot, hcmd, Option.getD_some, entryOf]
    simp only [hread, Bool.false_eq_true, if_false]
    rw [hlen, toLong_eq hsmall]

/-- Reading leaves the device alone, also if the copy fails. -/
theorem aesdReadBody_dev (h : Represents K d a) (fPos : ℤ) (count : ℕ) (fault : Bool) :
    (aesdReadBody d fPos count fault).dev = d := by
  have hdev : (aesdReadBody d fPos count fault).dev = (aesdReadBody d fPos count false).dev := by
    unfold aesdReadBody
    cases d.circularBuffer.findEntryOffsetForFpos (toSize fPos) with
    | none => rfl
    | some p => cases fault <;> rfl
  rw [hdev, aesdReadBody_eq h]
  cases Concat.locate (a.stored.map List.length) (toSize fPos) <;> rfl

/-- Behind the end nothing is read. -/
theorem aesdReadBody_end (h : Represents K d a) {pos : ℕ} (hpos : pos < 2 ^ 63)
    (hend : a.stored.flatten.length ≤ pos) (count : ℕ) :
    aesdReadBody d pos count false = ⟨d, 0, pos, []⟩ := by
  rw [List.length_flatten] at hend
  rw [aesdReadBody_eq h, toSize_eq (by omega), (Concat.locate_eq_none _ _).2 hend]

/-- In front of the end a call returns bytes of one stored command: those of command `k` from its
byte `j` on, as far as the caller has room. -/
theorem aesdReadBody_piece (h : Represents K d a) {pos : ℕ} (hin : pos < a.stored.flatten.length)
    (count : ℕ) :
    ∃ data, data = (a.stored.flatten.drop pos).take data.length ∧ data.length ≤ count ∧
      pos + data.length ≤ a.stored.flatten.length ∧ (0 < count → data ≠ []) ∧
      (∃ k j c, a.stored[k]? = some c ∧ ((a.stored.take k).map List.length).sum + j = pos ∧
        j + data.length ≤ c.length ∧ data = (c.drop j).take data.length) ∧
      aesdReadBody d pos count false =
        ⟨d, data.length, (pos + data.length : ℕ), data⟩ := by
  have hsmall := h.stored_small
  have hsum : a.stored.flatten.length = (a.stored.map List.length).sum := List.length_flatten
  obtain ⟨⟨k, j⟩, hloc⟩ :=
    Option.isSome_iff_exists.1 ((Concat.locate_isSome (a.stored.map List.length) pos).2 (by omega))
  obtain ⟨s, hs, hj, hoff⟩ := (Concat.locate_eq_some_iff _ _ _ _).1 hloc
  rw [List.getElem?_map] at hs
  obtain ⟨c, hc, rfl⟩ := Option.map_eq_some_iff.1 hs
  have hdrop := Concat.drop_flatten_of_locate a.stored hc hloc
  have hlen : ((c.drop j).take count).length = min count (c.length - j) := by
    rw [List.length_take, List.length_drop]
  have hself : (c.drop j).take ((c.drop j).take count).length = (c.drop j).take count := by
    rw [List.length_take, ← List.take_take, List.take_length]
  have hrest : c.length - j ≤ a.stored.flatten.length - pos := by
    rw [← List.length_drop, ← List.length_drop, hdrop, List.length_append]
    exact Nat.le_add_right _ _
  refine ⟨(c.drop j).take count, ?_, by omega, by omega, fun hcount => ?_,
    ⟨k, j, c, hc, by rw [List.map_take]; exact hoff, by omega, hself.symm⟩, ?_⟩
  · rw [hdrop, List.take_append_of_le_length (List.length_take_le' _ _), hself]
  · exact List.ne_nil_of_length_pos (by omega)
  · rw [aesdReadBody_eq h, toSize_eq (by omega), hloc]
    simp only [hc, Option.getD_some]
    rw [longAdd_eq (by omega) (by omega)]
    norm_cast

/-- One call returns the next `n` bytes of the concatenation and advances by `n`; it returns
nothing only at the end. -/
theorem aesdReadBody_content (h : Represents K d a) {pos count : ℕ} (hpos : pos < 2 ^ 63)
    (hcount : 0 < count) :
    ∃ n, n ≤ count ∧ n ≤ (a.stored.flatten.drop pos).length ∧
      (n = 0 ↔ a.stored.flatten.length ≤ pos) ∧
      aesdReadBody d pos count false =
        ⟨d, n, (pos + n : ℕ), (a.stored.flatten.drop pos).take n⟩ := by
  rcases Nat.lt_or_ge pos a.stored.flatten.length with hin | hend
  · obtain ⟨data, hdata, hle, hfit, hne, -, hread⟩ := aesdReadBody_piece h hin count
    have hpos : 0 < data.length := List.length_pos_iff.2 (hne hcount)
    refine ⟨data.length, hle, by rw [List.length_drop]; omega, by omega, ?_⟩
    rw [← hdata]
    exact hread
  · exact ⟨0, Nat.zero_le _, Nat.zero_le _, iff_of_true rfl hend,
      by rw [aesdReadBody_end h hpos hend]; simp⟩

end Read

/-! ### Array order -/

/-- The stored commands, or their lengths, in the order of the array after `n` commits: command
number `n` goes to slot `n % 10`. -/
def slotOrder {α : Type*} (n : ℕ) (l : List α) : List α :=
  l.rotate (l.length - n % maxWriteOperationsSupported)

/-- As long as the ring has never wrapped, array order is stored order. -/
theorem slotOrder_of_lt {α : Type*} {n : ℕ} {l : List α} (hl : l.length = n)
    (hn : n < maxWriteOperationsSupported) : slotOrder n l = l := by
  unfold slotOrder
  rw [Nat.mod_eq_of_lt hn, hl, Nat.sub_self, List.rotate_zero]

section Slots

variable {K : Kernel} {d : Dev} {a : Log}

theorem Represents.ringSlot_size (h : Represents K d a) {k : ℕ}
    (hk : k < maxWriteOperationsSupported) :
    (d.circularBuffer.ringSlot k).size = (a.stored.map List.length)[k]?.getD 0 := by
  rw [← h.sizes, CircularBuffer.sizes, List.getElem?_map]
  rcases Nat.lt_or_ge k d.circularBuffer.count with hlt | hge
  · rw [CircularBuffer.live_getElem? hlt]
    rfl
  · rw [List.getElem?_eq_none (by rw [CircularBuffer.live_length]; exact hge)]
    exact congrArg BufferEntry.size (h.wf.dead k hge hk)

/-- The sizes in the array are the lengths of the stored commands in array order, and zeros. -/
theorem Represents.slot_size (h : Represents K d a) {i : ℕ} (hi : i < maxWriteOperationsSupported) :
    (d.circularBuffer.slot i).size =
      (slotOrder a.committed.length (a.stored.map List.length))[i]?.getD 0 := by
  have hout := h.outOffs
  have hcount := h.count
  have hlen := a.stored_length
  have hlt := h.wf.outOffs_lt
  cases hf : d.circularBuffer.full with
  | true =>
    -- slot `i` is slot `i - outOffs` of the ring
    rw [CircularBuffer.count_of_full hf] at hcount
    rw [hf, if_pos rfl] at hout
    have hmod : (i + (maxWriteOperationsSupported - a.committed.length %
        maxWriteOperationsSupported)) % maxWriteOperationsSupported + d.circularBuffer.outOffs ≡
        i [MOD maxWriteOperationsSupported] := by
      rw [hout] at hlt ⊢
      unfold Nat.ModEq maxWriteOperationsSupported at *
      omega
    have hslot := h.ringSlot_size (k := (i + (maxWriteOperationsSupported - a.committed.length %
      maxWriteOperationsSupported)) % maxWriteOperationsSupported) (Nat.mod_lt _ (by decide))
    rw [CircularBuffer.ringSlot, hmod, Nat.mod_eq_of_lt hi] at hslot
    rw [hslot, slotOrder, List.getElem?_rotate (by simpa [← hcount] using hi), List.length_map,
      ← hcount]
  | false =>
    have hroom := CircularBuffer.count_lt_of_not_full hf
    rw [hcount, hlen] at hroom
    have hslot := h.ringSlot_size hi
    rw [CircularBuffer.ringSlot, hout, hf, if_neg (by simp), Nat.add_zero,
      Nat.mod_eq_of_lt hi] at hslot
    rw [hslot, slotOrder_of_lt (by rw [List.length_map]; omega) (by omega)]

theorem slotOrder_length {α : Type*} (n : ℕ) (l : List α) : (slotOrder n l).length = l.length :=
  List.length_rotate ..

theorem slotOrder_sum (n : ℕ) (l : List ℕ) : (slotOrder n l).sum = l.sum :=
  (l.rotate_perm _).sum_eq

theorem map_getD_range {l : List ℕ} {c : ℕ} (hc : c ≤ l.length) :
    (List.range c).map (fun i => l[i]?.getD 0) = l.take c := by
  apply List.ext_getElem?
  intro i
  rw [List.getElem?_map, List.getElem?_take]
  split_ifs with hi
  · rw [List.getElem?_range hi, Option.map_some, List.getElem?_eq_getElem (by omega)]
    rfl
  · rw [List.getElem?_eq_none (by simpa using hi), Option.map_none]

/-- A seek request is served in array order. -/
theorem aesdAdjustFileOffsetBody_eq (h : Represents K d a) (fPos : ℤ)
    (writeCmd writeCmdOffset : UInt32) :
    let ps := slotOrder a.committed.length (a.stored.map List.length)
    aesdAdjustFileOffsetBody d fPos writeCmd writeCmdOffset =
      if writeCmdOffset.toNat < ps[writeCmd.toNat]?.getD 0 then
        (0, (((ps.take writeCmd.toNat).sum + writeCmdOffset.toNat : ℕ) : ℤ))
      else (-EINVAL, fPos) := by
  intro ps
  have hsmall : ps.sum < 2 ^ 63 := by rw [slotOrder_sum]; exact h.stored_small
  have hlen : ps.length = a.stored.length := by rw [slotOrder_length, List.length_map]
  have hten := a.stored_length
  have hslot : ∀ i < maxWriteOperationsSupported,
      (d.circularBuffer.slot i).size = ps[i]?.getD 0 := fun i hi => h.slot_size hi
  unfold aesdAdjustFileOffsetBody
  rcases Nat.lt_or_ge writeCmdOffset.toNat (ps[writeCmd.toNat]?.getD 0) with hin | hout
  · have hc : writeCmd.toNat < ps.length := by
      by_contra hge
      rw [List.getElem?_eq_none (by omega)] at hin
      simp at hin
    have hc10 : writeCmd.toNat < maxWriteOperationsSupported := by omega
    have hmap : (List.range writeCmd.toNat).map (fun i => (d.circularBuffer.slot i).size) =
        ps.take writeCmd.toNat := by
      rw [← map_getD_range hc.le]
      refine List.map_congr_left fun i hi => hslot i ?_
      have := List.mem_range.1 hi
      omega
    have hsum : (ps.take writeCmd.toNat).sum + writeCmdOffset.toNat < ps.sum := by
      have hle := CircularBuffer.sum_take_le ps (writeCmd.toNat + 1)
      rw [List.take_add_one, List.sum_append] at hle
      rw [List.getElem?_eq_getElem hc] at hin hle
      simp only [Option.getD_some, Option.toList_some, List.sum_singleton] at hin hle
      omega
    have hfold := foldl_longAdd (l := ps.take writeCmd.toNat) (a := 0) (by omega)
    rw [if_neg (by rw [hslot _ hc10]; omega), if_pos hin, hmap]
    rw [Nat.cast_zero, Nat.zero_add] at hfold
    rw [hfold]
    dsimp only
    rw [longAdd_eq (by omega) (by omega)]
    norm_cast
  · rw [if_neg (by omega : ¬ writeCmdOffset.toNat < ps[writeCmd.toNat]?.getD 0), if_pos ?_]
    rcases Nat.lt_or_ge writeCmd.toNat maxWriteOperationsSupported with hlt | hge
    · rw [hslot _ hlt]; omega
    · exact Or.inl hge

end Slots

theorem aesdUnlockedIoctl_seekto (d : Dev) (fPos : ℤ) (s : Seekto) :
    aesdUnlockedIoctl d true fPos aesdcharIocseekto (some s) =
      aesdAdjustFileOffsetBody d fPos s.writeCmd s.writeCmdOffset := by
  unfold aesdUnlockedIoctl
  rw [if_neg (by rw [aesdcharIocseekto_type, aesdcharIocseekto_nr]; simp), if_pos rfl]
  rfl

/-- The request names a slot of the array, and a byte of the command in it. -/
def Seekto.Names (p : Seekto) (d : Dev) : Prop :=
  p.writeCmd.toNat < maxWriteOperationsSupported ∧
    p.writeCmdOffset.toNat < (d.circularBuffer.slot p.writeCmd.toNat).size

instance (p : Seekto) (d : Dev) : Decidable (p.Names d) := inferInstanceAs (Decidable (_ ∧ _))

theorem aesdAdjustFileOffsetBody_fst (d : Dev) (pos : ℤ) (p : Seekto) :
    (aesdAdjustFileOffsetBody d pos p.writeCmd p.writeCmdOffset).1 =
      if p.Names d then 0 else -EINVAL := by
  unfold aesdAdjustFileOffsetBody
  by_cases hp : p.Names d
  · rw [if_neg (by unfold Seekto.Names at hp; omega), if_pos hp]
  · rw [if_pos (by unfold Seekto.Names at hp; omega), if_neg hp]

/-! ### What the interface promises -/

/-- The request names a stored command and a byte of it. -/
def Seekto.InRange (s : Seekto) (stored : List (List UInt8)) : Prop :=
  ∃ h : s.writeCmd.toNat < stored.length, s.writeCmdOffset.toNat < stored[s.writeCmd.toNat].length

/-- A request does what `aesd_ioctl.h` says: `write_cmd` is the zero-referenced command to seek
into, `write_cmd_offset` the zero-referenced offset within it.  The next read starts there. -/
structure SeekMeets (d : Dev) (fPos : ℤ) (s : Seekto) : Prop where
  success : (aesdUnlockedIoctl d true fPos aesdcharIocseekto (some s)).1 = 0 ↔
    s.InRange d.storedCommands
  position : s.InRange d.storedCommands →
    (aesdUnlockedIoctl d true fPos aesdcharIocseekto (some s)).2 =
      (((d.storedCommands.take s.writeCmd.toNat).map List.length).sum +
        s.writeCmdOffset.toNat : ℕ)
  read : s.InRange d.storedCommands → ∀ count : ℕ,
    (aesdRead d true (aesdUnlockedIoctl d true fPos aesdcharIocseekto (some s)).2 count false).data =
      ((d.storedCommands[s.writeCmd.toNat]?.getD []).drop s.writeCmdOffset.toNat).take count
  reject : ¬ s.InRange d.storedCommands →
    aesdUnlockedIoctl d true fPos aesdcharIocseekto (some s) = (-EINVAL, fPos)

/-- Command `c` at offset `o` is the same place in two orders of the commands, given by their
lengths: both have a byte there or neither has, and if so, as many bytes come before it. -/
structure SamePlace (ps ls : List ℕ) (c o : ℕ) : Prop where
  inside : o < ps[c]?.getD 0 ↔ o < ls[c]?.getD 0
  before : o < ps[c]?.getD 0 → (ps.take c).sum = (ls.take c).sum

theorem Seekto.inRange_iff (s : Seekto) (stored : List (List UInt8)) :
    s.InRange stored ↔
      s.writeCmdOffset.toNat < (stored.map List.length)[s.writeCmd.toNat]?.getD 0 := by
  unfold Seekto.InRange
  rw [List.getElem?_map]
  rcases Nat.lt_or_ge s.writeCmd.toNat stored.length with h | h
  · rw [List.getElem?_eq_getElem h]
    exact ⟨fun ⟨_, hlt⟩ => hlt, fun hlt => ⟨h, hlt⟩⟩
  · rw [List.getElem?_eq_none h]
    exact ⟨fun ⟨hlt, _⟩ => absurd hlt (by omega), fun hlt => absurd hlt (by simp)⟩

section Meets

variable {K : Kernel} {d : Dev} {a : Log}

/-- One request, on a state that stands for a log. -/
theorem Represents.seekMeets_iff (h : Represents K d a) (fPos : ℤ) (s : Seekto) :
    SeekMeets d fPos s ↔
      SamePlace (slotOrder a.committed.length (d.storedCommands.map List.length))
        (d.storedCommands.map List.length) s.writeCmd.toNat s.writeCmdOffset.toNat := by
  have hio := aesdUnlockedIoctl_seekto d fPos s
  have hsmall := h.stored_small
  rw [aesdAdjustFileOffsetBody_eq h, ← h.storedCommands] at hio
  set ls := d.storedCommands.map List.length with hls
  set ps := slotOrder a.committed.length ls with hps
  have hrange := s.inRange_iff d.storedCommands
  rw [← hls] at hrange
  have hcast : ∀ c, ((d.storedCommands.take c).map List.length).sum = (ls.take c).sum := by
    intro c; rw [hls, List.map_take]
  constructor
  · intro hm
    have hs := hm.success
    rw [hio, hrange] at hs
    constructor
    · rw [← hs]
      split_ifs with hin <;> simp [hin, EINVAL]
    · intro hin
      have hp := hm.position (hrange.2 (hs.1 (by rw [if_pos hin])))
      rw [hio, if_pos hin, hcast] at hp
      simp only at hp
      omega
  · rintro ⟨hinside, hbefore⟩
    have hsucc : s.InRange d.storedCommands →
        aesdUnlockedIoctl d true fPos aesdcharIocseekto (some s) =
          (0, (((ls.take s.writeCmd.toNat).sum + s.writeCmdOffset.toNat : ℕ) : ℤ)) := by
      intro hr
      have hin := hinside.2 (hrange.1 hr)
      rw [hio, if_pos hin, hbefore hin]
    have hfail : ¬ s.InRange d.storedCommands →
        aesdUnlockedIoctl d true fPos aesdcharIocseekto (some s) = (-EINVAL, fPos) := by
      intro hr
      rw [hio, if_neg fun hin => hr (hrange.2 (hinside.1 hin))]
    refine ⟨⟨fun h0 => ?_, fun hr => by rw [hsucc hr]⟩, fun hr => by rw [hsucc hr, hcast],
      fun hr count => ?_, hfail⟩
    · by_contra hr
      rw [hfail hr] at h0
      simp [EINVAL] at h0
    · obtain ⟨hc, ho⟩ := hr
      have hloc : Concat.locate (a.stored.map List.length)
          ((ls.take s.writeCmd.toNat).sum + s.writeCmdOffset.toNat) =
            some (s.writeCmd.toNat, s.writeCmdOffset.toNat) := by
        rw [← h.storedCommands, Concat.locate_eq_some_iff]
        exact ⟨_, by rw [List.getElem?_map, List.getElem?_eq_getElem hc]; rfl, ho, rfl⟩
      have hlt : (ls.take s.writeCmd.toNat).sum + s.writeCmdOffset.toNat <
          (a.stored.map List.length).sum := by
        rw [← Concat.locate_isSome, hloc]; rfl
      rw [hsucc ⟨hc, ho⟩]
      change (aesdReadBody d _ count false).data = _
      rw [aesdReadBody_eq h, toSize_eq (by omega), hloc, h.storedCommands]

/-- Two lists of lengths below `2 ^ 32` in which every place is the same are equal. -/
theorem eq_of_samePlace {ps ls : List ℕ} (hlen : ps.length = ls.length)
    (hsmall : ∀ n ∈ ls, n < 2 ^ 32) (hperm : ∀ n ∈ ps, n ∈ ls)
    (h10 : ls.length ≤ maxWriteOperationsSupported)
    (h : ∀ c o : UInt32, SamePlace ps ls c.toNat o.toNat) : ps = ls := by
  refine List.ext_getElem hlen fun c hp hl => ?_
  have hc : (UInt32.ofNat c).toNat = c := by
    rw [UInt32.toNat_ofNat']
    exact Nat.mod_eq_of_lt (by simp only [maxWriteOperationsSupported] at h10; omega)
  have hps := hsmall _ (hperm _ (List.getElem_mem hp))
  have hls := hsmall _ (List.getElem_mem hl)
  -- the offsets inside a command tell its length
  have side : ∀ o < 2 ^ 32, o < ps[c] ↔ o < ls[c] := by
    intro o ho
    have hs := (h (UInt32.ofNat c) (UInt32.ofNat o)).inside
    rw [hc, UInt32.toNat_ofNat', Nat.mod_eq_of_lt ho, List.getElem?_eq_getElem hp,
      List.getElem?_eq_getElem hl] at hs
    exact hs
  have h1 := side ps[c] hps
  have h2 := side ls[c] hls
  omega

end Meets

/-- **When seeking addresses commands in stored order.**  After `n` commits a request does what
the interface promises exactly if its place is the same in array order and in stored order; all
requests do exactly if the two orders have the same lengths, as they have up to ten commits. -/
theorem seekto_meets_iff (K : Kernel) (ws : List WriteCall) :
    let d := (aesdWrites K aesdInitModule ws).1
    let n := (commits (aesdWriteSteps K aesdInitModule ws)).length
    let ls := d.storedCommands.map List.length
    (∀ fPos s, SeekMeets d fPos s ↔
      SamePlace (slotOrder n ls) ls s.writeCmd.toNat s.writeCmdOffset.toNat) ∧
    ((∀ fPos s, SeekMeets d fPos s) ↔ slotOrder n ls = ls) ∧
    (n ≤ 10 → slotOrder n ls = ls) := by
  intro d n ls
  obtain ⟨a, h, hc, -, -⟩ := steps_log (init_represents K) ws
  rw [show (RecordLog.empty newline).committed = [] from rfl, List.nil_append] at hc
  have hn : a.committed.length = n := by rw [hc]
  have hls : ls = a.stored.map List.length := by rw [← h.storedCommands]
  have hlen : ls.length = min n 10 := by rw [hls, List.length_map, a.stored_length, hn]
  have hone := fun fPos s => h.seekMeets_iff fPos s
  rw [hn] at hone
  refine ⟨hone, ⟨fun hall => ?_, fun heq fPos s => ?_⟩, fun hshort => ?_⟩
  · refine eq_of_samePlace (slotOrder_length _ _) ?_ (fun m hm => List.mem_rotate.1 hm)
      (by rw [hlen]; exact Nat.min_le_right _ _) fun c o => (hone 0 ⟨c, o⟩).1 (hall 0 ⟨c, o⟩)
    obtain ⟨bs, h⟩ := h
    intro m hm
    rw [hls, ← h.stored, List.map_map] at hm
    obtain ⟨b, hb, rfl⟩ := List.mem_map.1 hm
    exact lt_of_le_of_lt (h.length_le hb) K.kmallocMaxSize_lt
  · rw [hone]
    change SamePlace (slotOrder n ls) ls _ _
    rw [heq]
    exact ⟨Iff.rfl, fun _ => rfl⟩
  · rcases Nat.lt_or_ge n 10 with hlt | hge
    · exact slotOrder_of_lt (by omega) hlt
    · have h10 : n = 10 := by omega
      unfold slotOrder
      rw [h10, show 10 % maxWriteOperationsSupported = 0 from rfl, Nat.sub_zero, List.rotate_length]

/-- Nine commands of one byte are stored, and one of four bytes that has gone to slot `0`: a
request for byte `1` of the oldest command is served, though that command has one byte. -/
theorem seekto_wrapped_not_meets :
    ¬ SeekMeets (aesdWrites .x86 aesdInitModule
      ((List.replicate 10 [newline] ++ [[97, 98, 99, newline]]).map .served)).1 0 ⟨0, 1⟩ := by
  intro h
  have hstored : (aesdWrites .x86 aesdInitModule ((List.replicate 10 [newline] ++
      [[97, 98, 99, newline]]).map .served)).1.storedCommands =
        List.replicate 9 [newline] ++ [[97, 98, 99, newline]] := by decide +kernel
  have hin := h.success.1 (by decide +kernel)
  rw [hstored, Seekto.inRange_iff] at hin
  exact absurd hin (by decide)

end Aesd
