import Mathlib.Tactic

/-!
# Tables with the lowest free number

Numbered slots, each free or in use; a new entry goes to the lowest free number.  This is how a
process numbers its open files.
-/

/-- The slots, by number; a slot that is not in the list is free. -/
structure SlotTable (α : Type*) where
  slots : List (Option α)

namespace SlotTable

variable {α : Type*}

/-- What is in slot `n`. -/
def get (t : SlotTable α) (n : ℕ) : Option α := t.slots[n]?.join

/-- The lowest number that is free. -/
def firstFree (t : SlotTable α) : ℕ := t.slots.findIdx Option.isNone

/-- Put `a` into the lowest free slot. -/
def add (t : SlotTable α) (a : α) : SlotTable α :=
  if t.firstFree < t.slots.length then ⟨t.slots.set t.firstFree (some a)⟩
  else ⟨t.slots ++ [some a]⟩

/-- Change a slot in use. -/
def put (t : SlotTable α) (n : ℕ) (a : α) : SlotTable α := ⟨t.slots.set n (some a)⟩

/-- Free a slot. -/
def remove (t : SlotTable α) (n : ℕ) : SlotTable α := ⟨t.slots.set n none⟩

/-- Put what is in slot `m` into slot `n` as well. -/
def copy (t : SlotTable α) (m n : ℕ) : SlotTable α :=
  ⟨(t.slots ++ List.replicate (n + 1 - t.slots.length) none).set n (t.get m)⟩

/-- How many slots are in use. -/
def used (t : SlotTable α) : ℕ := t.slots.countP Option.isSome

variable {t : SlotTable α} {a b : α} {m n : ℕ}

theorem firstFree_le (t : SlotTable α) : t.firstFree ≤ t.slots.length := List.findIdx_le_length

@[simp] theorem get_firstFree (t : SlotTable α) : t.get t.firstFree = none := by
  unfold get
  rcases Nat.lt_or_ge t.firstFree t.slots.length with h | h
  · have hnone : (t.slots[t.firstFree]).isNone = true := List.findIdx_getElem
    rw [List.getElem?_eq_getElem h, Option.join_some]
    exact Option.isNone_iff_eq_none.1 hnone
  · rw [List.getElem?_eq_none h]
    rfl

@[simp] theorem get_add_self (t : SlotTable α) (a : α) : (t.add a).get t.firstFree = some a := by
  have hle := t.firstFree_le
  unfold add get
  split_ifs with h
  · rw [List.getElem?_set_self h]
    rfl
  · have heq : t.firstFree = t.slots.length := by omega
    rw [heq]
    simp

theorem get_add_of_ne (a : α) (h : n ≠ t.firstFree) : (t.add a).get n = t.get n := by
  have hle := t.firstFree_le
  unfold add get
  split_ifs with hlt
  · rw [List.getElem?_set_ne (Ne.symm h)]
  · rcases Nat.lt_or_ge n t.slots.length with hn | hn
    · rw [List.getElem?_append_left hn]
    · rw [List.getElem?_eq_none (by simp; omega), List.getElem?_eq_none hn]

/-- An entry that is there stays there. -/
theorem get_add_of_some (a : α) (h : t.get n = some b) : (t.add a).get n = some b := by
  rw [get_add_of_ne, h]
  rintro rfl
  simp at h

theorem lt_length_of_get (h : t.get n = some a) : n < t.slots.length := by
  by_contra hn
  unfold get at h
  rw [List.getElem?_eq_none (by omega)] at h
  simp at h

theorem get_put_self (b : α) (h : t.get n = some a) : (t.put n b).get n = some b := by
  unfold put get
  rw [List.getElem?_set_self (lt_length_of_get h)]
  rfl

theorem get_put_of_ne (b : α) (h : m ≠ n) : (t.put n b).get m = t.get m := by
  unfold put get
  rw [List.getElem?_set_ne (Ne.symm h)]

theorem get_remove_self (t : SlotTable α) (n : ℕ) : (t.remove n).get n = none := by
  unfold remove get
  rcases Nat.lt_or_ge n t.slots.length with h | h
  · rw [List.getElem?_set_self h]
    rfl
  · rw [List.getElem?_eq_none (by simpa using h)]
    rfl

theorem get_remove_of_ne (h : m ≠ n) : (t.remove n).get m = t.get m := by
  unfold remove get
  rw [List.getElem?_set_ne (Ne.symm h)]

theorem get_copy_self (t : SlotTable α) (m n : ℕ) : (t.copy m n).get n = t.get m := by
  have hlen : n < (t.slots ++ List.replicate (n + 1 - t.slots.length) none).length := by
    rw [List.length_append, List.length_replicate]
    omega
  show ((List.set _ n (t.get m))[n]?).join = _
  rw [List.getElem?_set_self hlen]
  rfl

theorem get_copy_of_ne (m : ℕ) {k : ℕ} (h : k ≠ n) : (t.copy m n).get k = t.get k := by
  show ((List.set _ n (t.get m))[k]?).join = (t.slots[k]?).join
  rw [List.getElem?_set_ne (Ne.symm h)]
  rcases Nat.lt_or_ge k t.slots.length with hk | hk
  · rw [List.getElem?_append_left hk]
  · rw [List.getElem?_append_right hk, List.getElem?_replicate, List.getElem?_eq_none hk]
    split_ifs <;> rfl

theorem used_add (t : SlotTable α) (a : α) : (t.add a).used = t.used + 1 := by
  unfold add used
  split_ifs with h
  · have hnone : (t.slots[t.firstFree]).isNone = true := List.findIdx_getElem
    rw [List.countP_set h]
    simp [Option.isNone_iff_eq_none.1 hnone]
  · simp

theorem used_remove (h : t.get n = some a) : (t.remove n).used = t.used - 1 := by
  have hlt := lt_length_of_get h
  have hsome : t.slots[n] = some a := by
    unfold get at h
    rwa [List.getElem?_eq_getElem hlt, Option.join_some] at h
  unfold remove used
  rw [List.countP_set hlt]
  simp [hsome]

end SlotTable
