import Mathlib.Data.List.DropRight
import Mathlib.Data.List.Rotate
import Mathlib.Data.Nat.ModEq

/-!
# Ring order on an array of slots

An array used as a ring is read from a start index and wraps at its end.  For a list `l` of
slots, `l.rotate o` is the array in the order in which a reader that starts at `o` meets it,
and `walk l o n` is the first `n` slots so met.  The two ways in which a writer extends a ring
are described here:

* `walk_set_next`: writing the first slot behind the occupied region appends to the walk;
* `walk_set_oldest`: overwriting the start slot of a fully occupied ring and moving the start
  on by one drops the oldest element and appends the new one.
-/

namespace SlotRing

variable {α : Type*}

/-- The `n` slots met by a reader that starts at index `o`, wrapping at the end of `l`. -/
def walk (l : List α) (o n : ℕ) : List α := (l.rotate o).take n

@[simp] theorem walk_zero (l : List α) (o : ℕ) : walk l o 0 = [] := by simp [walk]

theorem walk_length {l : List α} {o n : ℕ} (h : n ≤ l.length) : (walk l o n).length = n := by
  simp [walk, h]

theorem walk_mod (l : List α) (o n : ℕ) : walk l (o % l.length) n = walk l o n := by
  unfold walk; rw [List.rotate_mod]

/-- A full walk is the whole array, rotated. -/
theorem walk_full (l : List α) (o : ℕ) : walk l o l.length = l.rotate o := by
  unfold walk
  rw [← List.length_rotate l o, List.take_length]

theorem getElem?_walk {l : List α} {o n k : ℕ} (hk : k < n) (hn : n ≤ l.length) :
    (walk l o n)[k]? = l[(k + o) % l.length]? := by
  unfold walk
  rw [List.getElem?_take_of_lt hk, List.getElem?_rotate (by omega)]

/-- Writing the slot `k` places behind the start writes position `k` of the ring order. -/
theorem rotate_set (l : List α) (o k : ℕ) (a : α) (hk : k < l.length) :
    (l.set ((k + o) % l.length) a).rotate o = (l.rotate o).set k a := by
  apply List.ext_getElem
  · simp
  · intro i hi _
    have hil : i < l.length := by simpa using hi
    -- different places in ring order are different slots
    have hmod : (k + o) % l.length = (i + o) % l.length ↔ k = i := by
      constructor
      · intro h
        have := Nat.ModEq.add_right_cancel' o (show k + o ≡ i + o [MOD l.length] from h)
        rwa [Nat.ModEq, Nat.mod_eq_of_lt hk, Nat.mod_eq_of_lt hil] at this
      · rintro rfl; rfl
    simp only [List.getElem_rotate, List.length_set, List.getElem_set, hmod]

/-- **Appending**: the slot behind an occupied region of `n` slots becomes its last one. -/
theorem walk_set_next (l : List α) (o n : ℕ) (a : α) (hn : n < l.length) :
    walk (l.set ((n + o) % l.length) a) o (n + 1) = walk l o n ++ [a] := by
  have hlen : n < (l.rotate o).length := by simpa using hn
  unfold walk
  rw [rotate_set l o n a hn, List.take_add_one, List.take_set_of_le (le_refl n),
    List.getElem?_set_self hlen]
  rfl

/-- **Overwriting**: on a fully occupied ring the start slot takes the new element, the start
moves on, and the walk loses its oldest element. -/
theorem walk_set_oldest (l : List α) (o : ℕ) (a : α) (ho : o < l.length) :
    walk (l.set o a) ((o + 1) % l.length) l.length = (walk l o l.length).tail ++ [a] := by
  have hset : (l.set o a).rotate o = (l.rotate o).set 0 a := by
    have := rotate_set l o 0 a (by omega)
    rwa [Nat.zero_add, Nat.mod_eq_of_lt ho] at this
  have hlen : (l.set o a).length = l.length := List.length_set
  rw [← hlen, walk_mod, walk_full, hlen, walk_full, ← List.rotate_rotate, hset]
  cases hr : l.rotate o with
  | nil =>
    have : l.length = 0 := by rw [← List.length_rotate l o, hr]; rfl
    omega
  | cons b t => simp

/-! ### Queues that keep their last elements -/

/-- A queue that keeps its last `n` elements loses nothing by having kept them before. -/
theorem rtake_rtake_concat (l : List α) (a : α) (n : ℕ) :
    (l.rtake n ++ [a]).rtake n = (l ++ [a]).rtake n := by
  have hdrop : l.rtake n ++ [a] = (l ++ [a]).drop (l.length - n) := by
    rw [List.rtake, List.drop_append_of_le_length (by omega)]
  rw [hdrop, List.rtake, List.rtake, List.drop_drop, List.length_drop, List.length_append]
  congr 1
  rw [List.length_singleton]
  omega

/-- While no element has been lost, the oldest kept one is the oldest of all. -/
theorem getElem?_rtake (l : List α) (n k : ℕ) :
    (l.rtake n)[k]? = l[l.length - n + k]? := by
  rw [List.rtake, List.getElem?_drop]

end SlotRing
