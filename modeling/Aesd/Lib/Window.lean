import Mathlib.Data.List.Basic
import Mathlib.Data.List.Infix
import Mathlib.Tactic

/-!
# Reading through a window

A stream grows at its end, and only a part of it can be seen: a window whose front moves on.  A
reader keeps a position in the window, moves it by what it reads, and does not notice that the
window moves.

* `Follows`: what such a reader gets, piece by piece;
* `Follows.sublist`: it sees every element at most once, and in order;
* `Follows.getElem?`: where in the stream each piece is;
* `Follows.isPrefix`: it sees everything up to its position while the front does not move.
-/

/-- A piece that has been read: how many elements of the stream were in front of the window, and
what was read. -/
structure Piece (α : Type*) where
  gone : ℕ
  data : List α

namespace Window

variable {α : Type*} {S : List α} {q g : ℕ} {xs : List (Piece α)}

/-- The pieces `xs` are read from position `q` on, after `g` elements have left the window. -/
def Follows (S : List α) : ℕ → ℕ → List (Piece α) → Prop
  | _, _, [] => True
  | q, g, x :: xs => g ≤ x.gone ∧ x.data ≠ [] ∧ x.data <+: S.drop (x.gone + q) ∧
      Follows S (q + x.data.length) x.gone xs

/-- The front may have been further behind. -/
theorem Follows.of_le {g' : ℕ} (h : Follows S q g xs) (hle : g' ≤ g) : Follows S q g' xs := by
  cases xs with
  | nil => exact h
  | cons x xs => exact ⟨hle.trans h.1, h.2⟩

/-- **Each element is seen at most once**, and in order. -/
theorem Follows.sublist (h : Follows S q g xs) :
    List.Sublist (xs.flatMap Piece.data) (S.drop (g + q)) := by
  induction xs generalizing q g with
  | nil => exact List.nil_sublist _
  | cons x xs ih =>
    obtain ⟨hle, -, ⟨t, ht⟩, hrest⟩ := h
    have hlater : S.drop (x.gone + (q + x.data.length)) = t := by
      rw [← Nat.add_assoc, ← List.drop_drop, ← ht, List.drop_left]
    have hfrom : List.Sublist (S.drop (x.gone + q)) (S.drop (g + q)) :=
      List.drop_sublist_drop_left S (by omega)
    rw [List.flatMap_cons]
    have hsub := ih hrest
    rw [hlater] at hsub
    refine List.Sublist.trans ?_ hfrom
    rw [← ht]
    exact (List.append_sublist_append_left _).2 hsub

/-- **Where each piece is**: behind all that has been read before, and all that had left the
window. -/
theorem Follows.getElem? (h : Follows S q g xs) {k : ℕ} {x : Piece α} (hx : xs[k]? = some x) :
    x.data ≠ [] ∧ x.data <+: S.drop (x.gone + (q + ((xs.take k).map (·.data.length)).sum)) := by
  induction xs generalizing q g k with
  | nil => simp at hx
  | cons y ys ih =>
    obtain ⟨-, hne, hpre, hrest⟩ := h
    cases k with
    | zero =>
      obtain rfl : y = x := by simpa using hx
      exact ⟨hne, hpre⟩
    | succ k =>
      have := ih hrest (by simpa using hx)
      rwa [List.take_succ_cons, List.map_cons, List.sum_cons, ← Nat.add_assoc q]

/-- The front only moves on. -/
theorem Follows.pairwise (h : Follows S q g xs) :
    (∀ x ∈ xs, g ≤ x.gone) ∧ xs.Pairwise fun x y => x.gone ≤ y.gone := by
  induction xs generalizing q g with
  | nil => exact ⟨by simp, List.Pairwise.nil⟩
  | cons x xs ih =>
    obtain ⟨hle, -, -, hrest⟩ := h
    obtain ⟨hall, hpair⟩ := ih hrest
    exact ⟨List.forall_mem_cons.2 ⟨hle, fun y hy => hle.trans (hall y hy)⟩,
      List.pairwise_cons.2 ⟨hall, hpair⟩⟩

/-- **While the front does not move, nothing is missed.** -/
theorem Follows.isPrefix (h : Follows S q g xs) (hg : ∀ x ∈ xs, x.gone = g) :
    xs.flatMap Piece.data <+: S.drop (g + q) := by
  induction xs generalizing q with
  | nil => exact List.nil_prefix
  | cons x xs ih =>
    obtain ⟨-, -, ⟨t, ht⟩, hrest⟩ := h
    rw [List.forall_mem_cons] at hg
    rw [hg.1] at ht hrest
    have hsub := ih hrest hg.2
    rw [← Nat.add_assoc, ← List.drop_drop, ← ht, List.drop_left] at hsub
    rw [List.flatMap_cons, ← ht]
    exact (List.prefix_append_right_inj _).2 hsub

end Window
