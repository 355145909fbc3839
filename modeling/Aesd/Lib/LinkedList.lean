import Mathlib.Data.List.Nodup
import Mathlib.Tactic

/-!
# Singly linked lists

Records are named by pointers; `next` is the link in each record and `first` the head of the list.
`Chain next c l` says that the pointer `c` leads along the records `l` and then to the end.

* `Chain.next_eq`: the link of a record is the head of what follows;
* `Chain.insertHead`, `Chain.removeAfter`: insertion at the head, and removal behind a record;
* `Chain.unique`: a pointer leads along one list only.
-/

namespace LinkedList

variable {α : Type*}

/-- The records along the links. -/
inductive Chain (next : α → Option α) : Option α → List α → Prop
  | nil : Chain next none []
  | cons {p : α} {l : List α} (h : Chain next (next p) l) : Chain next (some p) (p :: l)

namespace Chain

variable {next next' : α → Option α} {c : Option α} {l l₁ l₂ : List α} {p q : α}

theorem eq_head (h : Chain next c l) : c = l.head? := by
  cases h <;> rfl

theorem unique {l' : List α} (h : Chain next c l) (h' : Chain next c l') : l = l' := by
  induction h generalizing l' with
  | nil =>
    cases h'
    rfl
  | cons _ ih =>
    cases h' with
    | cons h' => rw [ih h']

/-- Behind a record comes what its link leads to. -/
theorem tail (h : Chain next c (l₁ ++ p :: l₂)) : Chain next (next p) l₂ := by
  induction l₁ generalizing c with
  | nil =>
    cases h with
    | cons h => exact h
  | cons q l₁ ih =>
    cases h with
    | cons h => exact ih h

theorem next_eq (h : Chain next c (l₁ ++ p :: l₂)) : next p = l₂.head? := h.tail.eq_head

/-- Links of other records do not matter. -/
theorem congr (h : Chain next c l) (hl : ∀ p ∈ l, next' p = next p) : Chain next' c l := by
  induction h with
  | nil => exact nil
  | @cons p l _ ih =>
    refine cons ?_
    rw [hl p List.mem_cons_self]
    exact ih fun q hq => hl q (List.mem_cons_of_mem p hq)

variable [DecidableEq α]

/-- A record that is not in the list comes in front. -/
theorem insertHead (h : Chain next c l) (hp : p ∉ l) :
    Chain (Function.update next p c) (some p) (p :: l) := by
  refine cons ?_
  rw [Function.update_self]
  refine h.congr fun q hq => Function.update_of_ne ?_ ..
  rintro rfl
  exact hp hq

/-- The record behind `q` is unlinked. -/
theorem removeAfter (h : Chain next c (l₁ ++ q :: p :: l₂)) (hnodup : (l₁ ++ q :: p :: l₂).Nodup) :
    Chain (Function.update next q (next p)) c (l₁ ++ q :: l₂) := by
  induction l₁ generalizing c with
  | nil =>
    cases h with
    | cons h =>
      have h : Chain next (next q) ([] ++ p :: l₂) := h
      refine cons ?_
      rw [Function.update_self]
      refine h.tail.congr fun r hr => Function.update_of_ne ?_ ..
      rintro rfl
      simp [hr] at hnodup
  | cons r l₁ ih =>
    cases h with
    | cons h =>
      have hrq : r ≠ q := by
        rintro rfl
        simp at hnodup
      refine cons ?_
      rw [Function.update_of_ne hrq]
      exact ih h (List.nodup_cons.1 hnodup).2

end Chain

end LinkedList
