import Mathlib.Algebra.BigOperators.Group.List.Basic
import Mathlib.Data.List.DropRight
import Mathlib.Tactic

/-!
# Field splitting

A string is split into fields at its separators; several separators in a row count as one, and
those at its ends do not count.

* `fields_append_cons`: a separator splits the fields;
* `of_mem_fields`: a field has elements of the string, and no separators;
* `fields_lines`: the fields of lines that each end with a separator are the fields of each line;
* `fields_rdropWhile`: separators at the end do not matter;
* `perm_of_sums`: two lists with the same sum of every function hold the same elements.
-/

namespace Fields

variable {α : Type*}

/-- The fields of a string. -/
def fields [DecidableEq α] (sep : α → Bool) (s : List α) : List (List α) :=
  (s.splitOnP sep).filter (· ≠ [])

/-- A piece has elements of the string, and no separators. -/
theorem of_mem_splitOnP {sep : α → Bool} {s w : List α} (hw : w ∈ s.splitOnP sep) :
    ∀ c ∈ w, c ∈ s ∧ sep c = false := by
  induction s generalizing w with
  | nil =>
    obtain rfl : w = [] := by simpa [List.splitOnP_nil] using hw
    simp
  | cons c s ih =>
    have ih' : ∀ w' ∈ s.splitOnP sep, ∀ d ∈ w', d ∈ c :: s ∧ sep d = false :=
      fun w' hw' d hd => ⟨List.mem_cons_of_mem _ (ih hw' d hd).1, (ih hw' d hd).2⟩
    rw [List.splitOnP_cons_eq_if_modifyHead] at hw
    cases hc : sep c with
    | true =>
      rw [if_pos hc] at hw
      rcases List.mem_cons.1 hw with rfl | hw
      · simp
      · exact ih' w hw
    | false =>
      obtain ⟨first, rest, hrest⟩ := List.exists_cons_of_ne_nil (List.splitOnP_ne_nil sep s)
      rw [if_neg (by simp [hc]), hrest, List.modifyHead_cons] at hw
      rw [hrest] at ih'
      rcases List.mem_cons.1 hw with rfl | hw
      · exact List.forall_mem_cons.2 ⟨⟨List.mem_cons_self, hc⟩, ih' first List.mem_cons_self⟩
      · exact ih' w (List.mem_cons_of_mem _ hw)

section Split

variable [DecidableEq α] {sep : α → Bool}

@[simp] theorem fields_nil : fields sep ([] : List α) = [] := by
  simp [fields, List.splitOnP_nil]

/-- A separator splits the fields. -/
theorem fields_append_cons (s t : List α) {c : α} (hc : sep c = true) :
    fields sep (s ++ c :: t) = fields sep s ++ fields sep t := by
  unfold fields
  rw [List.splitOnP_append_cons s t hc, List.filter_append]

theorem of_mem_fields {s w : List α} (hw : w ∈ fields sep s) :
    ∀ c ∈ w, c ∈ s ∧ sep c = false :=
  of_mem_splitOnP (List.mem_filter.1 hw).1

/-- A string without separators is a field. -/
theorem fields_eq_singleton {s : List α} (hs : ∀ c ∈ s, sep c = false) (hne : s ≠ []) :
    fields sep s = [s] := by
  unfold fields
  rw [List.splitOnP_eq_singleton hs]
  simp [hne]

/-- Lines that end with a separator are split one by one. -/
theorem fields_lines {c : α} (hc : sep c = true) (lines : List (List α)) :
    fields sep (lines.flatMap (· ++ [c])) = lines.flatMap (fields sep) := by
  induction lines with
  | nil => exact fields_nil
  | cons s lines ih =>
    rw [List.flatMap_cons, List.flatMap_cons, List.append_assoc, List.singleton_append,
      fields_append_cons s _ hc, ih]

/-- Separators at the end do not matter. -/
theorem fields_append_seps (s : List α) {t : List α} (ht : ∀ c ∈ t, sep c = true) :
    fields sep (s ++ t) = fields sep s := by
  induction t using List.reverseRecOn with
  | nil => rw [List.append_nil]
  | append_singleton t c ih =>
    have hc := ht c (List.mem_append_right _ List.mem_cons_self)
    rw [← List.append_assoc, fields_append_cons _ _ hc, fields_nil, List.append_nil]
    exact ih fun d hd => ht d (List.mem_append_left _ hd)

theorem fields_rdropWhile {p : α → Bool} (hp : ∀ c, p c = true → sep c = true) (s : List α) :
    fields sep (s.rdropWhile p) = fields sep s := by
  nth_rewrite 2 [← List.rdropWhile_append_rtakeWhile (p := p) (l := s)]
  exact (fields_append_seps _ fun c hc => hp c (List.mem_rtakeWhile_imp hc)).symm

end Split

/-- The sums of all functions tell the elements of a list. -/
theorem perm_of_sums {xs ys : List α} (h : ∀ f : α → ℕ, (xs.map f).sum = (ys.map f).sum) :
    xs.Perm ys := by
  classical
  refine List.perm_iff_count.2 fun a => ?_
  have hcount : ∀ zs : List α, (zs.map fun b => if b = a then 1 else 0).sum = zs.count a := by
    intro zs
    induction zs with
    | nil => rfl
    | cons z zs ih =>
      rw [List.map_cons, List.sum_cons, ih, List.count_cons]
      by_cases hz : z = a
      · simp [hz, Nat.add_comm]
      · simp [hz]
  rw [← hcount xs, ← hcount ys]
  exact h _

end Fields
