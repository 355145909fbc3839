import Mathlib.Tactic

/-!
# Positions in a concatenation

A position in the concatenation of several pieces is a piece and a position inside it.
`locate sizes off` finds them from the sizes of the pieces: the first piece whose end lies
beyond `off`.  Pieces of size zero are skipped.

* `locate_eq_some_iff`: what is found is a piece `k` and an offset `j` inside it such that the
  pieces before `k` and `j` together make up `off`, and nothing else is found;
* `locate_isSome`: something is found exactly below the total size;
* `drop_flatten_of_locate`, `getElem?_flatten_of_locate`: what lies behind the position, and at it,
  for pieces that are lists.
-/

namespace Concat

/-- The piece that contains position `off`, and the position inside it. -/
def locate : List ℕ → ℕ → Option (ℕ × ℕ)
  | [], _ => none
  | s :: ss, off =>
    if off < s then some (0, off) else (locate ss (off - s)).map fun p => (p.1 + 1, p.2)

@[simp] theorem locate_nil (off : ℕ) : locate [] off = none := rfl

theorem locate_cons_lt {s off : ℕ} (ss : List ℕ) (h : off < s) :
    locate (s :: ss) off = some (0, off) := by simp [locate, h]

theorem locate_cons_ge {s off : ℕ} (ss : List ℕ) (h : s ≤ off) :
    locate (s :: ss) off = (locate ss (off - s)).map fun p => (p.1 + 1, p.2) := by
  simp [locate, Nat.not_lt.2 h]

theorem locate_isSome (ss : List ℕ) (off : ℕ) : (locate ss off).isSome = true ↔ off < ss.sum := by
  induction ss generalizing off with
  | nil => simp
  | cons s ss ih =>
    rw [List.sum_cons]
    rcases Nat.lt_or_ge off s with h | h
    · rw [locate_cons_lt ss h]; simp; omega
    · rw [locate_cons_ge ss h, Option.isSome_map, ih]; omega

theorem locate_eq_none (ss : List ℕ) (off : ℕ) : locate ss off = none ↔ ss.sum ≤ off := by
  have h := locate_isSome ss off
  cases hl : locate ss off with
  | none => simp [hl] at h; simp; omega
  | some p => simp [hl] at h; simp; omega

theorem locate_eq_some_iff (ss : List ℕ) (off k j : ℕ) :
    locate ss off = some (k, j) ↔ ∃ s, ss[k]? = some s ∧ j < s ∧ (ss.take k).sum + j = off := by
  induction ss generalizing off k with
  | nil => simp
  | cons s ss ih =>
    rcases Nat.lt_or_ge off s with h | h
    · rw [locate_cons_lt ss h]
      constructor
      · rintro ⟨⟩
        exact ⟨s, rfl, h, by simp⟩
      · rintro ⟨t, hk, hj, hsum⟩
        cases k with
        | zero => simp at hk hsum; subst hsum; rfl
        | succ k => simp only [List.take_succ_cons, List.sum_cons] at hsum; omega
    · rw [locate_cons_ge ss h]
      cases k with
      | zero =>
        constructor
        · intro hl
          obtain ⟨p, -, hp⟩ := Option.map_eq_some_iff.1 hl
          simp at hp
        · rintro ⟨t, hk, hj, hsum⟩
          simp only [List.getElem?_cons_zero, Option.some.injEq, List.take_zero, List.sum_nil]
            at hk hsum
          omega
      | succ k =>
        have hmap : (locate ss (off - s)).map (fun p => (p.1 + 1, p.2)) = some (k + 1, j) ↔
            locate ss (off - s) = some (k, j) := by
          cases locate ss (off - s) with
          | none => simp
          | some p => simp [Prod.ext_iff]
        rw [hmap, ih]
        simp only [List.getElem?_cons_succ, List.take_succ_cons, List.sum_cons]
        constructor
        · rintro ⟨t, hk, hj, hsum⟩; exact ⟨t, hk, hj, by omega⟩
        · rintro ⟨t, hk, hj, hsum⟩; exact ⟨t, hk, hj, by omega⟩

/-- What lies behind position `off`: the rest of the piece found, then the later pieces. -/
theorem drop_flatten_of_locate {α : Type*} (ls : List (List α)) {off k j : ℕ} {l : List α}
    (hl : ls[k]? = some l) (h : locate (ls.map List.length) off = some (k, j)) :
    ls.flatten.drop off = l.drop j ++ (ls.drop (k + 1)).flatten := by
  obtain ⟨s, hs, hj, hsum⟩ := (locate_eq_some_iff _ _ _ _).1 h
  rw [List.getElem?_map, hl, Option.map_some, Option.some.injEq] at hs
  subst hs
  obtain ⟨hk, hget⟩ := List.getElem?_eq_some_iff.1 hl
  -- the pieces before `k`, the piece, the pieces behind it
  have hsplit : ls.flatten = (ls.take k).flatten ++ (l ++ (ls.drop (k + 1)).flatten) := by
    conv_lhs => rw [← List.take_append_drop k ls, List.flatten_append,
      List.drop_eq_getElem_cons hk, hget, List.flatten_cons]
  have hlen : (ls.take k).flatten.length = ((ls.map List.length).take k).sum := by
    rw [List.length_flatten, List.map_take]
  rw [hsplit, ← hsum, ← hlen, List.drop_append, List.drop_append_of_le_length (by omega)]
  simp

/-- The element at position `off` is that of the piece found. -/
theorem getElem?_flatten_of_locate {α : Type*} (ls : List (List α)) {off k j : ℕ} {l : List α}
    (hl : ls[k]? = some l) (h : locate (ls.map List.length) off = some (k, j)) :
    ls.flatten[off]? = l[j]? := by
  have hj : j < l.length := by
    obtain ⟨s, hs, hj, -⟩ := (locate_eq_some_iff _ _ _ _).1 h
    rw [List.getElem?_map, hl, Option.map_some, Option.some.injEq] at hs
    exact hs ▸ hj
  have hfirst := congrArg (fun xs : List α => xs[0]?) (drop_flatten_of_locate ls hl h)
  simp only [List.getElem?_drop, Nat.add_zero] at hfirst
  rw [hfirst, List.getElem?_append_left (by rw [List.length_drop]; omega), List.getElem?_drop,
    Nat.add_zero]

end Concat
