import Mathlib.Data.List.Nodup
import Mathlib.Tactic

/-!
# Serial orders of concurrent calls

`serve s i` is what call `i` does when it is alone: the state it leads to, and what it returns.
`serial` makes calls one after the other.  A concurrent run is linearizable if some serial order
of its calls, one that respects real time, leads to the same state and the same return values.

* `serial_concat`: one more call;
* `sublist_of_prefix`: calls that are added to an order later come behind those it has.
-/

namespace Linearization

variable {σ ι ρ : Type*}

/-- Calls one after the other: the final state, and each call with what it returns. -/
def serial (serve : σ → ι → σ × ρ) (s : σ) : List ι → σ × List (ι × ρ)
  | [] => (s, [])
  | i :: is =>
    let r := serial serve (serve s i).1 is
    (r.1, (i, (serve s i).2) :: r.2)

/-- The order explains a run from `s` to `t` in which `returned i r` says that call `i` has
returned `r`, and `before i j` that `i` has returned when `j` begins. -/
structure Explains (serve : σ → ι → σ × ρ) (s t : σ) (returned : ι → ρ → Prop)
    (before : ι → ι → Prop) (order : List ι) : Prop where
  nodup : order.Nodup
  all : ∀ i, i ∈ order
  state : (serial serve s order).1 = t
  returns : ∀ i r, returned i r → (i, r) ∈ (serial serve s order).2
  real_time : ∀ i j, before i j → [i, j].Sublist order

variable (serve : σ → ι → σ × ρ) (s : σ)

theorem serial_append (is js : List ι) :
    serial serve s (is ++ js) =
      ((serial serve (serial serve s is).1 js).1,
        (serial serve s is).2 ++ (serial serve (serial serve s is).1 js).2) := by
  induction is generalizing s with
  | nil => rfl
  | cons i is ih => simp only [List.cons_append, serial, ih]

theorem serial_concat (is : List ι) (i : ι) :
    serial serve s (is ++ [i]) =
      ((serve (serial serve s is).1 i).1,
        (serial serve s is).2 ++ [(i, (serve (serial serve s is).1 i).2)]) := by
  rw [serial_append]; rfl

/-- A call of the beginning of an order comes before a call that is not there yet. -/
theorem sublist_of_prefix {is order : List ι} {i j : ι} (hpre : is <+: order) (hi : i ∈ is)
    (hj : j ∈ order) (hnot : j ∉ is) : [i, j].Sublist order := by
  obtain ⟨js, rfl⟩ := hpre
  have hjs : j ∈ js := (List.mem_append.1 hj).resolve_left hnot
  have happ : ([i] ++ [j]).Sublist (is ++ js) :=
    (List.singleton_sublist.2 hi).append (List.singleton_sublist.2 hjs)
  simpa using happ

end Linearization
