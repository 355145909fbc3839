import Aesd.Lib.Run

/-!
# Runs that come to an end

A measure on the states bounds how long a run can be, and shows that it can be brought to its goal.

* `run_length_le`: a run in which every event lowers the measure is no longer than the measure;
* `exists_run_goal`: a system that is never stuck before its goal reaches it.
-/

namespace Exec

variable {σ ε : Type*} {step : σ → ε → Option σ} {I : σ → Prop} {rank : σ → ℕ}
  {s t : σ} {es : List ε}

/-- If every allowed event lowers the measure, a run of such events is no longer than the measure,
and it keeps the invariant. -/
theorem run_length_le {allowed : ε → Prop}
    (hstep : ∀ s e t, I s → allowed e → step s e = some t → I t ∧ rank t < rank s)
    (h0 : I s) (hall : ∀ e ∈ es, allowed e) (h : run step s es = some t) :
    I t ∧ rank t + es.length ≤ rank s := by
  induction es generalizing s with
  | nil =>
    rw [run_nil, Option.some.injEq] at h
    subst h
    exact ⟨h0, le_rfl⟩
  | cons e es ih =>
    obtain ⟨u, he, hrun⟩ := run_cons_eq_some.1 h
    rw [List.forall_mem_cons] at hall
    obtain ⟨hu, hlt⟩ := hstep s e u h0 hall.1 he
    obtain ⟨ht, hle⟩ := ih hu hall.2 hrun
    refine ⟨ht, ?_⟩
    rw [List.length_cons]
    omega

/-- **A system that is never stuck before its goal reaches it**, with events of the given kind. -/
theorem exists_run_goal {goal : σ → Prop} {allowed : ε → Prop}
    (hmove : ∀ s, I s → ¬ goal s → ∃ e t, allowed e ∧ step s e = some t ∧ I t ∧ rank t < rank s)
    (h0 : I s) : ∃ es t, (∀ e ∈ es, allowed e) ∧ run step s es = some t ∧ I t ∧ goal t := by
  induction hn : rank s using Nat.strong_induction_on generalizing s with
  | _ n ih =>
    by_cases hg : goal s
    · exact ⟨[], s, by simp, rfl, h0, hg⟩
    · obtain ⟨e, u, hallow, he, hu, hlt⟩ := hmove s h0 hg
      obtain ⟨es, t, hall, hrun, ht, hgoal⟩ := ih (rank u) (hn ▸ hlt) hu rfl
      exact ⟨e :: es, t, List.forall_mem_cons.2 ⟨hallow, hall⟩,
        run_cons_eq_some.2 ⟨u, he, hrun⟩, ht, hgoal⟩

end Exec
