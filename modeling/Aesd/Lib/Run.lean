import Mathlib.Data.List.Count
import Mathlib.Tactic

/-!
# Runs of a system that makes labelled steps

`step s e` is the state after event `e`, or `none` if the event cannot happen in `s`.  A run is a
list of events, each of which can happen where it stands; `trace` lists its steps with the states
before and after.

* `run_induction`: the induction over runs, with the events so far at hand;
* `invariant`: what every step preserves holds in every state reached;
* `exists_of_mem_trace`: a step of a run is the end of a shorter run;
* `count_concat`: counting an event along a run.
-/

namespace Exec

variable {σ ε : Type*}

/-- One step of a run. -/
structure Trans (σ ε : Type*) where
  before : σ
  event : ε
  after : σ

section Run

variable (step : σ → ε → Option σ)

/-- The state after a list of events, if each of them can happen. -/
def run (s : σ) : List ε → Option σ
  | [] => some s
  | e :: es => (step s e).bind fun t => run t es

/-- The steps of a run. -/
def trace (s : σ) : List ε → List (Trans σ ε)
  | [] => []
  | e :: es => match step s e with
    | none => []
    | some t => ⟨s, e, t⟩ :: trace t es

variable {step} {s t : σ} {es : List ε}

@[simp] theorem run_nil : run step s [] = some s := rfl

theorem run_cons_eq_some {e : ε} :
    run step s (e :: es) = some t ↔ ∃ u, step s e = some u ∧ run step u es = some t := by
  simp only [run, Option.bind_eq_some_iff]

theorem run_append {es₁ es₂ : List ε} :
    run step s (es₁ ++ es₂) = some t ↔
      ∃ u, run step s es₁ = some u ∧ run step u es₂ = some t := by
  induction es₁ generalizing s with
  | nil => simp
  | cons e es₁ ih =>
    rw [List.cons_append, run_cons_eq_some]
    simp only [ih, run_cons_eq_some]
    constructor
    · rintro ⟨u, hu, v, hv, ht⟩; exact ⟨v, ⟨u, hu, hv⟩, ht⟩
    · rintro ⟨v, ⟨u, hu, hv⟩, ht⟩; exact ⟨u, hu, v, hv, ht⟩

theorem run_concat {e : ε} :
    run step s (es ++ [e]) = some t ↔ ∃ u, run step s es = some u ∧ step u e = some t := by
  rw [run_append]
  simp only [run_cons_eq_some, run_nil, Option.some.injEq, exists_eq_right]

/-- **Induction over runs.** -/
theorem run_induction {I : List ε → σ → Prop} (h0 : I [] s)
    (hstep : ∀ es t e u, run step s es = some t → I es t → step t e = some u → I (es ++ [e]) u)
    (h : run step s es = some t) : I es t := by
  induction es using List.reverseRecOn generalizing t with
  | nil =>
    rw [run_nil, Option.some.injEq] at h
    exact h ▸ h0
  | append_singleton es e ih =>
    obtain ⟨u, hu, he⟩ := run_concat.1 h
    exact hstep es u e t hu (ih hu) he

/-- What every step preserves holds after every run. -/
theorem invariant {I : σ → Prop} (h0 : I s) (hstep : ∀ t e u, I t → step t e = some u → I u)
    (h : run step s es = some t) : I t :=
  run_induction (I := fun _ => I) h0 (fun _ t e u _ ht he => hstep t e u ht he) h

theorem trace_append {es' : List ε} (h : run step s es = some t) :
    trace step s (es ++ es') = trace step s es ++ trace step t es' := by
  induction es generalizing s with
  | nil =>
    rw [run_nil, Option.some.injEq] at h
    subst h
    rfl
  | cons e es ih =>
    obtain ⟨v, hv, hrun⟩ := run_cons_eq_some.1 h
    simp only [List.cons_append, trace, hv, ih hrun]

theorem trace_concat {e : ε} {u : σ} (h : run step s es = some t) (he : step t e = some u) :
    trace step s (es ++ [e]) = trace step s es ++ [⟨t, e, u⟩] := by
  rw [trace_append h]
  simp [trace, he]

theorem trace_prefix (s : σ) (es₁ es₂ : List ε) :
    trace step s es₁ <+: trace step s (es₁ ++ es₂) := by
  induction es₁ generalizing s with
  | nil => exact List.nil_prefix
  | cons e es₁ ih =>
    simp only [List.cons_append, trace]
    cases step s e with
    | none => exact List.prefix_rfl
    | some u => exact List.cons_prefix_cons.2 ⟨rfl, ih u⟩

/-- A step of a run is the end of a shorter run. -/
theorem exists_of_mem_trace {x : Trans σ ε} (hx : x ∈ trace step s es) :
    ∃ es₁ es₂, es = es₁ ++ x.event :: es₂ ∧ run step s es₁ = some x.before ∧
      step x.before x.event = some x.after := by
  induction es generalizing s with
  | nil => simp [trace] at hx
  | cons e es ih =>
    unfold trace at hx
    cases hs : step s e with
    | none => simp [hs] at hx
    | some u =>
      simp only [hs, List.mem_cons] at hx
      rcases hx with rfl | hx
      · exact ⟨[], es, rfl, rfl, hs⟩
      · obtain ⟨es₁, es₂, rfl, hrun, hlast⟩ := ih hx
        exact ⟨e :: es₁, es₂, rfl, run_cons_eq_some.2 ⟨u, hs, hrun⟩, hlast⟩

/-- The step that an event of a run makes. -/
theorem mem_trace_of_run {es₁ es₂ : List ε} {e : ε} {u v : σ} (hrun : run step s es₁ = some u)
    (he : step u e = some v) : ⟨u, e, v⟩ ∈ trace step s (es₁ ++ e :: es₂) := by
  induction es₁ generalizing s with
  | nil =>
    rw [run_nil, Option.some.injEq] at hrun
    subst hrun
    simp [trace, he]
  | cons e' es₁ ih =>
    obtain ⟨w, hw, hrun⟩ := run_cons_eq_some.1 hrun
    simp only [List.cons_append, trace, hw]
    exact List.mem_cons_of_mem _ (ih hrun)

/-- Every event of a run makes a step. -/
theorem exists_trans_of_mem {e : ε} (h : run step s es = some t) (he : e ∈ es) :
    ∃ x ∈ trace step s es, x.event = e := by
  obtain ⟨es₁, es₂, rfl⟩ := List.append_of_mem he
  obtain ⟨u, hu, hrest⟩ := run_append.1 h
  obtain ⟨v, hv, -⟩ := run_cons_eq_some.1 hrest
  exact ⟨⟨u, e, v⟩, mem_trace_of_run hu hv, rfl⟩

end Run

theorem count_concat [DecidableEq ε] (a e : ε) (es : List ε) :
    (es ++ [e]).count a = es.count a + if e = a then 1 else 0 := by
  rw [List.count_append, List.count_singleton]
  simp

end Exec
