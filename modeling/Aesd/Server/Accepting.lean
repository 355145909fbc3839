import Aesd.Server.Shutdown

/-!
# Back to `accept`

Between two calls of `accept`, `main` makes a record, walks along `thread_list` and joins what it
finds with `work_done` set.  A handler sets `work_done` in its last statement but one, so `main`
waits for no connection that is still open: in a run without signals and errors the number of its
statements from one `accept` to the next depends on the length of the list only, and no statement
is held up but by a handler that has nothing left but to return.

* `mainStep_rank`: a statement of `main` brings the next `accept` nearer;
* `quiet_joinable`: the thread that `main` joins has set `work_done`;
* `accept_again`: a run up to the next `accept`.
-/

namespace Aesd

open LinkedList

/-- A statement of `main`. -/
def ThreadEvent.isMain : ThreadEvent → Bool
  | .main _ => true
  | .handler _ | .error _ | .quit _ | .signal _ | .cleanup _ => false

namespace Threads

/-- How many records of the list come from `c` on. -/
def behind (l : List ℕ) : Option ℕ → ℕ
  | none => 0
  | some c => (l.dropWhile (· ≠ c)).length

theorem behind_le (l : List ℕ) (c : Option ℕ) : behind l c ≤ l.length := by
  cases c with
  | none => exact Nat.zero_le _
  | some c => exact (List.dropWhile_sublist _).length_le

theorem behind_head {l₁ l₂ : List ℕ} (h : (l₁ ++ l₂).Nodup) :
    behind (l₁ ++ l₂) l₂.head? = l₂.length := by
  cases l₂ with
  | nil => rfl
  | cons p l₂ =>
    have hp : ∀ q ∈ l₁, decide (q ≠ p) = true := by
      intro q hq
      refine decide_eq_true ?_
      rintro rfl
      exact notMem_left h hq
    rw [List.head?_cons, behind, List.dropWhile_append_of_pos hp]
    simp

theorem behind_tail {l₁ l₂ : List ℕ} {p : ℕ} (h : (l₁ ++ p :: l₂).Nodup) :
    behind (l₁ ++ p :: l₂) l₂.head? = l₂.length := by
  rw [List.append_cons] at h ⊢
  exact behind_head h

theorem behind_self {l₁ l₂ : List ℕ} {p : ℕ} (h : (l₁ ++ p :: l₂).Nodup) :
    behind (l₁ ++ p :: l₂) (some p) = l₂.length + 1 := behind_head h

/-- How many statements of `main` the next `accept` is away at most, when `l` is the list. -/
def passRank (l : List ℕ) : MainPc → ℕ
  | .accept => 0
  | .malloc => (l.length + 1) * (l.length + 9) + 6
  | .fill _ => (l.length + 1) * (l.length + 9) + 5
  | .create _ => (l.length + 1) * (l.length + 9) + 4
  | .insert _ => (l.length + 1) * (l.length + 9) + 3
  | .first => l.length * (l.length + 8) + 2
  | .test c => behind l c * (l.length + 8) + 1
  | .check _ tmp => behind l tmp * (l.length + 8) + (l.length + 8)
  | .join _ tmp => behind l tmp * (l.length + 8) + (l.length + 7)
  | .joining _ tmp => behind l tmp * (l.length + 8) + (l.length + 6)
  | .remove _ tmp => behind l tmp * (l.length + 8) + (l.length + 5)
  | .walk _ tmp c => behind l tmp * (l.length + 8) + (behind l (some c) + 3)
  | .free _ tmp => behind l tmp * (l.length + 8) + 2

/-- From one `accept` to the next. -/
theorem passRank_le (l : List ℕ) (pc : MainPc) :
    passRank l pc ≤ (l.length + 1) * (l.length + 9) + 6 := by
  have hbehind : ∀ c, behind l c * (l.length + 8) ≤ l.length * (l.length + 8) := fun c =>
    Nat.mul_le_mul_right _ (behind_le l c)
  have hsquare : (l.length + 1) * (l.length + 9) =
      l.length * (l.length + 8) + 2 * l.length + 9 := by ring
  cases pc with
  | test c => have := hbehind c; simp only [passRank]; omega
  | check p tmp | join p tmp | joining p tmp | remove p tmp | free p tmp =>
    have := hbehind tmp
    simp only [passRank]
    omega
  | walk p tmp c =>
    have := hbehind tmp
    have := behind_le l (some c)
    simp only [passRank]
    omega
  | accept | malloc | fill p | create p | insert p | first => simp only [passRank]; omega

section Step

variable {s t : Threads} {l : List ℕ}

/-- When the record has left the list, the pass goes on behind it. -/
theorem passRank_free {l₁ l₂ : List ℕ} {p : ℕ} (hnodup : (l₁ ++ p :: l₂).Nodup) :
    passRank ((l₁ ++ p :: l₂).erase p) (.free p l₂.head?) ≤
      behind (l₁ ++ p :: l₂) l₂.head? * ((l₁ ++ p :: l₂).length + 8) + 2 := by
  have hsub : (l₁ ++ l₂).Nodup := (List.nodup_cons.1 (List.nodup_middle.1 hnodup)).2
  rw [erase_middle hnodup, behind_tail hnodup, passRank, behind_head hsub]
  have hle : (l₁ ++ l₂).length + 8 ≤ (l₁ ++ p :: l₂).length + 8 := by simp
  exact Nat.add_le_add_right (Nat.mul_le_mul_left _ hle) _

/-- **A statement of `main`** brings the next `accept` nearer. -/
theorem mainStep_rank {pc : MainPc} (hi : s.Inv l) (hm : s.main = .code pc)
    (h : s.mainStep true pc = some t) (hpc : pc ≠ .accept) :
    ∃ pc', t.main = .code pc' ∧ t.exited = s.exited ∧
      passRank (s.listAfter l pc) pc' < passRank l pc := by
  have hnodup := hi.nodup
  have hhand := hi.inHand
  rw [hm] at hhand
  cases pc with
  | accept => exact absurd rfl hpc
  | malloc | fill p | create p =>
    simp only [mainStep, if_true, Option.some.injEq] at h
    subst h
    exact ⟨_, rfl, rfl, by simp only [listAfter, passRank]; omega⟩
  | insert p =>
    simp only [mainStep, Option.some.injEq] at h
    subst h
    refine ⟨_, rfl, rfl, ?_⟩
    simp only [listAfter, passRank, List.length_cons]
    exact Nat.lt_succ_self _
  | first =>
    simp only [mainStep, Option.some.injEq] at h
    subst h
    refine ⟨_, rfl, rfl, ?_⟩
    have hle := Nat.mul_le_mul_right (l.length + 8) (behind_le l s.first)
    simp only [listAfter, passRank]
    omega
  | test c =>
    obtain ⟨l₁, l₂, rfl, rfl⟩ := hhand
    cases l₂ with
    | nil =>
      simp only [List.head?_nil, mainStep, Option.some.injEq] at h
      subst h
      exact ⟨_, rfl, rfl, Nat.zero_lt_succ _⟩
    | cons p l₂ =>
      simp only [List.head?_cons, mainStep, Option.some.injEq] at h
      subst h
      refine ⟨_, rfl, rfl, ?_⟩
      simp only [listAfter, passRank, hi.chain.next_eq, behind_tail hnodup, List.head?_cons,
        behind_self hnodup]
      rw [Nat.succ_mul]
      exact Nat.lt_succ_self _
  | check p tmp =>
    simp only [mainStep, Option.some.injEq] at h
    subst h
    cases hw : s.workDone p with
    | true => exact ⟨.join p tmp, rfl, rfl, by simp only [listAfter, passRank]; omega⟩
    | false => exact ⟨.test tmp, rfl, rfl, by simp only [listAfter, passRank]; omega⟩
  | join p tmp =>
    obtain ⟨-, rfl⟩ := mainStep_join_eq hi hm h
    exact ⟨_, rfl, rfl, by simp only [listAfter, passRank]; omega⟩
  | joining p tmp =>
    obtain ⟨-, rfl⟩ := mainStep_joining_eq h
    exact ⟨_, rfl, rfl, by simp only [listAfter, passRank]; omega⟩
  | remove p tmp =>
    obtain ⟨⟨l₁, l₂, rfl, rfl⟩, -⟩ := hhand
    rcases mainStep_remove_eq hi hm h with ⟨hfirst, rfl⟩ | ⟨c, -, hne, rfl⟩
    · rw [listAfter, if_pos hfirst]
      have hle := passRank_free hnodup
      exact ⟨_, rfl, rfl, by simp only [passRank] at hle ⊢; omega⟩
    · rw [listAfter, if_neg hne]
      have hle := behind_le (l₁ ++ p :: l₂) (some c)
      exact ⟨_, rfl, rfl, by simp only [passRank]; omega⟩
  | walk p tmp c =>
    obtain ⟨⟨l₁, l₂, l₃, rfl, rfl⟩, -⟩ := hhand
    rcases mainStep_walk_eq hi hm h with ⟨hnext, rfl⟩ | ⟨d, hd, hne, rfl⟩
    · rw [listAfter, if_pos hnext]
      have hsplit : l₁ ++ c :: (l₂ ++ p :: l₃) = (l₁ ++ c :: l₂) ++ p :: l₃ := by simp
      rw [hsplit] at hnodup ⊢
      have hle := passRank_free hnodup
      exact ⟨_, rfl, rfl, by simp only [passRank] at hle ⊢; omega⟩
    · rw [listAfter, if_neg hne]
      have hself := behind_self hnodup
      have htail := behind_tail hnodup
      rw [← hi.chain.next_eq, hd] at htail
      exact ⟨_, rfl, rfl, by simp only [passRank, hself, htail]; omega⟩
  | free p tmp =>
    simp only [mainStep, Option.some.injEq] at h
    subst h
    exact ⟨_, rfl, rfl, by simp only [listAfter, passRank]; omega⟩

/-! ### What `main` waits for -/

/-- A thread with `work_done` set has at most to return, and `main` joins no other. -/
structure Joinable (s : Threads) : Prop where
  done : ∀ p, s.workDone p = true →
    s.handler p = some (.code .finished) ∨ s.handler p = some (.code .returned)
  joining : ∀ p tmp, s.main = .code (.join p tmp) ∨ s.main = .code (.joining p tmp) →
    s.workDone p = true
  running : s.exited = false

theorem start_joinable : start.Joinable where
  done p h := by simp [start] at h
  joining p tmp h := by simp [start] at h
  running := rfl

/-- A statement of `main` that starts no thread and does not go to `pthread_join`. -/
theorem Joinable.moves (hj : s.Joinable) (hdone : ∀ p, t.workDone p = true → s.workDone p = true)
    (hhandler : t.handler = s.handler) (hexited : t.exited = s.exited)
    (hmain : ∀ p tmp, t.main ≠ .code (.join p tmp) ∧ t.main ≠ .code (.joining p tmp)) :
    t.Joinable where
  done p hp := by
    rw [hhandler]
    exact hj.done p (hdone p hp)
  joining p tmp h := absurd h (not_or.2 (hmain p tmp))
  running := hexited.trans hj.running

theorem mainStep_joinable {ok : Bool} {pc : MainPc} (hi : s.Inv l) (hm : s.main = .code pc)
    (h : s.mainStep ok pc = some t) (hok : ok = true ∨ pc = .accept) (hj : s.Joinable) :
    t.Joinable := by
  have hhand := hi.inHand
  rw [hm] at hhand
  cases pc with
  | accept =>
    simp only [mainStep, Option.some.injEq] at h
    subst h
    exact hj.moves (fun _ hp => hp) rfl rfl fun p tmp => by cases ok <;> simp [mainAt]
  | malloc =>
    obtain rfl : ok = true := by simpa using hok
    simp only [mainStep, if_true, Option.some.injEq] at h
    subst h
    exact hj.moves (fun _ hp => hp) rfl rfl fun p tmp => by simp [mainAt]
  | fill p =>
    simp only [mainStep, Option.some.injEq] at h
    subst h
    refine hj.moves (fun q hq => ?_) rfl rfl fun p tmp => by simp [mainAt]
    rcases eq_or_ne q p with rfl | hqp
    · simp at hq
    · simpa [acts, mainAt, hqp] using hq
  | create p =>
    obtain rfl : ok = true := by simpa using hok
    simp only [mainStep, if_true, Option.some.injEq] at h
    subst h
    refine ⟨fun q hq => ?_, fun q tmp hq => by simp [mainAt] at hq, hj.running⟩
    have hold := hj.done q hq
    rcases eq_or_ne q p with rfl | hqp
    · -- the thread has not been started before
      simp [hhand.2] at hold
    · rwa [show ((s.acts [.touch p]).handlerAt p .start |>.mainAt (.insert p)).handler q =
        s.handler q from Function.update_of_ne hqp ..]
  | check p tmp =>
    simp only [mainStep, Option.some.injEq] at h
    subst h
    refine ⟨hj.done, fun q tmp' hq => ?_, hj.running⟩
    cases hw : s.workDone p with
    | false => simp [acts, mainAt, hw] at hq
    | true =>
      obtain ⟨rfl, -⟩ : p = q ∧ tmp = tmp' := by simpa [acts, mainAt, hw] using hq
      exact hw
  | join p tmp =>
    obtain ⟨-, rfl⟩ := mainStep_join_eq hi hm h
    refine ⟨hj.done, fun q tmp' hq => ?_, hj.running⟩
    obtain ⟨rfl, -⟩ : p = q ∧ tmp = tmp' := by simpa [acts, mainAt] using hq
    exact hj.joining p tmp (Or.inl hm)
  | joining p tmp =>
    obtain ⟨-, rfl⟩ := mainStep_joining_eq h
    exact hj.moves (fun _ hp => hp) rfl rfl fun p tmp => by simp [acts, mainAt]
  | remove p tmp =>
    rcases mainStep_remove_eq hi hm h with ⟨-, rfl⟩ | ⟨c, -, -, rfl⟩
    · exact hj.moves (fun _ hp => hp) rfl rfl fun p tmp => by simp [acts, mainAt]
    · exact hj.moves (fun _ hp => hp) rfl rfl fun p tmp => by simp [mainAt]
  | walk p tmp c =>
    rcases mainStep_walk_eq hi hm h with ⟨-, rfl⟩ | ⟨d, -, -, rfl⟩
    · exact hj.moves (fun _ hp => hp) rfl rfl fun p tmp => by simp [acts, mainAt]
    · exact hj.moves (fun _ hp => hp) rfl rfl fun p tmp => by simp [acts, mainAt]
  | test c =>
    cases c <;> simp only [mainStep, Option.some.injEq] at h <;> subst h <;>
      exact hj.moves (fun _ hp => hp) rfl rfl fun p tmp => by simp [acts, mainAt]
  | insert p | first | free p tmp =>
    simp only [mainStep, Option.some.injEq] at h
    subst h
    exact hj.moves (fun _ hp => hp) rfl rfl fun p tmp => by simp [acts, mainAt]

theorem handlerStep_joinable {p : ℕ} {pc : HandlerPc} (hp : s.handler p = some (.code pc))
    (h : s.handlerStep p pc = some t) (hj : s.Joinable) : t.Joinable := by
  have hold : s.workDone p = true → pc = .finished ∨ pc = .returned := by
    intro hw
    simpa [hp] using hj.done p hw
  have hother : ∀ q pc', q ≠ p → s.workDone q = true →
      Function.update s.handler p (some (.code pc')) q = some (.code .finished) ∨
        Function.update s.handler p (some (.code pc')) q = some (.code .returned) := by
    intro q pc' hqp hq
    rw [Function.update_of_ne hqp]
    exact hj.done q hq
  cases pc with
  | returned => simp [handlerStep] at h
  | start =>
    simp only [handlerStep, Option.some.injEq] at h
    subst h
    refine ⟨fun q hq => ?_, hj.joining, hj.running⟩
    rcases eq_or_ne q p with rfl | hqp
    · simpa using hold hq
    · exact hother q _ hqp hq
  | work =>
    simp only [handlerStep, Option.some.injEq] at h
    subst h
    refine ⟨fun q hq => ?_, fun q tmp hq => ?_, hj.running⟩
    · rcases eq_or_ne q p with rfl | hqp
      · exact Or.inl (Function.update_self ..)
      · exact hother q _ hqp (by simpa [acts, handlerAt, hqp] using hq)
    · rcases eq_or_ne q p with rfl | hqp
      · exact Function.update_self ..
      · exact (Function.update_of_ne hqp ..).trans (hj.joining q tmp hq)
  | finished =>
    simp only [handlerStep, Option.some.injEq] at h
    subst h
    refine ⟨fun q hq => ?_, hj.joining, hj.running⟩
    rcases eq_or_ne q p with rfl | hqp
    · exact Or.inr (Function.update_self ..)
    · exact hother q _ hqp hq

/-- A quiet step. -/
theorem quiet_joinable {e : ThreadEvent} (hi : s.QuietInv l) (h : s.step e = some t)
    (hq : Quiet ⟨s, e, t⟩) (hj : s.Joinable) : t.Joinable := by
  rcases quiet_cases hi.regular h hq with ⟨ok, pc, rfl, hm, hmain, hok⟩ |
    ⟨p, pc, rfl, hp, hhandler⟩
  · exact mainStep_joinable hi.inv hm hmain hok hj
  · exact handlerStep_joinable hp hhandler hj

theorem mainStep_isSome {pc : MainPc} (hpc : ∀ p tmp, pc ≠ .joining p tmp) :
    (s.mainStep true pc).isSome = true := by
  cases pc with
  | joining p tmp => exact absurd rfl (hpc p tmp)
  | test c => cases c <;> rfl
  | join p tmp =>
    simp only [mainStep]
    split_ifs <;> rfl
  | remove p tmp =>
    simp only [mainStep]
    split_ifs
    · rfl
    · cases s.first <;> rfl
  | walk p tmp c =>
    simp only [mainStep]
    split_ifs
    · rfl
    · cases s.next c <;> rfl
  | accept | malloc | fill p | create p | insert p | first | check p tmp | free p tmp => rfl

/-- **The next statement of `main`** can be made, if need be after the return of a handler that has
nothing else to do. -/
theorem main_enabled (hi : s.QuietInv l) (hj : s.Joinable) :
    (s.step (.main true)).isSome = true ∨
      ∃ p t, s.handler p = some (.code .finished) ∧ s.step (.handler p) = some t ∧
        (t.step (.main true)).isSome = true := by
  obtain ⟨pc, hm⟩ := hi.regular.main
  have hrun := hj.running
  have hmain : ∀ t : Threads, t.exited = false → t.main = .code pc →
      (t.mainStep true pc).isSome = true → (t.step (.main true)).isSome = true := by
    intro t ht hmt h
    simpa [step, ht, hmt] using h
  by_cases hpc : ∀ p tmp, pc ≠ .joining p tmp
  · exact Or.inl (hmain s hrun hm (mainStep_isSome hpc))
  · push Not at hpc
    obtain ⟨p, tmp, rfl⟩ := hpc
    rcases hj.done p (hj.joining p tmp (Or.inr hm)) with hfin | hret
    · refine Or.inr ⟨p, s.handlerAt p .returned, hfin, by simp [step, hrun, hfin, handlerStep],
        hmain _ hrun hm ?_⟩
      simp [mainStep, handlerAt]
    · exact Or.inl (hmain s hrun hm (by simp [mainStep, hret]))

/-- A quiet run from the start. -/
theorem quiet_run_joinable {es : List ThreadEvent} (h : Exec.run step start es = some t) :
    (∀ x ∈ Exec.trace step start es, Quiet x) → ∃ l, t.QuietInv l ∧ t.Joinable := by
  refine Exec.run_induction (I := fun es t => (∀ x ∈ Exec.trace step start es, Quiet x) →
    ∃ l, t.QuietInv l ∧ t.Joinable) (fun _ => ⟨[], start_quietInv, start_joinable⟩) ?_ h
  intro es u e v hrun ih hstep hq
  rw [Exec.trace_concat hrun hstep] at hq
  obtain ⟨l, hi, hj⟩ := ih fun x hx => hq x (List.mem_append_left _ hx)
  have hlast := hq _ (List.mem_append_right _ List.mem_cons_self)
  exact ⟨_, quiet_step hi hstep hlast, quiet_joinable hi hstep hlast hj⟩

/-- A step that is not a call of `accept`: the statements of `main` are counted. -/
theorem quiet_step_rank {e : ThreadEvent} {pc : MainPc} (hi : s.QuietInv l) (hm : s.main = .code pc)
    (h : s.step e = some t) (hq : Quiet ⟨s, e, t⟩) (hpc : pc ≠ .accept) :
    ∃ pc', t.main = .code pc' ∧
      (if e.isMain then 1 else 0) + passRank (s.nextList l e) pc' ≤ passRank l pc := by
  rcases quiet_cases hi.regular h hq with ⟨ok, pc₁, rfl, hm₁, hmain, hok⟩ |
    ⟨p, pc₁, rfl, hp, hhandler⟩
  · obtain rfl : pc₁ = pc := by simpa [hm] using hm₁.symm
    obtain rfl : ok = true := hok.resolve_right hpc
    obtain ⟨pc', hm', -, hlt⟩ := mainStep_rank hi.inv hm hmain hpc
    have hlist : s.nextList l (.main true) = s.listAfter l pc₁ := by simp only [nextList, hm]
    rw [hlist]
    refine ⟨pc', hm', ?_⟩
    simp only [ThreadEvent.isMain, if_true]
    omega
  · obtain ⟨-, hmain, -, -⟩ := handlerStep_same hhandler
    exact ⟨pc, hmain.trans hm, (Nat.zero_add _).le⟩

/-- The statements of `main` up to the next `accept`, whatever the handlers do meanwhile. -/
theorem pass_bounded {es : List ThreadEvent} {pc : MainPc} (hi : s.QuietInv l)
    (hm : s.main = .code pc) (h : Exec.run step s es = some t) :
    (∀ x ∈ Exec.trace step s es, Quiet x) →
    (∀ x ∈ Exec.trace step s es, x.before.main ≠ .code .accept) →
    ∃ l' pc', t.QuietInv l' ∧ t.main = .code pc' ∧
      es.countP ThreadEvent.isMain + passRank l' pc' ≤ passRank l pc := by
  refine Exec.run_induction (I := fun es t => (∀ x ∈ Exec.trace step s es, Quiet x) →
    (∀ x ∈ Exec.trace step s es, x.before.main ≠ .code .accept) →
    ∃ l' pc', t.QuietInv l' ∧ t.main = .code pc' ∧
      es.countP ThreadEvent.isMain + passRank l' pc' ≤ passRank l pc)
    (fun _ _ => ⟨l, pc, hi, hm, (Nat.zero_add _).le⟩) ?_ h
  intro es u e v hrun ih hstep hq hin
  rw [Exec.trace_concat hrun hstep] at hq hin
  obtain ⟨l', pc', hu, hmu, hle⟩ := ih (fun x hx => hq x (List.mem_append_left _ hx))
    fun x hx => hin x (List.mem_append_left _ hx)
  have hlast := hq _ (List.mem_append_right _ List.mem_cons_self)
  have hnot : u.main ≠ .code .accept := hin _ (List.mem_append_right _ List.mem_cons_self)
  obtain ⟨pc'', hm'', hle'⟩ := quiet_step_rank hu hmu hstep hlast fun hpc => hnot (hpc ▸ hmu)
  refine ⟨_, pc'', quiet_step hu hstep hlast, hm'', ?_⟩
  rw [List.countP_append, List.countP_singleton]
  omega

end Step

/-- **Back to `accept`.**  In every run without signals and errors and from wherever it has come,
up to the next call of `accept`: `main` makes at most `(n + 1) * (n + 9) + 6` statements, where `n`
is the length of `thread_list`, whatever the handlers do; and its next statement can always be
made, at once or after the return of one handler that has nothing left but to return.  So a
connection that stays open keeps nobody from being accepted. -/
theorem accept_again {es es' : List ThreadEvent} {s t : Threads}
    (h : Exec.run step start es = some s) (h' : Exec.run step s es' = some t)
    (hq : ∀ x ∈ Exec.trace step start (es ++ es'), Quiet x)
    (hin : ∀ x ∈ Exec.trace step s es', x.before.main ≠ .code .accept) :
    (∃ l, Chain s.next s.first l ∧
      es'.countP ThreadEvent.isMain ≤ (l.length + 1) * (l.length + 9) + 6) ∧
    ((t.step (.main true)).isSome = true ∨
      ∃ p u, t.handler p = some (.code .finished) ∧ t.step (.handler p) = some u ∧
        (u.step (.main true)).isSome = true) := by
  obtain ⟨l, hi, -⟩ := quiet_run_joinable h fun x hx =>
    hq x ((Exec.trace_prefix start es es').subset hx)
  obtain ⟨lt, hit, hjt⟩ := quiet_run_joinable (Exec.run_append.2 ⟨s, h, h'⟩) hq
  obtain ⟨pc, hm⟩ := hi.regular.main
  have hq' : ∀ x ∈ Exec.trace step s es', Quiet x := fun x hx =>
    hq x (by rw [Exec.trace_append h]; exact List.mem_append_right _ hx)
  obtain ⟨l', pc', -, -, hle⟩ := pass_bounded hi hm h' hq' hin
  have hbound := passRank_le l pc
  exact ⟨⟨l, hi.inv.chain, by omega⟩, main_enabled hit hjt⟩

/-- Two connections that stay open: the second one has been accepted, and `main` comes back to
`accept`. -/
theorem accept_again_two_connections :
    let es : List ThreadEvent := [.main true, .main true, .main true, .main true, .main true,
      .main true, .main true, .handler 0, .main true, .main true, .main true]
    let es' : List ThreadEvent := [.main true, .main true, .main true, .handler 1, .main true,
      .main true, .main true, .main true, .main true, .main true, .main true]
    ∃ s t l, Exec.run step start es = some s ∧ Exec.run step s es' = some t ∧
      t.main = .code .accept ∧ Chain s.next s.first l ∧
      es'.countP ThreadEvent.isMain ≤ (l.length + 1) * (l.length + 9) + 6 := by
  intro es es'
  have hevents : ∀ e ∈ es ++ es', e = .main true ∨ e = .handler 0 ∨ e = .handler 1 := by decide
  have hquiet : ∀ x ∈ Exec.trace step start (es ++ es'), Quiet x := by
    intro x hx
    obtain ⟨es₁, es₂, hes, -, -⟩ := Exec.exists_of_mem_trace hx
    unfold Quiet
    rcases hevents x.event (by rw [hes]; simp) with he | he | he <;> rw [he]
    · exact Or.inl rfl
    · trivial
    · trivial
  have hrun : ∃ s t, Exec.run step start es = some s ∧ Exec.run step s es' = some t ∧
      t.main = .code .accept ∧ ∀ x ∈ Exec.trace step s es', x.before.main ≠ .code .accept :=
    ⟨_, _, rfl, rfl, rfl, by decide +kernel⟩
  obtain ⟨s, t, hs, ht, hmain, hin⟩ := hrun
  obtain ⟨⟨l, hl, hle⟩, -⟩ := accept_again hs ht hquiet hin
  exact ⟨s, t, l, hs, ht, hmain, hl, hle⟩

end Threads

end Aesd
