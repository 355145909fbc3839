import Aesd.Server.Reaping

/-!
# A pass of the reaping loop

In a run without signals and errors no thread comes to `cleanup`.  Then `thread_list` holds the
threads that have been created and not joined, up to the one that `main` has in hand, and a pass
of the loop removes exactly the records that it finds with `work_done` set.

* `quiet_step`: one step of such a run;
* `Exact`, `PassAt`: what the list holds, and how far a pass has come;
* `thread_records`: careful runs are sound, and what holds in quiet runs.
-/

namespace Aesd

open LinkedList

namespace Threads

/-- A step that is no signal and no error; a failing `accept` is tried again. -/
def Quiet (x : Exec.Trans Threads ThreadEvent) : Prop :=
  match x.event with
  | .main ok => ok = true ∨ x.before.main = .code .accept
  | .handler _ | .cleanup _ => True
  | .error _ | .quit _ | .signal _ => False

/-- No thread is in `cleanup`, and the joined ones have returned. -/
structure Regular (s : Threads) : Prop where
  main : ∃ pc, s.main = .code pc
  handler : ∀ p c, s.handler p ≠ some (.cleanup c)
  joined : ∀ p, .joined p ∈ s.log → s.handler p = some (.code .returned)

/-- The record that has been created and not put into the list. -/
def inserting : Pos MainPc → Option ℕ
  | .code (.insert p) => some p
  | _ => none

/-- The record that has been joined and not unlinked. -/
def removing : Pos MainPc → Option ℕ
  | .code (.remove p _) | .code (.walk p _ _) => some p
  | _ => none

/-- The list holds the threads that have been created and not joined, up to the record in hand. -/
def Exact (s : Threads) (l : List ℕ) : Prop :=
  ∀ p, (s.handler p).isSome = true ∧ .joined p ∉ s.log ↔
    p ∈ l ∧ removing s.main ≠ some p ∨ inserting s.main = some p

/-- The record that is found with `work_done` set. -/
def foundIn (x : Exec.Trans Threads ThreadEvent) : Option ℕ :=
  match x.event, x.before.main with
  | .main _, .code (.check p _) => if x.before.workDone p then some p else none
  | _, _ => none

/-- The records that are found with `work_done` set. -/
def found (tr : List (Exec.Trans Threads ThreadEvent)) : List ℕ := tr.filterMap foundIn

/-- The list `l` when a pass that began with `l₀` has come to where `main` is and has found the
records `F`. -/
def PassAt (l₀ F l : List ℕ) : Pos MainPc → Prop
  | .code .first => l = l₀ ∧ F = []
  | .code (.test c) => ∃ l₁ l₂, l₀ = l₁ ++ l₂ ∧ l = l₁.filter (· ∉ F) ++ l₂ ∧ F ⊆ l₁ ∧ c = l₂.head?
  | .code (.check p tmp) => ∃ l₁ l₂, l₀ = l₁ ++ p :: l₂ ∧ l = l₁.filter (· ∉ F) ++ p :: l₂ ∧
      F ⊆ l₁ ∧ tmp = l₂.head?
  | .code (.join p tmp) | .code (.joining p tmp) | .code (.remove p tmp) | .code (.walk p tmp _) =>
    ∃ l₁ l₂, l₀ = l₁ ++ p :: l₂ ∧ l = l₁.filter (· ∉ F) ++ p :: l₂ ∧ F ⊆ l₁ ++ [p] ∧ p ∈ F ∧
      tmp = l₂.head?
  | .code (.free _ tmp) => ∃ l₁ l₂, l₀ = l₁ ++ l₂ ∧ l = l₁.filter (· ∉ F) ++ l₂ ∧ F ⊆ l₁ ∧
      tmp = l₂.head?
  | .code .accept => l = l₀.filter (· ∉ F)
  | .code _ | .cleanup _ => False

section Quiet

variable {s t : Threads} {l l₀ F : List ℕ}

/-- The list after a step. -/
def nextList (s : Threads) (l : List ℕ) (e : ThreadEvent) : List ℕ :=
  match e, s.main with
  | .main _, .code pc => s.listAfter l pc
  | _, _ => l

theorem Regular.careful (hs : s.Regular) {e : ThreadEvent} (hq : Quiet ⟨s, e, t⟩) :
    Careful ⟨s, e, t⟩ := by
  refine ⟨?_, fun p he hp => absurd hp (hs.handler p _)⟩
  rintro rfl
  exact hq.elim

/-! ### Statements of `main` -/

/-- `main` goes on, no handler is started, and at most the thread of a handler that has returned
is joined. -/
theorem Regular.main_moves (hs : s.Regular) {pc : MainPc} (hmain : t.main = .code pc)
    (hhandler : t.handler = s.handler)
    (hlog : ∀ p, .joined p ∈ t.log → .joined p ∈ s.log ∨ s.handler p = some (.code .returned)) :
    t.Regular where
  main := ⟨pc, hmain⟩
  handler := by rw [hhandler]; exact hs.handler
  joined p hp := by
    rw [hhandler]
    exact (hlog p hp).elim (hs.joined p) id

/-- A new handler is started. -/
theorem Regular.creates (hs : s.Regular) {p : ℕ} (hnew : s.handler p = none) {pc : MainPc}
    (hmain : t.main = .code pc)
    (hhandler : t.handler = Function.update s.handler p (some (.code .start)))
    (hlog : ∀ q, .joined q ∈ t.log ↔ .joined q ∈ s.log) : t.Regular where
  main := ⟨pc, hmain⟩
  handler q c hc := by
    rw [hhandler] at hc
    rcases eq_or_ne q p with rfl | hqp
    · simp at hc
    · exact hs.handler q c ((Function.update_of_ne hqp ..).symm.trans hc)
  joined q hq := by
    have hret := hs.joined q ((hlog q).1 hq)
    have hqp : q ≠ p := by
      rintro rfl
      simp [hnew] at hret
    rw [hhandler, Function.update_of_ne hqp]
    exact hret

/-- A quiet statement of `main` does not lead to `cleanup`. -/
theorem mainStep_regular {ok : Bool} {pc : MainPc} (hi : s.Inv l) (hs : s.Regular)
    (hm : s.main = .code pc) (h : s.mainStep ok pc = some t) (hok : ok = true ∨ pc = .accept) :
    t.Regular := by
  cases pc with
  | malloc =>
    obtain rfl : ok = true := by simpa using hok
    simp only [mainStep, if_true, Option.some.injEq] at h
    subst h
    exact hs.main_moves rfl rfl fun p hp => Or.inl hp
  | create p =>
    have hhand := hi.inHand
    rw [hm] at hhand
    obtain rfl : ok = true := by simpa using hok
    simp only [mainStep, if_true, Option.some.injEq] at h
    subst h
    exact hs.creates hhand.2 rfl rfl fun q => by simp [acts, handlerAt, mainAt]
  | join p tmp =>
    obtain ⟨-, rfl⟩ := mainStep_join_eq hi hm h
    exact hs.main_moves rfl rfl fun q hq => Or.inl (by simpa [acts, mainAt] using hq)
  | joining p tmp =>
    obtain ⟨hret, rfl⟩ := mainStep_joining_eq h
    refine hs.main_moves rfl rfl fun q hq => ?_
    have hq : .joined q ∈ s.log ∨ q = p := by simpa [acts, mainAt] using hq
    rcases hq with hq | rfl
    · exact Or.inl hq
    · exact Or.inr hret
  | test c =>
    cases c <;> simp only [mainStep, Option.some.injEq] at h <;> subst h
    · exact hs.main_moves rfl rfl fun p hp => Or.inl hp
    · exact hs.main_moves rfl rfl fun q hq => Or.inl (by simpa [acts, mainAt] using hq)
  | remove p tmp =>
    rcases mainStep_remove_eq hi hm h with ⟨-, rfl⟩ | ⟨c, -, -, rfl⟩
    · exact hs.main_moves rfl rfl fun q hq => Or.inl (by simpa [acts, mainAt] using hq)
    · exact hs.main_moves rfl rfl fun q hq => Or.inl hq
  | walk p tmp c =>
    rcases mainStep_walk_eq hi hm h with ⟨-, rfl⟩ | ⟨d, -, -, rfl⟩ <;>
      exact hs.main_moves rfl rfl fun q hq => Or.inl (by simpa [acts, mainAt] using hq)
  | accept | fill p | insert p | first | check p tmp | free p tmp =>
    simp only [mainStep, Option.some.injEq] at h
    subst h
    exact hs.main_moves rfl rfl fun q hq => Or.inl (by simpa [acts, mainAt] using hq)

/-- Nothing happens to the list, and no thread is created or joined. -/
theorem Exact.congr (h : s.Exact l) (hhandler : t.handler = s.handler)
    (hlog : ∀ p, .joined p ∈ t.log ↔ .joined p ∈ s.log)
    (hremoving : removing t.main = removing s.main)
    (hinserting : inserting t.main = inserting s.main) : t.Exact l := by
  intro p
  rw [hhandler, hlog, hremoving, hinserting]
  exact h p

/-- The record in hand has been joined; now it is unlinked. -/
theorem Exact.unlinks {p : ℕ} (h : s.Exact l) (hnodup : l.Nodup) (hhandler : t.handler = s.handler)
    (hlog : ∀ q, .joined q ∈ t.log ↔ .joined q ∈ s.log) (hs : removing s.main = some p)
    (hs' : inserting s.main = none) (ht : removing t.main = none) (ht' : inserting t.main = none) :
    t.Exact (l.erase p) := by
  intro q
  rw [hhandler, hlog, h q, hs, hs', ht, ht', hnodup.mem_erase_iff]
  simp [and_comm, eq_comm]

/-- A new handler is started, and its record is in hand. -/
theorem Exact.creates {p : ℕ} (h : s.Exact l) (hnot : .joined p ∉ s.log)
    (hhandler : t.handler = Function.update s.handler p (some (.code .start)))
    (hlog : ∀ q, .joined q ∈ t.log ↔ .joined q ∈ s.log) (hs : removing s.main = none)
    (hs' : inserting s.main = none) (ht : removing t.main = none)
    (ht' : inserting t.main = some p) : t.Exact l := by
  intro q
  have hold := h q
  rw [hlog, hhandler, ht, ht']
  rw [hs, hs'] at hold
  rcases eq_or_ne q p with rfl | hqp
  · simp [hnot]
  · rw [Function.update_of_ne hqp, hold]
    simp [Ne.symm hqp]

/-- The record in hand is put into the list. -/
theorem Exact.inserts {p : ℕ} (h : s.Exact l) (hhandler : t.handler = s.handler)
    (hlog : ∀ q, .joined q ∈ t.log ↔ .joined q ∈ s.log) (hs : removing s.main = none)
    (hs' : inserting s.main = some p) (ht : removing t.main = none)
    (ht' : inserting t.main = none) : t.Exact (p :: l) := by
  intro q
  rw [hhandler, hlog, h q, hs, hs', ht, ht']
  simp only [ne_eq, reduceCtorEq, not_false_eq_true, and_true, or_false, List.mem_cons,
    Option.some.injEq]
  rw [or_comm, @eq_comm ℕ p q]

/-- A thread whose record is in the list has been joined. -/
theorem Exact.joins {p : ℕ} (h : s.Exact l) (hhandler : t.handler = s.handler)
    (hlog : ∀ q, .joined q ∈ t.log ↔ .joined q ∈ s.log ∨ q = p) (hs : removing s.main = none)
    (hs' : inserting s.main = none) (ht : removing t.main = some p)
    (ht' : inserting t.main = none) : t.Exact l := by
  intro q
  have hold := h q
  rw [hs, hs'] at hold
  simp only [ne_eq, reduceCtorEq, not_false_eq_true, and_true, or_false] at hold
  rw [hhandler, hlog, ht, ht', ← hold]
  simp only [ne_eq, reduceCtorEq, or_false, not_or, Option.some.injEq]
  rw [and_assoc, @eq_comm ℕ q p]

/-- **A statement of `main`** keeps the list exact. -/
theorem mainStep_exact {ok : Bool} {pc : MainPc} (hi : s.Inv l) (hs : s.Regular)
    (hm : s.main = .code pc) (h : s.mainStep ok pc = some t) (hok : ok = true ∨ pc = .accept)
    (he : s.Exact l) : t.Exact (s.listAfter l pc) := by
  have hhand := hi.inHand
  rw [hm] at hhand
  cases pc with
  | accept =>
    simp only [mainStep, Option.some.injEq] at h
    subst h
    refine he.congr rfl (fun q => Iff.rfl) ?_ ?_ <;> rw [hm] <;> cases ok <;> rfl
  | malloc =>
    obtain rfl : ok = true := by simpa using hok
    simp only [mainStep, if_true, Option.some.injEq] at h
    subst h
    exact he.congr rfl (fun q => Iff.rfl) (by rw [hm]; rfl) (by rw [hm]; rfl)
  | create p =>
    obtain rfl : ok = true := by simpa using hok
    simp only [mainStep, if_true, Option.some.injEq] at h
    subst h
    have hnot : .joined p ∉ s.log := by
      intro hj
      have hret := hs.joined p hj
      simp [hhand.2] at hret
    exact he.creates hnot rfl (fun q => by simp [acts, handlerAt, mainAt]) (by rw [hm]; rfl)
      (by rw [hm]; rfl) rfl rfl
  | insert p =>
    simp only [mainStep, Option.some.injEq] at h
    subst h
    exact he.inserts rfl (fun q => by simp [acts, mainAt]) (by rw [hm]; rfl) (by rw [hm]; rfl)
      rfl rfl
  | joining p tmp =>
    obtain ⟨-, rfl⟩ := mainStep_joining_eq h
    exact he.joins rfl (fun q => by simp [acts, mainAt]) (by rw [hm]; rfl) (by rw [hm]; rfl)
      rfl rfl
  | join p tmp =>
    obtain ⟨-, rfl⟩ := mainStep_join_eq hi hm h
    exact he.congr rfl (fun q => by simp [acts, mainAt]) (by rw [hm]; rfl) (by rw [hm]; rfl)
  | test c =>
    cases c <;> simp only [mainStep, Option.some.injEq] at h <;> subst h <;>
      exact he.congr rfl (fun q => by simp [acts, mainAt]) (by rw [hm]; rfl) (by rw [hm]; rfl)
  | check p tmp =>
    simp only [mainStep, Option.some.injEq] at h
    subst h
    refine he.congr rfl (fun q => by simp [acts, mainAt]) ?_ ?_ <;> rw [hm] <;>
      cases s.workDone p <;> simp [acts, mainAt, removing, inserting]
  | remove p tmp =>
    rcases mainStep_remove_eq hi hm h with ⟨hfirst, rfl⟩ | ⟨c, -, hne, rfl⟩
    · rw [listAfter, if_pos hfirst]
      exact he.unlinks hi.nodup rfl (fun q => by simp [acts, mainAt]) (by rw [hm]; rfl)
        (by rw [hm]; rfl) rfl rfl
    · rw [listAfter, if_neg hne]
      exact he.congr rfl (fun q => Iff.rfl) (by rw [hm]; rfl) (by rw [hm]; rfl)
  | walk p tmp c =>
    rcases mainStep_walk_eq hi hm h with ⟨hnext, rfl⟩ | ⟨d, -, hne, rfl⟩
    · rw [listAfter, if_pos hnext]
      exact he.unlinks hi.nodup rfl (fun q => by simp [acts, mainAt]) (by rw [hm]; rfl)
        (by rw [hm]; rfl) rfl rfl
    · rw [listAfter, if_neg hne]
      exact he.congr rfl (fun q => by simp [acts, mainAt]) (by rw [hm]; rfl) (by rw [hm]; rfl)
  | fill p | first | free p tmp =>
    simp only [mainStep, Option.some.injEq] at h
    subst h
    exact he.congr rfl (fun q => by simp [acts, mainAt]) (by rw [hm]; rfl) (by rw [hm]; rfl)

/-- Unlinking the record that the pass has just found. -/
theorem filter_found {l₁ l₂ : List ℕ} {p : ℕ} (hnodup : (l₁ ++ p :: l₂).Nodup) (hp : p ∈ F) :
    (l₁.filter (· ∉ F) ++ p :: l₂).erase p = (l₁ ++ [p]).filter (· ∉ F) ++ l₂ := by
  have hfilter : p ∉ l₁.filter (· ∉ F) := fun h => notMem_left hnodup (List.mem_of_mem_filter h)
  rw [List.erase_append_right _ hfilter, List.erase_cons_head, List.filter_append]
  simp [hp]

/-- A record that has not been looked at before has not been found. -/
theorem filter_append_found {l₁ l₂ : List ℕ} {p : ℕ} (hnodup : (l₁ ++ p :: l₂).Nodup) :
    l₁.filter (· ∉ F ++ [p]) = l₁.filter (· ∉ F) := by
  refine List.filter_congr fun q hq => ?_
  have hqp : q ≠ p := by
    rintro rfl
    exact notMem_left hnodup hq
  simp [hqp]

/-- The pass finds the record in hand with `work_done` set, or goes on behind it. -/
theorem mainStep_check_passAt {ok : Bool} {p : ℕ} {tmp : Option ℕ} (hnodup : l₀.Nodup)
    (hm : s.main = .code (.check p tmp)) (h : s.mainStep ok (.check p tmp) = some t)
    (hpass : PassAt l₀ F l (.code (.check p tmp))) :
    PassAt l₀ (F ++ (foundIn ⟨s, .main ok, t⟩).toList) l t.main := by
  obtain ⟨l₁, l₂, rfl, rfl, hF, rfl⟩ := hpass
  simp only [mainStep, Option.some.injEq] at h
  cases hw : s.workDone p with
  | false =>
    have hfound : foundIn ⟨s, .main ok, t⟩ = none := by simp [foundIn, hm, hw]
    have hp : p ∉ F := fun hp => notMem_left hnodup (hF hp)
    simp only [hw, Bool.false_eq_true, if_false] at h
    subst h
    rw [hfound, Option.toList_none, List.append_nil]
    refine ⟨l₁ ++ [p], l₂, by simp, ?_, fun q hq => List.mem_append_left _ (hF hq), rfl⟩
    simp [hp]
  | true =>
    have hfound : foundIn ⟨s, .main ok, t⟩ = some p := by simp [foundIn, hm, hw]
    simp only [hw, if_true] at h
    subst h
    rw [hfound, Option.toList_some]
    refine ⟨l₁, l₂, rfl, by rw [filter_append_found hnodup], ?_, by simp, rfl⟩
    intro q hq
    rcases List.mem_append.1 hq with hq | hq
    · exact List.mem_append_left _ (hF hq)
    · exact List.mem_append_right _ hq

/-- The record that has been found is unlinked. -/
theorem PassAt.unlinks {p : ℕ} {tmp : Option ℕ} (hnodup : l₀.Nodup)
    (hpass : PassAt l₀ F l (.code (.remove p tmp))) :
    PassAt l₀ F (l.erase p) (.code (.free p tmp)) := by
  obtain ⟨l₁, l₂, rfl, rfl, hF, hp, rfl⟩ := hpass
  exact ⟨l₁ ++ [p], l₂, by simp, filter_found hnodup hp, hF, rfl⟩

/-- **A statement of `main`** in a pass. -/
theorem mainStep_passAt {ok : Bool} {pc : MainPc} (hi : s.Inv l) (hnodup : l₀.Nodup)
    (hm : s.main = .code pc) (h : s.mainStep ok pc = some t) (hpc : pc ≠ .accept)
    (hpass : PassAt l₀ F l (.code pc)) :
    PassAt l₀ (F ++ (foundIn ⟨s, .main ok, t⟩).toList) (s.listAfter l pc) t.main := by
  have hnone : (∀ p tmp, pc ≠ .check p tmp) → foundIn ⟨s, .main ok, t⟩ = none := by
    intro hcheck
    unfold foundIn
    simp only [hm]
    cases pc <;> simp_all
  cases pc with
  | accept => exact absurd rfl hpc
  | malloc | fill p | create p | insert p => exact hpass.elim
  | first =>
    obtain ⟨rfl, rfl⟩ := hpass
    rw [hnone (by simp)]
    simp only [mainStep, Option.some.injEq] at h
    subst h
    exact ⟨[], l, rfl, rfl, by simp, hi.chain.eq_head⟩
  | test c =>
    obtain ⟨l₁, l₂, rfl, rfl, hF, rfl⟩ := hpass
    rw [hnone (by simp), Option.toList_none, List.append_nil]
    cases l₂ with
    | nil =>
      simp only [List.head?_nil, mainStep, Option.some.injEq] at h
      subst h
      simp [PassAt, mainAt, listAfter]
    | cons p l₂ =>
      simp only [List.head?_cons, mainStep, Option.some.injEq] at h
      subst h
      exact ⟨l₁, l₂, rfl, rfl, hF, hi.chain.next_eq⟩
  | check p tmp => exact mainStep_check_passAt hnodup hm h hpass
  | join p tmp =>
    obtain ⟨-, rfl⟩ := mainStep_join_eq hi hm h
    rw [hnone (by simp), Option.toList_none, List.append_nil]
    exact hpass
  | joining p tmp =>
    obtain ⟨-, rfl⟩ := mainStep_joining_eq h
    rw [hnone (by simp), Option.toList_none, List.append_nil]
    exact hpass
  | remove p tmp =>
    rw [hnone (by simp), Option.toList_none, List.append_nil]
    rcases mainStep_remove_eq hi hm h with ⟨hfirst, rfl⟩ | ⟨c, -, hne, rfl⟩
    · rw [listAfter, if_pos hfirst]
      exact PassAt.unlinks hnodup hpass
    · rw [listAfter, if_neg hne]
      exact hpass
  | walk p tmp c =>
    rw [hnone (by simp), Option.toList_none, List.append_nil]
    rcases mainStep_walk_eq hi hm h with ⟨hnext, rfl⟩ | ⟨d, -, hne, rfl⟩
    · rw [listAfter, if_pos hnext]
      exact PassAt.unlinks hnodup hpass
    · rw [listAfter, if_neg hne]
      exact hpass
  | free p tmp =>
    obtain ⟨l₁, l₂, rfl, rfl, hF, rfl⟩ := hpass
    rw [hnone (by simp), Option.toList_none, List.append_nil]
    simp only [mainStep, Option.some.injEq] at h
    subst h
    exact ⟨l₁, l₂, rfl, rfl, hF, rfl⟩

/-! ### Quiet runs -/

/-- A statement of a handler, seen from `main`. -/
theorem handlerStep_eq {p : ℕ} {pc : HandlerPc} (h : s.handlerStep p pc = some t) :
    pc ≠ .returned ∧ t.main = s.main ∧ (∀ q, .joined q ∈ t.log ↔ .joined q ∈ s.log) ∧
      ∃ pc', t.handler = Function.update s.handler p (some (.code pc')) := by
  cases pc <;> simp only [handlerStep, Option.some.injEq, reduceCtorEq] at h <;> subst h <;>
    exact ⟨by simp, rfl, fun q => by simp [acts, handlerAt], _, rfl⟩

/-- What holds in a quiet run when `l` is the list. -/
structure QuietInv (s : Threads) (l : List ℕ) : Prop where
  inv : s.Inv l
  regular : s.Regular
  exact : s.Exact l

/-- In a quiet run a step is a statement of `main` or of a handler. -/
theorem quiet_cases {e : ThreadEvent} (hs : s.Regular) (h : s.step e = some t)
    (hq : Quiet ⟨s, e, t⟩) :
    (∃ ok pc, e = .main ok ∧ s.main = .code pc ∧ s.mainStep ok pc = some t ∧
      (ok = true ∨ pc = .accept)) ∨
    ∃ p pc, e = .handler p ∧ s.handler p = some (.code pc) ∧ s.handlerStep p pc = some t := by
  unfold step at h
  split_ifs at h with hexited
  cases e with
  | main ok =>
    obtain ⟨pc, hm⟩ := hs.main
    simp only [hm] at h
    have hok : ok = true ∨ s.main = .code .accept := hq
    rw [hm, Pos.code.injEq] at hok
    exact Or.inl ⟨ok, pc, rfl, hm, h, hok⟩
  | handler p =>
    rcases hp : s.handler p with _ | pc | pc <;> simp only [hp, reduceCtorEq] at h
    exact Or.inr ⟨p, pc, rfl, hp, h⟩
  | cleanup u =>
    cases u with
    | main =>
      obtain ⟨pc, hm⟩ := hs.main
      simp [hm] at h
    | handler p =>
      rcases hp : s.handler p with _ | pc | pc <;> simp only [hp, reduceCtorEq] at h
      exact absurd hp (hs.handler p pc)
  | error p | quit p | signal u => exact hq.elim

/-- **A quiet step.** -/
theorem quiet_step {e : ThreadEvent} (hi : s.QuietInv l) (h : s.step e = some t)
    (hq : Quiet ⟨s, e, t⟩) : t.QuietInv (s.nextList l e) := by
  obtain ⟨hinv, hs, he⟩ := hi
  rcases quiet_cases hs h hq with ⟨ok, pc, rfl, hm, hstep, hok⟩ | ⟨p, pc, rfl, hp, hstep⟩
  · have hlist : s.nextList l (.main ok) = s.listAfter l pc := by simp only [nextList, hm]
    rw [hlist]
    exact ⟨mainStep_inv hinv hm hstep, mainStep_regular hinv hs hm hstep hok,
      mainStep_exact hinv hs hm hstep hok he⟩
  · obtain ⟨hpc, hmain, hlog, pc', hhandler⟩ := handlerStep_eq hstep
    have hlist : s.nextList l (.handler p) = l := rfl
    rw [hlist]
    refine ⟨handlerStep_inv hinv hp hstep, ⟨by rw [hmain]; exact hs.main, fun q c hc => ?_,
      fun q hj => ?_⟩, fun q => ?_⟩
    · rw [hhandler] at hc
      rcases eq_or_ne q p with rfl | hqp
      · simp at hc
      · rw [Function.update_of_ne hqp] at hc
        exact hs.handler q c hc
    · have hret := hs.joined q ((hlog q).1 hj)
      have hqp : q ≠ p := by
        rintro rfl
        rw [hp, Option.some.injEq, Pos.code.injEq] at hret
        exact hpc hret
      rw [hhandler, Function.update_of_ne hqp]
      exact hret
    · rw [hlog, hmain, ← he q, hhandler]
      rcases eq_or_ne q p with rfl | hqp
      · simp [hp]
      · rw [Function.update_of_ne hqp]

/-- A quiet step in a pass. -/
theorem quiet_step_passAt {e : ThreadEvent} (hi : s.QuietInv l) (hnodup : l₀.Nodup)
    (h : s.step e = some t) (hq : Quiet ⟨s, e, t⟩) (hmain : s.main ≠ .code .accept)
    (hpass : PassAt l₀ F l s.main) :
    PassAt l₀ (F ++ (foundIn ⟨s, e, t⟩).toList) (s.nextList l e) t.main := by
  rcases quiet_cases hi.regular h hq with ⟨ok, pc, rfl, hm, hstep, -⟩ | ⟨p, pc, rfl, hp, hstep⟩
  · have hlist : s.nextList l (.main ok) = s.listAfter l pc := by simp only [nextList, hm]
    rw [hlist]
    rw [hm] at hmain hpass
    exact mainStep_passAt hi.inv hnodup hm hstep (fun hpc => hmain (hpc ▸ rfl)) hpass
  · obtain ⟨-, hmain, -, -⟩ := handlerStep_eq hstep
    rw [hmain]
    simpa [foundIn, nextList] using hpass

/-- **Quiet runs.** -/
theorem quiet_run {es : List ThreadEvent} (hi : s.QuietInv l)
    (h : Exec.run step s es = some t) :
    (∀ x ∈ Exec.trace step s es, Quiet x) → ∃ l', t.QuietInv l' := by
  refine Exec.run_induction (I := fun es t => (∀ x ∈ Exec.trace step s es, Quiet x) →
    ∃ l', t.QuietInv l') (fun _ => ⟨l, hi⟩) ?_ h
  intro es u e v hrun ih hstep hq
  rw [Exec.trace_concat hrun hstep] at hq
  obtain ⟨l', hu⟩ := ih fun x hx => hq x (List.mem_append_left _ hx)
  exact ⟨_, quiet_step hu hstep (hq _ (List.mem_append_right _ List.mem_cons_self))⟩

/-- **A pass**, from its beginning to wherever it has come. -/
theorem pass_run {es : List ThreadEvent} (hi : s.QuietInv l₀) (hfirst : s.main = .code .first)
    (h : Exec.run step s es = some t) :
    (∀ x ∈ Exec.trace step s es, Quiet x) →
    (∀ x ∈ Exec.trace step s es, x.before.main ≠ .code .accept) →
    ∃ l', t.QuietInv l' ∧ PassAt l₀ (found (Exec.trace step s es)) l' t.main := by
  refine Exec.run_induction (I := fun es t => (∀ x ∈ Exec.trace step s es, Quiet x) →
    (∀ x ∈ Exec.trace step s es, x.before.main ≠ .code .accept) →
    ∃ l', t.QuietInv l' ∧ PassAt l₀ (found (Exec.trace step s es)) l' t.main) ?_ ?_ h
  · intro _ _
    exact ⟨l₀, hi, by rw [hfirst]; exact ⟨rfl, rfl⟩⟩
  · intro es u e v hrun ih hstep hq hin
    rw [Exec.trace_concat hrun hstep] at hq hin ⊢
    obtain ⟨l', hu, hpass⟩ := ih (fun x hx => hq x (List.mem_append_left _ hx))
      fun x hx => hin x (List.mem_append_left _ hx)
    have hlast := hq _ (List.mem_append_right _ List.mem_cons_self)
    refine ⟨_, quiet_step hu hstep hlast, ?_⟩
    have hfound : found (Exec.trace step s es ++ [⟨u, e, v⟩]) =
        found (Exec.trace step s es) ++ (foundIn ⟨u, e, v⟩).toList := by
      unfold found
      rw [List.filterMap_append]
      cases hx : foundIn ⟨u, e, v⟩ <;> simp [hx]
    rw [hfound]
    exact quiet_step_passAt hu hi.inv.nodup hstep hlast
      (hin _ (List.mem_append_right _ List.mem_cons_self)) hpass

theorem start_quietInv : start.QuietInv [] where
  inv := start_inv
  regular := ⟨⟨_, rfl⟩, by simp [start], by simp [start]⟩
  exact p := by simp [start, removing, inserting]

/-- Quiet runs are careful. -/
theorem quiet_careful {es : List ThreadEvent} (h : Exec.run step start es = some t)
    (hq : ∀ x ∈ Exec.trace step start es, Quiet x) :
    ∀ x ∈ Exec.trace step start es, Careful x := by
  intro x hx
  obtain ⟨es₁, es₂, rfl, hrun, -⟩ := Exec.exists_of_mem_trace hx
  obtain ⟨l, hi⟩ := quiet_run start_quietInv hrun fun y hy =>
    hq y ((Exec.trace_prefix start es₁ _).subset hy)
  exact hi.regular.careful (hq x hx)

end Quiet

/-- **The records of the threads.**  In every run of `main`, any number of handlers, signals and
errors, if every step is careful, then no thread is joined twice or by itself, and nothing is done
to a record after it has been freed.  In a run without signals and errors this is so, the list is
exact, and a pass that has come to its end has removed from the list it began with what it has
found with `work_done` set, and nothing else. -/
theorem thread_records {es : List ThreadEvent} {t : Threads}
    (h : Exec.run step start es = some t) :
    ((∀ x ∈ Exec.trace step start es, Careful x) → Sound t.log) ∧
    ((∀ x ∈ Exec.trace step start es, Quiet x) →
      Sound t.log ∧ (∃ l, Chain t.next t.first l ∧ t.Exact l) ∧
      ∀ es₁ es₂ u l₀, es = es₁ ++ es₂ → Exec.run step start es₁ = some u →
        u.main = .code .first → Chain u.next u.first l₀ →
        (∀ x ∈ Exec.trace step u es₂, x.before.main ≠ .code .accept) → t.main = .code .accept →
        Chain t.next t.first (l₀.filter (· ∉ found (Exec.trace step u es₂)))) := by
  have hsound : (∀ x ∈ Exec.trace step start es, Careful x) → Sound t.log := by
    intro hc
    obtain ⟨l, hi⟩ := run_inv h hc
    exact hi.sound
  refine ⟨hsound, fun hq => ⟨hsound (quiet_careful h hq), ?_, ?_⟩⟩
  · obtain ⟨l, hi⟩ := quiet_run start_quietInv h hq
    exact ⟨l, hi.inv.chain, hi.exact⟩
  · rintro es₁ es₂ u l₀ rfl hu hfirst hl₀ hin haccept
    rw [Exec.trace_append hu] at hq
    obtain ⟨l₁, hi⟩ := quiet_run start_quietInv hu fun x hx => hq x (List.mem_append_left _ hx)
    obtain rfl := hi.inv.chain.unique hl₀
    obtain ⟨v, hv, hrun⟩ := Exec.run_append.1 h
    obtain rfl := Option.some.inj (hv.symm.trans hu)
    obtain ⟨l, hl, hpass⟩ := pass_run hi hfirst hrun
      (fun x hx => hq x (List.mem_append_right _ hx)) hin
    rw [haccept] at hpass
    exact hpass ▸ hl.inv.chain

/-- One connection, whose handler has returned when `main` comes to its record, up to the return of
`pthread_join`. -/
def oneConnection : List ThreadEvent :=
  [.main true, .main true, .main true, .main true, .main true, .handler 0, .handler 0, .handler 0,
    .main true, .main true, .main true, .main true, .main true]

/-- The pass goes to its end. -/
theorem thread_records_one_connection :
    let es := oneConnection ++ [.main true, .main true, .main true]
    ∃ t, Exec.run step start es = some t ∧ t.first = none ∧ Sound t.log := by
  intro es
  have hevents : ∀ e ∈ es, e = .main true ∨ e = .handler 0 := by decide
  have hquiet : ∀ x ∈ Exec.trace step start es, Quiet x := by
    intro x hx
    obtain ⟨es₁, es₂, hes, -, -⟩ := Exec.exists_of_mem_trace hx
    unfold Quiet
    rcases hevents x.event (by rw [hes]; simp) with he | he <;> rw [he]
    · exact Or.inl rfl
    · trivial
  obtain ⟨t, ht⟩ : ∃ t, Exec.run step start es = some t := ⟨_, rfl⟩
  refine ⟨t, ht, ?_, ((thread_records ht).2 hquiet).1⟩
  have hfirst : (Exec.run step start es).map Threads.first = some none := by decide +kernel
  rw [ht] at hfirst
  exact Option.some.inj hfirst

/-- A signal comes to `main` between `pthread_join` and `SLIST_REMOVE`, and `cleanup` joins the
thread again; and a handler that meets an error joins itself. -/
theorem thread_joined_twice_and_by_itself :
    (∃ t, Exec.run step start (oneConnection ++ [.signal .main, .cleanup .main, .cleanup .main,
      .cleanup .main, .cleanup .main]) = some t ∧ ¬ Sound t.log) ∧
    ∃ t, Exec.run step start ([.main true, .main true, .main true, .main true, .main true,
      .handler 0, .error 0, .cleanup (.handler 0), .cleanup (.handler 0), .cleanup (.handler 0),
      .cleanup (.handler 0)]) = some t ∧ ¬ Sound t.log := by
  refine ⟨⟨_, rfl, fun h => ?_⟩, ⟨_, rfl, fun h => ?_⟩⟩
  · exact absurd h.join_once (by decide +kernel)
  · exact absurd (h.not_self 0) (by decide +kernel)

end Threads

end Aesd
