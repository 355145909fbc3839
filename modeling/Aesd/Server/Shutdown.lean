import Aesd.Lib.Progress
import Aesd.Server.ReapingPass

/-!
# Shutdown by a signal

SIGINT and SIGTERM run `cleanup` in the accept loop.  `cleanup` joins and frees what it finds in
`thread_list`, so it waits for the open connections, and it overlooks a record that `main` has in
hand at that moment: one that is not yet in the list or not in it any more.

* `Accounted`: in runs without signals and errors every record is in the list, freed or in hand;
* `drain_step`: a statement of `cleanup`, or of a handler meanwhile, brings the end nearer;
* `shutdown`: a signal in such a run, up to `exit`.
-/

namespace Aesd

open LinkedList

/-- A statement of the `cleanup` of `main`, or of a handler. -/
def ThreadEvent.Finishing (e : ThreadEvent) : Prop := e = .cleanup .main ∨ ∃ p, e = .handler p

namespace Threads

/-- The record that `main` has in hand outside the list. -/
def holding : Pos MainPc → Option ℕ
  | .code (.fill p) | .code (.create p) | .code (.insert p) | .code (.free p _) => some p
  | .cleanup (.join c) => c
  | .cleanup (.joining p) | .cleanup (.free p) => some p
  | _ => none

/-- Every record is in the list, has been freed, or is in hand. -/
def Accounted (s : Threads) (l : List ℕ) : Prop :=
  ∀ p < s.count, p ∈ l ∨ .freed p ∈ s.log ∨ holding s.main = some p

section Accounted

variable {s t : Threads} {l l' : List ℕ}

/-- A step that allocates no record: nothing leaves the list or the hand but for the list, the hand
or `free`. -/
theorem Accounted.move (ha : s.Accounted l) (hcount : t.count = s.count)
    (hlist : ∀ p ∈ l, p ∈ l' ∨ holding t.main = some p)
    (hlog : ∀ p, .freed p ∈ s.log → .freed p ∈ t.log)
    (hhold : ∀ p, holding s.main = some p →
      p ∈ l' ∨ .freed p ∈ t.log ∨ holding t.main = some p) : t.Accounted l' := by
  intro p hp
  rw [hcount] at hp
  rcases ha p hp with hl | hf | hh
  · exact (hlist p hl).imp_right Or.inr
  · exact Or.inr (Or.inl (hlog p hf))
  · exact hhold p hh

/-- The list, the records that have been freed and the hand are the same. -/
theorem Accounted.same (ha : s.Accounted l) (hcount : t.count = s.count)
    (hlog : ∀ p, .freed p ∈ s.log → .freed p ∈ t.log)
    (hhold : holding t.main = holding s.main) : t.Accounted l :=
  ha.move hcount (fun _ hp => Or.inl hp) hlog fun _ hp => Or.inr (Or.inr (hhold.trans hp))

/-- A record leaves the list and is in hand. -/
theorem Accounted.unlinks {p : ℕ} (ha : s.Accounted l) (hcount : t.count = s.count)
    (hlog : ∀ q, .freed q ∈ s.log → .freed q ∈ t.log) (hs : holding s.main = none)
    (ht : holding t.main = some p) : t.Accounted (l.erase p) := by
  refine ha.move hcount (fun q hq => ?_) hlog fun q hq => by simp [hs] at hq
  rcases eq_or_ne q p with rfl | hqp
  · exact Or.inr ht
  · exact Or.inl ((List.mem_erase_of_ne hqp).2 hq)

/-- **A quiet statement of `main`** loses no record. -/
theorem mainStep_accounted {ok : Bool} {pc : MainPc} (hi : s.Inv l) (hm : s.main = .code pc)
    (h : s.mainStep ok pc = some t) (hok : ok = true ∨ pc = .accept) (ha : s.Accounted l) :
    t.Accounted (s.listAfter l pc) := by
  cases pc with
  | malloc =>
    -- the new record is in hand
    obtain rfl : ok = true := by simpa using hok
    simp only [mainStep, if_true, Option.some.injEq] at h
    subst h
    intro p hp
    rcases Nat.lt_succ_iff_lt_or_eq.1 hp with hlt | rfl
    · exact (ha p hlt).imp_right (Or.imp_right fun hh => by rw [hm] at hh; simp [holding] at hh)
    · exact Or.inr (Or.inr rfl)
  | accept =>
    simp only [mainStep, Option.some.injEq] at h
    subst h
    refine ha.same rfl (fun p hp => hp) ?_
    rw [hm]
    cases ok <;> rfl
  | create p =>
    obtain rfl : ok = true := by simpa using hok
    simp only [mainStep, if_true, Option.some.injEq] at h
    subst h
    exact ha.same rfl (fun q hq => List.mem_append_left _ hq) (by rw [hm]; rfl)
  | insert p =>
    simp only [mainStep, Option.some.injEq] at h
    subst h
    refine ha.move rfl (fun q hq => Or.inl (List.mem_cons_of_mem _ hq))
      (fun q hq => List.mem_append_left _ hq) fun q hq => Or.inl ?_
    rw [hm, holding, Option.some.injEq] at hq
    exact hq ▸ List.mem_cons_self
  | join p tmp =>
    obtain ⟨-, rfl⟩ := mainStep_join_eq hi hm h
    exact ha.same rfl (fun q hq => List.mem_append_left _ hq) (by rw [hm]; rfl)
  | joining p tmp =>
    obtain ⟨-, rfl⟩ := mainStep_joining_eq h
    exact ha.same rfl (fun q hq => List.mem_append_left _ hq) (by rw [hm]; rfl)
  | test c =>
    cases c <;> simp only [mainStep, Option.some.injEq] at h <;> subst h
    · exact ha.same rfl (fun q hq => hq) (by rw [hm]; rfl)
    · exact ha.same rfl (fun q hq => List.mem_append_left _ hq) (by rw [hm]; rfl)
  | check p tmp =>
    simp only [mainStep, Option.some.injEq] at h
    subst h
    refine ha.same rfl (fun q hq => List.mem_append_left _ hq) ?_
    rw [hm]
    cases hw : s.workDone p <;> simp [acts, mainAt, holding]
  | remove p tmp =>
    rcases mainStep_remove_eq hi hm h with ⟨hfirst, rfl⟩ | ⟨c, -, hne, rfl⟩
    · rw [listAfter, if_pos hfirst]
      exact ha.unlinks rfl (fun q hq => List.mem_append_left _ hq) (by rw [hm]; rfl) rfl
    · rw [listAfter, if_neg hne]
      exact ha.same rfl (fun q hq => hq) (by rw [hm]; rfl)
  | walk p tmp c =>
    rcases mainStep_walk_eq hi hm h with ⟨hnext, rfl⟩ | ⟨d, -, hne, rfl⟩
    · rw [listAfter, if_pos hnext]
      exact ha.unlinks rfl (fun q hq => List.mem_append_left _ hq) (by rw [hm]; rfl) rfl
    · rw [listAfter, if_neg hne]
      exact ha.same rfl (fun q hq => List.mem_append_left _ hq) (by rw [hm]; rfl)
  | free p tmp =>
    simp only [mainStep, Option.some.injEq] at h
    subst h
    refine ha.move rfl (fun q hq => Or.inl hq) (fun q hq => List.mem_append_left _ hq)
      fun q hq => Or.inr (Or.inl ?_)
    rw [hm, holding, Option.some.injEq] at hq
    simp [acts, mainAt, hq]
  | fill p | first =>
    simp only [mainStep, Option.some.injEq] at h
    subst h
    exact ha.same rfl (fun q hq => by simp [acts, mainAt, hq]) (by rw [hm]; rfl)

/-- A statement of a handler leaves the list, the hand and the freed records alone. -/
theorem handlerStep_same {p : ℕ} {pc : HandlerPc} (h : s.handlerStep p pc = some t) :
    t.count = s.count ∧ t.main = s.main ∧ (∀ q, .freed q ∈ t.log ↔ .freed q ∈ s.log) ∧
      t.exited = s.exited := by
  cases pc <;> simp only [handlerStep, Option.some.injEq, reduceCtorEq] at h <;> subst h <;>
    exact ⟨rfl, rfl, fun q => by simp [acts, handlerAt], rfl⟩

/-- **A quiet run** loses no record. -/
theorem quiet_accounted {es : List ThreadEvent} (h : Exec.run step start es = some t) :
    (∀ x ∈ Exec.trace step start es, Quiet x) → ∃ l, t.QuietInv l ∧ t.Accounted l := by
  refine Exec.run_induction (I := fun es t => (∀ x ∈ Exec.trace step start es, Quiet x) →
    ∃ l, t.QuietInv l ∧ t.Accounted l) (fun _ => ⟨[], start_quietInv, ?_⟩) ?_ h
  · intro p hp
    simp [start] at hp
  · intro es u e v hrun ih hstep hq
    rw [Exec.trace_concat hrun hstep] at hq
    obtain ⟨l, hi, ha⟩ := ih fun x hx => hq x (List.mem_append_left _ hx)
    have hlast : Quiet ⟨u, e, v⟩ := hq _ (List.mem_append_right _ List.mem_cons_self)
    refine ⟨_, quiet_step hi hstep hlast, ?_⟩
    rcases quiet_cases hi.regular hstep hlast with ⟨ok, pc, rfl, hm, hmain, hok⟩ |
      ⟨p, pc, rfl, hp, hhandler⟩
    · have hlist : u.nextList l (.main ok) = u.listAfter l pc := by simp only [nextList, hm]
      rw [hlist]
      exact mainStep_accounted hi.inv hm hmain hok ha
    · obtain ⟨hcount, hmain, hfreed, -⟩ := handlerStep_same hhandler
      exact ha.same hcount (fun q => (hfreed q).2) (by rw [hmain])

end Accounted

/-! ### Draining the list -/

/-- What holds in the `cleanup` of `main` when `l` is the list and `lost` the record that was in
hand at the signal. -/
structure Draining (lost : Option ℕ) (s : Threads) (l : List ℕ) : Prop where
  inv : s.Inv l
  handlers : ∀ p c, s.handler p ≠ some (.cleanup c)
  main : ∃ pc, s.main = .cleanup pc ∧ (pc = .exit → l = [])
  kept : ∀ p < s.count, p ∈ l ∨ .freed p ∈ s.log ∨ holding s.main = some p ∨ lost = some p
  lost : ∀ p, lost = some p → p ∉ l ∧ .freed p ∉ s.log ∧ holding s.main ≠ some p
  exited : s.exited = true → s.main = .cleanup .exit

/-- How many statements a handler has before it. -/
def handlerRank : Option (Pos HandlerPc) → ℕ
  | some (.code .start) => 3
  | some (.code .work) => 2
  | some (.code .finished) => 1
  | some (.code .returned) | some (.cleanup _) | none => 0

/-- How far `cleanup` is from joining the next thread or from its end. -/
def cleanupRank : Pos MainPc → ℕ
  | .cleanup .test => 5
  | .cleanup .first => 4
  | .cleanup (.removeHead _) => 3
  | .cleanup (.join _) => 2
  | .cleanup (.joining _) => 7
  | .cleanup (.free _) => 6
  | .cleanup .exit => 1
  | .code _ => 0

/-- The records that have not been passed to `pthread_join`. -/
def unpassed (s : Threads) : Finset ℕ := (Finset.range s.count).filter fun p => ¬ passedBy s.log p

/-- How many steps the end of the process is away at most. -/
def drainRank (s : Threads) : ℕ :=
  ∑ p ∈ Finset.range s.count, handlerRank (s.handler p) +
    if s.exited then 0 else 6 * s.unpassed.card + cleanupRank s.main

section Drain

variable {s t : Threads} {l : List ℕ} {lost : Option ℕ}

theorem unpassed_congr (hcount : t.count = s.count)
    (hlog : ∀ p, (∃ u, .passed u p ∈ t.log) ↔ ∃ u, .passed u p ∈ s.log) :
    t.unpassed = s.unpassed := by
  unfold unpassed
  rw [hcount]
  refine Finset.filter_congr fun p _ => ?_
  rw [passedBy_iff, passedBy_iff, hlog]

/-- A thread has been passed to `pthread_join`. -/
theorem unpassed_lt {p : ℕ} {u : Tid} (hcount : t.count = s.count) (hp : p < s.count)
    (hun : s.Unpassed p) (hlog : t.log = s.log ++ [.passed u p]) :
    t.unpassed.card < s.unpassed.card := by
  refine Finset.card_lt_card ⟨fun q hq => ?_, fun hsub => ?_⟩
  · simp only [unpassed, Finset.mem_filter, Finset.mem_range, passedBy_iff, hcount, hlog] at hq ⊢
    exact ⟨hq.1, fun ⟨v, hv⟩ => hq.2 ⟨v, List.mem_append_left _ hv⟩⟩
  · have hmem : p ∈ s.unpassed := by
      simp only [unpassed, Finset.mem_filter, Finset.mem_range, passedBy_iff]
      exact ⟨hp, fun ⟨v, hv⟩ => hun v hv⟩
    have hmem' := hsub hmem
    simp only [unpassed, Finset.mem_filter, passedBy_iff, hlog] at hmem'
    exact hmem'.2 ⟨u, by simp⟩

/-- A statement of `cleanup`: a record goes from the list to the hand, and from there it is
freed. -/
theorem Draining.move (hd : Draining lost s l) {l' : List ℕ} (hinv : t.Inv l')
    (hcount : t.count = s.count) (hhandler : t.handler = s.handler)
    (hmain : ∃ pc, t.main = .cleanup pc ∧ (pc = .exit → l' = []))
    (hexited : t.exited = true → t.main = .cleanup .exit)
    (hlist : ∀ p, p ∈ l ↔ p ∈ l' ∨ holding t.main = some p ∧ holding s.main = none)
    (hfreed : ∀ p, .freed p ∈ t.log ↔ .freed p ∈ s.log ∨
      holding s.main = some p ∧ holding t.main = none)
    (hhold : holding s.main = none ∨ holding t.main = none ∨ holding t.main = holding s.main) :
    Draining lost t l' where
  inv := hinv
  handlers := by rw [hhandler]; exact hd.handlers
  main := hmain
  kept p hp := by
    rw [hcount] at hp
    rw [hfreed p]
    rcases hd.kept p hp with hl | hf | hh | hlost
    · exact ((hlist p).1 hl).imp_right fun h => Or.inr (Or.inl h.1)
    · exact Or.inr (Or.inl (Or.inl hf))
    · rcases hhold with hs | ht | hsame
      · simp [hs] at hh
      · exact Or.inr (Or.inl (Or.inr ⟨hh, ht⟩))
      · exact Or.inr (Or.inr (Or.inl (hsame.trans hh)))
    · exact Or.inr (Or.inr (Or.inr hlost))
  lost p hp := by
    obtain ⟨hl, hf, hh⟩ := hd.lost p hp
    rw [hlist p, not_or] at hl
    refine ⟨hl.1, fun hf' => ?_, fun hh' => ?_⟩
    · exact ((hfreed p).1 hf').elim hf fun h => hh h.1
    · rcases hhold with hs | ht | hsame
      · exact hl.2 ⟨hh', hs⟩
      · simp [ht] at hh'
      · exact hh (hsame.symm.trans hh')
  exited := hexited

/-- It brings the end nearer. -/
theorem drainRank_lt_of_main (hcount : t.count = s.count) (hhandler : t.handler = s.handler)
    (hexited : s.exited = false) (hrank : t.exited = true ∧ 0 < cleanupRank s.main ∨
      6 * t.unpassed.card + cleanupRank t.main < 6 * s.unpassed.card + cleanupRank s.main) :
    t.drainRank < s.drainRank := by
  unfold drainRank
  simp only [hcount, hhandler, hexited, Bool.false_eq_true, if_false]
  rcases hrank with ⟨ht, hpos⟩ | hlt
  · rw [if_pos ht]
    omega
  · split_ifs <;> omega

/-- The same if no thread is passed to `pthread_join`. -/
theorem drainRank_lt_of_moves (hcount : t.count = s.count) (hhandler : t.handler = s.handler)
    (hexited : s.exited = false)
    (hlog : ∀ p, (∃ u, .passed u p ∈ t.log) ↔ ∃ u, .passed u p ∈ s.log)
    (hrank : cleanupRank t.main < cleanupRank s.main) : t.drainRank < s.drainRank :=
  drainRank_lt_of_main hcount hhandler hexited
    (Or.inr (by rw [unpassed_congr hcount hlog]; exact Nat.add_lt_add_left hrank _))

/-- **A statement of `cleanup`.** -/
theorem drain_main (hd : Draining lost s l) (hexited : s.exited = false)
    (h : s.step (.cleanup .main) = some t) :
    (∃ l', Draining lost t l') ∧ t.drainRank < s.drainRank := by
  obtain ⟨pc, hm, hempty⟩ := hd.main
  have hhand := hd.inv.inHand
  have hstep : s.cleanupStep .main pc = some t := by
    simpa only [step, hexited, Bool.false_eq_true, if_false, hm] using h
  obtain ⟨l', hinv⟩ := cleanupStep_inv hd.inv hm hstep
  rw [hm] at hhand
  have hexit : ∀ c, t.exited = s.exited → t.exited = true → t.main = .cleanup c := by
    intro c hsame ht
    rw [hsame, hexited] at ht
    exact absurd ht (by decide)
  cases pc with
  | test =>
    simp only [cleanupStep, Option.some.injEq] at hstep
    subst hstep
    obtain rfl : l' = l := hinv.chain.unique hd.inv.chain
    refine ⟨⟨l', hd.move hinv rfl rfl ⟨_, rfl, fun hpc => ?_⟩ (hexit _ rfl) (fun p => ?_)
      (fun p => ?_) (Or.inl (by rw [hm]; rfl))⟩,
      drainRank_lt_of_moves rfl rfl hexited (fun _ => Iff.rfl) ?_⟩
    · have hfirst := hd.inv.chain.eq_head
      split_ifs at hpc with hnone
      rw [hnone] at hfirst
      exact List.head?_eq_none_iff.1 hfirst.symm
    · by_cases hnone : s.first = none <;> simp [cleanupAt, hnone, holding]
    · simp [cleanupAt, hm, holding]
    · rw [hm]
      by_cases hnone : s.first = none <;> simp [cleanupAt, hnone, cleanupRank]
  | first =>
    simp only [cleanupStep, Option.some.injEq] at hstep
    subst hstep
    obtain rfl : l' = l := hinv.chain.unique hd.inv.chain
    refine ⟨⟨l', hd.move hinv rfl rfl ⟨_, rfl, by simp⟩ (hexit _ rfl) (fun p => ?_)
      (fun p => ?_) (Or.inl (by rw [hm]; rfl))⟩,
      drainRank_lt_of_moves rfl rfl hexited (fun _ => Iff.rfl) ?_⟩
    · simp [cleanupAt, holding]
    · simp [cleanupAt, hm, holding]
    · simp [cleanupAt, hm, cleanupRank]
  | removeHead c =>
    obtain ⟨p, l₂, rfl, rfl⟩ := hhand
    have hfirst : s.first = some p := hd.inv.chain.eq_head
    simp only [cleanupStep, hfirst, Option.some.injEq] at hstep
    subst hstep
    have hchain : Chain s.next s.first ([] ++ p :: l₂) := hd.inv.chain
    obtain rfl : l' = l₂ := hinv.chain.unique hchain.tail
    refine ⟨⟨l', hd.move hinv rfl rfl ⟨_, rfl, by simp⟩ (hexit _ rfl) (fun q => ?_)
      (fun q => ?_) (Or.inl (by rw [hm]; rfl))⟩,
      drainRank_lt_of_moves rfl rfl hexited (fun q => by simp [acts, cleanupAt]) ?_⟩
    · simp [cleanupAt, hm, holding, or_comm, eq_comm]
    · simp [acts, cleanupAt, hm, holding]
    · simp [cleanupAt, hm, cleanupRank]
  | join c =>
    obtain ⟨p, rfl, hpl, halive, hun⟩ := hhand
    simp only [cleanupStep, if_neg hun.not_joinFails, Option.some.injEq] at hstep
    subst hstep
    obtain rfl : l' = l := hinv.chain.unique hd.inv.chain
    have hlt : p < s.count := by
      by_contra hge
      have hsome := halive.1
      rw [hd.inv.unborn p (by omega)] at hsome
      simp at hsome
    have hcard := unpassed_lt (s := s)
      (t := (s.acts [.passed .main p]).cleanupAt (.joining p) .main) rfl hlt hun rfl
    refine ⟨⟨l', hd.move hinv rfl rfl ⟨_, rfl, by simp⟩ (hexit _ rfl) (fun q => ?_)
      (fun q => ?_) (Or.inr (Or.inr (by rw [hm]; rfl)))⟩,
      drainRank_lt_of_main rfl rfl hexited (Or.inr ?_)⟩
    · simp [hm, holding]
    · simp [acts, cleanupAt, holding]
    · rw [hm]
      simp only [cleanupAt, cleanupRank] at hcard ⊢
      omega
  | joining p =>
    simp only [cleanupStep] at hstep
    split_ifs at hstep with hret
    rw [Option.some.injEq] at hstep
    subst hstep
    obtain rfl : l' = l := hinv.chain.unique hd.inv.chain
    refine ⟨⟨l', hd.move hinv rfl rfl ⟨_, rfl, by simp⟩ (hexit _ rfl) (fun q => ?_)
      (fun q => ?_) (Or.inr (Or.inr (by rw [hm]; rfl)))⟩,
      drainRank_lt_of_moves rfl rfl hexited (fun q => by simp [acts, cleanupAt]) ?_⟩
    · simp [hm, holding]
    · simp [acts, cleanupAt, holding]
    · simp [cleanupAt, hm, cleanupRank]
  | free p =>
    simp only [cleanupStep, Option.some.injEq] at hstep
    subst hstep
    obtain rfl : l' = l := hinv.chain.unique hd.inv.chain
    refine ⟨⟨l', hd.move hinv rfl rfl ⟨_, rfl, by simp⟩ (hexit _ rfl) (fun q => ?_)
      (fun q => ?_) (Or.inr (Or.inl rfl))⟩,
      drainRank_lt_of_moves rfl rfl hexited (fun q => by simp [acts, cleanupAt]) ?_⟩
    · simp [hm, holding]
    · simp [acts, cleanupAt, hm, holding, eq_comm]
    · simp [cleanupAt, hm, cleanupRank]
  | exit =>
    simp only [cleanupStep, Option.some.injEq] at hstep
    subst hstep
    obtain rfl : l' = l := hinv.chain.unique hd.inv.chain
    refine ⟨⟨l', hinv, hd.handlers, ⟨_, hm, hempty⟩, hd.kept, hd.lost, fun _ => hm⟩,
      drainRank_lt_of_main rfl rfl hexited (Or.inl ⟨rfl, ?_⟩)⟩
    rw [hm]
    decide

/-- A statement of a handler meanwhile. -/
theorem drain_handler (hd : Draining lost s l) (hexited : s.exited = false) {p : ℕ}
    (h : s.step (.handler p) = some t) : Draining lost t l ∧ t.drainRank < s.drainRank := by
  obtain ⟨pc, hp, hstep⟩ : ∃ pc, s.handler p = some (.code pc) ∧ s.handlerStep p pc = some t := by
    simp only [step, hexited, Bool.false_eq_true, if_false] at h
    rcases hp : s.handler p with _ | pc | pc <;> simp only [hp, reduceCtorEq] at h
    exact ⟨pc, rfl, h⟩
  obtain ⟨hcount, hmain, hfreed, hsame⟩ := handlerStep_same hstep
  have hupdate : ∃ pc', t.handler = Function.update s.handler p (some (.code pc')) ∧
      handlerRank (some (.code pc')) < handlerRank (s.handler p) := by
    rw [hp]
    cases pc <;> simp only [handlerStep, Option.some.injEq, reduceCtorEq] at hstep <;>
      subst hstep <;> exact ⟨_, rfl, by decide⟩
  obtain ⟨pc', hhandler, hrank⟩ := hupdate
  have hlt : p < s.count := by
    by_contra hge
    rw [hd.inv.unborn p (by omega)] at hp
    simp at hp
  have hpassed : t.unpassed = s.unpassed := by
    refine unpassed_congr hcount fun q => ?_
    cases pc <;> simp only [handlerStep, Option.some.injEq, reduceCtorEq] at hstep <;>
      subst hstep <;> simp [acts, handlerAt]
  refine ⟨⟨handlerStep_inv hd.inv hp hstep, fun q c hc => ?_, hmain ▸ hd.main, fun q hq => ?_,
    fun q hq => ?_, fun ht => ?_⟩, ?_⟩
  · rw [hhandler] at hc
    rcases eq_or_ne q p with rfl | hqp
    · simp at hc
    · rw [Function.update_of_ne hqp] at hc
      exact hd.handlers q c hc
  · rw [hfreed, hmain]
    exact hd.kept q (hcount ▸ hq)
  · rw [hfreed, hmain]
    exact hd.lost q hq
  · rw [hsame, hexited] at ht
    exact absurd ht (by decide)
  · have hsum : ∑ q ∈ Finset.range s.count, handlerRank (t.handler q) <
        ∑ q ∈ Finset.range s.count, handlerRank (s.handler q) := by
      refine Finset.sum_lt_sum (fun q _ => ?_) ⟨p, Finset.mem_range.2 hlt, ?_⟩
      · rw [hhandler]
        rcases eq_or_ne q p with rfl | hqp
        · rw [Function.update_self]
          exact hrank.le
        · rw [Function.update_of_ne hqp]
      · rw [hhandler, Function.update_self]
        exact hrank
    unfold drainRank
    rw [hcount, hsame, hpassed, hmain]
    exact Nat.add_lt_add_right hsum _

/-- **A step of the shutdown** brings the end nearer. -/
theorem drain_step {e : ThreadEvent} (hd : Draining lost s l) (he : e.Finishing)
    (h : s.step e = some t) : (∃ l', Draining lost t l') ∧ t.drainRank < s.drainRank := by
  have hexited : s.exited = false := by
    by_contra hne
    simp [step, hne] at h
  rcases he with rfl | ⟨p, rfl⟩
  · exact drain_main hd hexited h
  · exact (drain_handler hd hexited h).imp_left fun hd => ⟨l, hd⟩

/-- **The shutdown is never stuck**: `cleanup` only waits for a handler that can go on. -/
theorem drain_enabled (hd : Draining lost s l) (hexited : s.exited = false) :
    ∃ e : ThreadEvent, e.Finishing ∧ (s.step e).isSome = true := by
  obtain ⟨pc, hm, -⟩ := hd.main
  have hhand := hd.inv.inHand
  rw [hm] at hhand
  have hmain : (s.cleanupStep .main pc).isSome = true →
      ∃ e : ThreadEvent, e.Finishing ∧ (s.step e).isSome = true := fun h =>
    ⟨.cleanup .main, Or.inl rfl, by simpa [step, hexited, hm] using h⟩
  cases pc with
  | joining p =>
    obtain ⟨-, halive⟩ := hhand
    obtain ⟨x, hx⟩ := Option.isSome_iff_exists.1 halive.1
    rcases x with hpc | c
    · cases hpc with
      | returned => exact hmain (by simp [cleanupStep, hx])
      | start | work | finished =>
        exact ⟨.handler p, Or.inr ⟨p, rfl⟩, by simp [step, hexited, hx, handlerStep]⟩
    · exact absurd hx (hd.handlers p c)
  | removeHead c =>
    obtain ⟨p, l₂, rfl, rfl⟩ := hhand
    have hfirst : s.first = some p := hd.inv.chain.eq_head
    exact hmain (by simp [cleanupStep, hfirst])
  | join c =>
    obtain ⟨p, rfl, -⟩ := hhand
    refine hmain ?_
    simp only [cleanupStep]
    split_ifs <;> rfl
  | test | first | free p | exit => exact hmain rfl

/-- The signal, in a run that has been quiet so far. -/
theorem signal_drains (hi : s.QuietInv l) (ha : s.Accounted l) (hexited : s.exited = false)
    (hunlink : unlinking s.main = none) (h : s.step (.signal .main) = some t) :
    Draining (holding s.main) t l ∧ t = s.cleanupAt .test .main := by
  have ht : s.cleanupAt .test .main = t := by
    simpa [step, hexited] using h
  have hhand := hi.inv.inHand
  obtain ⟨pc, hm⟩ := hi.regular.main
  subst ht
  refine ⟨⟨?_, hi.regular.handler, ⟨_, rfl, by simp⟩, fun p hp => ?_, fun p hp => ?_,
    fun ht => ?_⟩, rfl⟩
  · exact hi.inv.main_moves ⟨rfl, rfl, rfl⟩ rfl (List.append_nil _).symm plain_nil
      (by simp [hunlink]) trivial
  · exact (ha p hp).imp_right (Or.imp_right Or.inr)
  · -- the record in hand is not in the list, and nobody has freed it
    refine ⟨?_, ?_, by simp [cleanupAt, holding]⟩
    · rw [hm] at hhand hp
      cases pc <;> simp only [holding, Option.some.injEq, reduceCtorEq] at hp <;> subst hp
      case fill q | create q =>
        intro hl
        have hsome := (hi.inv.linked q hl).1
        simp [hhand.2] at hsome
      case insert q => exact hhand.1
      case free q tmp => exact hhand.2.1
    · rw [hm] at hhand hp
      change .freed p ∉ s.log
      cases pc <;> simp only [holding, Option.some.injEq, reduceCtorEq] at hp <;> subst hp
      case fill q | create q => exact (hi.inv.untouched q hhand.2).1
      case insert q => exact hhand.2.1.2
      case free q tmp => exact hhand.2.2.1.2
  · change s.exited = true at ht
    rw [hexited] at ht
    exact absurd ht (by decide)

theorem cleanupStep_count {pc : CleanupPc} (h : s.cleanupStep .main pc = some t) :
    t.count = s.count := by
  cases pc <;> simp only [cleanupStep] at h
  case removeHead c =>
    cases hf : s.first <;> simp only [hf, Option.some.injEq] at h <;> exact h ▸ rfl
  case join c =>
    cases c <;> simp only at h
    · exact Option.some.inj h ▸ rfl
    · split_ifs at h <;> exact Option.some.inj h ▸ rfl
  case joining p =>
    split_ifs at h
    exact Option.some.inj h ▸ rfl
  all_goals exact Option.some.inj h ▸ rfl

theorem finishing_count {e : ThreadEvent} (hd : Draining lost s l) (he : e.Finishing)
    (h : s.step e = some t) : t.count = s.count := by
  obtain ⟨pc, hm, -⟩ := hd.main
  unfold step at h
  split_ifs at h
  rcases he with rfl | ⟨p, rfl⟩
  · simp only [hm] at h
    exact cleanupStep_count h
  · rcases hp : s.handler p with _ | pc | pc <;> simp only [hp, reduceCtorEq] at h
    exact (handlerStep_same h).1

/-- The state of a shutdown of `n` records. -/
def ShutDown (lost : Option ℕ) (n : ℕ) (s : Threads) : Prop :=
  (∃ l, Draining lost s l) ∧ s.count = n

theorem shutDown_step {n : ℕ} {e : ThreadEvent} (hs : ShutDown lost n s) (he : e.Finishing)
    (h : s.step e = some t) : ShutDown lost n t ∧ t.drainRank < s.drainRank := by
  obtain ⟨⟨l, hd⟩, hn⟩ := hs
  obtain ⟨hd', hlt⟩ := drain_step hd he h
  exact ⟨⟨hd', (finishing_count hd he h).trans hn⟩, hlt⟩

/-- Nine steps for each record, at most. -/
theorem drainRank_le (hm : s.main = .cleanup .test) : s.drainRank ≤ 9 * s.count + 5 := by
  have hsum : ∑ p ∈ Finset.range s.count, handlerRank (s.handler p) ≤ s.count * 3 := by
    have hle := Finset.sum_le_card_nsmul (Finset.range s.count)
      (fun p => handlerRank (s.handler p)) 3 fun p _ => by
        unfold handlerRank
        split <;> omega
    rwa [Finset.card_range, smul_eq_mul] at hle
  have hcard : s.unpassed.card ≤ s.count := by
    have hle := Finset.card_filter_le (Finset.range s.count) fun p => ¬ passedBy s.log p
    rwa [Finset.card_range] at hle
  unfold drainRank
  rw [hm]
  split_ifs
  · omega
  · simp only [cleanupRank]
    omega

/-- The process has exited: what has become of the records. -/
theorem shutDown_exited {n : ℕ} (hs : ShutDown lost n s) (hexited : s.exited = true) {p : ℕ}
    (hp : p < n) : (.freed p ∈ s.log ↔ lost ≠ some p) ∧
      (.freed p ∈ s.log → s.handler p = some (.code .returned)) := by
  obtain ⟨⟨l, hd⟩, rfl⟩ := hs
  obtain ⟨pc, hm, hempty⟩ := hd.main
  have hmain := hd.exited hexited
  rw [hm, Pos.cleanup.injEq] at hmain
  obtain rfl := hempty hmain
  refine ⟨⟨fun hf hlost => (hd.lost p hlost).2.1 hf, fun hne => ?_⟩, hd.inv.freed p⟩
  rcases hd.kept p hp with hl | hf | hh | hlost
  · simp at hl
  · exact hf
  · rw [hm, hmain] at hh
    simp [holding] at hh
  · exact absurd hlost hne

end Drain

/-- **Shutdown.**  A signal comes to `main` in a run that has been without signals and errors, when
`main` is not between `pthread_join` and the unlinking.  If nothing else happens than statements of
its `cleanup` and of the handlers, `exit` is at most nine steps away for each record that has ever
been allocated, and five more; it can be reached from wherever the shutdown has come; and then no
thread has been joined twice or by itself, the records that have been freed are all but the one
that `main` had in hand at the signal, and every handler whose record has been freed has
returned. -/
theorem shutdown {es es' : List ThreadEvent} {s t : Threads}
    (h : Exec.run step start es = some s) (hq : ∀ x ∈ Exec.trace step start es, Quiet x)
    (hunlink : unlinking s.main = none)
    (h' : Exec.run step s (.signal .main :: es') = some t) (hfin : ∀ e ∈ es', e.Finishing) :
    es'.length ≤ 9 * s.count + 5 ∧
    (∃ es'' u, (∀ e ∈ es'', e.Finishing) ∧ Exec.run step t es'' = some u ∧ u.exited = true) ∧
    (t.exited = true → Sound t.log ∧ ∀ p < s.count, (.freed p ∈ t.log ↔ holding s.main ≠ some p) ∧
      (.freed p ∈ t.log → t.handler p = some (.code .returned))) := by
  obtain ⟨l, hi, ha⟩ := quiet_accounted h hq
  obtain ⟨u, hu, hrun⟩ := Exec.run_cons_eq_some.1 h'
  have hexited : s.exited = false := by
    by_contra hne
    simp [step, hne] at hu
  obtain ⟨hd, rfl⟩ := signal_drains hi ha hexited hunlink hu
  have hstep : ∀ v e w, ShutDown (holding s.main) s.count v → ThreadEvent.Finishing e →
      v.step e = some w → ShutDown (holding s.main) s.count w ∧ w.drainRank < v.drainRank :=
    fun v e w hv he hw => shutDown_step hv he hw
  obtain ⟨ht, hlen⟩ := Exec.run_length_le hstep ⟨⟨l, hd⟩, rfl⟩ hfin hrun
  have hle := drainRank_le (s := s.cleanupAt .test .main) rfl
  refine ⟨?_, ?_, fun hex => ⟨?_, fun p hp => shutDown_exited ht hex hp⟩⟩
  · change _ ≤ 9 * s.count + 5 at hle
    omega
  · have hmove : ∀ v, ShutDown (holding s.main) s.count v → ¬ v.exited = true →
        ∃ e w, ThreadEvent.Finishing e ∧ v.step e = some w ∧
          ShutDown (holding s.main) s.count w ∧ w.drainRank < v.drainRank := by
      rintro v ⟨⟨l', hv⟩, hn⟩ hne
      obtain ⟨e, he, hsome⟩ := drain_enabled hv (by simpa using hne)
      obtain ⟨w, hw⟩ := Option.isSome_iff_exists.1 hsome
      exact ⟨e, w, he, hw, shutDown_step ⟨⟨l', hv⟩, hn⟩ he hw⟩
    obtain ⟨es'', u, hall, hrun, -, hend⟩ := Exec.exists_run_goal hmove ht
    exact ⟨es'', u, hall, hrun, hend⟩
  · obtain ⟨⟨l', hd'⟩, -⟩ := ht
    exact hd'.inv.sound

/-- A client is connected when the signal comes; its handler returns, and the process exits. -/
theorem shutdown_one_connection :
    let es : List ThreadEvent := [.main true, .main true, .main true, .main true, .main true,
      .main true, .main true, .handler 0, .main true, .main true]
    let es' : List ThreadEvent := [.cleanup .main, .cleanup .main, .cleanup .main, .cleanup .main,
      .handler 0, .handler 0, .cleanup .main, .cleanup .main, .cleanup .main, .cleanup .main]
    ∃ s t, Exec.run step start es = some s ∧
      Exec.run step s (.signal .main :: es') = some t ∧ t.exited = true ∧ Sound t.log ∧
      .freed 0 ∈ t.log := by
  intro es es'
  have hevents : ∀ e ∈ es, e = .main true ∨ e = .handler 0 := by decide
  have hquiet : ∀ x ∈ Exec.trace step start es, Quiet x := by
    intro x hx
    obtain ⟨es₁, es₂, hes, -, -⟩ := Exec.exists_of_mem_trace hx
    unfold Quiet
    rcases hevents x.event (by rw [hes]; simp) with he | he <;> rw [he]
    · exact Or.inl rfl
    · trivial
  have hrun : ∃ s t, Exec.run step start es = some s ∧
      Exec.run step s (.signal .main :: es') = some t ∧ t.exited = true ∧ s.count = 1 ∧
        s.main = .code .accept := ⟨_, _, rfl, rfl, rfl, rfl, rfl⟩
  obtain ⟨s, t, hs, ht, hexited, hcount, hmain⟩ := hrun
  have hfin : ∀ e ∈ es', e.Finishing := by
    intro e he
    have : e = .cleanup .main ∨ e = .handler 0 := by
      revert e
      decide
    exact this.imp_right fun h => ⟨0, h⟩
  obtain ⟨-, -, hend⟩ := shutdown hs hquiet (by rw [hmain]; rfl) ht hfin
  obtain ⟨hsound, hfreed⟩ := hend hexited
  refine ⟨s, t, hs, ht, hexited, hsound, (hfreed 0 (by omega)).1.2 ?_⟩
  rw [hmain]
  simp [holding]

end Threads

end Aesd
