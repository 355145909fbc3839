import Aesd.Server.ThreadRecords

/-!
# Joining and freeing the handlers

Every careful step keeps what holds of `thread_list` and of the record in hand, statement by
statement.

* `mainStep_inv`, `cleanupStep_inv`, `handlerStep_inv`: the statements of a thread;
* `step_inv`, `run_inv`: any careful step, and careful runs.
-/

namespace Aesd

open LinkedList

namespace Threads

section Step

variable {s t : Threads} {l : List ℕ}

/-- The list after a statement of `main`. -/
def listAfter (s : Threads) (l : List ℕ) : MainPc → List ℕ
  | .insert p => p :: l
  | .remove p _ => if s.first = some p then l.erase p else l
  | .walk p _ c => if s.next c = some p then l.erase p else l
  | _ => l

theorem plain_nil : s.Plain [] := fun a ha => by simp at ha

theorem plain_touch {p : ℕ} (hp : .freed p ∉ s.log) : s.Plain [.touch p] := fun a ha => by
  rw [List.mem_singleton] at ha
  exact Or.inl ⟨p, ha, hp⟩

theorem plain_joined {p : ℕ} : s.Plain [.joined p] := fun a ha => by
  rw [List.mem_singleton] at ha
  exact Or.inr ⟨p, ha⟩

theorem notMem_left {l₁ l₂ : List ℕ} {p : ℕ} (h : (l₁ ++ p :: l₂).Nodup) : p ∉ l₁ := fun hp =>
  (List.nodup_cons.1 (List.nodup_middle.1 h)).1 (List.mem_append_left _ hp)

theorem erase_middle {l₁ l₂ : List ℕ} {p : ℕ} (h : (l₁ ++ p :: l₂).Nodup) :
    (l₁ ++ p :: l₂).erase p = l₁ ++ l₂ := by
  rw [List.erase_append_right _ (notMem_left h), List.erase_cons_head]

theorem mainStep_accept {ok : Bool} (hi : s.Inv l) (hm : s.main = .code .accept)
    (h : s.mainStep ok .accept = some t) : t.Inv (s.listAfter l .accept) := by
  simp only [mainStep, Option.some.injEq] at h
  subst h
  refine hi.main_moves ⟨rfl, rfl, rfl⟩ rfl (List.append_nil _).symm plain_nil ?_ ?_
  · simp [hm, unlinking]
  · cases ok <;> trivial

theorem mainStep_malloc {ok : Bool} (hi : s.Inv l) (hm : s.main = .code .malloc)
    (h : s.mainStep ok .malloc = some t) : t.Inv (s.listAfter l .malloc) := by
  cases ok with
  | false =>
    simp only [mainStep, Bool.false_eq_true, if_false, Option.some.injEq] at h
    subst h
    exact hi.main_moves ⟨rfl, rfl, rfl⟩ rfl (List.append_nil _).symm plain_nil
      (by simp [hm, unlinking]) trivial
  | true =>
    simp only [mainStep, if_true, Option.some.injEq] at h
    subst h
    exact hi.main_step hi.chain hi.nodup (fun p hp => ⟨hi.linked p hp, (hi.linked p hp).2⟩)
      (fun p hp u hu => absurd hu (hi.unpassed (by rw [hm]; rfl) hp u)) (Nat.le_succ _) rfl
      (fun p hf => Or.inl hf) (fun u p hu => Or.inl hu) ⟨Nat.lt_succ_self _, hi.unborn _ le_rfl⟩
      hi.sound

theorem mainStep_fill {ok : Bool} {p : ℕ} (hi : s.Inv l) (hm : s.main = .code (.fill p))
    (h : s.mainStep ok (.fill p) = some t) : t.Inv (s.listAfter l (.fill p)) := by
  have hhand := hi.inHand
  rw [hm] at hhand
  simp only [mainStep, Option.some.injEq] at h
  subst h
  exact hi.main_moves ⟨rfl, rfl, rfl⟩ rfl rfl (plain_touch (hi.untouched p hhand.2).1)
    (by simp [hm, unlinking]) hhand

/-- `pthread_create` starts the handler of a new record. -/
theorem Inv.starts {p : ℕ} (hi : s.Inv l) (hnone : unlinking s.main = none) (hlt : p < s.count)
    (hnew : s.handler p = none) : ((s.handlerAt p .start).mainAt (.insert p)).Inv l := by
  have hpl : p ∉ l := by
    intro hp
    have hsome := (hi.linked p hp).1
    simp [hnew] at hsome
  have hother : ∀ q, q ≠ p →
      ((s.handlerAt p .start).mainAt (.insert p)).handler q = s.handler q :=
    fun q hq => Function.update_of_ne hq ..
  have hself : ((s.handlerAt p .start).mainAt (.insert p)).handler p = some (.code .start) :=
    Function.update_self ..
  exact {
    chain := hi.chain
    nodup := hi.nodup
    linked := by
      intro q hq
      refine ⟨?_, (hi.linked q hq).2⟩
      rw [hother q fun h => hpl (h ▸ hq)]
      exact (hi.linked q hq).1
    passed := fun q hq u hu => absurd hu (hi.unpassed hnone hq u)
    unborn := by
      intro q hq
      have hqp : q ≠ p := by
        rintro rfl
        exact absurd hlt (Nat.not_lt.2 hq)
      rw [hother q hqp]
      exact hi.unborn q hq
    untouched := by
      intro q hq
      have hqp : q ≠ p := by
        rintro rfl
        simp [hself] at hq
      rw [hother q hqp] at hq
      exact hi.untouched q hq
    freed := by
      intro q hq
      have hqp : q ≠ p := by
        rintro rfl
        exact (hi.untouched q hnew).1 hq
      rw [hother q hqp]
      exact hi.freed q hq
    handlers := by
      intro q c hc
      have hqp : q ≠ p := by
        rintro rfl
        simp [hself] at hc
      rw [hother q hqp] at hc
      exact hi.handlers q c hc
    inHand := ⟨hpl, ⟨by rw [hself]; rfl, (hi.untouched p hnew).1⟩, (hi.untouched p hnew).2⟩
    sound := hi.sound }

theorem mainStep_create {ok : Bool} {p : ℕ} (hi : s.Inv l) (hm : s.main = .code (.create p))
    (h : s.mainStep ok (.create p) = some t) : t.Inv (s.listAfter l (.create p)) := by
  have hhand := hi.inHand
  rw [hm] at hhand
  obtain ⟨hlt, hnew⟩ := hhand
  have hpf := (hi.untouched p hnew).1
  cases ok with
  | false =>
    simp only [mainStep, Bool.false_eq_true, if_false, Option.some.injEq] at h
    subst h
    exact hi.main_moves ⟨rfl, rfl, rfl⟩ rfl rfl (plain_touch hpf) (by simp [hm, unlinking]) trivial
  | true =>
    simp only [mainStep, if_true, Option.some.injEq] at h
    subst h
    have hstarts := hi.starts (by rw [hm]; rfl) hlt hnew
    exact hstarts.main_moves ⟨rfl, rfl, rfl⟩ rfl rfl (plain_touch hpf) (fun _ hq => hq)
      hstarts.inHand

theorem mainStep_insert {ok : Bool} {p : ℕ} (hi : s.Inv l) (hm : s.main = .code (.insert p))
    (h : s.mainStep ok (.insert p) = some t) : t.Inv (s.listAfter l (.insert p)) := by
  have hhand := hi.inHand
  rw [hm] at hhand
  obtain ⟨hpl, halive, hun⟩ := hhand
  simp only [mainStep, Option.some.injEq] at h
  subst h
  refine hi.main_plain (hi.chain.insertHead hpl) (List.nodup_cons.2 ⟨hpl, hi.nodup⟩)
    (fun q hq => ?_) (fun q hq u hu => ?_) rfl rfl rfl (plain_touch halive.2) trivial
  · rcases List.mem_cons.1 hq with rfl | hq
    · exact halive
    · exact hi.linked q hq
  · rcases List.mem_cons.1 hq with rfl | hq
    · exact absurd hu (hun u)
    · exact absurd hu (hi.unpassed (by rw [hm]; rfl) hq u)

theorem mainStep_first {ok : Bool} (hi : s.Inv l) (hm : s.main = .code .first)
    (h : s.mainStep ok .first = some t) : t.Inv (s.listAfter l .first) := by
  simp only [mainStep, Option.some.injEq] at h
  subst h
  exact hi.main_moves ⟨rfl, rfl, rfl⟩ rfl (List.append_nil _).symm plain_nil
    (by simp [hm, unlinking]) ⟨[], l, rfl, hi.chain.eq_head⟩

theorem mainStep_test {ok : Bool} {c : Option ℕ} (hi : s.Inv l) (hm : s.main = .code (.test c))
    (h : s.mainStep ok (.test c) = some t) : t.Inv (s.listAfter l (.test c)) := by
  have hhand := hi.inHand
  rw [hm] at hhand
  obtain ⟨l₁, l₂, rfl, rfl⟩ := hhand
  cases l₂ with
  | nil =>
    simp only [List.head?_nil, mainStep, Option.some.injEq] at h
    subst h
    exact hi.main_moves ⟨rfl, rfl, rfl⟩ rfl (List.append_nil _).symm plain_nil
      (by simp [hm, unlinking]) trivial
  | cons p l₂ =>
    simp only [List.head?_cons, mainStep, Option.some.injEq] at h
    subst h
    have halive := hi.linked p (by simp)
    exact hi.main_moves ⟨rfl, rfl, rfl⟩ rfl rfl (plain_touch halive.2) (by simp [hm, unlinking])
      ⟨l₁, l₂, rfl, hi.chain.next_eq⟩

theorem mainStep_check {ok : Bool} {p : ℕ} {tmp : Option ℕ} (hi : s.Inv l)
    (hm : s.main = .code (.check p tmp)) (h : s.mainStep ok (.check p tmp) = some t) :
    t.Inv (s.listAfter l (.check p tmp)) := by
  have hhand := hi.inHand
  rw [hm] at hhand
  obtain ⟨l₁, l₂, rfl, rfl⟩ := hhand
  have halive := hi.linked p (by simp)
  simp only [mainStep, Option.some.injEq] at h
  subst h
  refine hi.main_moves ⟨rfl, rfl, rfl⟩ rfl rfl (plain_touch halive.2) (by simp [hm, unlinking]) ?_
  cases hw : s.workDone p with
  | false => exact ⟨l₁ ++ [p], l₂, by simp, rfl⟩
  | true => exact ⟨l₁, l₂, rfl, rfl⟩

theorem Unpassed.not_joinFails {p : ℕ} (h : s.Unpassed p) : ¬ s.JoinFails .main p := by
  rintro (h' | ⟨u, hu⟩)
  · simp at h'
  · exact h u hu

/-- `pthread_join` does not fail in `main`. -/
theorem mainStep_join_eq {ok : Bool} {p : ℕ} {tmp : Option ℕ} (hi : s.Inv l)
    (hm : s.main = .code (.join p tmp)) (h : s.mainStep ok (.join p tmp) = some t) :
    s.Unpassed p ∧ t = (s.acts [.passed .main p]).mainAt (.joining p tmp) := by
  have hhand := hi.inHand
  rw [hm] at hhand
  obtain ⟨l₁, l₂, rfl, -⟩ := hhand
  have hun := hi.unpassed (by rw [hm]; rfl) (p := p) (by simp)
  simp only [mainStep, if_neg hun.not_joinFails, Option.some.injEq] at h
  exact ⟨hun, h.symm⟩

theorem mainStep_join {ok : Bool} {p : ℕ} {tmp : Option ℕ} (hi : s.Inv l)
    (hm : s.main = .code (.join p tmp)) (h : s.mainStep ok (.join p tmp) = some t) :
    t.Inv (s.listAfter l (.join p tmp)) := by
  obtain ⟨hun, rfl⟩ := mainStep_join_eq hi hm h
  have hhand := hi.inHand
  rw [hm] at hhand
  obtain ⟨l₁, l₂, rfl, rfl⟩ := hhand
  exact hi.main_passes ⟨rfl, rfl, rfl⟩ rfl rfl (hi.linked p (by simp)) hun (by rw [hm]; rfl)
    (fun _ => rfl) ⟨l₁, l₂, rfl, rfl⟩

theorem mainStep_joining_eq {ok : Bool} {p : ℕ} {tmp : Option ℕ}
    (h : s.mainStep ok (.joining p tmp) = some t) :
    s.handler p = some (.code .returned) ∧ t = (s.acts [.joined p]).mainAt (.remove p tmp) := by
  simp only [mainStep] at h
  split_ifs at h with hret
  exact ⟨hret, (Option.some.inj h).symm⟩

theorem mainStep_joining {ok : Bool} {p : ℕ} {tmp : Option ℕ} (hi : s.Inv l)
    (hm : s.main = .code (.joining p tmp)) (h : s.mainStep ok (.joining p tmp) = some t) :
    t.Inv (s.listAfter l (.joining p tmp)) := by
  obtain ⟨hret, rfl⟩ := mainStep_joining_eq h
  have hhand := hi.inHand
  rw [hm] at hhand
  exact hi.main_moves ⟨rfl, rfl, rfl⟩ rfl rfl plain_joined (by rw [hm]; exact fun _ hq => hq)
    ⟨hhand, hret⟩

/-- After the record has been unlinked. -/
theorem Inv.free_inHand {l₁ l₂ : List ℕ} {p : ℕ} (hi : s.Inv (l₁ ++ p :: l₂))
    (hret : s.handler p = some (.code .returned)) (hp : p ∉ l₁ ++ l₂) :
    s.InHand (l₁ ++ l₂) (.code (.free p l₂.head?)) :=
  ⟨⟨l₁, l₂, rfl, rfl⟩, hp, hi.linked p (by simp), hret⟩

/-- `SLIST_REMOVE` unlinks the head, or begins to look for the record in front of `p`. -/
theorem mainStep_remove_eq {ok : Bool} {p : ℕ} {tmp : Option ℕ} (hi : s.Inv l)
    (hm : s.main = .code (.remove p tmp)) (h : s.mainStep ok (.remove p tmp) = some t) :
    s.first = some p ∧
        t = { (s.acts [.touch p]).mainAt (.free p tmp) with first := s.next p } ∨
      ∃ c, s.first = some c ∧ s.first ≠ some p ∧ t = s.mainAt (.walk p tmp c) := by
  have hhand := hi.inHand
  rw [hm] at hhand
  obtain ⟨⟨l₁, l₂, rfl, -⟩, -⟩ := hhand
  simp only [mainStep] at h
  by_cases hfirst : s.first = some p
  · rw [if_pos hfirst, Option.some.injEq] at h
    exact Or.inl ⟨hfirst, h.symm⟩
  · rw [if_neg hfirst] at h
    cases hc : s.first with
    | none =>
      have := hi.chain.eq_head
      rw [hc] at this
      cases l₁ <;> simp at this
    | some c =>
      simp only [hc, Option.some.injEq] at h
      exact Or.inr ⟨c, rfl, hc ▸ hfirst, h.symm⟩

/-- It unlinks the record behind `c`, or goes on to that. -/
theorem mainStep_walk_eq {ok : Bool} {p c : ℕ} {tmp : Option ℕ} (hi : s.Inv l)
    (hm : s.main = .code (.walk p tmp c)) (h : s.mainStep ok (.walk p tmp c) = some t) :
    s.next c = some p ∧
        t = { (s.acts [.touch c, .touch p]).mainAt (.free p tmp) with
          next := Function.update s.next c (s.next p) } ∨
      ∃ d, s.next c = some d ∧ s.next c ≠ some p ∧
        t = (s.acts [.touch c]).mainAt (.walk p tmp d) := by
  have hhand := hi.inHand
  rw [hm] at hhand
  obtain ⟨⟨l₁, l₂, l₃, rfl, -⟩, -⟩ := hhand
  simp only [mainStep] at h
  by_cases hnext : s.next c = some p
  · rw [if_pos hnext, Option.some.injEq] at h
    exact Or.inl ⟨hnext, h.symm⟩
  · rw [if_neg hnext] at h
    cases hd : s.next c with
    | none =>
      have := hi.chain.next_eq
      rw [hd] at this
      cases l₂ <;> simp at this
    | some d =>
      simp only [hd, Option.some.injEq] at h
      exact Or.inr ⟨d, rfl, hd ▸ hnext, h.symm⟩

theorem mainStep_remove {ok : Bool} {p : ℕ} {tmp : Option ℕ} (hi : s.Inv l)
    (hm : s.main = .code (.remove p tmp)) (h : s.mainStep ok (.remove p tmp) = some t) :
    t.Inv (s.listAfter l (.remove p tmp)) := by
  have hhand := hi.inHand
  rw [hm] at hhand
  obtain ⟨⟨l₁, l₂, rfl, rfl⟩, hret⟩ := hhand
  have halive := hi.linked p (by simp)
  have hhead := hi.chain.eq_head
  rcases mainStep_remove_eq hi hm h with ⟨hfirst, rfl⟩ | ⟨c, hfirst, hne, rfl⟩
  · have hnil : l₁ = [] := by
      cases l₁ with
      | nil => rfl
      | cons d l₁ =>
        have hnodup := hi.nodup
        obtain rfl : p = d := by simpa [hfirst] using hhead
        simp at hnodup
    subst hnil
    have hlist : s.listAfter ([] ++ p :: l₂) (.remove p l₂.head?) = [] ++ l₂ := by
      simp [listAfter, hfirst]
    rw [hlist]
    exact hi.main_unlinks hi.chain.tail rfl rfl rfl (plain_touch halive.2)
      (by simp [hm, unlinking]) (hi.free_inHand hret)
  · rw [listAfter, if_neg hne]
    have hcons : ∃ l₀, l₁ = c :: l₀ := by
      cases l₁ with
      | nil => exact absurd hhead hne
      | cons d l₀ =>
        obtain rfl : c = d := by simpa [hfirst] using hhead
        exact ⟨l₀, rfl⟩
    obtain ⟨l₀, rfl⟩ := hcons
    exact hi.main_moves ⟨rfl, rfl, rfl⟩ rfl (List.append_nil _).symm plain_nil
      (by rw [hm]; exact fun _ hq => hq) ⟨⟨[], l₀, l₂, rfl, rfl⟩, hret⟩

theorem mainStep_walk {ok : Bool} {p c : ℕ} {tmp : Option ℕ} (hi : s.Inv l)
    (hm : s.main = .code (.walk p tmp c)) (h : s.mainStep ok (.walk p tmp c) = some t) :
    t.Inv (s.listAfter l (.walk p tmp c)) := by
  have hhand := hi.inHand
  rw [hm] at hhand
  obtain ⟨⟨l₁, l₂, l₃, rfl, rfl⟩, hret⟩ := hhand
  have hc := (hi.linked c (by simp)).2
  have hp := (hi.linked p (by simp)).2
  have hhead := hi.chain.next_eq
  rcases mainStep_walk_eq hi hm h with ⟨hnext, rfl⟩ | ⟨d, hnext, hne, rfl⟩
  · have hnil : l₂ = [] := by
      cases l₂ with
      | nil => rfl
      | cons d l₂ =>
        have hnodup := hi.nodup
        obtain rfl : p = d := by simpa [hnext] using hhead
        simp [List.nodup_append] at hnodup
    subst hnil
    have hsplit : l₁ ++ c :: ([] ++ p :: l₃) = (l₁ ++ [c]) ++ p :: l₃ := by simp
    have hlist : s.listAfter (l₁ ++ c :: ([] ++ p :: l₃)) (.walk p l₃.head? c) =
        (l₁ ++ [c]) ++ l₃ := by
      have hnodup := hi.nodup
      rw [hsplit] at hnodup ⊢
      simp only [listAfter, if_pos hnext, erase_middle hnodup]
    have hchain : Chain (Function.update s.next c (s.next p)) s.first (l₁ ++ [c] ++ l₃) := by
      simpa using hi.chain.removeAfter hi.nodup
    rw [hlist]
    rw [hsplit] at hi
    refine hi.main_unlinks hchain rfl rfl rfl (fun a ha => ?_)
      (by simp [hm, unlinking]) (hi.free_inHand hret)
    simp only [List.mem_cons, List.not_mem_nil, or_false] at ha
    rcases ha with rfl | rfl
    · exact Or.inl ⟨c, rfl, hc⟩
    · exact Or.inl ⟨p, rfl, hp⟩
  · rw [listAfter, if_neg hne]
    have hcons : ∃ l₀, l₂ = d :: l₀ := by
      cases l₂ with
      | nil => exact absurd hhead hne
      | cons e l₀ =>
        obtain rfl : d = e := by simpa [hnext] using hhead
        exact ⟨l₀, rfl⟩
    obtain ⟨l₀, rfl⟩ := hcons
    exact hi.main_moves ⟨rfl, rfl, rfl⟩ rfl rfl (plain_touch hc)
      (by rw [hm]; exact fun _ hq => hq) ⟨⟨l₁ ++ [c], l₀, l₃, by simp, rfl⟩, hret⟩

theorem mainStep_free {ok : Bool} {p : ℕ} {tmp : Option ℕ} (hi : s.Inv l)
    (hm : s.main = .code (.free p tmp)) (h : s.mainStep ok (.free p tmp) = some t) :
    t.Inv (s.listAfter l (.free p tmp)) := by
  have hhand := hi.inHand
  rw [hm] at hhand
  obtain ⟨htmp, hpl, halive, hret⟩ := hhand
  simp only [mainStep, Option.some.injEq] at h
  subst h
  exact hi.main_frees ⟨rfl, rfl, rfl⟩ rfl rfl hpl halive hret (by rw [hm]; rfl) htmp

/-- **A statement of `main`.** -/
theorem mainStep_inv {ok : Bool} {pc : MainPc} (hi : s.Inv l) (hm : s.main = .code pc)
    (h : s.mainStep ok pc = some t) : t.Inv (s.listAfter l pc) := by
  cases pc with
  | accept => exact mainStep_accept hi hm h
  | malloc => exact mainStep_malloc hi hm h
  | fill p => exact mainStep_fill hi hm h
  | create p => exact mainStep_create hi hm h
  | insert p => exact mainStep_insert hi hm h
  | first => exact mainStep_first hi hm h
  | test c => exact mainStep_test hi hm h
  | check p tmp => exact mainStep_check hi hm h
  | join p tmp => exact mainStep_join hi hm h
  | joining p tmp => exact mainStep_joining hi hm h
  | remove p tmp => exact mainStep_remove hi hm h
  | walk p tmp c => exact mainStep_walk hi hm h
  | free p tmp => exact mainStep_free hi hm h

/-- **A statement of the `cleanup` of `main`.** -/
theorem cleanupStep_inv {pc : CleanupPc} (hi : s.Inv l) (hm : s.main = .cleanup pc)
    (h : s.cleanupStep .main pc = some t) : ∃ l', t.Inv l' := by
  have hhand := hi.inHand
  have hnone : unlinking s.main = none := by rw [hm]; rfl
  have hunlink : ∀ {m : Pos MainPc} q, unlinking s.main = some q → unlinking m = some q := by
    simp [hnone]
  rw [hm] at hhand
  cases pc with
  | test =>
    simp only [cleanupStep, Option.some.injEq] at h
    subst h
    refine ⟨l, hi.main_moves ⟨rfl, rfl, rfl⟩ rfl (List.append_nil _).symm plain_nil
      hunlink ?_⟩
    have hfirst := hi.chain.eq_head
    by_cases hnil : s.first = none
    · simp [cleanupAt, hnil, InHand]
    · have hne : l ≠ [] := by
        rintro rfl
        exact hnil hfirst
      simpa [cleanupAt, hnil, InHand] using hne
  | first =>
    obtain ⟨p, l, rfl⟩ := List.exists_cons_of_ne_nil hhand
    simp only [cleanupStep, Option.some.injEq] at h
    subst h
    exact ⟨_, hi.main_moves ⟨rfl, rfl, rfl⟩ rfl (List.append_nil _).symm plain_nil
      hunlink ⟨p, l, hi.chain.eq_head, rfl⟩⟩
  | removeHead c =>
    obtain ⟨p, l, rfl, rfl⟩ := hhand
    have hfirst : s.first = some p := hi.chain.eq_head
    simp only [cleanupStep, hfirst, Option.some.injEq] at h
    subst h
    have halive := hi.linked p (by simp)
    have hun := hi.unpassed hnone (p := p) (by simp)
    have hi : s.Inv ([] ++ p :: l) := hi
    exact ⟨[] ++ l, hi.main_unlinks hi.chain.tail rfl rfl rfl (plain_touch halive.2)
      (by simp [hnone]) fun hp => ⟨p, rfl, hp, halive, hun⟩⟩
  | join c =>
    obtain ⟨p, rfl, hpl, halive, hun⟩ := hhand
    simp only [cleanupStep, if_neg hun.not_joinFails, Option.some.injEq] at h
    subst h
    exact ⟨l, hi.main_passes ⟨rfl, rfl, rfl⟩ rfl rfl halive hun hnone (fun hp => absurd hp hpl)
      ⟨hpl, halive.1, fun hf => halive.2 (by simpa [acts, cleanupAt] using hf)⟩⟩
  | joining p =>
    simp only [cleanupStep] at h
    split_ifs at h with hret
    rw [Option.some.injEq] at h
    subst h
    exact ⟨l, hi.main_moves ⟨rfl, rfl, rfl⟩ rfl rfl plain_joined hunlink ⟨hhand.1, hhand.2, hret⟩⟩
  | free p =>
    simp only [cleanupStep, Option.some.injEq] at h
    subst h
    exact ⟨l, hi.main_frees ⟨rfl, rfl, rfl⟩ rfl rfl hhand.1 hhand.2.1 hhand.2.2 hnone trivial⟩
  | exit =>
    simp only [cleanupStep, Option.some.injEq] at h
    subst h
    exact ⟨l, ⟨hi.chain, hi.nodup, hi.linked, hi.passed, hi.unborn, hi.untouched, hi.freed,
      hi.handlers, hi.inHand, hi.sound⟩⟩

/-- A statement of a handler. -/
theorem handlerStep_inv {p : ℕ} {pc : HandlerPc} (hi : s.Inv l)
    (hp : s.handler p = some (.code pc)) (h : s.handlerStep p pc = some t) : t.Inv l := by
  cases pc with
  | start =>
    simp only [handlerStep, Option.some.injEq] at h
    subst h
    exact hi.handler_moves hp (by simp) (by simp) ⟨rfl, rfl, rfl⟩ rfl rfl rfl (by simp)
  | work =>
    simp only [handlerStep, Option.some.injEq] at h
    subst h
    exact hi.handler_moves hp (by simp) (by simp) ⟨rfl, rfl, rfl⟩ rfl rfl rfl (by simp)
  | finished =>
    simp only [handlerStep, Option.some.injEq] at h
    subst h
    exact hi.handler_moves hp (by simp) (by simp) ⟨rfl, rfl, rfl⟩ rfl rfl
      (List.append_nil _).symm (by simp)
  | returned => simp [handlerStep] at h

/-- A handler goes to the beginning or to the end of `cleanup`. -/
theorem Inv.handler_cleanup (hi : s.Inv l) {p : ℕ} {x : Pos HandlerPc}
    (hx : s.handler p = some x) (hreturned : x ≠ .code .returned) {c : CleanupPc}
    (hc : c = .test ∨ c = .exit) : (s.cleanupAt c (.handler p)).Inv l :=
  hi.handler_moves hx hreturned (by simpa using hc) ⟨rfl, rfl, rfl⟩ rfl rfl
    (List.append_nil _).symm (by simp)

theorem Inv.exits (hi : s.Inv l) : s.exits.Inv l :=
  ⟨hi.chain, hi.nodup, hi.linked, hi.passed, hi.unborn, hi.untouched, hi.freed, hi.handlers,
    hi.inHand, hi.sound⟩

/-- **A careful step** keeps what holds of the list. -/
theorem step_inv {e : ThreadEvent} (hi : s.Inv l) (h : s.step e = some t)
    (hc : Careful ⟨s, e, t⟩) : ∃ l', t.Inv l' := by
  unfold step at h
  split_ifs at h with hexited
  obtain ⟨hsignal, hempty⟩ := hc
  cases e with
  | main ok =>
    cases hm : s.main with
    | code pc =>
      simp only [hm] at h
      exact ⟨_, mainStep_inv hi hm h⟩
    | cleanup pc => simp [hm] at h
  | handler p =>
    rcases hp : s.handler p with _ | pc | pc <;> simp only [hp, reduceCtorEq] at h
    exact ⟨l, handlerStep_inv hi hp h⟩
  | error p =>
    rcases hp : s.handler p with _ | pc | pc <;> simp only [hp, reduceCtorEq] at h
    cases pc <;> simp only [reduceCtorEq, Option.some.injEq] at h
    subst h
    exact ⟨l, hi.handler_cleanup hp (by simp) (Or.inl rfl)⟩
  | quit p =>
    rcases hp : s.handler p with _ | pc | pc <;> simp only [hp, reduceCtorEq] at h
    cases pc <;> simp only [reduceCtorEq, Option.some.injEq] at h
    subst h
    exact ⟨l, hi.exits⟩
  | signal u =>
    cases u with
    | main =>
      simp only [Option.some.injEq] at h
      subst h
      have hnone := hsignal rfl
      exact ⟨l, hi.main_moves ⟨rfl, rfl, rfl⟩ rfl (List.append_nil _).symm plain_nil
        (by simp [hnone]) trivial⟩
    | handler p =>
      rcases hp : s.handler p with _ | x <;> simp only [hp, reduceCtorEq] at h
      have hreturned : x ≠ .code .returned := by
        rintro rfl
        simp at h
      have ht : s.cleanupAt .test (.handler p) = t := by
        rcases x with pc | pc
        · cases pc with
          | returned => exact absurd rfl hreturned
          | start | work | finished => simpa using h
        · simpa using h
      subst ht
      exact ⟨l, hi.handler_cleanup hp hreturned (Or.inl rfl)⟩
  | cleanup u =>
    cases u with
    | main =>
      cases hm : s.main with
      | code pc => simp [hm] at h
      | cleanup pc =>
        simp only [hm] at h
        exact cleanupStep_inv hi hm h
    | handler p =>
      rcases hp : s.handler p with _ | pc | pc <;> simp only [hp, reduceCtorEq] at h
      rcases hi.handlers p pc hp with rfl | rfl
      · -- the list is empty, and `cleanup` goes straight to the end
        have hnil := hempty p rfl hp
        simp only [cleanupStep, Option.some.injEq] at h
        subst h
        exact ⟨l, hi.handler_cleanup hp (by simp) (Or.inr (if_pos hnil))⟩
      · simp only [cleanupStep, Option.some.injEq] at h
        subst h
        exact ⟨l, hi.exits⟩

/-- **Every careful run.** -/
theorem run_inv {es : List ThreadEvent} (h : Exec.run step start es = some t) :
    (∀ x ∈ Exec.trace step start es, Careful x) → ∃ l, t.Inv l := by
  refine Exec.run_induction (I := fun es t => (∀ x ∈ Exec.trace step start es, Careful x) →
    ∃ l, t.Inv l) (fun _ => ⟨[], start_inv⟩) ?_ h
  intro es s e t hrun ih hstep hc
  rw [Exec.trace_concat hrun hstep] at hc
  obtain ⟨l, hi⟩ := ih fun x hx => hc x (List.mem_append_left _ hx)
  exact step_inv hi hstep (hc _ (List.mem_append_right _ List.mem_cons_self))

end Step

end Threads

end Aesd
