import Aesd.Server.Threads

/-!
# What is done to the records of the threads

`Sound` is what should hold of everything that is done to the records.  It fails if `cleanup` takes
a record from `thread_list` that somebody still works on.  `main` unlinks a record only after it has
joined its thread, so a signal in between makes `cleanup` join it again; and a handler in `cleanup`
sooner or later joins itself.  A step is `Careful` if it is neither.

* `Inv`: what holds of the list, of the records and of the one that `main` has in hand;
* `Inv.main_moves`, `Inv.main_unlinks`, `Inv.main_passes`, `Inv.main_frees`, `Inv.handler_moves`:
  the kinds of steps that keep it.
-/

namespace Aesd

open LinkedList

/-- The record that is passed to `pthread_join`. -/
def Action.passedRecord : Action → Option ℕ
  | .passed _ p => some p
  | .touch _ | .joined _ | .freed _ | .null => none

/-- No thread is joined twice or joins itself, nothing is done to a record after it has been freed,
and no null pointer is followed. -/
structure Sound (log : List Action) : Prop where
  join_once : (log.filterMap Action.passedRecord).Nodup
  not_self : ∀ p, .passed (.handler p) p ∉ log
  not_after_free : log.Pairwise fun a b => ∀ p, a = .freed p → b.record ≠ some p
  not_null : .null ∉ log

/-- What may be done next. -/
def Action.Ok (log : List Action) : Action → Prop
  | .touch p => .freed p ∉ log
  | .passed t p => t ≠ .handler p ∧ (∀ t', .passed t' p ∉ log) ∧ .freed p ∉ log
  | .joined _ => True
  | .freed p => .freed p ∉ log
  | .null => False

section Sound

variable {log : List Action} {a : Action}

theorem sound_nil : Sound [] where
  join_once := List.nodup_nil
  not_self _ := List.not_mem_nil
  not_after_free := List.Pairwise.nil
  not_null := List.not_mem_nil

theorem mem_passedRecord {p : ℕ} :
    p ∈ log.filterMap Action.passedRecord ↔ ∃ t, .passed t p ∈ log := by
  rw [List.mem_filterMap]
  constructor
  · rintro ⟨a, ha, h⟩
    cases a <;> simp [Action.passedRecord] at h
    subst h
    exact ⟨_, ha⟩
  · rintro ⟨t, ht⟩
    exact ⟨_, ht, rfl⟩

theorem Action.Ok.not_freed (h : a.Ok log) {p : ℕ} (hp : a.record = some p) : .freed p ∉ log := by
  cases a <;> simp only [record, reduceCtorEq, Option.some.injEq] at hp <;> subst hp
  · exact h
  · exact h.2.2
  · exact h

/-- One action more. -/
theorem Sound.concat (h : Sound log) (ha : a.Ok log) : Sound (log ++ [a]) where
  join_once := by
    rw [List.filterMap_append]
    refine List.nodup_append'.2 ⟨h.join_once, ?_, ?_⟩
    · cases a <;> simp [Action.passedRecord, List.filterMap]
    · intro p hp hpa
      obtain ⟨t, ht⟩ := mem_passedRecord.1 hp
      obtain ⟨t', ht'⟩ := mem_passedRecord.1 hpa
      rw [List.mem_singleton] at ht'
      subst ht'
      exact ha.2.1 t ht
  not_self p hp := by
    rcases List.mem_append.1 hp with hp | hp
    · exact h.not_self p hp
    · rw [List.mem_singleton] at hp
      subst hp
      exact ha.1 rfl
  not_after_free := by
    refine List.pairwise_append.2 ⟨h.not_after_free, List.pairwise_singleton .., ?_⟩
    rintro b hb c hc p rfl hp
    rw [List.mem_singleton] at hc
    subst hc
    exact ha.not_freed hp hb
  not_null hn := by
    rcases List.mem_append.1 hn with hn | hn
    · exact h.not_null hn
    · rw [List.mem_singleton] at hn
      subst hn
      exact ha

end Sound

namespace Threads

/-- The record whose thread `main` has passed to `pthread_join` and that it has not unlinked. -/
def unlinking : Pos MainPc → Option ℕ
  | .code (.joining p _) | .code (.remove p _) | .code (.walk p _ _) => some p
  | _ => none

/-- A step that does not let `cleanup` run into somebody's work: no signal comes to `main` between
`pthread_join` and the unlinking, and the `cleanup` of a handler finds the list empty. -/
def Careful (x : Exec.Trans Threads ThreadEvent) : Prop :=
  (x.event = .signal .main → unlinking x.before.main = none) ∧
  ∀ p, x.event = .cleanup (.handler p) → x.before.handler p = some (.cleanup .test) →
    x.before.first = none

/-- A record whose thread has been started and that has not been freed. -/
def Alive (s : Threads) (p : ℕ) : Prop := (s.handler p).isSome = true ∧ .freed p ∉ s.log

/-- A thread that has not been passed to `pthread_join`. -/
def Unpassed (s : Threads) (p : ℕ) : Prop := ∀ t, .passed t p ∉ s.log

/-- What `main` knows of the record it has in hand, and of the saved successor, when `l` is the
list. -/
def InHand (s : Threads) (l : List ℕ) : Pos MainPc → Prop
  | .code .accept | .code .malloc | .code .first | .cleanup .test | .cleanup .exit => True
  | .code (.fill p) | .code (.create p) => p < s.count ∧ s.handler p = none
  | .code (.insert p) => p ∉ l ∧ s.Alive p ∧ s.Unpassed p
  | .code (.test c) => ∃ l₁ l₂, l = l₁ ++ l₂ ∧ c = l₂.head?
  | .code (.check p tmp) | .code (.join p tmp) | .code (.joining p tmp) =>
    ∃ l₁ l₂, l = l₁ ++ p :: l₂ ∧ tmp = l₂.head?
  | .code (.remove p tmp) =>
    (∃ l₁ l₂, l = l₁ ++ p :: l₂ ∧ tmp = l₂.head?) ∧ s.handler p = some (.code .returned)
  | .code (.walk p tmp c) =>
    (∃ l₁ l₂ l₃, l = l₁ ++ c :: (l₂ ++ p :: l₃) ∧ tmp = l₃.head?) ∧
      s.handler p = some (.code .returned)
  | .code (.free p tmp) =>
    (∃ l₁ l₂, l = l₁ ++ l₂ ∧ tmp = l₂.head?) ∧ p ∉ l ∧ s.Alive p ∧
      s.handler p = some (.code .returned)
  | .cleanup .first => l ≠ []
  | .cleanup (.removeHead c) => ∃ p l', c = some p ∧ l = p :: l'
  | .cleanup (.join c) => ∃ p, c = some p ∧ p ∉ l ∧ s.Alive p ∧ s.Unpassed p
  | .cleanup (.joining p) => p ∉ l ∧ s.Alive p
  | .cleanup (.free p) => p ∉ l ∧ s.Alive p ∧ s.handler p = some (.code .returned)

/-- What holds in a careful run when `l` is the list. -/
structure Inv (s : Threads) (l : List ℕ) : Prop where
  chain : Chain s.next s.first l
  nodup : l.Nodup
  linked : ∀ p ∈ l, s.Alive p
  passed : ∀ p ∈ l, ∀ t, .passed t p ∈ s.log → unlinking s.main = some p
  unborn : ∀ p, s.count ≤ p → s.handler p = none
  untouched : ∀ p, s.handler p = none → .freed p ∉ s.log ∧ s.Unpassed p
  freed : ∀ p, .freed p ∈ s.log → s.handler p = some (.code .returned)
  handlers : ∀ p c, s.handler p = some (.cleanup c) → c = .test ∨ c = .exit
  inHand : s.InHand l s.main
  sound : Sound s.log

theorem start_inv : start.Inv [] where
  chain := Chain.nil
  nodup := List.nodup_nil
  linked p hp := by simp at hp
  passed p hp := by simp at hp
  unborn p _ := rfl
  untouched p _ := ⟨List.not_mem_nil, fun t => List.not_mem_nil⟩
  freed p hp := by simp [start] at hp
  handlers p c hc := by simp [start] at hc
  inHand := trivial
  sound := sound_nil

section Moves

variable {s t : Threads} {l : List ℕ} {as : List Action}

/-- Actions that do not change what is known of any record. -/
def Plain (s : Threads) (as : List Action) : Prop :=
  ∀ a ∈ as, (∃ p, a = .touch p ∧ .freed p ∉ s.log) ∨ ∃ p, a = .joined p

theorem Plain.freed_iff (has : s.Plain as) {p : ℕ} : .freed p ∈ s.log ++ as ↔ .freed p ∈ s.log := by
  rw [List.mem_append]
  refine or_iff_left fun h => ?_
  rcases has _ h with ⟨q, hq, -⟩ | ⟨q, hq⟩ <;> simp at hq

theorem Plain.passed_iff (has : s.Plain as) {t : Tid} {p : ℕ} :
    .passed t p ∈ s.log ++ as ↔ .passed t p ∈ s.log := by
  rw [List.mem_append]
  refine or_iff_left fun h => ?_
  rcases has _ h with ⟨q, hq, -⟩ | ⟨q, hq⟩ <;> simp at hq

theorem Plain.sound (has : s.Plain as) (h : Sound s.log) : Sound (s.log ++ as) := by
  induction as using List.reverseRecOn with
  | nil => simpa using h
  | append_singleton as a ih =>
    have has' : s.Plain as := fun b hb => has b (List.mem_append_left _ hb)
    rw [← List.append_assoc]
    refine (ih has').concat ?_
    rcases has a (List.mem_append_right _ List.mem_cons_self) with ⟨p, rfl, hp⟩ | ⟨p, rfl⟩
    · exact fun hf => hp (has'.freed_iff.1 hf)
    · trivial

/-- The list and the number of the records stay the same. -/
def SameList (s t : Threads) : Prop :=
  t.first = s.first ∧ t.next = s.next ∧ t.count = s.count

/-- What is in hand depends on where the handlers are and on which records have been freed and
passed. -/
theorem InHand.congr {m : Pos MainPc} (h : s.InHand l m) (hcount : t.count = s.count)
    (hnone : ∀ p, s.handler p = none → t.handler p = none)
    (hsome : ∀ p, (s.handler p).isSome = true → (t.handler p).isSome = true)
    (hreturned : ∀ p, s.handler p = some (.code .returned) → t.handler p = some (.code .returned))
    (hfreed : ∀ p, .freed p ∈ t.log → .freed p ∈ s.log)
    (hpassed : ∀ u p, .passed u p ∈ t.log → .passed u p ∈ s.log) : t.InHand l m := by
  have halive : ∀ p, s.Alive p → t.Alive p := fun p hp =>
    ⟨hsome p hp.1, fun hf => hp.2 (hfreed p hf)⟩
  have hunpassed : ∀ p, s.Unpassed p → t.Unpassed p := fun p hp u hu => hp u (hpassed u p hu)
  rcases m with pc | pc <;> cases pc <;> simp only [InHand] at h ⊢
  case code.fill p | code.create p => exact ⟨hcount ▸ h.1, hnone p h.2⟩
  case code.insert p => exact ⟨h.1, halive p h.2.1, hunpassed p h.2.2⟩
  case code.remove p tmp | code.walk p tmp c => exact ⟨h.1, hreturned p h.2⟩
  case code.free p tmp => exact ⟨h.1, h.2.1, halive p h.2.2.1, hreturned p h.2.2.2⟩
  case cleanup.join c =>
    obtain ⟨p, hc, hp, hpa, hpu⟩ := h
    exact ⟨p, hc, hp, halive p hpa, hunpassed p hpu⟩
  case cleanup.joining p => exact ⟨h.1, halive p h.2⟩
  case cleanup.free p => exact ⟨h.1, halive p h.2.1, hreturned p h.2.2⟩
  all_goals exact h

/-- A step that leaves the handlers where they are.  The records of the list it leaves, and what it
has done to them, are all that is to be looked at. -/
theorem Inv.main_step (h : s.Inv l) {l' : List ℕ} (hchain : Chain t.next t.first l')
    (hnodup : l'.Nodup) (hlinked : ∀ p ∈ l', s.Alive p ∧ .freed p ∉ t.log)
    (hpassed : ∀ p ∈ l', ∀ u, .passed u p ∈ t.log → unlinking t.main = some p)
    (hcount : s.count ≤ t.count) (hhandler : t.handler = s.handler)
    (hfreed : ∀ p, .freed p ∈ t.log → .freed p ∈ s.log ∨ s.handler p = some (.code .returned))
    (hstarted : ∀ u p, .passed u p ∈ t.log → .passed u p ∈ s.log ∨ (s.handler p).isSome = true)
    (hhand : t.InHand l' t.main) (hsound : Sound t.log) : t.Inv l' where
  chain := hchain
  nodup := hnodup
  linked p hp := ⟨by rw [hhandler]; exact (hlinked p hp).1.1, (hlinked p hp).2⟩
  passed := hpassed
  unborn p hp := by
    rw [hhandler]
    exact h.unborn p (hcount.trans hp)
  untouched p hp := by
    rw [hhandler] at hp
    have hnone := h.untouched p hp
    refine ⟨fun hf => ?_, fun u hu => ?_⟩
    · rcases hfreed p hf with hf | hret
      · exact hnone.1 hf
      · simp [hp] at hret
    · rcases hstarted u p hu with hu | hsome
      · exact hnone.2 u hu
      · simp [hp] at hsome
  freed p hp := by
    rw [hhandler]
    exact (hfreed p hp).elim (h.freed p) id
  handlers p c hc := by
    rw [hhandler] at hc
    exact h.handlers p c hc
  inHand := hhand
  sound := hsound

/-- The same for a step that frees no record and passes none to `pthread_join`. -/
theorem Inv.main_plain (h : s.Inv l) {l' : List ℕ} (hchain : Chain t.next t.first l')
    (hnodup : l'.Nodup) (hlinked : ∀ p ∈ l', s.Alive p)
    (hpassed : ∀ p ∈ l', ∀ u, .passed u p ∈ s.log → unlinking t.main = some p)
    (hcount : t.count = s.count) (hhandler : t.handler = s.handler)
    (hlog : t.log = s.log ++ as) (has : s.Plain as) (hhand : s.InHand l' t.main) : t.Inv l' := by
  have hfreed : ∀ p, .freed p ∈ t.log ↔ .freed p ∈ s.log := fun p => by rw [hlog, has.freed_iff]
  have hpassed' : ∀ u p, .passed u p ∈ t.log ↔ .passed u p ∈ s.log := fun u p => by
    rw [hlog, has.passed_iff]
  refine h.main_step hchain hnodup
    (fun p hp => ⟨hlinked p hp, fun hf => (hlinked p hp).2 ((hfreed p).1 hf)⟩)
    (fun p hp u hu => hpassed p hp u ((hpassed' u p).1 hu)) hcount.ge hhandler
    (fun p hf => Or.inl ((hfreed p).1 hf)) (fun u p hu => Or.inl ((hpassed' u p).1 hu)) ?_ ?_
  · refine hhand.congr hcount ?_ ?_ ?_ (fun p => (hfreed p).1) (fun u p => (hpassed' u p).1) <;>
      rw [hhandler] <;> exact fun _ hp => hp
  · rw [hlog]
    exact has.sound h.sound

/-- `main` goes on, and nothing happens to the list. -/
theorem Inv.main_moves (h : s.Inv l)
    (hsame : s.SameList t) (hhandler : t.handler = s.handler)
    (hlog : t.log = s.log ++ as) (has : s.Plain as)
    (hunlink : ∀ p, unlinking s.main = some p → unlinking t.main = some p)
    (hhand : s.InHand l t.main) : t.Inv l := by
  obtain ⟨hfirst, hnext, hcount⟩ := hsame
  have hchain : Chain t.next t.first l := by
    rw [hfirst, hnext]
    exact h.chain
  exact h.main_plain hchain h.nodup h.linked
    (fun p hp u hu => hunlink p (h.passed p hp u hu)) hcount hhandler hlog has hhand

/-- `main` unlinks a record. -/
theorem Inv.main_unlinks {l₁ l₂ : List ℕ} {p : ℕ} (h : s.Inv (l₁ ++ p :: l₂))
    (hchain : Chain t.next t.first (l₁ ++ l₂)) (hcount : t.count = s.count)
    (hhandler : t.handler = s.handler) (hlog : t.log = s.log ++ as) (has : s.Plain as)
    (hunlink : ∀ q, unlinking s.main = some q → q = p)
    (hhand : p ∉ l₁ ++ l₂ → s.InHand (l₁ ++ l₂) t.main) : t.Inv (l₁ ++ l₂) := by
  obtain ⟨hp, hnodup⟩ := List.nodup_middle.1 h.nodup |> List.nodup_cons.1
  have hmem : ∀ q, q ∈ l₁ ++ l₂ → q ∈ l₁ ++ p :: l₂ := by
    intro q hq
    simp only [List.mem_append, List.mem_cons] at hq ⊢
    exact hq.imp_right Or.inr
  refine h.main_plain hchain hnodup (fun q hq => h.linked q (hmem q hq)) (fun q hq u hu => ?_)
    hcount hhandler hlog has (hhand hp)
  have hqp := hunlink q (h.passed q (hmem q hq) u hu)
  exact absurd (hqp ▸ hq) hp

/-- A thread in the list has not been passed to `pthread_join` before. -/
theorem Inv.unpassed (h : s.Inv l) (hnone : unlinking s.main = none) {p : ℕ} (hp : p ∈ l) :
    s.Unpassed p := by
  intro u hu
  have hunlinking := h.passed p hp u hu
  rw [hnone] at hunlinking
  simp at hunlinking

/-- `main` passes a thread to `pthread_join`. -/
theorem Inv.main_passes (h : s.Inv l) {p : ℕ} (hsame : s.SameList t)
    (hhandler : t.handler = s.handler) (hlog : t.log = s.log ++ [.passed .main p])
    (halive : s.Alive p) (hun : s.Unpassed p) (hnone : unlinking s.main = none)
    (hlink : p ∈ l → unlinking t.main = some p) (hhand : t.InHand l t.main) : t.Inv l := by
  obtain ⟨hfirst, hnext, hcount⟩ := hsame
  have hchain : Chain t.next t.first l := by
    rw [hfirst, hnext]
    exact h.chain
  have hfreed : ∀ q, .freed q ∈ t.log ↔ .freed q ∈ s.log := fun q => by rw [hlog]; simp
  have hpassed : ∀ u q, .passed u q ∈ t.log → .passed u q ∈ s.log ∨ q = p := by
    intro u q hu
    rw [hlog] at hu
    simp only [List.mem_append, List.mem_singleton, Action.passed.injEq] at hu
    exact hu.imp_right And.right
  refine h.main_step hchain h.nodup
    (fun q hq => ⟨h.linked q hq, fun hf => (h.linked q hq).2 ((hfreed q).1 hf)⟩)
    (fun q hq u hu => ?_) hcount.ge hhandler (fun q hf => Or.inl ((hfreed q).1 hf))
    (fun u q hu => ?_) hhand ?_
  · rcases hpassed u q hu with hu | rfl
    · exact absurd hu (h.unpassed hnone hq u)
    · exact hlink hq
  · refine (hpassed u q hu).imp_right ?_
    rintro rfl
    exact halive.1
  · rw [hlog]
    exact h.sound.concat ⟨by simp, hun, halive.2⟩

/-- `main` frees a record that it has taken from the list, after its thread has returned. -/
theorem Inv.main_frees (h : s.Inv l) {p : ℕ} (hsame : s.SameList t)
    (hhandler : t.handler = s.handler) (hlog : t.log = s.log ++ [.freed p]) (hp : p ∉ l)
    (halive : s.Alive p) (hreturned : s.handler p = some (.code .returned))
    (hnone : unlinking s.main = none) (hhand : t.InHand l t.main) : t.Inv l := by
  obtain ⟨hfirst, hnext, hcount⟩ := hsame
  have hchain : Chain t.next t.first l := by
    rw [hfirst, hnext]
    exact h.chain
  have hfreed : ∀ q, .freed q ∈ t.log → .freed q ∈ s.log ∨ q = p := fun q hq => by
    rw [hlog] at hq
    simpa using hq
  have hpassed : ∀ u q, .passed u q ∈ t.log ↔ .passed u q ∈ s.log := fun u q => by rw [hlog]; simp
  refine h.main_step hchain h.nodup (fun q hq => ⟨h.linked q hq, fun hf => ?_⟩)
    (fun q hq u hu => absurd ((hpassed u q).1 hu) (h.unpassed hnone hq u)) hcount.ge hhandler
    (fun q hf => ?_) (fun u q hu => Or.inl ((hpassed u q).1 hu)) hhand ?_
  · rcases hfreed q hf with hf | rfl
    · exact (h.linked q hq).2 hf
    · exact hp hq
  · refine (hfreed q hf).imp_right ?_
    rintro rfl
    exact hreturned
  · rw [hlog]
    exact h.sound.concat halive.2

/-- A handler that has not returned goes on. -/
theorem Inv.handler_moves (h : s.Inv l) {p : ℕ} {x y : Pos HandlerPc} (hx : s.handler p = some x)
    (hreturned : x ≠ .code .returned) (hy : ∀ c, y = .cleanup c → c = .test ∨ c = .exit)
    (hsame : s.SameList t) (hmain : t.main = s.main)
    (hhandler : t.handler = Function.update s.handler p (some y)) (hlog : t.log = s.log ++ as)
    (has : ∀ a ∈ as, a = .touch p) : t.Inv l := by
  obtain ⟨hfirst, hnext, hcount⟩ := hsame
  have hp : .freed p ∉ s.log := by
    intro hf
    rw [h.freed p hf, Option.some.injEq] at hx
    exact hreturned hx.symm
  have has : s.Plain as := fun a ha => Or.inl ⟨p, has a ha, hp⟩
  have hfreed : ∀ q, .freed q ∈ t.log ↔ .freed q ∈ s.log := fun q => by rw [hlog, has.freed_iff]
  have hpassed : ∀ u q, .passed u q ∈ t.log ↔ .passed u q ∈ s.log := fun u q => by
    rw [hlog, has.passed_iff]
  have hother : ∀ q, q ≠ p → t.handler q = s.handler q := by
    intro q hq
    rw [hhandler, Function.update_of_ne hq]
  have hself : t.handler p = some y := by rw [hhandler, Function.update_self]
  have hsome : ∀ q, (s.handler q).isSome = true → (t.handler q).isSome = true := by
    intro q hq
    rcases eq_or_ne q p with rfl | hne
    · rw [hself]; rfl
    · rwa [hother q hne]
  have hnone : ∀ q, s.handler q = none ↔ t.handler q = none := by
    intro q
    rcases eq_or_ne q p with rfl | hne
    · simp [hself, hx]
    · rw [hother q hne]
  have hret : ∀ q, s.handler q = some (.code .returned) → t.handler q = some (.code .returned) := by
    intro q hq
    have hne : q ≠ p := by
      rintro rfl
      rw [hq, Option.some.injEq] at hx
      exact hreturned hx.symm
    rwa [hother q hne]
  refine ⟨by rw [hfirst, hnext]; exact h.chain, h.nodup, fun q hq => ?_, fun q hq u hu => ?_,
    fun q hq => ?_, fun q hq => ?_, fun q hq => ?_, fun q c hc => ?_, ?_, ?_⟩
  · exact ⟨hsome q (h.linked q hq).1, fun hf => (h.linked q hq).2 ((hfreed q).1 hf)⟩
  · rw [hmain]
    exact h.passed q hq u ((hpassed u q).1 hu)
  · exact (hnone q).1 (h.unborn q (hcount ▸ hq))
  · have hq := h.untouched q ((hnone q).2 hq)
    exact ⟨fun hf => hq.1 ((hfreed q).1 hf), fun u hu => hq.2 u ((hpassed u q).1 hu)⟩
  · exact hret q (h.freed q ((hfreed q).1 hq))
  · rcases eq_or_ne q p with rfl | hne
    · rw [hself, Option.some.injEq] at hc
      exact hy c hc
    · rw [hother q hne] at hc
      exact h.handlers q c hc
  · rw [hmain]
    exact h.inHand.congr hcount (fun q => (hnone q).1) hsome hret (fun q => (hfreed q).1)
      (fun u q => (hpassed u q).1)
  · rw [hlog]
    exact has.sound h.sound

end Moves

end Threads

end Aesd
