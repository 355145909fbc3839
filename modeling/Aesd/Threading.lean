import Aesd.Lib.BlockLedger
import Aesd.Lib.Progress

/-!
# Threads that obtain a mutex (`examples/threading`)

`start_thread_obtaining_mutex` allocates a `struct thread_data` and starts a thread with it; the
thread waits, locks the mutex, waits, unlocks it, and returns the structure to the one who joins it,
who looks at `thread_complete_success` and frees it.  A thread is numbered by the block of its
`thread_data`.  The caller may lock mutexes as well.

`threadfunc` does not look at what `pthread_mutex_lock` and `pthread_mutex_unlock` return.  A
default mutex is unlocked by whoever calls `pthread_mutex_unlock`.

* `step_inv`, `run_inv`: what holds of the memory and of the calls that each thread has made;
* `step_exclusive`, `run_exclusive`: who owns which mutex, as long as no call fails;
* `threads_obtain_mutex`: what this comes to over all runs.
-/

namespace Aesd

/-- `struct thread_data`; `μ` are the addresses of mutexes. -/
structure ThreadData (μ : Type*) where
  mutex : μ
  waitToObtainMs : ℤ
  waitToReleaseMs : ℤ
  threadCompleteSuccess : Bool

/-- `wait_ms * 1000` as an `int`; there is no value if it overflows. -/
def usleepArg (waitMs : ℤ) : Option ℤ :=
  if -2 ^ 31 ≤ waitMs * 1000 ∧ waitMs * 1000 < 2 ^ 31 then some (waitMs * 1000) else none

/-- In `threadfunc`, in front of a statement; then it has returned, and has been joined. -/
inductive ThreadfuncPc
  | sleepObtain
  | lock
  | sleepRelease
  | unlock
  | finish
  | returned
  | joined
  deriving DecidableEq

/-- Who has locked a mutex. -/
inductive MutexHolder
  | caller
  | thread (p : ℕ)
  deriving DecidableEq

/-- A call, with what it was given and whether it went well. -/
inductive ThreadCall (μ : Type*)
  | create (p : ℕ) (mutex : μ) (obtainMs releaseMs : ℤ)
  | usleep (p : ℕ) (usec : Option ℤ)
  | lock (p : ℕ) (mutex : μ) (ok : Bool)
  | unlock (p : ℕ) (mutex : μ) (ok : Bool)
  | join (p : ℕ) (success : Bool)

namespace ThreadCall

variable {μ : Type*}

/-- The thread that makes the call. -/
def thread : ThreadCall μ → Option ℕ
  | usleep p _ | lock p _ _ | unlock p _ _ => some p
  | create .. | join .. => none

/-- The thread that is joined. -/
def joined : ThreadCall μ → Option ℕ
  | join p _ => some p
  | create .. | usleep .. | lock .. | unlock .. => none

/-- The thread that is created. -/
def created : ThreadCall μ → Option ℕ
  | create p .. => some p
  | usleep .. | lock .. | unlock .. | join .. => none

/-- A call that goes well. -/
def Ok : ThreadCall μ → Prop
  | lock _ _ ok | unlock _ _ ok => ok = true
  | create .. | usleep .. | join .. => True

end ThreadCall

/-- The calls of `threadfunc`; `l` and `u` tell whether locking and unlocking go well. -/
def ThreadData.calls {μ : Type*} (d : ThreadData μ) (p : ℕ) (l u : Bool) : List (ThreadCall μ) :=
  [.usleep p (usleepArg d.waitToObtainMs), .lock p d.mutex l,
    .usleep p (usleepArg d.waitToReleaseMs), .unlock p d.mutex u]

namespace ThreadfuncPc

/-- How many calls are behind it. -/
def done : ThreadfuncPc → ℕ
  | sleepObtain => 0
  | lock => 1
  | sleepRelease => 2
  | unlock => 3
  | finish | returned | joined => 4

/-- Between the lock and the unlock. -/
def inside : ThreadfuncPc → Bool
  | sleepRelease | unlock => true
  | sleepObtain | lock | finish | returned | joined => false

/-- `thread_complete_success` has been set, and the thread has returned. -/
def success : ThreadfuncPc → Bool
  | returned | joined => true
  | sleepObtain | lock | sleepRelease | unlock | finish => false

/-- How many steps are left until the thread has been joined. -/
def left : ThreadfuncPc → ℕ
  | sleepObtain => 6
  | lock => 5
  | sleepRelease => 4
  | unlock => 3
  | finish => 2
  | returned => 1
  | joined => 0

end ThreadfuncPc

/-- The `thread_data` blocks, where the threads are, who has locked which mutex, and the calls so
far. -/
structure Threading (μ : Type*) where
  heap : BlockLedger (ThreadData μ)
  thread : ℕ → Option ThreadfuncPc
  owner : μ → Option MutexHolder
  log : List (ThreadCall μ)

/-- What happens next: a thread is started; a statement of a thread, with the result of its call;
a thread is joined; the caller locks or unlocks a mutex. -/
inductive ThreadingEvent (μ : Type*)
  | start (mutex : μ) (obtainMs releaseMs : ℤ) (mallocOk createOk : Bool)
  | thread (p : ℕ) (ok : Bool)
  | join (p : ℕ)
  | callerLocks (mutex : μ)
  | callerUnlocks (mutex : μ)

namespace Threading

variable {μ : Type*}

/-- No thread has been started, and no mutex is locked. -/
def start : Threading μ := ⟨.empty, fun _ => none, fun _ => none, []⟩

/-- The calls of thread `p`, in their order. -/
def callsOf (s : Threading μ) (p : ℕ) : List (ThreadCall μ) :=
  s.log.filter fun c => c.thread = some p

/-- Thread `p` has made `calls` and goes on at `pc`. -/
def goOn (s : Threading μ) (p : ℕ) (pc : ThreadfuncPc) (calls : List (ThreadCall μ)) :
    Threading μ :=
  { s with thread := Function.update s.thread p (some pc), log := s.log ++ calls }

/-- `start_thread_obtaining_mutex`, and what it returns. -/
def startThreadObtainingMutex (s : Threading μ) (mutex : μ) (obtainMs releaseMs : ℤ)
    (mallocOk createOk : Bool) : Threading μ × Bool :=
  if mallocOk then
    let (heap, args) := s.heap.alloc 1
    let heap := heap.write args 0 [⟨mutex, obtainMs, releaseMs, false⟩]
    if createOk then
      ({ s.goOn args .sleepObtain [.create args mutex obtainMs releaseMs] with heap := heap }, true)
    else ({ s with heap := heap.free args }, false)
  else (s, false)

variable [DecidableEq μ]

/-- The next statement of `threadfunc`, where `thread_func_args` points to `d`. -/
def threadfuncStep (s : Threading μ) (p : ℕ) (d : ThreadData μ) (ok : Bool) :
    ThreadfuncPc → Option (Threading μ)
  | .sleepObtain => some (s.goOn p .lock [.usleep p (usleepArg d.waitToObtainMs)])
  | .lock =>
    if ok then
      if s.owner d.mutex = none then
        some { s.goOn p .sleepRelease [.lock p d.mutex true] with
          owner := Function.update s.owner d.mutex (some (.thread p)) }
      else none
    else some (s.goOn p .sleepRelease [.lock p d.mutex false])
  | .sleepRelease => some (s.goOn p .unlock [.usleep p (usleepArg d.waitToReleaseMs)])
  | .unlock =>
    if ok then
      some { s.goOn p .finish [.unlock p d.mutex true] with
        owner := Function.update s.owner d.mutex none }
    else some (s.goOn p .finish [.unlock p d.mutex false])
  | .finish =>
    some { s.goOn p .returned [] with
      heap := s.heap.write p 0 [{ d with threadCompleteSuccess := true }] }
  | .returned | .joined => none

/-- The same with the reading of `thread_func_args`. -/
def threadfunc (s : Threading μ) (p : ℕ) (ok : Bool) (pc : ThreadfuncPc) : Option (Threading μ) :=
  match s.heap.read p 0 1 with
  | (heap, [d]) => threadfuncStep { s with heap := heap } p d ok pc
  | (heap, _) => some { s with heap := heap }

/-- `pthread_join` gives `thread_data` back: its flag is read, and it is freed. -/
def joinThread (s : Threading μ) (p : ℕ) : Threading μ :=
  match s.heap.read p 0 1 with
  | (heap, [d]) => { s.goOn p .joined [.join p d.threadCompleteSuccess] with heap := heap.free p }
  | (heap, _) => { s with heap := heap.free p }

/-- One step. -/
def step (s : Threading μ) : ThreadingEvent μ → Option (Threading μ)
  | .start mutex obtainMs releaseMs mallocOk createOk =>
    some (s.startThreadObtainingMutex mutex obtainMs releaseMs mallocOk createOk).1
  | .thread p ok => match s.thread p with
    | some pc => if pc.success then none else s.threadfunc p ok pc
    | none => none
  | .join p => if s.thread p = some .returned then some (s.joinThread p) else none
  | .callerLocks mutex =>
    if s.owner mutex = none then
      some { s with owner := Function.update s.owner mutex (some .caller) }
    else none
  | .callerUnlocks mutex =>
    if s.owner mutex = some .caller then
      some { s with owner := Function.update s.owner mutex none }
    else none

/-! ### The memory and the calls of each thread -/

/-- What thread `p`, which is at `pc`, has been started with, what has become of the block, and what
the thread has done. -/
structure Carries (s : Threading μ) (p : ℕ) (pc : ThreadfuncPc) (d : ThreadData μ) : Prop where
  created : .create p d.mutex d.waitToObtainMs d.waitToReleaseMs ∈ s.log
  success : d.threadCompleteSuccess = pc.success
  block : s.heap.block p = if pc = .joined then none else some [some d]
  calls : ∃ l u, s.callsOf p = (d.calls p l u).take pc.done

/-- What holds in every run. -/
structure Inv (s : Threading μ) : Prop where
  fresh : s.heap.Fresh
  faults : s.heap.faults = []
  live : ∀ p, s.heap.block p ≠ none → s.thread p ≠ none
  unborn : ∀ p, s.heap.next ≤ p → s.thread p = none
  carries : ∀ p pc, s.thread p = some pc → ∃ d, s.Carries p pc d
  known : ∀ c ∈ s.log, ∀ p, c.thread = some p ∨ c.created = some p ∨ c.joined = some p →
    s.thread p ≠ none
  create_once : (s.log.filterMap ThreadCall.created).Nodup
  join_once : (s.log.filterMap ThreadCall.joined).Nodup
  join_iff : ∀ p ok, .join p ok ∈ s.log ↔ ok = true ∧ s.thread p = some .joined

section Step

variable {s t : Threading μ} {p : ℕ} {pc pc' : ThreadfuncPc} {d : ThreadData μ}
  {calls : List (ThreadCall μ)}

omit [DecidableEq μ] in
theorem start_inv : Inv (start : Threading μ) where
  fresh _ _ := rfl
  faults := rfl
  live p hp := absurd rfl hp
  unborn _ _ := rfl
  carries _ _ h := by simp [start] at h
  known _ h := by simp [start] at h
  create_once := List.nodup_nil
  join_once := List.nodup_nil
  join_iff p ok := by simp [start]

omit [DecidableEq μ] in
/-- The calls of one thread are none of another. -/
theorem filter_calls_of_ne {q : ℕ} (hcalls : ∀ c ∈ calls, c.thread ≠ some q) :
    (calls.filter fun c => c.thread = some q) = [] :=
  List.filter_eq_nil_iff.2 fun c hc => by simpa using hcalls c hc

omit [DecidableEq μ] in
/-- What a thread carries is not changed by the steps of the others. -/
theorem Carries.frame (h : s.Carries p pc d) (hlog : t.log = s.log ++ calls)
    (hcalls : ∀ c ∈ calls, c.thread ≠ some p) (hblock : t.heap.block p = s.heap.block p) :
    t.Carries p pc d where
  created := by
    rw [hlog]
    exact List.mem_append_left _ h.created
  success := h.success
  block := hblock.trans h.block
  calls := by
    have hsame : t.callsOf p = s.callsOf p := by
      unfold callsOf
      rw [hlog, List.filter_append, filter_calls_of_ne hcalls, List.append_nil]
    rw [hsame]
    exact h.calls

omit [DecidableEq μ] in
/-- Thread `p` makes `calls` and goes on at `pc'`; its block may change. -/
theorem Inv.moves (hi : s.Inv) (hp : s.thread p = some pc) (hpc : pc ≠ .joined)
    (hpc' : pc' ≠ .joined) (hthread : t.thread = Function.update s.thread p (some pc'))
    (hlog : t.log = s.log ++ calls) (hcalls : ∀ c ∈ calls, c.thread = some p)
    (hnext : t.heap.next = s.heap.next) (hfaults : t.heap.faults = s.heap.faults)
    (hblock : ∀ q, q ≠ p → t.heap.block q = s.heap.block q) (hc : t.Carries p pc' d) : t.Inv := by
  have hself : t.thread p = some pc' := by rw [hthread, Function.update_self]
  have hother : ∀ q, q ≠ p → t.thread q = s.thread q := fun q hq => by
    rw [hthread, Function.update_of_ne hq]
  have hborn : ∀ q, s.thread q ≠ none → t.thread q ≠ none := by
    intro q hq
    by_cases hqp : q = p
    · rw [hqp, hself]
      exact Option.some_ne_none _
    · rwa [hother q hqp]
  have hkind : ∀ c ∈ calls, c.created = none ∧ c.joined = none := by
    intro c hmem
    have hthr := hcalls c hmem
    cases c <;> simp [ThreadCall.thread] at hthr <;> exact ⟨rfl, rfl⟩
  have hlt : p < s.heap.next := by
    by_contra hge
    rw [hi.unborn p (by omega)] at hp
    exact Option.some_ne_none _ hp.symm
  constructor
  · intro q hq
    rw [hnext] at hq
    rw [hblock q (by omega)]
    exact hi.fresh q hq
  · rw [hfaults, hi.faults]
  · intro q hq
    by_cases hqp : q = p
    · rw [hqp, hself]
      exact Option.some_ne_none _
    · rw [hblock q hqp] at hq
      exact hborn q (hi.live q hq)
  · intro q hq
    rw [hnext] at hq
    rw [hother q (by omega)]
    exact hi.unborn q hq
  · intro q qc hq
    by_cases hqp : q = p
    · subst hqp
      rw [hself, Option.some.injEq] at hq
      subst hq
      exact ⟨d, hc⟩
    · rw [hother q hqp] at hq
      obtain ⟨e, he⟩ := hi.carries q qc hq
      refine ⟨e, he.frame hlog (fun c hmem => ?_) (hblock q hqp)⟩
      rw [hcalls c hmem, Ne, Option.some.injEq]
      exact Ne.symm hqp
  · intro c hmem q hq
    rw [hlog, List.mem_append] at hmem
    rcases hmem with hmem | hmem
    · exact hborn q (hi.known c hmem q hq)
    · rw [(hkind c hmem).1, (hkind c hmem).2, hcalls c hmem] at hq
      simp only [Option.some.injEq, reduceCtorEq, or_false] at hq
      rw [← hq, hself]
      exact Option.some_ne_none _
  · have hnone : calls.filterMap ThreadCall.created = [] :=
      List.filterMap_eq_nil_iff.2 fun c hmem => (hkind c hmem).1
    rw [hlog, List.filterMap_append, hnone, List.append_nil]
    exact hi.create_once
  · have hnone : calls.filterMap ThreadCall.joined = [] :=
      List.filterMap_eq_nil_iff.2 fun c hmem => (hkind c hmem).2
    rw [hlog, List.filterMap_append, hnone, List.append_nil]
    exact hi.join_once
  · intro q ok
    have hnew : .join q ok ∉ calls := fun hmem => by
      simpa [ThreadCall.joined] using (hkind _ hmem).2
    have hjoined : t.thread q = some .joined ↔ s.thread q = some .joined := by
      by_cases hqp : q = p
      · subst hqp
        rw [hself, hp, Option.some.injEq, Option.some.injEq]
        exact iff_of_false hpc' hpc
      · rw [hother q hqp]
    rw [hlog, List.mem_append, or_iff_left hnew, hjoined]
    exact hi.join_iff q ok

omit [DecidableEq μ] in
/-- Only the mutexes change. -/
theorem Inv.congr (hi : s.Inv) (hheap : t.heap = s.heap) (hthread : t.thread = s.thread)
    (hlog : t.log = s.log) : t.Inv := by
  obtain ⟨heap, thread, owner, log⟩ := t
  subst hheap hthread hlog
  exact ⟨hi.fresh, hi.faults, hi.live, hi.unborn,
    fun p pc h => (hi.carries p pc h).imp fun _ hd => ⟨hd.created, hd.success, hd.block, hd.calls⟩,
    hi.known, hi.create_once, hi.join_once, hi.join_iff⟩

omit [DecidableEq μ] in
/-- The block that `start_thread_obtaining_mutex` allocates and fills. -/
theorem alloc_write (h : BlockLedger (ThreadData μ)) (d : ThreadData μ) :
    (h.alloc 1).1.write h.next 0 [d] =
      { h with next := h.next + 1, block := Function.update h.block h.next (some [some d]) } := by
  have hcell : (h.alloc 1).1.block h.next = some [none] := h.alloc_block_self 1
  rw [BlockLedger.write_cell hcell]
  simp only [BlockLedger.alloc, Function.update_idem]

omit [DecidableEq μ] in
/-- A thread is started: its block is new. -/
theorem Inv.starts (hi : s.Inv) (mutex : μ) (obtainMs releaseMs : ℤ) :
    Inv { s.goOn s.heap.next .sleepObtain [.create s.heap.next mutex obtainMs releaseMs] with
      heap := (s.heap.alloc 1).1.write s.heap.next 0 [⟨mutex, obtainMs, releaseMs, false⟩] } := by
  have hnew : s.thread s.heap.next = none := hi.unborn _ le_rfl
  have hborn : ∀ q, s.thread q ≠ none →
      Function.update s.thread s.heap.next (some .sleepObtain) q ≠ none := by
    intro q hq
    have hne : q ≠ s.heap.next := fun h => hq (by rw [h, hnew])
    rwa [Function.update_of_ne hne]
  rw [alloc_write]
  constructor
  · intro q hq
    change s.heap.next + 1 ≤ q at hq
    change Function.update s.heap.block s.heap.next _ q = none
    rw [Function.update_of_ne (by omega)]
    exact hi.fresh q (by omega)
  · exact hi.faults
  · intro q hq
    by_cases hqn : q = s.heap.next
    · subst hqn
      change Function.update s.thread s.heap.next _ s.heap.next ≠ none
      rw [Function.update_self]
      exact Option.some_ne_none _
    · change Function.update s.heap.block s.heap.next _ q ≠ none at hq
      rw [Function.update_of_ne hqn] at hq
      exact hborn q (hi.live q hq)
  · intro q hq
    change s.heap.next + 1 ≤ q at hq
    change Function.update s.thread s.heap.next _ q = none
    rw [Function.update_of_ne (by omega)]
    exact hi.unborn q (by omega)
  · intro q qc hq
    change Function.update s.thread s.heap.next _ q = some qc at hq
    by_cases hqn : q = s.heap.next
    · subst hqn
      rw [Function.update_self, Option.some.injEq] at hq
      subst hq
      refine ⟨⟨mutex, obtainMs, releaseMs, false⟩, by simp [goOn], rfl, Function.update_self .., ?_⟩
      -- nobody has made a call in the name of the new thread
      refine ⟨true, true, List.filter_eq_nil_iff.2 fun c hmem hthr => ?_⟩
      simp only [goOn, List.mem_append, List.mem_singleton, decide_eq_true_eq] at hmem hthr
      rcases hmem with hmem | rfl
      · exact hi.known c hmem _ (Or.inl hthr) hnew
      · simp [ThreadCall.thread] at hthr
    · rw [Function.update_of_ne hqn] at hq
      obtain ⟨d, hd⟩ := hi.carries q qc hq
      exact ⟨d, hd.frame rfl (by simp [ThreadCall.thread]) (Function.update_of_ne hqn ..)⟩
  · intro c hmem q hq
    rcases List.mem_append.1 hmem with hmem | hmem
    · exact hborn q (hi.known c hmem q hq)
    · rw [List.mem_singleton.1 hmem] at hq
      simp only [ThreadCall.thread, ThreadCall.created, ThreadCall.joined, reduceCtorEq, false_or,
        Option.some.injEq, or_false] at hq
      subst hq
      change Function.update s.thread s.heap.next _ s.heap.next ≠ none
      rw [Function.update_self]
      exact Option.some_ne_none _
  · change ((s.log ++ _).filterMap ThreadCall.created).Nodup
    rw [List.filterMap_append]
    refine List.nodup_append'.2 ⟨hi.create_once, List.nodup_singleton _, ?_⟩
    intro q hq hnext
    obtain ⟨c, hmem, hc⟩ := List.mem_filterMap.1 hq
    obtain rfl : q = s.heap.next := List.mem_singleton.1 hnext
    exact hi.known c hmem _ (Or.inr (Or.inl hc)) hnew
  · change ((s.log ++ _).filterMap ThreadCall.joined).Nodup
    rw [List.filterMap_append]
    change (s.log.filterMap ThreadCall.joined ++ []).Nodup
    rw [List.append_nil]
    exact hi.join_once
  · intro q ok
    change .join q ok ∈ s.log ++ _ ↔ ok = true ∧ Function.update s.thread s.heap.next _ q = _
    rw [List.mem_append, or_iff_left (by simp), hi.join_iff q ok]
    by_cases hqn : q = s.heap.next
    · subst hqn
      rw [Function.update_self, hnew]
      simp
    · rw [Function.update_of_ne hqn]

omit [DecidableEq μ] in
/-- `start_thread_obtaining_mutex`, whatever fails. -/
theorem startThread_inv (hi : s.Inv) (mutex : μ) (obtainMs releaseMs : ℤ)
    (mallocOk createOk : Bool) :
    (s.startThreadObtainingMutex mutex obtainMs releaseMs mallocOk createOk).1.Inv := by
  unfold startThreadObtainingMutex
  split_ifs
  · exact hi.starts mutex obtainMs releaseMs
  · -- the block is freed again
    have hfree : ((s.heap.alloc 1).1.write s.heap.next 0
        [⟨mutex, obtainMs, releaseMs, false⟩]).free s.heap.next =
        { s.heap with next := s.heap.next + 1, freed := s.heap.next :: s.heap.freed } := by
      have hnone : Function.update s.heap.block s.heap.next none = s.heap.block := by
        rw [Function.update_eq_self_iff]
        exact (hi.fresh _ le_rfl).symm
      rw [alloc_write, BlockLedger.free_eq (by simp)]
      simp only [Function.update_idem, hnone]
    change Inv { s with heap := ((s.heap.alloc 1).1.write s.heap.next 0 _).free s.heap.next }
    rw [hfree]
    refine ⟨fun q hq => ?_, hi.faults, hi.live, fun q hq => ?_, fun q qc hq => ?_, hi.known,
      hi.create_once, hi.join_once, hi.join_iff⟩
    · change s.heap.next + 1 ≤ q at hq
      exact hi.fresh q (by omega)
    · change s.heap.next + 1 ≤ q at hq
      exact hi.unborn q (by omega)
    · obtain ⟨d, hd⟩ := hi.carries q qc hq
      exact ⟨d, hd.created, hd.success, hd.block, hd.calls⟩
  · exact hi

/-- The arguments of a thread that runs can be read. -/
theorem threadfunc_eq {ok : Bool} (hc : s.Carries p pc d) (hpc : pc ≠ .joined) :
    s.threadfunc p ok pc = s.threadfuncStep p d ok pc := by
  have hblock := hc.block
  rw [if_neg hpc] at hblock
  unfold threadfunc
  rw [BlockLedger.read_cell hblock]

/-- **A statement of `threadfunc`**: the calls that it makes, and what is carried on. -/
theorem threadfuncStep_cases {ok : Bool} (hc : s.Carries p pc d)
    (h : s.threadfuncStep p d ok pc = some t) :
    ∃ pc' calls d', pc ≠ .joined ∧ pc' ≠ .joined ∧ pc.left = pc'.left + 1 ∧
      t.thread = Function.update s.thread p (some pc') ∧ t.log = s.log ++ calls ∧
      (∀ c ∈ calls, c.thread = some p) ∧ t.heap.next = s.heap.next ∧
      t.heap.faults = s.heap.faults ∧ (∀ q, q ≠ p → t.heap.block q = s.heap.block q) ∧
      t.Carries p pc' d' := by
  obtain ⟨l, u, hcalls⟩ := hc.calls
  have hblock := hc.block
  -- one call more, and the same block
  have hgo : ∀ pc' c l' u', pc ≠ .joined → pc' ≠ .joined → pc'.success = pc.success →
      ThreadCall.thread c = some p →
      (d.calls p l u).take pc.done ++ [c] = (d.calls p l' u').take pc'.done →
      ∀ owner, Carries { s.goOn p pc' [c] with owner := owner } p pc' d := by
    intro pc' c l' u' hpc hpc' hsucc hthr hlist owner
    refine ⟨List.mem_append_left _ hc.created, hc.success.trans hsucc.symm, ?_, l', u', ?_⟩
    · rw [if_neg hpc] at hblock
      rwa [if_neg hpc']
    · rw [← hlist, ← hcalls]
      change (s.log ++ [c]).filter _ = _
      rw [List.filter_append, List.filter_singleton]
      simp only [hthr, decide_true]
      rfl
  cases pc with
  | sleepObtain =>
    simp only [threadfuncStep, Option.some.injEq] at h
    subst h
    exact ⟨.lock, _, d, by decide, by decide, rfl, rfl, rfl, by simp [ThreadCall.thread], rfl, rfl,
      fun _ _ => rfl, hgo .lock _ l u (by decide) (by decide) rfl rfl rfl s.owner⟩
  | lock =>
    simp only [threadfuncStep] at h
    split_ifs at h with hok hfree <;> simp only [Option.some.injEq] at h <;> subst h
    · exact ⟨.sleepRelease, _, d, by decide, by decide, rfl, rfl, rfl, by simp [ThreadCall.thread],
        rfl, rfl, fun _ _ => rfl, hgo .sleepRelease _ true u (by decide) (by decide) rfl rfl rfl _⟩
    · exact ⟨.sleepRelease, _, d, by decide, by decide, rfl, rfl, rfl, by simp [ThreadCall.thread],
        rfl, rfl, fun _ _ => rfl,
        hgo .sleepRelease _ false u (by decide) (by decide) rfl rfl rfl s.owner⟩
  | sleepRelease =>
    simp only [threadfuncStep, Option.some.injEq] at h
    subst h
    exact ⟨.unlock, _, d, by decide, by decide, rfl, rfl, rfl, by simp [ThreadCall.thread], rfl,
      rfl, fun _ _ => rfl, hgo .unlock _ l u (by decide) (by decide) rfl rfl rfl s.owner⟩
  | unlock =>
    simp only [threadfuncStep] at h
    split_ifs at h with hok <;> simp only [Option.some.injEq] at h <;> subst h
    · exact ⟨.finish, _, d, by decide, by decide, rfl, rfl, rfl, by simp [ThreadCall.thread],
        rfl, rfl, fun _ _ => rfl, hgo .finish _ l true (by decide) (by decide) rfl rfl rfl _⟩
    · exact ⟨.finish, _, d, by decide, by decide, rfl, rfl, rfl, by simp [ThreadCall.thread],
        rfl, rfl, fun _ _ => rfl, hgo .finish _ l false (by decide) (by decide) rfl rfl rfl s.owner⟩
  | finish =>
    simp only [threadfuncStep, Option.some.injEq] at h
    subst h
    rw [if_neg (by decide)] at hblock
    refine ⟨.returned, [], { d with threadCompleteSuccess := true }, by decide, by decide, rfl, rfl,
      rfl, by simp, ?_, ?_, fun q hq => ?_, ?_, rfl, ?_, l, u, ?_⟩
    · exact BlockLedger.write_next ..
    · change (s.heap.write p 0 _).faults = _
      rw [BlockLedger.write_cell hblock]
    · exact BlockLedger.write_block_of_ne _ _ hq
    · exact List.mem_append_left _ hc.created
    · change (s.heap.write p 0 _).block p = _
      rw [BlockLedger.write_cell hblock]
      exact Function.update_self ..
    · change (s.log ++ []).filter _ = _
      rw [List.append_nil]
      exact hcalls
  | returned | joined => simp [threadfuncStep] at h

omit [DecidableEq μ] in
/-- `pthread_join`, and what is done with what it gives back. -/
theorem joinThread_eq (hi : s.Inv) (hp : s.thread p = some .returned) :
    s.joinThread p = { s.goOn p .joined [.join p true] with heap := s.heap.free p } := by
  obtain ⟨d, hd⟩ := hi.carries p _ hp
  have hblock : s.heap.block p = some [some d] := hd.block
  have hflag : d.threadCompleteSuccess = true := hd.success
  unfold joinThread
  rw [BlockLedger.read_cell hblock]
  simp only [hflag]

omit [DecidableEq μ] in
/-- A thread is joined. -/
theorem Inv.joins (hi : s.Inv) (hp : s.thread p = some .returned) : (s.joinThread p).Inv := by
  obtain ⟨d, hd⟩ := hi.carries p _ hp
  have hblock : s.heap.block p = some [some d] := hd.block
  have hlive : s.heap.block p ≠ none := by rw [hblock]; exact Option.some_ne_none _
  have hborn : ∀ q, s.thread q ≠ none → Function.update s.thread p (some .joined) q ≠ none := by
    intro q hq
    by_cases hqp : q = p
    · rw [hqp, Function.update_self]
      exact Option.some_ne_none _
    · rwa [Function.update_of_ne hqp]
  have hnew : ∀ ok, .join p ok ∉ s.log := by
    intro ok hmem
    have hjoined := ((hi.join_iff p ok).1 hmem).2
    rw [hp] at hjoined
    exact absurd hjoined (by decide)
  rw [joinThread_eq hi hp]
  constructor
  · exact hi.fresh.free hlive
  · exact (BlockLedger.free_faults hlive).trans hi.faults
  · intro q hq
    change (s.heap.free p).block q ≠ none at hq
    by_cases hqp : q = p
    · subst hqp
      exact absurd (BlockLedger.free_block_self hlive) hq
    · rw [BlockLedger.free_block_of_ne hlive hqp] at hq
      exact hborn q (hi.live q hq)
  · intro q hq
    change (s.heap.free p).next ≤ q at hq
    rw [BlockLedger.free_next hlive] at hq
    have hnone := hi.unborn q hq
    change Function.update s.thread p _ q = none
    rwa [Function.update_of_ne]
    rintro rfl
    rw [hnone] at hp
    exact Option.some_ne_none _ hp.symm
  · intro q qc hq
    change Function.update s.thread p _ q = some qc at hq
    by_cases hqp : q = p
    · subst hqp
      rw [Function.update_self, Option.some.injEq] at hq
      subst hq
      obtain ⟨l, u, hcalls⟩ := hd.calls
      refine ⟨d, List.mem_append_left _ hd.created, hd.success, ?_, l, u, ?_⟩
      · exact BlockLedger.free_block_self hlive
      · rw [show (d.calls q l u).take ThreadfuncPc.joined.done = s.callsOf q from hcalls.symm]
        have hnone : ([ThreadCall.join q true] : List (ThreadCall μ)).filter
            (fun c => c.thread = some q) = [] := rfl
        change (s.log ++ [ThreadCall.join q true]).filter _ = _
        rw [List.filter_append, hnone, List.append_nil]
        rfl
    · rw [Function.update_of_ne hqp] at hq
      obtain ⟨e, he⟩ := hi.carries q qc hq
      exact ⟨e, he.frame rfl (by simp [ThreadCall.thread])
        (BlockLedger.free_block_of_ne hlive hqp)⟩
  · intro c hmem q hq
    rcases List.mem_append.1 hmem with hmem | hmem
    · exact hborn q (hi.known c hmem q hq)
    · rw [List.mem_singleton.1 hmem] at hq
      simp only [ThreadCall.thread, ThreadCall.created, ThreadCall.joined, reduceCtorEq, false_or,
        Option.some.injEq] at hq
      subst hq
      change Function.update s.thread p _ p ≠ none
      rw [Function.update_self]
      exact Option.some_ne_none _
  · change ((s.log ++ _).filterMap ThreadCall.created).Nodup
    rw [List.filterMap_append]
    change (s.log.filterMap ThreadCall.created ++ []).Nodup
    rw [List.append_nil]
    exact hi.create_once
  · change ((s.log ++ _).filterMap ThreadCall.joined).Nodup
    rw [List.filterMap_append]
    refine List.nodup_append'.2 ⟨hi.join_once, List.nodup_singleton _, ?_⟩
    intro q hq hqp
    obtain rfl : q = p := List.mem_singleton.1 hqp
    obtain ⟨c, hmem, hc⟩ := List.mem_filterMap.1 hq
    cases c <;> simp [ThreadCall.joined] at hc
    subst hc
    exact hnew _ hmem
  · intro q ok
    change ThreadCall.join q ok ∈ s.log ++ [ThreadCall.join p true] ↔
      ok = true ∧ Function.update s.thread p _ q = _
    rw [List.mem_append, List.mem_singleton, ThreadCall.join.injEq]
    by_cases hqp : q = p
    · subst hqp
      rw [Function.update_self, or_iff_right (hnew ok)]
      simp
    · rw [Function.update_of_ne hqp, hi.join_iff q ok]
      simp [hqp]

omit [DecidableEq μ] in
/-- The blocks that are left. -/
theorem Inv.live_iff (hi : s.Inv) (p : ℕ) :
    s.heap.block p ≠ none ↔ ∃ pc, s.thread p = some pc ∧ pc ≠ .joined := by
  constructor
  · intro hp
    obtain ⟨pc, hpc⟩ := Option.ne_none_iff_exists'.1 (hi.live p hp)
    obtain ⟨d, hd⟩ := hi.carries p pc hpc
    refine ⟨pc, hpc, fun hj => hp ?_⟩
    rw [hd.block, if_pos hj]
  · rintro ⟨pc, hpc, hj⟩
    obtain ⟨d, hd⟩ := hi.carries p pc hpc
    rw [hd.block, if_neg hj]
    exact Option.some_ne_none _

omit [DecidableEq μ] in
/-- The calls of a thread are those that it was started for. -/
theorem Inv.calls_of_created (hi : s.Inv) {mutex : μ} {obtainMs releaseMs : ℤ}
    (hmem : .create p mutex obtainMs releaseMs ∈ s.log) :
    ∃ pc l u, s.thread p = some pc ∧
      s.callsOf p = [ThreadCall.usleep p (usleepArg obtainMs), .lock p mutex l,
        .usleep p (usleepArg releaseMs), .unlock p mutex u].take pc.done := by
  obtain ⟨pc, hpc⟩ := Option.ne_none_iff_exists'.1 (hi.known _ hmem p (Or.inr (Or.inl rfl)))
  obtain ⟨d, hd⟩ := hi.carries p pc hpc
  obtain ⟨l, u, hcalls⟩ := hd.calls
  -- a thread is created once
  have hone := List.pairwise_filterMap.1 hi.create_once
  have heq : ThreadCall.create p mutex obtainMs releaseMs =
      .create p d.mutex d.waitToObtainMs d.waitToReleaseMs := by
    by_contra hne
    have hsymm : Std.Symm fun a b : ThreadCall μ =>
        ∀ x, a.created = some x → ∀ y, b.created = some y → x ≠ y :=
      ⟨fun a b hab x hx y hy => (hab y hy x hx).symm⟩
    exact hone.forall hmem hd.created hne p rfl p rfl rfl
  simp only [ThreadCall.create.injEq, true_and] at heq
  obtain ⟨rfl, rfl, rfl⟩ := heq
  exact ⟨pc, l, u, hpc, hcalls⟩

/-- A thread makes a step. -/
theorem Inv.thread_cases {ok : Bool} (hi : s.Inv) (h : s.step (.thread p ok) = some t) :
    ∃ pc d, s.thread p = some pc ∧ s.Carries p pc d ∧ pc.success = false ∧
      s.threadfuncStep p d ok pc = some t := by
  cases hp : s.thread p with
  | none => simp [step, hp] at h
  | some pc =>
    obtain ⟨d, hd⟩ := hi.carries p pc hp
    simp only [step, hp] at h
    split_ifs at h with hrun
    rw [threadfunc_eq hd (fun hpc => hrun (hpc ▸ rfl))] at h
    exact ⟨pc, d, rfl, hd, by simpa using hrun, h⟩

/-- **One step** keeps the memory and the calls in order. -/
theorem step_inv {e : ThreadingEvent μ} (hi : s.Inv) (h : s.step e = some t) : t.Inv := by
  cases e with
  | start mutex obtainMs releaseMs mallocOk createOk =>
    simp only [step, Option.some.injEq] at h
    subst h
    exact startThread_inv hi ..
  | thread p ok =>
    obtain ⟨pc, d, hp, hd, hpc, hstep⟩ := hi.thread_cases h
    obtain ⟨pc', calls, d', hpc, hpc', -, hthread, hlog, hcalls, hnext, hfaults, hblock, hc⟩ :=
      threadfuncStep_cases hd hstep
    exact hi.moves hp hpc hpc' hthread hlog hcalls hnext hfaults hblock hc
  | join p =>
    simp only [step] at h
    split_ifs at h with hp
    exact Option.some.inj h ▸ hi.joins hp
  | callerLocks mutex =>
    simp only [step] at h
    split_ifs at h
    exact Option.some.inj h ▸ hi.congr rfl rfl rfl
  | callerUnlocks mutex =>
    simp only [step] at h
    split_ifs at h
    exact Option.some.inj h ▸ hi.congr rfl rfl rfl

/-- The log only grows. -/
theorem step_log {e : ThreadingEvent μ} (hi : s.Inv) (h : s.step e = some t) :
    ∃ calls, t.log = s.log ++ calls := by
  cases e with
  | start mutex obtainMs releaseMs mallocOk createOk =>
    simp only [step, Option.some.injEq] at h
    subst h
    unfold startThreadObtainingMutex
    split_ifs
    · exact ⟨_, rfl⟩
    · exact ⟨[], (List.append_nil _).symm⟩
    · exact ⟨[], (List.append_nil _).symm⟩
  | thread p ok =>
    obtain ⟨pc, d, -, hd, -, hstep⟩ := hi.thread_cases h
    obtain ⟨-, calls, -, -, -, -, -, hlog, -⟩ := threadfuncStep_cases hd hstep
    exact ⟨calls, hlog⟩
  | join p =>
    simp only [step] at h
    split_ifs at h with hp
    rw [Option.some.injEq, joinThread_eq hi hp] at h
    subst h
    exact ⟨_, rfl⟩
  | callerLocks mutex | callerUnlocks mutex =>
    simp only [step] at h
    split_ifs at h
    rw [Option.some.injEq] at h
    subst h
    exact ⟨[], (List.append_nil _).symm⟩

theorem run_inv {es : List (ThreadingEvent μ)} (h : Exec.run step start es = some s) : s.Inv :=
  Exec.invariant start_inv (fun _ _ _ => step_inv) h

end Step

/-! ### Who owns a mutex -/

/-- Thread `p` is between the lock and the unlock of `mutex`. -/
def Inside (s : Threading μ) (p : ℕ) (mutex : μ) : Prop :=
  ∃ pc d, s.thread p = some pc ∧ pc.inside = true ∧ s.heap.block p = some [some d] ∧
    d.mutex = mutex

/-- A thread owns the mutex that it is inside of, and no other. -/
def Exclusive (s : Threading μ) : Prop :=
  ∀ mutex p, s.owner mutex = some (.thread p) ↔ s.Inside p mutex

section Owner

variable {s t : Threading μ} {p q : ℕ} {pc : ThreadfuncPc} {d : ThreadData μ} {mutex : μ}

omit [DecidableEq μ] in
theorem inside_congr (hthread : t.thread p = s.thread p)
    (hblock : t.heap.block p = s.heap.block p) : t.Inside p mutex ↔ s.Inside p mutex := by
  unfold Inside
  rw [hthread, hblock]

omit [DecidableEq μ] in
/-- For a thread that runs. -/
theorem inside_iff (hp : s.thread p = some pc) (hblock : s.heap.block p = some [some d]) :
    s.Inside p mutex ↔ pc.inside = true ∧ d.mutex = mutex := by
  unfold Inside
  rw [hp, hblock]
  constructor
  · rintro ⟨pc', d', hpc, hin, hd, hm⟩
    rw [Option.some.injEq] at hpc hd
    simp only [List.cons.injEq, Option.some.injEq, and_true] at hd
    subst hpc hd
    exact ⟨hin, hm⟩
  · rintro ⟨hin, hm⟩
    exact ⟨pc, d, rfl, hin, rfl, hm⟩

omit [DecidableEq μ] in
/-- Thread `p` is inside neither before nor after, and the mutexes are as they were. -/
theorem Exclusive.outside (he : s.Exclusive) (howner : t.owner = s.owner)
    (hother : ∀ q m, q ≠ p → (t.Inside q m ↔ s.Inside q m))
    (hself : ∀ m, t.Inside p m ↔ s.Inside p m) : t.Exclusive := by
  intro m q
  rw [howner, he m q]
  by_cases hqp : q = p
  · rw [hqp]
    exact (hself m).symm
  · exact (hother q m hqp).symm

/-- Thread `p` locks a mutex that nobody owns. -/
theorem Exclusive.locks (he : s.Exclusive) (hfree : s.owner mutex = none)
    (howner : t.owner = Function.update s.owner mutex (some (.thread p)))
    (hother : ∀ q m, q ≠ p → (t.Inside q m ↔ s.Inside q m))
    (hbefore : ∀ m, ¬ s.Inside p m) (hafter : ∀ m, t.Inside p m ↔ mutex = m) : t.Exclusive := by
  intro m q
  rw [howner]
  by_cases hm : m = mutex
  · subst hm
    rw [Function.update_self, Option.some.injEq, MutexHolder.thread.injEq]
    by_cases hqp : q = p
    · subst hqp
      exact iff_of_true rfl ((hafter m).2 rfl)
    · rw [hother q m hqp, ← he m q, hfree]
      exact iff_of_false (Ne.symm hqp) (Option.some_ne_none _).symm
  · rw [Function.update_of_ne hm, he m q]
    by_cases hqp : q = p
    · rw [hqp, hafter m]
      exact iff_of_false (hbefore m) (Ne.symm hm)
    · exact (hother q m hqp).symm

/-- Thread `p` unlocks the mutex that it owns. -/
theorem Exclusive.unlocks (he : s.Exclusive)
    (howner : t.owner = Function.update s.owner mutex none)
    (hother : ∀ q m, q ≠ p → (t.Inside q m ↔ s.Inside q m))
    (hbefore : ∀ m, s.Inside p m ↔ mutex = m) (hafter : ∀ m, ¬ t.Inside p m) : t.Exclusive := by
  have hmine : s.owner mutex = some (.thread p) := (he mutex p).2 ((hbefore mutex).2 rfl)
  intro m q
  rw [howner]
  by_cases hm : m = mutex
  · subst hm
    rw [Function.update_self]
    refine iff_of_false (Option.some_ne_none _).symm fun hin => ?_
    by_cases hqp : q = p
    · exact hafter m (hqp ▸ hin)
    · rw [hother q m hqp, ← he m q, hmine, Option.some.injEq, MutexHolder.thread.injEq] at hin
      exact hqp hin.symm
  · rw [Function.update_of_ne hm, he m q]
    by_cases hqp : q = p
    · rw [hqp]
      exact iff_of_false (fun hin => hm ((hbefore m).1 hin).symm) (hafter m)
    · exact (hother q m hqp).symm

/-- The caller locks a mutex that nobody owns, or unlocks its own. -/
theorem Exclusive.caller (he : s.Exclusive) (hs : ∀ q, s.owner mutex ≠ some (.thread q))
    (o : Option MutexHolder) (ho : ∀ q, o ≠ some (.thread q)) :
    Exclusive { s with owner := Function.update s.owner mutex o } := by
  intro m q
  change Function.update s.owner mutex o m = _ ↔ s.Inside q m
  rw [← he m q]
  by_cases hm : m = mutex
  · rw [hm, Function.update_self]
    exact iff_of_false (ho q) (hs q)
  · rw [Function.update_of_ne hm]

omit [DecidableEq μ] in
/-- `start_thread_obtaining_mutex` leaves the other threads alone. -/
theorem startThread_other (mutex : μ) (obtainMs releaseMs : ℤ)
    (mallocOk createOk : Bool) (hq : q ≠ s.heap.next) :
    (s.startThreadObtainingMutex mutex obtainMs releaseMs mallocOk createOk).1.thread q =
        s.thread q ∧
      (s.startThreadObtainingMutex mutex obtainMs releaseMs mallocOk createOk).1.heap.block q =
        s.heap.block q := by
  unfold startThreadObtainingMutex
  split_ifs
  · refine ⟨Function.update_of_ne hq .., ?_⟩
    change ((s.heap.alloc 1).1.write s.heap.next 0 _).block q = _
    rw [alloc_write]
    exact Function.update_of_ne hq ..
  · refine ⟨rfl, ?_⟩
    change (((s.heap.alloc 1).1.write s.heap.next 0 _).free s.heap.next).block q = _
    rw [alloc_write, BlockLedger.free_block_of_ne (by simp) hq]
    exact Function.update_of_ne hq ..
  · exact ⟨rfl, rfl⟩

omit [DecidableEq μ] in
/-- The new thread is at its first statement. -/
theorem startThread_new (hi : s.Inv) {obtainMs releaseMs : ℤ} {mallocOk createOk : Bool}
    (h : (s.startThreadObtainingMutex mutex obtainMs releaseMs mallocOk createOk).1.thread
      s.heap.next = some pc) : pc = .sleepObtain := by
  have hnew : s.thread s.heap.next = none := hi.unborn _ le_rfl
  unfold startThreadObtainingMutex at h
  split_ifs at h
  · have hself : Function.update s.thread s.heap.next (some .sleepObtain) s.heap.next = some pc := h
    rw [Function.update_self, Option.some.injEq] at hself
    exact hself.symm
  · exact absurd (hnew.symm.trans h) (Option.some_ne_none _).symm
  · exact absurd (hnew.symm.trans h) (Option.some_ne_none _).symm

/-- A statement of `threadfunc`, if its call does not fail. -/
theorem threadfuncStep_exclusive {ok : Bool} (hp : s.thread p = some pc) (hc : s.Carries p pc d)
    (he : s.Exclusive) (h : s.threadfuncStep p d ok pc = some t) (hok : ∀ c ∈ t.log, c.Ok) :
    t.Exclusive := by
  obtain ⟨pc', calls, d', hpc, -, -, hthread, -, -, -, -, hblock, -⟩ := threadfuncStep_cases hc h
  have hother : ∀ q m, q ≠ p → (t.Inside q m ↔ s.Inside q m) := by
    intro q m hq
    refine inside_congr ?_ (hblock q hq)
    rw [hthread, Function.update_of_ne hq]
  have hcell := hc.block
  rw [if_neg hpc] at hcell
  have hbefore : ∀ m, s.Inside p m ↔ pc.inside = true ∧ d.mutex = m := fun m => inside_iff hp hcell
  have hafter : t.heap = s.heap → ∀ qc, t.thread p = some qc →
      ∀ m, (t.Inside p m ↔ qc.inside = true ∧ d.mutex = m) := fun hheap qc hqc m =>
    inside_iff hqc (hheap ▸ hcell)
  cases pc with
  | sleepObtain =>
    simp only [threadfuncStep, Option.some.injEq] at h
    subst h
    refine he.outside rfl hother fun m => ?_
    rw [hbefore m, hafter rfl .lock (Function.update_self ..) m]
    rfl
  | lock =>
    simp only [threadfuncStep] at h
    split_ifs at h with hlock hfree <;> simp only [Option.some.injEq] at h <;> subst h
    · refine he.locks hfree rfl hother (fun m hin => ?_) fun m => ?_
      · exact absurd ((hbefore m).1 hin).1 (by decide)
      · rw [hafter rfl .sleepRelease (Function.update_self ..) m]
        exact and_iff_right rfl
    · exact absurd (hok (.lock p d.mutex false) (by simp [goOn])) Bool.false_ne_true
  | sleepRelease =>
    simp only [threadfuncStep, Option.some.injEq] at h
    subst h
    refine he.outside rfl hother fun m => ?_
    rw [hbefore m, hafter rfl .unlock (Function.update_self ..) m]
    rfl
  | unlock =>
    simp only [threadfuncStep] at h
    split_ifs at h with hunlock <;> simp only [Option.some.injEq] at h <;> subst h
    · refine he.unlocks rfl hother (fun m => ?_) fun m hin => ?_
      · rw [hbefore m]
        exact and_iff_right rfl
      · rw [hafter rfl .finish (Function.update_self ..) m] at hin
        exact absurd hin.1 (by decide)
    · exact absurd (hok (.unlock p d.mutex false) (by simp [goOn])) Bool.false_ne_true
  | finish =>
    simp only [threadfuncStep, Option.some.injEq] at h
    subst h
    refine he.outside rfl hother fun m => ?_
    have hwritten : (s.heap.write p 0 [{ d with threadCompleteSuccess := true }]).block p =
        some [some { d with threadCompleteSuccess := true }] := by
      rw [BlockLedger.write_cell hcell]
      exact Function.update_self ..
    rw [hbefore m]
    refine iff_of_false (fun hin => ?_) fun hin => absurd hin.1 (by decide)
    have hreturned := (inside_iff (Function.update_self ..) hwritten).1 hin
    exact absurd hreturned.1 (by decide)
  | returned | joined => simp [threadfuncStep] at h

/-- **One step** keeps the mutexes with those who are inside, if no call has failed. -/
theorem step_exclusive {e : ThreadingEvent μ} (hi : s.Inv) (he : s.Exclusive)
    (h : s.step e = some t) (hok : ∀ c ∈ t.log, c.Ok) : t.Exclusive := by
  cases e with
  | start mutex obtainMs releaseMs mallocOk createOk =>
    have hnew : s.thread s.heap.next = none := hi.unborn _ le_rfl
    simp only [step, Option.some.injEq] at h
    subst h
    -- the new thread is not inside, and the others are where they were
    refine he.outside (p := s.heap.next) ?_ (fun q m hq => ?_) fun m => ?_
    · unfold startThreadObtainingMutex
      split_ifs <;> rfl
    · obtain ⟨hthread, hblock⟩ := startThread_other mutex obtainMs releaseMs mallocOk createOk hq
      exact inside_congr hthread hblock
    · refine iff_of_false ?_ ?_
      · rintro ⟨pc, d, hpc, hin, -⟩
        rw [startThread_new hi hpc] at hin
        exact absurd hin (by decide)
      · rintro ⟨pc, d, hpc, -⟩
        rw [hnew] at hpc
        exact Option.some_ne_none _ hpc.symm
  | thread p ok =>
    obtain ⟨pc, d, hp, hd, -, hstep⟩ := hi.thread_cases h
    exact threadfuncStep_exclusive hp hd he hstep hok
  | join p =>
    simp only [step] at h
    split_ifs at h with hp
    obtain ⟨d, hd⟩ := hi.carries p _ hp
    have hlive : s.heap.block p ≠ none := by rw [hd.block]; exact Option.some_ne_none _
    rw [Option.some.injEq, joinThread_eq hi hp] at h
    subst h
    refine he.outside (p := p) rfl (fun q m hq => inside_congr (Function.update_of_ne hq ..)
      (BlockLedger.free_block_of_ne hlive hq)) fun m => ?_
    rw [inside_iff hp hd.block]
    refine iff_of_false ?_ fun hin => absurd hin.1 (by decide)
    rintro ⟨pc, e, -, -, hblock, -⟩
    rw [show _ = none from BlockLedger.free_block_self hlive] at hblock
    exact Option.some_ne_none _ hblock.symm
  | callerLocks mutex =>
    simp only [step] at h
    split_ifs at h with hfree
    rw [Option.some.injEq] at h
    subst h
    exact he.caller (fun q => by simp [hfree]) (some .caller) fun q => by simp
  | callerUnlocks mutex =>
    simp only [step] at h
    split_ifs at h with hmine
    rw [Option.some.injEq] at h
    subst h
    exact he.caller (fun q => by simp [hmine]) none fun q => by simp

theorem run_exclusive {es : List (ThreadingEvent μ)} (h : Exec.run step start es = some s) :
    (∀ c ∈ s.log, c.Ok) → s.Exclusive := by
  refine Exec.run_induction (I := fun _ s => (∀ c ∈ s.log, c.Ok) → s.Exclusive)
    (fun _ m p => ?_) (fun es s e t hrun ih hstep hok => ?_) h
  · refine iff_of_false (Option.some_ne_none _).symm ?_
    rintro ⟨pc, d, hpc, -⟩
    exact Option.some_ne_none _ hpc.symm
  · obtain ⟨calls, hlog⟩ := step_log (run_inv hrun) hstep
    exact step_exclusive (run_inv hrun) (ih fun c hc => hok c (hlog ▸ List.mem_append_left _ hc))
      hstep hok

end Owner

/-! ### Coming to an end -/

/-- A statement of a thread whose call goes well, or a join. -/
def Finishing (e : ThreadingEvent μ) : Prop := (∃ p, e = .thread p true) ∨ ∃ p, e = .join p

/-- The threads that have been created. -/
def created (s : Threading μ) : Finset ℕ := (s.log.filterMap ThreadCall.created).toFinset

/-- How many steps are left until all threads have been joined. -/
def left (s : Threading μ) : ℕ :=
  ∑ p ∈ s.created, match s.thread p with
    | some pc => pc.left
    | none => 0

/-- The state of a run without failures in which the caller has unlocked its mutexes. -/
structure Undisturbed (s : Threading μ) : Prop where
  inv : s.Inv
  ok : ∀ c ∈ s.log, c.Ok
  exclusive : s.Exclusive
  caller : ∀ mutex, s.owner mutex ≠ some .caller

section Progress

variable {s t : Threading μ} {p : ℕ} {pc pc' : ThreadfuncPc} {calls : List (ThreadCall μ)}

omit [DecidableEq μ] in
theorem mem_created (hi : s.Inv) (hp : s.thread p = some pc) : p ∈ s.created := by
  obtain ⟨d, hd⟩ := hi.carries p pc hp
  unfold created
  rw [List.mem_toFinset, List.mem_filterMap]
  exact ⟨_, hd.created, rfl⟩

omit [DecidableEq μ] in
/-- One thread goes on. -/
theorem left_lt (hi : s.Inv) (hp : s.thread p = some pc) (hleft : pc.left = pc'.left + 1)
    (hthread : t.thread = Function.update s.thread p (some pc')) (hlog : t.log = s.log ++ calls)
    (hcalls : ∀ c ∈ calls, c.created = none) : t.left < s.left := by
  have hcreated : t.created = s.created := by
    unfold created
    rw [hlog, List.filterMap_append, List.filterMap_eq_nil_iff.2 hcalls, List.append_nil]
  unfold left
  rw [hcreated]
  refine Finset.sum_lt_sum (fun q _ => ?_) ⟨p, mem_created hi hp, ?_⟩
  · by_cases hqp : q = p
    · subst hqp
      simp only [hthread, Function.update_self, hp]
      omega
    · simp only [hthread, Function.update_of_ne hqp, le_refl]
  · simp only [hthread, Function.update_self, hp]
    omega

omit [DecidableEq μ] in
/-- Six steps for each thread, at most. -/
theorem left_le (s : Threading μ) : s.left ≤ 6 * s.created.card := by
  unfold left
  have hle : ∀ p ∈ s.created, (match s.thread p with
      | some pc => pc.left
      | none => 0) ≤ 6 := by
    intro p _
    cases s.thread p with
    | none => exact Nat.zero_le _
    | some pc => cases pc <;> decide
  have hsum := Finset.sum_le_card_nsmul _ _ 6 hle
  rwa [smul_eq_mul, Nat.mul_comm] at hsum

/-- A statement of `threadfunc` whose call goes well. -/
theorem threadfuncStep_true {d : ThreadData μ} (h : s.threadfuncStep p d true pc = some t)
    (hok : ∀ c ∈ s.log, c.Ok) (hcaller : ∀ mutex, s.owner mutex ≠ some .caller) :
    (∀ c ∈ t.log, c.Ok) ∧ ∀ mutex, t.owner mutex ≠ some .caller := by
  have hone : ∀ c : ThreadCall μ, c.Ok → ∀ c' ∈ s.log ++ [c], c'.Ok := by
    intro c hc c' hmem
    rcases List.mem_append.1 hmem with hmem | hmem
    · exact hok c' hmem
    · exact List.mem_singleton.1 hmem ▸ hc
  have howner : ∀ (o : Option MutexHolder) mutex, o ≠ some .caller →
      ∀ m, Function.update s.owner mutex o m ≠ some .caller := by
    intro o mutex ho m
    by_cases hm : m = mutex
    · rwa [hm, Function.update_self]
    · rw [Function.update_of_ne hm]
      exact hcaller m
  cases pc with
  | sleepObtain | sleepRelease =>
    simp only [threadfuncStep, Option.some.injEq] at h
    subst h
    exact ⟨hone _ trivial, hcaller⟩
  | lock =>
    simp only [threadfuncStep, if_true] at h
    split_ifs at h
    rw [Option.some.injEq] at h
    subst h
    exact ⟨hone _ rfl, howner _ _ (by simp)⟩
  | unlock =>
    simp only [threadfuncStep, if_true, Option.some.injEq] at h
    subst h
    exact ⟨hone _ rfl, howner _ _ (by simp)⟩
  | finish =>
    simp only [threadfuncStep, Option.some.injEq] at h
    subst h
    exact ⟨fun c hmem => hok c (by simpa [goOn] using hmem), hcaller⟩
  | returned | joined => simp [threadfuncStep] at h

/-- **A finishing step.** -/
theorem finishing_step {e : ThreadingEvent μ} (hu : s.Undisturbed) (he : Finishing e)
    (h : s.step e = some t) : t.Undisturbed ∧ t.left < s.left := by
  have hinv := step_inv hu.inv h
  rcases he with ⟨p, rfl⟩ | ⟨p, rfl⟩
  · obtain ⟨pc, d, hp, hd, -, hstep⟩ := hu.inv.thread_cases h
    obtain ⟨pc', calls, -, -, -, hleft, hthread, hlog, hcalls, -⟩ := threadfuncStep_cases hd hstep
    obtain ⟨hok, hcaller⟩ := threadfuncStep_true hstep hu.ok hu.caller
    have hnone : ∀ c ∈ calls, c.created = none := by
      intro c hmem
      have hthr := hcalls c hmem
      cases c <;> simp [ThreadCall.thread] at hthr <;> rfl
    exact ⟨⟨hinv, hok, step_exclusive hu.inv hu.exclusive h hok, hcaller⟩,
      left_lt hu.inv hp hleft hthread hlog hnone⟩
  · have hexcl : (∀ c ∈ t.log, c.Ok) → t.Exclusive := step_exclusive hu.inv hu.exclusive h
    simp only [step] at h
    split_ifs at h with hp
    rw [Option.some.injEq, joinThread_eq hu.inv hp] at h
    subst h
    have hok : ∀ c ∈ s.log ++ [ThreadCall.join p true], c.Ok := by
      intro c hmem
      rcases List.mem_append.1 hmem with hmem | hmem
      · exact hu.ok c hmem
      · rw [List.mem_singleton.1 hmem]
        trivial
    exact ⟨⟨hinv, hok, hexcl hok, hu.caller⟩,
      left_lt hu.inv hp rfl rfl rfl (by simp [ThreadCall.created])⟩

/-- A thread that is not in front of the lock goes on, or can be joined. -/
theorem enabled_of_ne_lock (hi : s.Inv) (hp : s.thread p = some pc) (hlock : pc ≠ .lock)
    (hjoined : pc ≠ .joined) : ∃ e, Finishing e ∧ (s.step e).isSome = true := by
  obtain ⟨d, hd⟩ := hi.carries p pc hp
  have hthread : pc.success = false → (s.threadfuncStep p d true pc).isSome = true →
      ∃ e, Finishing e ∧ (s.step e).isSome = true := by
    intro hrun hsome
    refine ⟨.thread p true, Or.inl ⟨p, rfl⟩, ?_⟩
    simp only [step, hp, hrun, Bool.false_eq_true, if_false]
    rwa [threadfunc_eq hd hjoined]
  cases pc with
  | lock => exact absurd rfl hlock
  | joined => exact absurd rfl hjoined
  | returned => exact ⟨.join p, Or.inr ⟨p, rfl⟩, by simp [step, hp]⟩
  | sleepObtain | sleepRelease | unlock | finish => exact hthread rfl rfl

/-- **The threads are never stuck**: who waits for a mutex waits for a thread that can go on. -/
theorem finishing_enabled (hu : s.Undisturbed) (hp : s.thread p = some pc) (hpc : pc ≠ .joined) :
    ∃ e, Finishing e ∧ (s.step e).isSome = true := by
  by_cases hlock : pc = .lock
  · subst hlock
    obtain ⟨d, hd⟩ := hu.inv.carries p _ hp
    rcases howner : s.owner d.mutex with _ | holder
    · refine ⟨.thread p true, Or.inl ⟨p, rfl⟩, ?_⟩
      simp only [step, hp, ThreadfuncPc.success, Bool.false_eq_true, if_false]
      rw [threadfunc_eq hd hpc]
      simp [threadfuncStep, howner]
    · cases holder with
      | caller => exact absurd howner (hu.caller _)
      | thread q =>
        obtain ⟨qc, e, hq, hin, -⟩ := (hu.exclusive _ q).1 howner
        refine enabled_of_ne_lock hu.inv hq ?_ ?_ <;> rintro rfl <;> exact absurd hin (by decide)
  · exact enabled_of_ne_lock hu.inv hp hlock hpc

end Progress

/-- **The threads obtain the mutex one after the other, and all of them return.**  In every run no
block is accessed after it has been freed, the blocks that are left are those of the threads that
have not been joined, each thread makes the calls it was started for in their order and no other
ones, it is joined once, when it has made them, and it reports success whether or not they went
well.  As long as none has failed, only one thread at a time is between the lock and the unlock of a
mutex.  Once the caller has unlocked its mutexes, the threads and their joins go on for at most six
steps for each thread, and they can always go on until all threads have been joined and no block
is left. -/
theorem threads_obtain_mutex {es : List (ThreadingEvent μ)} {s : Threading μ}
    (h : Exec.run step start es = some s) :
    (s.heap.faults = [] ∧
      ∀ p, s.heap.block p ≠ none ↔ ∃ pc, s.thread p = some pc ∧ pc ≠ .joined) ∧
    (∀ p mutex obtainMs releaseMs, .create p mutex obtainMs releaseMs ∈ s.log →
      ∃ pc l u, s.thread p = some pc ∧
        s.callsOf p = [ThreadCall.usleep p (usleepArg obtainMs), .lock p mutex l,
          .usleep p (usleepArg releaseMs), .unlock p mutex u].take pc.done) ∧
    ((s.log.filterMap ThreadCall.joined).Nodup ∧
      ∀ p ok, .join p ok ∈ s.log ↔ ok = true ∧ s.thread p = some .joined) ∧
    ((∀ c ∈ s.log, c.Ok) →
      (∀ mutex p q, s.Inside p mutex → s.Inside q mutex → p = q) ∧
      ((∀ mutex, s.owner mutex ≠ some .caller) → ∀ es' t, (∀ e ∈ es', Finishing e) →
        Exec.run step s es' = some t → es'.length ≤ 6 * s.created.card ∧
        ∃ es'' u, (∀ e ∈ es'', Finishing e) ∧ Exec.run step t es'' = some u ∧
          (∀ p pc, u.thread p = some pc → pc = .joined) ∧ ∀ p, u.heap.block p = none)) := by
  have hi := run_inv h
  refine ⟨⟨hi.faults, hi.live_iff⟩, fun p mutex obtainMs releaseMs hmem => ?_,
    ⟨hi.join_once, hi.join_iff⟩, fun hok => ?_⟩
  · exact hi.calls_of_created hmem
  · have he := run_exclusive h hok
    refine ⟨fun mutex p q hp hq => ?_, fun hcaller es' t hfin hrun => ?_⟩
    · have hthread := ((he mutex p).2 hp).symm.trans ((he mutex q).2 hq)
      rwa [Option.some.injEq, MutexHolder.thread.injEq] at hthread
    · have hstep : ∀ (v : Threading μ) e w, v.Undisturbed → Finishing e → v.step e = some w →
          w.Undisturbed ∧ w.left < v.left := fun v e w hv hfe hw => finishing_step hv hfe hw
      obtain ⟨ht, hlen⟩ := Exec.run_length_le hstep ⟨hi, hok, he, hcaller⟩ hfin hrun
      have hle := s.left_le
      have hmove : ∀ v : Threading μ, v.Undisturbed →
          ¬ (∀ p pc, v.thread p = some pc → pc = .joined) → ∃ e w, Finishing e ∧ v.step e = some w ∧
            w.Undisturbed ∧ w.left < v.left := by
        intro v hv hgoal
        push Not at hgoal
        obtain ⟨p, pc, hp, hpc⟩ := hgoal
        obtain ⟨e, hfe, hsome⟩ := finishing_enabled hv hp hpc
        obtain ⟨w, hw⟩ := Option.isSome_iff_exists.1 hsome
        exact ⟨e, w, hfe, hw, finishing_step hv hfe hw⟩
      obtain ⟨es'', u, hall, hrun', hu, hend⟩ := Exec.exists_run_goal hmove ht
      refine ⟨by omega, es'', u, hall, hrun', hend, fun p => ?_⟩
      by_contra hlive
      obtain ⟨pc, hp, hpc⟩ := (hu.inv.live_iff p).1 hlive
      exact hpc (hend p pc hp)

/-- Two threads are started with one mutex; the second waits while the first one has it. -/
theorem threads_obtain_mutex_two :
    let es : List (ThreadingEvent Unit) := [.start () 10 20 true true, .start () 0 5 true true,
      .thread 1 true, .thread 0 true, .thread 0 true]
    ∃ s, Exec.run step start es = some s ∧ s.Inside 0 () ∧ ¬ s.Inside 1 () ∧
      ∃ es' u, Exec.run step s es' = some u ∧ ∀ p, u.heap.block p = none := by
  intro es
  have hrun : ∃ s : Threading Unit, Exec.run step start es = some s ∧
      s.log = [.create 0 () 10 20, .create 1 () 0 5, .usleep 1 (some 0), .usleep 0 (some 10000),
        .lock 0 () true] ∧ s.owner () = some (.thread 0) ∧ s.Inside 0 () :=
    ⟨_, rfl, rfl, rfl, .sleepRelease, _, rfl, rfl, rfl, rfl⟩
  obtain ⟨s, hs, hlog, howner, hin⟩ := hrun
  have hok : ∀ c ∈ s.log, c.Ok := by
    rw [hlog]
    simp [ThreadCall.Ok]
  obtain ⟨-, -, -, hgood⟩ := threads_obtain_mutex hs
  obtain ⟨hexcl, hend⟩ := hgood hok
  refine ⟨s, hs, hin, fun hin' => absurd (hexcl () 0 1 hin hin') (by decide), ?_⟩
  obtain ⟨-, es', u, -, hrun, -, hnone⟩ := hend (fun _ => by simp [howner]) [] s (by simp) rfl
  exact ⟨es', u, hrun, hnone⟩

end Threading

end Aesd
