import Aesd.Lib.LinkedList
import Aesd.Lib.Run

/-!
# The threads of the server and their records (`main` and `cleanup` in `server/aesdsocket.c`)

`main` makes a record for each connection, starts its handler, and puts the record at the head of
`thread_list`; then it walks along the list and joins, unlinks and frees the records whose handlers
have set `work_done`.  `cleanup` drains the same list.  It runs in the thread that calls it or that
a signal is delivered to, and it never comes back.

A step is one statement of one thread; the loop of `SLIST_REMOVE` is walked record by record.  A
call of `pthread_join` is two steps, the call and the return, which waits for the thread to return.
It is an error to join the thread one runs in, or one that has been passed to `pthread_join` before.

Records are numbered in the order of their allocation, and a number is not used again.  `log` is
what has been done to them.
-/

namespace Aesd

open LinkedList

/-- `main`, or the handler that was started with a record. -/
inductive Tid
  | main
  | handler (p : ℕ)
  deriving DecidableEq

/-- What is done to a record: it is read or written, its thread is passed to `pthread_join`, which
returns some time, it is freed; and `null` is an access through a null pointer. -/
inductive Action
  | touch (p : ℕ)
  | passed (t : Tid) (p : ℕ)
  | joined (p : ℕ)
  | freed (p : ℕ)
  | null
  deriving DecidableEq

/-- The record that is accessed. -/
def Action.record : Action → Option ℕ
  | touch p | passed _ p | freed p => some p
  | joined _ | null => none

/-- In the accept loop, in front of a statement; `thread` and `tmp` are `thread` and
`thread_tmp`. -/
inductive MainPc
  | accept
  | malloc
  | fill (new : ℕ)
  | create (new : ℕ)
  | insert (new : ℕ)
  | first
  | test (thread : Option ℕ)
  | check (thread : ℕ) (tmp : Option ℕ)
  | join (thread : ℕ) (tmp : Option ℕ)
  | joining (thread : ℕ) (tmp : Option ℕ)
  | remove (thread : ℕ) (tmp : Option ℕ)
  | walk (thread : ℕ) (tmp : Option ℕ) (curelm : ℕ)
  | free (thread : ℕ) (tmp : Option ℕ)
  deriving DecidableEq

/-- In `handle_connection`: before it has read its record, in its body, after `work_done = 1`,
and when it has returned. -/
inductive HandlerPc
  | start
  | work
  | finished
  | returned
  deriving DecidableEq

/-- In `cleanup`. -/
inductive CleanupPc
  | test
  | first
  | removeHead (thread : Option ℕ)
  | join (thread : Option ℕ)
  | joining (thread : ℕ)
  | free (thread : ℕ)
  | exit
  deriving DecidableEq

/-- Where a thread is: in its own code, or in `cleanup` for good. -/
inductive Pos (π : Type)
  | code (pc : π)
  | cleanup (pc : CleanupPc)
  deriving DecidableEq

/-- The head of `thread_list` and the links, `work_done` of each record, how many records have been
allocated, where the threads are, what has been done to the records, and whether the process has
exited. -/
structure Threads where
  first : Option ℕ
  next : ℕ → Option ℕ
  workDone : ℕ → Bool
  count : ℕ
  main : Pos MainPc
  handler : ℕ → Option (Pos HandlerPc)
  log : List Action
  exited : Bool

/-- What happens next: a statement of `main`, which goes well or not; a statement of a handler; an
error on which a handler calls `cleanup` or `exit`; a signal; a statement of `cleanup`. -/
inductive ThreadEvent
  | main (ok : Bool)
  | handler (p : ℕ)
  | error (p : ℕ)
  | quit (p : ℕ)
  | signal (t : Tid)
  | cleanup (t : Tid)
  deriving DecidableEq

namespace Threads

/-- The accept loop begins. -/
def start : Threads :=
  ⟨none, fun _ => none, fun _ => false, 0, .code .accept, fun _ => none, [], false⟩

/-- Something is done to records. -/
def acts (s : Threads) (as : List Action) : Threads := { s with log := s.log ++ as }

/-- `main` goes on. -/
def mainAt (s : Threads) (pc : MainPc) : Threads := { s with main := .code pc }

/-- A handler goes on. -/
def handlerAt (s : Threads) (p : ℕ) (pc : HandlerPc) : Threads :=
  { s with handler := Function.update s.handler p (some (.code pc)) }

/-- A thread is in `cleanup`. -/
def cleanupAt (s : Threads) (pc : CleanupPc) : Tid → Threads
  | .main => { s with main := .cleanup pc }
  | .handler p => { s with handler := Function.update s.handler p (some (.cleanup pc)) }

/-- The process ends. -/
def exits (s : Threads) : Threads := { s with exited := true }

/-- An access through a null pointer. -/
def crash (s : Threads) : Threads := (s.acts [.null]).exits

/-- `pthread_join` fails: the thread would wait for itself, or another call has had the thread. -/
def JoinFails (s : Threads) (t : Tid) (p : ℕ) : Prop :=
  t = .handler p ∨ ∃ t', .passed t' p ∈ s.log

/-- Whether `pthread_join` has been called for a record. -/
def passedBy (log : List Action) (p : ℕ) : Bool :=
  log.any fun a => match a with
    | .passed _ q => q = p
    | .touch _ | .joined _ | .freed _ | .null => false

theorem passedBy_iff {log : List Action} {p : ℕ} :
    passedBy log p = true ↔ ∃ t, .passed t p ∈ log := by
  unfold passedBy
  rw [List.any_eq_true]
  constructor
  · rintro ⟨a, ha, h⟩
    cases a <;> simp at h
    subst h
    exact ⟨_, ha⟩
  · rintro ⟨t, ht⟩
    exact ⟨_, ht, by simp⟩

instance (s : Threads) (t : Tid) (p : ℕ) : Decidable (s.JoinFails t p) :=
  decidable_of_iff (t = .handler p ∨ passedBy s.log p = true) (or_congr Iff.rfl passedBy_iff)

/-- Lines 329 to 373: the next statement of `main`; `ok` tells whether a call that can fail goes
well. -/
def mainStep (s : Threads) (ok : Bool) : MainPc → Option Threads
  | .accept => some (s.mainAt (if ok then .malloc else .accept))
  | .malloc =>
    if ok then some { s.mainAt (.fill s.count) with count := s.count + 1 }
    else some (s.cleanupAt .test .main)
  | .fill p =>
    some { (s.acts [.touch p]).mainAt (.create p) with
      workDone := Function.update s.workDone p false }
  | .create p =>
    if ok then some (((s.acts [.touch p]).handlerAt p .start).mainAt (.insert p))
    else some ((s.acts [.touch p]).cleanupAt .test .main)
  | .insert p =>
    some { (s.acts [.touch p]).mainAt .first with
      first := some p
      next := Function.update s.next p s.first }
  | .first => some (s.mainAt (.test s.first))
  | .test none => some (s.mainAt .accept)
  | .test (some p) => some ((s.acts [.touch p]).mainAt (.check p (s.next p)))
  | .check p tmp =>
    some ((s.acts [.touch p]).mainAt (if s.workDone p then .join p tmp else .test tmp))
  | .join p tmp =>
    if s.JoinFails .main p then some ((s.acts [.passed .main p]).cleanupAt .test .main)
    else some ((s.acts [.passed .main p]).mainAt (.joining p tmp))
  | .joining p tmp =>
    if s.handler p = some (.code .returned) then
      some ((s.acts [.joined p]).mainAt (.remove p tmp))
    else none
  | .remove p tmp =>
    -- `SLIST_REMOVE`: the head, or the record behind one that is looked for
    if s.first = some p then
      some { (s.acts [.touch p]).mainAt (.free p tmp) with first := s.next p }
    else match s.first with
      | some c => some (s.mainAt (.walk p tmp c))
      | none => some s.crash
  | .walk p tmp c =>
    if s.next c = some p then
      some { (s.acts [.touch c, .touch p]).mainAt (.free p tmp) with
        next := Function.update s.next c (s.next p) }
    else match s.next c with
      | some d => some ((s.acts [.touch c]).mainAt (.walk p tmp d))
      | none => some (s.acts [.touch c]).crash
  | .free p tmp => some ((s.acts [.freed p]).mainAt (.test tmp))

/-- The next statement of a handler. -/
def handlerStep (s : Threads) (p : ℕ) : HandlerPc → Option Threads
  | .start => some ((s.acts [.touch p]).handlerAt p .work)
  | .work =>
    some { (s.acts [.touch p]).handlerAt p .finished with
      workDone := Function.update s.workDone p true }
  | .finished => some (s.handlerAt p .returned)
  | .returned => none

/-- Lines 66 to 92: the next statement of the `cleanup` that thread `t` is in. -/
def cleanupStep (s : Threads) (t : Tid) : CleanupPc → Option Threads
  | .test => some (s.cleanupAt (if s.first = none then .exit else .first) t)
  | .first => some (s.cleanupAt (.removeHead s.first) t)
  | .removeHead thread => match s.first with
    | some q => some { (s.acts [.touch q]).cleanupAt (.join thread) t with first := s.next q }
    | none => some s.crash
  | .join thread => match thread with
    | some p =>
      if s.JoinFails t p then some ((s.acts [.passed t p]).cleanupAt .exit t)
      else some ((s.acts [.passed t p]).cleanupAt (.joining p) t)
    | none => some s.crash
  | .joining p =>
    if s.handler p = some (.code .returned) then
      some ((s.acts [.joined p]).cleanupAt (.free p) t)
    else none
  | .free p => some ((s.acts [.freed p]).cleanupAt .test t)
  | .exit => some s.exits

/-- One step. -/
def step (s : Threads) (e : ThreadEvent) : Option Threads :=
  if s.exited then none
  else match e with
    | .main ok => match s.main with
      | .code pc => s.mainStep ok pc
      | .cleanup _ => none
    | .handler p => match s.handler p with
      | some (.code pc) => s.handlerStep p pc
      | _ => none
    | .error p => match s.handler p with
      | some (.code .work) => some (s.cleanupAt .test (.handler p))
      | _ => none
    | .quit p => match s.handler p with
      | some (.code .work) => some s.exits
      | _ => none
    -- `handle_signal` runs `cleanup` where the thread is, also inside another `cleanup`
    | .signal .main => some (s.cleanupAt .test .main)
    | .signal (.handler p) => match s.handler p with
      | none | some (.code .returned) => none
      | some _ => some (s.cleanupAt .test (.handler p))
    | .cleanup .main => match s.main with
      | .code _ => none
      | .cleanup pc => s.cleanupStep .main pc
    | .cleanup (.handler p) => match s.handler p with
      | some (.cleanup pc) => s.cleanupStep (.handler p) pc
      | _ => none

end Threads

end Aesd
