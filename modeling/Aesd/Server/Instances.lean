import Aesd.Lib.NamedFile
import Aesd.Lib.Run
import Aesd.Server.Handler

/-!
# The server started more than once (`daemonize`, `main` and `cleanup` in `server/aesdsocket.c`)

Every start of the program is an instance of its own; in the build without the driver they have one
data file, `/var/tmp/aesdsocketdata`, which `cleanup` deletes by its name, whoever runs it: also an
instance that does not get as far as its accept loop because another one has the port.

An instance makes the calls of its start one after the other.  From then on several threads run in
it; which of its open files `datafd` stands for is told in `Process`, so here a thread may write
through any of them.  While one thread is in `cleanup` the others go on, up to the `exit`.

* `stepInst_accounts`: how an instance comes into `cleanup` and to its end;
* `step_inv`, `run_inv`: the data file goes through its epochs as the instances open, write and
  delete it;
* `instances_logs`: what the handlers find, in any run of any number of instances;
* `one_store`: as long as nobody deletes it, the file is the one of `fileDriver`.
-/

namespace Aesd

/-- The calls of `daemonize` and `main` in front of the accept loop that decide how it goes on; the
two of `signal` are one. -/
inductive StartCall
  | fork
  | setsid
  | chdir
  | signal
  | socket
  | setsockopt
  | bind
  | listen
  | pthreadCreate
  deriving DecidableEq

namespace StartCall

/-- The call after this one; after the last the accept loop begins. -/
def next : StartCall → Option StartCall
  | fork => some setsid
  | setsid => some chdir
  | chdir => some signal
  | signal => some socket
  | socket => some setsockopt
  | setsockopt => some bind
  | bind => some listen
  | listen => some pthreadCreate
  | pthreadCreate => none

/-- Behind `signal(SIGINT, ..)` and `signal(SIGTERM, ..)`. -/
def handlesSignals : StartCall → Bool
  | fork | setsid | chdir | signal => false
  | socket | setsockopt | bind | listen | pthreadCreate => true

end StartCall

/-- Where an instance stands: not started, in front of a call of its start, in the accept loop, or
at its end. -/
inductive Stage
  | idle
  | starting (c : StartCall)
  | serving
  | ended
  deriving DecidableEq

/-- An instance: its stage, whether a thread is in `cleanup` and one has come past `remove`, and its
open files. -/
structure Instance where
  stage : Stage
  cleanup : Option Bool
  fds : List ℕ

namespace Instance

/-- Before the start. -/
def idle : Instance := ⟨.idle, none, []⟩

/-- After the end: nothing is open. -/
def ended : Instance := ⟨.ended, none, []⟩

/-- A thread calls `cleanup`. -/
def cleansUp (p : Instance) : Instance := { p with cleanup := some (p.cleanup.getD false) }

/-- `main` starts; with `-d`, in `daemonize`, whose child goes on. -/
def exec (daemon : Bool) : Instance := ⟨.starting (if daemon then .fork else .signal), none, []⟩

/-- A call of the start has come back. -/
def called (p : Instance) (c : StartCall) (ok : Bool) : Instance :=
  -- what `signal` returns is not looked at
  if ok ∨ c = .signal then { p with stage := c.next.elim .serving .starting }
  -- `return -1`
  else if c = .listen then ended
  else p.cleansUp

end Instance

/-- The data file and the instances. -/
structure Instances (ι : Type*) where
  file : NamedFile UInt8
  inst : ι → Instance

/-- What happens next, and to which instance: a start; the result of a call of the start; a signal;
a signal that the program does not handle, such as the one for a `send` to a closed connection; a
handler that opens the data file; bytes that are written through an open file; a close; an error on
which a thread calls `cleanup`; in `cleanup`, the deletion, a `pthread_join` that fails, and the
exit. -/
inductive InstanceEvent (ι : Type*)
  | exec (i : ι) (daemon : Bool)
  | call (i : ι) (ok : Bool)
  | signal (i : ι)
  | killed (i : ι)
  | opens (i : ι) (ok : Bool)
  | writes (i : ι) (d : ℕ) (b : List UInt8)
  | closes (i : ι) (d : ℕ)
  | fails (i : ι)
  | remove (i : ι) (ok : Bool)
  | joinFails (i : ι)
  | exit (i : ι)

/-- The instance that an event is about. -/
def InstanceEvent.inst {ι : Type*} : InstanceEvent ι → ι
  | .exec i _ | .call i _ | .signal i | .killed i | .opens i _ | .writes i _ _ | .closes i _
  | .fails i | .remove i _ | .joinFails i | .exit i => i

/-- What an event does to the data file. -/
def InstanceEvent.op {ι : Type*} : InstanceEvent ι → Option (NameOp UInt8)
  | .opens _ true => some .open
  | .writes _ d b => some (.append d b)
  | .remove _ true => some .unlink
  | .opens _ false | .remove _ false | .exec _ _ | .call _ _ | .signal _ | .killed _ | .closes _ _
  | .fails _ | .joinFails _ | .exit _ => none

/-- The bytes that an event writes. -/
def InstanceEvent.written {ι : Type*} : InstanceEvent ι → Option (List UInt8)
  | .writes _ _ b => some b
  | _ => none

namespace Instances

variable {ι : Type*}

/-- Before the first start; the file may be there. -/
def start (c : Option (List UInt8)) : Instances ι := ⟨.start c, fun _ => .idle⟩

/-- The event, as far as instance `i` is concerned; `fresh` is the next open file. -/
def stepInst (p : Instance) (fresh : ℕ) : InstanceEvent ι → Option Instance
  | .exec _ daemon => if p.stage = .idle then some (.exec daemon) else none
  | .call _ ok => match p.stage, p.cleanup with
    | .starting c, none => some (p.called c ok)
    | _, _ => none
  | .signal _ => match p.stage with
    | .starting c => some (if c.handlesSignals then p.cleansUp else .ended)
    | .serving => some p.cleansUp
    | .idle | .ended => none
  | .killed _ => if p.stage ≠ .idle ∧ p.stage ≠ .ended then some .ended else none
  | .opens _ ok =>
    if p.stage = .serving then some (if ok then { p with fds := fresh :: p.fds } else .ended)
    else none
  | .writes _ d _ => if p.stage = .serving ∧ d ∈ p.fds then some p else none
  | .closes _ d =>
    if p.stage = .serving ∧ d ∈ p.fds then some { p with fds := p.fds.erase d } else none
  | .fails _ => if p.stage = .serving then some p.cleansUp else none
  | .remove _ _ => if p.cleanup.isSome then some { p with cleanup := some true } else none
  | .joinFails _ => if p.stage = .serving ∧ p.cleanup.isSome then some .ended else none
  | .exit _ => if p.cleanup = some true then some .ended else none

/-- Instance `i` goes on as `p`. -/
def set [DecidableEq ι] (s : Instances ι) (i : ι) (p : Instance) : Instances ι :=
  { s with inst := Function.update s.inst i p }

/-- One step. -/
def step [DecidableEq ι] (s : Instances ι) (e : InstanceEvent ι) : Option (Instances ι) :=
  match stepInst (s.inst e.inst) s.file.opened.length e with
  | none => none
  | some p => match e.op with
    | none => some (s.set e.inst p)
    | some op => (s.file.step op).map fun file => { s.set e.inst p with file := file }

/-- The epochs of the data file in a run. -/
def epochs (c : Option (List UInt8)) (es : List (InstanceEvent ι)) : Epochs UInt8 :=
  (Epochs.start c).run (es.filterMap InstanceEvent.op)

/-- Instance `i` comes into `cleanup`: an error, a signal, or a call of its start that fails. -/
def CallsCleanup (i : ι) (x : Exec.Trans (Instances ι) (InstanceEvent ι)) : Prop :=
  match x.event with
  | .fails j => j = i
  | .signal j => j = i ∧ ∀ c, (x.before.inst i).stage = .starting c → c.handlesSignals = true
  | .call j ok => j = i ∧ ok = false ∧ (x.before.inst i).stage ≠ .starting .listen ∧
    (x.before.inst i).stage ≠ .starting .signal
  | _ => False

/-- Instance `i` ends and leaves the data file alone: `open`, `pthread_join` in `cleanup` or
`listen` fails, it is killed, or a signal comes too early. -/
def EndsQuietly (i : ι) (x : Exec.Trans (Instances ι) (InstanceEvent ι)) : Prop :=
  match x.event with
  | .opens j ok => j = i ∧ ok = false
  | .joinFails j | .killed j => j = i
  | .signal j => j = i ∧ ∃ c, (x.before.inst i).stage = .starting c ∧ c.handlesSignals = false
  | .call j ok => j = i ∧ ok = false ∧ (x.before.inst i).stage = .starting .listen
  | _ => False

/-- Instance `i` has come to `remove`. -/
def Removes (i : ι) (x : Exec.Trans (Instances ι) (InstanceEvent ι)) : Prop :=
  ∃ ok, x.event = .remove i ok

/-! ### One step -/

section Step

variable {s t : Instances ι} {e : InstanceEvent ι}

/-- What the step says of its instance. -/
structure Accounts (x : Exec.Trans (Instances ι) (InstanceEvent ι)) (i : ι) (q : Instance) :
    Prop where
  cleaning : q.cleanup.isSome → (x.before.inst i).cleanup.isSome ∨ CallsCleanup i x
  removed : q.cleanup = some true → (x.before.inst i).cleanup = some true ∨ Removes i x
  ended : q.stage = .ended → (x.before.inst i).stage = .ended ∨
    (x.before.inst i).cleanup = some true ∨ EndsQuietly i x
  remover : Removes i x → (x.before.inst i).cleanup.isSome

/-- A thread calls `cleanup`. -/
theorem accounts_cleansUp {x : Exec.Trans (Instances ι) (InstanceEvent ι)} {i : ι}
    (hx : CallsCleanup i x) : Accounts x i (x.before.inst i).cleansUp where
  cleaning _ := Or.inr hx
  removed h := by
    left
    cases hc : (x.before.inst i).cleanup with
    | none => simp [Instance.cleansUp, hc] at h
    | some r => simpa [Instance.cleansUp, hc] using h
  ended h := Or.inl h
  remover := by
    rintro ⟨ok, hok⟩
    unfold CallsCleanup at hx
    rw [hok] at hx
    exact hx.elim

/-- The instance ends. -/
theorem accounts_ended {x : Exec.Trans (Instances ι) (InstanceEvent ι)} {i : ι}
    (hx : EndsQuietly i x ∨ (x.before.inst i).cleanup = some true ∧ ¬ Removes i x) :
    Accounts x i .ended where
  cleaning h := by simp [Instance.ended] at h
  removed h := by simp [Instance.ended] at h
  ended _ := hx.elim (fun h => Or.inr (Or.inr h)) fun h => Or.inr (Or.inl h.1)
  remover := by
    rintro ⟨ok, hok⟩
    rcases hx with hx | hx
    · unfold EndsQuietly at hx
      rw [hok] at hx
      exact hx.elim
    · exact absurd ⟨ok, hok⟩ hx.2

/-- The instance goes on in another stage or with other open files. -/
theorem accounts_on {x : Exec.Trans (Instances ι) (InstanceEvent ι)} {i : ι} {q : Instance}
    (hc : q.cleanup = none ∨ q.cleanup = (x.before.inst i).cleanup)
    (hs : q.stage ≠ .ended ∨ q.stage = (x.before.inst i).stage) (hx : ¬ Removes i x) :
    Accounts x i q where
  cleaning h := by
    left
    rcases hc with hc | hc
    · simp [hc] at h
    · rwa [← hc]
  removed h := by
    left
    rcases hc with hc | hc
    · simp [hc] at h
    · rwa [← hc]
  ended h := Or.inl (hs.elim (fun hne => absurd h hne) fun hs => hs ▸ h)
  remover h := absurd h hx

/-- **One step of an instance.** -/
theorem stepInst_accounts {q : Instance} {n : ℕ}
    (h : stepInst (s.inst e.inst) n e = some q) : Accounts ⟨s, e, t⟩ e.inst q := by
  cases e with
  | exec i daemon =>
    simp only [stepInst] at h
    split_ifs at h with hi
    rw [← Option.some.inj h]
    refine accounts_on (Or.inl rfl) (Or.inl ?_) (by simp [Removes])
    simp [Instance.exec]
  | call i ok =>
    simp only [stepInst] at h
    split at h
    · rename_i c hstage hcleanup
      rw [← Option.some.inj h]
      unfold Instance.called
      split_ifs with h1 h2
      · refine accounts_on (Or.inr rfl) (Or.inl ?_) (by simp [Removes])
        cases hn : c.next <;> simp
      · refine accounts_ended (Or.inl ⟨rfl, ?_, ?_⟩)
        · simpa using fun hok => h1 (Or.inl hok)
        · rw [← h2]; exact hstage
      · refine accounts_cleansUp ⟨rfl, ?_, ?_, ?_⟩
        · simpa using fun hok => h1 (Or.inl hok)
        · intro hc
          exact h2 (Stage.starting.inj (hstage.symm.trans hc))
        · intro hc
          exact h1 (Or.inr (Stage.starting.inj (hstage.symm.trans hc)))
    · cases h
  | signal i =>
    simp only [stepInst] at h
    split at h
    · rename_i c hstage
      rw [← Option.some.inj h]
      split_ifs with hc
      · refine accounts_cleansUp ⟨rfl, fun c' hc' => ?_⟩
        rw [← Stage.starting.inj (hstage.symm.trans hc')]
        exact hc
      · exact accounts_ended (Or.inl ⟨rfl, c, hstage, by simpa using hc⟩)
    · rename_i hstage
      rw [← Option.some.inj h]
      refine accounts_cleansUp ⟨rfl, fun c' hc' => ?_⟩
      exact absurd (hstage.symm.trans hc') (by simp)
    · cases h
    · cases h
  | killed i =>
    simp only [stepInst] at h
    split_ifs at h with hi
    rw [← Option.some.inj h]
    exact accounts_ended (Or.inl rfl)
  | opens i ok =>
    simp only [stepInst] at h
    split_ifs at h with hi hok
    · rw [← Option.some.inj h]
      exact accounts_on (Or.inr rfl) (Or.inr rfl) (by simp [Removes])
    · rw [← Option.some.inj h]
      exact accounts_ended (Or.inl ⟨rfl, by simpa using hok⟩)
  | writes i d b =>
    simp only [stepInst] at h
    split_ifs at h with hi
    rw [← Option.some.inj h]
    exact accounts_on (Or.inr rfl) (Or.inr rfl) (by simp [Removes])
  | closes i d =>
    simp only [stepInst] at h
    split_ifs at h with hi
    rw [← Option.some.inj h]
    exact accounts_on (Or.inr rfl) (Or.inr rfl) (by simp [Removes])
  | fails i =>
    simp only [stepInst] at h
    split_ifs at h with hi
    rw [← Option.some.inj h]
    exact accounts_cleansUp rfl
  | remove i ok =>
    simp only [stepInst] at h
    split_ifs at h with hi
    rw [← Option.some.inj h]
    exact ⟨fun _ => Or.inl hi, fun _ => Or.inr ⟨ok, rfl⟩, fun h => Or.inl h, fun _ => hi⟩
  | joinFails i =>
    simp only [stepInst] at h
    split_ifs at h with hi
    rw [← Option.some.inj h]
    exact accounts_ended (Or.inl rfl)
  | exit i =>
    simp only [stepInst] at h
    split_ifs at h with hi
    rw [← Option.some.inj h]
    exact accounts_ended (Or.inr ⟨hi, by simp [Removes]⟩)

/-- The open files of an instance: those it had, and the new one. -/
theorem stepInst_fds {p q : Instance} {n : ℕ} (h : stepInst p n e = some q) :
    ∀ d ∈ q.fds, d ∈ p.fds ∨ d = n ∧ ∃ i, e = .opens i true := by
  intro d hd
  cases e with
  | opens i ok =>
    simp only [stepInst] at h
    split_ifs at h with hi hok
    · rw [← Option.some.inj h] at hd
      rcases List.mem_cons.1 hd with rfl | hd
      · exact Or.inr ⟨rfl, i, by rw [hok]⟩
      · exact Or.inl hd
    · rw [← Option.some.inj h] at hd
      simp [Instance.ended] at hd
  | closes i d' =>
    simp only [stepInst] at h
    split_ifs at h with hi
    rw [← Option.some.inj h] at hd
    exact Or.inl (List.mem_of_mem_erase hd)
  | call i ok =>
    simp only [stepInst] at h
    split at h
    · rw [← Option.some.inj h] at hd
      unfold Instance.called at hd
      split_ifs at hd
      · exact Or.inl hd
      · simp [Instance.ended] at hd
      · exact Or.inl hd
    · cases h
  | signal i =>
    simp only [stepInst] at h
    split at h
    · rw [← Option.some.inj h] at hd
      split_ifs at hd
      · exact Or.inl hd
      · simp [Instance.ended] at hd
    · rw [← Option.some.inj h] at hd
      exact Or.inl hd
    · cases h
    · cases h
  | exec i daemon | killed i | writes i d' b | fails i | remove i ok | joinFails i | exit i =>
    simp only [stepInst] at h
    split_ifs at h
    rw [← Option.some.inj h] at hd
    first
      | exact Or.inl hd
      | simp [Instance.ended, Instance.exec] at hd

end Step

/-! ### Runs -/

/-- The instances that have opened the data file, in their order. -/
def openers (es : List (InstanceEvent ι)) : List ι :=
  es.filterMap fun e => match e with
    | .opens i true => some i
    | _ => none

/-- What holds after the events `es`, whose steps are `tr`. -/
structure Inv (c : Option (List UInt8)) (es : List (InstanceEvent ι))
    (tr : List (Exec.Trans (Instances ι) (InstanceEvent ι))) (t : Instances ι) : Prop where
  refines : t.file.Refines c (epochs c es)
  births : (epochs c es).births.length = (openers es).length
  owner : ∀ i, ∀ d ∈ (t.inst i).fds, (openers es)[d]? = some i
  cleaning : ∀ i, (t.inst i).cleanup.isSome → ∃ x ∈ tr, CallsCleanup i x
  removed : ∀ i, (t.inst i).cleanup = some true → ∃ x ∈ tr, Removes i x
  ended : ∀ i, (t.inst i).stage = .ended →
    (∃ x ∈ tr, Removes i x) ∨ ∃ x ∈ tr, EndsQuietly i x
  remover : ∀ i, (∃ x ∈ tr, Removes i x) → ∃ x ∈ tr, CallsCleanup i x

section History

variable {c : Option (List UInt8)} {t : Instances ι} {es : List (InstanceEvent ι)}
  {e : InstanceEvent ι}

theorem openers_concat (es : List (InstanceEvent ι)) (e : InstanceEvent ι) :
    openers (es ++ [e]) = openers es ++ openers [e] := List.filterMap_append ..

theorem epochs_concat (es : List (InstanceEvent ι)) (e : InstanceEvent ι) :
    epochs c (es ++ [e]) = match e.op with
      | none => epochs c es
      | some op => (epochs c es).step op := by
  unfold epochs
  rw [List.filterMap_append]
  cases hop : e.op with
  | none => simp [hop]
  | some op => simp [hop, Epochs.run_concat]

theorem births_concat (h : (epochs c es).births.length = (openers es).length) :
    (epochs c (es ++ [e])).births.length = (openers (es ++ [e])).length := by
  rw [epochs_concat]
  rw [openers_concat, List.length_append, ← h]
  unfold openers
  cases e with
  | opens i ok => cases ok <;> simp [InstanceEvent.op, Epochs.step]
  | writes i d b =>
    simp only [InstanceEvent.op, Epochs.step]
    cases (epochs c es).births[d]? <;> simp
  | remove i ok => cases ok <;> simp [InstanceEvent.op, Epochs.step]
  | _ => simp [InstanceEvent.op]

theorem start_inv : Inv c [] [] (start c : Instances ι) where
  refines := NamedFile.start_refines c
  births := rfl
  owner i d hd := by simp [start, Instance.idle] at hd
  cleaning i h := by simp [start, Instance.idle] at h
  removed i h := by simp [start, Instance.idle] at h
  ended i h := by simp [start, Instance.idle] at h
  remover i h := by simp at h

/-- An open file is of some epoch. -/
theorem Inv.exists_birth {tr : List (Exec.Trans (Instances ι) (InstanceEvent ι))}
    (h : Inv c es tr t) {i : ι} {d : ℕ} (hd : d ∈ (t.inst i).fds) :
    ∃ k, (epochs c es).births[d]? = some k := by
  have hlt : d < (epochs c es).births.length := by
    rw [h.births]
    exact (List.getElem?_eq_some_iff.1 (h.owner i d hd)).1
  exact ⟨_, List.getElem?_eq_getElem hlt⟩

end History

section Run

variable [DecidableEq ι] {c : Option (List UInt8)} {s t u : Instances ι} {e : InstanceEvent ι}
  {es : List (InstanceEvent ι)}

theorem step_spec (h : s.step e = some t) :
    ∃ p, stepInst (s.inst e.inst) s.file.opened.length e = some p ∧
      t.inst = Function.update s.inst e.inst p ∧
      (∀ op, e.op = some op → s.file.step op = some t.file) ∧ (e.op = none → t.file = s.file) := by
  unfold step at h
  cases hp : stepInst (s.inst e.inst) s.file.opened.length e with
  | none => simp [hp] at h
  | some p =>
    cases hop : e.op with
    | none =>
      simp only [hp, hop, Option.some.injEq] at h
      subst h
      exact ⟨p, rfl, rfl, fun op h => by simp at h, fun _ => rfl⟩
    | some op =>
      simp only [hp, hop, Option.map_eq_some_iff] at h
      obtain ⟨file, hfile, rfl⟩ := h
      refine ⟨p, rfl, rfl, fun op' h => ?_, fun h => by simp at h⟩
      rw [← Option.some.inj h]
      exact hfile

/-- The data file goes through its epochs. -/
theorem step_refines (h : s.file.Refines c (epochs c es)) (he : s.step e = some t) :
    t.file.Refines c (epochs c (es ++ [e])) := by
  obtain ⟨-, -, -, hop, hnone⟩ := step_spec he
  rw [epochs_concat]
  cases h' : e.op with
  | none => exact hnone h' ▸ h
  | some op => exact NamedFile.step_refines h (hop op h')

/-- **One step.** -/
theorem step_inv {tr : List (Exec.Trans (Instances ι) (InstanceEvent ι))} (h : Inv c es tr s)
    (he : s.step e = some t) : Inv c (es ++ [e]) (tr ++ [⟨s, e, t⟩]) t := by
  obtain ⟨p, hp, hinst, -, -⟩ := step_spec he
  have hacc : Accounts ⟨s, e, t⟩ e.inst p := stepInst_accounts hp
  have hself : t.inst e.inst = p := by rw [hinst, Function.update_self]
  have hother : ∀ i, i ≠ e.inst → t.inst i = s.inst i := fun i hi => by
    rw [hinst, Function.update_of_ne hi]
  have hold : ∀ {P : Exec.Trans (Instances ι) (InstanceEvent ι) → Prop}, (∃ x ∈ tr, P x) →
      ∃ x ∈ tr ++ [⟨s, e, t⟩], P x :=
    fun ⟨x, hx, hP⟩ => ⟨x, List.mem_append_left _ hx, hP⟩
  have hnew : ∀ {P : Exec.Trans (Instances ι) (InstanceEvent ι) → Prop}, P ⟨s, e, t⟩ →
      ∃ x ∈ tr ++ [⟨s, e, t⟩], P x :=
    fun hP => ⟨_, List.mem_append_right _ (List.mem_singleton_self _), hP⟩
  have hopened : s.file.opened.length = (openers es).length :=
    h.refines.length_opened.trans h.births
  refine ⟨step_refines h.refines he, births_concat h.births, ?_, ?_, ?_, ?_, ?_⟩
  · intro i d hd
    rw [openers_concat]
    have hkept : ∀ {j}, (openers es)[d]? = some j → (openers es ++ openers [e])[d]? = some j :=
      fun hj => by rw [List.getElem?_append_left (List.getElem?_eq_some_iff.1 hj).1, hj]
    by_cases hi : i = e.inst
    · subst hi
      rw [hself] at hd
      rcases stepInst_fds hp d hd with hd | ⟨rfl, j, rfl⟩
      · exact hkept (h.owner _ d hd)
      · rw [hopened, List.getElem?_append_right le_rfl, Nat.sub_self]
        rfl
    · rw [hother i hi] at hd
      exact hkept (h.owner i d hd)
  · intro i hc
    by_cases hi : i = e.inst
    · subst hi
      rw [hself] at hc
      exact (hacc.cleaning hc).elim (fun hc => hold (h.cleaning _ hc)) hnew
    · rw [hother i hi] at hc
      exact hold (h.cleaning i hc)
  · intro i hc
    by_cases hi : i = e.inst
    · subst hi
      rw [hself] at hc
      exact (hacc.removed hc).elim (fun hc => hold (h.removed _ hc)) hnew
    · rw [hother i hi] at hc
      exact hold (h.removed i hc)
  · intro i hc
    by_cases hi : i = e.inst
    · subst hi
      rw [hself] at hc
      rcases hacc.ended hc with hc | hc | hc
      · exact (h.ended _ hc).imp hold hold
      · exact Or.inl (hold (h.removed _ hc))
      · exact Or.inr (hnew hc)
    · rw [hother i hi] at hc
      exact (h.ended i hc).imp hold hold
  · rintro i ⟨x, hx, hrem⟩
    rcases List.mem_append.1 hx with hx | hx
    · exact hold (h.remover i ⟨x, hx, hrem⟩)
    · obtain rfl := List.mem_singleton.1 hx
      obtain ⟨ok, hok⟩ := hrem
      have hi : e.inst = i := by rw [show e = .remove i ok from hok]; rfl
      subst hi
      exact hold (h.cleaning _ (hacc.remover ⟨ok, hok⟩))

theorem run_inv (h : Exec.run step (start c) es = some t) :
    Inv c es (Exec.trace step (start c) es) t := by
  refine Exec.run_induction (I := fun es t => Inv c es (Exec.trace step (start c) es) t)
    start_inv (fun es s e u hrun ih he => ?_) h
  rw [Exec.trace_concat hrun he]
  exact step_inv ih he

/-- **The logs of the instances.**  However many instances are started and however they run side by
side: a handler finds in its open file what has been written, by anyone, through the files opened
since the last deletion before it was opened, and that is the file with the name exactly if nothing
has been deleted since; under the name is the log since the last deletion; no open file is shared;
an instance comes to delete the file only if it is told to end, a thread of it fails, or a call of
its start other than `listen` does; and an instance that is at its end has come to that, unless its
`listen`, an `open` or a `pthread_join` has failed, it was killed, or the signal came too early. -/
theorem instances_logs (h : Exec.run step (start c) es = some t) :
    let log := epochs c es
    let tr := Exec.trace step (start c) es
    (∀ i, ∀ d ∈ (t.inst i).fds, ∃ k, log.births[d]? = some k ∧
      t.file.through d = some (log.log k) ∧ (t.file.opened[d]? = t.file.name ↔ k = log.current)) ∧
    ((t.file.named = some (log.log log.current) ∧ log.Begun c log.current) ∨
      (t.file.named = none ∧ ¬ log.Begun c log.current)) ∧
    (∀ i j, ∀ d ∈ (t.inst i).fds, d ∈ (t.inst j).fds → i = j) ∧
    (∀ i, (∃ x ∈ tr, Removes i x) → ∃ x ∈ tr, CallsCleanup i x) ∧
    ∀ i, (t.inst i).stage = .ended → (∃ x ∈ tr, Removes i x) ∨ ∃ x ∈ tr, EndsQuietly i x := by
  intro log tr
  have hinv := run_inv h
  refine ⟨fun i d hd => ?_, hinv.refines.named, fun i j d hi hj => ?_, hinv.remover, hinv.ended⟩
  · obtain ⟨k, hk⟩ := hinv.exists_birth hd
    refine ⟨k, hk, ?_, hinv.refines.opened_eq_name_iff hk⟩
    rw [hinv.refines.through, hk]
    rfl
  · exact Option.some.inj ((hinv.owner i d hi).symm.trans (hinv.owner j d hj))

/-- A second instance fails at `bind`, and takes the log of the first away: the handler that has
the old file open goes on with it, the next handler begins a new one. -/
theorem instances_logs_second_start :
    let es : List (InstanceEvent (Fin 2)) := [.exec 0 false, .call 0 true, .call 0 true,
      .call 0 true, .call 0 true, .call 0 true, .call 0 true, .opens 0 true,
      .writes 0 0 [97, newline], .exec 1 false, .call 1 true, .call 1 true, .call 1 true,
      .call 1 false, .remove 1 true, .exit 1, .opens 0 true, .writes 0 1 [99, newline],
      .writes 0 0 [98, newline]]
    ∃ t, Exec.run step (start none) es = some t ∧ (t.inst 0).stage = .serving ∧
      (t.inst 1).stage = .ended ∧ t.file.through 0 = some [97, newline, 98, newline] ∧
      t.file.through 1 = some [99, newline] ∧ t.file.named = some [99, newline] := by
  intro es
  have hrun : ∃ t, Exec.run step (start none) es = some t ∧ (t.inst 0).stage = .serving ∧
      (t.inst 1).stage = .ended ∧ (t.inst 0).fds = [1, 0] := ⟨_, rfl, rfl, rfl, rfl⟩
  obtain ⟨t, hrun, h0, h1, hfds⟩ := hrun
  obtain ⟨hfound, hnamed, -⟩ := instances_logs hrun
  obtain ⟨k, hk, hold, -⟩ := hfound 0 0 (by rw [hfds]; decide)
  obtain ⟨k', hk', hnew, -⟩ := hfound 0 1 (by rw [hfds]; decide)
  obtain rfl : 0 = k := Option.some.inj hk
  obtain rfl : 1 = k' := Option.some.inj hk'
  refine ⟨t, hrun, h0, h1, hold, hnew, ?_⟩
  rcases hnamed with hnamed | hnamed
  · exact hnamed.1
  · exact absurd (Or.inl (List.mem_of_getElem? hk')) hnamed.2

/-- Without a deletion there is one log. -/
theorem epochs_quiet (h : Exec.run step (start c) es = some t) (hq : ∀ i, .remove i true ∉ es) :
    (epochs c es).current = 0 ∧ (∀ k ∈ (epochs c es).births, k = 0) ∧
      (epochs c es).log 0 = (es.filterMap InstanceEvent.written).foldl
        (fun file b => (fileDriver.serve file 0 (.write b)).1) (c.getD []) := by
  refine Exec.run_induction (I := fun es t => (∀ i, .remove i true ∉ es) →
    (epochs c es).current = 0 ∧ (∀ k ∈ (epochs c es).births, k = 0) ∧
      (epochs c es).log 0 = (es.filterMap InstanceEvent.written).foldl
        (fun file b => (fileDriver.serve file 0 (.write b)).1) (c.getD [])) ?_ ?_ h hq
  · intro _
    exact ⟨rfl, by simp [epochs, Epochs.start, Epochs.run], rfl⟩
  · intro es s e u hrun ih he hq
    obtain ⟨hcur, hbirths, hlog⟩ := ih fun i hi => hq i (List.mem_append_left _ hi)
    rw [epochs_concat, List.filterMap_append, List.foldl_append, ← hlog]
    obtain ⟨-, -, -, hop, -⟩ := step_spec he
    cases e with
    | opens i ok =>
      cases ok with
      | false => exact ⟨hcur, hbirths, rfl⟩
      | true =>
        refine ⟨hcur, fun k hk => ?_, rfl⟩
        rcases List.mem_append.1 hk with hk | hk
        · exact hbirths k hk
        · exact (List.mem_singleton.1 hk).trans hcur
    | remove i ok =>
      cases ok with
      | false => exact ⟨hcur, hbirths, rfl⟩
      | true => exact absurd (List.mem_append_right _ (List.mem_singleton_self _)) (hq i)
    | writes i d b =>
      -- the file is open, so it is of the only epoch
      have hopen : s.file.step (.append d b) = some u.file := hop _ rfl
      cases hk : (epochs c es).births[d]? with
      | none =>
        have hnone : s.file.opened[d]? = none := by
          rw [List.getElem?_eq_none_iff, (run_inv hrun).refines.length_opened]
          exact List.getElem?_eq_none_iff.1 hk
        simp [NamedFile.step, hnone] at hopen
      | some k =>
        obtain rfl := hbirths k (List.mem_of_getElem? hk)
        simp only [InstanceEvent.op, Epochs.step, hk]
        exact ⟨hcur, hbirths, by rw [Function.update_self]; rfl⟩
    | _ => exact ⟨hcur, hbirths, rfl⟩

/-- **One store.**  As long as no instance deletes the data file, every handler of every instance
has the same file open, and it is what `fileDriver` makes of all that they write. -/
theorem one_store (h : Exec.run step (start c) es = some t) (hq : ∀ i, .remove i true ∉ es) :
    ∀ i, ∀ d ∈ (t.inst i).fds, t.file.opened[d]? = t.file.name ∧
      t.file.named = some ((es.filterMap InstanceEvent.written).foldl
        (fun file b => (fileDriver.serve file 0 (.write b)).1) (c.getD [])) := by
  intro i d hd
  have hinv := run_inv h
  obtain ⟨hcur, hbirths, hlog⟩ := epochs_quiet h hq
  obtain ⟨k, hk⟩ := hinv.exists_birth hd
  have h0 := hbirths k (List.mem_of_getElem? hk)
  refine ⟨(hinv.refines.opened_eq_name_iff hk).2 (h0.trans hcur.symm), ?_⟩
  rcases hinv.refines.named with hnamed | hnamed
  · rw [hnamed.1, hcur, hlog]
  · refine absurd (Or.inl ?_) hnamed.2
    rw [hcur, ← h0]
    exact List.mem_of_getElem? hk

end Run

end Instances

end Aesd
