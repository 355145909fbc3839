import Aesd.Lib.Run
import Aesd.Server.Handler

/-!
# The mutex around the data file (file build of `server/aesdsocket.c`)

In the file build the handlers and the timestamp thread write to the data file between
`pthread_mutex_lock` and `pthread_mutex_unlock` of `aesddata_file_mutex`.  The kernel may append
the bytes of one `write` in several pieces, and it may return before the last of them.  Here the
writers run side by side, piece by piece, with any result of any call; `Aesd.Server.Handler` has
the whole passage as one step of `fileDriver`.

A handler whose `write` fails calls `cleanup()` with the mutex locked, and nobody unlocks it; so
does every writer whose unlock fails, and every writer that a signal is delivered to between the
lock and the unlock.  The timestamp thread does not look at the result of its `write`.

* `step_inv`, `run_inv`: the owner is the one writer inside, and where each byte comes from;
* `writes_are_atomic`: the file is what `fileDriver` makes of the writes, one after the other;
* `mutex_lost_iff`: when the mutex is never unlocked again, and what that means for the others.
-/

namespace Aesd

/-- A thread that writes to the data file. -/
inductive Writer (ι : Type*)
  | handler (i : ι)
  | timestamp
  deriving DecidableEq

/-- Where a writer stands: outside, in front of the lock, in its `write`, of which the kernel has
appended `done` bytes so far, in front of the unlock, or in `cleanup()`. -/
inductive WriterPc
  | outside
  | lock (data : List UInt8)
  | write (data : List UInt8) (done : ℕ)
  | unlock
  | cleanup

/-- Between the lock and the unlock. -/
def WriterPc.inside : WriterPc → Bool
  | .write _ _ | .unlock => true
  | .outside | .lock _ | .cleanup => false

/-- What a writer has not come back from writing. -/
def WriterPc.waiting : WriterPc → List (List UInt8)
  | .lock data | .write data _ => [data]
  | .outside | .unlock | .cleanup => []

/-- The bytes that a `write` under way has appended. -/
def WriterPc.appended : WriterPc → List UInt8
  | .write data done => data.take done
  | .outside | .lock _ | .unlock | .cleanup => []

/-- The data file, the owner of the mutex, and where each writer stands. -/
structure FileWriters (ι : Type*) where
  content : List UInt8
  owner : Option (Writer ι)
  pc : Writer ι → WriterPc

/-- What happens next, and to which writer; `signals` is a signal delivered to its thread. -/
inductive WriterEvent (ι : Type*)
  | begins (w : Writer ι) (data : List UInt8)
  | locks (w : Writer ι)
  | lockFails (w : Writer ι)
  | appends (w : Writer ι) (n : ℕ)
  | returns (w : Writer ι)
  | fails (w : Writer ι)
  | unlocks (w : Writer ι)
  | unlockFails (w : Writer ι)
  | signals (w : Writer ι)

/-- A finished `write`: who made it, what it was to write, and how many bytes it has written. -/
structure Block (ι : Type*) where
  writer : Writer ι
  data : List UInt8
  written : ℕ

/-- The bytes of a `write` that are in the file. -/
def Block.bytes {ι : Type*} (b : Block ι) : List UInt8 := b.data.take b.written

namespace FileWriters

variable {ι : Type*}

/-- No writer has begun. -/
def start (content : List UInt8) : FileWriters ι := ⟨content, none, fun _ => .outside⟩

/-- What the owner of the mutex has appended so far. -/
def inFlight (s : FileWriters ι) : List UInt8 :=
  match s.owner with
  | none => []
  | some w => (s.pc w).appended

variable [DecidableEq ι]

/-- Writer `w` goes on to `p`. -/
def goto (s : FileWriters ι) (w : Writer ι) (p : WriterPc) : FileWriters ι :=
  { s with pc := Function.update s.pc w p }

/-- One step. -/
def step (s : FileWriters ι) : WriterEvent ι → Option (FileWriters ι)
  | .begins w data => match s.pc w with
    | .outside => some (s.goto w (.lock data))
    | _ => none
  | .locks w => match s.pc w, s.owner with
    | .lock data, none => some { s.goto w (.write data 0) with owner := some w }
    | _, _ => none
  | .lockFails w => match s.pc w with
    | .lock _ => some (s.goto w .cleanup)
    | _ => none
  | .appends w n => match s.pc w with
    | .write data done =>
      if 0 < n ∧ done + n ≤ data.length then
        some { s.goto w (.write data (done + n)) with
          content := s.content ++ (data.drop done).take n }
      else none
    | _ => none
  -- a short `write` is no error
  | .returns w => match s.pc w with
    | .write _ _ => some (s.goto w .unlock)
    | _ => none
  | .fails w => match s.pc w with
    | .write _ 0 => match w with
      | .handler _ => some (s.goto w .cleanup)
      | .timestamp => some (s.goto w .unlock)
    | _ => none
  | .unlocks w => match s.pc w with
    | .unlock => some { s.goto w .outside with owner := none }
    | _ => none
  | .unlockFails w => match s.pc w with
    | .unlock => some (s.goto w .cleanup)
    | _ => none
  -- in its own code or waiting for the mutex; a `write` that has begun comes back first
  | .signals w => match s.pc w with
    | .outside | .lock _ | .write _ 0 | .unlock => some (s.goto w .cleanup)
    | .write _ (_ + 1) | .cleanup => none

/-- The writer leaves for `cleanup()` with the mutex locked: its `write`, if it is a handler, or its
unlock fails, or a signal comes while it is inside. -/
def LosesMutex (x : Exec.Trans (FileWriters ι) (WriterEvent ι)) : Prop :=
  match x.event with
  | .fails (.handler _) | .unlockFails _ => True
  | .signals w => (x.before.pc w).inside = true
  | _ => False

/-- The `write` that a step finishes; one that fails has written nothing. -/
def block (x : Exec.Trans (FileWriters ι) (WriterEvent ι)) : Option (Block ι) :=
  match x.event with
  | .returns w | .fails w => match x.before.pc w with
    | .write data done => some ⟨w, data, done⟩
    | _ => none
  | _ => none

/-- The writes that a run has finished, in their order. -/
def blocks (s : FileWriters ι) (es : List (WriterEvent ι)) : List (Block ι) :=
  (Exec.trace step s es).filterMap block

/-- What a writer has been given to write, in its order. -/
def given (w : Writer ι) (es : List (WriterEvent ι)) : List (List UInt8) :=
  es.filterMap fun e => match e with
    | .begins v data => if v = w then some data else none
    | _ => none

/-! ### What a step does -/

section Step

variable {s t : FileWriters ι}

@[simp] theorem goto_pc_self (s : FileWriters ι) (w : Writer ι) (p : WriterPc) :
    (s.goto w p).pc w = p := Function.update_self ..

@[simp] theorem goto_content (s : FileWriters ι) (w : Writer ι) (p : WriterPc) :
    (s.goto w p).content = s.content := rfl

theorem goto_pc_ne (s : FileWriters ι) {v w : Writer ι} (h : v ≠ w) (p : WriterPc) :
    (s.goto w p).pc v = s.pc v := Function.update_of_ne h ..

/-- **What a step can do**: it moves one writer, and it is one of these. -/
inductive Does (s t : FileWriters ι) : WriterEvent ι → Prop
  | begins {w : Writer ι} {data : List UInt8} (hpc : s.pc w = .outside)
      (ht : t = s.goto w (.lock data)) : Does s t (.begins w data)
  | locks {w : Writer ι} {data : List UInt8} (hpc : s.pc w = .lock data) (hfree : s.owner = none)
      (ht : t = { s.goto w (.write data 0) with owner := some w }) : Does s t (.locks w)
  | lockFails {w : Writer ι} {data : List UInt8} (hpc : s.pc w = .lock data)
      (ht : t = s.goto w .cleanup) :
      Does s t (.lockFails w)
  | appends {w : Writer ι} {n : ℕ} {data : List UInt8} {done : ℕ}
      (hpc : s.pc w = .write data done) (hle : done + n ≤ data.length)
      (ht : t = { s.goto w (.write data (done + n)) with
        content := s.content ++ (data.drop done).take n }) : Does s t (.appends w n)
  | returns {w : Writer ι} {data : List UInt8} {done : ℕ} (hpc : s.pc w = .write data done)
      (ht : t = s.goto w .unlock) :
      Does s t (.returns w)
  | fails {w : Writer ι} {data : List UInt8} (hpc : s.pc w = .write data 0)
      (ht : t = s.goto w (if w = .timestamp then .unlock else .cleanup)) : Does s t (.fails w)
  | unlocks {w : Writer ι} (hpc : s.pc w = .unlock)
      (ht : t = { s.goto w .outside with owner := none }) :
      Does s t (.unlocks w)
  | unlockFails {w : Writer ι} (hpc : s.pc w = .unlock) (ht : t = s.goto w .cleanup) :
      Does s t (.unlockFails w)
  | signals {w : Writer ι} (hpc : s.pc w ≠ .cleanup) (hidle : (s.pc w).appended = [])
      (ht : t = s.goto w .cleanup) : Does s t (.signals w)

theorem step_does {e : WriterEvent ι} (h : s.step e = some t) : Does s t e := by
  cases e with
  | begins w data =>
    cases hpc : s.pc w <;> simp only [step, hpc, Option.some.injEq, reduceCtorEq] at h
    exact .begins hpc h.symm
  | locks w =>
    cases hpc : s.pc w <;> cases ho : s.owner <;>
      simp only [step, hpc, ho, Option.some.injEq, reduceCtorEq] at h
    exact .locks hpc ho h.symm
  | lockFails w =>
    cases hpc : s.pc w <;> simp only [step, hpc, Option.some.injEq, reduceCtorEq] at h
    exact .lockFails hpc h.symm
  | appends w n =>
    cases hpc : s.pc w <;> simp only [step, hpc, reduceCtorEq] at h
    split_ifs at h with hn
    exact .appends hpc hn.2 (Option.some.inj h).symm
  | returns w =>
    cases hpc : s.pc w <;> simp only [step, hpc, Option.some.injEq, reduceCtorEq] at h
    exact .returns hpc h.symm
  | fails w =>
    cases hpc : s.pc w with
    | write data done =>
      cases done <;> cases w <;> simp only [step, hpc, Option.some.injEq, reduceCtorEq] at h
      · exact .fails hpc (by simpa using h.symm)
      · exact .fails hpc (by simpa using h.symm)
    | _ => simp [step, hpc] at h
  | unlocks w =>
    cases hpc : s.pc w <;> simp only [step, hpc, Option.some.injEq, reduceCtorEq] at h
    exact .unlocks hpc h.symm
  | unlockFails w =>
    cases hpc : s.pc w <;> simp only [step, hpc, Option.some.injEq, reduceCtorEq] at h
    exact .unlockFails hpc h.symm
  | signals w =>
    cases hpc : s.pc w with
    | write data done =>
      cases done <;> simp only [step, hpc, Option.some.injEq, reduceCtorEq] at h
      exact .signals (by rw [hpc]; simp) (by rw [hpc]; rfl) h.symm
    | cleanup => simp [step, hpc] at h
    | outside | lock | unlock =>
      simp only [step, hpc, Option.some.injEq] at h
      exact .signals (by rw [hpc]; simp) (by rw [hpc]; rfl) h.symm

end Step

/-! ### The invariant -/

/-- The writes of a list that writer `w` has made: what it was to write. -/
def dataOf (w : Writer ι) (bs : List (Block ι)) : List (List UInt8) :=
  (bs.filter (·.writer = w)).map Block.data

/-- After the writes `bs` on a file with `content`, where writer `w` has been given `given w`. -/
structure Inv (content : List UInt8) (bs : List (Block ι)) (given : Writer ι → List (List UInt8))
    (s : FileWriters ι) : Prop where
  owner_pc : ∀ w, s.owner = some w → (s.pc w).inside = true ∨ s.pc w = .cleanup
  inside : ∀ w, (s.pc w).inside = true → s.owner = some w
  content_eq : s.content = content ++ (bs.map Block.bytes).flatten ++ s.inFlight
  order : ∀ w, ∃ rest, given w = dataOf w bs ++ rest ∧
    (s.pc w ≠ .cleanup → rest = (s.pc w).waiting)

section Inv

variable {content : List UInt8} {bs : List (Block ι)} {given : Writer ι → List (List UInt8)}
  {s t : FileWriters ι} {w : Writer ι}

omit [DecidableEq ι] in
theorem inFlight_of_owner (ho : s.owner = some w) : s.inFlight = (s.pc w).appended := by
  unfold inFlight
  rw [ho]

omit [DecidableEq ι] in
theorem inFlight_of_free (ho : s.owner = none) : s.inFlight = [] := by
  unfold inFlight
  rw [ho]

/-- A step of a writer that is not the owner leaves what is in flight. -/
theorem inFlight_goto (p : WriterPc) (hw : s.owner ≠ some w) :
    (s.goto w p).inFlight = s.inFlight := by
  cases ho : s.owner with
  | none => rw [inFlight_of_free ho, inFlight_of_free (s := s.goto w p) ho]
  | some v =>
    have hv : v ≠ w := by
      rintro rfl
      exact hw ho
    rw [inFlight_of_owner ho, inFlight_of_owner (s := s.goto w p) ho, goto_pc_ne s hv]

theorem dataOf_concat (w : Writer ι) (bs : List (Block ι)) (b : Block ι) :
    dataOf w (bs ++ [b]) = dataOf w bs ++ if b.writer = w then [b.data] else [] := by
  unfold dataOf
  rw [List.filter_append, List.map_append, List.filter_singleton]
  by_cases hb : b.writer = w <;> simp [hb]

/-- A writer that is outside, or in front of the lock, moves on without the mutex. -/
theorem Inv.goto (h : Inv content bs given s) {p : WriterPc} (hs : (s.pc w).inside = false)
    (hc : s.pc w ≠ .cleanup) (hp : p.inside = false) {given' : Writer ι → List (List UInt8)}
    (hother : ∀ v, v ≠ w → given' v = given v)
    (hself : ∃ rest, given' w = dataOf w bs ++ rest ∧ (p ≠ .cleanup → rest = p.waiting)) :
    Inv content bs given' (s.goto w p) := by
  have hno : s.owner ≠ some w := by
    intro ho
    rcases h.owner_pc w ho with hin | hcl
    · rw [hs] at hin
      exact absurd hin (by decide)
    · exact hc hcl
  refine ⟨fun v hv => ?_, fun v hv => ?_, ?_, fun v => ?_⟩
  · have hvw : v ≠ w := by
      rintro rfl
      exact hno hv
    rw [goto_pc_ne s hvw]
    exact h.owner_pc v hv
  · have hvw : v ≠ w := by
      rintro rfl
      rw [goto_pc_self, hp] at hv
      exact absurd hv (by decide)
    rw [goto_pc_ne s hvw] at hv
    exact h.inside v hv
  · rw [inFlight_goto p hno]
    exact h.content_eq
  · rcases eq_or_ne v w with rfl | hvw
    · rw [goto_pc_self]
      exact hself
    · rw [goto_pc_ne s hvw, hother v hvw]
      exact h.order v

/-- The owner moves on with the mutex, and may append to the file. -/
theorem Inv.owner_goto (h : Inv content bs given s) (hw : s.owner = some w) {p : WriterPc}
    (hp : p.inside = true ∨ p = .cleanup) (content' : List UInt8) (bs' : List (Block ι))
    (hcontent : content' = content ++ (bs'.map Block.bytes).flatten ++ p.appended)
    (hother : ∀ v, v ≠ w → dataOf v bs' = dataOf v bs)
    (hself : ∃ rest, given w = dataOf w bs' ++ rest ∧ (p ≠ .cleanup → rest = p.waiting)) :
    Inv content bs' given { s.goto w p with content := content' } := by
  have hpc : (s.goto w p).pc w = p := goto_pc_self s w p
  refine ⟨fun v hv => ?_, fun v hv => ?_, ?_, fun v => ?_⟩
  · obtain rfl : w = v := Option.some.inj (hw.symm.trans hv)
    rw [← hpc] at hp
    exact hp
  · rcases eq_or_ne v w with rfl | hvw
    · exact hw
    · exact h.inside v (goto_pc_ne s hvw p ▸ hv)
  · rw [inFlight_of_owner (s := { s.goto w p with content := content' }) hw, hpc]
    exact hcontent
  · rcases eq_or_ne v w with rfl | hvw
    · rw [← hpc] at hself
      exact hself
    · obtain ⟨rest, hrest, hcl⟩ := h.order v
      exact ⟨rest, by rw [hrest, hother v hvw], by
        rw [show (s.goto w p).pc v = s.pc v from goto_pc_ne s hvw p]
        exact hcl⟩

/-- The mutex is free, and a writer takes it. -/
theorem Inv.locks (h : Inv content bs given s) {data : List UInt8} (hpc : s.pc w = .lock data)
    (hfree : s.owner = none) :
    Inv content bs given { s.goto w (.write data 0) with owner := some w } := by
  refine ⟨fun v hv => ?_, fun v hv => ?_, ?_, fun v => ?_⟩
  · obtain rfl : w = v := Option.some.inj hv
    exact Or.inl (by simp [WriterPc.inside])
  · rcases eq_or_ne v w with rfl | hvw
    · rfl
    · -- nobody is inside while the mutex is free
      have hown := h.inside v (goto_pc_ne s hvw _ ▸ hv)
      rw [hfree] at hown
      exact absurd hown (by simp)
  · rw [inFlight_of_owner (w := w) rfl]
    simpa [inFlight_of_free hfree, WriterPc.appended] using h.content_eq
  · rcases eq_or_ne v w with rfl | hvw
    · obtain ⟨rest, hrest, hcl⟩ := h.order v
      refine ⟨rest, hrest, fun _ => ?_⟩
      rw [hcl (by rw [hpc]; simp), hpc]
      simp [WriterPc.waiting]
    · simpa only [goto_pc_ne s hvw] using h.order v

/-- The owner unlocks the mutex. -/
theorem Inv.unlocks (h : Inv content bs given s) (hpc : s.pc w = .unlock) :
    Inv content bs given { s.goto w .outside with owner := none } := by
  have hw := h.inside w (by rw [hpc]; rfl)
  refine ⟨fun v hv => absurd hv (by simp), fun v hv => ?_, ?_, fun v => ?_⟩
  · have hvw : v ≠ w := by
      rintro rfl
      simp [WriterPc.inside] at hv
    have hown := h.inside v (goto_pc_ne s hvw _ ▸ hv)
    exact absurd (Option.some.inj (hown.symm.trans hw)) hvw
  · rw [inFlight_of_free rfl]
    simpa [inFlight_of_owner hw, hpc, WriterPc.appended] using h.content_eq
  · rcases eq_or_ne v w with rfl | hvw
    · obtain ⟨rest, hrest, hcl⟩ := h.order v
      refine ⟨rest, hrest, fun _ => ?_⟩
      rw [hcl (by rw [hpc]; simp), hpc]
      simp [WriterPc.waiting]
    · simpa only [goto_pc_ne s hvw] using h.order v

/-- The `write` of the owner is over. -/
theorem Inv.finishes (h : Inv content bs given s) {data : List UInt8} {done : ℕ}
    (hpc : s.pc w = .write data done) {p : WriterPc} (hp : p = .unlock ∨ p = .cleanup) :
    Inv content (bs ++ [⟨w, data, done⟩]) given (s.goto w p) := by
  have hw := h.inside w (by rw [hpc]; rfl)
  have hempty : p.appended = [] := by rcases hp with rfl | rfl <;> rfl
  refine h.owner_goto hw ?_ s.content _ ?_ (fun v hv => ?_) ?_
  · exact hp.imp_left fun hp => by rw [hp]; rfl
  · rw [hempty, h.content_eq, inFlight_of_owner hw, hpc]
    simp [Block.bytes, WriterPc.appended]
  · rw [dataOf_concat, if_neg (Ne.symm hv), List.append_nil]
  · obtain ⟨rest, hrest, hcl⟩ := h.order w
    obtain rfl := hcl (by rw [hpc]; simp)
    refine ⟨[], ?_, fun _ => ?_⟩
    · rw [hrest, hpc, dataOf_concat, if_pos rfl, List.append_nil]
      rfl
    · rcases hp with rfl | rfl <;> rfl

/-- A writer that has nothing in flight leaves for `cleanup()`, from wherever it is. -/
theorem Inv.leaves (h : Inv content bs given s) (hpc : s.pc w ≠ .cleanup)
    (hidle : (s.pc w).appended = []) : Inv content bs given (s.goto w .cleanup) := by
  have hrest : ∃ rest, given w = dataOf w bs ++ rest ∧
      (WriterPc.cleanup ≠ .cleanup → rest = WriterPc.cleanup.waiting) := by
    obtain ⟨rest, hrest, -⟩ := h.order w
    exact ⟨rest, hrest, fun hne => absurd rfl hne⟩
  cases hin : (s.pc w).inside with
  | false => exact h.goto hin hpc rfl (fun _ _ => rfl) hrest
  | true =>
    have hw := h.inside w hin
    refine h.owner_goto hw (Or.inr rfl) s.content bs ?_ (fun _ _ => rfl) hrest
    rw [h.content_eq, inFlight_of_owner hw, hidle]
    rfl

/-- **A step keeps the invariant.** -/
theorem step_inv {e : WriterEvent ι} (h : Inv content bs given s) (he : s.step e = some t) :
    Inv content (bs ++ (block ⟨s, e, t⟩).toList)
      (fun w => given w ++ FileWriters.given w [e]) t := by
  cases step_does he with
  | @begins w data hpc ht =>
    subst ht
    simp only [block, Option.toList_none, List.append_nil]
    refine h.goto (by rw [hpc]; rfl) (by rw [hpc]; simp) rfl (fun v hv => ?_) ?_
    · simp [FileWriters.given, Ne.symm hv]
    · obtain ⟨rest, hrest, hcl⟩ := h.order w
      obtain rfl := hcl (by rw [hpc]; simp)
      exact ⟨[data], by simp [hrest, hpc, WriterPc.waiting, FileWriters.given], fun _ => rfl⟩
  | @locks w data hpc hfree ht =>
    subst ht
    simpa [block, FileWriters.given] using h.locks hpc hfree
  | lockFails hpc ht =>
    subst ht
    simpa [block, FileWriters.given] using h.leaves (by rw [hpc]; simp) (by rw [hpc]; rfl)
  | @appends w n data done hpc hle ht =>
    subst ht
    have hw := h.inside w (by rw [hpc]; rfl)
    have hgoto := h.owner_goto hw (p := .write data (done + n)) (Or.inl rfl)
      (s.content ++ (data.drop done).take n) bs (by
        rw [h.content_eq, inFlight_of_owner hw, hpc]
        simp only [WriterPc.appended, List.append_assoc, List.take_add]) (fun _ _ => rfl) (by
        obtain ⟨rest, hrest, hcl⟩ := h.order w
        exact ⟨rest, hrest, fun _ => by rw [hcl (by rw [hpc]; simp), hpc]; rfl⟩)
    simpa [block, FileWriters.given] using hgoto
  | @returns w data done hpc ht =>
    subst ht
    simpa [block, hpc, FileWriters.given] using h.finishes hpc (p := .unlock) (Or.inl rfl)
  | @fails w data hpc ht =>
    subst ht
    have hfin := h.finishes hpc (p := if w = .timestamp then .unlock else .cleanup)
      (by split_ifs <;> simp)
    simpa [block, hpc, FileWriters.given] using hfin
  | @unlocks w hpc ht =>
    subst ht
    simpa [block, FileWriters.given] using h.unlocks hpc
  | unlockFails hpc ht =>
    subst ht
    simpa [block, FileWriters.given] using h.leaves (by rw [hpc]; simp) (by rw [hpc]; rfl)
  | signals hpc hidle ht =>
    subst ht
    simpa [block, FileWriters.given] using h.leaves hpc hidle

/-- **A run keeps the invariant.** -/
theorem run_inv {es : List (WriterEvent ι)} (h : Exec.run step (start content) es = some t) :
    Inv content (blocks (start content) es) (fun w => FileWriters.given w es) t := by
  refine Exec.run_induction (I := fun es t =>
    Inv content (blocks (start content) es) (fun w => FileWriters.given w es) t) ?_ ?_ h
  · exact ⟨by simp [start], by simp [start, WriterPc.inside], by simp [start, blocks, Exec.trace,
      inFlight], fun w => ⟨[], by simp [blocks, Exec.trace, FileWriters.given, dataOf],
      fun _ => by simp [start, WriterPc.waiting]⟩⟩
  · intro es s e u hrun ih he
    have hblocks : blocks (start content) (es ++ [e]) =
        blocks (start content) es ++ (block ⟨s, e, u⟩).toList := by
      unfold blocks
      rw [Exec.trace_concat hrun he, List.filterMap_append]
      cases hb : block ⟨s, e, u⟩ <;> simp [hb]
    have hgiven : ∀ w, FileWriters.given w (es ++ [e]) =
        FileWriters.given w es ++ FileWriters.given w [e] := fun w => List.filterMap_append ..
    simp only [hblocks, hgiven]
    exact step_inv ih he

end Inv

section Run

variable {content : List UInt8} {es : List (WriterEvent ι)} {s t : FileWriters ι}

/-- **The writes are atomic.**  However the handlers and the timestamp thread run side by side, and
in whatever pieces the kernel appends: at most one of them is inside; the data file is what
`fileDriver` makes of the finished writes, one after the other, and behind them what the owner of
the mutex has appended so far; and every writer has written what it was given in its order, but for
a segment it still has or gave up on. -/
theorem writes_are_atomic (h : Exec.run step (start content) es = some t) :
    let bs := blocks (start content) es
    t.content = (bs.map Block.bytes).foldl
        (fun file b => (fileDriver.serve file 0 (.write b)).1) content ++ t.inFlight ∧
      (∀ v w, (t.pc v).inside = true → (t.pc w).inside = true → v = w) ∧
      ∀ w, dataOf w bs <+: given w es ∧
        (t.pc w ≠ .cleanup → given w es = dataOf w bs ++ (t.pc w).waiting) := by
  intro bs
  have hinv := run_inv h
  refine ⟨?_, fun v w hv hw => ?_, fun w => ?_⟩
  · have hfold : (bs.map Block.bytes).foldl
        (fun file b => (fileDriver.serve file 0 (.write b)).1) content =
        content ++ (bs.map Block.bytes).flatten := by
      have hmap : (bs.map Block.bytes).foldl (· ++ id ·) content =
          content ++ ((bs.map Block.bytes).map id).flatten := List.foldl_append_eq_append
      rw [List.map_id] at hmap
      exact hmap
    rw [hfold]
    exact hinv.content_eq
  · exact Option.some.inj ((hinv.inside v hv).symm.trans (hinv.inside w hw))
  · obtain ⟨rest, hrest, hcl⟩ := hinv.order w
    exact ⟨⟨rest, hrest.symm⟩, fun hne => by rw [← hcl hne]; exact hrest⟩

/-- Two handlers and the timestamp thread; the line of the first handler is appended in two
pieces, while the others wait. -/
theorem writes_are_atomic_three_writers :
    let es : List (WriterEvent (Fin 2)) := [.begins (.handler 0) [97, newline],
      .begins .timestamp [116, newline], .begins (.handler 1) [98, newline], .locks (.handler 0),
      .appends (.handler 0) 1, .appends (.handler 0) 1, .returns (.handler 0),
      .unlocks (.handler 0), .locks .timestamp, .appends .timestamp 2, .returns .timestamp,
      .unlocks .timestamp, .locks (.handler 1), .appends (.handler 1) 1]
    ∃ t, Exec.run step (start []) es = some t ∧
      t.content = ([[97, newline], [116, newline]] : List (List UInt8)).foldl
        (fun file b => (fileDriver.serve file 0 (.write b)).1) [] ++ [98] := by
  intro es
  have hrun : ∃ t, Exec.run step (start []) es = some t ∧ t.inFlight = [98] := ⟨_, rfl, rfl⟩
  obtain ⟨t, hrun, hflight⟩ := hrun
  refine ⟨t, hrun, ?_⟩
  rw [(writes_are_atomic hrun).1, hflight]
  rfl

/-! ### A mutex that is never unlocked -/

/-- The owner of the mutex is in `cleanup()`. -/
def Lost (s : FileWriters ι) : Prop := ∃ w, s.owner = some w ∧ s.pc w = .cleanup

/-- Once the mutex is lost, no step appends, and no writer gets past the lock. -/
theorem step_lost {bs : List (Block ι)} {given : Writer ι → List (List UInt8)}
    (hinv : Inv content bs given s) (hl : s.Lost) {e : WriterEvent ι} (he : s.step e = some t) :
    t.Lost ∧ t.content = s.content ∧ ∀ v data, (s.pc v = .lock data ∨ s.pc v = .cleanup) →
      t.pc v = .lock data ∨ t.pc v = .cleanup := by
  obtain ⟨w, ho, hw⟩ := hl
  -- whoever is inside would be the owner
  have hinside : ∀ v, (s.pc v).inside ≠ true := by
    intro v hv
    obtain rfl : w = v := Option.some.inj (ho.symm.trans (hinv.inside v hv))
    rw [hw] at hv
    exact absurd hv (by simp [WriterPc.inside])
  have hgoto : ∀ (u : Writer ι) (p : WriterPc), s.pc u ≠ .cleanup →
      (∀ data, s.pc u ≠ .lock data ∨ p = .cleanup) →
      (s.goto u p).Lost ∧ (s.goto u p).content = s.content ∧
        ∀ v data, (s.pc v = .lock data ∨ s.pc v = .cleanup) →
          (s.goto u p).pc v = .lock data ∨ (s.goto u p).pc v = .cleanup := by
    intro u p hu hp
    have huw : w ≠ u := by
      rintro rfl
      exact hu hw
    refine ⟨⟨w, ho, by rw [goto_pc_ne s huw, hw]⟩, rfl, fun v data hv => ?_⟩
    rcases eq_or_ne v u with rfl | hvu
    · rw [goto_pc_self]
      exact Or.inr ((hp data).resolve_left fun hne => hv.elim hne hu)
    · rwa [goto_pc_ne s hvu]
  cases step_does he with
  | begins hpc ht => exact ht ▸ hgoto _ _ (by rw [hpc]; simp) (fun _ => Or.inl (by rw [hpc]; simp))
  | locks hpc hfree ht => simp [ho] at hfree
  | lockFails hpc ht => exact ht ▸ hgoto _ _ (by rw [hpc]; simp) (fun _ => Or.inr rfl)
  | appends hpc hle ht => exact absurd (by rw [hpc]; rfl) (hinside _)
  | returns hpc ht => exact absurd (by rw [hpc]; rfl) (hinside _)
  | fails hpc ht => exact absurd (by rw [hpc]; rfl) (hinside _)
  | unlocks hpc ht => exact absurd (by rw [hpc]; rfl) (hinside _)
  | unlockFails hpc ht => exact absurd (by rw [hpc]; rfl) (hinside _)
  | signals hpc hidle ht => exact ht ▸ hgoto _ _ hpc (fun _ => Or.inr rfl)

/-- Of the steps from a state with the mutex, those lose it that `LosesMutex` names. -/
theorem step_lost_iff {bs : List (Block ι)} {given : Writer ι → List (List UInt8)}
    (hinv : Inv content bs given s) (hl : ¬ s.Lost) {e : WriterEvent ι} (he : s.step e = some t) :
    t.Lost ↔ LosesMutex ⟨s, e, t⟩ := by
  have hgoto : ∀ (u : Writer ι) (p : WriterPc), p ≠ .cleanup ∨ s.owner ≠ some u →
      ¬ (s.goto u p).Lost := by
    rintro u p hp ⟨w, ho, hw⟩
    rcases eq_or_ne w u with rfl | hwu
    · rw [goto_pc_self] at hw
      exact hp.elim (fun hne => hne hw) fun hne => hne ho
    · rw [goto_pc_ne s hwu] at hw
      exact hl ⟨w, ho, hw⟩
  cases step_does he with
  | begins hpc ht | returns hpc ht =>
    subst ht
    exact iff_of_false (hgoto _ _ (Or.inl (by simp))) (by simp [LosesMutex])
  | @locks w data hpc hfree ht =>
    refine iff_of_false ?_ (by simp [LosesMutex])
    rintro ⟨v, hv, hcl⟩
    subst ht
    obtain rfl : w = v := Option.some.inj hv
    simp at hcl
  | @lockFails w data hpc ht =>
    -- it does not own the mutex yet
    refine iff_of_false (ht ▸ hgoto _ _ (Or.inr fun ho => ?_)) (by simp [LosesMutex])
    rcases hinv.owner_pc _ ho with hin | hcl
    · simp [hpc, WriterPc.inside] at hin
    · simp [hpc] at hcl
  | appends hpc hle ht =>
    refine iff_of_false (fun hlost => ?_) (by simp [LosesMutex])
    exact hgoto _ _ (Or.inl (by simp)) (ht ▸ hlost)
  | @fails w data hpc ht =>
    cases w with
    | timestamp =>
      subst ht
      exact iff_of_false (hgoto _ _ (Or.inl (by simp))) (by simp [LosesMutex])
    | handler i =>
      refine iff_of_true ⟨.handler i, ?_, ?_⟩ (by simp [LosesMutex])
      · rw [ht]
        exact hinv.inside _ (by rw [hpc]; rfl)
      · rw [ht, goto_pc_self, if_neg (by simp)]
  | unlocks hpc ht =>
    refine iff_of_false ?_ (by simp [LosesMutex])
    rintro ⟨v, hv, -⟩
    subst ht
    simp at hv
  | @unlockFails w hpc ht =>
    refine iff_of_true ⟨w, ?_, ?_⟩ (by simp [LosesMutex])
    · rw [ht]
      exact hinv.inside _ (by rw [hpc]; rfl)
    · rw [ht, goto_pc_self]
  | @signals w hpc hidle ht =>
    subst ht
    constructor
    · rintro ⟨v, hv, hcl⟩
      -- the owner is the writer that has left, and was inside
      obtain rfl : v = w := by
        by_contra hvw
        rw [goto_pc_ne s hvw] at hcl
        exact hl ⟨v, hv, hcl⟩
      exact (hinv.owner_pc v hv).resolve_right hpc
    · intro hin
      exact ⟨w, hinv.inside w hin, goto_pc_self ..⟩

/-- The mutex is lost exactly if a step of the run has lost it. -/
theorem lost_iff (h : Exec.run step (start content) es = some t) :
    t.Lost ↔ ∃ x ∈ Exec.trace step (start content) es, LosesMutex x := by
  refine Exec.run_induction (I := fun es t =>
    t.Lost ↔ ∃ x ∈ Exec.trace step (start content) es, LosesMutex x) ?_ ?_ h
  · simp [Lost, start, Exec.trace]
  · intro es s e u hrun ih he
    have hmem : (∃ x ∈ Exec.trace step (start content) (es ++ [e]), LosesMutex x) ↔
        (∃ x ∈ Exec.trace step (start content) es, LosesMutex x) ∨ LosesMutex ⟨s, e, u⟩ := by
      rw [Exec.trace_concat hrun he]
      simp [or_and_right, exists_or]
    rw [hmem, ← ih]
    by_cases hl : s.Lost
    · exact iff_of_true (step_lost (run_inv hrun) hl he).1 (Or.inl hl)
    · rw [step_lost_iff (run_inv hrun) hl he]
      simp [hl]

/-- Once the mutex is lost, nothing changes any more behind it. -/
theorem run_lost (h : Exec.run step (start content) es = some t) (hl : t.Lost)
    {es' : List (WriterEvent ι)} {u : FileWriters ι} (h' : Exec.run step t es' = some u) :
    u.content = t.content ∧ ∀ v data, t.pc v = .lock data → u.pc v = .lock data ∨
      u.pc v = .cleanup := by
  obtain ⟨-, -, hcontent, hstay⟩ := Exec.run_induction (I := fun es' u => (∃ es,
      Exec.run step (start content) es = some u) ∧ u.Lost ∧ u.content = t.content ∧
      ∀ v data, (t.pc v = .lock data ∨ t.pc v = .cleanup) → u.pc v = .lock data ∨ u.pc v = .cleanup)
    ⟨⟨es, h⟩, hl, rfl, fun _ _ hv => hv⟩ (by
      rintro es' s e u - ⟨⟨es, hrun⟩, hls, hcontent, hstay⟩ he
      obtain ⟨hlu, hsame, hkeep⟩ := step_lost (run_inv hrun) hls he
      exact ⟨⟨es ++ [e], Exec.run_concat.2 ⟨s, hrun, he⟩⟩, hlu, hsame.trans hcontent,
        fun v data hv => hkeep v data (hstay v data hv)⟩) h'
  exact ⟨hcontent, fun v data hv => hstay v data (Or.inl hv)⟩

theorem run_locks {v : Writer ι} {data : List UInt8} (hv : s.pc v = .lock data)
    (ho : s.owner = none) : ∃ u, Exec.run step s [.locks v] = some u ∧ u.pc v = .write data 0 := by
  refine ⟨{ s.goto v (.write data 0) with owner := some v }, ?_, goto_pc_self ..⟩
  simp [Exec.run, step, hv, ho]

theorem run_unlocks_locks {v w : Writer ι} {data : List UInt8} (hv : s.pc v = .lock data)
    (hw : s.pc w = .unlock) :
    ∃ u, Exec.run step s [.unlocks w, .locks v] = some u ∧ u.pc v = .write data 0 := by
  have hvw : v ≠ w := by
    rintro rfl
    simp [hv] at hw
  obtain ⟨u, hu, hpc⟩ := run_locks (s := { s.goto w .outside with owner := none })
    ((goto_pc_ne s hvw _).trans hv) rfl
  exact ⟨u, Exec.run_cons_eq_some.2 ⟨_, by simp [step, hw], hu⟩, hpc⟩

/-- As long as the mutex is not lost, a writer at the lock can get in. -/
theorem exists_run_lock (h : Exec.run step (start content) es = some t) (hl : ¬ t.Lost)
    {v : Writer ι} {data : List UInt8} (hv : t.pc v = .lock data) :
    ∃ es' u, (∀ x ∈ Exec.trace step t es', ¬ LosesMutex x) ∧ Exec.run step t es' = some u ∧
      u.pc v = .write data 0 := by
  have hquiet : ∀ {es' : List (WriterEvent ι)}, (∀ e ∈ es', (∃ w, e = .returns w) ∨
      (∃ w, e = .unlocks w) ∨ ∃ w, e = .locks w) →
      ∀ x ∈ Exec.trace step t es', ¬ LosesMutex x := by
    intro es' hes x hx
    obtain ⟨es₁, es₂, rfl, -, -⟩ := Exec.exists_of_mem_trace hx
    unfold LosesMutex
    rcases hes x.event (by simp) with ⟨w, hw⟩ | ⟨w, hw⟩ | ⟨w, hw⟩ <;> rw [hw] <;> exact not_false
  cases ho : t.owner with
  | none =>
    obtain ⟨u, hu, hpc⟩ := run_locks hv ho
    exact ⟨_, u, hquiet (by simp), hu, hpc⟩
  | some w =>
    -- the owner comes back from its write, if it is in one, and unlocks
    have hw : (t.pc w).inside = true :=
      ((run_inv h).owner_pc w ho).resolve_right fun hcl => hl ⟨w, ho, hcl⟩
    cases hpc : t.pc w with
    | write data' done =>
      have hvw : v ≠ w := by
        rintro rfl
        simp [hv] at hpc
      obtain ⟨u, hu, hin⟩ := run_unlocks_locks (s := t.goto w .unlock)
        ((goto_pc_ne t hvw _).trans hv) (goto_pc_self ..)
      exact ⟨.returns w :: _, u, hquiet (by simp),
        Exec.run_cons_eq_some.2 ⟨_, by simp [step, hpc], hu⟩, hin⟩
    | unlock =>
      obtain ⟨u, hu, hin⟩ := run_unlocks_locks hv hpc
      exact ⟨_, u, hquiet (by simp), hu, hin⟩
    | outside | lock | cleanup => simp [hpc, WriterPc.inside] at hw

/-- **When the mutex is lost.**  Exactly if the `write` of a handler or the unlock of any writer has
failed, or a signal has come to a writer between its lock and its unlock, the mutex is locked for
ever: then no later event appends to the data file, and a writer in front of the lock stays there or
leaves for `cleanup()`.  Otherwise every writer in front of the lock can still get in without any of
these. -/
theorem mutex_lost_iff (h : Exec.run step (start content) es = some t) :
    ((∃ x ∈ Exec.trace step (start content) es, LosesMutex x) ↔ t.Lost) ∧
    (t.Lost → ∀ es' u, Exec.run step t es' = some u → u.content = t.content ∧
      ∀ v data, t.pc v = .lock data → u.pc v = .lock data ∨ u.pc v = .cleanup) ∧
    (¬ t.Lost → ∀ v data, t.pc v = .lock data →
      ∃ es' u, (∀ x ∈ Exec.trace step t es', ¬ LosesMutex x) ∧ Exec.run step t es' = some u ∧
        u.pc v = .write data 0) :=
  ⟨(lost_iff h).symm, fun hl _ _ h' => run_lost h hl h', fun hl _ _ hv => exists_run_lock h hl hv⟩

/-- The disk is full, or a signal comes before the `write`: a handler leaves for `cleanup()` with
the mutex, and what another handler has received is never written. -/
theorem mutex_lost_disk_full :
    let es : WriterEvent (Fin 2) → List (WriterEvent (Fin 2)) := fun e =>
      [.begins (.handler 0) [97, newline], .begins (.handler 1) [98, newline],
        .locks (.handler 0), e]
    (∃ t, Exec.run step (start []) (es (.fails (.handler 0))) = some t ∧ t.Lost ∧
      ∀ es' u, Exec.run step t es' = some u → u.content = []) ∧
    ∃ t, Exec.run step (start []) (es (.signals (.handler 0))) = some t ∧ t.Lost ∧
      ∀ es' u, Exec.run step t es' = some u → u.content = [] := by
  intro es
  have hall : ∀ e t, Exec.run step (start []) (es e) = some t → t.content = [] →
      (∃ x ∈ Exec.trace step (start []) (es e), LosesMutex x) →
      t.Lost ∧ ∀ es' u, Exec.run step t es' = some u → u.content = [] := by
    intro e t hrun hcontent hloses
    obtain ⟨hiff, hfrozen, -⟩ := mutex_lost_iff hrun
    have hlost : t.Lost := hiff.1 hloses
    exact ⟨hlost, fun es' u h' => (hfrozen hlost es' u h').1.trans hcontent⟩
  refine ⟨⟨_, rfl, hall (.fails (.handler 0)) _ rfl rfl ?_⟩,
    _, rfl, hall (.signals (.handler 0)) _ rfl rfl ?_⟩
  · exact ⟨_, List.mem_of_getElem? (i := 3) rfl, trivial⟩
  · exact ⟨_, List.mem_of_getElem? (i := 3) rfl, rfl⟩

end Run

end FileWriters

end Aesd
