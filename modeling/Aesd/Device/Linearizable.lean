import Aesd.Device.Mutex
import Aesd.Device.Session
import Aesd.Lib.Linearization

/-!
# Concurrent calls and file positions

A `read` or `write` works on a copy of `filp->f_pos`, which the VFS takes at the entry and stores
back at the return; `llseek` moves the position after it has given the mutex back.  The kernel
lets at most one of these three at a time work on an open file (`PosLocked`), but it does not stop
`AESDCHAR_IOCSEEKTO`, which stores `filp->f_pos` under the mutex of the device only.

The body of a call is the moment at which it takes effect.  In the order of their bodies the calls
could have been made one after the other, unless a request stores a position that another call on
the file is working on (`Undisturbed`).

* `Explained`: what holds of the calls that have made their body;
* `step_explained`: every undisturbed step keeps it;
* `linearizable`: undisturbed runs are linearizable.
-/

namespace Aesd

/-- Not `ioctl`: the kernel serialises these calls on one open file. -/
def Request.positional : Request → Bool
  | .read _ _ | .write _ | .llseek _ _ => true
  | .ioctl _ _ => false

namespace Phase

/-- The copy of the position, before the body. -/
def copy : Phase → Option ℤ
  | .lock pos | .body pos => some pos
  | .enter | .unlock _ _ | .leave _ _ | .done _ => none

/-- What the body has left behind, until the call returns. -/
def held : Phase → Option (Ret × ℤ)
  | .unlock r pos | .leave r pos => some (r, pos)
  | .enter | .lock _ | .body _ | .done _ => none

/-- The call has entered and not returned. -/
def active (p : Phase) : Bool := p.copy.isSome || p.held.isSome

/-- The call has taken effect. -/
def committed : Phase → Bool
  | .unlock _ _ | .leave _ _ | .done _ => true
  | .enter | .lock _ | .body _ => false

end Phase

/-- The call works on the position of its file: what it has taken from there, it will store, or
it is about to move it. -/
def Request.UsesPosition (p : Phase) : Request → Prop
  | .read _ _ | .write _ => p.copy.isSome = true ∨ ∃ r ∈ p.held, 0 ≤ r.1.retval
  | .llseek _ _ => p.held.isSome = true
  | .ioctl _ _ => False

namespace Sys

variable {ι : Type*}

/-- The kernel's lock of the position: a call enters when no other works on the file. -/
def PosLocked (calls : ι → Call) (x : Exec.Trans (Sys ι) (Event ι)) : Prop :=
  ∀ i, x.event = .enter i → (calls i).request.positional = true →
    ∀ j, j ≠ i → (calls j).request.positional = true → (calls j).file = (calls i).file →
      (x.before.phase j).active = false

/-- No request stores the position of a file while another call works on it. -/
def Undisturbed (calls : ι → Call) (x : Exec.Trans (Sys ι) (Event ι)) : Prop :=
  ∀ i, x.event = .body i → (calls i).request.positional = false →
    ∀ r ∈ (x.after.phase i).held, 0 ≤ r.1.retval →
      ∀ j, (calls j).file = (calls i).file →
        ¬ (calls j).request.UsesPosition (x.before.phase j)

/-- Call `i` when it is alone. -/
def serveCall (K : Kernel) (calls : ι → Call) (s : Session) (i : ι) : Session × Ret :=
  s.call K ⟨(calls i).file, true, (calls i).request⟩

variable [DecidableEq ι]

/-- Call `i` has returned when `j` has not entered yet. -/
def Precedes (K : Kernel) (calls : ι → Call) (s : Sys ι) (es : List (Event ι)) (i j : ι) : Prop :=
  ∃ es₁ u r, es₁ <+: es ∧ Exec.run (step K calls) s es₁ = some u ∧ u.phase i = .done r ∧
    u.phase j = .enter

/-- Some serial order of the calls explains the run. -/
def Linearizable (K : Kernel) (calls : ι → Call) (s : Sys ι) (es : List (Event ι)) (t : Sys ι) :
    Prop :=
  ∃ order, Linearization.Explains (serveCall K calls) ⟨s.dev, s.fPos⟩ ⟨t.dev, t.fPos⟩
    (fun i r => t.phase i = .done r) (Precedes K calls s es) order

/-! ### The copies of the positions -/

/-- What holds of the calls under way: the lock of the position keeps two calls that use it apart,
and a copy that has not been used is still right. -/
structure Orderly (calls : ι → Call) (t : Sys ι) : Prop where
  admitted : ∀ i, (t.phase i).copy.isSome = true → ∀ p, (calls i).request.entry p = .lock p
  alone : ∀ i j, (calls i).request.positional = true → (calls j).request.positional = true →
    (calls i).file = (calls j).file → (t.phase i).active = true → (t.phase j).active = true → i = j
  copied : ∀ i, (calls i).request.copies = true → ∀ pos ∈ (t.phase i).copy,
    pos = t.fPos (calls i).file

section Orderly

variable {K : Kernel} {calls : ι → Call} {s t : Sys ι}

theorem positional_of_copies {q : Request} (h : q.copies = true) : q.positional = true := by
  cases q <;> simp_all [Request.copies, Request.positional]

theorem active_of_copy {p : Phase} {pos : ℤ} (h : pos ∈ p.copy) : p.active = true := by
  cases p <;> simp_all [Phase.copy, Phase.active]

theorem active_of_held {p : Phase} {x : Ret × ℤ} (h : x ∈ p.held) : p.active = true := by
  cases p <;> simp_all [Phase.held, Phase.active]

/-- A request that is not rejected at one position is not rejected at any. -/
theorem entry_lock_of_copy {q : Request} {p : ℤ} (h : (q.entry p).copy.isSome = true) (p' : ℤ) :
    q.entry p' = .lock p' := by
  cases q with
  | read count fault | write w | llseek off whence => rfl
  | ioctl cmd arg => cases arg <;> simp only [Request.entry] at h ⊢ <;> grind [Phase.copy]

theorem copy_of_entry {q : Request} {p pos : ℤ} (h : pos ∈ (q.entry p).copy) : pos = p := by
  rcases entry_cases p q with he | ⟨r, he⟩ <;> rw [he] at h <;> simp_all [Phase.copy]

/-- Under the body only a request that is not positional stores the position. -/
theorem critical_positional {q : Request} (h : q.positional = true) (d : Dev) (fPos pos : ℤ) :
    (q.critical K d fPos pos).2.1 = fPos := by
  cases q with
  | read count fault | write w | llseek off whence => rfl
  | ioctl cmd arg => simp [Request.positional] at h

theorem leave_not_positional {q : Request} (h : q.positional = false) (fPos : ℤ) (r : Ret)
    (pos : ℤ) : q.leave fPos r pos = (fPos, r) := by
  cases q <;> simp_all [Request.positional, Request.leave]

/-- A request that is not positional fails and changes nothing, or it stores a position that does
not depend on the one it finds. -/
theorem critical_cases {q : Request} (h : q.positional = false) (d : Dev) :
    (∃ e < 0, ∀ fPos pos, q.critical K d fPos pos = (d, fPos, ⟨e, []⟩, pos)) ∨
    ∃ n, ∀ fPos pos, q.critical K d fPos pos = (d, n, ⟨0, []⟩, pos) := by
  cases q with
  | read count fault | write w | llseek off whence => simp [Request.positional] at h
  | ioctl cmd arg =>
    cases arg with
    | none => exact Or.inl ⟨-EFAULT, by decide, fun _ _ => rfl⟩
    | some s =>
      simp only [Request.critical, aesdAdjustFileOffsetBody]
      split_ifs with hbad
      · exact Or.inl ⟨-EINVAL, by decide, fun _ _ => rfl⟩
      · exact Or.inr ⟨_, fun _ _ => rfl⟩

/-- Where the position of a file can change: when a `read`, `write` or `llseek` on it returns, and
when a request that is not positional stores it. -/
theorem step_fPos {e : Event ι} (h : s.step K calls e = some t)
    (hundisturbed : Undisturbed calls ⟨s, e, t⟩) (f : ℕ) :
    t.fPos f = s.fPos f ∨
    (∃ i x, e = .leave i ∧ (calls i).file = f ∧ (calls i).request.positional = true ∧
      x ∈ (s.phase i).held) ∨
    ∃ i, e = .body i ∧ (calls i).file = f ∧ (calls i).request.positional = false ∧
      ∀ j, (calls j).file = f → ¬ (calls j).request.UsesPosition (s.phase j) := by
  cases e with
  | enter i =>
    obtain ⟨-, rfl⟩ := step_enter_eq h
    exact Or.inl rfl
  | acquire i =>
    obtain ⟨pos, -, -, rfl⟩ := step_acquire_eq h
    exact Or.inl rfl
  | interrupt i =>
    obtain ⟨pos, -, rfl⟩ := step_interrupt_eq h
    exact Or.inl rfl
  | unlock i =>
    obtain ⟨r, pos, -, rfl⟩ := step_unlock_eq h
    exact Or.inl rfl
  | leave i =>
    obtain ⟨r, pos, hp, rfl⟩ := step_leave_eq h
    by_cases hf : (calls i).file = f
    · cases hq : (calls i).request.positional with
      | true => exact Or.inr (Or.inl ⟨i, (r, pos), rfl, hf, hq, by rw [hp]; rfl⟩)
      | false =>
        subst hf
        exact Or.inl (by simp [leave_not_positional hq])
    · exact Or.inl (Function.update_of_ne (Ne.symm hf) ..)
  | body i =>
    obtain ⟨pos, hp, rfl⟩ := step_body_eq h
    by_cases hf : (calls i).file = f
    · subst hf
      cases hq : (calls i).request.positional with
      | true => exact Or.inl (by simp [critical_positional hq])
      | false =>
        rcases critical_cases (K := K) hq s.dev with ⟨e, -, hc⟩ | ⟨n, hc⟩
        · exact Or.inl (by simp [hc])
        · refine Or.inr (Or.inr ⟨i, rfl, rfl, hq, ?_⟩)
          exact hundisturbed i rfl hq (⟨0, []⟩, pos) (by simp [hc, Phase.held]) le_rfl
    · exact Or.inl (Function.update_of_ne (Ne.symm hf) ..)

/-- A call becomes active when it enters. -/
theorem step_active {e : Event ι} (h : s.step K calls e = some t) {j : ι} (he : e ≠ .enter j)
    (ht : (t.phase j).active = true) : (s.phase j).active = true := by
  by_cases hj : j = e.call
  · subst hj
    cases e with
    | enter i => exact absurd rfl he
    | acquire i =>
      obtain ⟨pos, hp, -, -, -⟩ := step_acquire h
      have hcopy : (s.phase i).copy = some pos := by rw [hp]; rfl
      exact active_of_copy hcopy
    | interrupt i =>
      obtain ⟨pos, hp, -, -⟩ := step_interrupt h
      have hcopy : (s.phase i).copy = some pos := by rw [hp]; rfl
      exact active_of_copy hcopy
    | body i =>
      obtain ⟨pos, r, pos', hp, -, -⟩ := step_body h
      have hcopy : (s.phase i).copy = some pos := by rw [hp]; rfl
      exact active_of_copy hcopy
    | unlock i =>
      obtain ⟨r, pos, hp, -, -⟩ := step_unlock h
      exact active_of_held (x := (r, pos)) (by simp [Event.call, hp, Phase.held])
    | leave i =>
      obtain ⟨r, pos, r', -, ht', -⟩ := step_leave h
      simp [Event.call, ht', Phase.active, Phase.copy, Phase.held] at ht
  · rwa [step_phase_ne h hj] at ht

/-- A copy is taken at the entry, and kept until the body. -/
theorem step_copy {e : Event ι} (h : s.step K calls e = some t) {j : ι} {pos : ℤ}
    (ht : pos ∈ (t.phase j).copy) :
    (e = .enter j ∧ t.fPos = s.fPos ∧
        pos ∈ ((calls j).request.entry (s.fPos (calls j).file)).copy) ∨
      pos ∈ (s.phase j).copy ∧ ∀ i, e = .leave i → i ≠ j := by
  by_cases hj : j = e.call
  · subst hj
    cases e with
    | enter i =>
      obtain ⟨-, rfl⟩ := step_enter_eq h
      exact Or.inl ⟨rfl, rfl, by simpa [Event.call] using ht⟩
    | acquire i =>
      obtain ⟨pos', hp, -, ht', -⟩ := step_acquire h
      simp only [Event.call, hp, ht', Phase.copy] at ht ⊢
      exact Or.inr ⟨ht, by simp⟩
    | interrupt i =>
      obtain ⟨pos', -, ht', -⟩ := step_interrupt h
      simp only [Event.call, ht'] at ht
      cases hq : (calls i).request <;> simp [hq, Request.interrupted, Phase.copy] at ht
    | body i =>
      obtain ⟨pos', r, pos'', -, ht', -⟩ := step_body h
      simp [Event.call, ht', Phase.copy] at ht
    | unlock i =>
      obtain ⟨r, pos', -, ht', -⟩ := step_unlock h
      simp [Event.call, ht', Phase.copy] at ht
    | leave i =>
      obtain ⟨r, pos', r', -, ht', -⟩ := step_leave h
      simp [Event.call, ht', Phase.copy] at ht
  · rw [step_phase_ne h hj] at ht
    refine Or.inr ⟨ht, ?_⟩
    rintro i rfl rfl
    exact hj rfl

/-- **One step**, by a kernel that locks the position, keeps the calls orderly if it disturbs
none. -/
theorem step_orderly {e : Event ι} (h : s.step K calls e = some t)
    (hlocked : PosLocked calls ⟨s, e, t⟩) (hundisturbed : Undisturbed calls ⟨s, e, t⟩)
    (hs : Orderly calls s) : Orderly calls t where
  admitted i hi p := by
    obtain ⟨pos, hpos⟩ := Option.isSome_iff_exists.1 hi
    rcases step_copy h hpos with ⟨-, -, hentry⟩ | ⟨hold, -⟩
    · exact entry_lock_of_copy (Option.isSome_iff_exists.2 ⟨pos, hentry⟩) p
    · exact hs.admitted i (Option.isSome_iff_exists.2 ⟨pos, hold⟩) p
  alone i j hpi hpj hfile hi hj := by
    by_contra hne
    by_cases hei : e = .enter i
    · have := hlocked i hei hpi j (Ne.symm hne) hpj hfile.symm
      rw [step_active h (by rw [hei]; simpa using hne) hj] at this
      simp at this
    · by_cases hej : e = .enter j
      · have := hlocked j hej hpj i hne hpi hfile
        rw [step_active h hei hi] at this
        simp at this
      · exact hne (hs.alone i j hpi hpj hfile (step_active h hei hi) (step_active h hej hj))
  copied i hq pos hpos := by
    rcases step_copy h hpos with ⟨-, hsame, hentry⟩ | ⟨hold, hleave⟩
    · rw [hsame]
      exact copy_of_entry hentry
    · rw [hs.copied i hq pos hold]
      rcases step_fPos h hundisturbed (calls i).file with hsame | ⟨j, x, he, hf, hpj, hx⟩ |
          ⟨j, -, -, -, hfree⟩
      · exact hsame.symm
      · have hji := hs.alone j i hpj (positional_of_copies hq) hf (active_of_held hx)
          (active_of_copy hold)
        exact absurd hji (hleave j he)
      · -- a read or write that has taken its copy uses the position
        refine absurd ?_ (hfree i rfl)
        have hsome : (s.phase i).copy.isSome = true := Option.isSome_iff_exists.2 ⟨pos, hold⟩
        cases hr : (calls i).request with
        | read count fault | write w => exact Or.inl hsome
        | llseek off whence | ioctl cmd arg => simp [hr, Request.copies] at hq

end Orderly

/-! ### The serial order -/

/-- What `order` has to do with the calls of a run that has come to `t`: these are the calls that
have taken effect, and one after the other they lead to the device of `t`, to its positions as soon
as the calls that hold one have returned, and to what the calls return. -/
structure Explained (K : Kernel) (calls : ι → Call) (s₀ : Session) (order : List ι) (t : Sys ι) :
    Prop where
  nodup : order.Nodup
  mem : ∀ i, i ∈ order ↔ (t.phase i).committed = true
  dev : (Linearization.serial (serveCall K calls) s₀ order).1.dev = t.dev
  settled : ∀ f, (∀ i, (calls i).request.positional = true → (calls i).file = f →
      (t.phase i).held = none) →
    (Linearization.serial (serveCall K calls) s₀ order).1.fPos f = t.fPos f
  storing : ∀ i, (calls i).request.positional = true → ∀ x ∈ (t.phase i).held,
    (Linearization.serial (serveCall K calls) s₀ order).1.fPos (calls i).file =
      ((calls i).request.leave (t.fPos (calls i).file) x.1 x.2).1
  returned : ∀ i, ∀ x ∈ (t.phase i).held,
    (i, ((calls i).request.leave (t.fPos (calls i).file) x.1 x.2).2) ∈
      (Linearization.serial (serveCall K calls) s₀ order).2
  done : ∀ i r, t.phase i = .done r →
    (i, r) ∈ (Linearization.serial (serveCall K calls) s₀ order).2

section Explained

variable {K : Kernel} {calls : ι → Call} {s₀ : Session} {order : List ι} {s t : Sys ι}

omit [DecidableEq ι] in
theorem start_explained (d : Dev) (fPos : ℕ → ℤ) :
    Explained K calls ⟨d, fPos⟩ [] (start d fPos) where
  nodup := List.nodup_nil
  mem i := by simp [start, Phase.committed]
  dev := rfl
  settled f _ := rfl
  storing i _ x hx := by simp [start, Phase.held] at hx
  returned i x hx := by simp [start, Phase.held] at hx
  done i r hr := by simp [start] at hr

omit [DecidableEq ι] in
/-- A step of which neither the device nor the positions nor the calls that have taken effect show
anything. -/
theorem Explained.quiet (h : Explained K calls s₀ order s) (hdev : t.dev = s.dev)
    (hpos : t.fPos = s.fPos) (hcommitted : ∀ i, (t.phase i).committed = (s.phase i).committed)
    (hheld : ∀ i, (t.phase i).held = (s.phase i).held)
    (hdone : ∀ i r, t.phase i = .done r → s.phase i = .done r) :
    Explained K calls s₀ order t where
  nodup := h.nodup
  mem i := by rw [hcommitted, h.mem]
  dev := by rw [hdev, h.dev]
  settled f hf := by
    rw [hpos]
    exact h.settled f fun i hi hif => hheld i ▸ hf i hi hif
  storing i hi x hx := by
    rw [hpos]
    exact h.storing i hi x (hheld i ▸ hx)
  returned i x hx := by
    rw [hpos]
    exact h.returned i x (hheld i ▸ hx)
  done i r hr := h.done i r (hdone i r hr)

/-- A call that does not return now had returned before, if it has. -/
theorem done_of_goto {i j : ι} {p : Phase} {r : Ret} (hphase : t.phase = (s.goto i p).phase)
    (hp : ∀ r, p ≠ .done r) (hr : t.phase j = .done r) : s.phase j = .done r := by
  rw [hphase] at hr
  rcases eq_or_ne j i with rfl | hj
  · rw [goto_phase_self] at hr
    exact absurd hr (hp r)
  · rwa [goto_phase_ne _ hj] at hr

/-- A call that goes on to a phase in which it shows nothing new. -/
theorem Explained.goto_quiet (h : Explained K calls s₀ order s) {i : ι} {p : Phase}
    (hdev : t.dev = s.dev) (hpos : t.fPos = s.fPos) (hphase : t.phase = (s.goto i p).phase)
    (hcommitted : p.committed = (s.phase i).committed) (hheld : p.held = (s.phase i).held)
    (hdone : ∀ r, p ≠ .done r) : Explained K calls s₀ order t := by
  refine h.quiet hdev hpos (fun j => ?_) (fun j => ?_) (fun j r => done_of_goto hphase hdone) <;>
    rcases eq_or_ne j i with rfl | hj
  · rw [hphase, goto_phase_self, hcommitted]
  · rw [hphase, goto_phase_ne _ hj]
  · rw [hphase, goto_phase_self, hheld]
  · rw [hphase, goto_phase_ne _ hj]

/-- A call that takes effect comes last in the order. -/
theorem Explained.mem_concat (h : Explained K calls s₀ order s) {i : ι} {p : Phase}
    (hp : (s.phase i).committed = false) (hcommitted : p.committed = true)
    (hphase : t.phase = (s.goto i p).phase) :
    (order ++ [i]).Nodup ∧ ∀ j, j ∈ order ++ [i] ↔ (t.phase j).committed = true := by
  have hnew : i ∉ order := by simp [h.mem, hp]
  refine ⟨List.nodup_append'.2 ⟨h.nodup, List.nodup_singleton i, by simpa using hnew⟩,
    fun j => ?_⟩
  rw [List.mem_append, List.mem_singleton, h.mem, hphase]
  rcases eq_or_ne j i with rfl | hj
  · simp [hcommitted]
  · simp [goto_phase_ne s hj, hj]

/-- A call that is rejected when it enters. -/
theorem Explained.enter_rejected (h : Explained K calls s₀ order s) {i : ι} {r : Ret}
    (hp : s.phase i = .enter)
    (hdone : (calls i).request.entry (s.fPos (calls i).file) = .done r) :
    Explained K calls s₀ (order ++ [i]) (s.goto i (.done r)) := by
  have hserve : ∀ S : Session, serveCall K calls S i = (S, r) := by
    intro S
    simp only [serveCall, Session.call, serve_rejected S.dev hdone, Function.update_eq_self]
  have hserial := Linearization.serial_concat (serveCall K calls) s₀ order i
  rw [hserve] at hserial
  obtain ⟨hnodup, hmem⟩ := h.mem_concat (i := i) (p := .done r) (t := s.goto i (.done r))
    (by rw [hp]; rfl) rfl rfl
  have hheld : ∀ j, ((s.goto i (.done r)).phase j).held = (s.phase j).held := by
    intro j
    rcases eq_or_ne j i with rfl | hj
    · rw [goto_phase_self, hp]; rfl
    · rw [goto_phase_ne _ hj]
  refine ⟨hnodup, hmem, ?_, fun f hf => ?_, fun j hj x hx => ?_, fun j x hx => ?_,
    fun j r' hr => ?_⟩
  · rw [hserial]
    exact h.dev
  · rw [hserial]
    exact h.settled f fun j hj hjf => hheld j ▸ hf j hj hjf
  · rw [hserial]
    exact h.storing j hj x (hheld j ▸ hx)
  · rw [hserial]
    exact List.mem_append_left _ (h.returned j x (hheld j ▸ hx))
  · rw [hserial]
    rcases eq_or_ne j i with rfl | hj
    · rw [goto_phase_self, Phase.done.injEq] at hr
      exact List.mem_append_right _ (by simp [hr])
    · rw [goto_phase_ne _ hj] at hr
      exact List.mem_append_left _ (h.done j r' hr)

omit [DecidableEq ι] in
/-- What a call does when it takes effect, seen from the serial order. -/
theorem Explained.serial_next (h : Explained K calls s₀ order s) {i : ι} {d : Dev} {p : ℤ} {r : Ret}
    (hserve : (calls i).request.serve K s.dev true
      ((Linearization.serial (serveCall K calls) s₀ order).1.fPos (calls i).file) = (d, p, r)) :
    Linearization.serial (serveCall K calls) s₀ (order ++ [i]) =
      (⟨d, Function.update (Linearization.serial (serveCall K calls) s₀ order).1.fPos
          (calls i).file p⟩,
        (Linearization.serial (serveCall K calls) s₀ order).2 ++ [(i, r)]) := by
  rw [Linearization.serial_concat]
  simp only [serveCall, Session.call] at hserve ⊢
  rw [h.dev, hserve]

/-- A `read`, `write` or `llseek` that makes its body. -/
theorem Explained.body_positional (h : Explained K calls s₀ order s) (ho : Orderly calls s) {i : ι}
    (hq : (calls i).request.positional = true) (hstep : s.step K calls (.body i) = some t) :
    Explained K calls s₀ (order ++ [i]) t := by
  obtain ⟨pos, hp, rfl⟩ := step_body_eq hstep
  have hcopy : pos ∈ (s.phase i).copy := by rw [hp]; rfl
  have hactive := active_of_copy hcopy
  -- no other call on the file holds a position
  have hfree : ∀ j, (calls j).request.positional = true → (calls j).file = (calls i).file →
      (s.phase j).held = none := by
    intro j hj hjf
    cases hheld : (s.phase j).held with
    | none => rfl
    | some x =>
      obtain rfl := ho.alone j i hj hq hjf (active_of_held hheld) hactive
      simp [hp, Phase.held] at hheld
  have hlock := ho.admitted i (Option.isSome_iff_exists.2 ⟨pos, hcopy⟩) (s.fPos (calls i).file)
  have hserve := serve_eq (K := K) s.dev hlock fun hc => ho.copied i hc pos hcopy
  have hserial := h.serial_next
    ((congrArg (fun p => (calls i).request.serve K s.dev true p) (h.settled _ hfree)).trans hserve)
  have hc := critical_positional (K := K) hq s.dev (s.fPos (calls i).file) pos
  generalize (calls i).request.critical K s.dev (s.fPos (calls i).file) pos = c at hserial hc ⊢
  obtain ⟨d', p', r, pos'⟩ := c
  obtain rfl : p' = s.fPos (calls i).file := hc
  simp only [Function.update_eq_self] at hserial ⊢
  obtain ⟨hnodup, hmem⟩ := h.mem_concat (i := i) (p := .unlock r pos') (t := s.goto i _)
    (by rw [hp]; rfl) rfl rfl
  refine ⟨hnodup, hmem, by rw [hserial], fun f hf => ?_, fun j hj x hx => ?_, fun j x hx => ?_,
    fun j r' hr => ?_⟩ <;> rw [hserial]
  · have hfi : f ≠ (calls i).file := by
      rintro rfl
      have hnone := hf i hq rfl
      simp [Phase.held] at hnone
    simp only [Function.update_of_ne hfi]
    refine h.settled f fun j hj hjf => ?_
    have hji : j ≠ i := by
      rintro rfl
      exact hfi hjf.symm
    have hnone := hf j hj hjf
    rwa [goto_phase_ne _ hji] at hnone
  · rcases eq_or_ne j i with rfl | hji
    · rw [goto_phase_self] at hx
      obtain rfl := Option.some.inj hx
      simp
    · rw [goto_phase_ne _ hji] at hx
      have hfj : (calls j).file ≠ (calls i).file := by
        intro hjf
        rw [hfree j hj hjf] at hx
        simp at hx
      simp only [Function.update_of_ne hfj]
      exact h.storing j hj x hx
  · rcases eq_or_ne j i with rfl | hji
    · rw [goto_phase_self] at hx
      obtain rfl := Option.some.inj hx
      exact List.mem_append_right _ (by simp)
    · rw [goto_phase_ne _ hji] at hx
      exact List.mem_append_left _ (h.returned j x hx)
  · exact List.mem_append_left _ (h.done j r' (done_of_goto rfl (by simp) hr))

/-- A call that does not use the position returns what it holds, and leaves the position alone. -/
theorem leave_of_not_uses {q : Request} {p : Phase} {x : Ret × ℤ} (hx : x ∈ p.held)
    (h : ¬ q.UsesPosition p) (fPos : ℤ) : q.leave fPos x.1 x.2 = (fPos, x.1) := by
  cases q with
  | read count fault | write w =>
    have hneg : ¬ 0 ≤ x.1.retval := fun hr => h (Or.inr ⟨x, hx, hr⟩)
    simp [Request.leave, hneg]
  | llseek off whence => exact absurd (Option.isSome_iff_exists.2 ⟨x, hx⟩) h
  | ioctl cmd arg => rfl

/-- An undisturbing `ioctl` that makes its body: on each file the positions stay what they were,
or the run and the serial order now agree and no call uses the old one. -/
theorem Explained.ioctl_positions (h : Explained K calls s₀ order s) (ho : Orderly calls s) {i : ι}
    (hq : (calls i).request.positional = false) (hstep : s.step K calls (.body i) = some t)
    (hundisturbed : Undisturbed calls ⟨s, .body i, t⟩) :
    ∃ r pos P, t.phase = (s.goto i (.unlock r pos)).phase ∧ t.dev = s.dev ∧
      Linearization.serial (serveCall K calls) s₀ (order ++ [i]) =
        (⟨s.dev, P⟩, (Linearization.serial (serveCall K calls) s₀ order).2 ++ [(i, r)]) ∧
      ∀ f, P f = (Linearization.serial (serveCall K calls) s₀ order).1.fPos f ∧
          t.fPos f = s.fPos f ∨
        P f = t.fPos f ∧
          ∀ j, (calls j).file = f → ¬ (calls j).request.UsesPosition (s.phase j) := by
  obtain ⟨pos, hp, rfl⟩ := step_body_eq hstep
  have hlock := ho.admitted i (by rw [hp]; rfl)
    ((Linearization.serial (serveCall K calls) s₀ order).1.fPos (calls i).file)
  have hcopies : (calls i).request.copies = true → pos =
      (Linearization.serial (serveCall K calls) s₀ order).1.fPos (calls i).file := by
    intro hc
    rw [positional_of_copies hc] at hq
    simp at hq
  have hserve := serve_eq (K := K) s.dev hlock hcopies
  have hserial := h.serial_next hserve
  rcases critical_cases (K := K) hq s.dev with ⟨e, -, hc⟩ | ⟨n, hc⟩ <;>
    simp only [leave_not_positional hq, hc] at hserial <;>
    rw [hc] <;>
    refine ⟨_, _, _, rfl, rfl, hserial, fun f => ?_⟩ <;>
    rcases eq_or_ne f (calls i).file with rfl | hf
  · exact Or.inl ⟨Function.update_self .., Function.update_self ..⟩
  · exact Or.inl ⟨Function.update_of_ne hf .., Function.update_of_ne hf ..⟩
  · refine Or.inr ⟨by simp, ?_⟩
    exact hundisturbed i rfl hq (⟨0, []⟩, pos) (by simp [hc, Phase.held]) le_rfl
  · exact Or.inl ⟨Function.update_of_ne hf .., Function.update_of_ne hf ..⟩

/-- An `ioctl` that makes its body. -/
theorem Explained.body_ioctl (h : Explained K calls s₀ order s) (ho : Orderly calls s) {i : ι}
    (hq : (calls i).request.positional = false) (hstep : s.step K calls (.body i) = some t)
    (hundisturbed : Undisturbed calls ⟨s, .body i, t⟩) :
    Explained K calls s₀ (order ++ [i]) t := by
  obtain ⟨pos, hp, -⟩ := step_body_eq hstep
  obtain ⟨r, pos', P, hphase, hdev, hserial, hpositions⟩ :=
    h.ioctl_positions ho hq hstep hundisturbed
  obtain ⟨hnodup, hmem⟩ := h.mem_concat (by rw [hp]; rfl) rfl hphase
  have hne : ∀ {j}, (calls j).request.positional = true → j ≠ i := by
    rintro j hj rfl
    rw [hq] at hj
    simp at hj
  have hheld : ∀ {j x}, j ≠ i → x ∈ (t.phase j).held → x ∈ (s.phase j).held := by
    intro j x hj hx
    rwa [hphase, goto_phase_ne _ hj] at hx
  refine ⟨hnodup, hmem, by rw [hserial, hdev], fun f hf => ?_, fun j hj x hx => ?_,
    fun j x hx => ?_, fun j r' hr => ?_⟩ <;> rw [hserial]
  · rcases hpositions f with ⟨hP, ht⟩ | ⟨hP, -⟩
    · refine (hP.trans ?_).trans ht.symm
      refine h.settled f fun j hj hjf => ?_
      have hnone := hf j hj hjf
      rwa [hphase, goto_phase_ne _ (hne hj)] at hnone
    · exact hP
  · have hx := hheld (hne hj) hx
    rcases hpositions (calls j).file with ⟨hP, ht⟩ | ⟨hP, hfree⟩
    · rw [ht]
      exact hP.trans (h.storing j hj x hx)
    · rw [leave_of_not_uses hx (hfree j rfl)]
      exact hP
  · rcases eq_or_ne j i with rfl | hj
    · rw [hphase, goto_phase_self] at hx
      obtain rfl := Option.some.inj hx
      rw [leave_not_positional hq]
      exact List.mem_append_right _ List.mem_cons_self
    · have hx := hheld hj hx
      have hret := h.returned j x hx
      refine List.mem_append_left _ ?_
      rcases hpositions (calls j).file with ⟨-, ht⟩ | ⟨-, hfree⟩
      · rwa [ht]
      · rw [leave_of_not_uses hx (hfree j rfl)] at hret ⊢
        exact hret
  · exact List.mem_append_left _ (h.done j r' (done_of_goto hphase (by simp) hr))

/-- A call that returns. -/
theorem Explained.leave (h : Explained K calls s₀ order s) (ho : Orderly calls s) {i : ι}
    (hstep : s.step K calls (.leave i) = some t) : Explained K calls s₀ order t := by
  obtain ⟨r, pos, hp, ht⟩ := step_leave_eq hstep
  have hphase : t.phase = (s.goto i (.done
      ((calls i).request.leave (s.fPos (calls i).file) r pos).2)).phase := by rw [ht]
  have hpos : t.fPos = Function.update s.fPos (calls i).file
      ((calls i).request.leave (s.fPos (calls i).file) r pos).1 := by rw [ht]
  have hdev : s.dev = t.dev := by rw [ht]; rfl
  have hi : (r, pos) ∈ (s.phase i).held := by rw [hp]; rfl
  -- only a positional call moves the position, and only that of its file
  have hkept : ∀ f, ¬ ((calls i).request.positional = true ∧ (calls i).file = f) →
      t.fPos f = s.fPos f := by
    intro f hf
    rw [hpos]
    rcases eq_or_ne f (calls i).file with rfl | hfi
    · have hqi : (calls i).request.positional = false := by simpa using hf
      rw [leave_not_positional hqi, Function.update_eq_self]
    · exact Function.update_of_ne hfi ..
  have hheld : ∀ {j x}, x ∈ (t.phase j).held → j ≠ i ∧ x ∈ (s.phase j).held := by
    intro j x hx
    rw [hphase] at hx
    rcases eq_or_ne j i with rfl | hj
    · simp [Phase.held] at hx
    · rw [goto_phase_ne _ hj] at hx
      exact ⟨hj, hx⟩
  have halone : ∀ {j x}, x ∈ (s.phase j).held → j ≠ i → (calls j).request.positional = true →
      ¬ ((calls i).request.positional = true ∧ (calls i).file = (calls j).file) := by
    rintro j x hx hj hqj ⟨hqi, hfile⟩
    exact hj (ho.alone j i hqj hqi hfile.symm (active_of_held hx) (active_of_held hi))
  refine ⟨h.nodup, fun j => ?_, h.dev.trans hdev, fun f hf => ?_, fun j hqj x hx => ?_,
    fun j x hx => ?_, fun j r' hr => ?_⟩
  · rw [h.mem, hphase]
    rcases eq_or_ne j i with rfl | hj
    · simp [hp, Phase.committed]
    · rw [goto_phase_ne _ hj]
  · by_cases hmine : (calls i).request.positional = true ∧ (calls i).file = f
    · obtain ⟨hqi, rfl⟩ := hmine
      rw [hpos, Function.update_self]
      exact h.storing i hqi (r, pos) hi
    · rw [hkept f hmine]
      refine h.settled f fun j hqj hjf => ?_
      have hj : j ≠ i := by
        rintro rfl
        exact hmine ⟨hqj, hjf⟩
      have hnone := hf j hqj hjf
      rwa [hphase, goto_phase_ne _ hj] at hnone
  · obtain ⟨hj, hx⟩ := hheld hx
    rw [hkept _ (halone hx hj hqj)]
    exact h.storing j hqj x hx
  · obtain ⟨hj, hx⟩ := hheld hx
    have hret := h.returned j x hx
    cases hqj : (calls j).request.positional with
    | true => rwa [hkept _ (halone hx hj hqj)]
    | false => rwa [leave_not_positional hqj] at hret ⊢
  · rw [hphase] at hr
    rcases eq_or_ne j i with rfl | hj
    · rw [goto_phase_self, Phase.done.injEq] at hr
      exact hr ▸ h.returned j (r, pos) hi
    · rw [goto_phase_ne _ hj] at hr
      exact h.done j r' hr

/-- **One step** keeps the order, or adds the call that takes effect. -/
theorem step_explained {e : Event ι} (h : Explained K calls s₀ order s) (ho : Orderly calls s)
    (hstep : s.step K calls e = some t) (hlock : ∀ i, e ≠ .interrupt i)
    (hundisturbed : Undisturbed calls ⟨s, e, t⟩) :
    ∃ is, Explained K calls s₀ (order ++ is) t := by
  cases e with
  | enter i =>
    obtain ⟨hp, rfl⟩ := step_enter_eq hstep
    rcases entry_cases (s.fPos (calls i).file) (calls i).request with hentry | ⟨r, hentry⟩
    · refine ⟨[], ?_⟩
      rw [List.append_nil, hentry]
      exact h.goto_quiet rfl rfl rfl (by rw [hp]; rfl) (by rw [hp]; rfl) (by simp)
    · rw [hentry]
      exact ⟨[i], h.enter_rejected hp hentry⟩
  | acquire i =>
    obtain ⟨pos, hp, -, rfl⟩ := step_acquire_eq hstep
    refine ⟨[], ?_⟩
    rw [List.append_nil]
    exact h.goto_quiet rfl rfl rfl (by rw [hp]; rfl) (by rw [hp]; rfl) (by simp)
  | interrupt i => exact absurd rfl (hlock i)
  | body i =>
    cases hq : (calls i).request.positional with
    | true => exact ⟨[i], h.body_positional ho hq hstep⟩
    | false => exact ⟨[i], h.body_ioctl ho hq hstep hundisturbed⟩
  | unlock i =>
    obtain ⟨r, pos, hp, rfl⟩ := step_unlock_eq hstep
    refine ⟨[], ?_⟩
    rw [List.append_nil]
    exact h.goto_quiet rfl rfl rfl (by rw [hp]; rfl) (by rw [hp]; rfl) (by simp)
  | leave i => exact ⟨[], by rw [List.append_nil]; exact h.leave ho hstep⟩

/-- **Every run** whose steps disturb no call has an order that explains it; a call that had
returned when another began comes before it. -/
theorem run_explained {d : Dev} {fPos : ℕ → ℤ} {es : List (Event ι)}
    (h : Exec.run (step K calls) (start d fPos) es = some t) :
    (∀ i, .interrupt i ∉ es) →
    (∀ x ∈ Exec.trace (step K calls) (start d fPos) es, PosLocked calls x) →
    (∀ x ∈ Exec.trace (step K calls) (start d fPos) es, Undisturbed calls x) →
    Orderly calls t ∧ ∃ order, Explained K calls ⟨d, fPos⟩ order t ∧
      ∀ i j, Precedes K calls (start d fPos) es i j →
        i ∈ order ∧ (j ∈ order → [i, j].Sublist order) := by
  refine Exec.run_induction (I := fun es t => (∀ i, .interrupt i ∉ es) →
    (∀ x ∈ Exec.trace (step K calls) (start d fPos) es, PosLocked calls x) →
    (∀ x ∈ Exec.trace (step K calls) (start d fPos) es, Undisturbed calls x) →
    Orderly calls t ∧ ∃ order, Explained K calls ⟨d, fPos⟩ order t ∧
      ∀ i j, Precedes K calls (start d fPos) es i j →
        i ∈ order ∧ (j ∈ order → [i, j].Sublist order)) ?_ ?_ h
  · intro _ _ _
    refine ⟨⟨by simp [start, Phase.copy], by simp [start, Phase.active, Phase.copy, Phase.held],
      by simp [start, Phase.copy]⟩, [], start_explained d fPos, ?_⟩
    rintro i j ⟨es₁, u, r, hpre, hrun, hdone, -⟩
    rw [List.prefix_nil.1 hpre, Exec.run_nil, Option.some.injEq] at hrun
    simp [← hrun, start] at hdone
  · intro es s e t hrun ih hstep hlock hposlocked hundisturbed
    rw [Exec.trace_concat hrun hstep] at hposlocked hundisturbed
    simp only [List.mem_append, List.mem_singleton] at hlock hposlocked hundisturbed
    obtain ⟨ho, order, hexpl, hbefore⟩ := ih (fun i hi => hlock i (Or.inl hi))
      (fun x hx => hposlocked x (Or.inl hx)) (fun x hx => hundisturbed x (Or.inl hx))
    have hlast := hundisturbed _ (Or.inr rfl)
    obtain ⟨is, hexpl'⟩ := step_explained hexpl ho hstep
      (fun i hi => hlock i (Or.inr hi.symm)) hlast
    refine ⟨step_orderly hstep (hposlocked _ (Or.inr rfl)) hlast ho, order ++ is, hexpl', ?_⟩
    rintro i j ⟨es₁, u, r, hpre, hrun₁, hdone, henter⟩
    rcases List.prefix_concat_iff.1 hpre with rfl | hpre
    · -- `i` has returned by now, and `j` has not begun
      have hu : u = t := Option.some.inj (hrun₁.symm.trans (Exec.run_concat.2 ⟨s, hrun, hstep⟩))
      subst hu
      refine ⟨(hexpl'.mem i).2 (by rw [hdone]; rfl), fun hj => ?_⟩
      have hcommitted := (hexpl'.mem j).1 hj
      rw [henter] at hcommitted
      simp [Phase.committed] at hcommitted
    · obtain ⟨hi, hij⟩ := hbefore i j ⟨es₁, u, r, hpre, hrun₁, hdone, henter⟩
      refine ⟨List.mem_append_left _ hi, fun hj => ?_⟩
      by_cases hjo : j ∈ order
      · exact (hij hjo).trans (List.sublist_append_left ..)
      · exact Linearization.sublist_of_prefix (List.prefix_append ..) hi hj hjo

end Explained

/-- **Linearizability.**  Any number of calls on any files, in every interleaving in which the
mutex is always acquired and the kernel locks the positions: if no request stores a position that
another call works on, then the return values, the device and all positions are those of a serial
order of the calls that respects real time. -/
theorem linearizable {K : Kernel} {calls : ι → Call} {d : Dev} {fPos : ℕ → ℤ}
    {es : List (Event ι)} {t : Sys ι} (h : Exec.run (step K calls) (start d fPos) es = some t)
    (hmutex : ∀ i, .interrupt i ∉ es)
    (hkernel : ∀ x ∈ Exec.trace (step K calls) (start d fPos) es, PosLocked calls x)
    (hundisturbed : ∀ x ∈ Exec.trace (step K calls) (start d fPos) es, Undisturbed calls x)
    (hdone : ∀ i, ∃ r, t.phase i = .done r) :
    Linearizable K calls (start d fPos) es t := by
  obtain ⟨-, order, hexpl, hbefore⟩ := run_explained h hmutex hkernel hundisturbed
  have hall : ∀ i, i ∈ order := by
    intro i
    obtain ⟨r, hr⟩ := hdone i
    rw [hexpl.mem, hr]
    rfl
  refine ⟨order, hexpl.nodup, hall, ?_, hexpl.done, fun i j hij => (hbefore i j hij).2 (hall j)⟩
  -- every call has returned, so no position is held
  have hpositions : ∀ f, (Linearization.serial (serveCall K calls) ⟨d, fPos⟩ order).1.fPos f =
      t.fPos f := by
    refine fun f => hexpl.settled f fun i _ _ => ?_
    obtain ⟨r, hr⟩ := hdone i
    rw [hr]
    rfl
  exact congrArg₂ Session.mk hexpl.dev (funext hpositions)

/-- A read of one byte and a seek to the third byte, on one open file. -/
def readAndSeek : Fin 2 → Call
  | 0 => ⟨0, .read 1 false⟩
  | 1 => ⟨0, .ioctl aesdcharIocseekto (some ⟨0, 2⟩)⟩

/-- The device with the command `abc` and its newline. -/
def oneCommand : Dev := (aesdWrite .x86 aesdInitModule true (.served [97, 98, 99, newline])).1

theorem readAndSeek_posLocked (x : Exec.Trans (Sys (Fin 2)) (Event (Fin 2))) :
    PosLocked readAndSeek x := by
  intro i _ hi j hji hj
  fin_cases i <;> fin_cases j <;> simp_all [readAndSeek, Request.positional]

/-- The seek disturbs only a read that is under way. -/
theorem readAndSeek_undisturbed {x : Exec.Trans (Sys (Fin 2)) (Event (Fin 2))}
    (h : x.event = .body 1 → (x.before.phase 0).active = false) : Undisturbed readAndSeek x := by
  intro i hi hq r _ _ j _ huses
  fin_cases i
  · simp [readAndSeek, Request.positional] at hq
  · have hidle := h hi
    fin_cases j
    · rcases huses with hcopy | ⟨y, hy, -⟩
      · obtain ⟨pos, hpos⟩ := Option.isSome_iff_exists.1 hcopy
        exact absurd (hidle.symm.trans (active_of_copy hpos)) (by decide)
      · exact absurd (hidle.symm.trans (active_of_held hy)) (by decide)
    · exact huses

/-- The seek waits until the read is done. -/
theorem linearizable_read_then_seek :
    let es : List (Event (Fin 2)) := [.enter 0, .enter 1, .acquire 0, .body 0, .unlock 0, .leave 0,
      .acquire 1, .body 1, .unlock 1, .leave 1]
    ∃ t, Exec.run (step .x86 readAndSeek) (start oneCommand fun _ => 0) es = some t ∧
      Linearizable .x86 readAndSeek (start oneCommand fun _ => 0) es t := by
  intro es
  have hall : ∀ x ∈ Exec.trace (step .x86 readAndSeek) (start oneCommand fun _ => 0) es,
      x.event = .body 1 → (x.before.phase 0).active = false := by
    decide +kernel
  refine ⟨_, rfl, linearizable rfl (by simp [es]) (fun x _ => readAndSeek_posLocked x)
    (fun x hx => readAndSeek_undisturbed (hall x hx)) ?_⟩
  intro i
  fin_cases i <;> exact ⟨_, rfl⟩

/-- The read has its copy of the position, 0, when the seek stores 2; then the read stores 1.  One
after the other, the calls lead to 2 or 3. -/
theorem seek_lost_in_read :
    let es : List (Event (Fin 2)) := [.enter 0, .enter 1, .acquire 1, .body 1, .unlock 1, .leave 1,
      .acquire 0, .body 0, .unlock 0, .leave 0]
    ∃ t, Exec.run (step .x86 readAndSeek) (start oneCommand fun _ => 0) es = some t ∧
      (∀ i, .interrupt i ∉ es) ∧
      (∀ x ∈ Exec.trace (step .x86 readAndSeek) (start oneCommand fun _ => 0) es,
        PosLocked readAndSeek x) ∧
      (∀ i, ∃ r, t.phase i = .done r) ∧
      ¬ Linearizable .x86 readAndSeek (start oneCommand fun _ => 0) es t := by
  intro es
  refine ⟨_, rfl, by simp [es], fun x _ => readAndSeek_posLocked x, ?_, ?_⟩
  · intro i
    fin_cases i <;> exact ⟨_, rfl⟩
  · rintro ⟨order, hnodup, hall, hstate, -, -⟩
    have hperm : order.Perm [0, 1] :=
      (List.perm_ext_iff_of_nodup hnodup (by decide)).2 fun i => by
        fin_cases i <;> simp [hall]
    obtain ⟨i, j, rfl⟩ := List.length_eq_two.1 hperm.length_eq
    have horder : ∀ i j : Fin 2, [i, j].Nodup → [i, j] = [0, 1] ∨ [i, j] = [1, 0] := by decide
    have hpos := congrArg (fun S : Session => S.fPos 0) hstate
    revert hpos
    rcases horder i j hnodup with h | h <;> rw [h] <;> decide +kernel

end Sys

end Aesd
