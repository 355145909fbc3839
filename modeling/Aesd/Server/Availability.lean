import Aesd.Device.Seek
import Aesd.Server.Process

/-!
# What a client can do to the server

A handler that meets an error calls `cleanup()` or `exit()`, and either ends the process, with
every connection in it.  When the kernel lets no call fail, the one call that can still fail is
the `ioctl` of a seek request: the driver rejects a request that does not name a byte of a stored
command, and `handle_connection` takes that for an error of its own.

* `Pc.fatal`, `resume_endsServer`: the results on which a handler gives up;
* `availability`: in the device build the server stays up exactly as long as every seek request
  names a byte;
* `availability_fails`: one client that seeks in an empty device ends it.
-/

namespace Aesd

/-- In `cleanup()` or `exit()`. -/
def Pc.endsServer : Pc → Bool
  | .cleanup | .exit => true
  | .open | .malloc | .recv | .write | .ioctl _ | .lseek | .read | .send _ | .close | .closeSock
  | .done => false

/-- The results that the handler does not survive. -/
def Pc.fatal : Pc → Ret → Bool
  | .open, r | .write, r | .read, r => r.retval = -1
  | .malloc, r => r.retval = 0
  | .ioctl _, r => r.retval ≠ 0
  | .recv, _ | .lseek, _ | .send _, _ | .close, _ | .closeSock, _ | .done, _ | .cleanup, _
  | .exit, _ => false

/-- A handler gives up on a fatal result, and on no other. -/
theorem Handler.resume_endsServer (h : Handler) (c : Bool) (r : Ret) (b : List UInt8) :
    (h.resume c r b).pc.endsServer = (h.pc.endsServer || h.pc.fatal r) := by
  have hafter : (h.afterStore c).pc.endsServer = false := by
    unfold Handler.afterStore
    split_ifs <;> rfl
  obtain ⟨pc, buffer, n⟩ := h
  cases pc with
  | «open» => simp only [resume, Pc.fatal]; split_ifs with h <;> simp [Pc.endsServer, h]
  | malloc => simp only [resume, Pc.fatal]; split_ifs with h <;> simp [clear, Pc.endsServer, h]
  | recv =>
    -- whatever arrives, the handler goes on to a `write`, an `ioctl` or the end of the loop
    simp only [resume, received]
    split_ifs
    · cases Handler.request c (buffer.store r.data) b <;> rfl
    · rfl
  | write =>
    simp only [resume, Pc.fatal]
    split_ifs with h
    · simp [Pc.endsServer, h]
    · rw [hafter]
      simp [Pc.endsServer, h]
  | ioctl s =>
    simp only [resume, Pc.fatal]
    split_ifs with h
    · simp [Pc.endsServer, h]
    · rw [hafter]
      simp [Pc.endsServer, h]
  | read =>
    simp only [resume, Pc.fatal]
    split_ifs with h <;> simp [clear, Pc.endsServer, h]
  | _ => rfl

/-- What the C library returns for a failed call. -/
def SysCall.failed : SysCall → Ret → Bool
  | .malloc, r => r.retval = 0
  | .open, r | .recv, r | .file _, r | .send _, r | .close, r | .closeSock, r => r.retval = -1

/-- The driver rejects the requests that name no byte. -/
theorem deviceDriver_ioctl (K : Kernel) (d : Dev) (pos : ℤ) (p : Seekto) :
    ((deviceDriver K).serve d pos (.ioctl p)).2.2.retval = if p.Names d then 0 else -1 := by
  have hserve : ((deviceDriver K).serve d pos (.ioctl p)).2.2 =
      Ret.libc ⟨(aesdAdjustFileOffsetBody d pos p.writeCmd p.writeCmdOffset).1, []⟩ := by
    rw [← aesdUnlockedIoctl_seekto]
    rfl
  rw [hserve, aesdAdjustFileOffsetBody_fst]
  split_ifs <;> rfl

namespace Process

variable {ι : Type*}

/-- The kernel does not let the call fail; of an `ioctl` this means that it reaches the driver. -/
def callGranted {σ : Type*} (D : Driver σ) (s : Process σ ι) (env : Env) : SysCall → Bool
  | .file (.ioctl _) => !env.fail && (s.target.bind Obj.opener).isSome
  | call => !call.failed (s.result D env call)

/-- No call of a handler fails but an `ioctl` that the driver rejects. -/
def Granted {σ : Type*} (D : Driver σ) (s : Process σ ι) : ServerEvent ι → Prop
  | .accept _ | .timestamp _ => True
  | .handler i env => ∀ call ∈ (s.handler i).call, s.callGranted D env call = true

instance {σ : Type*} (D : Driver σ) (s : Process σ ι) : (e : ServerEvent ι) →
    Decidable (s.Granted D e)
  | .accept _ | .timestamp _ => inferInstanceAs (Decidable True)
  | .handler _ _ => inferInstanceAs (Decidable (∀ _ ∈ _, _))

/-- The seek request that a step issues. -/
def issued {σ : Type*} (s : Process σ ι) : ServerEvent ι → Option Seekto
  | .accept _ | .timestamp _ => none
  | .handler i _ => match (s.handler i).pc with
    | .ioctl p => some p
    | _ => none

variable {K : Kernel} {s t : Process Dev ι} {i : ι} {e : ServerEvent ι}
  {es : List (ServerEvent ι)} {d : Dev} {inUse : List Bool}

/-- The result of a granted call is fatal only if it is a request that names no byte. -/
theorem Granted.fatal_iff {env : Env} (h : s.Granted (deviceDriver K) (.handler i env))
    {call : SysCall} (hcall : (s.handler i).call = some call) :
    (s.handler i).pc.fatal (s.result (deviceDriver K) env call) = true ↔
      ¬ ∀ p ∈ s.issued (.handler i env), p.Names s.store := by
  have hgrant := h call hcall
  cases hpc : (s.handler i).pc with
  | ioctl p =>
    simp only [Handler.call, hpc, Option.some.injEq] at hcall
    subst hcall
    simp only [callGranted, Bool.and_eq_true, Bool.not_eq_true'] at hgrant
    obtain ⟨hfail, htarget⟩ := hgrant
    have hres : (s.result (deviceDriver K) env (.file (.ioctl p))).retval =
        if p.Names s.store then 0 else -1 := by
      cases ho : s.target with
      | none => simp [ho] at htarget
      | some o =>
        cases o with
        | data j pos =>
          simp only [result, fileCall, hfail, ho, Bool.false_eq_true, if_false]
          exact deviceDriver_ioctl K s.store pos p
        | sock k => simp [ho, Obj.opener] at htarget
        | other => simp [ho, Obj.opener] at htarget
    simp only [Pc.fatal, hres, issued, hpc, Option.mem_some, forall_eq']
    split_ifs with hnames <;> simp [hnames]
  | «open» | malloc | write | read =>
    simp only [Handler.call, hpc, Option.some.injEq] at hcall
    subst hcall
    simpa [Pc.fatal, issued, hpc, callGranted, SysCall.failed] using hgrant
  | _ => simp [Pc.fatal, issued, hpc]

variable [DecidableEq ι]

/-- One step: a server that is up stays up unless the step issues a request that names no
byte. -/
theorem step_endsServer (h : s.step (deviceDriver K) e = some t)
    (hgrant : s.Granted (deviceDriver K) e) :
    (∀ i, (t.handler i).pc.endsServer = false) ↔
      (∀ i, (s.handler i).pc.endsServer = false) ∧ ∀ p ∈ s.issued e, p.Names s.store := by
  cases e with
  | accept j =>
    obtain ⟨-, -, -, -, hhandler⟩ := step_accept h
    simp [hhandler, issued]
  | timestamp line =>
    obtain ⟨-, -, hhandler, -⟩ := step_timestamp h
    simp [hhandler, issued]
  | handler j env =>
    obtain ⟨call, hcall, hself⟩ := step_resume h
    obtain ⟨-, -, -, hother, -⟩ := step_handler h
    have hfatal := hgrant.fatal_iff hcall
    have hj : (t.handler j).pc.endsServer = false ↔ (s.handler j).pc.endsServer = false ∧
        ∀ p ∈ s.issued (.handler j env), p.Names s.store := by
      rw [hself, Handler.resume_endsServer, Bool.or_eq_false_iff, ← Bool.not_eq_true (Pc.fatal _ _),
        hfatal, not_not]
    constructor
    · intro hall
      refine ⟨fun i => ?_, (hj.1 (hall j)).2⟩
      rcases eq_or_ne i j with rfl | hij
      · exact (hj.1 (hall i)).1
      · rw [← hother i hij]
        exact hall i
    · rintro ⟨hall, hvalid⟩ i
      rcases eq_or_ne i j with rfl | hij
      · exact hj.2 ⟨hall i, hvalid⟩
      · rw [hother i hij]
        exact hall i

/-- **Availability.**  In the device build, in every run of any number of connections in which the
kernel lets no call fail, no handler ends the server if and only if every seek request names, when
it is issued, a slot of the array and a byte of the command in it. -/
theorem availability (h : Exec.run (step (deviceDriver K)) (start d inUse) es = some t)
    (hgrant : ∀ x ∈ Exec.trace (step (deviceDriver K)) (start d inUse) es,
      x.before.Granted (deviceDriver K) x.event) :
    (∀ i, (t.handler i).pc ≠ .cleanup ∧ (t.handler i).pc ≠ .exit) ↔
      ∀ x ∈ Exec.trace (step (deviceDriver K)) (start d inUse) es,
        ∀ p ∈ x.before.issued x.event, p.Names x.before.store := by
  have hends : ∀ pc : Pc, pc ≠ .cleanup ∧ pc ≠ .exit ↔ pc.endsServer = false := by
    intro pc
    cases pc <;> simp [Pc.endsServer]
  simp only [hends]
  revert hgrant
  refine Exec.run_induction (I := fun es t =>
    (∀ x ∈ Exec.trace (step (deviceDriver K)) (start d inUse) es,
      x.before.Granted (deviceDriver K) x.event) →
    ((∀ i, (t.handler i).pc.endsServer = false) ↔
      ∀ x ∈ Exec.trace (step (deviceDriver K)) (start d inUse) es,
        ∀ p ∈ x.before.issued x.event, p.Names x.before.store)) ?_ ?_ h
  · intro _
    simp [start, Handler.start, Pc.endsServer, Exec.trace]
  · intro es s e u hrun ih he hgrant
    rw [Exec.trace_concat hrun he] at hgrant ⊢
    rw [step_endsServer he (hgrant ⟨s, e, u⟩ (by simp)),
      ih fun x hx => hgrant x (List.mem_append_left _ hx)]
    simp only [List.mem_append, List.mem_singleton, or_imp, forall_and, forall_eq]

/-- A client stores a command and seeks to its second byte. -/
theorem availability_valid_seek :
    let es : List (ServerEvent (Fin 1)) := [.accept 0, .handler 0 .quiet, .handler 0 .quiet,
      .handler 0 ⟨false, [97, newline], []⟩, .handler 0 .quiet, .handler 0 .quiet,
      .handler 0 .quiet, .handler 0 .quiet,
      .handler 0 ⟨false, ioctlIdString ++ [48, comma, 49, newline], []⟩, .handler 0 .quiet]
    ∃ t, Exec.run (step (deviceDriver .x86)) (start aesdInitModule []) es = some t ∧
      ∀ i, (t.handler i).pc ≠ .cleanup ∧ (t.handler i).pc ≠ .exit := by
  intro es
  obtain ⟨t, ht⟩ := Option.isSome_iff_exists.1 (show (Exec.run (step (deviceDriver .x86))
    (start aesdInitModule []) es).isSome = true by decide +kernel)
  exact ⟨t, ht, (availability ht (by decide +kernel)).2 (by decide +kernel)⟩

/-- A client connects and seeks to the first byte of a device that holds nothing. -/
theorem availability_fails :
    let es : List (ServerEvent (Fin 1)) := [.accept 0, .handler 0 .quiet, .handler 0 .quiet,
      .handler 0 ⟨false, ioctlIdString ++ [48, comma, 48, newline], []⟩, .handler 0 .quiet]
    (∀ x ∈ Exec.trace (step (deviceDriver .x86)) (start aesdInitModule []) es,
      x.before.Granted (deviceDriver .x86) x.event) ∧
    ∃ t, Exec.run (step (deviceDriver .x86)) (start aesdInitModule []) es = some t ∧
      (t.handler 0).pc = .cleanup := by
  intro es
  refine ⟨by decide +kernel, ?_⟩
  have hpc : (Exec.run (step (deviceDriver .x86)) (start aesdInitModule []) es).map
      (fun t => (t.handler 0).pc) = some .cleanup := by decide +kernel
  exact Option.map_eq_some_iff.1 hpc

end Process

end Aesd
