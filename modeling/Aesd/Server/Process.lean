import Aesd.Lib.Run
import Aesd.Lib.SlotTable
import Aesd.Server.Handler

/-!
# The server process (`server/aesdsocket.c`)

All threads of the process share one descriptor table and the variable `datafd`.  `accept` and
`open` take the lowest free number; a handler stores the number it gets from `open` in `datafd`,
and every call on the data file, its own or that of the timestamp thread, goes through `datafd`
as it is then.

An event is one system call of one thread.  `Env` is what the kernel and the client decide about
it: whether it fails, and which bytes arrive.

* `Does`, `step_handler`: what a step of a handler can do;
* `step_accept`, `step_timestamp`: the same for the other threads.
-/

namespace Aesd

/-- What a descriptor refers to: the data file, opened by a handler, at a position; the socket of
a client; or something else. -/
inductive Obj (ι : Type*)
  | data (opener : ι) (pos : ℤ)
  | sock (client : ι)
  | other
  deriving DecidableEq

/-- The handler that opened an open file. -/
def Obj.opener {ι : Type*} : Obj ι → Option ι
  | .data j _ => some j
  | .sock _ | .other => none

/-- What is not decided by the program: whether the call fails, the bytes that arrive, and the
memory behind the receive buffer. -/
structure Env where
  fail : Bool
  bytes : List UInt8
  beyond : List UInt8

/-- A call that goes well and brings nothing. -/
def Env.quiet : Env := ⟨false, [], []⟩

/-- A line of `timestamp_handler`: `strftime` puts one newline at its end, and leaves room for
the terminating zero in `timestamp[100]`. -/
structure TimestampLine where
  bytes : List UInt8
  isLine : ∃ l, bytes = l ++ [newline] ∧ newline ∉ l
  length_lt : bytes.length < 100

/-- The data file, the descriptor table, `datafd`, and for each client its `client_sockfd`, once
accepted, and its handler. -/
structure Process (σ ι : Type*) where
  store : σ
  fds : SlotTable (Obj ι)
  datafd : ℤ
  sock : ι → Option ℕ
  handler : ι → Handler

/-- `main` accepts a client, a handler makes its next system call, or the timestamp thread writes
a line. -/
inductive ServerEvent (ι : Type*)
  | accept (i : ι)
  | handler (i : ι) (env : Env)
  | timestamp (line : TimestampLine)

/-- The handler that makes the step, if one does. -/
def ServerEvent.thread {ι : Type*} : ServerEvent ι → Option ι
  | .handler i _ => some i
  | .accept _ | .timestamp _ => none

namespace Process

variable {σ ι : Type*}

/-- The server before the first connection: `datafd` is zero, and the table holds what was there
at the start.  The socket on which the process listens is in use then, and so is the one that the
first `syslog` opens. -/
def start (store : σ) (inUse : List Bool) : Process σ ι :=
  ⟨store, ⟨inUse.map fun b => if b then some .other else none⟩, 0, fun _ => none,
    fun _ => .start⟩

/-- What `datafd` refers to. -/
def target (s : Process σ ι) : Option (Obj ι) :=
  if 0 ≤ s.datafd then s.fds.get s.datafd.toNat else none

/-- A call on something that is not the data file: a `write` goes there, a `read` returns what
comes from there. -/
def foreign (env : Env) : FileCall → Ret
  | .write data => ⟨data.length, []⟩
  | .ioctl _ | .lseek => ⟨-1, []⟩
  | .read count => ⟨(env.bytes.take count).length, env.bytes.take count⟩

/-- A call through `datafd`. -/
def fileCall (D : Driver σ) (s : Process σ ι) (env : Env) (fc : FileCall) : Process σ ι × Ret :=
  if env.fail then (s, ⟨-1, []⟩)
  else
    match s.target with
    -- the data file, whichever handler has opened it
    | some (.data j pos) =>
      let r := D.serve s.store pos fc
      ({ s with store := r.1, fds := s.fds.put s.datafd.toNat (.data j r.2.1) }, r.2.2)
    | some _ => (s, foreign env fc)
    | none => (s, ⟨-1, []⟩)

/-- The result of a system call of a handler. -/
def result (D : Driver σ) (s : Process σ ι) (env : Env) : SysCall → Ret
  | .open => if env.fail then ⟨-1, []⟩ else ⟨s.fds.firstFree, []⟩
  | .malloc => ⟨if env.fail then 0 else 1, []⟩
  | .recv =>
    let data := env.bytes.take bufferSize
    if env.fail then ⟨-1, []⟩ else ⟨data.length, data⟩
  | .file fc => (s.fileCall D env fc).2
  | .send data => ⟨data.length, []⟩
  | .close | .closeSock => ⟨0, []⟩

/-- What a system call of handler `i`, whose socket is `fd`, does to the process. -/
def effect (D : Driver σ) (s : Process σ ι) (i : ι) (fd : ℕ) (env : Env) : SysCall → Process σ ι
  | .open =>
    if env.fail then { s with datafd := -1 }
    else { s with fds := s.fds.add (.data i 0), datafd := s.fds.firstFree }
  | .malloc | .recv | .send _ => s
  | .file fc => (s.fileCall D env fc).1
  -- `datafd` keeps its value
  | .close => { s with fds := if 0 ≤ s.datafd then s.fds.remove s.datafd.toNat else s.fds }
  | .closeSock => { s with fds := s.fds.remove fd }

variable [DecidableEq ι]

/-- Handler `i` makes a system call and goes on with its result. -/
def sysCall (D : Driver σ) (s : Process σ ι) (i : ι) (fd : ℕ) (env : Env) (call : SysCall) :
    Process σ ι :=
  { s.effect D i fd env call with
    handler := Function.update s.handler i
      ((s.handler i).resume D.charDevice (s.result D env call) env.beyond) }

/-- One step; the timestamp thread is part of the file build. -/
def step (D : Driver σ) (s : Process σ ι) : ServerEvent ι → Option (Process σ ι)
  | .accept i => match s.sock i with
    | some _ => none
    | none => some { s with
        fds := s.fds.add (.sock i)
        sock := Function.update s.sock i (some s.fds.firstFree) }
  | .handler i env => match s.sock i, (s.handler i).call with
    | some fd, some call => some (s.sysCall D i fd env call)
    | _, _ => none
  | .timestamp line =>
    if D.charDevice then none else some (s.fileCall D .quiet (.write line.bytes)).1

end Process

/-- Between its `open` and its `close`; in `cleanup` a handler no longer is. -/
def Pc.holdsFile : Pc → Bool
  | .malloc | .recv | .write | .ioctl _ | .lseek | .read | .send _ | .close => true
  | .open | .closeSock | .done | .cleanup | .exit => false

/-- A call in the loop leaves the handler there, unless the handler gives up. -/
theorem Handler.resume_holdsFile {h : Handler} (hpc : h.pc.holdsFile = true) (hne : h.pc ≠ .close)
    (c : Bool) (r : Ret) (b : List UInt8) :
    (h.resume c r b).pc.holdsFile = true ∨ (h.resume c r b).pc = .cleanup := by
  have hafter : (h.afterStore c).pc.holdsFile = true := by
    unfold Handler.afterStore
    split_ifs <;> rfl
  obtain ⟨pc, buffer, n⟩ := h
  cases pc with
  | malloc => unfold Handler.resume; dsimp only; split_ifs <;> simp [Handler.clear, Pc.holdsFile]
  | recv =>
    simp only [Handler.resume, Handler.received]
    split_ifs
    · cases Handler.request c (buffer.store r.data) b <;> simp [Pc.holdsFile]
    · simp [Pc.holdsFile]
  | write => simp only [Handler.resume]; split_ifs <;> simp [hafter]
  | ioctl s => simp only [Handler.resume]; split_ifs <;> simp [hafter]
  | lseek => exact Or.inl rfl
  | read => unfold Handler.resume; dsimp only; split_ifs <;> simp [Handler.clear, Pc.holdsFile]
  | send m => exact Or.inl rfl
  | close => exact absurd rfl hne
  | _ => simp [Pc.holdsFile] at hpc

namespace Process

variable {σ ι : Type*}

/-! ### What a step does -/

/-- What the step of handler `i` from `s` to `t` does to the descriptors. -/
inductive Does (s t : Process σ ι) (i : ι) (fd : ℕ) : Prop
  | opens (hpc : (s.handler i).pc = .open) (ht : (t.handler i).pc = .malloc)
      (hfds : t.fds = s.fds.add (.data i 0)) (hfd : t.datafd = s.fds.firstFree)
  | failsToOpen (hpc : (s.handler i).pc = .open) (ht : (t.handler i).pc = .exit)
      (hfds : t.fds = s.fds) (hfd : t.datafd = -1)
  | works (hpc : (s.handler i).pc.holdsFile = true) (hne : (s.handler i).pc ≠ .close)
      (ht : (t.handler i).pc.holdsFile = true ∨ (t.handler i).pc = .cleanup)
      (hfds : t.fds = s.fds ∨ ∃ j pos pos', s.target = some (.data j pos) ∧
        t.fds = s.fds.put s.datafd.toNat (.data j pos'))
      (hfd : t.datafd = s.datafd)
  | closes (hpc : (s.handler i).pc = .close) (ht : (t.handler i).pc = .closeSock)
      (hfds : t.fds = if 0 ≤ s.datafd then s.fds.remove s.datafd.toNat else s.fds)
      (hfd : t.datafd = s.datafd)
  | closesSock (hpc : (s.handler i).pc = .closeSock) (ht : (t.handler i).pc = .done)
      (hfds : t.fds = s.fds.remove fd) (hfd : t.datafd = s.datafd)

section Step

variable {D : Driver σ} {s t : Process σ ι} {i j : ι} {fd : ℕ} {env : Env}

theorem target_eq_some {o : Obj ι} :
    s.target = some o ↔ 0 ≤ s.datafd ∧ s.fds.get s.datafd.toNat = some o := by
  unfold target
  split_ifs with h <;> simp [h]

/-- A call through `datafd` changes at most the position of the open file it finds. -/
theorem fileCall_spec (env : Env) (fc : FileCall) :
    let r := s.fileCall D env fc
    r.1.datafd = s.datafd ∧ r.1.sock = s.sock ∧ r.1.handler = s.handler ∧
      (r.1.fds = s.fds ∨ ∃ j pos pos', s.target = some (.data j pos) ∧
        r.1.fds = s.fds.put s.datafd.toNat (.data j pos')) := by
  unfold fileCall
  split_ifs
  · exact ⟨rfl, rfl, rfl, Or.inl rfl⟩
  · cases ht : s.target with
    | none => exact ⟨rfl, rfl, rfl, Or.inl rfl⟩
    | some o =>
      cases o with
      | data j pos => exact ⟨rfl, rfl, rfl, Or.inr ⟨j, pos, _, rfl, rfl⟩⟩
      | sock k => exact ⟨rfl, rfl, rfl, Or.inl rfl⟩
      | other => exact ⟨rfl, rfl, rfl, Or.inl rfl⟩

theorem effect_sock (D : Driver σ) (s : Process σ ι) (i : ι) (fd : ℕ) (env : Env) (call : SysCall) :
    (s.effect D i fd env call).sock = s.sock := by
  cases call with
  | «open» => simp only [effect]; split_ifs <;> rfl
  | file fc => exact (s.fileCall_spec env fc).2.1
  | _ => rfl

section Resume

variable [DecidableEq ι]

/-- The handler goes on with the result. -/
theorem step_resume (h : s.step D (.handler i env) = some t) :
    ∃ call, (s.handler i).call = some call ∧
      t.handler i = (s.handler i).resume D.charDevice (s.result D env call) env.beyond := by
  unfold step at h
  cases hsock : s.sock i with
  | none => simp [hsock] at h
  | some fd =>
    cases hcall : (s.handler i).call with
    | none => simp [hsock, hcall] at h
    | some call =>
      simp only [hsock, hcall, Option.some.injEq] at h
      subst h
      exact ⟨call, rfl, Function.update_self ..⟩

/-- **The step of a handler.** -/
theorem step_handler (h : s.step D (.handler i env) = some t) :
    ∃ fd, s.sock i = some fd ∧ t.sock = s.sock ∧ (∀ j, j ≠ i → t.handler j = s.handler j) ∧
      Does s t i fd := by
  unfold step at h
  cases hsock : s.sock i with
  | none => simp [hsock] at h
  | some fd =>
    cases hcall : (s.handler i).call with
    | none => simp [hsock, hcall] at h
    | some call =>
      simp only [hsock, hcall, Option.some.injEq] at h
      subst h
      have hself : (s.sysCall D i fd env call).handler i =
          (s.handler i).resume D.charDevice (s.result D env call) env.beyond :=
        Function.update_self ..
      refine ⟨fd, rfl, s.effect_sock D i fd env call, fun j hj => Function.update_of_ne hj .., ?_⟩
      have hstay : (s.handler i).pc.holdsFile = true → (s.handler i).pc ≠ .close →
          ((s.sysCall D i fd env call).handler i).pc.holdsFile = true ∨
            ((s.sysCall D i fd env call).handler i).pc = .cleanup := by
        intro hpc hne
        rw [hself]
        exact Handler.resume_holdsFile hpc hne _ _ _
      cases hpc : (s.handler i).pc <;> simp only [Handler.call, hpc, Option.some.injEq,
        reduceCtorEq] at hcall <;> subst hcall <;> rw [hpc] at hstay
      case «open» =>
        by_cases hf : env.fail = true
        · exact .failsToOpen hpc (by simp [hself, result, Handler.resume, hpc, hf])
            (by simp [sysCall, effect, hf]) (by simp [sysCall, effect, hf])
        · exact .opens hpc (by rw [hself]; simp [result, Handler.resume, hpc, hf])
            (by simp [sysCall, effect, hf]) (by simp [sysCall, effect, hf])
      case close => exact .closes hpc (by simp [hself, Handler.resume, hpc]) rfl rfl
      case closeSock => exact .closesSock hpc (by simp [hself, Handler.resume, hpc]) rfl rfl
      case malloc | recv | send =>
        exact .works (by rw [hpc]; rfl) (by simp [hpc]) (hstay rfl (by simp)) (Or.inl rfl) rfl
      all_goals
        obtain ⟨hfd, -, -, hfds⟩ := s.fileCall_spec (D := D) env _
        exact .works (by rw [hpc]; rfl) (by simp [hpc]) (hstay rfl (by simp)) hfds hfd

theorem step_accept (h : s.step D (.accept i) = some t) :
    s.sock i = none ∧ t.fds = s.fds.add (.sock i) ∧ t.datafd = s.datafd ∧
      t.sock = Function.update s.sock i (some s.fds.firstFree) ∧ t.handler = s.handler := by
  unfold step at h
  cases hsock : s.sock i with
  | some fd => simp [hsock] at h
  | none =>
    simp only [hsock, Option.some.injEq] at h
    subst h
    exact ⟨rfl, rfl, rfl, rfl, rfl⟩

theorem step_timestamp {line : TimestampLine} (h : s.step D (.timestamp line) = some t) :
    t.datafd = s.datafd ∧ t.sock = s.sock ∧ t.handler = s.handler ∧
      (t.fds = s.fds ∨ ∃ j pos pos', s.target = some (.data j pos) ∧
        t.fds = s.fds.put s.datafd.toNat (.data j pos')) := by
  unfold step at h
  split_ifs at h
  rw [Option.some.injEq] at h
  subst h
  exact fileCall_spec _ _

end Resume

end Step

end Process

end Aesd
