import Aesd.Lib.OpenFiles
import Aesd.Lib.Run

/-!
# Running other programs (`examples/systemcalls/systemcalls.c`)

A program prints through `stdout`, which is buffered, and runs commands with `do_system`, `do_exec`
and `do_exec_redirect`.  Of a program that is run only its writes to the descriptors that it
was started with count, and how it ends.  The caller waits for it, so nothing happens meanwhile.  A
`waitpid` fails once the child is gone, as it does where `SIGCHLD` is ignored, and the status that
is looked at next was never set.  What a write of `stdout` does not get out is dropped from the
buffer, as the C library does.

* `call`: the three functions, with the failures of the calls that they make;
* `get_redirected`: where the descriptors of a redirected command lead;
* `call_eq_true_iff`, `run_alive`, `run_fds`: the results, whether the caller goes on, and its
  descriptors, in any run;
* `step_ordered`, `run_ordered`: what the file that is the standard output has got;
* `run_commands`: what this comes to.
-/

namespace Aesd

/-- A string without its terminating zero. -/
abbrev CString := List UInt8

/-- How a process ends; `sig` fits into the low bits of the status and is none that stops. -/
inductive Ending
  | exited (code : ℤ)
  | signaled (sig : ℕ) (hsig : 0 < sig ∧ sig < 127) (core : Bool)

/-- The status that `waitpid` sets. -/
def waitStatus : Ending → ℕ
  | .exited code => (code % 256).toNat <<< 8
  | .signaled sig _ core => sig ||| (if core then 128 else 0)

/-- `WIFEXITED`. -/
def wifexited (status : ℕ) : Bool := status &&& 0x7f = 0

/-- `WEXITSTATUS`. -/
def wexitstatus (status : ℕ) : ℕ := (status &&& 0xff00) >>> 8

/-- What a program writes to its descriptors, and how it ends. -/
structure Program where
  output : List (ℕ × List UInt8)
  ending : Ending

/-- How the calls go that a function makes: what `execv` would start, which calls fail, the text
for their error, whether there is a shell, what `status` holds before it is set, and, if the write
of `fflush` or the one of `perror` fails, how much of it gets out. -/
structure SystemCalls where
  execv : CString → List CString → Option Program
  openOk : Bool
  forkOk : Bool
  dup2Ok : Bool
  waitOk : Bool
  errorText : CString
  shell : Bool
  status : ℕ
  flushed : Option ℕ
  reported : Option ℕ

/-- What a function comes to: it returns, or it aborts the caller. -/
inductive Outcome
  | returns (b : Bool)
  | aborts
  deriving DecidableEq

/-- The program that makes the calls: the files, its descriptors, what `stdout` has not written yet,
and whether it goes on. -/
structure Caller where
  files : Files CString
  fds : SlotTable ℕ
  stdoutBuffer : List UInt8
  alive : Bool

/-- Something that the caller does: it prints, the first `n` bytes of the buffer are written, of
which only `written` get out if there is an error, or a command is run. -/
inductive CallerEvent
  | printf (text : List UInt8)
  | flushes (n : ℕ) (written : Option ℕ)
  | doSystem (c : SystemCalls) (cmd : Option CString)
  | doExec (c : SystemCalls) (command : List CString)
  | doExecRedirect (c : SystemCalls) (outputfile : CString) (command : List CString)

/-- A text of the source. -/
def cstring (s : String) : CString := s.toList.map fun c => .ofNat c.toNat

namespace SystemCalls

/-- `perror` writes to descriptor 2. -/
def perror (c : SystemCalls) (s : String) : ℕ × List UInt8 :=
  let text := cstring s ++ cstring ": " ++ c.errorText ++ cstring "\n"
  (2, text.take (c.reported.getD text.length))

/-- `execv(command[0], command)`; without arguments `command[0]` is `NULL`. -/
def exec (c : SystemCalls) : List CString → Option Program
  | [] => none
  | path :: args => c.execv path (path :: args)

/-- A child from `execv` on; if it comes back, `exit` writes what the child has of the `stdout` of
its parent. -/
def child (c : SystemCalls) (buffer : List UInt8) (command : List CString) : Program :=
  match c.exec command with
  | some program => program
  | none => ⟨[c.perror "execv", (1, buffer)], .exited (-1)⟩

/-- The parent waits, and returns whether the child has exited with 0, as `status` has it. -/
def wait (c : SystemCalls) (ending : Ending) : Outcome :=
  let status := if c.waitOk then waitStatus ending else c.status
  if wifexited status then .returns (wexitstatus status = 0) else .returns false

/-- What `sh -c cmd` is; without a shell the child exits with 127. -/
def sh (c : SystemCalls) (cmd : CString) : Program :=
  match c.execv (cstring "/bin/sh") [cstring "sh", cstring "-c", cmd] with
  | some program => program
  | none => ⟨[], .exited 127⟩

end SystemCalls

namespace Caller

/-- What is written is done to the files. -/
def writes (s : Caller) (fds : SlotTable ℕ) (acts : List (ℕ × List UInt8)) : Caller :=
  { s with files := s.files.writes fds acts }

/-- The first `n` bytes of the buffer are written, of which only `written` get out if there is an
error; the others are dropped. -/
def flush (s : Caller) (n : ℕ) (written : Option ℕ) : Caller :=
  { s.writes s.fds [(1, (s.stdoutBuffer.take n).take (written.getD n))] with
    stdoutBuffer := s.stdoutBuffer.drop n }

/-- `fflush(stdout)`. -/
def fflush (s : Caller) (c : SystemCalls) : Caller := s.flush s.stdoutBuffer.length c.flushed

/-- `system`, and what it returns. -/
def system (s : Caller) (c : SystemCalls) : Option CString → Caller × ℤ
  | none => (s, if c.shell then 1 else 0)
  | some cmd =>
    if c.forkOk then
      let program := c.sh cmd
      (s.writes s.fds program.output, if c.waitOk then waitStatus program.ending else -1)
    else (s, -1)

/-- `do_system`. -/
def doSystem (s : Caller) (c : SystemCalls) (cmd : Option CString) : Caller × Outcome :=
  let (s, retCode) := s.system c cmd
  (s, .returns (retCode = 0))

/-- `do_exec`. -/
def doExec (s : Caller) (c : SystemCalls) (command : List CString) : Caller × Outcome :=
  let s := s.fflush c
  if c.forkOk then
    let child := c.child s.stdoutBuffer command
    (s.writes s.fds child.output, c.wait child.ending)
  else (s.writes s.fds [c.perror "fork"], .returns false)

/-- The descriptors of a child in which `dup2(fd, 1)` went well, behind `close(fd)`. -/
def redirected (fds : SlotTable ℕ) (fd : ℕ) : SlotTable ℕ :=
  (if fd = 1 then fds else fds.copy fd 1).remove fd

/-- `do_exec_redirect`; the descriptor stays open if `fork` fails. -/
def doExecRedirect (s : Caller) (c : SystemCalls) (outputfile : CString)
    (command : List CString) : Caller × Outcome :=
  if c.openOk then
    let fd := s.fds.firstFree
    let s := { s with
      files := s.files.openTrunc outputfile
      fds := s.fds.add s.files.opened.length }
    let s := s.fflush c
    if c.forkOk then
      let closed := s.fds.remove fd
      if c.dup2Ok then
        let child := c.child s.stdoutBuffer command
        ({ s.writes (redirected s.fds fd) child.output with fds := closed }, c.wait child.ending)
      else
        ({ s.writes s.fds [c.perror "dup2"] with fds := closed },
          c.wait (.signaled 6 (by decide) false))
    else (s.writes s.fds [c.perror "fork"], .returns false)
  else (s.writes s.fds [c.perror "open"], .aborts)

/-- What the caller does, and what comes of it. -/
def call (s : Caller) : CallerEvent → Caller × Outcome
  | .printf text => ({ s with stdoutBuffer := s.stdoutBuffer ++ text }, .returns true)
  | .flushes n written => (s.flush n written, .returns true)
  | .doSystem c cmd => s.doSystem c cmd
  | .doExec c command => s.doExec c command
  | .doExecRedirect c outputfile command => s.doExecRedirect c outputfile command

/-- One step; the caller goes on if a function has returned. -/
def step (s : Caller) (e : CallerEvent) : Option Caller :=
  if s.alive then
    let (t, outcome) := s.call e
    match outcome with
    | .returns _ => some t
    | .aborts => some { t with alive := false }
  else none

end Caller

/-! ### What the functions return -/

/-- A process exits with 0, or with what is 0 in the status. -/
def Ending.Zero (e : Ending) : Prop := ∃ code, e = .exited code ∧ code % 256 = 0

theorem wifexited_exited (n : ℕ) : wifexited (n <<< 8) = true := by
  have hmask : n <<< 8 &&& 0x7f = n <<< 8 % 2 ^ 7 := Nat.and_two_pow_sub_one_eq_mod _ 7
  unfold wifexited
  rw [hmask, Nat.shiftLeft_eq, decide_eq_true_eq]
  omega

theorem wexitstatus_exited {n : ℕ} (h : n < 256) : wexitstatus (n <<< 8) = n := by
  have hmask : n &&& 0xff00 >>> 8 = n % 2 ^ 8 := Nat.and_two_pow_sub_one_eq_mod _ 8
  unfold wexitstatus
  rw [Nat.shiftRight_and_distrib, Nat.shiftLeft_shiftRight, hmask,
    Nat.mod_eq_of_lt (show n < 2 ^ 8 from h)]

theorem wifexited_signaled {sig : ℕ} (hsig : 0 < sig ∧ sig < 127) (core : Bool) :
    wifexited (sig ||| (if core then 128 else 0)) = false := by
  have hmask : (sig ||| (if core then 128 else 0)) &&& 0x7f =
      (sig ||| (if core then 128 else 0)) % 2 ^ 7 := Nat.and_two_pow_sub_one_eq_mod _ 7
  have hzero : (if core then 128 else 0) % 2 ^ 7 = 0 := by cases core <;> rfl
  unfold wifexited
  rw [hmask, Nat.or_mod_two_pow, hzero, Nat.or_zero, decide_eq_false_iff_not]
  omega

/-- The status says that a process has exited with 0. -/
def StatusZero (status : ℕ) : Prop := wifexited status = true ∧ wexitstatus status = 0

theorem waitStatus_zero_iff {e : Ending} : StatusZero (waitStatus e) ↔ e.Zero := by
  unfold StatusZero Ending.Zero
  cases e with
  | exited code =>
    have hlt : (code % 256).toNat < 256 := by omega
    simp only [waitStatus, wifexited_exited, wexitstatus_exited hlt, true_and,
      Ending.exited.injEq, exists_eq_left']
    omega
  | signaled sig hsig core =>
    simp [waitStatus, wifexited_signaled hsig core]

/-- A child that has ended so lets its parent return true: it has exited with 0, or the status that
nobody has set says so. -/
def SystemCalls.Reports (c : SystemCalls) (e : Ending) : Prop :=
  (c.waitOk = true ∧ e.Zero) ∨ (c.waitOk = false ∧ StatusZero c.status)

theorem wait_eq_true_iff {c : SystemCalls} {e : Ending} :
    c.wait e = .returns true ↔ c.Reports e := by
  have hstatus : c.wait e = .returns true ↔
      StatusZero (if c.waitOk then waitStatus e else c.status) := by
    unfold SystemCalls.wait StatusZero
    dsimp only
    split_ifs <;> simp_all
  rw [hstatus]
  unfold SystemCalls.Reports
  cases c.waitOk with
  | false => simp
  | true => simp [waitStatus_zero_iff]

/-- `system` returns the whole status. -/
theorem waitStatus_eq_zero_iff {e : Ending} : waitStatus e = 0 ↔ e.Zero := by
  unfold Ending.Zero
  cases e with
  | exited code =>
    simp only [waitStatus, Nat.shiftLeft_eq, Ending.exited.injEq, exists_eq_left']
    omega
  | signaled sig hsig core =>
    have hpos : sig ≠ 0 := by omega
    simp [waitStatus, Nat.or_eq_zero_iff, hpos]

/-- The command is found, runs, and exits with 0; or there is a child, and what it does is never
learned, but the status that nobody has set says so. -/
def SystemCalls.Runs (c : SystemCalls) (command : List CString) : Prop :=
  c.forkOk = true ∧
    ((c.waitOk = true ∧ ∃ program, c.exec command = some program ∧ program.ending.Zero) ∨
      (c.waitOk = false ∧ StatusZero c.status))

/-- When the result is true; of `do_system` without a command, when there is no shell. -/
def CallerEvent.Succeeds : CallerEvent → Prop
  | .printf _ | .flushes .. => True
  | .doSystem c none => c.shell = false
  | .doSystem c (some cmd) => c.forkOk = true ∧ c.waitOk = true ∧ (c.sh cmd).ending.Zero
  | .doExec c command => c.Runs command
  | .doExecRedirect c _ command =>
    c.openOk = true ∧ (c.dup2Ok = true ∨ c.waitOk = false) ∧ c.Runs command

/-- The function does not come back: the output file cannot be opened. -/
def CallerEvent.Aborts : CallerEvent → Prop
  | .doExecRedirect c _ _ => c.openOk = false
  | .printf _ | .flushes .. | .doSystem .. | .doExec .. => False

theorem child_zero_iff {c : SystemCalls} {buffer : List UInt8} {command : List CString} :
    (c.child buffer command).ending.Zero ↔
      ∃ program, c.exec command = some program ∧ program.ending.Zero := by
  unfold SystemCalls.child
  cases h : c.exec command with
  | none => simp [Ending.Zero]
  | some program => simp

theorem reports_child_iff {c : SystemCalls} {buffer : List UInt8} {command : List CString} :
    c.Reports (c.child buffer command).ending ↔
      (c.waitOk = true ∧ ∃ program, c.exec command = some program ∧ program.ending.Zero) ∨
        (c.waitOk = false ∧ StatusZero c.status) := by
  unfold SystemCalls.Reports
  rw [child_zero_iff]

/-- **When the result is true.** -/
theorem call_eq_true_iff (s : Caller) (e : CallerEvent) :
    (s.call e).2 = .returns true ↔ e.Succeeds := by
  cases e with
  | printf text | flushes n written => simp [Caller.call, CallerEvent.Succeeds]
  | doSystem c cmd =>
    cases cmd with
    | none =>
      cases hshell : c.shell <;>
        simp [Caller.call, Caller.doSystem, Caller.system, CallerEvent.Succeeds, hshell]
    | some cmd =>
      simp only [Caller.call, Caller.doSystem, Caller.system, CallerEvent.Succeeds]
      rw [← waitStatus_eq_zero_iff]
      cases c.forkOk <;> cases c.waitOk <;> simp
  | doExec c command =>
    simp only [Caller.call, Caller.doExec, CallerEvent.Succeeds, SystemCalls.Runs]
    cases c.forkOk with
    | false => simp
    | true => simp only [if_true, wait_eq_true_iff, reports_child_iff, true_and]
  | doExecRedirect c outputfile command =>
    simp only [Caller.call, Caller.doExecRedirect, CallerEvent.Succeeds, SystemCalls.Runs]
    cases c.openOk with
    | false => simp
    | true =>
      cases c.forkOk with
      | false => simp
      | true =>
        cases c.dup2Ok with
        | false =>
          -- the child aborts, and the parent learns it if `waitpid` goes well
          simp only [if_true, Bool.false_eq_true, if_false, wait_eq_true_iff, SystemCalls.Reports,
            Ending.Zero]
          cases c.waitOk <;> simp
        | true => simp only [if_true, wait_eq_true_iff, reports_child_iff, true_and, true_or]

/-- **When the caller is aborted.** -/
theorem call_eq_aborts_iff (s : Caller) (e : CallerEvent) :
    (s.call e).2 = .aborts ↔ e.Aborts := by
  have hwait : ∀ (c : SystemCalls) (e : Ending), c.wait e ≠ .aborts := by
    intro c e
    unfold SystemCalls.wait
    dsimp only
    split_ifs <;> simp
  cases e with
  | printf text | flushes n written => simp [Caller.call, CallerEvent.Aborts]
  | doSystem c cmd => simp [Caller.call, Caller.doSystem, CallerEvent.Aborts]
  | doExec c command =>
    simp only [Caller.call, Caller.doExec, CallerEvent.Aborts]
    cases c.forkOk <;> simp [hwait]
  | doExecRedirect c outputfile command =>
    simp only [Caller.call, Caller.doExecRedirect, CallerEvent.Aborts]
    cases c.openOk <;> cases c.forkOk <;> cases c.dup2Ok <;> simp [hwait]

/-! ### What the files get -/

/-- What is written to the standard output. -/
def toStdout (acts : List (ℕ × List UInt8)) : List UInt8 :=
  acts.flatMap fun a => if a.1 = 1 then a.2 else []

/-- What is not. -/
def notToStdout (acts : List (ℕ × List UInt8)) : List (ℕ × List UInt8) := acts.filter (·.1 ≠ 1)

namespace Caller

/-- What a step adds to what has been printed or written to description `d`, the standard output of
the caller. -/
def shown (s : Caller) (d : ℕ) : CallerEvent → List UInt8
  | .printf text => text
  | .flushes .. | .doSystem _ none => []
  | .doSystem c (some cmd) => if c.forkOk then Files.received s.fds d (c.sh cmd).output else []
  | .doExec c command =>
    Files.received s.fds d
      (if c.forkOk then (c.child [] command).output else [c.perror "fork"])
  | .doExecRedirect c _ command =>
    Files.received s.fds d
      (if c.forkOk then
        if c.dup2Ok then notToStdout (c.child [] command).output
        else [c.perror "dup2"]
      else [c.perror "fork"])

/-- Description `d` is the standard output of the caller and stands at the end of file `p`, which no
other one is open for; and the descriptors lead to descriptions that there are. -/
structure Ordered (d : ℕ) (p : CString) (s : Caller) : Prop where
  stdout : s.fds.get 1 = some d
  atEnd : s.files.AtEnd d p
  alone : s.files.Alone s.fds d p
  valid : ∀ n e, s.fds.get n = some e → e < s.files.opened.length

section Ordered

variable {s t : Caller} {d : ℕ} {p : CString} {fds : SlotTable ℕ}

/-- What has been printed and what has been written. -/
def transcript (s : Caller) (p : CString) : List UInt8 := s.files.content p ++ s.stdoutBuffer

/-- From `s` to `t`, `text` is added to what has been printed and written; some of it may be lost
unless `kept`. -/
structure Adds (d : ℕ) (p : CString) (s : Caller) (text : List UInt8) (kept : Prop)
    (t : Caller) : Prop where
  ordered : Ordered d p t
  sublist : (t.transcript p).Sublist (s.transcript p ++ text)
  transcript_eq : kept → t.transcript p = s.transcript p ++ text

theorem Adds.of_eq {text : List UInt8} (ho : Ordered d p t)
    (h : t.transcript p = s.transcript p ++ text) (kept : Prop) : Adds d p s text kept t :=
  ⟨ho, h ▸ List.Sublist.refl _, fun _ => h⟩

theorem Ordered.writes (h : Ordered d p s) (halone : s.files.Alone fds d p)
    (acts : List (ℕ × List UInt8)) :
    Ordered d p (s.writes fds acts) ∧ (s.writes fds acts).files.content p =
      s.files.content p ++ Files.received fds d acts := by
  obtain ⟨hcontent, hend⟩ := halone.writes_content h.atEnd acts
  refine ⟨⟨h.stdout, hend, h.alone.writes fds acts, fun n e hn => ?_⟩, hcontent⟩
  change e < (s.files.writes fds acts).opened.length
  rw [Files.length_writes]
  exact h.valid n e hn

theorem Adds.mono {text : List UInt8} {kept kept' : Prop} (h : Adds d p s text kept t)
    (hkept : kept' → kept) : Adds d p s text kept' t :=
  ⟨h.ordered, h.sublist, fun hk => h.transcript_eq (hkept hk)⟩

theorem Adds.trans {u : Caller} {text text' : List UInt8} {kept kept' : Prop}
    (h : Adds d p s text kept t) (h' : Adds d p t text' kept' u) :
    Adds d p s (text ++ text') (kept ∧ kept') u := by
  refine ⟨h'.ordered, ?_, fun hkept => ?_⟩
  · rw [← List.append_assoc]
    exact h'.sublist.trans (h.sublist.append_right _)
  · rw [h'.transcript_eq hkept.2, h.transcript_eq hkept.1, List.append_assoc]

/-- What is written while nothing is left in the buffer. -/
theorem Adds.writes {text : List UInt8} {kept : Prop} (h : Adds d p s text kept t)
    (hbuffer : t.stdoutBuffer = []) (halone : t.files.Alone fds d p)
    (acts : List (ℕ × List UInt8)) :
    Adds d p s (text ++ Files.received fds d acts) kept (t.writes fds acts) := by
  obtain ⟨ho, hcontent⟩ := h.ordered.writes halone acts
  have htext : (t.writes fds acts).transcript p =
      t.transcript p ++ Files.received fds d acts := by
    unfold transcript
    change (t.writes fds acts).files.content p ++ t.stdoutBuffer = _
    rw [hcontent, hbuffer, List.append_nil, List.append_nil]
  refine ⟨ho, ?_, fun hkept => ?_⟩
  · rw [htext, ← List.append_assoc]
    exact h.sublist.append_right _
  · rw [htext, h.transcript_eq hkept, List.append_assoc]

/-- What does not get out is dropped. -/
theorem Ordered.flush (h : Ordered d p s) (n : ℕ) (written : Option ℕ) :
    Adds d p s [] (written = none) (s.flush n written) := by
  obtain ⟨ho, hcontent⟩ :=
    h.writes h.alone [(1, (s.stdoutBuffer.take n).take (written.getD n))]
  have htext : (s.flush n written).transcript p = s.files.content p ++
      ((s.stdoutBuffer.take n).take (written.getD n) ++ s.stdoutBuffer.drop n) := by
    unfold transcript
    change (s.writes s.fds _).files.content p ++ s.stdoutBuffer.drop n = _
    rw [hcontent]
    simp [Files.received, h.stdout]
  refine ⟨⟨ho.stdout, ho.atEnd, ho.alone, ho.valid⟩, ?_, ?_⟩
  · rw [htext, List.append_nil]
    refine List.Sublist.append_left ?_ _
    conv_rhs => rw [← List.take_append_drop n s.stdoutBuffer]
    exact (List.take_sublist ..).append_right _
  · rintro rfl
    rw [htext, List.append_nil, Option.getD_none, List.take_take, Nat.min_self,
      List.take_append_drop]
    rfl

theorem Ordered.fflush (h : Ordered d p s) (c : SystemCalls) :
    Adds d p s [] (c.flushed = none) (s.fflush c) :=
  h.flush s.stdoutBuffer.length c.flushed

theorem fflush_stdoutBuffer (s : Caller) (c : SystemCalls) : (s.fflush c).stdoutBuffer = [] :=
  List.drop_length

/-- Another file is opened. -/
theorem Ordered.opens (h : Ordered d p s) {q : CString} (hq : q ≠ p) :
    Ordered d p { s with
      files := s.files.openTrunc q
      fds := s.fds.add s.files.opened.length } := by
  have hold : ∀ n e, n ≠ s.fds.firstFree → (s.fds.add s.files.opened.length).get n = some e →
      s.fds.get n = some e := by
    intro n e hne hn
    rwa [SlotTable.get_add_of_ne _ hne] at hn
  refine ⟨SlotTable.get_add_of_some _ h.stdout, h.atEnd.openTrunc hq, fun n e hn he => ?_,
    fun n e hn => ?_⟩
  · by_cases hne : n = s.fds.firstFree
    · subst hne
      change (s.fds.add s.files.opened.length).get _ = _ at hn
      rw [SlotTable.get_add_self, Option.some.injEq] at hn
      subst hn
      rw [Files.pathOf_openTrunc_self, Option.some.injEq] at he
      exact absurd he hq
    · have hlt := h.valid n e (hold n e hne hn)
      rw [Files.pathOf_openTrunc hlt] at he
      exact h.alone n e (hold n e hne hn) he
  · change e < (s.files.opened ++ [_]).length
    rw [List.length_append]
    by_cases hne : n = s.fds.firstFree
    · subst hne
      change (s.fds.add s.files.opened.length).get _ = _ at hn
      rw [SlotTable.get_add_self, Option.some.injEq] at hn
      subst hn
      exact Nat.lt_succ_self _
    · exact Nat.lt_succ_of_lt (h.valid n e (hold n e hne hn))

/-- **Where the descriptors of a redirected command lead**: the standard output to the new
description, and the others where they led before. -/
theorem get_redirected {fds : SlotTable ℕ} {e d : ℕ} (hout : fds.get 1 = some d) (n : ℕ) :
    (redirected (fds.add e) fds.firstFree).get n = if n = 1 then some e else fds.get n := by
  have hfd : fds.firstFree ≠ 1 := by
    intro h
    have hfree := fds.get_firstFree
    rw [h, hout] at hfree
    exact Option.some_ne_none _ hfree
  unfold redirected
  rw [if_neg hfd]
  by_cases hn : n = fds.firstFree
  · subst hn
    rw [SlotTable.get_remove_self, if_neg hfd, fds.get_firstFree]
  · rw [SlotTable.get_remove_of_ne hn]
    by_cases hone : n = 1
    · subst hone
      rw [SlotTable.get_copy_self, SlotTable.get_add_self, if_pos rfl]
    · rw [SlotTable.get_copy_of_ne _ hone, SlotTable.get_add_of_ne _ hn, if_neg hone]

/-- The descriptors of the caller after `close(fd)`. -/
theorem get_closed (fds : SlotTable ℕ) (e n : ℕ) :
    ((fds.add e).remove fds.firstFree).get n = fds.get n := by
  by_cases hn : n = fds.firstFree
  · subst hn
    rw [SlotTable.get_remove_self, fds.get_firstFree]
  · rw [SlotTable.get_remove_of_ne hn, SlotTable.get_add_of_ne _ hn]

/-- What goes to `d` depends on the descriptors that lead to it. -/
theorem received_congr {fds fds' : SlotTable ℕ} {acts : List (ℕ × List UInt8)}
    (h : ∀ a ∈ acts, fds.get a.1 = some d ↔ fds'.get a.1 = some d) :
    Files.received fds d acts = Files.received fds' d acts := by
  unfold Files.received
  refine List.flatMap_congr fun a ha => ?_
  simp only [h a ha]

/-- The standard output of a redirected command does not go where that of the caller goes. -/
theorem received_redirected {fds : SlotTable ℕ} {e : ℕ} (hout : fds.get 1 = some d) (hne : e ≠ d)
    (acts : List (ℕ × List UInt8)) :
    Files.received (redirected (fds.add e) fds.firstFree) d acts =
      Files.received fds d (notToStdout acts) := by
  unfold Files.received notToStdout
  induction acts with
  | nil => rfl
  | cons a acts ih =>
    rw [List.flatMap_cons, ih, get_redirected hout]
    by_cases hone : a.1 = 1
    · rw [List.filter_cons_of_neg (by simpa using hone), if_pos hone, if_neg (by simpa using hne)]
      rfl
    · rw [List.filter_cons_of_pos (by simpa using hone), List.flatMap_cons, if_neg hone]

/-- A new descriptor leads elsewhere. -/
theorem received_add {fds : SlotTable ℕ} {e : ℕ} (hne : e ≠ d) (acts : List (ℕ × List UInt8)) :
    Files.received (fds.add e) d acts = Files.received fds d acts := by
  refine received_congr fun a _ => ?_
  by_cases ha : a.1 = fds.firstFree
  · rw [ha, SlotTable.get_add_self, SlotTable.get_firstFree]
    simpa using hne
  · rw [SlotTable.get_add_of_ne _ ha]

theorem Ordered.lt (h : Ordered d p s) : s.files.opened.length ≠ d :=
  (h.valid 1 d h.stdout).ne'

/-- `do_exec`. -/
theorem doExec_ordered (h : Ordered d p s) (c : SystemCalls) (command : List CString) :
    Adds d p s (s.shown d (.doExec c command)) (c.flushed = none) (s.doExec c command).1 := by
  have hflush := h.fflush c
  have hbuffer := s.fflush_stdoutBuffer c
  cases hfork : c.forkOk with
  | true =>
    simp only [doExec, shown, hfork, if_true, hbuffer]
    exact hflush.writes hbuffer hflush.ordered.alone (c.child [] command).output
  | false =>
    simp only [doExec, shown, hfork, Bool.false_eq_true, if_false]
    exact hflush.writes hbuffer hflush.ordered.alone [c.perror "fork"]

/-- The caller of `do_exec_redirect` when it calls `fork`. -/
def opensFor (s : Caller) (c : SystemCalls) (outputfile : CString) : Caller :=
  ({ s with
    files := s.files.openTrunc outputfile
    fds := s.fds.add s.files.opened.length } : Caller).fflush c

theorem Ordered.opensFor (h : Ordered d p s) (c : SystemCalls) {outputfile : CString}
    (hp : outputfile ≠ p) : Adds d p s [] (c.flushed = none) (s.opensFor c outputfile) := by
  have hopened : Caller.transcript { s with
      files := s.files.openTrunc outputfile
      fds := s.fds.add s.files.opened.length } p = s.transcript p := by
    unfold transcript
    change Function.update s.files.content outputfile [] p ++ _ = _
    rw [Function.update_of_ne (Ne.symm hp)]
  obtain ⟨ho, hsub, heq⟩ := (h.opens hp).fflush c
  rw [hopened] at hsub heq
  exact ⟨ho, hsub, heq⟩

/-- The descriptors of a redirected command lead to no other description of the standard output. -/
theorem Ordered.alone_redirected (h : Ordered d p s) (c : SystemCalls) {outputfile : CString}
    (hp : outputfile ≠ p) :
    (s.opensFor c outputfile).files.Alone
      (redirected (s.opensFor c outputfile).fds s.fds.firstFree) d p := by
  have ho := (h.opensFor c hp).ordered
  intro n e hn he
  change (redirected (s.fds.add s.files.opened.length) s.fds.firstFree).get n = some e at hn
  rw [get_redirected h.stdout] at hn
  by_cases hone : n = 1
  · rw [if_pos hone, Option.some.injEq] at hn
    subst hn
    change (Files.writes _ _ _).pathOf _ = _ at he
    rw [Files.pathOf_writes, Files.pathOf_openTrunc_self, Option.some.injEq] at he
    exact absurd he hp
  · rw [if_neg hone] at hn
    exact ho.alone n e (SlotTable.get_add_of_some _ hn) he

/-- The parent closes the descriptor. -/
theorem Adds.closes {text : List UInt8} {kept : Prop} {e : ℕ} (h : Adds d p s text kept t)
    (hout : s.fds.get 1 = some d) (hfds : t.fds = s.fds.add e) :
    Adds d p s text kept { t with fds := (s.fds.add e).remove s.fds.firstFree } := by
  have hget : ∀ n e', ((s.fds.add e).remove s.fds.firstFree).get n = some e' →
      t.fds.get n = some e' := by
    intro n e' hn
    rw [get_closed] at hn
    rw [hfds]
    exact SlotTable.get_add_of_some _ hn
  have ho := h.ordered
  exact ⟨⟨(get_closed ..).trans hout, ho.atEnd, fun n e hn => ho.alone n e (hget n e hn),
    fun n e hn => ho.valid n e (hget n e hn)⟩, h.sublist, h.transcript_eq⟩

/-- `do_exec_redirect`, if the file can be opened. -/
theorem doExecRedirect_ordered (h : Ordered d p s) (c : SystemCalls) {outputfile : CString}
    (command : List CString) (hopen : c.openOk = true) (hp : outputfile ≠ p) :
    Adds d p s (s.shown d (.doExecRedirect c outputfile command)) (c.flushed = none)
      (s.doExecRedirect c outputfile command).1 := by
  have ho := h.opensFor c hp
  have hbuffer : (s.opensFor c outputfile).stdoutBuffer = [] := fflush_stdoutBuffer _ c
  cases hfork : c.forkOk with
  | true =>
    cases hdup : c.dup2Ok with
    | true =>
      have hw := ho.writes hbuffer (h.alone_redirected c hp) (c.child [] command).output
      change Adds d p s ([] ++ Files.received
        (redirected (s.fds.add s.files.opened.length) s.fds.firstFree) d _) _ _ at hw
      rw [received_redirected h.stdout h.lt] at hw
      simp only [doExecRedirect, shown, hopen, hfork, hdup, if_true, fflush_stdoutBuffer]
      exact hw.closes h.stdout rfl
    | false =>
      have hw := ho.writes hbuffer ho.ordered.alone [c.perror "dup2"]
      change Adds d p s ([] ++ Files.received (s.fds.add s.files.opened.length) d _) _ _ at hw
      rw [received_add h.lt] at hw
      simp only [doExecRedirect, shown, hopen, hfork, hdup, if_true, Bool.false_eq_true, if_false]
      exact hw.closes h.stdout rfl
  | false =>
    have hw := ho.writes hbuffer ho.ordered.alone [c.perror "fork"]
    change Adds d p s ([] ++ Files.received (s.fds.add s.files.opened.length) d _) _ _ at hw
    rw [received_add h.lt] at hw
    simp only [doExecRedirect, shown, hopen, hfork, if_true, Bool.false_eq_true, if_false]
    exact hw

/-- **The output file** of a redirected command gets what the command writes to its standard output,
and nothing of what the caller has printed, if the command does not reach the file otherwise. -/
theorem doExecRedirect_content (h : Ordered d p s) {c : SystemCalls} {outputfile : CString}
    {command : List CString} (hopen : c.openOk = true) (hfork : c.forkOk = true)
    (hdup : c.dup2Ok = true) (hp : outputfile ≠ p)
    (hother : ∀ a ∈ (c.child [] command).output, a.1 ≠ 1 → ∀ e, s.fds.get a.1 = some e →
      s.files.pathOf e ≠ some outputfile) :
    (s.doExecRedirect c outputfile command).1.files.content outputfile =
      toStdout (c.child [] command).output := by
  have hlt := h.valid 1 d h.stdout
  have hfd : (s.fds.add s.files.opened.length).get 1 = some d :=
    SlotTable.get_add_of_some _ h.stdout
  -- `fflush` writes to the standard output of the caller
  have hflush : (s.opensFor c outputfile).files.content outputfile = [] ∧
      (s.opensFor c outputfile).files.AtEnd s.files.opened.length outputfile := by
    have hacts : ∀ a ∈ [(1, (s.stdoutBuffer.take s.stdoutBuffer.length).take
        (c.flushed.getD s.stdoutBuffer.length))], ∀ e,
        (s.fds.add s.files.opened.length).get a.1 = some e →
        (s.files.openTrunc outputfile).pathOf e = some outputfile → e = s.files.opened.length := by
      intro a ha e he hpath
      rw [List.mem_singleton] at ha
      subst ha
      rw [hfd, Option.some.injEq] at he
      subst he
      rw [Files.pathOf_openTrunc hlt] at hpath
      have hd : s.files.pathOf d = some p := h.atEnd.pathOf
      rw [hd, Option.some.injEq] at hpath
      exact absurd hpath.symm hp
    obtain ⟨hcontent, hend⟩ := Files.writes_content hacts (s.files.openTrunc_atEnd outputfile)
    refine ⟨hcontent.trans ?_, hend⟩
    have hnone : Files.received (s.fds.add s.files.opened.length) s.files.opened.length
        [(1, (s.stdoutBuffer.take s.stdoutBuffer.length).take
          (c.flushed.getD s.stdoutBuffer.length))] = [] := by
      simp [Files.received, hfd, h.lt.symm]
    rw [hnone, List.append_nil]
    exact Function.update_self ..
  have hacts : ∀ a ∈ (c.child [] command).output, ∀ e,
      (redirected (s.fds.add s.files.opened.length) s.fds.firstFree).get a.1 = some e →
      (s.opensFor c outputfile).files.pathOf e = some outputfile → e = s.files.opened.length := by
    intro a ha e he hpath
    rw [get_redirected h.stdout] at he
    by_cases hone : a.1 = 1
    · rw [if_pos hone, Option.some.injEq] at he
      exact he.symm
    · rw [if_neg hone] at he
      change (Files.writes _ _ _).pathOf _ = _ at hpath
      rw [Files.pathOf_writes, Files.pathOf_openTrunc (h.valid _ e he)] at hpath
      exact absurd hpath (hother a ha hone e he)
  obtain ⟨hcontent, -⟩ := Files.writes_content hacts hflush.2
  simp only [doExecRedirect, hopen, hfork, hdup, if_true, fflush_stdoutBuffer]
  refine hcontent.trans ?_
  rw [hflush.1, List.nil_append]
  unfold Files.received toStdout
  refine List.flatMap_congr fun a _ => ?_
  rw [get_redirected h.stdout]
  by_cases hone : a.1 = 1
  · rw [if_pos hone, if_pos rfl, if_pos hone]
  · have hold : s.fds.get a.1 ≠ some s.files.opened.length := fun he =>
      absurd (h.valid _ _ he) (Nat.lt_irrefl _)
    rw [if_neg hone, if_neg hold, if_neg hone]

end Ordered

end Caller

/-! ### Runs -/

namespace CallerEvent

/-- The standard output, file `p`, is not opened again, and `system` is called with nothing left in
the buffer. -/
def Admits (s : Caller) (p : CString) : CallerEvent → Prop
  | doSystem _ (some _) => s.stdoutBuffer = []
  | doExecRedirect _ outputfile _ => outputfile ≠ p
  | printf _ | flushes .. | doSystem _ none | doExec .. => True

/-- No write of `stdout` fails. -/
def Kept : CallerEvent → Prop
  | flushes _ written => written = none
  | doExec c _ | doExecRedirect c _ _ => c.flushed = none
  | printf _ | doSystem .. => True

/-- `do_exec_redirect` comes back without a child. -/
def leaks : CallerEvent → Bool
  | doExecRedirect c _ _ => c.openOk && !c.forkOk
  | printf _ | flushes .. | doSystem .. | doExec .. => false

end CallerEvent

namespace Caller

section Run

variable {s t : Caller} {e : CallerEvent} {es : List CallerEvent} {d : ℕ} {p : CString}

/-- The caller goes on unless it is aborted. -/
theorem step_alive (h : s.step e = some t) :
    s.alive = true ∧ t.fds = (s.call e).1.fds ∧ (t.alive = true ↔ ¬ e.Aborts) ∧
      (¬ e.Aborts → t = (s.call e).1) := by
  unfold step at h
  split_ifs at h with hs
  rw [← call_eq_aborts_iff s e]
  have hkeeps : (s.call e).1.alive = s.alive := by
    cases e with
    | printf text | flushes n written => rfl
    | doSystem c cmd =>
      cases cmd with
      | none => rfl
      | some cmd =>
        simp only [call, doSystem, system]
        split_ifs <;> rfl
    | doExec c command =>
      simp only [call, doExec]
      split_ifs <;> rfl
    | doExecRedirect c outputfile command =>
      simp only [call, doExecRedirect]
      split_ifs <;> rfl
  cases hout : (s.call e).2 with
  | returns b =>
    simp only [hout, Option.some.injEq] at h
    subst h
    simp [hs, hkeeps]
  | aborts =>
    simp only [hout, Option.some.injEq] at h
    subst h
    simp [hs]

/-- **What one step adds.** -/
theorem step_ordered (h : Ordered d p s) (hadm : e.Admits s p) (hstep : s.step e = some t)
    (habort : ¬ e.Aborts) : Adds d p s (s.shown d e) e.Kept t := by
  obtain ⟨-, -, -, hcall⟩ := step_alive hstep
  rw [hcall habort]
  cases e with
  | printf text =>
    have ho : Ordered d p (s.call (.printf text)).1 := ⟨h.stdout, h.atEnd, h.alone, h.valid⟩
    exact .of_eq ho (List.append_assoc ..).symm _
  | flushes n written => exact h.flush n written
  | doSystem c cmd =>
    cases cmd with
    | none => exact .of_eq h (List.append_nil _).symm _
    | some cmd =>
      have hsame : Adds d p s [] True s := .of_eq h (List.append_nil _).symm _
      cases hfork : c.forkOk with
      | false =>
        simp only [call, doSystem, system, shown, hfork, Bool.false_eq_true, if_false]
        exact hsame
      | true =>
        simp only [call, doSystem, system, shown, hfork, if_true]
        exact hsame.writes hadm h.alone (c.sh cmd).output
  | doExec c command => exact doExec_ordered h c command
  | doExecRedirect c outputfile command =>
    have hopen : c.openOk = true := by simpa [CallerEvent.Aborts] using habort
    exact doExecRedirect_ordered h c command hopen hadm

/-- What one step does to the descriptors. -/
theorem step_fds (hstep : s.step e = some t) :
    (∀ n d, s.fds.get n = some d → t.fds.get n = some d) ∧
      t.fds.used = s.fds.used + if e.leaks then 1 else 0 := by
  obtain ⟨-, hfds, -⟩ := step_alive hstep
  rw [hfds]
  cases e with
  | printf text | flushes n written => exact ⟨fun _ _ h => h, rfl⟩
  | doSystem c cmd =>
    cases cmd with
    | none => exact ⟨fun _ _ h => h, rfl⟩
    | some cmd =>
      simp only [call, doSystem, system, CallerEvent.leaks, Bool.false_eq_true, if_false]
      split_ifs <;> exact ⟨fun _ _ h => h, rfl⟩
  | doExec c command =>
    simp only [call, doExec, CallerEvent.leaks, Bool.false_eq_true, if_false]
    split_ifs <;> exact ⟨fun _ _ h => h, rfl⟩
  | doExecRedirect c outputfile command =>
    have hclosed : (∀ n d, s.fds.get n = some d →
        ((s.fds.add s.files.opened.length).remove s.fds.firstFree).get n = some d) ∧
        ((s.fds.add s.files.opened.length).remove s.fds.firstFree).used = s.fds.used := by
      refine ⟨fun n d hn => (get_closed ..).trans hn, ?_⟩
      rw [SlotTable.used_remove (SlotTable.get_add_self ..), SlotTable.used_add]
      rfl
    cases hopen : c.openOk with
    | false =>
      simp only [call, doExecRedirect, CallerEvent.leaks, hopen, Bool.false_and,
        Bool.false_eq_true, if_false]
      exact ⟨fun _ _ h => h, rfl⟩
    | true =>
      cases hfork : c.forkOk with
      | true =>
        simp only [call, doExecRedirect, CallerEvent.leaks, hopen, hfork, if_true, Bool.not_true,
          Bool.and_false, Bool.false_eq_true, if_false]
        split_ifs <;> exact hclosed
      | false =>
        simp only [call, doExecRedirect, CallerEvent.leaks, hopen, hfork, if_true, Bool.not_false,
          Bool.and_true, Bool.false_eq_true, if_false]
        exact ⟨fun n d hn => SlotTable.get_add_of_some _ hn, SlotTable.used_add ..⟩

/-- **The descriptors** in a run. -/
theorem run_fds (h : Exec.run step s es = some t) :
    (∀ n e, s.fds.get n = some e → t.fds.get n = some e) ∧
      t.fds.used = s.fds.used + es.countP CallerEvent.leaks := by
  refine Exec.run_induction (I := fun es t => (∀ n e, s.fds.get n = some e →
    t.fds.get n = some e) ∧ t.fds.used = s.fds.used + es.countP CallerEvent.leaks)
    ⟨fun _ _ hn => hn, rfl⟩ ?_ h
  intro es u e v hrun ih hstep
  obtain ⟨hkept, hused⟩ := ih
  obtain ⟨hkept', hused'⟩ := step_fds hstep
  refine ⟨fun n d hn => hkept' n d (hkept n d hn), ?_⟩
  rw [hused', hused, List.countP_append, List.countP_singleton, Nat.add_assoc]

/-- The caller goes on until it is aborted. -/
theorem run_alive (h : Exec.run step s es = some t) :
    t.alive = true ↔ s.alive = true ∧ ∀ e ∈ es, ¬ e.Aborts := by
  refine Exec.run_induction (I := fun es t =>
    (t.alive = true ↔ s.alive = true ∧ ∀ e ∈ es, ¬ e.Aborts)) (by simp) ?_ h
  intro es u e v hrun ih hstep
  obtain ⟨hu, -, hv, -⟩ := step_alive hstep
  rw [hv, List.forall_mem_append, ← and_assoc, ← ih]
  simp [hu]

/-- **A run**: what the standard output gets. -/
theorem run_ordered (h₀ : Ordered d p s) (h : Exec.run step s es = some t) :
    t.alive = true → (∀ x ∈ Exec.trace step s es, x.event.Admits x.before p) →
      Adds d p s ((Exec.trace step s es).flatMap fun x => x.before.shown d x.event)
        (∀ e ∈ es, e.Kept) t := by
  refine Exec.run_induction (I := fun es t => t.alive = true →
    (∀ x ∈ Exec.trace step s es, x.event.Admits x.before p) →
      Adds d p s ((Exec.trace step s es).flatMap fun x => x.before.shown d x.event)
        (∀ e ∈ es, e.Kept) t)
    (fun _ _ => .of_eq h₀ (List.append_nil _).symm _) ?_ h
  intro es u e v hrun ih hstep halive hadm
  rw [Exec.trace_concat hrun hstep] at hadm ⊢
  obtain ⟨hu, -, hv, -⟩ := step_alive hstep
  have hbefore := ih hu fun x hx => hadm x (List.mem_append_left _ hx)
  have hlast : e.Admits u p := hadm ⟨u, e, v⟩ (List.mem_append_right _ List.mem_cons_self)
  rw [List.flatMap_append, List.flatMap_singleton]
  have hafter := step_ordered hbefore.ordered hlast hstep (hv.1 halive)
  refine (hbefore.trans hafter).mono fun hkept => ?_
  rw [List.forall_mem_append, List.forall_mem_singleton] at hkept
  exact hkept

end Run

/-- **Commands run in order.**  In every run: the result of each function is true exactly if the
command has been run and waited for and has exited with 0, where a status that nobody has set stands
for one that `waitpid` does not learn; the caller is aborted exactly if an output file cannot be
opened; all descriptors stay open, and one more is left for each redirection without a child.

If the standard output is a file at its end that nothing else is open for, and `system` is called
only when nothing is left in the buffer of `stdout`: what the program has printed and what its
commands have written to its standard output is in the file, or still in the buffer, once and in the
order of the run, but for what a failing write of `stdout` has dropped.  A command that is
redirected writes its standard output to the output file, which holds nothing else. -/
theorem run_commands {es : List CallerEvent} {s t : Caller} (h : Exec.run step s es = some t) :
    (∀ x ∈ Exec.trace step s es,
      ((x.before.call x.event).2 = .returns true ↔ x.event.Succeeds) ∧
      ((x.before.call x.event).2 = .aborts ↔ x.event.Aborts)) ∧
    (t.alive = true ↔ s.alive = true ∧ ∀ e ∈ es, ¬ e.Aborts) ∧
    (∀ n e, s.fds.get n = some e → t.fds.get n = some e) ∧
    t.fds.used = s.fds.used + es.countP CallerEvent.leaks ∧
    ∀ d p, Ordered d p s → (∀ x ∈ Exec.trace step s es, x.event.Admits x.before p) →
      (t.alive = true →
        let text := (Exec.trace step s es).flatMap fun x => x.before.shown d x.event
        (t.transcript p).Sublist (s.transcript p ++ text) ∧
          ((∀ e ∈ es, e.Kept) → t.transcript p = s.transcript p ++ text)) ∧
      ∀ x ∈ Exec.trace step s es, ∀ c outputfile command,
        x.event = .doExecRedirect c outputfile command →
        c.openOk = true → c.forkOk = true → c.dup2Ok = true →
        (∀ a ∈ (c.child [] command).output, a.1 ≠ 1 → ∀ e, x.before.fds.get a.1 = some e →
          x.before.files.pathOf e ≠ some outputfile) →
        x.after.files.content outputfile = toStdout (c.child [] command).output := by
  obtain ⟨hkept, hused⟩ := run_fds h
  refine ⟨fun x _ => ⟨call_eq_true_iff x.before x.event, call_eq_aborts_iff x.before x.event⟩,
    run_alive h, hkept, hused, fun d p h₀ hadm => ⟨fun halive => ?_, ?_⟩⟩
  · obtain ⟨-, hsub, heq⟩ := run_ordered h₀ h halive hadm
    exact ⟨hsub, heq⟩
  intro x hx c outputfile command hevent hopen hfork hdup hother
  have hadmx := hadm x hx
  obtain ⟨es₁, es₂, rfl, hrun, hstep⟩ := Exec.exists_of_mem_trace hx
  obtain ⟨hbefore, -, -, hafter⟩ := step_alive hstep
  have ho := (run_ordered h₀ hrun hbefore fun y hy =>
    hadm y ((Exec.trace_prefix s es₁ (x.event :: es₂)).subset hy)).ordered
  rw [hevent] at hafter hadmx
  rw [hafter (by simp [CallerEvent.Aborts, hopen])]
  exact doExecRedirect_content ho hopen hfork hdup hadmx hother

/-- `a` is printed, `x` is written to file `f` by a command, and the command that follows is not
found; its `waitpid` fails. -/
theorem run_commands_redirect :
    let f : CString := [102]
    let c : Bool → SystemCalls := fun waitOk =>
      ⟨fun _ args => if args.length = 1 then some ⟨[(1, [120])], .exited 0⟩ else none,
        true, true, true, waitOk, [], true, 0, none, none⟩
    let s : Caller := ⟨⟨fun _ => [], [⟨[0], 0⟩, ⟨[1], 0⟩, ⟨[2], 0⟩]⟩,
      ⟨[some 0, some 1, some 2]⟩, [], true⟩
    let es : List CallerEvent :=
      [.printf [97], .doExecRedirect (c true) f [[99]], .doExec (c false) [[99], [99]]]
    ∃ t, Exec.run step s es = some t ∧ t.alive = true ∧ t.transcript [1] = [97] ∧
      t.fds.used = 3 ∧ ∃ x ∈ Exec.trace step s es, x.after.files.content f = [120] := by
  intro f c s es
  have hget : ∀ n e, s.fds.get n = some e → n = e ∧ e < 3 := by
    intro n e hn
    have hlt := SlotTable.lt_length_of_get hn
    rcases n with _ | _ | _ | n
    · exact ⟨Option.some.inj hn, Option.some.inj hn ▸ by decide⟩
    · exact ⟨Option.some.inj hn, Option.some.inj hn ▸ by decide⟩
    · exact ⟨Option.some.inj hn, Option.some.inj hn ▸ by decide⟩
    · change n + 3 < 3 at hlt
      omega
  have h₀ : Ordered 1 [1] s := by
    refine ⟨rfl, rfl, fun n e hn he => ?_, fun n e hn => (hget n e hn).2⟩
    obtain ⟨-, hlt⟩ := hget n e hn
    interval_cases e <;> simp [s, Files.pathOf] at he ⊢
  have hrun : (Exec.run step s es).isSome = true := by decide +kernel +zetaReduce
  obtain ⟨t, ht⟩ := Option.isSome_iff_exists.1 hrun
  have hadm : ∀ x ∈ Exec.trace step s es, x.event.Admits x.before [1] := by
    intro x hx
    obtain ⟨es₁, es₂, hes, -⟩ := Exec.exists_of_mem_trace hx
    have hmem : x.event ∈ es := by rw [hes]; simp
    simp only [es, List.mem_cons, List.not_mem_nil, or_false] at hmem
    rcases hmem with he | he | he <;> rw [he] <;> simp [CallerEvent.Admits, f]
  obtain ⟨-, hgoes, -, hused, hfiles⟩ := run_commands ht
  obtain ⟨htext, hfile⟩ := hfiles 1 [1] h₀ hadm
  have halive : t.alive = true := hgoes.2 ⟨rfl, by simp [es, c, CallerEvent.Aborts]⟩
  have hshown : s.transcript [1] ++
      (Exec.trace step s es).flatMap (fun x => x.before.shown 1 x.event) = [97] := by
    decide +kernel +zetaReduce
  refine ⟨t, ht, halive, ((htext halive).2 ?_).trans hshown, hused.trans rfl, ?_⟩
  · simp [es, c, CallerEvent.Kept]
  obtain ⟨x, hx, hevent⟩ := Exec.exists_trans_of_mem ht
    (show CallerEvent.doExecRedirect (c true) f [[99]] ∈ es by simp [es])
  refine ⟨x, hx, (hfile x hx _ f [[99]] hevent rfl rfl rfl fun a ha hne => ?_).trans rfl⟩
  exact absurd (List.mem_singleton.1 ha ▸ rfl) hne

end Caller

end Aesd
