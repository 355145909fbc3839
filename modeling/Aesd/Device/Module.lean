import Aesd.Device.Ownership
import Aesd.Lib.Run

/-!
# The module in the kernel

`aesd_init_module` and `aesd_cleanup_module` with what they register, `aesd_open` and
`aesd_release`, and the calls in between.  The kernel decides how the registrations of a load come
out, and it lets the module go only while none of its files is open (`.owner = THIS_MODULE`).

The memory of the module is new at each load, and so is the heap of its device: `past` keeps the
heaps of the earlier loads as they were left.

* `step_inv`: what is registered and what the device stands for, after one event;
* `leftover_unload`: what one unloading leaves behind;
* `life_cycle`: every run, and all that has ever been left behind.
-/

namespace Aesd

/-- `dev_t`: the major and the minor number. -/
abbrev DevT := ℕ × ℕ

/-- `aesd_minor`. -/
def aesdMinor : ℕ := 0

/-- The module, with what the kernel knows of it: the device numbers registered as `aesdchar`, the
one that `aesd_device.cdev` serves, and the open files, whose `private_data` is `aesd_device`. -/
structure ModuleState where
  loaded : Bool
  aesdMajor : ℕ
  regions : List DevT
  cdev : Option DevT
  session : Session
  opened : List ℕ
  past : List Heap

/-- What happens to the module.  `result` is what `alloc_chrdev_region` returns, `major` the number
it finds unless it fails, `err` the result of `cdev_add`. -/
inductive ModuleEvent
  | insmod (result : ℤ) (major : ℕ) (err : ℤ)
  | opens (f : ℕ)
  | release (f : ℕ)
  | call (c : Invocation)
  | rmmod

namespace ModuleState

/-- Before the first load. -/
def boot : ModuleState := ⟨false, 0, [], none, .start, [], []⟩

/-- `aesd_setup_cdev`. -/
def aesdSetupCdev (m : ModuleState) (err : ℤ) : ModuleState × ℤ :=
  if err = 0 then ({ m with cdev := some (m.aesdMajor, aesdMinor) }, err) else (m, err)

/-- `aesd_init_module`: the new state and the return value. -/
def initModule (m : ModuleState) (result : ℤ) (major : ℕ) (err : ℤ) : ModuleState × ℤ :=
  -- `alloc_chrdev_region` leaves `dev` at zero if it fails
  if result < 0 then ({ m with aesdMajor := 0 }, result)
  else
    let dev : DevT := (major, aesdMinor)
    let r := aesdSetupCdev
      { m with
        aesdMajor := major
        regions := dev :: m.regions
        session := { m.session with dev := aesdInitModule } } err
    if r.2 ≠ 0 then ({ r.1 with regions := r.1.regions.erase dev }, r.2) else r

/-- `aesd_cleanup_module`. -/
def cleanupModule (m : ModuleState) : ModuleState :=
  let devno : DevT := (m.aesdMajor, aesdMinor)
  { m with
    cdev := none
    session := { m.session with dev := aesdCleanupModule m.session.dev }
    regions := m.regions.erase devno }

/-- `aesd_open`: the VFS has put the new file at position zero. -/
def aesdOpen (m : ModuleState) (f : ℕ) : ModuleState :=
  { m with
    session := { m.session with fPos := Function.update m.session.fPos f 0 }
    opened := f :: m.opened }

/-- `aesd_release`. -/
def aesdRelease (m : ModuleState) (f : ℕ) : ModuleState :=
  { m with opened := m.opened.erase f }

/-- One event.  A module that does not come up is not loaded; the heap of a module that is unloaded
is left as it is. -/
def step (K : Kernel) (m : ModuleState) : ModuleEvent → Option ModuleState
  | .insmod result major err =>
    if m.loaded = false then
      let r := m.initModule result major err
      some { r.1 with loaded := r.2 == 0 }
    else none
  | .opens f => if m.cdev ≠ none ∧ f ∉ m.opened then some (m.aesdOpen f) else none
  | .release f => if f ∈ m.opened then some (m.aesdRelease f) else none
  | .call c =>
    if c.file ∈ m.opened then some { m with session := (m.session.call K c).1 } else none
  | .rmmod =>
    if m.loaded = true ∧ m.opened = [] then
      let t := m.cleanupModule
      some { t with loaded := false, past := t.session.dev.heap :: t.past }
    else none

/-- The bytes that the calls since the last load have copied from the users. -/
def takenSinceLoad (K : Kernel) (trace : List (Exec.Trans ModuleState ModuleEvent)) : List UInt8 :=
  trace.foldl (fun taken x => match x.event with
    | .insmod _ _ _ => []
    | .call c => taken ++ c.request.taken (x.before.session.call K c).2.retval
    | .opens _ | .release _ | .rmmod => taken) []

/-- The module is unloaded while the device has a cached entry. -/
def unloadsCached (x : Exec.Trans ModuleState ModuleEvent) : Bool :=
  match x.event with
  | .rmmod => x.before.session.dev.cachedEntry.buffptr.isSome
  | .insmod _ _ _ | .opens _ | .release _ | .call _ => false

/-! ### One event -/

/-- What holds after the steps `trace`. -/
structure Inv (K : Kernel) (trace : List (Exec.Trans ModuleState ModuleEvent)) (m : ModuleState) :
    Prop where
  registered : m.loaded = true →
    m.regions = [(m.aesdMajor, aesdMinor)] ∧ m.cdev = some (m.aesdMajor, aesdMinor)
  holds : m.loaded = true →
    ∃ a, Represents K m.session.dev a ∧ a.stream = takenSinceLoad K trace
  accounted : m.loaded = true → m.session.dev.heap.Accounted
  down : m.loaded = false → m.regions = [] ∧ m.cdev = none ∧ m.opened = []
  past : ∀ heap ∈ m.past, heap.Accounted ∧ heap.faults = []
  left : (m.past.map fun heap => heap.leftover.length).sum = trace.countP unloadsCached

theorem boot_inv (K : Kernel) : Inv K [] boot where
  registered := by simp [boot]
  holds := by simp [boot]
  accounted := by simp [boot]
  down := fun _ => ⟨rfl, rfl, rfl⟩
  past := by simp [boot]
  left := rfl

section Step

variable {K : Kernel} {trace : List (Exec.Trans ModuleState ModuleEvent)} {m m' : ModuleState}

theorem takenSinceLoad_concat (x : Exec.Trans ModuleState ModuleEvent) :
    takenSinceLoad K (trace ++ [x]) = match x.event with
      | .insmod _ _ _ => []
      | .call c => takenSinceLoad K trace ++ c.request.taken (x.before.session.call K c).2.retval
      | .opens _ | .release _ | .rmmod => takenSinceLoad K trace := by
  unfold takenSinceLoad
  rw [List.foldl_append]
  rfl

theorem countP_concat (x : Exec.Trans ModuleState ModuleEvent) :
    (trace ++ [x]).countP unloadsCached =
      trace.countP unloadsCached + if unloadsCached x then 1 else 0 := by
  rw [List.countP_append, List.countP_singleton]

/-- A load that fails has registered nothing in the end; one that succeeds starts afresh. -/
theorem Inv.insmod (h : Inv K trace m) (hdown : m.loaded = false) (result : ℤ) (major : ℕ)
    (err : ℤ) :
    let r := m.initModule result major err
    let m' : ModuleState := { r.1 with loaded := r.2 == 0 }
    Inv K (trace ++ [⟨m, .insmod result major err, m'⟩]) m' := by
  intro r m'
  obtain ⟨hregions, hcdev, hopened⟩ := h.down hdown
  have hleft : (m.past.map fun heap => heap.leftover.length).sum =
      List.countP unloadsCached (trace ++ [⟨m, .insmod result major err, m'⟩]) := by
    rw [countP_concat, h.left]
    rfl
  by_cases hres : result < 0
  · have hr : r = ({ m with aesdMajor := 0 }, result) := if_pos hres
    simp only [m', hr, beq_eq_false_iff_ne.2 hres.ne] at hleft ⊢
    exact ⟨by simp, by simp, by simp, fun _ => ⟨hregions, hcdev, hopened⟩, h.past, hleft⟩
  · by_cases herr : err = 0
    · have hr : r = ({ m with
          aesdMajor := major
          regions := [(major, aesdMinor)]
          cdev := some (major, aesdMinor)
          session := { m.session with dev := aesdInitModule } }, 0) := by
        simp [r, initModule, aesdSetupCdev, hres, herr, hregions]
      have htaken : takenSinceLoad K (trace ++ [⟨m, .insmod result major err, m'⟩]) = [] :=
        takenSinceLoad_concat _
      simp only [m', hr] at htaken hleft ⊢
      exact ⟨fun _ => ⟨rfl, rfl⟩, fun _ => ⟨_, init_represents K, htaken.symm⟩,
        fun _ => BlockLedger.accounted_empty, by simp, h.past, hleft⟩
    · have hr : r = ({ m with
          aesdMajor := major
          regions := []
          session := { m.session with dev := aesdInitModule } }, err) := by
        simp [r, initModule, aesdSetupCdev, hres, herr, hregions]
      simp only [m', hr, beq_eq_false_iff_ne.2 herr] at hleft ⊢
      exact ⟨by simp, by simp, by simp, fun _ => ⟨rfl, hcdev, hopened⟩, h.past, hleft⟩

/-- What an unloading leaves behind is the buffer of the cached entry. -/
theorem leftover_unload {d : Dev} {a : Log} (h : Represents K d a) (ha : d.heap.Accounted) :
    (aesdCleanupModule d).heap.Accounted ∧
      (aesdCleanupModule d).heap.leftover = d.cachedEntry.buffptr.toList := by
  have hacc : (aesdCleanupModule d).heap.Accounted := by
    rw [aesdCleanupModule_heap]
    exact ha.free_all _
  exact ⟨hacc, BlockLedger.leftover_eq hacc.fresh h.unload_live⟩

theorem Inv.rmmod (h : Inv K trace m) (hup : m.loaded = true) (hopened : m.opened = []) :
    let t := m.cleanupModule
    let m' : ModuleState := { t with loaded := false, past := t.session.dev.heap :: t.past }
    Inv K (trace ++ [⟨m, .rmmod, m'⟩]) m' := by
  intro t m'
  obtain ⟨a, hrep, -⟩ := h.holds hup
  obtain ⟨hacc, hleft⟩ := leftover_unload hrep (h.accounted hup)
  have hregions : m.regions.erase (m.aesdMajor, aesdMinor) = [] := by
    rw [(h.registered hup).1, List.erase_cons_head]
  have hpast : m'.past = (aesdCleanupModule m.session.dev).heap :: m.past := rfl
  have hcount : unloadsCached ⟨m, .rmmod, m'⟩ = m.session.dev.cachedEntry.buffptr.isSome := rfl
  refine ⟨by simp [m'], by simp [m'], by simp [m'], fun _ => ⟨hregions, rfl, hopened⟩, ?_, ?_⟩
  · rw [hpast]
    exact List.forall_mem_cons.2 ⟨⟨hacc, hrep.unload_faults⟩, h.past⟩
  · rw [hpast, List.map_cons, List.sum_cons, hleft, h.left, countP_concat, hcount]
    cases m.session.dev.cachedEntry.buffptr with
    | none => exact Nat.add_comm _ _
    | some p => exact Nat.add_comm _ _

/-- One event. -/
theorem step_inv {e : ModuleEvent} (h : Inv K trace m) (hs : step K m e = some m') :
    Inv K (trace ++ [⟨m, e, m'⟩]) m' := by
  cases e with
  | insmod result major err =>
    simp only [step] at hs
    split_ifs at hs with hdown
    obtain rfl := Option.some.inj hs
    exact h.insmod hdown result major err
  | opens f =>
    simp only [step] at hs
    split_ifs at hs with hok
    obtain rfl := Option.some.inj hs
    refine ⟨h.registered, fun hup => ?_, h.accounted, fun hdown => ?_, h.past, ?_⟩
    · rw [takenSinceLoad_concat]
      exact h.holds hup
    · exact absurd (h.down hdown).2.1 hok.1
    · rw [countP_concat]
      exact h.left
  | release f =>
    simp only [step] at hs
    split_ifs at hs with hok
    obtain rfl := Option.some.inj hs
    refine ⟨h.registered, fun hup => ?_, h.accounted, fun hdown => ?_, h.past, ?_⟩
    · rw [takenSinceLoad_concat]
      exact h.holds hup
    · rw [(h.down hdown).2.2] at hok
      simp at hok
    · rw [countP_concat]
      exact h.left
  | call c =>
    simp only [step] at hs
    split_ifs at hs with hok
    obtain rfl := Option.some.inj hs
    refine ⟨h.registered, fun hup => ?_, fun hup => ?_, h.down, h.past, ?_⟩
    · obtain ⟨a, hrep, hstream⟩ := h.holds hup
      refine ⟨_, serve_represents hrep c.lock (m.session.fPos c.file) c.request, ?_⟩
      rw [takenSinceLoad_concat, RecordLog.stream_accept, hstream]
      rfl
    · exact serve_accounted (h.accounted hup) c.lock (m.session.fPos c.file) c.request
    · rw [countP_concat]
      exact h.left
  | rmmod =>
    simp only [step] at hs
    split_ifs at hs with hok
    obtain rfl := Option.some.inj hs
    exact h.rmmod hok.1 hok.2

theorem run_inv {es : List ModuleEvent} (h : Exec.run (step K) boot es = some m) :
    Inv K (Exec.trace (step K) boot es) m :=
  Exec.run_induction (I := fun es m => Inv K (Exec.trace (step K) boot es) m) (boot_inv K)
    (fun es t e u hrun ht hs => by
      rw [Exec.trace_concat hrun hs]
      exact step_inv ht hs) h

end Step

/-- **The life of the module.**  In every run of loads with any outcome, opens, calls, releases and
unloads: a loaded module has registered exactly one device number, the one its `cdev` serves, its
device stands for the bytes copied since the load, and it owns its memory; a module that is not
loaded has nothing registered and no open file.  What the unloaded devices have left behind is one
buffer for each time the module was unloaded with a cached entry; everything else they ever
allocated has been freed once, and no memory was misused. -/
theorem life_cycle (K : Kernel) {es : List ModuleEvent} {m : ModuleState}
    (h : Exec.run (step K) boot es = some m) :
    let trace := Exec.trace (step K) boot es
    (m.loaded = true →
      m.regions = [(m.aesdMajor, aesdMinor)] ∧ m.cdev = some (m.aesdMajor, aesdMinor) ∧
      (∃ a, Represents K m.session.dev a ∧ a.stream = takenSinceLoad K trace) ∧
      m.session.dev.OwnsBlocks) ∧
    (m.loaded = false → m.regions = [] ∧ m.cdev = none ∧ m.opened = []) ∧
    (∀ heap ∈ m.past, heap.faults = [] ∧
      ∀ p < heap.next, p ∉ heap.leftover → heap.freed.count p = 1) ∧
    (m.past.map fun heap => heap.leftover.length).sum = trace.countP unloadsCached := by
  intro trace
  have hinv : Inv K trace m := run_inv h
  refine ⟨fun hup => ?_, hinv.down, fun heap hmem => ?_, hinv.left⟩
  · obtain ⟨hregions, hcdev⟩ := hinv.registered hup
    obtain ⟨a, hrep, hstream⟩ := hinv.holds hup
    exact ⟨hregions, hcdev, ⟨a, hrep, hstream⟩, hrep.ownsBlocks (hinv.accounted hup)⟩
  · obtain ⟨hacc, hfaults⟩ := hinv.past heap hmem
    refine ⟨hfaults, fun p hp hmem => hacc.dead p hp ?_⟩
    rwa [BlockLedger.mem_leftover hacc.fresh, not_not] at hmem

/-- Two loads, the first of them unloaded with a byte waiting for its newline: it is all that is
left behind. -/
theorem life_cycle_reloaded :
    let es : List ModuleEvent := [.insmod 0 240 0, .opens 3, .call ⟨3, true, .write (.served [97])⟩,
      .release 3, .rmmod, .insmod 0 240 (-ENOMEM), .insmod 0 241 0, .opens 3,
      .call ⟨3, true, .write (.served [98, newline])⟩, .release 3, .rmmod]
    ∃ m, Exec.run (step .x86) boot es = some m ∧
      (m.past.map fun heap => heap.leftover.length).sum = 1 ∧ m.regions = [] := by
  intro es
  obtain ⟨m, hm⟩ := Option.isSome_iff_exists.1
    (show (Exec.run (step .x86) boot es).isSome = true by decide +kernel)
  have hdown : ∀ m ∈ Exec.run (step .x86) boot es, m.loaded = false := by decide +kernel
  have hcount : (Exec.trace (step .x86) boot es).countP unloadsCached = 1 := by decide +kernel
  obtain ⟨-, hnone, -, hleft⟩ := life_cycle .x86 hm
  exact ⟨m, hm, hleft.trans hcount, (hnone (hdown m hm)).1⟩

end ModuleState

end Aesd
