import Aesd.Lib.Interleaving
import Aesd.Lib.Run
import Aesd.Server.Process
import Aesd.Server.Storage

/-!
# Concurrent clients

Any number of connections share one data file, each with an open file of its own, and their system
calls come in any order; in the file build the timestamp thread writes its lines in between.
`Clients.log` records the chunks stored, each with its source.

What the server keeps together is the result of one `recv`.  A packet that arrives in several
pieces stays in one piece only if nobody else writes while it is coming, that is, if the log is
`Orderly`.

* `run_kept`: the log is what the clients have sent and what the data file holds;
* `packets_unmixed`: the packets are not mixed exactly if the log is orderly.
-/

namespace Aesd

open Interleaving

/-- Who writes to the data file: the handler of a client, or the timestamp thread. -/
inductive Source (ι : Type*)
  | client (i : ι)
  | clock
  deriving DecidableEq, Fintype

/-- The data file, the connections, and the chunks stored so far. -/
structure Clients (σ ι : Type*) where
  store : σ
  conn : ι → Conn σ
  log : List (Source ι × List UInt8)

/-- A handler makes its next system call, or the timestamp thread writes a line. -/
inductive ClientsEvent (ι : Type*)
  | client (i : ι)
  | clock (line : TimestampLine)

/-- The line that is written. -/
def ClientsEvent.line {ι : Type*} : ClientsEvent ι → Option (List UInt8)
  | .client _ => none
  | .clock line => some line.bytes

theorem ClientsEvent.isRecord_line {ι : Type*} {es : List (ClientsEvent ι)} :
    ∀ l ∈ es.filterMap ClientsEvent.line, RecordLog.IsRecord newline l := by
  intro l hl
  obtain ⟨e, -, he⟩ := List.mem_filterMap.1 hl
  cases e with
  | client i => simp [line] at he
  | clock line =>
    obtain rfl : line.bytes = l := by simpa [ClientsEvent.line] using he
    exact line.isLine

/-- Nothing received waits to be stored, and the handler has not given up. -/
def Pc.hasStored : Pc → Bool
  | .open | .malloc | .recv | .lseek | .read | .send _ | .close | .closeSock | .done => true
  | .write | .ioctl _ | .cleanup | .exit => false

namespace Conn

variable {σ : Type*} {D : Driver σ} {c : Conn σ} {gs : List Segment}

theorem Progress.settled (h : c.Progress D gs) (hpc : c.handler.pc.hasStored = true) :
    c.Settled D gs := by
  unfold Progress at h
  cases hp : c.handler.pc <;> rw [hp] at h hpc <;> simp only [Pc.hasStored, reduceCtorEq] at hpc
  case «open» | malloc =>
    obtain ⟨rfl, hs⟩ := h
    exact hs
  case recv | close | closeSock | done => exact h.2
  case lseek | read | send => exact h

theorem settled_store {st : σ} : ({ c with store := st } : Conn σ).Settled D gs ↔ c.Settled D gs :=
  ⟨fun h => ⟨h.written, h.requests⟩, fun h => ⟨h.written, h.requests⟩⟩

/-- The progress of a connection does not depend on what others do to the data file. -/
theorem Progress.store (h : c.Progress D gs) (st : σ) :
    ({ c with store := st } : Conn σ).Progress D gs := by
  unfold Progress at h ⊢
  simp only [settled_store]
  exact h

/-- What is stored is a segment received. -/
theorem Progress.stored (h : c.Progress D gs) {b : List UInt8} (hb : b ∈ c.stored D) :
    ∃ g ∈ gs, b = g.bytes := by
  by_cases hpc : c.handler.pc = .write
  · unfold Progress at h
    rw [hpc] at h
    obtain ⟨hs, g, rfl, -, htake, -⟩ := h
    unfold Conn.stored at hb
    rw [hpc, htake] at hb
    simp only at hb
    split_ifs at hb
    · simp at hb
    · exact ⟨g, by simp, List.mem_singleton.1 hb⟩
  · rw [stored_of_ne hpc] at hb
    simp at hb

end Conn

namespace Clients

variable {σ ι : Type*}

/-- All clients are about to connect; `input` is what will arrive from each. -/
def start (store : σ) (input : ι → List Segment) : Clients σ ι :=
  ⟨store, fun i => .start store (input i), []⟩

/-- The connection of a client, with the data file as it is. -/
def view (s : Clients σ ι) (i : ι) : Conn σ := { s.conn i with store := s.store }

variable [DecidableEq ι]

/-- One step; the timestamp thread is part of the file build. -/
def step (D : Driver σ) (s : Clients σ ι) : ClientsEvent ι → Option (Clients σ ι)
  | .client i =>
    let c := (s.view i).step D
    some ⟨c.store, Function.update s.conn i c,
      s.log ++ ((s.view i).stored D).map (Prod.mk (.client i))⟩
  | .clock line =>
    if D.charDevice then none
    else
      let r := D.serve s.store 0 (.write line.bytes)
      some { s with
        store := r.1
        log := if r.2.2.retval = -1 then s.log else s.log ++ [(.clock, line.bytes)] }

/-- All that has arrived has been stored. -/
def Processed (s : Clients σ ι) : Prop :=
  ∀ i, (s.conn i).input = [] ∧ (s.conn i).handler.pc.hasStored = true

instance [Fintype ι] (s : Clients σ ι) : Decidable s.Processed :=
  inferInstanceAs (Decidable (∀ _, _ ∧ _))

/-- What the log has to do with the clients and with the data file. -/
structure Kept (D : Driver σ) (R : σ → List (List UInt8) → Prop) (input : ι → List Segment)
    (s : Clients σ ι) : Prop where
  progress : ∀ i, ∃ gs, gs ++ (s.conn i).input = input i ∧ (s.conn i).Progress D gs
  written : ∀ i, (s.conn i).handler.pc ≠ .cleanup →
    (ofSource (.client i) s.log).flatten = (s.conn i).written
  chunks : ∀ i, ∀ b ∈ ofSource (.client i) s.log, ∃ g ∈ input i, b = g.bytes
  store : R s.store (s.log.map Prod.snd)

section Kept

variable {D : Driver σ} {R : σ → List (List UInt8) → Prop} {input : ι → List Segment}
  {s t : Clients σ ι} {es : List (ClientsEvent ι)} {st : σ}

theorem start_kept (h : R st []) : (start st input).Kept D R input where
  progress i := ⟨[], rfl, rfl, rfl, rfl⟩
  written i _ := rfl
  chunks i b hb := by simp [start, ofSource] at hb
  store := h

/-- What the step of a handler can do. -/
theorem step_client {i : ι} (he : s.step D (.client i) = some t) :
    t.conn i = (s.view i).step D ∧ (∀ j, j ≠ i → t.conn j = s.conn j) ∧
      t.store = ((s.view i).step D).store ∧
      t.log = s.log ++ ((s.view i).stored D).map (Prod.mk (.client i)) := by
  simp only [step, Option.some.injEq] at he
  subst he
  exact ⟨Function.update_self .., fun j hj => Function.update_of_ne hj .., rfl, rfl⟩

/-- What the timestamp thread can do. -/
theorem step_clock {line : TimestampLine} (he : s.step D (.clock line) = some t) :
    D.charDevice = false ∧ t.conn = s.conn ∧
      t.store = (D.serve s.store 0 (.write line.bytes)).1 ∧
      t.log = s.log ++ (if (D.serve s.store 0 (.write line.bytes)).2.2.retval = -1 then []
        else [line.bytes]).map (Prod.mk .clock) := by
  cases hD : D.charDevice with
  | true => simp [step, hD] at he
  | false =>
    simp only [step, hD, Bool.false_eq_true, if_false, Option.some.injEq] at he
    subst he
    refine ⟨rfl, rfl, rfl, ?_⟩
    dsimp only
    split_ifs <;> simp

theorem Kept.client (h : s.Kept D R input) (hD : D.Collects R) {i : ι}
    (he : s.step D (.client i) = some t) : t.Kept D R input := by
  obtain ⟨hself, hother, hstore, hlog⟩ := step_client he
  obtain ⟨gs, hgs, hprog⟩ := h.progress i
  have hview : (s.view i).Progress D gs := hprog.store s.store
  have hsource : ∀ j, j ≠ i → ofSource (.client j) t.log = ofSource (.client j) s.log := by
    intro j hji
    rw [hlog, ofSource_append, ofSource_map_of_ne (by simpa using hji.symm), List.append_nil]
  have hchunks : ofSource (.client i) t.log =
      ofSource (.client i) s.log ++ (s.view i).stored D := by
    rw [hlog, ofSource_append, ofSource_map_self]
  refine ⟨fun j => ?_, fun j hpc => ?_, fun j b hb => ?_, ?_⟩
  · rcases eq_or_ne j i with rfl | hji
    · obtain ⟨gs', hgs', hprog'⟩ := Conn.step_progress hview
      exact ⟨gs', by rw [hself, hgs']; exact hgs, by rwa [hself]⟩
    · rw [hother j hji]
      exact h.progress j
  · rcases eq_or_ne j i with rfl | hji
    · -- a handler that has not given up had not before
      rw [hself] at hpc ⊢
      have hbefore : (s.conn j).handler.pc ≠ .cleanup := by
        intro hc
        have hview' : (s.view j).handler.pc = .cleanup := hc
        have hsame : (s.view j).step D = s.view j :=
          Conn.run_of_call_eq_none (by simp only [Handler.call, hview']) 1
        rw [hsame] at hpc
        exact hpc hc
      rw [hchunks, List.flatten_append, h.written j hbefore, Conn.step_written hpc]
      rfl
    · rw [hother j hji] at hpc ⊢
      rw [hsource j hji]
      exact h.written j hpc
  · rcases eq_or_ne j i with rfl | hji
    · rw [hchunks] at hb
      rcases List.mem_append.1 hb with hb | hb
      · exact h.chunks j b hb
      · obtain ⟨g, hg, rfl⟩ := hview.stored hb
        exact ⟨g, by rw [← hgs]; exact List.mem_append_left _ hg, rfl⟩
    · rw [hsource j hji] at hb
      exact h.chunks j b hb
  · have hkeep := Conn.step_collects (c := s.view i) hD h.store
    rw [hstore, hlog, List.map_append, List.map_map]
    simpa using hkeep

theorem Kept.clock (h : s.Kept D R input) (hD : D.Collects R) {line : TimestampLine}
    (he : s.step D (.clock line) = some t) : t.Kept D R input := by
  obtain ⟨-, hconn, hstore, hlog⟩ := step_clock he
  have hlen : line.bytes.length ≤ bufferSize := line.length_lt.le.trans (by decide)
  have hkeep := hD.write 0 h.store hlen
  have hsource : ∀ i, ofSource (.client i) t.log = ofSource (.client i) s.log := by
    intro i
    rw [hlog, ofSource_append, ofSource_map_of_ne (by simp), List.append_nil]
  refine ⟨fun i => ?_, fun i hpc => ?_, fun i b hb => ?_, ?_⟩
  · rw [hconn]
    exact h.progress i
  · rw [hconn] at hpc ⊢
    rw [hsource]
    exact h.written i hpc
  · rw [hsource] at hb
    exact h.chunks i b hb
  · rw [hstore, hlog, List.map_append, List.map_map]
    split_ifs at hkeep ⊢ <;> simpa using hkeep

/-- **The log is kept.** -/
theorem run_kept (hD : D.Collects R) (h0 : R st []) (h : Exec.run (step D) (start st input) es =
    some s) : s.Kept D R input := by
  refine Exec.invariant (start_kept h0) (fun t e u ht he => ?_) h
  cases e with
  | client i => exact ht.client hD he
  | clock line => exact ht.clock hD he

/-- The lines in the log, if no `write` of a line fails. -/
theorem run_clock (hok : D.charDevice = false →
    ∀ st b, (D.serve st 0 (.write b)).2.2.retval ≠ -1)
    (h : Exec.run (step D) (start st input) es = some s) :
    ofSource .clock s.log = es.filterMap ClientsEvent.line := by
  refine Exec.run_induction (I := fun es s =>
    ofSource .clock s.log = es.filterMap ClientsEvent.line) rfl (fun es t e u _ ht he => ?_) h
  rw [List.filterMap_append, ← ht]
  cases e with
  | client i =>
    obtain ⟨-, -, -, hlog⟩ := step_client he
    rw [hlog, ofSource_append, ofSource_map_of_ne (by simp)]
    rfl
  | clock line =>
    obtain ⟨hD, -, -, hlog⟩ := step_clock he
    rw [hlog, if_neg (hok hD _ _), ofSource_append, ofSource_map_self]
    rfl

/-- The device build has no timestamp thread. -/
theorem run_no_clock (hD : D.charDevice = true)
    (h : Exec.run (step D) (start st input) es = some s) : ofSource .clock s.log = [] := by
  refine Exec.invariant (I := fun s => ofSource .clock s.log = []) rfl (fun t e u ht he => ?_) h
  cases e with
  | client i =>
    obtain ⟨-, -, -, hlog⟩ := step_client he
    rw [hlog, ofSource_append, ofSource_map_of_ne (by simp), List.append_nil, ht]
  | clock line =>
    obtain ⟨hD', -⟩ := step_clock he
    rw [hD] at hD'
    simp at hD'

end Kept

/-! ### Packets -/

section Packets

variable {D : Driver σ} {R : σ → List (List UInt8) → Prop} {input : ι → List Segment}
  {s : Clients σ ι} {packets : ι → List (List UInt8)} {lines : List (List UInt8)}

/-- The chunks stored are, byte for byte and with who has sent it, the packets and lines of `U`,
each in one piece, and these are the packets and lines of each source in order. -/
structure Unmixed (packets : ι → List (List UInt8)) (lines : List (List UInt8)) (s : Clients σ ι)
    (U : List (Source ι × List UInt8)) : Prop where
  bytes : tagged s.log = tagged U
  clients : ∀ i, ofSource (.client i) U = packets i
  clock : ofSource .clock U = lines

/-- When all has been stored, the log holds what each client has sent. -/
theorem Kept.client_bytes (h : s.Kept D R input) (hp : s.Processed)
    (hplain : ∀ i, ∀ g ∈ input i, g.request D.charDevice = none) (i : ι) :
    (ofSource (.client i) s.log).flatten = ((input i).map Segment.bytes).flatten := by
  obtain ⟨hnil, hpc⟩ := hp i
  have hne : (s.conn i).handler.pc ≠ .cleanup := by
    intro hc
    simp [hc, Pc.hasStored] at hpc
  obtain ⟨gs, hgs, hprog⟩ := h.progress i
  rw [hnil, List.append_nil] at hgs
  rw [h.written i hne, (hprog.settled hpc).written, hgs, writtenOf_plain (hplain i)]

/-- Then every source is at the end of a record, and its records are its packets or lines. -/
theorem Kept.records (h : s.Kept D R input) (hp : s.Processed)
    (hplain : ∀ i, ∀ g ∈ input i, g.request D.charDevice = none)
    (hrec : ∀ i, ∀ p ∈ packets i, RecordLog.IsRecord newline p)
    (hsent : ∀ i, ((input i).map Segment.bytes).flatten = (packets i).flatten)
    (hclock : ofSource .clock s.log = lines)
    (hlines : ∀ l ∈ lines, RecordLog.IsRecord newline l) :
    (∀ src, Whole newline s.log src) ∧
      (∀ i, (recordsOf newline s.log (.client i)).committed = packets i) ∧
      (recordsOf newline s.log .clock).committed = lines := by
  have hclients : ∀ i, (recordsOf newline s.log (.client i)).committed = packets i ∧
      (recordsOf newline s.log (.client i)).pending = [] := by
    intro i
    unfold recordsOf
    rw [ofSource_tagged, h.client_bytes hp hplain i, hsent i]
    exact RecordLog.records_flatten (hrec i)
  have hlast : (recordsOf newline s.log .clock).committed = lines ∧
      (recordsOf newline s.log .clock).pending = [] := by
    unfold recordsOf
    rw [ofSource_tagged, hclock]
    exact RecordLog.records_flatten hlines
  refine ⟨fun src => ?_, fun i => (hclients i).1, hlast.1⟩
  cases src with
  | client i => exact (hclients i).2
  | clock => exact hlast.2

theorem Kept.chunk_ne_nil (h : s.Kept D R input) (hclock : ofSource .clock s.log = lines)
    (hlines : ∀ l ∈ lines, RecordLog.IsRecord newline l) : ∀ x ∈ s.log, x.2 ≠ [] := by
  intro x hx
  have hmem := mem_ofSource hx
  cases hsrc : x.1 with
  | client i =>
    rw [hsrc] at hmem
    obtain ⟨g, -, hg⟩ := h.chunks i _ hmem
    rw [hg]
    exact g.ne_nil
  | clock =>
    rw [hsrc, hclock] at hmem
    obtain ⟨l, hl, -⟩ := hlines _ hmem
    rw [hl]
    simp

/-- The packets are unmixed if the log is made of the records of its sources. -/
theorem unmixed_iff_inRecords
    (hclients : ∀ i, (recordsOf newline s.log (.client i)).committed = packets i)
    (hclock : (recordsOf newline s.log .clock).committed = lines)
    {U : List (Source ι × List UInt8)} :
    s.Unmixed packets lines U ↔ InRecords newline s.log U := by
  constructor
  · intro h
    refine ⟨h.bytes, fun src => ?_⟩
    cases src with
    | client i => exact (h.clients i).trans (hclients i).symm
    | clock => exact h.clock.trans hclock.symm
  · intro h
    exact ⟨h.tagged_eq, fun i => (h.ofSource_eq _).trans (hclients i),
      (h.ofSource_eq _).trans hclock⟩

/-- The packets are unmixed exactly if the log is orderly. -/
theorem Kept.unmixed_iff (h : s.Kept D R input) (hp : s.Processed)
    (hplain : ∀ i, ∀ g ∈ input i, g.request D.charDevice = none)
    (hrec : ∀ i, ∀ p ∈ packets i, RecordLog.IsRecord newline p)
    (hsent : ∀ i, ((input i).map Segment.bytes).flatten = (packets i).flatten)
    (hclock : ofSource .clock s.log = lines)
    (hlines : ∀ l ∈ lines, RecordLog.IsRecord newline l) :
    Orderly newline s.log ↔ ∃ U, s.Unmixed packets lines U := by
  obtain ⟨hwhole, hclients, hlast⟩ := h.records hp hplain hrec hsent hclock hlines
  simp only [orderly_iff (h.chunk_ne_nil hclock hlines) hwhole,
    unmixed_iff_inRecords hclients hlast]

theorem Unmixed.content_eq {U : List (Source ι × List UInt8)} (h : s.Unmixed packets lines U) :
    content s.log = content U := by
  rw [← map_snd_tagged, h.bytes, map_snd_tagged]

/-- The commands of a device that has collected an orderly log: each has one source, and where no
chunk goes on behind a newline each is a packet. -/
theorem Kept.device {K : Kernel} {s : Clients Dev ι}
    (h : s.Kept (deviceDriver K) (fun d bs => Represents K d ((RecordLog.empty newline).run bs))
      input) (hp : s.Processed)
    (hplain : ∀ i, ∀ g ∈ input i, g.request true = none)
    (hrec : ∀ i, ∀ p ∈ packets i, RecordLog.IsRecord newline p)
    (hsent : ∀ i, ((input i).map Segment.bytes).flatten = (packets i).flatten)
    (hclock : ofSource .clock s.log = []) (horder : Orderly newline s.log) :
    s.store.pendingBytes = [] ∧
      (∃ G : List (List (Source ι × List UInt8)), s.log = G.flatten ∧
        s.store.storedCommands = (G.map content).rtake 10 ∧
        ∀ g ∈ G, ∃ i, ∀ x ∈ g, x.1 = .client i) ∧
      ((∀ i, ∀ g ∈ input i, RecordLog.SepLast newline g.bytes) →
        ∀ U, s.Unmixed packets [] U → s.store.storedCommands = (U.map Prod.snd).rtake 10) := by
  have hlines : ∀ l ∈ ([] : List (List UInt8)), RecordLog.IsRecord newline l := by simp
  obtain ⟨hwhole, hclients, hlast⟩ := h.records hp hplain hrec hsent hclock hlines
  have hne := h.chunk_ne_nil hclock hlines
  have hsources : ∀ x ∈ s.log, ∃ i, x.1 = .client i := by
    intro x hx
    cases hsrc : x.1 with
    | client i => exact ⟨i, rfl⟩
    | clock =>
      have hmem := mem_ofSource hx
      rw [hsrc, hclock] at hmem
      simp at hmem
  obtain ⟨G, tail, hsplit, hcomm, hpend, hG, htail⟩ := orderly_groups horder hne
  obtain rfl : tail = [] := List.eq_nil_iff_forall_not_mem.2 fun x hx => htail x hx (hwhole x.1)
  rw [List.append_nil] at hsplit
  refine ⟨by rw [h.store.pendingBytes, hpend]; rfl, ⟨G, hsplit, ?_, fun g hg => ?_⟩,
    fun hsep U hU => ?_⟩
  · rw [h.store.storedCommands, Log.stored, hcomm]
  · obtain ⟨x, hx, hsame⟩ := hG g hg
    obtain ⟨i, hi⟩ := hsources x (hsplit ▸ List.mem_flatten_of_mem hg hx)
    exact ⟨i, fun y hy => (hsame y hy).trans hi⟩
  · have hchunks : ∀ b ∈ s.log.map Prod.snd, RecordLog.SepLast newline b := by
      intro b hb
      obtain ⟨x, hx, rfl⟩ := List.mem_map.1 hb
      obtain ⟨i, hi⟩ := hsources x hx
      obtain ⟨g, hg, hbytes⟩ := h.chunks i _ (hi ▸ mem_ofSource hx)
      rw [hbytes]
      exact hsep i g hg
    have hrecords : ((RecordLog.empty newline).run (s.log.map Prod.snd)).committed =
        U.map Prod.snd := by
      rw [RecordLog.run_eq_singletons _ hchunks]
      exact ((unmixed_iff_inRecords hclients hlast).1 hU).records_content
    rw [h.store.storedCommands, Log.stored, hrecords]

end Packets

/-- **Packets of concurrent clients.**  Let every client send whole packets, of which no segment is
taken for a seek request, and let all that has arrived have been stored.  In the file build the
file is the chunks in the order of the writes, and it is made of whole packets and whole timestamp
lines exactly if nobody has written between the pieces of a packet of another.  So it is in the
device build with all that the device has taken in, and then every stored command comes from one
client; it is a packet where no segment goes on behind a newline. -/
theorem packets_unmixed (K : Kernel) (input : ι → List Segment)
    (packets : ι → List (List UInt8))
    (hrec : ∀ i, ∀ p ∈ packets i, RecordLog.IsRecord newline p)
    (hsent : ∀ i, ((input i).map Segment.bytes).flatten = (packets i).flatten) :
    (∀ es s, Exec.run (step fileDriver) (start [] input) es = some s → s.Processed →
      (∀ i, (ofSource (.client i) s.log).flatten = (packets i).flatten) ∧
      s.store = content s.log ∧
      (Orderly newline s.log ↔
        ∃ U, s.Unmixed packets (es.filterMap ClientsEvent.line) U ∧ s.store = content U)) ∧
    ∀ es s, Exec.run (step (deviceDriver K)) (start aesdInitModule input) es = some s →
      (∀ i, ∀ g ∈ input i, g.request true = none) → s.Processed →
      (∀ i, (ofSource (.client i) s.log).flatten = (packets i).flatten) ∧
      (∃ D : List UInt8,
        D ++ s.store.storedCommands.flatten ++ s.store.pendingBytes = content s.log) ∧
      (Orderly newline s.log ↔ ∃ U, s.Unmixed packets [] U ∧ content s.log = content U) ∧
      (Orderly newline s.log → s.store.pendingBytes = [] ∧
        (∃ G : List (List (Source ι × List UInt8)), s.log = G.flatten ∧
          s.store.storedCommands = (G.map content).rtake 10 ∧
          ∀ g ∈ G, ∃ i, ∀ x ∈ g, x.1 = .client i) ∧
        ((∀ i, ∀ g ∈ input i, RecordLog.SepLast newline g.bytes) →
          ∀ U, s.Unmixed packets [] U → s.store.storedCommands = (U.map Prod.snd).rtake 10)) := by
  refine ⟨fun es s h hp => ?_, fun es s h hplain hp => ?_⟩
  · have hkept := run_kept fileDriver_collects rfl h
    have hclock : ofSource .clock s.log = es.filterMap ClientsEvent.line := by
      refine run_clock (fun _ st b => ?_) h
      change (b.length : ℤ) ≠ -1
      omega
    have hplain : ∀ i, ∀ g ∈ input i, g.request fileDriver.charDevice = none := fun _ _ _ => rfl
    have hstore : s.store = content s.log := hkept.store
    refine ⟨fun i => (hkept.client_bytes hp hplain i).trans (hsent i), hstore, ?_⟩
    rw [hkept.unmixed_iff hp hplain hrec hsent hclock ClientsEvent.isRecord_line]
    exact exists_congr fun U => ⟨fun hU => ⟨hU, hstore.trans hU.content_eq⟩, And.left⟩
  · have hkept := run_kept (deviceDriver_collects K (RecordLog.empty newline))
      (init_represents K) h
    have hclock := run_no_clock (D := deviceDriver K) rfl h
    have hstream : ((RecordLog.empty newline).run (s.log.map Prod.snd)).stream = content s.log := by
      rw [RecordLog.stream_run]
      rfl
    refine ⟨fun i => (hkept.client_bytes hp hplain i).trans (hsent i), ?_, ?_,
      hkept.device hp hplain hrec hsent hclock⟩
    · rw [← hstream]
      exact hkept.store.stream
    · rw [hkept.unmixed_iff hp hplain hrec hsent hclock (by simp)]
      exact exists_congr fun U => ⟨fun hU => ⟨hU, hU.content_eq⟩, And.left⟩

/-- Two clients: the packet of the first arrives in two pieces, a timestamp line is written behind
it, and the second sends its packet last. -/
theorem packets_unmixed_in_turn :
    let input : Fin 2 → List Segment := ![[⟨[97], [], by decide, by decide⟩,
      ⟨[98, newline], [], by decide, by decide⟩], [⟨[99, newline], [], by decide, by decide⟩]]
    let packets : Fin 2 → List (List UInt8) := ![[[97, 98, newline]], [[99, newline]]]
    let line : TimestampLine := ⟨[newline], ⟨[], rfl, by simp⟩, by decide⟩
    let first : List (ClientsEvent (Fin 2)) := List.replicate 6 (.client 0)
    let second : List (ClientsEvent (Fin 2)) := List.replicate 4 (.client 1)
    (∃ s, Exec.run (step fileDriver) (start [] input) (first ++ .clock line :: second) = some s ∧
      ∃ U, s.Unmixed packets [[newline]] U ∧ s.store = content U) ∧
    ∃ s, Exec.run (step (deviceDriver .x86)) (start aesdInitModule input) (first ++ second) =
        some s ∧ s.store.pendingBytes = [] ∧ ∃ U, s.Unmixed packets [] U := by
  intro input packets line first second
  obtain ⟨hfile, hdevice⟩ := packets_unmixed .x86 input packets
    (by
      intro i p hp
      fin_cases i
      · exact ⟨[97, 98], by simpa [packets] using hp, by decide⟩
      · exact ⟨[99], by simpa [packets] using hp, by decide⟩)
    (by decide)
  constructor
  · obtain ⟨s, hs⟩ := Option.isSome_iff_exists.1 (show (Exec.run (step fileDriver)
      (start [] input) (first ++ .clock line :: second)).isSome = true by decide +kernel)
    have hcheck : (Exec.run (step fileDriver) (start [] input)
        (first ++ .clock line :: second)).all
        (fun s => decide (s.Processed ∧ Orderly newline s.log)) = true := by decide +kernel
    rw [hs] at hcheck
    obtain ⟨hp, horder⟩ := of_decide_eq_true hcheck
    exact ⟨s, hs, (hfile _ s hs hp).2.2.1 horder⟩
  · obtain ⟨s, hs⟩ := Option.isSome_iff_exists.1 (show (Exec.run (step (deviceDriver .x86))
      (start aesdInitModule input) (first ++ second)).isSome = true by decide +kernel)
    have hcheck : (Exec.run (step (deviceDriver .x86)) (start aesdInitModule input)
        (first ++ second)).all
        (fun s => decide (s.Processed ∧ Orderly newline s.log)) = true := by decide +kernel
    rw [hs] at hcheck
    obtain ⟨hp, horder⟩ := of_decide_eq_true hcheck
    obtain ⟨-, -, hiff, hcommands⟩ := hdevice _ s hs (by decide +kernel) hp
    obtain ⟨U, hU, -⟩ := hiff.1 horder
    exact ⟨s, hs, (hcommands horder).1, U, hU⟩

/-- The second client sends its packet while the first is in the middle of its own: the file is
not made of the two packets, and the first command of the device has bytes of both. -/
theorem packets_mixed :
    let input : Fin 2 → List Segment := ![[⟨[97], [], by decide, by decide⟩,
      ⟨[98, newline], [], by decide, by decide⟩], [⟨[99, newline], [], by decide, by decide⟩]]
    let packets : Fin 2 → List (List UInt8) := ![[[97, 98, newline]], [[99, newline]]]
    let es : List (ClientsEvent (Fin 2)) := List.replicate 4 (.client 0) ++
      List.replicate 4 (.client 1) ++ List.replicate 2 (.client 0)
    (∃ s, Exec.run (step fileDriver) (start [] input) es = some s ∧ s.Processed ∧
      s.store = [97, 99, newline, 98, newline] ∧
      ¬ ∃ U : List (Source (Fin 2) × List UInt8), (∀ i, ofSource (.client i) U = packets i) ∧
        ofSource .clock U = [] ∧ s.store = content U) ∧
    ∃ s, Exec.run (step (deviceDriver .x86)) (start aesdInitModule input) es = some s ∧
      s.Processed ∧ s.store.storedCommands = [[97, 99, newline], [98, newline]] := by
  intro input packets es
  constructor
  · obtain ⟨s, hs⟩ := Option.isSome_iff_exists.1 (show (Exec.run (step fileDriver)
      (start [] input) es).isSome = true by decide +kernel)
    have hcheck : (Exec.run (step fileDriver) (start [] input) es).all (fun s =>
        decide (s.Processed ∧ s.store = [97, 99, newline, 98, newline])) = true := by
      decide +kernel
    rw [hs] at hcheck
    obtain ⟨hp, hstore⟩ := of_decide_eq_true hcheck
    refine ⟨s, hs, hp, hstore, ?_⟩
    rintro ⟨U, hclients, hclock, hcontent⟩
    rw [hstore] at hcontent
    cases U with
    | nil => simp [content] at hcontent
    | cons x U =>
      -- whichever packet comes first, the file does not begin with it
      obtain ⟨src, p⟩ := x
      have hmem : p ∈ ofSource src ((src, p) :: U) :=
        mem_ofSource (x := (src, p)) List.mem_cons_self
      rw [show (src, p) :: U = [(src, p)] ++ U from rfl, content_append, content_singleton]
        at hcontent
      cases src with
      | clock =>
        rw [hclock] at hmem
        exact absurd hmem List.not_mem_nil
      | client i =>
        rw [hclients] at hmem
        fin_cases i
        · obtain rfl : p = [97, 98, newline] := by simpa [packets] using hmem
          simp [newline] at hcontent
        · obtain rfl : p = [99, newline] := by simpa [packets] using hmem
          simp [newline] at hcontent
  · obtain ⟨s, hs⟩ := Option.isSome_iff_exists.1 (show (Exec.run (step (deviceDriver .x86))
      (start aesdInitModule input) es).isSome = true by decide +kernel)
    have hcheck : (Exec.run (step (deviceDriver .x86)) (start aesdInitModule input) es).all
        (fun s => decide (s.Processed ∧
          s.store.storedCommands = [[97, 99, newline], [98, newline]])) = true := by
      decide +kernel
    rw [hs] at hcheck
    exact ⟨s, hs, of_decide_eq_true hcheck⟩

end Clients

end Aesd
