import Aesd.Server.Replies

/-!
# The server on the device is a server on a log

What the server of the device build does for one client after the other needs neither buffers nor
slots nor system calls: there is a `Log`, and a connection reads it from a position of its own.
`View.serve` is that server.  A segment is either a request, which moves the position and counts
the commands in the order of the array, or it is data, which the log accepts; if it brings a
newline, what lies behind the position is sent back.  A request that names no byte and data that
the device has no memory for end the server.

* `View.serve`, `Log.serveAll`: the server on a log;
* `Dev.Takes`, `receive_isSome_iff`: the segments that do not end it, told from the device;
* `turn_request`, `turn_refused`: the turns of a handler that `turn_write` leaves out;
* `connection_refines`: one connection, with any segments;
* `server_refines`: connections one after the other, from the initialised module.
-/

namespace Aesd

/-- The bytes of the log that can be read. -/
def Log.content (a : Log) : List UInt8 := a.stored.flatten

/-- Where the driver takes a request. -/
def Log.seek (a : Log) (s : Seekto) : Option ℕ :=
  let ps := slotOrder a.committed.length (a.stored.map List.length)
  if s.writeCmdOffset.toNat < ps[s.writeCmd.toNat]?.getD 0 then
    some ((ps.take s.writeCmd.toNat).sum + s.writeCmdOffset.toNat)
  else none

/-- What a connection has before it: the log, and the position of its open file. -/
structure View where
  log : Log
  pos : ℕ

namespace View

/-- A segment arrives; `none` if the server gives up on it. -/
def receive (K : Kernel) (v : View) (g : Segment) : Option View :=
  match g.request true with
  | some s => (v.log.seek s).map fun p => { v with pos := p }
  | none =>
    if v.log.pending.length + g.bytes.length ≤ K.kmallocMaxSize then
      some { v with log := v.log.accept g.bytes }
    else none

/-- What is sent back after a segment, and the position behind it. -/
def reply (v : View) (g : Segment) : List UInt8 × View :=
  if newline ∈ g.bytes then
    (v.log.content.drop v.pos, { v with pos := max v.pos v.log.content.length })
  else ([], v)

end View

/-- What has become of a connection: its segments with the replies, the log, and whether the server
is still up. -/
structure Service where
  answers : List (List UInt8 × List UInt8)
  log : Log
  up : Bool

/-- A connection on a log. -/
def View.serve (K : Kernel) : View → List Segment → Service
  | v, [] => ⟨[], v.log, true⟩
  | v, g :: gs => match v.receive K g with
    | none => ⟨[(g.bytes, [])], v.log, false⟩
    | some v' =>
      let rest := serve K (v'.reply g).2 gs
      { rest with answers := (g.bytes, (v'.reply g).1) :: rest.answers }

/-- Connections on a log, one after the other, until one of them ends the server. -/
def Log.serveAll (K : Kernel) : Log → List (List Segment) → List Service
  | _, [] => []
  | a, gs :: gss =>
    let r := View.serve K ⟨a, 0⟩ gs
    r :: if r.up then serveAll K r.log gss else []

/-- A segment with its reply. -/
def Turn.answer {σ : Type*} (t : Turn σ) : List UInt8 × List UInt8 := (t.segment, t.reply)

namespace Conn

/-! ### The other turns of a handler -/

section Turns

variable {σ : Type*} {D : Driver σ} {st st' : σ} {body : List UInt8} {p p' k : ℕ}
  {i : List Segment} {w : List UInt8} {q : List Seekto} {u : Option (List UInt8 × List UInt8)}
  {t : List (Turn σ)} {g : Segment}

/-- The segments so far, with their replies. -/
def answers (c : Conn σ) : List (List UInt8 × List UInt8) := c.allTurns.map Turn.answer

/-- A segment is in the buffer, and the handler is in front of the call it makes with it. -/
theorem step_recv (pc : Pc) (hpc : pc = match g.request D.charDevice with
      | some s => .ioctl s
      | none => .write) :
    step D ⟨st, p, ⟨.recv, .zero, k⟩, g :: i, w, q, u, t⟩ =
      ⟨st, p, ⟨pc, Buffer.zero.store g.bytes, g.bytes.length⟩, i, w, q, some (g.bytes, []),
        t ++ u.toList.map fun v => ⟨v.1, v.2, st⟩⟩ := by
  have hpos : 0 < g.bytes.length := List.length_pos_iff.2 g.ne_nil
  simp only [step, Handler.call, Handler.resume, allTurns, Handler.received]
  rw [if_pos (by omega)]
  subst hpc
  simp only [Segment.request]
  cases Handler.request D.charDevice (Buffer.zero.store g.bytes) g.beyond <;> rfl

/-- A request that is served moves the position, and the reply begins there. -/
theorem turn_request {s : Seekto} (hD : D.charDevice = true)
    (hrequest : g.request D.charDevice = some s)
    (hioctl : D.serve st p (.ioctl s) = (st, (p' : ℤ), ⟨0, []⟩))
    (hread : ReadsBody D st body (max p' body.length)) :
    Reaches D ⟨st, p, ⟨.recv, .zero, k⟩, g :: i, w, q, u, t⟩
      ⟨st, ((if newline ∈ g.bytes then max p' body.length else p' : ℕ) : ℤ),
        ⟨.recv, .zero, g.bytes.length⟩, i, w, q ++ [s],
        some (g.bytes, if newline ∈ g.bytes then body.drop p' else []),
        t ++ u.toList.map fun v => ⟨v.1, v.2, st⟩⟩ := by
  have hnl := Buffer.newline_mem_store_zero g.length_le
  refine Reaches.head (step_recv (.ioctl s) (by rw [hrequest])) ?_
  have hserved : step D ⟨st, p, ⟨.ioctl s, Buffer.zero.store g.bytes, g.bytes.length⟩, i, w, q,
        some (g.bytes, []), t ++ u.toList.map fun v => ⟨v.1, v.2, st⟩⟩ =
      ⟨st, p', (Handler.mk (.ioctl s) (Buffer.zero.store g.bytes) g.bytes.length).afterStore
          D.charDevice, i, w, q ++ [s], some (g.bytes, []),
        t ++ u.toList.map fun v => ⟨v.1, v.2, st⟩⟩ := by
    simp only [step, Handler.call, file, hioctl, Handler.resume]
    rw [if_neg (by simp)]
  refine Reaches.head hserved ?_
  by_cases hn : newline ∈ g.bytes
  · simp only [Handler.afterStore, hnl.2 hn, hn, if_true, hD]
    exact reply_loop hread le_rfl _ []
  · simp only [Handler.afterStore, hnl.not.2 hn, hn, if_false]
    exact Reaches.refl _

/-- A segment that the data file does not take ends the handler, and nothing is sent. -/
theorem turn_refused (fc : FileCall) (hcall : fc = match g.request D.charDevice with
      | some s => .ioctl s
      | none => .write g.bytes)
    (hserve : (D.serve st p fc).1 = st' ∧ (D.serve st p fc).2.2.retval = -1) :
    ∃ c, Reaches D ⟨st, p, ⟨.recv, .zero, k⟩, g :: i, w, q, u, t⟩ c ∧
      c.handler.pc = .cleanup ∧ c.store = st' ∧
      c.answers = t.map Turn.answer ++ u.toList ++ [(g.bytes, [])] ∧
      c.requests = q ++ (g.request D.charDevice).toList := by
  have htake := Buffer.store_take .zero g.length_le
  obtain ⟨hst, hret⟩ := hserve
  have hturns : (u.toList.map fun v => (⟨v.1, v.2, st⟩ : Turn σ)).map Turn.answer = u.toList := by
    rw [List.map_map]
    exact List.map_id _
  cases hr : g.request D.charDevice with
  | some s =>
    rw [hr] at hcall
    subst hcall
    refine ⟨_, Reaches.head (step_recv (.ioctl s) (by rw [hr])) ⟨1, rfl⟩, ?_, ?_, ?_, rfl⟩
    · simp [run, step, Handler.call, file, Handler.resume, hret]
    · simpa [run, step, Handler.call, file] using hst
    · simp [run, step, Handler.call, file, answers, allTurns, hturns, Turn.answer]
  | none =>
    rw [hr] at hcall
    subst hcall
    refine ⟨_, Reaches.head (step_recv .write (by rw [hr])) ⟨1, rfl⟩, ?_, ?_, ?_, ?_⟩
    · simp [run, step, Handler.call, file, Handler.resume, htake, hret]
    · simpa [run, step, Handler.call, file, htake] using hst
    · simp [run, step, Handler.call, file, answers, allTurns, hturns, Turn.answer]
    · simp [run, step, Handler.call, file]

end Turns

end Conn

/-! ### The device as data file -/

section Device

variable {K : Kernel} {d : Dev} {a : Log}

/-- A request, as the driver answers it. -/
theorem deviceDriver_seek (h : Represents K d a) (p : ℤ) (s : Seekto) :
    (deviceDriver K).serve d p (.ioctl s) = match a.seek s with
      | some p' => (d, (p' : ℤ), ⟨0, []⟩)
      | none => (d, p, ⟨-1, []⟩) := by
  have hioctl : (deviceDriver K).serve d p (.ioctl s) =
      let r := aesdAdjustFileOffsetBody d p s.writeCmd s.writeCmdOffset
      (d, r.2, Ret.libc ⟨r.1, []⟩) := by
    rw [← aesdUnlockedIoctl_seekto]
    rfl
  rw [hioctl, aesdAdjustFileOffsetBody_eq h]
  unfold Log.seek
  dsimp only
  split_ifs <;> rfl

/-- A request that is served leads to a byte of the content. -/
theorem Log.seek_lt {s : Seekto} {p : ℕ} (h : a.seek s = some p) : p < a.content.length := by
  unfold Log.seek at h
  dsimp only at h
  split_ifs at h with hin
  obtain rfl := Option.some.inj h
  have hlen : a.content.length =
      (slotOrder a.committed.length (a.stored.map List.length)).sum := by
    rw [slotOrder_sum, Log.content, List.length_flatten]
  rw [hlen]
  generalize slotOrder a.committed.length (a.stored.map List.length) = ps at hin ⊢
  have hc : s.writeCmd.toNat < ps.length := by
    by_contra hge
    rw [List.getElem?_eq_none (by omega)] at hin
    simp at hin
  have hle := CircularBuffer.sum_take_le ps (s.writeCmd.toNat + 1)
  rw [List.take_add_one, List.sum_append] at hle
  rw [List.getElem?_eq_getElem hc] at hin hle
  simp only [Option.getD_some, Option.toList_some, List.sum_singleton] at hin hle
  omega

theorem Represents.content_lt (h : Represents K d a) : a.content.length < 2 ^ 63 := by
  rw [Log.content, List.length_flatten]
  exact h.stored_small

/-- A segment that the device has no memory for. -/
theorem deviceDriver_refused (h : Represents K d a) (p : ℤ) {g : Segment}
    (hfull : ¬ a.pending.length + g.bytes.length ≤ K.kmallocMaxSize) :
    ((deviceDriver K).serve d p (.write g.bytes)).1 = d ∧
      ((deviceDriver K).serve d p (.write g.bytes)).2.2.retval = -1 := by
  obtain ⟨bs, hbs⟩ := h
  have hbuf := served_buf g.length_le
  have hne : (WriteCall.served g.bytes).buf.length ≠ 0 := by
    rw [hbuf]
    exact mt List.length_eq_zero_iff.1 g.ne_nil
  have hwrite : aesdWrite K d true (.served g.bytes) = (d, -ENOMEM) :=
    aesdWriteBody_refused hbs hne fun hs => hfull (hbuf ▸ hs.2)
  simp [deviceDriver, FileCall.request, Request.serve, hwrite, Ret.libc, ENOMEM]

/-- The device takes a segment: the request names a byte, or there is memory for the data. -/
def Dev.Takes (K : Kernel) (d : Dev) (g : Segment) : Prop :=
  match g.request true with
  | some s => s.Names d
  | none => Fits K d g.bytes

instance (K : Kernel) (d : Dev) (g : Segment) : Decidable (d.Takes K g) :=
  match h : g.request true with
  | some s => decidable_of_iff (s.Names d) (by simp only [Dev.Takes, h])
  | none => decidable_of_iff (Fits K d g.bytes) (by simp only [Dev.Takes, h])

/-- The device behind a segment that it takes. -/
def Dev.behind (K : Kernel) (d : Dev) (g : Segment) : Dev :=
  match g.request true with
  | some _ => d
  | none => d.append K g.bytes

/-- The server on the log gives up on what the device does not take. -/
theorem receive_isSome_iff (h : Represents K d a) (p : ℕ) (g : Segment) :
    (View.receive K ⟨a, p⟩ g).isSome = true ↔ d.Takes K g := by
  unfold View.receive Dev.Takes
  cases hr : g.request true with
  | some s =>
    have hfst := aesdAdjustFileOffsetBody_fst d 0 s
    rw [aesdAdjustFileOffsetBody_eq h] at hfst
    simp only [Log.seek, Option.isSome_map]
    by_cases hnames : s.Names d
    · rw [if_pos hnames] at hfst
      split_ifs at hfst ⊢
      · simp [hnames]
      · simp [EINVAL] at hfst
    · rw [if_neg hnames] at hfst
      split_ifs at hfst ⊢
      · simp [EINVAL] at hfst
      · simp [hnames]
  | none =>
    dsimp only
    unfold Fits
    rw [h.pendingBytes]
    split_ifs with hfits
    · simp [hfits, g.length_le]
    · simp [hfits]

/-- What the device sends behind a position is what the log says. -/
theorem deviceDriver_reads (h : Represents K d a) {p : ℕ} (hp : p < 2 ^ 63) :
    Conn.ReadsBody (deviceDriver K) d a.content (max p a.content.length) := by
  have hread : Conn.ReadsBody (deviceDriver K) d d.body (max p d.body.length) :=
    ((deviceDriver_appends K).read ⟨⟨a, h⟩, hp⟩).2
  rwa [h.body] at hread

end Device

/-! ### A connection -/

section Refines

variable {K : Kernel}

/-- The state in which a connection waits for its next segment. -/
structure Conn.Waits (K : Kernel) (c : Conn Dev) (v : View) (gs : List Segment) : Prop where
  pc : c.handler.pc = .recv
  buffer : c.handler.buffer = .zero
  input : c.input = gs
  pos : c.pos = (v.pos : ℤ)
  represents : Represents K c.store v.log
  pos_lt : v.pos < 2 ^ 63

open Conn

/-- A segment that the server on the log takes: the connection waits again, with the reply. -/
theorem waits_receive {c : Conn Dev} {v v' : View} {g : Segment} {gs : List Segment}
    (h : c.Waits K v (g :: gs)) (hv : v.receive K g = some v') :
    ∃ c', Reaches (deviceDriver K) c c' ∧ c'.Waits K (v'.reply g).2 gs ∧
      c'.answers = c.answers ++ [(g.bytes, (v'.reply g).1)] ∧ c'.store = c.store.behind K g ∧
      c'.requests = c.requests ++ (g.request true).toList ∧
      c'.written = c.written ++ if g.request true = none then g.bytes else [] := by
  obtain ⟨st, pos, ⟨pc, b, k⟩, i, w, q, u, t⟩ := c
  obtain ⟨hpc, hb, hi, hpos, hrep, hlt⟩ := h
  simp only at hpc hb hi hpos hrep
  subst hpc hb hi hpos
  have hturns : ∀ (ts : List (Turn Dev)) (x : List UInt8 × List UInt8) (st' : Dev),
      (ts ++ [(⟨x.1, x.2, st'⟩ : Turn Dev)]).map Turn.answer = ts.map Turn.answer ++ [x] := by
    intro ts x st'
    rw [List.map_append]
    rfl
  unfold View.receive at hv
  cases hr : g.request true with
  | some s =>
    -- the position moves, and the log stays
    simp only [hr, Option.map_eq_some_iff] at hv
    obtain ⟨p', hseek, rfl⟩ := hv
    have hp' := Log.seek_lt hseek
    have hcontent := hrep.content_lt
    have hturn := turn_request (k := k) (i := gs) (w := w) (q := q) (u := u) (t := t) (p := v.pos)
      rfl hr (by rw [deviceDriver_seek hrep, hseek]) (deviceDriver_reads hrep (by omega : p' < _))
    refine ⟨_, hturn, ⟨rfl, rfl, rfl, ?_, ?_, ?_⟩, ?_, by simp only [Dev.behind, hr], by simp,
      by simp⟩ <;>
      by_cases hn : newline ∈ g.bytes <;> simp only [View.reply, hn, if_true, if_false]
    · exact hrep
    · exact hrep
    · omega
    · omega
    · exact hturns _ (_, _) _
    · exact hturns _ (_, _) _
  | none =>
    simp only [hr] at hv
    split_ifs at hv with hfits
    obtain rfl := Option.some.inj hv
    have hok : Fits K st g.bytes := ⟨g.length_le, by rw [hrep.pendingBytes]; exact hfits⟩
    have hrep' := (hrep.append hok).1
    obtain ⟨p', ⟨-, -⟩, hp', hwrite⟩ := (deviceDriver_appends K).write ⟨⟨_, hrep⟩, hlt⟩ hok
    obtain rfl := hp' rfl
    have hcontent := hrep'.content_lt
    have hturn := turn_write (k := k) (i := gs) (w := w) (q := q) (u := u) (t := t) hr hwrite
      (fun hD => absurd hD (by simp [deviceDriver])) (deviceDriver_reads hrep' hlt)
    refine ⟨_, hturn, ⟨rfl, rfl, rfl, ?_, ?_, ?_⟩, ?_, by simp only [Dev.behind, hr], by simp,
      by simp⟩ <;>
      by_cases hn : newline ∈ g.bytes <;> simp only [View.reply, hn, if_true, if_false]
    · rfl
    · exact hrep'
    · exact hrep'
    · omega
    · exact hlt
    · exact hturns _ (_, _) _
    · exact hturns _ (_, _) _

/-- A segment that the server on the log gives up on. -/
theorem waits_refused {c : Conn Dev} {v : View} {g : Segment} {gs : List Segment}
    (h : c.Waits K v (g :: gs)) (hv : v.receive K g = none) :
    ∃ c', Reaches (deviceDriver K) c c' ∧ c'.handler.pc = .cleanup ∧
      Represents K c'.store v.log ∧ c'.answers = c.answers ++ [(g.bytes, [])] ∧
      c'.store = c.store ∧ c'.requests = c.requests ++ (g.request true).toList := by
  obtain ⟨st, pos, ⟨pc, b, k⟩, i, w, q, u, t⟩ := c
  obtain ⟨hpc, hb, hi, hpos, hrep, hlt⟩ := h
  simp only at hpc hb hi hpos hrep
  subst hpc hb hi hpos
  have hanswers : (Conn.answers ⟨st, v.pos, ⟨.recv, .zero, k⟩, g :: gs, w, q, u, t⟩ :
      List (List UInt8 × List UInt8)) = t.map Turn.answer ++ u.toList := by
    rw [Conn.answers, allTurns, List.map_append, List.map_map]
    exact congrArg _ (List.map_id _)
  rw [hanswers]
  unfold View.receive at hv
  cases hr : g.request true with
  | some s =>
    simp only [hr, Option.map_eq_none_iff] at hv
    have hserve : ((deviceDriver K).serve st v.pos (.ioctl s)).1 = st ∧
        ((deviceDriver K).serve st v.pos (.ioctl s)).2.2.retval = -1 := by
      rw [deviceDriver_seek hrep, hv]
      exact ⟨rfl, rfl⟩
    obtain ⟨c', hc, hpc, hst, hans, hreq⟩ := turn_refused (k := k) (i := gs) (w := w) (q := q)
      (u := u) (t := t) (g := g) (.ioctl s)
      (by rw [show g.request (deviceDriver K).charDevice = _ from hr]) hserve
    exact ⟨c', hc, hpc, hst ▸ hrep, hans, hst, hreq.trans (congrArg (q ++ Option.toList ·) hr)⟩
  | none =>
    simp only [hr] at hv
    split_ifs at hv with hfits
    obtain ⟨c', hc, hpc, hst, hans, hreq⟩ := turn_refused (k := k) (i := gs) (w := w) (q := q)
      (u := u) (t := t) (g := g) (.write g.bytes)
      (by rw [show g.request (deviceDriver K).charDevice = _ from hr])
      (deviceDriver_refused hrep _ hfits)
    exact ⟨c', hc, hpc, hst ▸ hrep, hans, hst, hreq.trans (congrArg (q ++ Option.toList ·) hr)⟩

/-- From one `recv` to the end of the handler. -/
theorem waits_serve {c : Conn Dev} {v : View} {gs : List Segment} (h : c.Waits K v gs) :
    let r := v.serve K gs
    ∃ c', Reaches (deviceDriver K) c c' ∧ c'.handler.pc = (if r.up then .done else .cleanup) ∧
      Represents K c'.store r.log ∧ c'.answers = c.answers ++ r.answers := by
  induction gs generalizing c v with
  | nil =>
    obtain ⟨st, pos, ⟨pc, b, k⟩, i, w, q, u, t⟩ := c
    obtain ⟨hpc, hb, hi, -, hrep, -⟩ := h
    simp only at hpc hb hi hrep
    subst hpc hb hi
    refine ⟨_, ⟨3, rfl⟩, rfl, hrep, ?_⟩
    simp [View.serve, run, step, Handler.call, Handler.resume, answers, allTurns]
  | cons g gs ih =>
    cases hv : v.receive K g with
    | none =>
      obtain ⟨c', hc, hpc, hrep, hans, -⟩ := waits_refused h hv
      simp only [View.serve, hv]
      exact ⟨c', hc, hpc, hrep, hans⟩
    | some v' =>
      obtain ⟨c₁, hc₁, hwaits, hans₁, -⟩ := waits_receive h hv
      obtain ⟨c', hc, hpc, hrep, hans⟩ := ih hwaits
      simp only [View.serve, hv]
      refine ⟨c', hc₁.trans hc, hpc, hrep, ?_⟩
      rw [hans, hans₁, List.append_assoc]
      rfl

end Refines

/-- A connection to the end of its handler, which has answered its segments so, and has ended the
thread or the server. -/
def Ends {σ : Type*} (D : Driver σ) (store : σ) (gs : List Segment)
    (answers : List (List UInt8 × List UInt8)) (up : Bool) (store' : σ) : Prop :=
  ∃ c, Conn.Reaches D (.start store gs) c ∧ c.handler.pc = (if up then .done else .cleanup) ∧
    c.answers = answers ∧ c.store = store'

/-- **A connection is a connection on the log**, whatever its segments are: requests in range and
out of range, data with newlines anywhere in it, data that finds no memory. -/
theorem connection_refines {K : Kernel} {d : Dev} {a : Log} (h : Represents K d a)
    (gs : List Segment) :
    let r := View.serve K ⟨a, 0⟩ gs
    ∃ d', Ends (deviceDriver K) d gs r.answers r.up d' ∧ Represents K d' r.log := by
  intro r
  have hwaits : Conn.Waits K ⟨d, 0, ⟨.recv, .zero, 0⟩, gs, [], [], none, []⟩ ⟨a, 0⟩ gs :=
    ⟨rfl, rfl, rfl, rfl, h, by simp⟩
  obtain ⟨c, hc, hpc, hrep, hans⟩ := waits_serve hwaits
  exact ⟨c.store, ⟨c, Conn.Reaches.trans ⟨2, rfl⟩ hc, hpc, hans, rfl⟩, hrep⟩

/-- Connections one after the other, each on the device that the one before it has left, until one
of them ends the server: what they have answered. -/
def EndsAll {σ : Type*} (D : Driver σ) : σ → List (List Segment) →
    List (List (List UInt8 × List UInt8)) → Prop
  | _, [], rs => rs = []
  | store, gs :: gss, rs => ∃ r rs' up store', rs = r :: rs' ∧ Ends D store gs r up store' ∧
      if up then EndsAll D store' gss rs' else rs' = []

theorem serveAll_refines {K : Kernel} {d : Dev} {a : Log} (h : Represents K d a)
    (gss : List (List Segment)) :
    EndsAll (deviceDriver K) d gss ((a.serveAll K gss).map Service.answers) := by
  induction gss generalizing d a with
  | nil => rfl
  | cons gs gss ih =>
    obtain ⟨d', hends, hrep⟩ := connection_refines h gs
    refine ⟨_, _, _, d', rfl, hends, ?_⟩
    cases hup : (View.serve K ⟨a, 0⟩ gs).up with
    | false => simp
    | true => simpa [hup] using ih hrep

/-- **The server is a server on the log.**  From the loaded module on, for any connections one after
the other and any segments on each of them, every handler comes to its end and has answered its
segments as the server on the log does; the first connection with a request out of range or a
segment that finds no memory is the last. -/
theorem server_refines (K : Kernel) (gss : List (List Segment)) :
    EndsAll (deviceDriver K) aesdInitModule gss
      ((Log.serveAll K (RecordLog.empty newline) gss).map Service.answers) :=
  serveAll_refines (init_represents K) gss

/-- A client stores two commands, is answered, seeks to the second byte of the second command and
is answered from there; the next seeks to a third command, which ends the server. -/
example : (Log.serveAll .x86 (RecordLog.empty newline)
    [[⟨[97, newline, 98, newline], [], by decide, by decide⟩,
      ⟨[98, 99, newline], [], by decide, by decide⟩,
      ⟨ioctlIdString ++ [49, comma, 49, newline], [], by decide, by decide⟩],
     [⟨ioctlIdString ++ [50, comma, 48], [], by decide, by decide⟩],
     [⟨[100], [], by decide, by decide⟩]]).map (fun r => (r.answers.map Prod.snd, r.up)) =
    [([[97, newline, 98, newline], [98, 99, newline], [99, newline]], true), ([[]], false)] := by
  decide +kernel

end Aesd
