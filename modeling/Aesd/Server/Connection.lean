import Aesd.Server.Handler

/-!
# One connection

A handler alone with its open file: `Conn.step` makes its next system call and resumes it.  The
client's stream arrives as a list of `Segment`s, the results of `recv`; behind the last of them
`recv` returns zero.  No call fails that does not fail in the driver.

Next to the state of the program a connection keeps a record of itself: the bytes written to the
data file, the requests issued, and for every segment a `Turn` with the reply that followed.

* `turn_write`: a segment that is written, with the reply of `reply_loop`, up to the next `recv`;
* `Serves`: a whole connection, from the `open` to the end of the thread.
-/

namespace Aesd

/-- A result of `recv`, with the memory behind the buffer at that time. -/
structure Segment where
  bytes : List UInt8
  beyond : List UInt8
  ne_nil : bytes ≠ []
  length_le : bytes.length ≤ bufferSize
  deriving DecidableEq

/-- The request the handler takes a segment for, received into a buffer that was zero. -/
def Segment.request (charDevice : Bool) (g : Segment) : Option Seekto :=
  Handler.request charDevice (Buffer.zero.store g.bytes) g.beyond

/-- A segment, the bytes sent before the next `recv`, and the data file then. -/
structure Turn (σ : Type*) where
  segment : List UInt8
  reply : List UInt8
  store : σ

/-- The data file, the position of the open file, the handler and the segments still to come; the
bytes written, the requests issued, the segment in hand with its reply so far, and the earlier
turns. -/
structure Conn (σ : Type*) where
  store : σ
  pos : ℤ
  handler : Handler
  input : List Segment
  written : List UInt8
  requests : List Seekto
  current : Option (List UInt8 × List UInt8)
  turns : List (Turn σ)

namespace Conn

variable {σ : Type*}

/-- A connection in front of its `open`. -/
def start (store : σ) (input : List Segment) : Conn σ :=
  ⟨store, 0, .start, input, [], [], none, []⟩

/-- The turns, with the one in hand. -/
def allTurns (c : Conn σ) : List (Turn σ) :=
  c.turns ++ c.current.toList.map fun t => ⟨t.1, t.2, c.store⟩

/-- A call on the data file. -/
def file (D : Driver σ) (c : Conn σ) (fc : FileCall) : Conn σ :=
  let r := D.serve c.store c.pos fc
  { c with
    store := r.1
    pos := r.2.1
    handler := c.handler.resume D.charDevice r.2.2 []
    written := match fc with
      | .write data => c.written ++ data
      | _ => c.written
    requests := match fc with
      | .ioctl s => c.requests ++ [s]
      | _ => c.requests }

/-- The next system call. -/
def step (D : Driver σ) (c : Conn σ) : Conn σ :=
  match c.handler.call with
  | none => c
  | some .open => { c with pos := 0, handler := c.handler.resume D.charDevice ⟨0, []⟩ [] }
  | some .malloc => { c with handler := c.handler.resume D.charDevice ⟨1, []⟩ [] }
  | some .recv => match c.input with
    | [] => { c with
        handler := c.handler.resume D.charDevice ⟨0, []⟩ []
        current := none
        turns := c.allTurns }
    | seg :: rest => { c with
        handler := c.handler.resume D.charDevice ⟨seg.bytes.length, seg.bytes⟩ seg.beyond
        input := rest
        current := some (seg.bytes, [])
        turns := c.allTurns }
  | some (.file fc) => c.file D fc
  | some (.send data) => { c with
      handler := c.handler.resume D.charDevice ⟨data.length, []⟩ []
      current := c.current.map fun t => (t.1, t.2 ++ data) }
  | some .close | some .closeSock =>
    { c with handler := c.handler.resume D.charDevice ⟨0, []⟩ [] }

/-- `n` steps. -/
def run (D : Driver σ) (c : Conn σ) : ℕ → Conn σ
  | 0 => c
  | n + 1 => run D (step D c) n

/-- From `c` the connection comes to `c'`. -/
def Reaches (D : Driver σ) (c c' : Conn σ) : Prop := ∃ n, run D c n = c'

section Run

variable {D : Driver σ} {c c' c'' : Conn σ}

theorem run_succ (n : ℕ) : run D c (n + 1) = run D (step D c) n := rfl

theorem run_add (m n : ℕ) : run D c (m + n) = run D (run D c m) n := by
  induction m generalizing c with
  | zero => rw [Nat.zero_add]; rfl
  | succ m ih => rw [Nat.succ_add, run_succ, run_succ, ih]

theorem Reaches.refl (c : Conn σ) : Reaches D c c := ⟨0, rfl⟩

theorem Reaches.trans (h : Reaches D c c') (h' : Reaches D c' c'') : Reaches D c c'' := by
  obtain ⟨m, rfl⟩ := h
  obtain ⟨n, rfl⟩ := h'
  exact ⟨m + n, run_add m n⟩

theorem Reaches.head (h : step D c = c') (h' : Reaches D c' c'') : Reaches D c c'' :=
  Reaches.trans ⟨1, h⟩ h'

/-- A handler that makes no more calls stays where it is. -/
theorem run_of_call_eq_none (h : c.handler.call = none) (n : ℕ) : run D c n = c := by
  have hstep : step D c = c := by simp only [step, h]
  induction n with
  | zero => rfl
  | succ n ih => rw [run_succ, hstep, ih]

/-- Where the handler makes no more calls is the same, however it is reached. -/
theorem Reaches.end_unique (h : Reaches D c c') (h' : Reaches D c c'')
    (hend : c'.handler.call = none) (hend' : c''.handler.call = none) : c' = c'' := by
  obtain ⟨m, rfl⟩ := h
  obtain ⟨n, rfl⟩ := h'
  calc run D c m = run D (run D c m) n := (run_of_call_eq_none hend n).symm
    _ = run D (run D c n) m := by rw [← run_add, ← run_add, Nat.add_comm]
    _ = run D c n := run_of_call_eq_none hend' m

end Run

/-! ### The reply -/

/-- As far as position `m`, reads return the pieces of `body` one after the other. -/
def ReadsBody (D : Driver σ) (st : σ) (body : List UInt8) (m : ℕ) : Prop :=
  ∀ pos ≤ m, ∃ n, n ≤ bufferSize ∧ n ≤ (body.drop pos).length ∧ (n = 0 ↔ body.length ≤ pos) ∧
    D.serve st pos (.read bufferSize) =
      (st, ((pos + n : ℕ) : ℤ), ⟨(n : ℤ), (body.drop pos).take n⟩)

section Reply

variable {D : Driver σ} {st : σ} {body : List UInt8} {m : ℕ} {i : List Segment}
  {w : List UInt8} {q : List Seekto} {t : List (Turn σ)} {g : List UInt8} {k : ℕ}

/-- One turn of the loop: what has been read is sent. -/
theorem reply_step (hread : ReadsBody D st body m) {p : ℕ} (hp : p ≤ m) (b : Buffer)
    (r : List UInt8) :
    (body.length ≤ p ∧
      step D ⟨st, p, ⟨.read, b, k⟩, i, w, q, some (g, r), t⟩ =
        ⟨st, p, ⟨.recv, .zero, k⟩, i, w, q, some (g, r), t⟩) ∨
    ∃ n b', 0 < n ∧ p + n ≤ body.length ∧
      Reaches D ⟨st, p, ⟨.read, b, k⟩, i, w, q, some (g, r), t⟩
        ⟨st, ((p + n : ℕ) : ℤ), ⟨.read, b', k⟩, i, w, q,
          some (g, r ++ (body.drop p).take n), t⟩ := by
  obtain ⟨n, hn, hlen, hzero, hserve⟩ := hread p hp
  have hstep : step D ⟨st, p, ⟨.read, b, k⟩, i, w, q, some (g, r), t⟩ =
      ⟨st, ((p + n : ℕ) : ℤ), (Handler.mk .read b k).resume D.charDevice
        ⟨(n : ℤ), (body.drop p).take n⟩ [], i, w, q, some (g, r), t⟩ := by
    simp only [step, Handler.call, file, hserve]
  rw [List.length_drop] at hlen
  rcases Nat.eq_zero_or_pos n with h0 | hpos
  · left
    -- `read` returns zero, and the loop ends
    refine ⟨hzero.1 h0, ?_⟩
    rw [hstep, h0]
    rfl
  · right
    -- `read` fills the front of the buffer, and `send` sends as much
    have hdata : ((body.drop p).take n).length = n := by
      rw [List.length_take, List.length_drop]; omega
    have hbuf : (b.store ((body.drop p).take n)).bytes.take n = (body.drop p).take n := by
      have htake := Buffer.store_take b (by omega : ((body.drop p).take n).length ≤ bufferSize)
      rwa [hdata] at htake
    refine ⟨n, b.store ((body.drop p).take n), hpos, by omega, 2, ?_⟩
    rw [run_succ, hstep]
    simp only [Handler.resume]
    rw [if_neg (by omega), if_pos (by omega), Int.toNat_natCast]
    simp only [run, step, Handler.call, Handler.resume, hbuf, Option.map_some]

/-- **The reply loop** sends everything behind the position, and ends. -/
theorem reply_loop (hread : ReadsBody D st body m) {p : ℕ} (hp : max p body.length ≤ m)
    (b : Buffer) (r : List UInt8) :
    Reaches D ⟨st, p, ⟨.read, b, k⟩, i, w, q, some (g, r), t⟩
      ⟨st, ((max p body.length : ℕ) : ℤ), ⟨.recv, .zero, k⟩, i, w, q,
        some (g, r ++ body.drop p), t⟩ := by
  induction hj : body.length - p using Nat.strong_induction_on generalizing p b r with
  | _ j ih =>
    rcases reply_step (k := k) (i := i) (w := w) (q := q) (g := g) (t := t)
      hread (by omega : p ≤ m) b r with ⟨hend, hstep⟩ | ⟨n, b', hn, hle, hreach⟩
    · rw [Nat.max_eq_left hend, List.drop_eq_nil_of_le hend, List.append_nil]
      exact Reaches.head hstep (Reaches.refl _)
    · have hmax : max (p + n) body.length = max p body.length := by omega
      have hrest := ih (body.length - (p + n)) (by omega) (by omega : max (p + n) body.length ≤ m)
        b' (r ++ (body.drop p).take n) rfl
      have hdrop : (body.drop p).take n ++ body.drop (p + n) = body.drop p := by
        rw [← List.drop_drop, List.take_append_drop]
      rw [hmax, List.append_assoc, hdrop] at hrest
      exact hreach.trans hrest

end Reply

/-! ### A segment that is written -/

section Write

variable {D : Driver σ} {st st' : σ} {body : List UInt8} {p p' k : ℕ} {i : List Segment}
  {w : List UInt8} {q : List Seekto} {u : Option (List UInt8 × List UInt8)} {t : List (Turn σ)}

/-- A segment that the handler does not take for a request goes to the data file; if it brings a
newline, what lies behind the position is sent back. -/
theorem turn_write {g : Segment} (hplain : g.request D.charDevice = none)
    (hwrite : D.serve st p (.write g.bytes) = (st', (p' : ℤ), ⟨(g.bytes.length : ℤ), []⟩))
    (hlseek : D.charDevice = false → D.serve st' p' .lseek = (st', ((0 : ℕ) : ℤ), ⟨0, []⟩))
    (hread : ReadsBody D st' body (max (if D.charDevice then p' else 0) body.length)) :
    Reaches D ⟨st, p, ⟨.recv, .zero, k⟩, g :: i, w, q, u, t⟩
      ⟨st', ((if newline ∈ g.bytes then max (if D.charDevice then p' else 0) body.length
          else p' : ℕ) : ℤ), ⟨.recv, .zero, g.bytes.length⟩, i, w ++ g.bytes, q,
        some (g.bytes,
          if newline ∈ g.bytes then body.drop (if D.charDevice then p' else 0) else []),
        t ++ u.toList.map fun v => ⟨v.1, v.2, st⟩⟩ := by
  have hpos : 0 < g.bytes.length := List.length_pos_iff.2 g.ne_nil
  have htake := Buffer.store_take .zero g.length_le
  have hnl := Buffer.newline_mem_store_zero g.length_le
  have hrecv : step D ⟨st, p, ⟨.recv, .zero, k⟩, g :: i, w, q, u, t⟩ =
      ⟨st, p, ⟨.write, Buffer.zero.store g.bytes, g.bytes.length⟩, i, w, q, some (g.bytes, []),
        t ++ u.toList.map fun v => ⟨v.1, v.2, st⟩⟩ := by
    simp only [step, Handler.call, Handler.resume, allTurns, Handler.received,
      show Handler.request D.charDevice (Buffer.zero.store g.bytes) g.beyond = none from hplain]
    rw [if_pos (by omega)]
  have hstore : step D ⟨st, p, ⟨.write, Buffer.zero.store g.bytes, g.bytes.length⟩, i, w, q,
        some (g.bytes, []), t ++ u.toList.map fun v => ⟨v.1, v.2, st⟩⟩ =
      ⟨st', p', (Handler.mk .write (Buffer.zero.store g.bytes) g.bytes.length).afterStore
          D.charDevice, i, w ++ g.bytes, q, some (g.bytes, []),
        t ++ u.toList.map fun v => ⟨v.1, v.2, st⟩⟩ := by
    simp only [step, Handler.call, file, htake, hwrite, Handler.resume]
    rw [if_neg (by omega)]
  refine Reaches.head hrecv (Reaches.head hstore ?_)
  by_cases hn : newline ∈ g.bytes
  · simp only [Handler.afterStore, hnl.2 hn, hn, if_true]
    cases hD : D.charDevice with
    | true =>
      rw [hD] at hread
      exact reply_loop hread le_rfl _ []
    | false =>
      rw [hD] at hread
      have hseek : step D ⟨st', p', ⟨.lseek, Buffer.zero.store g.bytes, g.bytes.length⟩, i,
            w ++ g.bytes, q, some (g.bytes, []), t ++ u.toList.map fun v => ⟨v.1, v.2, st⟩⟩ =
          ⟨st', ((0 : ℕ) : ℤ), ⟨.read, Buffer.zero.store g.bytes, g.bytes.length⟩, i,
            w ++ g.bytes, q, some (g.bytes, []), t ++ u.toList.map fun v => ⟨v.1, v.2, st⟩⟩ := by
        simp only [step, Handler.call, file, hlseek hD, Handler.resume]
      exact Reaches.head hseek (reply_loop hread le_rfl _ [])
  · simp only [Handler.afterStore, hnl.not.2 hn, hn, if_false]
    exact Reaches.refl _

end Write

end Conn

/-- A whole connection: the thread comes to its end, with these turns and this data file. -/
def Serves {σ : Type*} (D : Driver σ) (store : σ) (input : List Segment) (turns : List (Turn σ))
    (store' : σ) : Prop :=
  ∃ c, Conn.Reaches D (.start store input) c ∧ c.handler.pc = .done ∧ c.turns = turns ∧
    c.store = store'

/-- Connections one after the other. -/
def ServesAll {σ : Type*} (D : Driver σ) (store : σ) :
    List (List Segment) → List (List (Turn σ)) → σ → Prop
  | [], tss, store' => tss = [] ∧ store' = store
  | input :: inputs, tss, store' => ∃ ts tss' mid, tss = ts :: tss' ∧
      Serves D store input ts mid ∧ ServesAll D mid inputs tss' store'

section Serves

variable {σ : Type*} {D : Driver σ}

/-- A connection has one course. -/
theorem Serves.unique {st st₁ st₂ : σ} {i : List Segment} {ts₁ ts₂ : List (Turn σ)}
    (h₁ : Serves D st i ts₁ st₁) (h₂ : Serves D st i ts₂ st₂) : ts₁ = ts₂ ∧ st₁ = st₂ := by
  obtain ⟨c₁, hr₁, hd₁, rfl, rfl⟩ := h₁
  obtain ⟨c₂, hr₂, hd₂, rfl, rfl⟩ := h₂
  rw [Conn.Reaches.end_unique hr₁ hr₂ (by simp only [Handler.call, hd₁])
    (by simp only [Handler.call, hd₂])]
  exact ⟨rfl, rfl⟩

theorem ServesAll.unique {st st₁ st₂ : σ} {is : List (List Segment)}
    {tss₁ tss₂ : List (List (Turn σ))} (h₁ : ServesAll D st is tss₁ st₁)
    (h₂ : ServesAll D st is tss₂ st₂) : tss₁ = tss₂ ∧ st₁ = st₂ := by
  induction is generalizing st tss₁ tss₂ with
  | nil =>
    obtain ⟨rfl, rfl⟩ := h₁
    obtain ⟨rfl, rfl⟩ := h₂
    exact ⟨rfl, rfl⟩
  | cons i is ih =>
    obtain ⟨ts₁, tss₁, mid₁, rfl, hs₁, hr₁⟩ := h₁
    obtain ⟨ts₂, tss₂, mid₂, rfl, hs₂, hr₂⟩ := h₂
    obtain ⟨rfl, rfl⟩ := hs₁.unique hs₂
    obtain ⟨rfl, rfl⟩ := ih hr₁ hr₂
    exact ⟨rfl, rfl⟩

end Serves

/-! ### Data files that accept and return bytes -/

/-- What a driver does for data: a `write` that `ok` admits appends, `next` is the data file
behind it, and reads return `content`.  `inv` is kept, with the position of the open file. -/
structure Driver.Appends {σ : Type*} (D : Driver σ) (inv : σ → ℕ → Prop)
    (ok : σ → List UInt8 → Prop) (next : σ → List UInt8 → σ) (content : σ → List UInt8) :
    Prop where
  write : ∀ {st p b}, inv st p → ok st b → ∃ p' : ℕ, inv (next st b) p' ∧
    (D.charDevice = true → p' = p) ∧
    D.serve st p (.write b) = (next st b, (p' : ℤ), ⟨(b.length : ℤ), []⟩)
  lseek : ∀ {st p}, D.charDevice = false → inv st p → inv st 0 ∧
    D.serve st p .lseek = (st, ((0 : ℕ) : ℤ), ⟨0, []⟩)
  read : ∀ {st p}, inv st p → inv st (max p (content st).length) ∧
    Conn.ReadsBody D st (content st) (max p (content st).length)
  reopen : ∀ {st p}, inv st p → inv st 0

section Appends

variable {σ : Type*} {D : Driver σ} {inv : σ → ℕ → Prop} {ok : σ → List UInt8 → Prop}
  {next : σ → List UInt8 → σ} {content : σ → List UInt8}

/-- Every write of the stream is admitted. -/
def AllOk (ok : σ → List UInt8 → Prop) (next : σ → List UInt8 → σ) : σ → List (List UInt8) → Prop
  | _, [] => True
  | st, b :: bs => ok st b ∧ AllOk ok next (next st b) bs

/-- The turns of a connection whose open file is at position `p`: the device build sends what lies
behind the position and moves it to the end, the file build sends everything. -/
def turnsFrom (D : Driver σ) (next : σ → List UInt8 → σ) (content : σ → List UInt8) :
    σ → ℕ → List (List UInt8) → List (Turn σ)
  | _, _, [] => []
  | st, p, b :: bs =>
    let st' := next st b
    if newline ∈ b then
      ⟨b, (content st').drop (if D.charDevice then p else 0), st'⟩ ::
        turnsFrom D next content st' (max p (content st').length) bs
    else ⟨b, [], st'⟩ :: turnsFrom D next content st' p bs

/-- The turns of connections one after the other. -/
def allTurnsFrom (D : Driver σ) (next : σ → List UInt8 → σ) (content : σ → List UInt8) :
    σ → List (List (List UInt8)) → List (List (Turn σ))
  | _, [] => []
  | st, bs :: bss =>
    turnsFrom D next content st 0 bs :: allTurnsFrom D next content (bs.foldl next st) bss

theorem allOk_append {st : σ} {bs cs : List (List UInt8)} :
    AllOk ok next st (bs ++ cs) ↔ AllOk ok next st bs ∧ AllOk ok next (bs.foldl next st) cs := by
  induction bs generalizing st with
  | nil => simp [AllOk]
  | cons b bs ih => simp only [List.cons_append, AllOk, ih, List.foldl_cons, and_assoc]

theorem allOk_true {st : σ} (bs : List (List UInt8)) : AllOk (fun _ _ => True) next st bs := by
  induction bs generalizing st with
  | nil => trivial
  | cons b bs ih => exact ⟨trivial, ih⟩

/-- From one `recv` to the end of the thread. -/
theorem Driver.Appends.reaches_done (h : D.Appends inv ok next content) {is : List Segment}
    {st : σ} {p r k : ℕ} {w : List UInt8} {u : Option (List UInt8 × List UInt8)}
    {t : List (Turn σ)} (hinv : inv st p) (hp : D.charDevice = true → p = r)
    (hok : AllOk ok next st (is.map Segment.bytes))
    (hplain : ∀ g ∈ is, g.request D.charDevice = none) :
    ∃ c, Conn.Reaches D ⟨st, p, ⟨.recv, .zero, k⟩, is, w, [], u, t⟩ c ∧ c.handler.pc = .done ∧
      c.turns = t ++ (u.toList.map fun v => ⟨v.1, v.2, st⟩) ++
        turnsFrom D next content st r (is.map Segment.bytes) ∧
      c.store = (is.map Segment.bytes).foldl next st ∧
      ∃ p', inv c.store p' := by
  induction is generalizing st p r k w u t with
  | nil => exact ⟨_, ⟨3, rfl⟩, rfl, by simp [turnsFrom, Conn.run, Conn.step, Handler.call,
      Handler.resume, Conn.allTurns], rfl, p, hinv⟩
  | cons g is ih =>
    obtain ⟨hg, hrest⟩ := hok
    obtain ⟨p', hinv', hp', hwrite⟩ := h.write hinv hg
    have hfrom : inv (next st g.bytes) (if D.charDevice then p' else 0) := by
      cases hD : D.charDevice with
      | true => exact hinv'
      | false => exact (h.lseek hD hinv').1
    obtain ⟨hinv'', hread⟩ := h.read hfrom
    have hturn := Conn.turn_write (k := k) (i := is) (w := w) (q := []) (u := u) (t := t)
      (hplain g List.mem_cons_self) hwrite (fun hD => (h.lseek hD hinv').2) hread
    have hplain' : ∀ g ∈ is, g.request D.charDevice = none := fun g hg =>
      hplain g (List.mem_cons_of_mem _ hg)
    have hfrom' : (if D.charDevice then p' else 0) = if D.charDevice then r else 0 := by
      split_ifs with hD
      · rw [hp' hD, hp hD]
      · rfl
    by_cases hn : newline ∈ g.bytes
    · -- the reply moves the position to the end of the content
      rw [if_pos hn, if_pos hn] at hturn
      obtain ⟨c, hc, hdone, hturns, hstore, hend⟩ := ih
        (r := max r (content (next st g.bytes)).length) hinv'' (fun hD => by rw [if_pos hD, hp' hD, hp hD]) hrest hplain'
      refine ⟨c, hturn.trans hc, hdone, ?_, hstore, hend⟩
      rw [hturns, List.map_cons, turnsFrom, if_pos hn, hfrom']
      simp
    · rw [if_neg hn, if_neg hn] at hturn
      obtain ⟨c, hc, hdone, hturns, hstore, hend⟩ := ih (r := r)
        hinv' (fun hD => by rw [hp' hD, hp hD]) hrest hplain'
      refine ⟨c, hturn.trans hc, hdone, ?_, hstore, hend⟩
      rw [hturns, List.map_cons, turnsFrom, if_neg hn]
      simp

/-- **A connection that sends data** comes to its end, with the turns of its stream. -/
theorem Driver.Appends.serves (h : D.Appends inv ok next content) {is : List Segment} {st : σ}
    {p : ℕ} (hinv : inv st p) (hok : AllOk ok next st (is.map Segment.bytes))
    (hplain : ∀ g ∈ is, g.request D.charDevice = none) :
    Serves D st is (turnsFrom D next content st 0 (is.map Segment.bytes))
        ((is.map Segment.bytes).foldl next st) ∧
      ∃ p', inv ((is.map Segment.bytes).foldl next st) p' := by
  obtain ⟨c, hc, hdone, hturns, hstore, hend⟩ := h.reaches_done (k := 0) (w := []) (u := none)
    (t := []) (h.reopen hinv) (fun _ => rfl) hok hplain
  refine ⟨⟨c, Conn.Reaches.trans ⟨2, rfl⟩ hc, hdone, ?_, hstore⟩, hstore ▸ hend⟩
  rw [hturns]
  simp

/-- Connections one after the other that send data. -/
theorem Driver.Appends.servesAll (h : D.Appends inv ok next content) {iss : List (List Segment)}
    {st : σ} {p : ℕ} (hinv : inv st p)
    (hok : AllOk ok next st (iss.flatten.map Segment.bytes))
    (hplain : ∀ g ∈ iss.flatten, g.request D.charDevice = none) :
    ServesAll D st iss (allTurnsFrom D next content st (iss.map (·.map Segment.bytes)))
      ((iss.flatten.map Segment.bytes).foldl next st) := by
  induction iss generalizing st p with
  | nil => exact ⟨rfl, rfl⟩
  | cons is iss ih =>
    rw [List.flatten_cons, List.map_append, allOk_append] at hok
    obtain ⟨hs, p', hinv'⟩ := h.serves hinv hok.1
      fun g hg => hplain g (List.mem_append_left _ hg)
    refine ⟨_, _, _, rfl, hs, ?_⟩
    rw [List.flatten_cons, List.map_append, List.foldl_append]
    exact ih hinv' hok.2 fun g hg => hplain g (List.mem_append_right _ hg)

end Appends

end Aesd
