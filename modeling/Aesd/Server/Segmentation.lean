import Aesd.Server.LogServer
import Aesd.Server.Storage

/-!
# How TCP cuts the client's stream

The handler looks for a request at the front of every segment and nowhere else.  What it writes
and what it asks for is therefore a function of the segments, and for packets it is a function of
the packets only if every seek command arrives as one segment and no other segment looks like one
(`Aligned`).

The device can refuse a segment, which ends the server: a request that names no byte of a stored
command, or data that it has no memory for.  Whether it does depends on the commands that it holds,
and so on the segments too: what arrives in one segment behind a newline goes into the same command.

* `Dev.taken`: the segments that the device takes, up to the first that it refuses;
* `waits_taken`, `connection_ends`: what a connection comes to;
* `seek_segmentation`: two aligned segmentations of one stream.
-/

namespace Aesd

/-! ### What the device takes -/

/-- The segments that the device takes, up to the first that it refuses. -/
def Dev.taken (K : Kernel) : Dev → List Segment → List Segment
  | _, [] => []
  | d, g :: gs => if d.Takes K g then g :: taken K (d.behind K g) gs else []

/-- The writes that are made for the segments. -/
def dataWrites (gs : List Segment) : List WriteCall :=
  (gs.filter (·.request true = none)).map fun g => .served g.bytes

section Taken

variable {K : Kernel} {d : Dev} {a : Log} {gs : List Segment}

theorem Dev.taken_prefix (K : Kernel) (d : Dev) (gs : List Segment) : d.taken K gs <+: gs := by
  induction gs generalizing d with
  | nil => exact List.prefix_rfl
  | cons g gs ih =>
    unfold Dev.taken
    split_ifs
    · exact List.cons_prefix_cons.2 ⟨rfl, ih _⟩
    · exact List.nil_prefix

theorem foldl_behind (K : Kernel) (d : Dev) (gs : List Segment) :
    gs.foldl (Dev.behind K) d = (aesdWrites K d (dataWrites gs)).1 := by
  induction gs generalizing d with
  | nil => rfl
  | cons g gs ih =>
    rw [List.foldl_cons, ih]
    unfold Dev.behind dataWrites
    cases hr : g.request true with
    | some s => rw [List.filter_cons_of_neg (by simp [hr])]
    | none =>
      rw [List.filter_cons_of_pos (by simp [hr])]
      rfl

/-- A segment that is taken leaves the device represented. -/
theorem Represents.behind (h : Represents K d a) {g : Segment} (hg : d.Takes K g) :
    ∃ a', Represents K (d.behind K g) a' := by
  unfold Dev.Takes at hg
  unfold Dev.behind
  cases hr : g.request true with
  | some s => exact ⟨a, h⟩
  | none =>
    rw [hr] at hg
    exact ⟨_, (h.append hg).1⟩

/-- **What the device has taken** are the bytes of the segments that it takes. -/
theorem takenStream_taken (h : Represents K d a) (gs : List Segment) :
    takenStream (aesdWriteSteps K d (dataWrites (d.taken K gs))) =
      writtenOf true (d.taken K gs) := by
  induction gs generalizing d a with
  | nil => rfl
  | cons g gs ih =>
    unfold Dev.taken
    split_ifs with hg
    · obtain ⟨a', h'⟩ := h.behind hg
      have hrest := ih h'
      unfold Dev.Takes at hg
      unfold writtenOf dataWrites at hrest ⊢
      unfold Dev.behind at hrest ⊢
      cases hr : g.request true with
      | some s =>
        simp only [hr] at hrest ⊢
        rw [List.filter_cons_of_neg (by simp [hr]), hrest, List.flatMap_cons, if_neg (by simp [hr]),
          List.nil_append]
      | none =>
        rw [hr] at hg
        simp only [hr] at hrest ⊢
        have htaken : (writeStep K d (.served g.bytes)).taken = g.bytes := by
          unfold WriteStep.taken writeStep
          dsimp only
          rw [(h.append hg).2, served_buf g.length_le, Int.toNat_natCast, List.take_length]
        rw [List.filter_cons_of_pos (by simp [hr]), List.map_cons, List.flatMap_cons,
          if_pos hr, ← hrest]
        change takenStream (writeStep K d (.served g.bytes) :: _) = _
        unfold takenStream
        rw [List.map_cons, List.flatten_cons, htaken]
        rfl
    · rfl

end Taken

/-! ### What a connection comes to -/

namespace Conn

/-- The handler has come to where it makes no more calls. -/
def EndsIn {σ : Type*} (D : Driver σ) (c c' : Conn σ) : Prop :=
  Reaches D c c' ∧ c'.handler.call = none

variable {K : Kernel} {d : Dev} {a : Log}

/-- From one `recv` to the end of the handler: it comes to the end of the thread if the device takes
all segments, and the first one that the device refuses ends it. -/
theorem waits_taken {c : Conn Dev} {v : View} {gs : List Segment} (h : c.Waits K v gs) :
    let hs := c.store.taken K gs
    ∃ c', Reaches (deviceDriver K) c c' ∧
      c'.handler.pc = (if hs = gs then .done else .cleanup) ∧
      c'.store = hs.foldl (Dev.behind K) c.store ∧
      c'.requests = c.requests ++ requestsOf true (gs.take (hs.length + 1)) ∧
      (hs = gs → c'.written = c.written ++ writtenOf true gs) := by
  induction gs generalizing c v with
  | nil =>
    obtain ⟨st, pos, ⟨pc, b, k⟩, i, w, q, u, t⟩ := c
    obtain ⟨hpc, hb, hi, -, -, -⟩ := h
    simp only at hpc hb hi
    subst hpc hb hi
    exact ⟨_, ⟨3, rfl⟩, rfl, rfl, (List.append_nil _).symm, fun _ => (List.append_nil _).symm⟩
  | cons g gs ih =>
    have hiff := receive_isSome_iff h.represents v.pos g
    cases hv : v.receive K g with
    | none =>
      rw [show View.receive K ⟨v.log, v.pos⟩ g = none from hv] at hiff
      have hnot : ¬ c.store.Takes K g := fun hg => by simpa using hiff.2 hg
      obtain ⟨c', hc, hpc, -, -, hst, hreq⟩ := waits_refused h hv
      simp only [Dev.taken, if_neg hnot]
      refine ⟨c', hc, hpc, hst, ?_, fun hnil => absurd hnil (by simp)⟩
      rw [hreq]
      simp [requestsOf, List.filterMap_cons]
      cases g.request true <;> rfl
    | some v' =>
      rw [show View.receive K ⟨v.log, v.pos⟩ g = some v' from hv] at hiff
      have hg : c.store.Takes K g := hiff.1 rfl
      obtain ⟨c₁, hc₁, hwaits, -, hst₁, hreq₁, hw₁⟩ := waits_receive h hv
      obtain ⟨c', hc, hpc, hst, hreq, hw⟩ := ih hwaits
      rw [hst₁] at hpc hst hreq hw
      simp only [Dev.taken, if_pos hg, List.cons.injEq, true_and]
      refine ⟨c', hc₁.trans hc, hpc, hst, ?_, fun hall => ?_⟩
      · rw [hreq, hreq₁, List.length_cons, List.take_succ_cons, List.append_assoc]
        unfold requestsOf
        rw [List.filterMap_cons]
        cases g.request true <;> rfl
      · rw [hw hall, hw₁, List.append_assoc]
        rfl

/-- **A connection has one end.** -/
theorem connection_ends (h : Represents K d a) (gs : List Segment) :
    let hs := d.taken K gs
    ∃ c, (∀ c', EndsIn (deviceDriver K) (.start d gs) c' ↔ c' = c) ∧
      c.handler.pc = (if hs = gs then .done else .cleanup) ∧
      c.store = (aesdWrites K d (dataWrites hs)).1 ∧
      c.requests = requestsOf true (gs.take (hs.length + 1)) ∧
      (hs = gs → c.written = writtenOf true gs) := by
  intro hs
  have hwaits : Waits K ⟨d, 0, ⟨.recv, .zero, 0⟩, gs, [], [], none, []⟩ ⟨a, 0⟩ gs :=
    ⟨rfl, rfl, rfl, rfl, h, by simp⟩
  obtain ⟨c, hc, hpc, hst, hreq, hw⟩ := waits_taken hwaits
  have hreach : Reaches (deviceDriver K) (.start d gs) c := Reaches.trans ⟨2, rfl⟩ hc
  have hend : c.handler.call = none := by
    unfold Handler.call
    rw [hpc]
    split_ifs <;> rfl
  refine ⟨c, fun c' => ⟨fun h' => h'.1.end_unique hreach h'.2 hend, ?_⟩, hpc,
    hst.trans (foldl_behind ..), hreq, hw⟩
  rintro rfl
  exact ⟨hreach, hend⟩

end Conn

/-! ### Packets -/

/-- The segments carry the packets, each seek command in one segment of its own, and no other
segment is taken for a request. -/
inductive Aligned : List (List UInt8) → List Segment → Prop
  | nil : Aligned [] []
  | seek {g : Segment} {ps : List (List UInt8)} {gs : List Segment} :
      (seekCommand g.bytes).isSome → Aligned ps gs → Aligned (g.bytes :: ps) (g :: gs)
  | data {qs ps : List (List UInt8)} {hs gs : List Segment} :
      (∀ q ∈ qs, seekCommand q = none) → (∀ g ∈ hs, g.request true = none) →
      (hs.map Segment.bytes).flatten = qs.flatten → Aligned ps gs → Aligned (qs ++ ps) (hs ++ gs)

/-- The packets that are no seek commands, put together. -/
def dataOf (ps : List (List UInt8)) : List UInt8 := (ps.filter (seekCommand · = none)).flatten

theorem Segment.request_of_seekCommand {g : Segment} {s : Seekto}
    (h : seekCommand g.bytes = some s) : g.request true = some s := by
  unfold Segment.request Handler.request
  rw [if_pos rfl, Buffer.store_zero g.length_le]
  exact seekRequest_of_seekCommand h _ _

/-- What the handler makes of aligned segments depends on the packets alone. -/
theorem Aligned.settled {ps : List (List UInt8)} {gs : List Segment} (h : Aligned ps gs) :
    writtenOf true gs = dataOf ps ∧ requestsOf true gs = ps.filterMap seekCommand := by
  induction h with
  | nil => exact ⟨rfl, rfl⟩
  | @seek g ps gs hseek _ ih =>
    obtain ⟨s, hs⟩ := Option.isSome_iff_exists.1 hseek
    have hreq := Segment.request_of_seekCommand hs
    obtain ⟨ih1, ih2⟩ := ih
    unfold writtenOf dataOf requestsOf at *
    refine ⟨?_, ?_⟩
    · rw [List.flatMap_cons, if_neg (by rw [hreq]; simp), List.nil_append, ih1,
        List.filter_cons_of_neg (by rw [hs]; simp)]
    · rw [List.filterMap_cons_some hreq, List.filterMap_cons_some hs, ih2]
  | @data qs ps hs gs hq hg hflat _ ih =>
    have hw := writtenOf_plain hg
    have hall : qs.filter (seekCommand · = none) = qs :=
      List.filter_eq_self.2 fun q hq' => decide_eq_true (hq q hq')
    have hnone : qs.filterMap seekCommand = [] := List.filterMap_eq_nil_iff.2 hq
    have hnone' : hs.filterMap (·.request true) = [] := List.filterMap_eq_nil_iff.2 hg
    unfold writtenOf dataOf requestsOf at *
    obtain ⟨ih1, ih2⟩ := ih
    refine ⟨?_, ?_⟩
    · rw [List.flatMap_append, hw, ih1, List.filter_append, hall, List.flatten_append, hflat]
    · rw [List.filterMap_append, List.filterMap_append, hnone, hnone', ih2]

/-- How a connection ends that brings the packets `ps` in the segments `is` to a device behind the
writes `ws`; `hs` are the segments that the device takes. -/
structure Conn.EndOf (K : Kernel) (ws : List WriteCall) (ps : List (List UInt8))
    (is hs : List Segment) (c : Conn Dev) : Prop where
  pc : c.handler.pc = if hs = is then .done else .cleanup
  requests : c.requests <+: ps.filterMap seekCommand
  bytes : writtenOf true hs <+: dataOf ps
  complete : hs = is → c.requests = ps.filterMap seekCommand ∧ c.written = dataOf ps ∧
    writtenOf true hs = dataOf ps
  store : c.store = (aesdWrites K aesdInitModule (ws ++ dataWrites hs)).1
  stream : takenStream (aesdWriteSteps K aesdInitModule (ws ++ dataWrites hs)) =
    takenStream (aesdWriteSteps K aesdInitModule ws) ++ writtenOf true hs
  evicted : ∃ D : List (List UInt8),
    takenStream (aesdWriteSteps K aesdInitModule (ws ++ dataWrites hs)) =
      D.flatten ++ c.store.storedCommands.flatten ++ c.store.pendingBytes ∧
    D ++ c.store.storedCommands = commits (aesdWriteSteps K aesdInitModule (ws ++ dataWrites hs)) ∧
    D.length = (commits (aesdWriteSteps K aesdInitModule (ws ++ dataWrites hs))).length - 10

/-- The end of one aligned segmentation. -/
theorem Aligned.endOf {ps : List (List UInt8)} {is : List Segment} (h : Aligned ps is) (K : Kernel)
    (ws : List WriteCall) :
    let d := (aesdWrites K aesdInitModule ws).1
    ∃ c, (∀ c', Conn.EndsIn (deviceDriver K) (.start d is) c' ↔ c' = c) ∧
      c.EndOf K ws ps is (d.taken K is) := by
  intro d
  obtain ⟨a, ha, -⟩ := steps_log (init_represents K) ws
  obtain ⟨hwritten, hrequests⟩ := h.settled
  obtain ⟨c, hone, hpc, hst, hreq, hw⟩ := Conn.connection_ends ha is
  obtain ⟨rest, hrest⟩ := Dev.taken_prefix K d is
  have hstore : c.store = (aesdWrites K aesdInitModule (ws ++ dataWrites (d.taken K is))).1 := by
    rw [hst, aesdWrites_append_fst]
  refine ⟨c, hone, hpc, ?_, ?_, fun hall => ?_, hstore, ?_, ?_⟩
  · rw [hreq, ← hrequests]
    exact (List.take_prefix _ _).filterMap _
  · rw [← hwritten]
    nth_rewrite 2 [← hrest]
    unfold writtenOf
    rw [List.flatMap_append]
    exact List.prefix_append _ _
  · refine ⟨?_, (hw hall).trans hwritten, by rw [hall, hwritten]⟩
    rw [hreq, hall, List.take_of_length_le (Nat.le_succ _), hrequests]
  · rw [aesdWriteSteps_append, takenStream_append, takenStream_taken ha]
  · rw [hstore]
    exact evicted_commands K _

/-- **Segmentation.**  On a device that has been written to before, let the packets of a client
arrive in two aligned segmentations.  Each connection comes to one end: to that of the thread
exactly if the device takes all segments, and to `cleanup` at the first that it refuses.  If both
come to the end of the thread, they have issued the same requests, those of the seek commands in
order, and the devices have taken the same bytes, those of the other packets; in any case what has
been issued and taken is the beginning of that.  Each device holds the last ten of the commands that
it has committed, and the bytes behind them. -/
theorem seek_segmentation (K : Kernel) (ws : List WriteCall) (ps : List (List UInt8))
    (is₁ is₂ : List Segment) (h₁ : Aligned ps is₁) (h₂ : Aligned ps is₂) :
    let d := (aesdWrites K aesdInitModule ws).1
    let hs₁ := d.taken K is₁
    let hs₂ := d.taken K is₂
    ∃ c₁ c₂ : Conn Dev,
      (∀ c, Conn.EndsIn (deviceDriver K) (.start d is₁) c ↔ c = c₁) ∧
      (∀ c, Conn.EndsIn (deviceDriver K) (.start d is₂) c ↔ c = c₂) ∧
      (c₁.handler.pc = .done → c₂.handler.pc = .done →
        c₁.requests = c₂.requests ∧ c₁.written = c₂.written ∧
        takenStream (aesdWriteSteps K aesdInitModule (ws ++ dataWrites hs₁)) =
          takenStream (aesdWriteSteps K aesdInitModule (ws ++ dataWrites hs₂))) ∧
      c₁.EndOf K ws ps is₁ hs₁ ∧ c₂.EndOf K ws ps is₂ hs₂ := by
  intro d hs₁ hs₂
  obtain ⟨c₁, hone₁, hend₁⟩ := h₁.endOf K ws
  obtain ⟨c₂, hone₂, hend₂⟩ := h₂.endOf K ws
  have hall : ∀ {is hs : List Segment} {c : Conn Dev}, c.EndOf K ws ps is hs →
      c.handler.pc = .done → hs = is := by
    intro is hs c hend hd
    by_contra hne
    have hpc := hend.pc
    rw [hd, if_neg hne] at hpc
    exact absurd hpc (by decide)
  refine ⟨c₁, c₂, hone₁, hone₂, fun hd₁ hd₂ => ?_, hend₁, hend₂⟩
  obtain ⟨hreq₁, hw₁, hb₁⟩ := hend₁.complete (hall hend₁ hd₁)
  obtain ⟨hreq₂, hw₂, hb₂⟩ := hend₂.complete (hall hend₂ hd₂)
  exact ⟨hreq₁.trans hreq₂.symm, hw₁.trans hw₂.symm,
    by rw [hend₁.stream, hend₂.stream, hb₁, hb₂]⟩

/-- A command to be stored, and a seek to it, `AESDCHAR_IOCSEEKTO:0,0`: in two segments, or in
three. -/
theorem seek_segmentation_two_ways :
    let g : Segment := ⟨ioctlIdString ++ [48, comma, 48, newline], [], by decide, by decide⟩
    let is₁ : List Segment := [⟨[97, newline], [], by decide, by decide⟩] ++ [g]
    let is₂ : List Segment :=
      [⟨[97], [], by decide, by decide⟩, ⟨[newline], [], by decide, by decide⟩] ++ [g]
    ∃ c₁ c₂, Conn.EndsIn (deviceDriver .x86) (.start aesdInitModule is₁) c₁ ∧
      Conn.EndsIn (deviceDriver .x86) (.start aesdInitModule is₂) c₂ ∧
      c₁.requests = c₂.requests ∧ c₁.written = c₂.written := by
  intro g is₁ is₂
  have hseek : Aligned [g.bytes] [g] := .seek (by decide) .nil
  have h₁ : Aligned ([[97, newline]] ++ [g.bytes]) is₁ :=
    .data (by decide) (by decide +kernel) (by decide) hseek
  have h₂ : Aligned ([[97, newline]] ++ [g.bytes]) is₂ :=
    .data (by decide) (by decide +kernel) (by decide) hseek
  obtain ⟨c₁, c₂, hone₁, hone₂, hsame, hend₁, hend₂⟩ := seek_segmentation .x86 [] _ is₁ is₂ h₁ h₂
  have hall₁ : aesdInitModule.taken .x86 is₁ = is₁ := by
    have hlen : (aesdInitModule.taken .x86 is₁).length = is₁.length := by decide +kernel
    exact (Dev.taken_prefix ..).eq_of_length hlen
  have hall₂ : aesdInitModule.taken .x86 is₂ = is₂ := by
    have hlen : (aesdInitModule.taken .x86 is₂).length = is₂.length := by decide +kernel
    exact (Dev.taken_prefix ..).eq_of_length hlen
  obtain ⟨hreq, hw, -⟩ := hsame (hend₁.pc.trans (if_pos hall₁)) (hend₂.pc.trans (if_pos hall₂))
  exact ⟨c₁, c₂, (hone₁ c₁).2 rfl, (hone₂ c₂).2 rfl, hreq, hw⟩

/-- Two streams.  In one segment with what comes before it, the seek command is stored and not
executed.  And where two packets arrive in one segment, they are one command: the seek to the second
one is refused, though it arrives as a segment of its own, and what follows is never stored. -/
theorem seek_segmentation_fails :
    let line := ioctlIdString ++ [48, comma, 48, newline]
    let is₁ : List Segment := [⟨[97, newline], [], by decide, by decide⟩,
      ⟨line, [], by decide, by decide⟩]
    let is₂ : List Segment := [⟨[97, newline] ++ line, [], by decide, by decide⟩]
    let c₁ := Conn.run (deviceDriver .x86) (.start aesdInitModule is₁) 20
    let c₂ := Conn.run (deviceDriver .x86) (.start aesdInitModule is₂) 20
    let last : List Segment :=
      [⟨ioctlIdString ++ [49, comma, 48, newline], [], by decide, by decide⟩,
        ⟨[99, newline], [], by decide, by decide⟩]
    let is₃ : List Segment := [⟨[97, newline], [], by decide, by decide⟩,
      ⟨[98, newline], [], by decide, by decide⟩] ++ last
    let is₄ : List Segment := [⟨[97, newline, 98, newline], [], by decide, by decide⟩] ++ last
    let c₃ := Conn.run (deviceDriver .x86) (.start aesdInitModule is₃) 40
    let c₄ := Conn.run (deviceDriver .x86) (.start aesdInitModule is₄) 40
    ((is₁.map Segment.bytes).flatten = (is₂.map Segment.bytes).flatten ∧
      c₁.handler.pc = .done ∧ c₂.handler.pc = .done ∧
      c₁.requests = [⟨0, 0⟩] ∧ c₂.requests = [] ∧
      c₁.written = [97, newline] ∧ c₂.written = [97, newline] ++ line) ∧
    (is₃.map Segment.bytes).flatten = (is₄.map Segment.bytes).flatten ∧
      c₃.handler.pc = .done ∧ c₄.handler.pc = .cleanup ∧
      c₃.store.storedCommands = [[97, newline], [98, newline], [99, newline]] ∧
      c₄.store.storedCommands = [[97, newline, 98, newline]] := by
  decide +kernel

end Aesd
