import Aesd.Device.Seek
import Aesd.Server.Connection

/-!
# What a client gets back

A segment with a newline is answered with what lies in the data file behind the position of the
open file.  The file build moves the position to the start first; the device build does not, so
on one connection it sends each byte of the content once.

* `fileDriver_appends`, `deviceDriver_appends`: both data files accept and return bytes;
* `replies`: the replies of both builds, on every sequence of connections.
-/

namespace Aesd

open Conn

/-! ### The two data files -/

theorem fileDriver_appends :
    fileDriver.Appends (fun _ _ => True) (fun _ _ => True) (· ++ ·) id where
  write := fun {st _ b} _ _ => ⟨(st ++ b).length, trivial, fun h => absurd h (by decide), rfl⟩
  lseek := fun _ _ => ⟨trivial, rfl⟩
  read := by
    intro st p _
    refine ⟨trivial, fun pos _ => ?_⟩
    have hlen : ((st.drop pos).take bufferSize).length = min bufferSize (st.length - pos) := by
      rw [List.length_take, List.length_drop]
    have hdata : (st.drop pos).take ((st.drop pos).take bufferSize).length =
        (st.drop pos).take bufferSize := by
      rw [List.length_take, ← List.take_take, List.take_length]
    refine ⟨((st.drop pos).take bufferSize).length, by omega, ?_, ?_, ?_⟩
    · simp only [id, hlen, List.length_drop]; omega
    · rw [hlen]; simp only [id, bufferSize]; omega
    · simp only [fileDriver, id, Int.toNat_natCast, hdata]
      push_cast
      rfl
  reopen := fun _ => trivial

/-- A `write` of the device build finds memory. -/
def Fits (K : Kernel) (d : Dev) (b : List UInt8) : Prop :=
  b.length ≤ bufferSize ∧ d.pendingBytes.length + b.length ≤ K.kmallocMaxSize

instance (K : Kernel) (d : Dev) (b : List UInt8) : Decidable (Fits K d b) :=
  inferInstanceAs (Decidable (_ ∧ _))

/-- The device behind a `write`. -/
def Dev.append (K : Kernel) (d : Dev) (b : List UInt8) : Dev := (aesdWrite K d true (.served b)).1

/-- The bytes that can be read from the device. -/
def Dev.body (d : Dev) : List UInt8 := d.storedCommands.flatten

section Device

variable {K : Kernel} {d : Dev} {a : Log}

theorem Represents.append (h : Represents K d a) {b : List UInt8} (hb : Fits K d b) :
    Represents K (d.append K b) (a.accept b) ∧
      (aesdWrite K d true (.served b)).2 = b.length := by
  obtain ⟨hrep, hret⟩ := aesdWrite_refines h (.served b)
  have hbuf := served_buf hb.1
  have hacc : (WriteCall.served b).accepted = b := by
    unfold WriteCall.accepted
    rw [hbuf]
    exact List.take_length
  have hlog : logWrite K a (.served b) = (a.accept b, (b.length : ℤ)) := by
    unfold logWrite
    rw [hbuf, hacc]
    split_ifs with h0 hs
    · rw [List.length_eq_zero_iff.1 h0, RecordLog.accept_nil]
      rfl
    · rfl
    · refine absurd ⟨rfl, ?_⟩ hs
      rw [hbuf, ← h.pendingBytes]
      exact hb.2
  rw [hlog] at hrep hret
  exact ⟨hrep, hret⟩

theorem Represents.appends (h : Represents K d a) {bs : List (List UInt8)}
    (hok : AllOk (Fits K) (Dev.append K) d bs) :
    Represents K (bs.foldl (Dev.append K) d) (a.run bs) := by
  induction bs generalizing d a with
  | nil => exact h
  | cons b bs ih => exact ih (h.append hok.1).1 hok.2

theorem Represents.body (h : Represents K d a) : d.body = a.stored.flatten := by
  rw [Dev.body, h.storedCommands]

end Device

theorem deviceDriver_appends (K : Kernel) :
    (deviceDriver K).Appends (fun d p => (∃ a, Represents K d a) ∧ p < 2 ^ 63) (Fits K)
      (Dev.append K) Dev.body where
  write := by
    rintro d p b ⟨⟨a, ha⟩, hp⟩ hb
    obtain ⟨hrep, hret⟩ := ha.append hb
    refine ⟨p, ⟨⟨_, hrep⟩, hp⟩, fun _ => rfl, ?_⟩
    simp only [deviceDriver, FileCall.request, Request.serve, Ret.libc, hret]
    rw [if_neg (by omega)]
    rfl
  lseek := fun h => absurd h (by simp [deviceDriver])
  read := by
    rintro d p ⟨⟨a, ha⟩, hp⟩
    have hsmall := ha.stored_small
    have hlen : d.body.length = (a.stored.map List.length).sum := by
      rw [ha.body, List.length_flatten]
    have hmax : max p d.body.length < 2 ^ 63 := by omega
    refine ⟨⟨⟨a, ha⟩, hmax⟩, fun pos hpos => ?_⟩
    obtain ⟨n, hn, hle, hzero, hread⟩ :=
      aesdReadBody_content ha (by omega : pos < 2 ^ 63) (by decide : 0 < bufferSize)
    rw [← ha.body] at hle hzero hread
    refine ⟨n, hn, hle, hzero, ?_⟩
    simp only [deviceDriver, FileCall.request, Request.serve, aesdRead, if_true, hread, Ret.libc]
    rw [if_pos (by omega), if_neg (by omega)]
  reopen := fun h => ⟨h.1, by omega⟩

/-! ### The replies -/

/-- The replies on one connection of the device build: what lies behind position `p`, which each
reply moves to the end of the content. -/
def RepliesFrom {σ : Type*} (content : σ → List UInt8) : ℕ → List (Turn σ) → Prop
  | _, [] => True
  | p, t :: ts =>
    if newline ∈ t.segment then
      t.reply = (content t.store).drop p ∧
        RepliesFrom content (max p (content t.store).length) ts
    else t.reply = [] ∧ RepliesFrom content p ts

/-- The number of segments with a newline. -/
def newlines (bs : List (List UInt8)) : ℕ := bs.countP (newline ∈ ·)

section Turns

variable {σ : Type*} {D : Driver σ} {next : σ → List UInt8 → σ} {content : σ → List UInt8}

theorem turnsFrom_segments (st : σ) (p : ℕ) (bs : List (List UInt8)) :
    (turnsFrom D next content st p bs).map Turn.segment = bs := by
  induction bs generalizing st p with
  | nil => rfl
  | cons b bs ih =>
    unfold turnsFrom
    split_ifs <;> simp [ih]

theorem allTurnsFrom_segments (st : σ) (bss : List (List (List UInt8))) :
    (allTurnsFrom D next content st bss).map (·.map Turn.segment) = bss := by
  induction bss generalizing st with
  | nil => rfl
  | cons bs bss ih => simp only [allTurnsFrom, List.map_cons, turnsFrom_segments, ih]

theorem turnsFrom_device (hD : D.charDevice = true) (st : σ) (p : ℕ) (bs : List (List UInt8)) :
    RepliesFrom content p (turnsFrom D next content st p bs) := by
  induction bs generalizing st p with
  | nil => trivial
  | cons b bs ih =>
    by_cases hn : newline ∈ b
    · simp only [turnsFrom, RepliesFrom, hn, hD, if_true]
      exact ⟨trivial, ih _ _⟩
    · simp only [turnsFrom, RepliesFrom, hn, if_false]
      exact ⟨trivial, ih _ _⟩

theorem turnsFrom_file (hD : D.charDevice = false) (st : σ) (p : ℕ) (bs : List (List UInt8)) :
    ∀ t ∈ turnsFrom D next content st p bs,
      t.reply = if newline ∈ t.segment then content t.store else [] := by
  induction bs generalizing st p with
  | nil => simp [turnsFrom]
  | cons b bs ih =>
    intro t ht
    by_cases hn : newline ∈ b
    · simp only [turnsFrom, hn, if_true, hD, Bool.false_eq_true, if_false, List.drop_zero,
        List.mem_cons] at ht
      rcases ht with rfl | ht
      · simp [hn]
      · exact ih _ _ t ht
    · simp only [turnsFrom, hn, if_false, List.mem_cons] at ht
      rcases ht with rfl | ht
      · simp [hn]
      · exact ih _ _ t ht

theorem mem_allTurnsFrom {st : σ} {bss : List (List (List UInt8))} {ts : List (Turn σ)}
    (h : ts ∈ allTurnsFrom D next content st bss) :
    ∃ st' bs, ts = turnsFrom D next content st' 0 bs := by
  induction bss generalizing st with
  | nil => simp [allTurnsFrom] at h
  | cons bs bss ih =>
    rcases List.mem_cons.1 h with rfl | h
    · exact ⟨st, bs, rfl⟩
    · exact ih h

end Turns

section Agree

variable {K : Kernel} {d : Dev} {a : Log}

/-- A log of at most ten commands in which nothing waits is all there is. -/
theorem stored_eq_stream (hten : a.committed.length ≤ maxWriteOperationsSupported)
    (hpend : a.pending = []) : a.stored.flatten = a.stream := by
  unfold Log.stored RecordLog.stream List.rtake
  rw [hpend, List.append_nil, Nat.sub_eq_zero_of_le hten, List.drop_zero]

/-- On one connection with at most one reply, while no command is evicted. -/
theorem turnsFrom_agree (h : Represents K d a) {bs : List (List UInt8)} {p r : ℕ}
    (hok : AllOk (Fits K) (Dev.append K) d bs)
    (hten : a.committed.length + newlines bs ≤ maxWriteOperationsSupported)
    (hone : newlines bs = 0 ∨ p = 0 ∧ newlines bs ≤ 1) :
    (turnsFrom fileDriver (· ++ ·) id a.stream r bs).map Turn.reply =
      (turnsFrom (deviceDriver K) (Dev.append K) Dev.body d p bs).map Turn.reply := by
  induction bs generalizing d a p r with
  | nil => rfl
  | cons b bs ih =>
    obtain ⟨hb, hbs⟩ := hok
    have h' := (h.append hb).1
    have hstream := RecordLog.stream_accept a b
    by_cases hn : newline ∈ b
    · -- nothing is evicted, so the device holds the whole stream, like the file
      have hcount : newlines (b :: bs) = newlines bs + 1 := by simp [newlines, hn]
      obtain ⟨hc, hp⟩ := a.accept_mem hn
      have hlen : (a.accept b).committed.length = a.committed.length + 1 := by
        rw [hc, List.length_append, List.length_singleton]
      have hbody : (d.append K b).body = a.stream ++ b := by
        rw [h'.body, stored_eq_stream (by omega) hp, hstream]
      have hrest := ih h' hbs (p := max p (d.append K b).body.length)
        (r := max r (a.stream ++ b).length) (by omega) (by omega)
      rw [hstream] at hrest
      have hzero : p = 0 := by omega
      simp only [turnsFrom, hn, if_true, List.map_cons]
      refine List.cons_eq_cons.2 ⟨?_, hrest⟩
      change (a.stream ++ b).drop 0 = (d.append K b).body.drop p
      rw [hzero, hbody]
    · have hcount : newlines (b :: bs) = newlines bs := by simp [newlines, hn]
      have hlen : (a.accept b).committed.length = a.committed.length := by
        rw [(a.accept_not_mem hn).1]
      have hrest := ih h' hbs (p := p) (r := r) (by omega) (by omega)
      rw [hstream] at hrest
      simp only [turnsFrom, hn, if_false, List.map_cons, hrest]

theorem allTurnsFrom_agree (h : Represents K d a) {bss : List (List (List UInt8))}
    (hok : AllOk (Fits K) (Dev.append K) d bss.flatten)
    (hten : a.committed.length + newlines bss.flatten ≤ maxWriteOperationsSupported)
    (hone : ∀ bs ∈ bss, newlines bs ≤ 1) :
    (allTurnsFrom fileDriver (· ++ ·) id a.stream bss).map (·.map Turn.reply) =
      (allTurnsFrom (deviceDriver K) (Dev.append K) Dev.body d bss).map (·.map Turn.reply) := by
  induction bss generalizing d a with
  | nil => rfl
  | cons bs bss ih =>
    rw [List.flatten_cons, allOk_append] at hok
    have hcount : newlines (bs :: bss).flatten = newlines bs + newlines bss.flatten := by
      simp [newlines, List.countP_append]
    have hrun := RecordLog.committed_length_run a bs
    have hfold : bs.foldl (· ++ ·) a.stream = (a.run bs).stream := by
      have hmap : bs.foldl (· ++ id ·) a.stream = a.stream ++ (bs.map id).flatten :=
        List.foldl_append_eq_append
      rw [List.map_id] at hmap
      rw [RecordLog.stream_run]
      exact hmap
    have hrest := ih (h.appends hok.1) hok.2 (by unfold newlines at *; omega)
      fun cs hcs => hone cs (List.mem_cons_of_mem _ hcs)
    simp only [allTurnsFrom, List.map_cons, hfold, hrest]
    congr 1
    exact turnsFrom_agree h hok.1 (by omega) (Or.inr ⟨rfl, hone bs List.mem_cons_self⟩)

end Agree

/-- In the file build, and without the prefix of a request, a segment is data. -/
theorem Segment.request_eq_none {g : Segment} (c : Bool) (h : ¬ ioctlIdString <+: g.bytes) :
    g.request c = none := by
  have hfront : (Buffer.zero.store g.bytes).bytes.take ioctlIdString.length ≠ ioctlIdString := by
    rwa [ne_eq, ← strncmp_ioctlIdString, Buffer.strncmp_store_zero g.length_le]
  unfold Segment.request Handler.request seekRequest
  rw [if_neg hfront]
  exact ite_self _

/-- **Replies.**  On every sequence of connections whose segments carry no request, and as long as
memory is found, both builds serve all of them.  The file build answers each segment with a newline
with the whole content; the device build with what lies behind the content it has sent before on
the same connection.  The answers agree while at most ten commands are committed and no connection
brings a second one. -/
theorem replies (K : Kernel) (iss : List (List Segment))
    (hplain : ∀ g ∈ iss.flatten, ¬ ioctlIdString <+: g.bytes)
    (hmem : AllOk (Fits K) (Dev.append K) aesdInitModule (iss.flatten.map Segment.bytes)) :
    ∃ fss file dss dev,
      ServesAll fileDriver [] iss fss file ∧
      ServesAll (deviceDriver K) aesdInitModule iss dss dev ∧
      fss.map (·.map Turn.segment) = iss.map (·.map Segment.bytes) ∧
      dss.map (·.map Turn.segment) = iss.map (·.map Segment.bytes) ∧
      (∀ fs ∈ fss, ∀ t ∈ fs, t.reply = if newline ∈ t.segment then t.store else []) ∧
      (∀ ds ∈ dss, RepliesFrom Dev.body 0 ds) ∧
      (newlines (iss.flatten.map Segment.bytes) ≤ 10 →
        (∀ is ∈ iss, newlines (is.map Segment.bytes) ≤ 1) →
        fss.map (·.map Turn.reply) = dss.map (·.map Turn.reply)) := by
  have hinit := init_represents K
  have hfile : ServesAll fileDriver [] iss _ _ := fileDriver_appends.servesAll (p := 0) trivial
    (allOk_true (iss.flatten.map Segment.bytes)) fun g hg => g.request_eq_none _ (hplain g hg)
  have hdev := (deviceDriver_appends K).servesAll (p := 0) ⟨⟨_, hinit⟩, by decide⟩ hmem
    fun g hg => g.request_eq_none _ (hplain g hg)
  refine ⟨_, _, _, _, hfile, hdev, allTurnsFrom_segments _ _, allTurnsFrom_segments _ _, ?_, ?_,
    fun hten hone => ?_⟩
  · intro fs hfs t ht
    obtain ⟨st, bs, rfl⟩ := mem_allTurnsFrom hfs
    exact turnsFrom_file rfl _ _ _ t ht
  · intro ds hds
    obtain ⟨st, bs, rfl⟩ := mem_allTurnsFrom hds
    exact turnsFrom_device rfl _ _ _
  · rw [List.map_flatten] at hmem hten
    refine allTurnsFrom_agree hinit hmem (by simpa [RecordLog.empty] using hten) fun bs hbs => ?_
    obtain ⟨is, his, rfl⟩ := List.mem_map.1 hbs
    exact hone is his

/-- Two connections, with one command each. -/
theorem replies_two_connections :
    let iss : List (List Segment) := [[⟨[97, newline], [], by decide, by decide⟩],
      [⟨[98], [], by decide, by decide⟩, ⟨[99, newline], [], by decide, by decide⟩]]
    ∃ fss file dss dev, ServesAll fileDriver [] iss fss file ∧
      ServesAll (deviceDriver .x86) aesdInitModule iss dss dev ∧
      fss.map (·.map Turn.reply) = dss.map (·.map Turn.reply) := by
  intro iss
  obtain ⟨fss, file, dss, dev, hfile, hdev, -, -, -, -, hagree⟩ := replies .x86 iss (by decide)
    ⟨by decide +kernel, by decide +kernel, by decide +kernel, trivial⟩
  exact ⟨fss, file, dss, dev, hfile, hdev, hagree (by decide) (by decide)⟩

/-- Two commands on one connection of the device build: the second answer lacks the first. -/
theorem replies_fails :
    let is : List Segment := [⟨[97, newline], [], by decide, by decide⟩,
      ⟨[98, newline], [], by decide, by decide⟩]
    ∃ ts d, Serves (deviceDriver .x86) aesdInitModule is ts d ∧
      ¬ ∀ t ∈ ts, newline ∈ t.segment → t.reply = t.store.body := by
  intro is
  have hok : AllOk (Fits .x86) (Dev.append .x86) aesdInitModule (is.map Segment.bytes) :=
    ⟨by decide +kernel, by decide +kernel, trivial⟩
  have hplain : ∀ g ∈ is, g.request (deviceDriver .x86).charDevice = none := by decide +kernel
  obtain ⟨hserves, -⟩ := (deviceDriver_appends .x86).serves (p := 0)
    ⟨⟨_, init_represents .x86⟩, by decide⟩ hok hplain
  refine ⟨_, _, hserves, fun hall => ?_⟩
  have hturns : (turnsFrom (deviceDriver .x86) (Dev.append .x86) Dev.body aesdInitModule 0
      [[97, newline], [98, newline]]).map (fun t => (t.segment, t.reply, t.store.body)) =
      [([97, newline], [97, newline], [97, newline]),
        ([98, newline], [98, newline], [97, newline, 98, newline])] := by decide +kernel
  obtain ⟨t, ht, heq⟩ := List.mem_map.1 (hturns ▸ List.mem_cons_of_mem _ List.mem_cons_self)
  simp only [Prod.mk.injEq] at heq
  obtain ⟨hseg, hreply, hbody⟩ := heq
  have hsame := hall t ht (by rw [hseg]; decide)
  rw [hreply, hbody] at hsame
  exact absurd hsame (by decide)

end Aesd
