import Aesd.Device.Session
import Aesd.Lib.Window

/-!
# A reader that follows the writers

`f_pos` counts from the oldest stored command, so it does not move when a command is evicted, and
the bytes behind it do.  A reader that never seeks therefore finds itself further on in the stream
of all bytes written, by as many bytes as have been evicted; whether it had read those makes no
difference.

* `call_position`: what one call does to the position of a file;
* `pieces_follow`: the reads on a file see the stream through the window of the stored commands;
* `reader_follows`: the same from the loading of the module on.
-/

namespace Aesd

/-- The call moves the position of its file without reading. -/
def Request.seeks : Request → Bool
  | .llseek _ _ | .ioctl _ _ => true
  | .read _ _ | .write _ => false

/-- How many bytes the device holds. -/
def Dev.held (d : Dev) : ℕ := d.storedCommands.flatten.length + d.pendingBytes.length

/-- The bytes of the commands that have been evicted. -/
def Log.evicted (a : Log) : List UInt8 :=
  (a.committed.take (a.committed.length - maxWriteOperationsSupported)).flatten

theorem Log.stream_eq (a : Log) : a.stream = a.evicted ++ (a.stored.flatten ++ a.pending) := by
  have hsplit : a.committed.take (a.committed.length - maxWriteOperationsSupported) ++ a.stored =
      a.committed := List.take_append_drop _ _
  rw [← List.append_assoc, Log.evicted, ← List.flatten_append, hsplit]
  rfl

/-- What the device holds at a position is in the stream behind all that has been evicted. -/
theorem Log.prefix_stream {a : Log} {q : ℕ} {data : List UInt8}
    (h : data <+: a.stored.flatten.drop q) (hne : data ≠ []) (T : List UInt8) :
    data <+: (a.stream ++ T).drop (a.evicted.length + q) := by
  have hq : q ≤ a.stored.flatten.length := by
    by_contra hgt
    rw [List.drop_eq_nil_of_le (by omega), List.prefix_nil] at h
    exact hne h
  rw [a.stream_eq, List.append_assoc, ← List.drop_drop, List.drop_left, List.append_assoc,
    List.drop_append_of_le_length hq]
  exact h.trans (List.prefix_append _ _)

namespace Session

/-- What reads on file `f` get, with the number of bytes that had left the device by then; `n` bytes
have been taken from the users before. -/
def pieces (K : Kernel) (f : ℕ) (s : Session) (n : ℕ) : List Invocation → List (Piece UInt8)
  | [] => []
  | c :: cs =>
    let r := call K s c
    let rest := pieces K f r.1 (n + (c.request.taken r.2.retval).length) cs
    if c.file = f ∧ r.2.data ≠ [] then ⟨n - s.dev.held, r.2.data⟩ :: rest else rest

section Follow

variable {K : Kernel} {s : Session} {a : Log} {f q : ℕ}

theorem held_eq {d : Dev} (h : Represents K d a) : a.stream.length - d.held = a.evicted.length := by
  rw [a.stream_eq, Dev.held, h.storedCommands, h.pendingBytes]
  simp only [List.length_append]
  omega

/-- The body of a read: the bytes it returns are the next ones, and it moves on behind them. -/
theorem readBody_position {d : Dev} (h : Represents K d a) (hsmall : q < 2 ^ 63) (count : ℕ)
    (fault : Bool) :
    let r := aesdReadBody d q count fault
    (if 0 ≤ r.retval then r.fPos else q) = (q + r.data.length : ℕ) ∧
      q + r.data.length < 2 ^ 63 ∧ r.data <+: a.stored.flatten.drop q := by
  have hstored := h.stored_small
  rw [← List.length_flatten] at hstored
  cases fault with
  | true =>
    have hfault : (aesdReadBody d q count true).data = [] ∧
        (aesdReadBody d q count true).fPos = q := by
      unfold aesdReadBody
      cases d.circularBuffer.findEntryOffsetForFpos (CInt.toSize q) with
      | none => exact ⟨rfl, rfl⟩
      | some i => exact ⟨rfl, rfl⟩
    intro r
    rw [hfault.1, hfault.2, ite_self]
    exact ⟨rfl, hsmall, List.nil_prefix⟩
  | false =>
    rcases Nat.lt_or_ge q a.stored.flatten.length with hin | hend
    · obtain ⟨data, hdata, -, hfit, -, -, hread⟩ := aesdReadBody_piece h hin count
      intro r
      rw [show r = _ from hread]
      have hlt : q + data.length < 2 ^ 63 := by omega
      refine ⟨if_pos (Int.natCast_nonneg _), hlt, ?_⟩
      change data <+: _
      rw [hdata]
      exact List.take_prefix _ _
    · intro r
      rw [show r = _ from aesdReadBody_end h hsmall hend count]
      exact ⟨rfl, hsmall, List.nil_prefix⟩

/-- A call moves the position of its file by what it reads, unless it seeks. -/
theorem call_position (h : Represents K s.dev a) (hq : s.fPos f = (q : ℕ)) (hsmall : q < 2 ^ 63)
    {c : Invocation} (hc : c.file = f) (hseek : c.request.seeks = false) :
    let r := call K s c
    r.1.fPos f = (q + r.2.data.length : ℕ) ∧ q + r.2.data.length < 2 ^ 63 ∧
      r.2.data <+: a.stored.flatten.drop q := by
  subst hc
  intro r
  have hpos : r.1.fPos c.file = (c.request.serve K s.dev c.lock q).2.1 := by
    rw [← hq]
    exact Function.update_self ..
  have hret : r.2 = (c.request.serve K s.dev c.lock q).2.2 := by
    rw [← hq]
    rfl
  rw [hpos, hret]
  cases hreq : c.request with
  | llseek off whence | ioctl cmd arg => simp [hreq, Request.seeks] at hseek
  | write w => exact ⟨rfl, hsmall, List.nil_prefix⟩
  | read count fault =>
    cases c.lock with
    | false => exact ⟨rfl, hsmall, List.nil_prefix⟩
    | true => exact readBody_position h hsmall count fault

theorem call_position_of_ne {c : Invocation} (hc : c.file ≠ f) :
    (call K s c).1.fPos f = s.fPos f := Function.update_of_ne (Ne.symm hc) _ _

/-- Commands leave the device from the front, and do not come back. -/
theorem evicted_accept (a : Log) (c : List UInt8) :
    a.evicted.length ≤ (Log.evicted (a.accept c)).length := by
  obtain ⟨t, ht⟩ : a.committed <+: (a.accept c).committed := a.committed_prefix_run [c]
  have hpre : a.committed.take (a.committed.length - maxWriteOperationsSupported) <+:
      (a.accept c).committed.take
        ((a.accept c).committed.length - maxWriteOperationsSupported) := by
    rw [← ht, List.length_append, ← List.take_append_of_le_length (Nat.sub_le _ _)]
    exact List.take_prefix_take_left (by omega)
  exact (List.IsPrefix.flatten hpre).length_le

/-- **The reads on a file** see the stream through the window of the stored commands. -/
theorem pieces_follow (h : Represents K s.dev a) (hq : s.fPos f = (q : ℕ)) (hsmall : q < 2 ^ 63)
    {cs : List Invocation} (hseek : ∀ c ∈ cs, c.file = f → c.request.seeks = false) :
    Window.Follows (a.stream ++ taken K s cs) q a.evicted.length
        (pieces K f s a.stream.length cs) ∧
      (calls K s cs).1.fPos f =
        (q + ((pieces K f s a.stream.length cs).map (·.data.length)).sum : ℕ) := by
  induction cs generalizing s a q with
  | nil => exact ⟨trivial, by simpa [pieces, calls] using hq⟩
  | cons c cs ih =>
    rw [List.forall_mem_cons] at hseek
    have hrep : Represents K (call K s c).1.dev
        (a.accept (c.request.taken (call K s c).2.retval)) :=
      serve_represents h c.lock (s.fPos c.file) c.request
    have hstream : (a.accept (c.request.taken (call K s c).2.retval)).stream =
        a.stream ++ c.request.taken (call K s c).2.retval := RecordLog.stream_accept ..
    have hlen : a.stream.length + (c.request.taken (call K s c).2.retval).length =
        (a.accept (c.request.taken (call K s c).2.retval)).stream.length := by
      rw [hstream, List.length_append]
    have hwhole : a.stream ++ taken K s (c :: cs) =
        (a.accept (c.request.taken (call K s c).2.retval)).stream ++ taken K (call K s c).1 cs := by
      rw [hstream, List.append_assoc]
      rfl
    have hgone := evicted_accept a (c.request.taken (call K s c).2.retval)
    simp only [pieces, hlen, calls]
    rw [hwhole]
    by_cases hc : c.file = f
    · obtain ⟨hpos, hsmall', hpre⟩ := call_position h hq hsmall hc (hseek.1 hc)
      obtain ⟨hrest, hend⟩ := ih hrep hpos hsmall' hseek.2
      by_cases hd : (call K s c).2.data = []
      · rw [if_neg fun hn => hn.2 hd]
        simp only [hd, List.length_nil, Nat.add_zero] at hrest hend
        exact ⟨hrest.of_le hgone, hend⟩
      · rw [if_pos ⟨hc, hd⟩, held_eq h]
        refine ⟨⟨le_rfl, hd, ?_, hrest.of_le hgone⟩, ?_⟩
        · rw [hstream, List.append_assoc]
          exact Log.prefix_stream hpre hd _
        · rw [hend, List.map_cons, List.sum_cons, Nat.add_assoc]
    · obtain ⟨hrest, hend⟩ := ih hrep ((call_position_of_ne hc).trans hq) hsmall hseek.2
      rw [if_neg fun hn => hc hn.1]
      exact ⟨hrest.of_le hgone, hend⟩

end Follow

/-- **A reader that never seeks.**  From the loading of the module on, for any calls on any files of
which those on file `f` do not seek: each piece that `f` reads is the stream of all bytes written,
from the place behind everything `f` has read before and everything that had been evicted by then.
So `f` gets each byte at most once and in order, and gets all of them while nothing is evicted. -/
theorem reader_follows (K : Kernel) (cs : List Invocation) (f : ℕ)
    (hseek : ∀ c ∈ cs, c.file = f → c.request.seeks = false) :
    let S := taken K .start cs
    let xs := pieces K f .start 0 cs
    (∀ (k : ℕ) x, xs[k]? = some x → x.data ≠ [] ∧
      x.data <+: S.drop (x.gone + ((xs.take k).map (·.data.length)).sum)) ∧
    (calls K .start cs).1.fPos f = ((xs.map (·.data.length)).sum : ℕ) ∧
    xs.Pairwise (fun x y => x.gone ≤ y.gone) ∧
    List.Sublist (xs.flatMap Piece.data) S ∧
    ((∀ x ∈ xs, x.gone = 0) → xs.flatMap Piece.data <+: S) := by
  intro S xs
  obtain ⟨hfollows, hpos⟩ :=
    pieces_follow (s := .start) (q := 0) (init_represents K) rfl (by decide) hseek
  have hxs : Window.Follows S 0 0 xs := hfollows
  refine ⟨fun k x hx => ?_, ?_, hxs.pairwise.2, hxs.sublist, fun hg => hxs.isPrefix hg⟩
  · obtain ⟨hne, hpre⟩ := hxs.getElem? hx
    rw [Nat.zero_add] at hpre
    exact ⟨hne, hpre⟩
  · rw [hpos, Nat.zero_add]
    rfl

/-- Ten commands are written behind the first one, which has been read by then: the second one is
missed. -/
theorem reader_follows_eleven :
    let line (c : UInt8) : Invocation := ⟨0, true, .write (.served [c, newline])⟩
    let read : Invocation := ⟨1, true, .read 10 false⟩
    let cs := [line 97, read] ++ [98, 99, 100, 101, 102, 103, 104, 105, 106, 107].map line ++ [read]
    (pieces .x86 1 .start 0 cs).map Piece.data = [[97, newline], [99, newline]] ∧
      List.Sublist [97, newline, 99, newline] (taken .x86 .start cs) := by
  intro line read cs
  have hpieces : (pieces .x86 1 .start 0 cs).map Piece.data = [[97, newline], [99, newline]] := by
    decide +kernel
  have hseek : ∀ c ∈ cs, c.file = 1 → c.request.seeks = false := by decide +kernel
  obtain ⟨-, -, -, hsub, -⟩ := reader_follows .x86 cs 1 hseek
  rw [List.flatMap_def, hpieces] at hsub
  exact ⟨hpieces, hsub⟩

end Session

end Aesd
