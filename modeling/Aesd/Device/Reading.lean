import Aesd.Device.Seek

/-!
# Seeking, and reading to the end

`aesd_llseek` takes the size of the device from a sum over the array, `aesd_read` looks its
position up in ring order.  Both are about the same bytes: after a successful `llseek` repeated
reads return what lies behind the new position, piece by piece, and then the end of the file.

* `ReadReturn.Inside`: what one successful read returns;
* `ReadsOut`: what reads return one after the other, as many as there are;
* `seek_then_read`: after every `llseek`, for all positive counts.
-/

namespace Aesd

open CInt

/-- Reads one after the other, from position `fPos` on: the return of read number `n`, where read
number `k` asks for `counts k` bytes. -/
def reads (d : Dev) (fPos : ℤ) (counts : ℕ → ℕ) : ℕ → ReadReturn
  | 0 => aesdRead d true fPos (counts 0) false
  | n + 1 =>
    let r := reads d fPos counts n
    aesdRead r.dev true r.fPos (counts (n + 1)) false

/-- A read that asks for `count` bytes returns some, and stays inside one of the stored commands:
command `k`, from its byte `j` on. -/
def ReadReturn.Inside (r : ReadReturn) (stored : List (List UInt8)) (count : ℕ) : Prop :=
  r.data ≠ [] ∧ r.retval = r.data.length ∧ r.data.length ≤ count ∧
    ∃ k j c, stored[k]? = some c ∧
      r.fPos = (((stored.take k).map List.length).sum + j + r.data.length : ℕ) ∧
      j + r.data.length ≤ c.length ∧ r.data = (c.drop j).take r.data.length

/-- Reads from `fPos` return `out` in pieces, and then the end of the file. -/
def ReadsOut (d : Dev) (fPos : ℤ) (counts : ℕ → ℕ) (out : List UInt8) : Prop :=
  ∃ n, (∀ k < n, (reads d fPos counts k).Inside d.storedCommands (counts k)) ∧
    ((List.range n).flatMap fun k => (reads d fPos counts k).data) = out ∧
    (reads d fPos counts n).retval = 0 ∧ (reads d fPos counts n).data = []

/-- The reads behind the first one start where it has left off. -/
theorem reads_succ (d : Dev) (fPos : ℤ) (counts : ℕ → ℕ) (n : ℕ) :
    reads d fPos counts (n + 1) =
      reads (aesdRead d true fPos (counts 0) false).dev (aesdRead d true fPos (counts 0) false).fPos
        (fun k => counts (k + 1)) n := by
  induction n with
  | zero => rfl
  | succ n ih => rw [reads.eq_2 d fPos counts (n + 1), ih]; rfl

section Reading

variable {K : Kernel} {d : Dev} {a : Log}

/-- **Reading to the end** returns everything behind the position. -/
theorem readsOut (h : Represents K d a) {pos : ℕ} (hpos : pos < 2 ^ 63) {counts : ℕ → ℕ}
    (hcounts : ∀ k, 0 < counts k) : ReadsOut d pos counts (a.stored.flatten.drop pos) := by
  have hsmall := h.stored_small
  rw [← List.length_flatten] at hsmall
  induction hm : a.stored.flatten.length - pos using Nat.strong_induction_on
    generalizing pos counts with
  | _ m ih =>
    rcases Nat.lt_or_ge pos a.stored.flatten.length with hin | hend
    · obtain ⟨data, hdata, hle, hfit, hne, ⟨k, j, c, hc, hstart, hcut, hpiece⟩, hread⟩ :=
        aesdReadBody_piece h hin (counts 0)
      have hdpos : 0 < data.length := List.length_pos_iff.2 (hne (hcounts 0))
      -- the first read returns a piece, and the others go on behind it
      have hreads : ReadsOut d (pos + data.length : ℕ) (fun k => counts (k + 1))
          (a.stored.flatten.drop (pos + data.length)) :=
        ih (a.stored.flatten.length - (pos + data.length)) (by omega) (by omega)
          (fun k => hcounts (k + 1)) rfl
      obtain ⟨n, hall, hout, hret, hempty⟩ := hreads
      have hfirst : reads d pos counts 0 = ⟨d, data.length, (pos + data.length : ℕ), data⟩ := hread
      have hrest : ∀ k, reads d pos counts (k + 1) =
          reads d ((pos + data.length : ℕ) : ℤ) (fun k => counts (k + 1)) k := by
        intro k
        rw [reads_succ, show aesdRead d true pos (counts 0) false = _ from hread]
      refine ⟨n + 1, ?_, ?_, by rw [hrest]; exact hret, by rw [hrest]; exact hempty⟩
      · rintro (_ | i) hi
        · rw [hfirst]
          refine ⟨hne (hcounts 0), rfl, hle, k, j, c, by rw [h.storedCommands]; exact hc, ?_, hcut,
            hpiece⟩
          rw [h.storedCommands, hstart]
        · rw [hrest]
          exact hall i (by omega)
      · rw [List.range_succ_eq_map, List.flatMap_cons, List.flatMap_map, hfirst]
        simp only [Nat.succ_eq_add_one, hrest, hout]
        calc data ++ a.stored.flatten.drop (pos + data.length)
            = (a.stored.flatten.drop pos).take data.length ++
                (a.stored.flatten.drop pos).drop data.length := by rw [← hdata, List.drop_drop]
          _ = a.stored.flatten.drop pos := List.take_append_drop _ _
    · have hread : reads d pos counts 0 = _ := aesdReadBody_end h hpos hend (counts 0)
      exact ⟨0, by simp, by simp [List.drop_eq_nil_of_le hend], by rw [hread], by rw [hread]⟩

/-- A successful `llseek` that moves the position puts it inside the content or at its end. -/
theorem vfsSetpos_nonneg {fPos offset maxsize : ℤ} (h : 0 ≤ (vfsSetpos fPos offset maxsize).1) :
    0 ≤ offset ∧ offset ≤ maxsize ∧ vfsSetpos fPos offset maxsize = (offset, offset) := by
  unfold vfsSetpos at h ⊢
  split_ifs at h ⊢ with hneg hbig
  · simp [EINVAL] at h
  · simp [EINVAL] at h
  · exact ⟨by omega, by omega, rfl⟩

theorem fixedSizeLlseek_nonneg {fPos offset size : ℤ} {whence : ℕ}
    (hmove : ¬ (whence = 1 ∧ offset = 0))
    (h : 0 ≤ (fixedSizeLlseek fPos offset whence size).1) :
    ∃ p : ℕ, (p : ℤ) ≤ size ∧ fixedSizeLlseek fPos offset whence size = ((p : ℤ), (p : ℤ)) := by
  have hset : ∀ target : ℤ, 0 ≤ (vfsSetpos fPos target size).1 →
      ∃ p : ℕ, (p : ℤ) ≤ size ∧ vfsSetpos fPos target size = ((p : ℤ), (p : ℤ)) := by
    intro target ht
    obtain ⟨hlo, hhi, heq⟩ := vfsSetpos_nonneg ht
    exact ⟨target.toNat, by omega, by rw [heq, Int.toNat_of_nonneg hlo]⟩
  unfold fixedSizeLlseek at h ⊢
  split at h
  · exact hset _ h
  · rw [if_neg fun h0 => hmove ⟨rfl, h0⟩] at h ⊢
    exact hset _ h
  · exact hset _ h
  · simp [EINVAL] at h

/-- The size that `aesd_llseek` hands on is the number of bytes that can be read. -/
theorem aesdLlseek_eq (h : Represents K d a) (fPos off : ℤ) (whence : ℕ) :
    aesdLlseek d true fPos off whence =
      fixedSizeLlseek fPos off whence (a.stored.flatten.length : ℕ) := by
  have hsmall := h.stored_small
  have htotal := CircularBuffer.entriesTotalSize_eq h.wf (by rw [h.sizes]; omega)
  unfold aesdLlseek
  rw [if_pos rfl, htotal, h.sizes, ← List.length_flatten, toLong_eq (by rwa [List.length_flatten])]

/-- A read that asks for something returns 0 exactly at the end, and then leaves the position
alone. -/
theorem aesdRead_end_iff (h : Represents K d a) {fPos count : ℕ} (hpos : fPos < 2 ^ 63)
    (hcount : 0 < count) :
    ((aesdRead d true fPos count false).retval = 0 ↔ a.stored.flatten.length ≤ fPos) ∧
      (a.stored.flatten.length ≤ fPos → (aesdRead d true fPos count false).fPos = fPos) := by
  rcases Nat.lt_or_ge fPos a.stored.flatten.length with hin | hend
  · obtain ⟨data, -, -, -, hne, -, hread⟩ := aesdReadBody_piece h hin count
    have hdpos : 0 < data.length := List.length_pos_iff.2 (hne hcount)
    refine ⟨iff_of_false ?_ (by omega), fun hle => by omega⟩
    rw [show aesdRead d true fPos count false = _ from hread]
    simp only
    omega
  · have hread : aesdRead d true fPos count false = _ := aesdReadBody_end h hpos hend count
    exact ⟨iff_of_true (by rw [hread]) hend, fun _ => by rw [hread]⟩

end Reading

/-- **Seeking and reading agree.**  In every device state that writes lead to, a successful
`llseek` puts the position inside the content `C` or at its end, and reads with any positive
counts then return exactly what lies behind the position: non-empty pieces, none longer than asked
for and none across two commands, and after finitely many of them the end of the file.  A read
returns zero exactly at or behind the end, and leaves the position there.  After `SEEK_END` with
`-k` the last `k` bytes are read. -/
theorem seek_then_read (K : Kernel) (ws : List WriteCall) (counts : ℕ → ℕ)
    (hcounts : ∀ k, 0 < counts k) :
    let d := (aesdWrites K aesdInitModule ws).1
    let C := d.storedCommands.flatten
    (∀ lock fPos off whence, ¬ (whence = 1 ∧ off = 0) →
      0 ≤ (aesdLlseek d lock fPos off whence).1 →
      ∃ p : ℕ, aesdLlseek d lock fPos off whence = ((p : ℤ), (p : ℤ)) ∧ p ≤ C.length ∧
        ReadsOut d p counts (C.drop p)) ∧
    (∀ fPos : ℤ, ∀ k ≤ C.length,
      aesdLlseek d true fPos (-(k : ℤ)) 2 = (((C.length - k : ℕ) : ℤ), ((C.length - k : ℕ) : ℤ)) ∧
        ReadsOut d ((C.length - k : ℕ) : ℤ) counts (C.rtake k)) ∧
    ∀ fPos < 2 ^ 63, ∀ count > 0,
      ((aesdRead d true (fPos : ℕ) count false).retval = 0 ↔ C.length ≤ fPos) ∧
        (C.length ≤ fPos → (aesdRead d true (fPos : ℕ) count false).fPos = fPos) := by
  intro d C
  have h := aesdWrites_represents K ws
  have hsmall := h.stored_small
  rw [← List.length_flatten] at hsmall
  have hC : C = _ := congrArg List.flatten h.storedCommands
  refine ⟨fun lock fPos off whence hmove hok => ?_, fun fPos k hk => ?_,
    fun fPos hpos count hcount => ?_⟩
  · cases lock with
    | false => simp [aesdLlseek, ERESTARTSYS] at hok
    | true =>
      rw [aesdLlseek_eq h, ← hC] at hok ⊢
      obtain ⟨p, hp, hseek⟩ := fixedSizeLlseek_nonneg hmove hok
      refine ⟨p, hseek, by omega, ?_⟩
      rw [hC]
      exact readsOut h (by rw [← hC] at hsmall; omega) hcounts
  · rw [← hC] at hsmall
    have hadd : CInt.longAdd (-(k : ℤ)) (C.length : ℕ) = ((C.length - k : ℕ) : ℤ) := by
      rw [longAdd_eq (by omega) (by omega)]
      omega
    refine ⟨?_, ?_⟩
    · rw [aesdLlseek_eq h, ← hC]
      simp only [fixedSizeLlseek, vfsSetpos, hadd]
      rw [if_neg (by omega), if_neg (by omega)]
    · rw [List.rtake, hC]
      exact readsOut h (by rw [← hC]; omega) hcounts
  · rw [hC]
    exact aesdRead_end_iff h hpos hcount

/-- Two commands are stored; the last two bytes, read one by one. -/
theorem seek_then_read_last_two :
    let d := (aesdWrites .x86 aesdInitModule ([[97, newline], [98, newline]].map .served)).1
    ReadsOut d 2 (fun _ => 1) [98, newline] := by
  intro d
  have hC : d.storedCommands.flatten = [97, newline, 98, newline] := by decide +kernel
  obtain ⟨-, hread⟩ := (seek_then_read .x86 ([[97, newline], [98, newline]].map .served)
    (fun _ => 1) (fun _ => Nat.one_pos)).2.1 0 2 (by rw [hC]; decide)
  rw [hC] at hread
  exact hread

end Aesd
