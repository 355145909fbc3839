import Mathlib.Data.List.DropRight
import Mathlib.Tactic

/-!
# Logs of separated records

A `RecordLog sep` collects a stream that arrives in chunks.  Elements wait in `pending` until a
chunk brings the separator `sep`; then everything that waits, with the whole chunk, becomes one
record.  A record can therefore contain several separators, and what a record is depends on how
the stream was cut.

* `stream_accept`: no element is lost, duplicated or reordered;
* `run_eq_cutAt`: the log depends on the cut only through the positions at which a chunk with a
  separator ends;
* `run_eq_of_sepLast`: if no chunk goes on behind a separator, the log is the same for every cut,
  and every record is closed by its only separator (`record_of_sepLast`);
* `records`: the log of the cut behind every element.
-/

/-- The records closed so far, and the elements behind the last of them. -/
structure RecordLog {α : Type*} (sep : α) where
  committed : List (List α)
  pending : List α
  sep_mem : ∀ c ∈ committed, sep ∈ c
  sep_not_mem : sep ∉ pending

namespace RecordLog

variable {α : Type*} {sep : α}

@[ext] theorem ext {r s : RecordLog sep} (hc : r.committed = s.committed)
    (hp : r.pending = s.pending) : r = s := by
  cases r; cases s; simp_all

/-- The log of the empty stream. -/
def empty (sep : α) : RecordLog sep := ⟨[], [], by simp, by simp⟩

/-- The whole stream. -/
def stream (r : RecordLog sep) : List α := r.committed.flatten ++ r.pending

/-- Whether a chunk closes a record is a question about the chunk alone. -/
theorem sep_mem_append (r : RecordLog sep) (c : List α) : sep ∈ r.pending ++ c ↔ sep ∈ c := by
  rw [List.mem_append]
  exact or_iff_right r.sep_not_mem

variable [DecidableEq α]

/-- The next chunk of the stream. -/
def accept (r : RecordLog sep) (c : List α) : RecordLog sep :=
  if h : sep ∈ r.pending ++ c then
    { committed := r.committed ++ [r.pending ++ c]
      pending := []
      sep_mem := by
        intro d hd
        rcases List.mem_append.1 hd with hd | hd
        · exact r.sep_mem d hd
        · rwa [List.mem_singleton.1 hd]
      sep_not_mem := by simp }
  else ⟨r.committed, r.pending ++ c, r.sep_mem, h⟩

/-- A sequence of chunks. -/
def run (r : RecordLog sep) (cs : List (List α)) : RecordLog sep := cs.foldl accept r

@[simp] theorem run_nil (r : RecordLog sep) : r.run [] = r := rfl

@[simp] theorem run_cons (r : RecordLog sep) (c : List α) (cs : List (List α)) :
    r.run (c :: cs) = (r.accept c).run cs := rfl

theorem run_append (r : RecordLog sep) (cs ds : List (List α)) :
    r.run (cs ++ ds) = (r.run cs).run ds := List.foldl_append ..

theorem accept_mem (r : RecordLog sep) {c : List α} (h : sep ∈ c) :
    (r.accept c).committed = r.committed ++ [r.pending ++ c] ∧ (r.accept c).pending = [] := by
  rw [accept, dif_pos ((r.sep_mem_append c).2 h)]
  exact ⟨rfl, rfl⟩

theorem accept_not_mem (r : RecordLog sep) {c : List α} (h : sep ∉ c) :
    (r.accept c).committed = r.committed ∧ (r.accept c).pending = r.pending ++ c := by
  rw [accept, dif_neg (fun hm => h ((r.sep_mem_append c).1 hm))]
  exact ⟨rfl, rfl⟩

@[simp] theorem accept_nil (r : RecordLog sep) : r.accept [] = r := by
  have h := r.accept_not_mem (List.not_mem_nil : sep ∉ [])
  exact ext h.1 (by rw [h.2, List.append_nil])

/-- **Conservation.** -/
@[simp] theorem stream_accept (r : RecordLog sep) (c : List α) :
    (r.accept c).stream = r.stream ++ c := by
  unfold stream
  by_cases h : sep ∈ c
  · rw [(r.accept_mem h).1, (r.accept_mem h).2]
    simp
  · rw [(r.accept_not_mem h).1, (r.accept_not_mem h).2, List.append_assoc]

theorem stream_run (r : RecordLog sep) (cs : List (List α)) :
    (r.run cs).stream = r.stream ++ cs.flatten := by
  induction cs generalizing r with
  | nil => simp
  | cons c cs ih => rw [run_cons, ih, stream_accept, List.flatten_cons, List.append_assoc]

/-- Every chunk with a separator closes one record. -/
theorem committed_length_run (r : RecordLog sep) (cs : List (List α)) :
    (r.run cs).committed.length = r.committed.length + cs.countP (sep ∈ ·) := by
  induction cs generalizing r with
  | nil => simp
  | cons c cs ih =>
    rw [run_cons, ih, List.countP_cons]
    by_cases h : sep ∈ c
    · rw [(r.accept_mem h).1, List.length_append]
      simp only [h, decide_true, if_true, List.length_singleton]
      omega
    · rw [(r.accept_not_mem h).1]
      simp [h]

/-- Records are only added. -/
theorem committed_prefix_run (r : RecordLog sep) (cs : List (List α)) :
    r.committed <+: (r.run cs).committed := by
  induction cs generalizing r with
  | nil => exact List.prefix_rfl
  | cons c cs ih =>
    refine List.IsPrefix.trans ?_ (ih (r.accept c))
    by_cases h : sep ∈ c
    · rw [(r.accept_mem h).1]; exact List.prefix_append _ _
    · rw [(r.accept_not_mem h).1]

/-! ### Cutting at given positions -/

/-- The positions at which a chunk with a separator ends, for chunks that start at `n`. -/
def commitPoints (sep : α) : ℕ → List (List α) → List ℕ
  | _, [] => []
  | n, c :: cs =>
    if sep ∈ c then (n + c.length) :: commitPoints sep (n + c.length) cs
    else commitPoints sep (n + c.length) cs

theorem le_of_mem_commitPoints {n q : ℕ} {cs : List (List α)} (h : q ∈ commitPoints sep n cs) :
    n ≤ q := by
  induction cs generalizing n with
  | nil => simp [commitPoints] at h
  | cons c cs ih =>
    unfold commitPoints at h
    split_ifs at h
    · rcases List.mem_cons.1 h with rfl | h
      · omega
      · have := ih h; omega
    · have := ih h; omega

omit [DecidableEq α] in
/-- Cut the stream `s`, which starts at `n`, at the given positions; `p` waits in front of it. -/
def cutAt (p : List α) (n : ℕ) : List ℕ → List α → List (List α) × List α
  | [], s => ([], p ++ s)
  | q :: qs, s =>
    let r := cutAt [] q qs (s.drop (q - n))
    ((p ++ s.take (q - n)) :: r.1, r.2)

omit [DecidableEq α] in
/-- Elements in front of the first cut may as well be waiting already. -/
theorem cutAt_append (p c s : List α) (n : ℕ) {qs : List ℕ} (hq : ∀ q ∈ qs, n + c.length ≤ q) :
    cutAt p n qs (c ++ s) = cutAt (p ++ c) (n + c.length) qs s := by
  cases qs with
  | nil => simp [cutAt]
  | cons q qs =>
    have hle := hq q List.mem_cons_self
    have hsub : q - n = c.length + (q - (n + c.length)) := by omega
    have hdrop : (c ++ s).drop (q - n) = s.drop (q - (n + c.length)) := by
      rw [hsub, List.drop_append]; simp
    have htake : (c ++ s).take (q - n) = c ++ s.take (q - (n + c.length)) := by
      rw [hsub, List.take_append]; simp
    simp only [cutAt, hdrop, htake, List.append_assoc]

/-- **The log is the stream, cut at the commit points.** -/
theorem run_eq_cutAt (r : RecordLog sep) (n : ℕ) (cs : List (List α)) :
    (r.run cs).committed =
        r.committed ++ (cutAt r.pending n (commitPoints sep n cs) cs.flatten).1 ∧
      (r.run cs).pending = (cutAt r.pending n (commitPoints sep n cs) cs.flatten).2 := by
  induction cs generalizing r n with
  | nil => simp [cutAt, commitPoints]
  | cons c cs ih =>
    obtain ⟨ih1, ih2⟩ := ih (r.accept c) (n + c.length)
    rw [run_cons, ih1, ih2, List.flatten_cons]
    by_cases h : sep ∈ c
    · -- the first commit point is the end of `c`
      rw [(r.accept_mem h).1, (r.accept_mem h).2]
      simp [commitPoints, h, cutAt]
    · rw [(r.accept_not_mem h).1, (r.accept_not_mem h).2, commitPoints, if_neg h,
        cutAt_append _ _ _ _ fun q hq => le_of_mem_commitPoints hq]
      exact ⟨rfl, rfl⟩

/-- What waits depends on the records closed before only through what waited behind them. -/
theorem run_pending_congr {r r' : RecordLog sep} (h : r.pending = r'.pending)
    (cs : List (List α)) : (r.run cs).pending = (r'.run cs).pending := by
  rw [(run_eq_cutAt r 0 cs).2, (run_eq_cutAt r' 0 cs).2, h]

/-- Two cuts of one stream with the same commit points give the same log. -/
theorem run_congr (r : RecordLog sep) {cs ds : List (List α)} (hs : cs.flatten = ds.flatten)
    (hp : commitPoints sep 0 cs = commitPoints sep 0 ds) : r.run cs = r.run ds := by
  obtain ⟨h1, h2⟩ := run_eq_cutAt r 0 cs
  obtain ⟨h3, h4⟩ := run_eq_cutAt r 0 ds
  exact ext (by rw [h1, h3, hs, hp]) (by rw [h2, h4, hs, hp])

/-! ### Chunks that end at their separator -/

/-- No element of the chunk comes behind a separator. -/
def SepLast (sep : α) (c : List α) : Prop := sep ∉ c.dropLast

instance (sep : α) (c : List α) : Decidable (SepLast sep c) :=
  inferInstanceAs (Decidable (sep ∉ c.dropLast))

/-- Such a chunk may as well arrive element by element. -/
theorem accept_eq_run_singletons (r : RecordLog sep) {c : List α} (h : SepLast sep c) :
    r.accept c = r.run (c.map fun a => [a]) := by
  induction c generalizing r with
  | nil => simp
  | cons a c ih =>
    cases c with
    | nil => rfl
    | cons b c =>
      have ha : sep ∉ [a] := by
        intro hm
        exact h (by rw [List.mem_singleton.1 hm]; exact List.mem_cons_self)
      have htail : SepLast sep (b :: c) := fun hm => h (List.mem_cons_of_mem _ hm)
      have hmem : sep ∈ a :: b :: c ↔ sep ∈ b :: c := by
        rw [List.mem_cons]
        exact or_iff_right fun e => ha (by simp [e])
      rw [List.map_cons, run_cons, ← ih (r.accept [a]) htail]
      obtain ⟨h1, h2⟩ := r.accept_not_mem ha
      by_cases hs : sep ∈ b :: c
      · refine ext ?_ ?_
        · rw [(r.accept_mem (hmem.2 hs)).1, ((r.accept [a]).accept_mem hs).1, h1, h2]
          simp
        · rw [(r.accept_mem (hmem.2 hs)).2, ((r.accept [a]).accept_mem hs).2]
      · refine ext ?_ ?_
        · rw [(r.accept_not_mem (hmem.not.2 hs)).1, ((r.accept [a]).accept_not_mem hs).1, h1]
        · rw [(r.accept_not_mem (hmem.not.2 hs)).2, ((r.accept [a]).accept_not_mem hs).2, h2]
          simp

theorem run_eq_singletons (r : RecordLog sep) {cs : List (List α)}
    (h : ∀ c ∈ cs, SepLast sep c) : r.run cs = r.run (cs.flatten.map fun a => [a]) := by
  induction cs generalizing r with
  | nil => rfl
  | cons c cs ih =>
    rw [run_cons, ih _ fun d hd => h d (List.mem_cons_of_mem _ hd),
      accept_eq_run_singletons r (h c List.mem_cons_self), List.flatten_cons, List.map_append,
      run_append]

/-- **Cuts that respect separators do not matter.** -/
theorem run_eq_of_sepLast (r : RecordLog sep) {cs ds : List (List α)}
    (hs : cs.flatten = ds.flatten) (hc : ∀ c ∈ cs, SepLast sep c) (hd : ∀ d ∈ ds, SepLast sep d) :
    r.run cs = r.run ds := by
  rw [run_eq_singletons r hc, run_eq_singletons r hd, hs]

/-- A record: its only separator is its last element. -/
def IsRecord (sep : α) (c : List α) : Prop := ∃ l, c = l ++ [sep] ∧ sep ∉ l

omit [DecidableEq α] in
theorem isRecord_of_sepLast {c : List α} (hm : sep ∈ c) (h : SepLast sep c) : IsRecord sep c := by
  have hne : c ≠ [] := List.ne_nil_of_mem hm
  have hlast : c.getLast hne = sep := by
    rw [← List.dropLast_append_getLast hne] at hm
    rcases List.mem_append.1 hm with hm | hm
    · exact absurd hm h
    · exact (List.mem_singleton.1 hm).symm
  exact ⟨c.dropLast, by rw [← hlast, List.dropLast_append_getLast hne], h⟩

omit [DecidableEq α] in
theorem isRecord_accept (r : RecordLog sep) {c : List α} (h : SepLast sep c) (hm : sep ∈ c) :
    IsRecord sep (r.pending ++ c) := by
  refine isRecord_of_sepLast (List.mem_append_right _ hm) ?_
  unfold SepLast
  rw [List.dropLast_append_of_ne_nil (List.ne_nil_of_mem hm), List.mem_append]
  exact not_or.2 ⟨r.sep_not_mem, h⟩

/-- Under such cuts every record added is closed by its only separator. -/
theorem record_of_sepLast (r : RecordLog sep) (hr : ∀ c ∈ r.committed, IsRecord sep c)
    {cs : List (List α)} (h : ∀ c ∈ cs, SepLast sep c) :
    ∀ c ∈ (r.run cs).committed, IsRecord sep c := by
  induction cs generalizing r with
  | nil => exact hr
  | cons c cs ih =>
    refine ih (r.accept c) ?_ fun d hd => h d (List.mem_cons_of_mem _ hd)
    have hc := h c List.mem_cons_self
    by_cases hm : sep ∈ c
    · rw [(r.accept_mem hm).1]
      intro d hd
      rcases List.mem_append.1 hd with hd | hd
      · exact hr d hd
      · rw [List.mem_singleton.1 hd]; exact isRecord_accept r hc hm
    · rw [(r.accept_not_mem hm).1]; exact hr

/-- If every record is closed by its only separator, what comes behind the last separator of the
stream waits. -/
theorem pending_eq_rtakeWhile (r : RecordLog sep) (h : ∀ c ∈ r.committed, IsRecord sep c) :
    r.pending = r.stream.rtakeWhile (· ≠ sep) := by
  have hall : ∀ x ∈ r.pending.reverse, decide (x ≠ sep) = true := by
    intro x hx
    refine decide_eq_true ?_
    rintro rfl
    exact r.sep_not_mem (List.mem_reverse.1 hx)
  have hend : r.committed.flatten.reverse.takeWhile (fun x => decide (x ≠ sep)) = [] := by
    rcases List.eq_nil_or_concat r.committed with hnil | ⟨cs, c, hcs⟩
    · rw [hnil]; rfl
    · obtain ⟨l, rfl, -⟩ := h c (by rw [hcs]; simp)
      rw [hcs]
      simp
  unfold List.rtakeWhile stream
  rw [List.reverse_append, List.takeWhile_append_of_pos hall, hend, List.append_nil,
    List.reverse_reverse]

/-! ### Streams that arrive element by element -/

/-- The log of a stream that is cut behind every element. -/
def records (sep : α) (l : List α) : RecordLog sep := (empty sep).run (l.map fun a => [a])

theorem records_append (l m : List α) :
    records sep (l ++ m) = (records sep l).run (m.map fun a => [a]) := by
  unfold records
  rw [List.map_append, run_append]

/-- A chunk that ends at its separator may arrive as a whole. -/
theorem records_append_of_sepLast (l : List α) {c : List α} (h : SepLast sep c) :
    records sep (l ++ c) = (records sep l).accept c := by
  rw [records_append, accept_eq_run_singletons _ h]

theorem isRecord_records (l : List α) : ∀ c ∈ (records sep l).committed, IsRecord sep c := by
  refine record_of_sepLast _ (by simp [empty]) fun c hc => ?_
  obtain ⟨a, -, rfl⟩ := List.mem_map.1 hc
  simp [SepLast]

/-- Complete records in front do not matter for what waits. -/
theorem pending_records_append {l : List α} (h : (records sep l).pending = []) (m : List α) :
    (records sep (l ++ m)).pending = (records sep m).pending := by
  rw [records_append]
  exact run_pending_congr h _

omit [DecidableEq α] in
theorem IsRecord.sepLast {c : List α} (h : IsRecord sep c) : SepLast sep c := by
  obtain ⟨l, rfl, hl⟩ := h
  unfold SepLast
  rwa [List.dropLast_concat]

/-- Records one after the other are read back, and nothing waits behind them. -/
theorem records_flatten {ps : List (List α)} (h : ∀ p ∈ ps, IsRecord sep p) :
    (records sep ps.flatten).committed = ps ∧ (records sep ps.flatten).pending = [] := by
  induction ps using List.reverseRecOn with
  | nil => exact ⟨rfl, rfl⟩
  | append_singleton ps p ih =>
    obtain ⟨hc, hp⟩ := ih fun q hq => h q (List.mem_append_left _ hq)
    have hlast : IsRecord sep p := h p (by simp)
    have hmem : sep ∈ p := by
      obtain ⟨l, rfl, -⟩ := hlast
      simp
    rw [List.flatten_append, List.flatten_singleton, records_append_of_sepLast _ hlast.sepLast]
    obtain ⟨h1, h2⟩ := (records sep ps.flatten).accept_mem hmem
    rw [h1, hc, hp]
    exact ⟨rfl, h2⟩

/-- A stream that does not end with a separator has not come to the end of a record. -/
theorem records_pending_ne_nil (l : List α) {c : List α} (hne : c ≠ []) (hc : sep ∉ c) :
    (records sep (l ++ c)).pending ≠ [] := by
  have hlast : SepLast sep c := fun h => hc (List.mem_of_mem_dropLast h)
  rw [records_append_of_sepLast l hlast, ((records sep l).accept_not_mem hc).2]
  simp [hne]

end RecordLog
