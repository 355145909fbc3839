import Aesd.Lib.RecordLog

/-!
# Interleaved streams of records

Several sources send streams of separated records, and their chunks are put one behind the other
as they come.  The interleaving is a list of chunks with their sources.  It is `Orderly` if a chunk
only comes while every other source is at the end of a record.

* `orderly_iff`: if every source has come to the end of a record, the interleaving is orderly
  exactly if it is made of the records of the sources, one behind the other;
* `orderly_groups`: if a chunk is only taken as a whole, every record of an orderly interleaving
  still consists of chunks of one source.
-/

namespace Interleaving

open RecordLog

/-- The part that comes from one source. -/
def ofSource {τ β : Type*} [DecidableEq τ] (s : τ) (W : List (τ × β)) : List β :=
  (W.filter (·.1 = s)).map Prod.snd

section OfSource

variable {τ β : Type*} [DecidableEq τ]

theorem ofSource_append (s : τ) (V W : List (τ × β)) :
    ofSource s (V ++ W) = ofSource s V ++ ofSource s W := by
  unfold ofSource
  rw [List.filter_append, List.map_append]

theorem ofSource_map_self (s : τ) (bs : List β) : ofSource s (bs.map (Prod.mk s)) = bs := by
  induction bs with
  | nil => rfl
  | cons b bs ih =>
    unfold ofSource at ih ⊢
    rw [List.map_cons, List.filter_cons_of_pos (by simp), List.map_cons, ih]

theorem ofSource_map_of_ne {s s' : τ} (h : s' ≠ s) (bs : List β) :
    ofSource s (bs.map (Prod.mk s')) = [] := by
  unfold ofSource
  rw [List.filter_eq_nil_iff.2, List.map_nil]
  intro x hx
  obtain ⟨b, -, rfl⟩ := List.mem_map.1 hx
  simpa using h

theorem mem_ofSource {x : τ × β} {W : List (τ × β)} (h : x ∈ W) : x.2 ∈ ofSource x.1 W :=
  List.mem_map.2 ⟨x, List.mem_filter.2 ⟨h, by simp⟩, rfl⟩

end OfSource

variable {τ α : Type*}

/-- The stream of all sources together. -/
def content (W : List (τ × List α)) : List α := (W.map Prod.snd).flatten

theorem content_append (V W : List (τ × List α)) : content (V ++ W) = content V ++ content W := by
  unfold content
  rw [List.map_append, List.flatten_append]

@[simp] theorem content_singleton (x : τ × List α) : content [x] = x.2 := by simp [content]

/-- The stream of all sources together, each element with its source. -/
def tagged (W : List (τ × List α)) : List (τ × α) := W.flatMap fun x => x.2.map (Prod.mk x.1)

theorem tagged_append (V W : List (τ × List α)) : tagged (V ++ W) = tagged V ++ tagged W :=
  List.flatMap_append

theorem tagged_cons (s : τ) (c : List α) (W : List (τ × List α)) :
    tagged ((s, c) :: W) = c.map (Prod.mk s) ++ tagged W := List.flatMap_cons

@[simp] theorem tagged_singleton (s : τ) (c : List α) : tagged [(s, c)] = c.map (Prod.mk s) := by
  simp [tagged]

theorem tagged_map (s : τ) (cs : List (List α)) :
    tagged (cs.map (Prod.mk s)) = cs.flatten.map (Prod.mk s) := by
  induction cs with
  | nil => rfl
  | cons c cs ih =>
    rw [List.map_cons, tagged_cons, ih, List.flatten_cons, List.map_append]

theorem map_snd_tagged (W : List (τ × List α)) : (tagged W).map Prod.snd = content W := by
  induction W with
  | nil => rfl
  | cons x W ih =>
    rw [tagged_cons, ← List.singleton_append, content_append, List.map_append, ih,
      content_singleton, List.map_map]
    simp

variable [DecidableEq τ]

theorem ofSource_tagged (s : τ) (W : List (τ × List α)) :
    ofSource s (tagged W) = (ofSource s W).flatten := by
  induction W with
  | nil => rfl
  | cons x W ih =>
    obtain ⟨t, c⟩ := x
    have hcons : (t, c) :: W = [c].map (Prod.mk t) ++ W := rfl
    rw [tagged_cons, hcons, ofSource_append, ofSource_append, List.flatten_append, ih]
    congr 1
    rcases eq_or_ne t s with rfl | hne
    · rw [ofSource_map_self, ofSource_map_self, List.flatten_singleton]
    · rw [ofSource_map_of_ne hne, ofSource_map_of_ne hne, List.flatten_nil]

variable [DecidableEq α] (sep : α)

/-- The records of one source. -/
def recordsOf (W : List (τ × List α)) (s : τ) : RecordLog sep :=
  records sep (ofSource s (tagged W))

/-- The source is at the end of a record. -/
def Whole (W : List (τ × List α)) (s : τ) : Prop := (recordsOf sep W s).pending = []

instance (W : List (τ × List α)) (s : τ) : Decidable (Whole sep W s) :=
  inferInstanceAs (Decidable (_ = _))

/-- Whenever a chunk comes, all other sources are at the end of a record. -/
def Orderly (W : List (τ × List α)) : Prop :=
  ∀ n : Fin W.length, ∀ s, s ≠ (W.get n).1 → Whole sep (W.take n) s

instance [Fintype τ] (W : List (τ × List α)) : Decidable (Orderly sep W) :=
  inferInstanceAs (Decidable (∀ _, ∀ _, _ → _))

/-- The records `U` come one behind the other, those of each source in order. -/
structure InRecords (W U : List (τ × List α)) : Prop where
  tagged_eq : tagged W = tagged U
  ofSource_eq : ∀ s, ofSource s U = (recordsOf sep W s).committed

variable {sep} {W U : List (τ × List α)} {s s' : τ} {c : List α}

theorem orderly_concat :
    Orderly sep (W ++ [(s, c)]) ↔ Orderly sep W ∧ ∀ s', s' ≠ s → Whole sep W s' := by
  constructor
  · intro h
    refine ⟨fun n s' hs' => ?_, fun s' hs' => ?_⟩
    · have hn := h ⟨n, by rw [List.length_append]; omega⟩ s'
      simp only [List.get_eq_getElem, List.getElem_append_left n.isLt,
        List.take_append_of_le_length n.isLt.le] at hn
      exact hn hs'
    · have hlast := h ⟨W.length, by simp⟩ s'
      simp only [List.get_eq_getElem, List.getElem_concat_length, List.take_left] at hlast
      exact hlast hs'
  · rintro ⟨h, hlast⟩ ⟨n, hn⟩ s' hs'
    rw [List.length_append, List.length_singleton] at hn
    rcases Nat.lt_or_ge n W.length with hlt | hge
    · have hpre := h ⟨n, hlt⟩ s'
      simp only [List.get_eq_getElem, List.getElem_append_left hlt] at hpre hs'
      rw [List.take_append_of_le_length hlt.le]
      exact hpre hs'
    · obtain rfl : n = W.length := by omega
      simp only [List.get_eq_getElem, List.getElem_concat_length] at hs'
      simp only [List.take_left]
      exact hlast s' hs'

/-! ### Orderly interleavings are made of records -/

theorem recordsOf_concat_self :
    recordsOf sep (W ++ [(s, c)]) s = (recordsOf sep W s).run (c.map fun a => [a]) := by
  unfold recordsOf
  rw [tagged_append, ofSource_append, tagged_singleton, ofSource_map_self, records_append]

theorem recordsOf_concat_of_ne (h : s ≠ s') :
    recordsOf sep (W ++ [(s, c)]) s' = recordsOf sep W s' := by
  unfold recordsOf
  rw [tagged_append, ofSource_append, tagged_singleton, ofSource_map_of_ne h, List.append_nil]

/-- The elements of an orderly interleaving: the records of the sources, and what one source has
sent behind the last of its own. -/
theorem orderly_records (h : Orderly sep W) :
    ∃ U : List (τ × List α), (∀ s, ofSource s U = (recordsOf sep W s).committed) ∧
      ∀ s, (∀ s', s' ≠ s → Whole sep W s') →
        tagged W = tagged U ++ (recordsOf sep W s).pending.map (Prod.mk s) := by
  induction W using List.reverseRecOn with
  | nil => exact ⟨[], fun _ => rfl, fun _ _ => rfl⟩
  | append_singleton W x ih =>
    obtain ⟨s, c⟩ := x
    obtain ⟨hW, hothers⟩ := orderly_concat.1 h
    obtain ⟨U, hU, hall⟩ := ih hW
    -- the chunk completes the records `new` of its source
    obtain ⟨new, hnew⟩ := (recordsOf sep W s).committed_prefix_run (c.map fun a => [a])
    rw [← recordsOf_concat_self] at hnew
    have hcut : (recordsOf sep W s).pending ++ c =
        new.flatten ++ (recordsOf sep (W ++ [(s, c)]) s).pending := by
      have hstream := (recordsOf sep W s).stream_run (c.map fun a => [a])
      rw [← recordsOf_concat_self, ← List.flatMap_def, List.flatMap_singleton', stream, stream,
        ← hnew, List.flatten_append, List.append_assoc, List.append_assoc,
        List.append_cancel_left_eq] at hstream
      exact hstream.symm
    have htagged : tagged (W ++ [(s, c)]) = tagged (U ++ new.map (Prod.mk s)) ++
        (recordsOf sep (W ++ [(s, c)]) s).pending.map (Prod.mk s) := by
      rw [tagged_append, hall s hothers, tagged_singleton, List.append_assoc, ← List.map_append,
        hcut, List.map_append, tagged_append, tagged_map, List.append_assoc]
    refine ⟨U ++ new.map (Prod.mk s), fun s' => ?_, fun s' hs' => ?_⟩
    · rw [ofSource_append, hU]
      rcases eq_or_ne s s' with rfl | hne
      · rw [ofSource_map_self, hnew]
      · rw [ofSource_map_of_ne hne, recordsOf_concat_of_ne hne, List.append_nil]
    · rcases eq_or_ne s s' with rfl | hne
      · exact htagged
      · have hs : (recordsOf sep (W ++ [(s, c)]) s).pending = [] := hs' s hne
        have hs'' : (recordsOf sep W s').pending = [] := hothers s' hne.symm
        rw [htagged, recordsOf_concat_of_ne hne, hs, hs'']
        rfl

theorem InRecords.isRecord (h : InRecords sep W U) : ∀ x ∈ U, IsRecord sep x.2 := by
  intro x hx
  have hmem := mem_ofSource hx
  rw [h.ofSource_eq] at hmem
  exact isRecord_records _ _ hmem

/-- In a stream made of records, every source but that of the next element is at the end of a
record. -/
theorem whole_of_prefix {U : List (τ × List α)} (hU : ∀ x ∈ U, IsRecord sep x.2)
    {P Q : List (τ × α)} {a : α} (h : P ++ (s, a) :: Q = tagged U) (hs : s' ≠ s) :
    (records sep (ofSource s' P)).pending = [] := by
  induction U generalizing P with
  | nil => simp [tagged] at h
  | cons x U ih =>
    obtain ⟨t, p⟩ := x
    have hp : (records sep (ofSource s' (p.map (Prod.mk t)))).pending = [] := by
      rcases eq_or_ne t s' with rfl | hne
      · rw [ofSource_map_self]
        have hone : ∀ q ∈ [p], IsRecord sep q := by
          intro q hq
          rw [List.mem_singleton.1 hq]
          exact hU (t, p) List.mem_cons_self
        have hflat := (records_flatten hone).2
        rwa [List.flatten_singleton] at hflat
      · rw [ofSource_map_of_ne hne]
        rfl
    have hnext : ∀ P', P = p.map (Prod.mk t) ++ P' → P' ++ (s, a) :: Q = tagged U →
        (records sep (ofSource s' P)).pending = [] := by
      rintro P' rfl hP'
      rw [ofSource_append, pending_records_append hp]
      exact ih (fun x hx => hU x (List.mem_cons_of_mem _ hx)) hP'
    rw [tagged_cons] at h
    rcases List.append_eq_append_iff.1 h with ⟨R, hR, hQ⟩ | ⟨P', hP, hP'⟩
    · cases R with
      | nil => exact hnext [] (by rw [hR, List.append_nil, List.append_nil]) hQ
      | cons y R =>
        -- the next element is in the middle of this record
        obtain ⟨rfl, -⟩ := List.cons_eq_cons.1 hQ
        have hsource : ∀ x ∈ P ++ (s, a) :: R, x.1 = t := by
          rw [← hR]
          intro x hx
          obtain ⟨b, -, rfl⟩ := List.mem_map.1 hx
          rfl
        have hnone : ofSource s' P = [] := by
          unfold ofSource
          rw [List.filter_eq_nil_iff.2, List.map_nil]
          intro x hx
          have hxt := hsource x (List.mem_append_left _ hx)
          have hst : s = t := hsource (s, a) (by simp)
          simp [hxt, ← hst, hs.symm]
        rw [hnone]
        rfl
    · exact hnext P' hP hP'.symm

/-- **An interleaving is orderly** exactly if it is made of the records of its sources. -/
theorem orderly_iff (hne : ∀ x ∈ W, x.2 ≠ []) (hwhole : ∀ s, Whole sep W s) :
    Orderly sep W ↔ ∃ U, InRecords sep W U := by
  constructor
  · intro h
    obtain ⟨U, hU, hall⟩ := orderly_records h
    refine ⟨U, ?_, hU⟩
    rcases W.eq_nil_or_concat with rfl | ⟨V, ⟨s, c⟩, rfl⟩
    · have hnil : U = [] := by
        refine List.eq_nil_iff_forall_not_mem.2 fun x hx => ?_
        have hmem := mem_ofSource hx
        rw [hU] at hmem
        simp [recordsOf, tagged, ofSource, records, empty] at hmem
      rw [hnil]
    · have hs := hall s fun s' _ => hwhole s'
      rwa [show (recordsOf sep (V.concat (s, c)) s).pending = [] from hwhole s, List.map_nil,
        List.append_nil] at hs
  · rintro ⟨U, hU⟩ n s' hs'
    have hsplit : W.take n ++ W.get n :: W.drop (n + 1) = W := by
      rw [List.get_eq_getElem, List.getElem_cons_drop, List.take_append_drop]
    have hmem : W.get n ∈ W := List.get_mem _ _
    rcases hget : W.get n with ⟨s, c⟩
    rw [hget] at hs' hsplit hmem
    cases c with
    | nil => exact absurd rfl (hne _ hmem)
    | cons a c =>
      have htagged := hU.tagged_eq
      rw [← hsplit, tagged_append, tagged_cons, List.map_cons, List.cons_append] at htagged
      exact whole_of_prefix hU.isRecord htagged hs'

/-- The records of an interleaving that is made of them. -/
theorem InRecords.content_eq (h : InRecords sep W U) : content W = content U := by
  rw [← map_snd_tagged, h.tagged_eq, map_snd_tagged]

theorem InRecords.records_content (h : InRecords sep W U) :
    (records sep (content W)).committed = U.map Prod.snd := by
  rw [h.content_eq]
  refine (records_flatten fun p hp => ?_).1
  obtain ⟨x, hx, rfl⟩ := List.mem_map.1 hp
  exact h.isRecord x hx

/-! ### Chunks that are taken as a whole -/

/-- A source is in the middle of a record behind a chunk without separator. -/
theorem not_whole_concat (hne : c ≠ []) (hc : sep ∉ c) : ¬ Whole sep (W ++ [(s, c)]) s := by
  unfold Whole recordsOf
  rw [tagged_append, ofSource_append, tagged_singleton, ofSource_map_self]
  exact records_pending_ne_nil _ hne hc

/-- **The groups of an orderly interleaving.**  If a chunk is only taken as a whole, every record
closed is a group of chunks of one source; a source of the chunks that wait is in the middle of a
record. -/
theorem orderly_groups (h : Orderly sep W) (hne : ∀ x ∈ W, x.2 ≠ []) :
    ∃ (G : List (List (τ × List α))) (tail : List (τ × List α)), W = G.flatten ++ tail ∧
      ((empty sep).run (W.map Prod.snd)).committed = G.map content ∧
      ((empty sep).run (W.map Prod.snd)).pending = content tail ∧
      (∀ g ∈ G, ∃ x ∈ g, ∀ y ∈ g, y.1 = x.1) ∧ ∀ x ∈ tail, ¬ Whole sep W x.1 := by
  induction W using List.reverseRecOn with
  | nil => exact ⟨[], [], rfl, rfl, rfl, by simp, by simp⟩
  | append_singleton W x ih =>
    obtain ⟨s, c⟩ := x
    obtain ⟨hW, hothers⟩ := orderly_concat.1 h
    obtain ⟨G, tail, hsplit, hcomm, hpend, hG, htail⟩ :=
      ih hW fun x hx => hne x (List.mem_append_left _ hx)
    -- what waits is the front of a record of `s`
    have hsource : ∀ x ∈ tail ++ [(s, c)], x.1 = s := by
      intro x hx
      rcases List.mem_append.1 hx with hx | hx
      · by_contra hxs
        exact htail x hx (hothers x.1 hxs)
      · rw [List.mem_singleton.1 hx]
    have hrun : (empty sep).run ((W ++ [(s, c)]).map Prod.snd) =
        ((empty sep).run (W.map Prod.snd)).accept c := by
      rw [List.map_append, run_append]
      rfl
    have hcontent : content (tail ++ [(s, c)]) = content tail ++ c := by
      rw [content_append, content_singleton]
    rw [hrun]
    by_cases hsep : sep ∈ c
    · obtain ⟨h1, h2⟩ := ((empty sep).run (W.map Prod.snd)).accept_mem hsep
      refine ⟨G ++ [tail ++ [(s, c)]], [], by simp [hsplit], ?_, h2, fun g hg => ?_, by simp⟩
      · rw [h1, hcomm, hpend, List.map_append, List.map_singleton, hcontent]
      · rcases List.mem_append.1 hg with hg | hg
        · exact hG g hg
        · rw [List.mem_singleton.1 hg]
          exact ⟨(s, c), by simp, hsource⟩
    · obtain ⟨h1, h2⟩ := ((empty sep).run (W.map Prod.snd)).accept_not_mem hsep
      refine ⟨G, tail ++ [(s, c)], by simp [hsplit], h1.trans hcomm, ?_, hG, fun x hx => ?_⟩
      · rw [h2, hpend, hcontent]
      · rw [hsource x hx]
        exact not_whole_concat (hne (s, c) (by simp)) hsep

end Interleaving
