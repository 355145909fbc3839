import Mathlib.Data.List.Basic
import Mathlib.Tactic

/-!
# A name for files that is taken away and given again

Opening a name that leads to no file makes a new one; a file that has lost its name stays as long as
it is open, and is written through the open files that lead to it.  The open files are numbered in
the order in which they were opened.

To those who use it this looks like one log after the other.  An epoch lasts until the name is taken
away, and the log of an epoch is what is written through the files that were opened in it, whenever
that is.

* `NamedFile`: the name, the files, and the open files;
* `Epochs`: the logs;
* `step_refines`: the first behaves as the second says;
* `Refines.through`, `Refines.named`: what is found through an open file and under the name.
-/

/-- The file that has the name, what the files hold that have had it, oldest first, and the file
that each open file leads to. -/
structure NamedFile (β : Type*) where
  name : Option ℕ
  files : List (List β)
  opened : List ℕ

/-- The name is opened, something is put at the end of an open file, or the name is taken away. -/
inductive NameOp (β : Type*)
  | open
  | append (d : ℕ) (b : List β)
  | unlink

/-- The current epoch, the epoch in which each open file was opened, and the log of each epoch. -/
structure Epochs (β : Type*) where
  current : ℕ
  births : List ℕ
  log : ℕ → List β

namespace NamedFile

variable {β : Type*}

/-- The name leads to a file with these contents, or to none. -/
def start (c : Option (List β)) : NamedFile β := ⟨c.map fun _ => 0, c.toList, []⟩

/-- One operation; only an open file can be written. -/
def step (s : NamedFile β) : NameOp β → Option (NamedFile β)
  | .open => match s.name with
    | some g => some { s with opened := s.opened ++ [g] }
    | none => some
      { name := some s.files.length
        files := s.files ++ [[]]
        opened := s.opened ++ [s.files.length] }
  | .append d b => match s.opened[d]? with
    | some g => some { s with files := s.files.modify g (· ++ b) }
    | none => none
  | .unlink => some { s with name := none }

/-- What the file holds that has the name. -/
def named (s : NamedFile β) : Option (List β) := s.name.bind (s.files[·]?)

/-- What is found through an open file. -/
def through (s : NamedFile β) (d : ℕ) : Option (List β) := s.opened[d]?.bind (s.files[·]?)

end NamedFile

namespace Epochs

variable {β : Type*}

/-- The first epoch begins. -/
def start (c : Option (List β)) : Epochs β := ⟨0, [], fun k => if k = 0 then c.getD [] else []⟩

/-- One operation. -/
def step (e : Epochs β) : NameOp β → Epochs β
  | .open => { e with births := e.births ++ [e.current] }
  | .append d b => match e.births[d]? with
    | some k => { e with log := Function.update e.log k (e.log k ++ b) }
    | none => e
  | .unlink => { e with current := e.current + 1 }

/-- One operation after the other. -/
def run (e : Epochs β) (ops : List (NameOp β)) : Epochs β := ops.foldl step e

theorem run_concat (e : Epochs β) (ops : List (NameOp β)) (op : NameOp β) :
    e.run (ops ++ [op]) = (e.run ops).step op := by
  unfold run
  rw [List.foldl_append, List.foldl_cons, List.foldl_nil]

/-- Epoch `k` has a file: it was opened then, or it is the first epoch and the file was there. -/
def Begun (c : Option (List β)) (e : Epochs β) (k : ℕ) : Prop := k ∈ e.births ∨ k = 0 ∧ c.isSome

end Epochs

namespace NamedFile

variable {β : Type*} {c : Option (List β)} {s t : NamedFile β} {e : Epochs β} {op : NameOp β}

/-- The epochs stand for the files: `file k` is the file of epoch `k`. -/
structure RefinesWith (c : Option (List β)) (s : NamedFile β) (e : Epochs β)
    (file : ℕ → Option ℕ) : Prop where
  opened : s.opened.map some = e.births.map file
  name : s.name = file e.current
  later : ∀ k, e.current < k → file k = none
  content : ∀ k g, file k = some g → s.files[g]? = some (e.log k)
  unborn : ∀ k, file k = none → e.log k = []
  begun : ∀ k, (file k).isSome ↔ e.Begun c k
  injective : ∀ j k g, file j = some g → file k = some g → j = k

/-- The epochs stand for the files. -/
def Refines (c : Option (List β)) (s : NamedFile β) (e : Epochs β) : Prop :=
  ∃ file, RefinesWith c s e file

theorem start_refines (c : Option (List β)) : Refines c (start c) (Epochs.start c) := by
  refine ⟨fun k => if k = 0 then c.map fun _ => 0 else none, ?_, ?_, ?_, ?_, ?_, ?_, ?_⟩
  · rfl
  · rfl
  · intro k hk
    exact if_neg (Nat.pos_iff_ne_zero.1 hk)
  · intro k g hg
    split_ifs at hg with hk
    obtain ⟨a, ha, rfl⟩ := Option.map_eq_some_iff.1 hg
    simp [start, Epochs.start, hk, ha]
  · intro k hk
    by_cases h0 : k = 0
    · rw [if_pos h0, Option.map_eq_none_iff] at hk
      simp [Epochs.start, hk]
    · simp [Epochs.start, h0]
  · intro k
    by_cases h0 : k = 0 <;> simp [Epochs.Begun, Epochs.start, h0]
  · intro j k g hj hk
    split_ifs at hj hk with h1 h2
    rw [h1, h2]

namespace RefinesWith

variable {file : ℕ → Option ℕ}

/-- The file of an open file. -/
theorem file_birth (h : RefinesWith c s e file) (d : ℕ) :
    s.opened[d]? = e.births[d]?.bind file := by
  have hd := congrArg (·[d]?) h.opened
  simp only [List.getElem?_map] at hd
  cases hs : s.opened[d]? with
  | none =>
    rw [hs] at hd
    have hb : e.births[d]? = none := by simpa using hd.symm
    rw [hb, Option.bind_none]
  | some g =>
    rw [hs] at hd
    obtain ⟨k, hk, hg⟩ := Option.map_eq_some_iff.1 hd.symm
    rw [hk, Option.bind_some, hg]

/-- Every file of an epoch is there. -/
theorem lt_length (h : RefinesWith c s e file) {k g : ℕ} (hg : file k = some g) :
    g < s.files.length :=
  (List.getElem?_eq_some_iff.1 (h.content k g hg)).1

end RefinesWith

/-- A file with the name is opened once more. -/
theorem open_named {file : ℕ → Option ℕ} (h : RefinesWith c s e file) {g : ℕ}
    (hg : s.name = some g) :
    RefinesWith c { s with opened := s.opened ++ [g] } (e.step .open) file where
  opened := by simp [Epochs.step, h.opened, ← hg, h.name]
  name := h.name
  later := h.later
  content := h.content
  unborn := h.unborn
  begun k := by
    rw [h.begun k]
    unfold Epochs.Begun Epochs.step
    rw [List.mem_append, List.mem_singleton]
    refine ⟨fun hk => hk.imp_left Or.inl, fun hk => ?_⟩
    rcases hk with (hk | rfl) | hk
    · exact Or.inl hk
    · exact (h.begun e.current).1 (by rw [← h.name, hg]; rfl)
    · exact Or.inr hk
  injective := h.injective

/-- The first open of an epoch makes its file. -/
theorem open_new {file : ℕ → Option ℕ} (h : RefinesWith c s e file) (hn : s.name = none) :
    RefinesWith c
      { name := some s.files.length
        files := s.files ++ [[]]
        opened := s.opened ++ [s.files.length] }
      (e.step .open) (Function.update file e.current (some s.files.length)) := by
  have hcur : file e.current = none := h.name ▸ hn
  have hne : ∀ {k g}, file k = some g → k ≠ e.current := by
    rintro k g hg rfl
    rw [hcur] at hg
    cases hg
  have hbirth : e.births.map (Function.update file e.current (some s.files.length)) =
      e.births.map file := by
    refine List.map_congr_left fun k hk => ?_
    obtain ⟨g, hg⟩ := Option.isSome_iff_exists.1 ((h.begun k).2 (Or.inl hk))
    rw [Function.update_of_ne (hne hg)]
  refine ⟨?_, ?_, ?_, ?_, ?_, ?_, ?_⟩
  · simp [Epochs.step, h.opened, hbirth]
  · simp [Epochs.step]
  · intro k hk
    change e.current < k at hk
    rw [Function.update_of_ne (by omega)]
    exact h.later k hk
  · intro k g hg
    rcases eq_or_ne k e.current with rfl | hk
    · obtain rfl : s.files.length = g := by simpa using hg
      simp [Epochs.step, h.unborn _ hcur]
    · rw [Function.update_of_ne hk] at hg
      rw [List.getElem?_append_left (h.lt_length hg)]
      exact h.content k g hg
  · intro k hk
    rcases eq_or_ne k e.current with rfl | hne
    · simp at hk
    · rw [Function.update_of_ne hne] at hk
      exact h.unborn k hk
  · intro k
    rcases eq_or_ne k e.current with rfl | hk
    · simp [Epochs.Begun, Epochs.step]
    · rw [Function.update_of_ne hk, h.begun k]
      simp [Epochs.Begun, Epochs.step, hk]
  · intro j k g hj hk
    rcases eq_or_ne j e.current with rfl | hjc <;> rcases eq_or_ne k e.current with rfl | hkc
    · rfl
    · rw [Function.update_self] at hj
      rw [Function.update_of_ne hkc] at hk
      exact absurd (h.lt_length hk) (by simp at hj; omega)
    · rw [Function.update_self] at hk
      rw [Function.update_of_ne hjc] at hj
      exact absurd (h.lt_length hj) (by simp at hk; omega)
    · rw [Function.update_of_ne hjc] at hj
      rw [Function.update_of_ne hkc] at hk
      exact h.injective j k g hj hk

/-- What is written goes into the log of the epoch of the open file. -/
theorem append_refines {file : ℕ → Option ℕ} (h : RefinesWith c s e file) {d g k : ℕ} (b : List β)
    (hk : e.births[d]? = some k) (hg : file k = some g) :
    RefinesWith c { s with files := s.files.modify g (· ++ b) } (e.step (.append d b)) file := by
  have hstep : e.step (.append d b) =
      { e with log := Function.update e.log k (e.log k ++ b) } := by
    simp only [Epochs.step, hk]
  rw [hstep]
  refine ⟨h.opened, h.name, h.later, ?_, ?_, h.begun, h.injective⟩
  · intro j f hf
    rcases eq_or_ne j k with rfl | hj
    · obtain rfl : g = f := Option.some.inj (hg.symm.trans hf)
      simp [h.content _ _ hg]
    · have hfg : g ≠ f := by
        rintro rfl
        exact hj (h.injective j k g hf hg)
      simp [Function.update_of_ne hj, hfg, h.content j f hf]
  · intro j hj
    have hjk : j ≠ k := by
      rintro rfl
      rw [hg] at hj
      cases hj
    simp only [Function.update_of_ne hjk]
    exact h.unborn j hj

/-- The next epoch has no file yet. -/
theorem unlink_refines {file : ℕ → Option ℕ} (h : RefinesWith c s e file) :
    RefinesWith c { s with name := none } (e.step .unlink) file where
  opened := h.opened
  name := (h.later _ (Nat.lt_succ_self _)).symm
  later k hk := h.later k (Nat.lt_of_succ_lt hk)
  content := h.content
  unborn := h.unborn
  begun := h.begun
  injective := h.injective

/-- **One operation.** -/
theorem step_refines (h : Refines c s e) (hs : s.step op = some t) : Refines c t (e.step op) := by
  obtain ⟨file, h⟩ := h
  cases op with
  | «open» =>
    unfold step at hs
    cases hn : s.name with
    | some g =>
      simp only [hn, Option.some.injEq] at hs
      subst hs
      have := open_named h hn
      rw [hn] at this
      exact ⟨file, this⟩
    | none =>
      simp only [hn, Option.some.injEq] at hs
      subst hs
      exact ⟨_, open_new h hn⟩
  | append d b =>
    unfold step at hs
    cases hg : s.opened[d]? with
    | none => simp [hg] at hs
    | some g =>
      simp only [hg, Option.some.injEq] at hs
      subst hs
      rw [h.file_birth, Option.bind_eq_some_iff] at hg
      obtain ⟨k, hk, hg⟩ := hg
      exact ⟨file, append_refines h b hk hg⟩
  | unlink =>
    unfold step at hs
    simp only [Option.some.injEq] at hs
    subst hs
    exact ⟨file, unlink_refines h⟩

/-! ### What is found -/

/-- What is found through an open file is the log of its epoch. -/
theorem Refines.through (h : Refines c s e) (d : ℕ) : s.through d = e.births[d]?.map e.log := by
  obtain ⟨file, h⟩ := h
  unfold NamedFile.through
  rw [h.file_birth]
  cases hk : e.births[d]? with
  | none => rfl
  | some k =>
    obtain ⟨g, hg⟩ := Option.isSome_iff_exists.1 ((h.begun k).2 (Or.inl (List.mem_of_getElem? hk)))
    simp [hg, h.content k g hg]

theorem Refines.length_opened (h : Refines c s e) : s.opened.length = e.births.length := by
  obtain ⟨file, h⟩ := h
  simpa using congrArg List.length h.opened

/-- An open file leads to the file that has the name exactly if it is of the current epoch. -/
theorem Refines.opened_eq_name_iff (h : Refines c s e) {d k : ℕ} (hk : e.births[d]? = some k) :
    s.opened[d]? = s.name ↔ k = e.current := by
  obtain ⟨file, h⟩ := h
  obtain ⟨g, hg⟩ := Option.isSome_iff_exists.1 ((h.begun k).2 (Or.inl (List.mem_of_getElem? hk)))
  rw [h.file_birth, hk, Option.bind_some, h.name, hg]
  constructor
  · intro hcur
    exact h.injective k e.current g hg hcur.symm
  · rintro rfl
    exact hg.symm

/-- Under the name is the log of the current epoch, once there is one. -/
theorem Refines.named (h : Refines c s e) :
    (s.named = some (e.log e.current) ∧ e.Begun c e.current) ∨
      (s.named = none ∧ ¬ e.Begun c e.current) := by
  obtain ⟨file, h⟩ := h
  have hbegun := h.begun e.current
  unfold NamedFile.named
  rw [h.name]
  cases hg : file e.current with
  | none =>
    rw [hg] at hbegun
    exact Or.inr ⟨rfl, fun hb => absurd (hbegun.2 hb) (by simp)⟩
  | some g =>
    rw [hg] at hbegun
    exact Or.inl ⟨by simp [h.content _ g hg], hbegun.1 rfl⟩

end NamedFile
