import Mathlib.Data.List.Basic
import Mathlib.Data.List.ReduceOption
import Mathlib.Logic.Function.Basic
import Mathlib.Tactic

/-!
# A ledger of allocated blocks

A heap in which every allocation is a block with an identifier and a fixed number of cells; a
cell that nothing was written to is `none`.  Identifiers are never used twice, so a stale pointer
stays recognisable.  Every operation is total: a misuse (freeing or reading a dead block, access
outside a block, reading a cell nothing was written to) leaves the blocks alone and is recorded in
`faults`, so that a client is memory safe exactly if its runs keep `faults` empty.

* `alloc`, `realloc`, `free`, `write`, `read`;
* `Holds h p n l`: block `p` is live, has `n` cells, and its first cells contain the list `l`;
* for each operation, what it does to `Holds`, to the set of live blocks and to `faults`;
* `Owns`: the live blocks are the listed ones; `Accounted`: each block is live, or was freed once;
* `leftover`: the live blocks as a list.
-/

/-- A misuse of memory. -/
inductive MemFault
  | free (p : ℕ)
  | realloc (p : ℕ)
  | write (p off len : ℕ)
  | read (p off len : ℕ)
  | null
  deriving DecidableEq, Repr

/-- The blocks, the next unused identifier, the identifiers freed so far and the misuses. -/
structure BlockLedger (β : Type*) where
  next : ℕ
  block : ℕ → Option (List (Option β))
  freed : List ℕ
  faults : List MemFault

namespace BlockLedger

variable {β : Type*}

/-- The ledger before the first allocation. -/
def empty : BlockLedger β := ⟨0, fun _ => none, [], []⟩

/-- A fresh block of `n` cells. -/
def alloc (h : BlockLedger β) (n : ℕ) : BlockLedger β × ℕ :=
  ({ h with
      next := h.next + 1
      block := Function.update h.block h.next (some (List.replicate n none)) }, h.next)

/-- Give block `p` back. -/
def free (h : BlockLedger β) (p : ℕ) : BlockLedger β :=
  match h.block p with
  | some _ => { h with block := Function.update h.block p none, freed := p :: h.freed }
  | none => { h with faults := .free p :: h.faults }

/-- Replace block `p` by a fresh one of `n` cells that keeps the cells that fit. -/
def realloc (h : BlockLedger β) (p n : ℕ) : BlockLedger β × ℕ :=
  match h.block p with
  | some cells =>
    ({ h with
        next := h.next + 1
        block := Function.update (Function.update h.block p none) h.next
          (some (cells.take n ++ List.replicate (n - cells.length) none))
        freed := p :: h.freed }, h.next)
  | none => ({ h with faults := .realloc p :: h.faults }, h.next)

/-- Write `l` to block `p` from cell `off` on. -/
def write (h : BlockLedger β) (p off : ℕ) (l : List β) : BlockLedger β :=
  match h.block p with
  | some cells =>
    if off + l.length ≤ cells.length then
      { h with
          block := Function.update h.block p
            (some (cells.take off ++ l.map some ++ cells.drop (off + l.length))) }
    else { h with faults := .write p off l.length :: h.faults }
  | none => { h with faults := .write p off l.length :: h.faults }

/-- Read `len` cells of block `p` from cell `off` on. -/
def read (h : BlockLedger β) (p off len : ℕ) : BlockLedger β × List β :=
  let cells := (((h.block p).getD []).drop off).take len
  if cells.reduceOption.length = len then (h, cells.reduceOption)
  else ({ h with faults := .read p off len :: h.faults }, cells.reduceOption)

/-- `read` through a pointer that may be null. -/
def readPtr (h : BlockLedger β) (p : Option ℕ) (off len : ℕ) : BlockLedger β × List β :=
  match p with
  | some p => h.read p off len
  | none => ({ h with faults := .null :: h.faults }, [])

/-- Block `p` is live, has `n` cells, and its first cells contain `l`. -/
def Holds (h : BlockLedger β) (p n : ℕ) (l : List β) : Prop :=
  ∃ cells, h.block p = some cells ∧ cells.length = n ∧ l.map some <+: cells

/-- No block has an identifier that is still to be given out. -/
def Fresh (h : BlockLedger β) : Prop := ∀ p, h.next ≤ p → h.block p = none

theorem Fresh.ne {h : BlockLedger β} (hf : h.Fresh) {p : ℕ} (hp : h.block p ≠ none) :
    p ≠ h.next := by
  rintro rfl
  exact hp (hf _ le_rfl)

theorem Holds.block_ne {h : BlockLedger β} {p n : ℕ} {l : List β} (hp : h.Holds p n l) :
    h.block p ≠ none := by
  obtain ⟨cells, hb, -⟩ := hp
  simp [hb]

theorem Holds.length_le {h : BlockLedger β} {p n : ℕ} {l : List β} (hp : h.Holds p n l) :
    l.length ≤ n := by
  obtain ⟨cells, -, rfl, hl⟩ := hp
  simpa using hl.length_le

/-- A block contains every prefix of what it contains. -/
theorem Holds.left {h : BlockLedger β} {p n : ℕ} {l m : List β} (hp : h.Holds p n (l ++ m)) :
    h.Holds p n l := by
  obtain ⟨cells, hb, hn, hl⟩ := hp
  rw [List.map_append] at hl
  exact ⟨cells, hb, hn, (List.prefix_append _ _).trans hl⟩

/-- What a block contains depends on that block only. -/
theorem Holds.congr {h h' : BlockLedger β} {p n : ℕ} {l : List β} (hp : h.Holds p n l)
    (hb : h'.block p = h.block p) : h'.Holds p n l := by
  obtain ⟨cells, hc, hn, hl⟩ := hp
  exact ⟨cells, by rw [hb, hc], hn, hl⟩

/-! ### Allocation -/

section Alloc

variable (h : BlockLedger β) (n : ℕ)

@[simp] theorem alloc_next : (h.alloc n).1.next = h.next + 1 := rfl

theorem alloc_block_self : (h.alloc n).1.block h.next = some (List.replicate n none) :=
  Function.update_self ..

theorem alloc_block_of_ne {p : ℕ} (hp : p ≠ h.next) : (h.alloc n).1.block p = h.block p :=
  Function.update_of_ne hp ..

theorem alloc_holds : (h.alloc n).1.Holds h.next n [] :=
  ⟨_, h.alloc_block_self n, List.length_replicate .., List.nil_prefix⟩

theorem Fresh.alloc {h : BlockLedger β} (hf : h.Fresh) : (h.alloc n).1.Fresh := by
  intro p hp
  rw [alloc_next] at hp
  rw [alloc_block_of_ne _ _ (by omega)]
  exact hf p (by omega)

end Alloc

/-! ### Deallocation -/

theorem free_eq {h : BlockLedger β} {p : ℕ} (hp : h.block p ≠ none) :
    h.free p = { h with block := Function.update h.block p none, freed := p :: h.freed } := by
  unfold free
  cases hb : h.block p with
  | none => exact absurd hb hp
  | some cells => rfl

theorem free_faults {h : BlockLedger β} {p : ℕ} (hp : h.block p ≠ none) :
    (h.free p).faults = h.faults := by rw [free_eq hp]

theorem free_next {h : BlockLedger β} {p : ℕ} (hp : h.block p ≠ none) :
    (h.free p).next = h.next := by rw [free_eq hp]

theorem free_block_self {h : BlockLedger β} {p : ℕ} (hp : h.block p ≠ none) :
    (h.free p).block p = none := by rw [free_eq hp]; exact Function.update_self ..

theorem free_block_of_ne {h : BlockLedger β} {p q : ℕ} (hp : h.block p ≠ none) (hq : q ≠ p) :
    (h.free p).block q = h.block q := by rw [free_eq hp]; exact Function.update_of_ne hq ..

theorem Fresh.free {h : BlockLedger β} (hf : h.Fresh) {p : ℕ} (hp : h.block p ≠ none) :
    (h.free p).Fresh := by
  intro q hq
  rw [free_next hp] at hq
  by_cases hqp : q = p
  · rw [hqp]; exact free_block_self hp
  · rw [free_block_of_ne hp hqp]; exact hf q hq

/-! ### Reallocation -/

section Realloc

variable {h : BlockLedger β} {p m : ℕ} {l : List β} (n : ℕ)

theorem realloc_snd : (h.realloc p n).2 = h.next := by
  unfold realloc; split <;> rfl

theorem realloc_eq {cells : List (Option β)} (hp : h.block p = some cells) :
    (h.realloc p n).1 = { h with
      next := h.next + 1
      block := Function.update (Function.update h.block p none) h.next
        (some (cells.take n ++ List.replicate (n - cells.length) none))
      freed := p :: h.freed } := by
  unfold realloc; rw [hp]

theorem realloc_faults (hp : h.block p ≠ none) : (h.realloc p n).1.faults = h.faults := by
  obtain ⟨cells, hc⟩ := Option.ne_none_iff_exists'.1 hp
  rw [realloc_eq n hc]

theorem realloc_block_of_ne (hp : h.block p ≠ none) {q : ℕ} (hq : q ≠ p) (hn : q ≠ h.next) :
    (h.realloc p n).1.block q = h.block q := by
  obtain ⟨cells, hc⟩ := Option.ne_none_iff_exists'.1 hp
  rw [realloc_eq n hc]
  simp only [Function.update_of_ne hn, Function.update_of_ne hq]

theorem realloc_block_old (hf : h.Fresh) (hp : h.block p ≠ none) :
    (h.realloc p n).1.block p = none := by
  obtain ⟨cells, hc⟩ := Option.ne_none_iff_exists'.1 hp
  rw [realloc_eq n hc]
  simp only [Function.update_of_ne (hf.ne hp), Function.update_self]

/-- A block that still has room for its contents keeps them. -/
theorem Holds.realloc (hp : h.Holds p m l) (hn : l.length ≤ n) :
    (h.realloc p n).1.Holds h.next n l := by
  obtain ⟨cells, hc, -, hl⟩ := hp
  rw [realloc_eq n hc]
  refine ⟨_, Function.update_self .., ?_, ?_⟩
  · simp only [List.length_append, List.length_take, List.length_replicate]
    omega
  · have htake : l.map some <+: cells.take n :=
      List.prefix_take_iff.2 ⟨hl, by simpa using hn⟩
    exact htake.trans (List.prefix_append _ _)

theorem Fresh.realloc (hf : h.Fresh) (hp : h.block p ≠ none) : (h.realloc p n).1.Fresh := by
  intro q hq
  have hlt : p < h.next := by
    by_contra hge
    exact hp (hf p (by omega))
  have hnext : (h.realloc p n).1.next = h.next + 1 := by
    obtain ⟨cells, hc⟩ := Option.ne_none_iff_exists'.1 hp
    rw [realloc_eq n hc]
  rw [hnext] at hq
  rw [realloc_block_of_ne n hp (by omega) (by omega)]
  exact hf q (by omega)

end Realloc

/-! ### Access -/

section Access

variable {h : BlockLedger β} {p n : ℕ} {l : List β}

theorem write_next (h : BlockLedger β) (p off : ℕ) (m : List β) :
    (h.write p off m).next = h.next := by
  unfold write; split
  · split_ifs <;> rfl
  · rfl

theorem write_block_of_ne (off : ℕ) (m : List β) {q : ℕ} (hq : q ≠ p) :
    (h.write p off m).block q = h.block q := by
  unfold write; split
  · split_ifs
    · exact Function.update_of_ne hq ..
    · rfl
  · rfl

/-- Writing behind the contents of a block appends to them. -/
theorem Holds.write (hp : h.Holds p n l) {m : List β} (hm : l.length + m.length ≤ n) :
    (h.write p l.length m).Holds p n (l ++ m) ∧
      (h.write p l.length m).faults = h.faults := by
  obtain ⟨cells, hc, rfl, hl⟩ := hp
  have htake : cells.take l.length = l.map some := by
    have := List.prefix_iff_eq_take.1 hl
    rw [this]; simp
  unfold BlockLedger.write
  rw [hc]
  simp only [if_pos hm]
  -- the cells in front keep the old contents, and the new ones follow
  refine ⟨⟨_, Function.update_self .., ?_, ?_⟩, trivial⟩
  · simp; omega
  · rw [htake, List.map_append]
    exact List.prefix_append _ _

theorem Fresh.write (hf : h.Fresh) (hp : h.block p ≠ none) (off : ℕ) (m : List β) :
    (h.write p off m).Fresh := by
  intro q hq
  rw [write_next] at hq
  have hqp : q ≠ p := by
    rintro rfl
    exact hp (hf q hq)
  rw [write_block_of_ne off m hqp]
  exact hf q hq

/-- Reading inside the contents of a block returns them and changes nothing. -/
theorem Holds.read (hp : h.Holds p n l) {off len : ℕ} (hlen : off + len ≤ l.length) :
    h.read p off len = (h, (l.drop off).take len) := by
  obtain ⟨cells, hc, -, rest, rfl⟩ := hp
  have hcells : ((l.map some ++ rest).drop off).take len = ((l.drop off).take len).map some := by
    rw [List.drop_append_of_le_length (by simp; omega), List.take_append_of_le_length
      (by simp; omega), List.map_take, List.map_drop]
  have hred : (((l.drop off).take len).map some).reduceOption = (l.drop off).take len := by
    unfold List.reduceOption
    rw [List.filterMap_map]
    exact List.filterMap_some ..
  unfold BlockLedger.read
  simp only [hc, Option.getD_some, hcells, hred]
  rw [if_pos (by simp; omega)]

/-- Reading a block of one cell. -/
theorem read_cell {a : β} (hp : h.block p = some [some a]) : h.read p 0 1 = (h, [a]) := by
  have hholds : h.Holds p 1 [a] := ⟨_, hp, rfl, List.prefix_rfl⟩
  exact hholds.read le_rfl

/-- Writing to a block of one cell. -/
theorem write_cell {c : Option β} (hp : h.block p = some [c]) (a : β) :
    h.write p 0 [a] = { h with block := Function.update h.block p (some [some a]) } := by
  unfold BlockLedger.write
  rw [hp]
  rfl

end Access

/-! ### Owned blocks -/

/-- The live blocks are exactly the listed ones, each listed once, each with the contents listed
with it and with at most `limit` cells; and nothing went wrong so far. -/
structure Owns (limit : ℕ) (h : BlockLedger β) (bs : List (ℕ × List β)) : Prop where
  holds : ∀ b ∈ bs, ∃ n ≤ limit, h.Holds b.1 n b.2
  nodup : (bs.map Prod.fst).Nodup
  live : ∀ p, h.block p ≠ none ↔ p ∈ bs.map Prod.fst
  fresh : h.Fresh
  faults : h.faults = []

section Owns

variable {limit : ℕ} {h : BlockLedger β} {bs : List (ℕ × List β)} {p : ℕ} {l : List β}

theorem owns_empty : Owns limit (empty : BlockLedger β) [] where
  holds := by simp
  nodup := by simp
  live := by simp [empty]
  fresh := fun _ _ => rfl
  faults := rfl

theorem Owns.block_ne (ho : Owns limit h bs) {b : ℕ × List β} (hb : b ∈ bs) :
    h.block b.1 ≠ none := (ho.live b.1).2 (List.mem_map_of_mem hb)

theorem Owns.length_le (ho : Owns limit h bs) {b : ℕ × List β} (hb : b ∈ bs) :
    b.2.length ≤ limit := by
  obtain ⟨n, hn, hh⟩ := ho.holds b hb
  exact hh.length_le.trans hn

theorem Owns.next_not_mem (ho : Owns limit h bs) : h.next ∉ bs.map Prod.fst := fun hm =>
  (ho.live _).2 hm (ho.fresh _ le_rfl)

/-- An allocation adds an empty block. -/
theorem Owns.alloc (ho : Owns limit h bs) {n : ℕ} (hn : n ≤ limit) :
    Owns limit (h.alloc n).1 (bs ++ [(h.next, [])]) where
  holds := by
    intro b hb
    rcases List.mem_append.1 hb with hb | hb
    · obtain ⟨m, hm, hh⟩ := ho.holds b hb
      exact ⟨m, hm, hh.congr (alloc_block_of_ne _ _ (ho.fresh.ne (ho.block_ne hb)))⟩
    · rw [List.mem_singleton.1 hb]
      exact ⟨n, hn, h.alloc_holds n⟩
  nodup := by
    rw [List.map_append]
    exact ho.nodup.append (by simp) (by simpa using ho.next_not_mem)
  live := by
    intro q
    rw [List.map_append, List.mem_append]
    by_cases hq : q = h.next
    · subst hq
      simp [alloc_block_self]
    · rw [alloc_block_of_ne _ _ hq, ho.live q]
      simp [hq]
  fresh := ho.fresh.alloc n
  faults := ho.faults

/-- A successful reallocation of the last block gives it a new identifier. -/
theorem Owns.realloc (ho : Owns limit h (bs ++ [(p, l)])) {n : ℕ} (hl : l.length ≤ n)
    (hn : n ≤ limit) : Owns limit (h.realloc p n).1 (bs ++ [(h.next, l)]) := by
  have hlast : (p, l) ∈ bs ++ [(p, l)] := by simp
  have hp : h.block p ≠ none := ho.block_ne hlast
  have hnd := ho.nodup
  rw [List.map_append, List.nodup_append] at hnd
  have hne : ∀ q ∈ bs.map Prod.fst, q ≠ p := fun q hq => hnd.2.2 q hq p (by simp)
  have hne' : ∀ q ∈ bs.map Prod.fst, q ≠ h.next := by
    rintro q hq rfl
    exact ho.next_not_mem (by rw [List.map_append]; exact List.mem_append_left _ hq)
  constructor
  · intro b hb
    rcases List.mem_append.1 hb with hb | hb
    · obtain ⟨m, hm, hh⟩ := ho.holds b (List.mem_append_left _ hb)
      have hb1 := List.mem_map_of_mem (f := Prod.fst) hb
      exact ⟨m, hm, hh.congr (realloc_block_of_ne n hp (hne _ hb1) (hne' _ hb1))⟩
    · rw [List.mem_singleton.1 hb]
      obtain ⟨m, -, hh⟩ := ho.holds _ hlast
      exact ⟨n, hn, hh.realloc n hl⟩
  · rw [List.map_append]
    exact hnd.1.append (by simp) (by simpa using fun hm => hne' _ hm rfl)
  · intro q
    rw [List.map_append, List.mem_append]
    -- the new identifier is live, the old one is not, and the others are as before
    by_cases hq : q = h.next
    · subst hq
      obtain ⟨cells, hc⟩ := Option.ne_none_iff_exists'.1 hp
      simp [realloc_eq n hc]
    · by_cases hqp : q = p
      · subst hqp
        rw [realloc_block_old n ho.fresh hp]
        have : q ∉ bs.map Prod.fst := fun hm => hne q hm rfl
        simpa [hq] using this
      · rw [realloc_block_of_ne n hp hqp hq, ho.live q]
        simp [hq, hqp]
  · exact ho.fresh.realloc n hp
  · rw [realloc_faults n hp, ho.faults]

/-- Writing behind the contents of the last block appends to them; the caller may count only a
prefix `m` of what it has written. -/
theorem Owns.write (ho : Owns limit h (bs ++ [(p, l)])) {n : ℕ} (hh : h.Holds p n l)
    (hlim : n ≤ limit) {m z : List β} (hn : l.length + (m ++ z).length ≤ n) :
    Owns limit (h.write p l.length (m ++ z)) (bs ++ [(p, l ++ m)]) := by
  have hlast : (p, l) ∈ bs ++ [(p, l)] := by simp
  have hp : h.block p ≠ none := ho.block_ne hlast
  have hnd := ho.nodup
  rw [List.map_append, List.nodup_append] at hnd
  have hne : ∀ q ∈ bs.map Prod.fst, q ≠ p := fun q hq => hnd.2.2 q hq p (by simp)
  obtain ⟨hw, hf⟩ := hh.write hn
  constructor
  · intro b hb
    rcases List.mem_append.1 hb with hb | hb
    · obtain ⟨m', hm', hh'⟩ := ho.holds b (List.mem_append_left _ hb)
      exact ⟨m', hm', hh'.congr
        (write_block_of_ne _ _ (hne _ (List.mem_map_of_mem (f := Prod.fst) hb)))⟩
    · rw [List.mem_singleton.1 hb]
      rw [← List.append_assoc] at hw
      exact ⟨n, hlim, hw.left⟩
  · simpa using ho.nodup
  · intro q
    have hiff := ho.live q
    rw [List.map_append] at hiff ⊢
    by_cases hqp : q = p
    · subst hqp
      simpa using hw.block_ne
    · rw [write_block_of_ne _ _ hqp]
      simpa using hiff
  · exact ho.fresh.write hp _ _
  · rw [hf, ho.faults]

/-- Freeing the first block removes it. -/
theorem Owns.free (ho : Owns limit h ((p, l) :: bs)) : Owns limit (h.free p) bs := by
  have hp : h.block p ≠ none := ho.block_ne List.mem_cons_self
  have hnd := ho.nodup
  rw [List.map_cons, List.nodup_cons] at hnd
  have hne : ∀ q ∈ bs.map Prod.fst, q ≠ p := by
    rintro q hq rfl
    exact hnd.1 hq
  constructor
  · intro b hb
    obtain ⟨n, hn, hh⟩ := ho.holds b (List.mem_cons_of_mem _ hb)
    exact ⟨n, hn, hh.congr (free_block_of_ne hp (hne _ (List.mem_map_of_mem hb)))⟩
  · exact hnd.2
  · intro q
    by_cases hqp : q = p
    · subst hqp
      rw [free_block_self hp]
      simpa using hnd.1
    · rw [free_block_of_ne hp hqp, ho.live q, List.map_cons, List.mem_cons]
      exact or_iff_right hqp
  · exact ho.fresh.free hp
  · rw [free_faults hp, ho.faults]

/-- Reading inside an owned block. -/
theorem Owns.read (ho : Owns limit h bs) (hb : (p, l) ∈ bs) {off len : ℕ}
    (hlen : off + len ≤ l.length) : h.read p off len = (h, (l.drop off).take len) := by
  obtain ⟨n, -, hh⟩ := ho.holds _ hb
  exact hh.read hlen

/-- The order in which the blocks are listed does not matter. -/
theorem Owns.perm (ho : Owns limit h bs) {cs : List (ℕ × List β)} (hp : bs.Perm cs) :
    Owns limit h cs where
  holds := fun b hb => ho.holds b (hp.mem_iff.2 hb)
  nodup := (hp.map Prod.fst).nodup_iff.1 ho.nodup
  live := fun p => (ho.live p).trans (hp.map Prod.fst).mem_iff
  fresh := ho.fresh
  faults := ho.faults

/-- Freeing some of the blocks, each once and in any order, leaves the others. -/
theorem Owns.free_all {cs : List (ℕ × List β)} (ho : Owns limit h (bs ++ cs)) {ps : List ℕ}
    (hps : ps.Perm (bs.map Prod.fst)) : Owns limit (ps.foldl BlockLedger.free h) cs := by
  induction ps generalizing h bs with
  | nil =>
    have hnil : bs = [] := List.map_eq_nil_iff.1 (List.nil_perm.1 hps)
    rwa [hnil, List.nil_append] at ho
  | cons p ps ih =>
    obtain ⟨⟨q, l⟩, hb, rfl⟩ := List.mem_map.1 (hps.mem_iff.1 List.mem_cons_self)
    obtain ⟨ds, es, rfl⟩ := List.append_of_mem hb
    have hfirst : (ds ++ (q, l) :: es).Perm ((q, l) :: (ds ++ es)) := List.perm_middle
    have hrest : ps.Perm ((ds ++ es).map Prod.fst) := (hps.trans (hfirst.map Prod.fst)).cons_inv
    exact ih (ho.perm (hfirst.append_right cs)).free hrest

end Owns

/-! ### What becomes of the blocks -/

/-- Every block given out so far is live, or it has been freed exactly once. -/
structure Accounted (h : BlockLedger β) : Prop where
  fresh : h.Fresh
  live : ∀ p, h.block p ≠ none → h.freed.count p = 0
  dead : ∀ p < h.next, h.block p = none → h.freed.count p = 1
  unused : ∀ p, h.next ≤ p → h.freed.count p = 0

/-- No block is live, and every one that has been given out was freed exactly once. -/
structure Clean (h : BlockLedger β) : Prop where
  dead : ∀ p, h.block p = none
  once : ∀ p < h.next, h.freed.count p = 1

section Accounted

variable {h : BlockLedger β} {p : ℕ}

theorem accounted_empty : (empty : BlockLedger β).Accounted :=
  ⟨fun _ _ => rfl, fun _ _ => rfl, fun p hp => absurd hp (Nat.not_lt_zero p), fun _ _ => rfl⟩

theorem Accounted.clean_iff (ha : h.Accounted) : h.Clean ↔ ∀ p, h.block p = none :=
  ⟨Clean.dead, fun hd => ⟨hd, fun p hp => ha.dead p hp (hd p)⟩⟩

/-- What is recorded of the blocks does not depend on their contents and on the faults. -/
theorem Accounted.congr (ha : h.Accounted) {h' : BlockLedger β} (hn : h'.next = h.next)
    (hf : h'.freed = h.freed) (hb : ∀ p, h'.block p = none ↔ h.block p = none) : h'.Accounted where
  fresh := fun p hp => (hb p).2 (ha.fresh p (hn ▸ hp))
  live := fun p hp => by rw [hf]; exact ha.live p fun hnone => hp ((hb p).2 hnone)
  dead := fun p hp hnone => by rw [hf]; exact ha.dead p (hn ▸ hp) ((hb p).1 hnone)
  unused := fun p hp => by rw [hf]; exact ha.unused p (hn ▸ hp)

theorem Accounted.alloc (ha : h.Accounted) (n : ℕ) : (h.alloc n).1.Accounted where
  fresh := ha.fresh.alloc n
  live := by
    intro q hq
    by_cases hqn : q = h.next
    · exact ha.unused q hqn.ge
    · rw [alloc_block_of_ne _ _ hqn] at hq
      exact ha.live q hq
  dead := by
    intro q hlt hnone
    rw [alloc_next] at hlt
    have hqn : q ≠ h.next := by
      rintro rfl
      simp [alloc_block_self] at hnone
    rw [alloc_block_of_ne _ _ hqn] at hnone
    exact ha.dead q (by omega) hnone
  unused := fun q hq => ha.unused q (by rw [alloc_next] at hq; omega)

theorem Accounted.free (ha : h.Accounted) (p : ℕ) : (h.free p).Accounted := by
  by_cases hp : h.block p = none
  · -- nothing is freed, and the fault is recorded
    have heq : h.free p = { h with faults := .free p :: h.faults } := by
      unfold BlockLedger.free; rw [hp]
    rw [heq]
    exact ha.congr rfl rfl fun _ => Iff.rfl
  · have hlt : p < h.next := by
      by_contra hge
      exact hp (ha.fresh p (by omega))
    have hfreed : (h.free p).freed = p :: h.freed := by rw [free_eq hp]
    refine ⟨ha.fresh.free hp, fun q hq => ?_, fun q hqlt hnone => ?_, fun q hq => ?_⟩
    · have hqp : p ≠ q := by
        rintro rfl
        exact hq (free_block_self hp)
      rw [free_block_of_ne hp hqp.symm] at hq
      rw [hfreed, List.count_cons_of_ne hqp, ha.live q hq]
    · rw [free_next hp] at hqlt
      by_cases hqp : p = q
      · subst hqp
        rw [hfreed, List.count_cons_self, ha.live p hp]
      · rw [free_block_of_ne hp (Ne.symm hqp)] at hnone
        rw [hfreed, List.count_cons_of_ne hqp, ha.dead q hqlt hnone]
    · rw [free_next hp] at hq
      rw [hfreed, List.count_cons_of_ne (by omega), ha.unused q hq]

/-- A reallocation frees the old block and gives out a new one. -/
theorem Accounted.realloc (ha : h.Accounted) (p n : ℕ) : (h.realloc p n).1.Accounted := by
  by_cases hp : h.block p = none
  · have heq : (h.realloc p n).1 = { h with faults := .realloc p :: h.faults } := by
      unfold BlockLedger.realloc; rw [hp]
    rw [heq]
    exact ha.congr rfl rfl fun _ => Iff.rfl
  · obtain ⟨cells, hc⟩ := Option.ne_none_iff_exists'.1 hp
    refine ((ha.free p).alloc 0).congr ?_ ?_ fun q => ?_
    · rw [realloc_eq n hc, alloc_next, free_next hp]
    · rw [realloc_eq n hc]
      exact (congrArg BlockLedger.freed (free_eq hp)).symm
    · by_cases hq : q = h.next
      · subst hq
        rw [← free_next hp, alloc_block_self, free_next hp, realloc_eq n hc]
        simp
      · rw [alloc_block_of_ne _ _ (by rwa [free_next hp])]
        by_cases hqp : q = p
        · subst hqp
          rw [realloc_block_old n ha.fresh hp, free_block_self hp]
        · rw [realloc_block_of_ne n hp hqp hq, free_block_of_ne hp hqp]

theorem Accounted.write (ha : h.Accounted) (p off : ℕ) (m : List β) :
    (h.write p off m).Accounted := by
  unfold BlockLedger.write
  cases hb : h.block p with
  | none => exact ha.congr rfl rfl fun _ => Iff.rfl
  | some cells =>
    dsimp only
    split_ifs
    · refine ha.congr rfl rfl fun q => ?_
      by_cases hq : q = p
      · subst hq
        simp [hb]
      · simp only [Function.update_of_ne hq]
    · exact ha.congr rfl rfl fun _ => Iff.rfl

theorem Accounted.readPtr (ha : h.Accounted) (p : Option ℕ) (off len : ℕ) :
    (h.readPtr p off len).1.Accounted := by
  cases p with
  | none => exact ha.congr rfl rfl fun _ => Iff.rfl
  | some p =>
    simp only [BlockLedger.readPtr, BlockLedger.read]
    split_ifs
    · exact ha
    · exact ha.congr rfl rfl fun _ => Iff.rfl

theorem Accounted.free_all (ha : h.Accounted) (ps : List ℕ) :
    (ps.foldl BlockLedger.free h).Accounted := by
  induction ps generalizing h with
  | nil => exact ha
  | cons p ps ih => exact ih (ha.free p)

end Accounted

/-! ### What is left -/

/-- The live blocks. -/
def leftover (h : BlockLedger β) : List ℕ := (List.range h.next).filter fun p => (h.block p).isSome

section Leftover

variable {h : BlockLedger β}

theorem mem_leftover (hf : h.Fresh) {p : ℕ} : p ∈ h.leftover ↔ h.block p ≠ none := by
  unfold leftover
  rw [List.mem_filter, List.mem_range, Option.isSome_iff_ne_none, and_iff_right_iff_imp]
  exact fun hp => by
    by_contra hge
    exact hp (hf p (by omega))

/-- If at most one block is live, it is all that is left. -/
theorem leftover_eq (hf : h.Fresh) {o : Option ℕ} (ho : ∀ p, h.block p ≠ none ↔ o = some p) :
    h.leftover = o.toList := by
  have hnd : h.leftover.Nodup := List.nodup_range.filter _
  have hperm : h.leftover.Perm o.toList := by
    rw [List.perm_ext_iff_of_nodup hnd (by cases o <;> simp)]
    intro p
    rw [mem_leftover hf, ho, Option.mem_toList]
  cases o with
  | none => exact hperm.eq_nil
  | some p => exact List.perm_singleton.1 hperm

end Leftover

end BlockLedger
