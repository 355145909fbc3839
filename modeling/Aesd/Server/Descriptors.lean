import Aesd.Server.Process

/-!
# The discipline of `datafd`

`datafd` is one variable for all threads.  It works as long as every handler finds in it the
descriptor it has opened itself, which is so in runs where no handler opens the data file while
another has it open, and where the timestamp thread only writes while some handler has it open
(`OneAtATime`).

* `Owned`: what then holds of the descriptor table in every state;
* `datafd_discipline`: such runs keep the discipline;
* `datafd_overlap`: two connections at a time do not.
-/

namespace Aesd

namespace Process

variable {σ ι : Type*}

/-- A handler opens the data file only while no other is between its `open` and its `close`, and the
timestamp thread writes only while some handler is.  A handler that has gone into `cleanup` is no
longer between them: it makes no more calls of its own through `datafd`. -/
def Alone (s : Process σ ι) : ServerEvent ι → Prop
  | .accept _ => True
  | .handler i _ => (s.handler i).pc = .open → ∀ j, (s.handler j).pc.holdsFile = false
  | .timestamp _ => ∃ j, (s.handler j).pc.holdsFile = true

instance [Fintype ι] (s : Process σ ι) : (e : ServerEvent ι) → Decidable (s.Alone e)
  | .accept _ => inferInstanceAs (Decidable True)
  | .handler _ _ => inferInstanceAs (Decidable (_ → _))
  | .timestamp _ => inferInstanceAs (Decidable (∃ _, _))

/-- Handlers come one at a time; one that is in `cleanup` keeps no other from opening. -/
def OneAtATime (tr : List (Exec.Trans (Process σ ι) (ServerEvent ι))) : Prop :=
  ∀ x ∈ tr, x.before.Alone x.event

/-- The opener of the open data file that a step closes. -/
def closed (x : Exec.Trans (Process σ ι) (ServerEvent ι)) : Option ι :=
  match x.event with
  | .handler i _ => match (x.before.handler i).pc with
    | .close => x.before.target.bind Obj.opener
    | .closeSock => ((x.before.sock i).bind x.before.fds.get).bind Obj.opener
    | _ => none
  | .accept _ | .timestamp _ => none

/-- The state of the descriptor table when handlers come one at a time: each client has its
socket, and the handler that has the data file open finds it in `datafd`. -/
structure Owned (s : Process σ ι) : Prop where
  socks : ∀ j fd, s.sock j = some fd → (s.handler j).pc ≠ .done →
    s.fds.get fd = some (.sock j)
  file : ∀ j, (s.handler j).pc.holdsFile = true → ∃ pos, s.target = some (.data j pos)

section Owned

variable {D : Driver σ} {s t : Process σ ι} {i j : ι} {env : Env}

theorem Owned.unique (h : s.Owned) (hi : (s.handler i).pc.holdsFile = true)
    (hj : (s.handler j).pc.holdsFile = true) : i = j := by
  obtain ⟨p, hp⟩ := h.file i hi
  obtain ⟨q, hq⟩ := h.file j hj
  rw [hp, Option.some.injEq, Obj.data.injEq] at hq
  exact hq.1

/-- Moving the position of the open file keeps everything in place. -/
theorem Owned.put (h : s.Owned) (hfd : t.datafd = s.datafd) (hsock : t.sock = s.sock)
    (hfds : t.fds = s.fds ∨ ∃ j pos pos', s.target = some (.data j pos) ∧
      t.fds = s.fds.put s.datafd.toNat (.data j pos')) :
    (∀ j fd, t.sock j = some fd → (s.handler j).pc ≠ .done → t.fds.get fd = some (.sock j)) ∧
      ∀ j pos, s.target = some (.data j pos) → ∃ pos', t.target = some (.data j pos') := by
  rw [hsock]
  rcases hfds with hfds | ⟨k, p, p', htarget, hfds⟩
  · rw [hfds]
    refine ⟨h.socks, fun j pos hj => ⟨pos, ?_⟩⟩
    rw [target_eq_some] at hj ⊢
    rwa [hfd, hfds]
  · obtain ⟨hge, hget⟩ := target_eq_some.1 htarget
    constructor
    · intro j fd hj hpc
      have hold := h.socks j fd hj hpc
      have hne : fd ≠ s.datafd.toNat := by
        rintro rfl
        rw [hget] at hold
        simp at hold
      rw [hfds, SlotTable.get_put_of_ne _ hne, hold]
    · intro j pos hj
      rw [htarget, Option.some.injEq, Obj.data.injEq] at hj
      refine ⟨p', target_eq_some.2 ⟨by rw [hfd]; exact hge, ?_⟩⟩
      rw [hfds, hfd, SlotTable.get_put_self _ hget, hj.1]

/-- A descriptor of a socket is not `datafd`. -/
theorem Owned.sock_ne (h : s.Owned) {k : ι} {fd : ℕ} {pos : ℤ} (hk : s.sock k = some fd)
    (hpc : (s.handler k).pc ≠ .done) (htarget : s.target = some (.data j pos)) :
    fd ≠ s.datafd.toNat := by
  obtain ⟨-, hget⟩ := target_eq_some.1 htarget
  have hsock := h.socks k fd hk hpc
  rintro rfl
  rw [hget] at hsock
  simp at hsock

variable [DecidableEq ι]

theorem Owned.accept (h : s.Owned) (he : s.step D (.accept i) = some t) : t.Owned := by
  obtain ⟨-, hfds, hfd, hsock, hhandler⟩ := step_accept he
  constructor
  · intro j fd hj hpc
    rw [hhandler] at hpc
    rw [hfds]
    rcases eq_or_ne j i with rfl | hji
    · rw [hsock, Function.update_self, Option.some.injEq] at hj
      rw [← hj]
      exact SlotTable.get_add_self _ _
    · rw [hsock, Function.update_of_ne hji] at hj
      exact SlotTable.get_add_of_some _ (h.socks j fd hj hpc)
  · intro j hj
    rw [hhandler] at hj
    obtain ⟨pos, hpos⟩ := h.file j hj
    obtain ⟨hge, hget⟩ := target_eq_some.1 hpos
    refine ⟨pos, target_eq_some.2 ⟨by rw [hfd]; exact hge, ?_⟩⟩
    rw [hfds, hfd]
    exact SlotTable.get_add_of_some _ hget

theorem Owned.timestamp (h : s.Owned) {line : TimestampLine}
    (he : s.step D (.timestamp line) = some t) : t.Owned := by
  obtain ⟨hfd, hsock, hhandler, hfds⟩ := step_timestamp he
  obtain ⟨hsocks, htarget⟩ := h.put hfd hsock hfds
  constructor
  · intro j fd hj hpc
    rw [hhandler] at hpc
    exact hsocks j fd hj hpc
  · intro j hj
    rw [hhandler] at hj
    obtain ⟨pos, hpos⟩ := h.file j hj
    exact htarget j pos hpos

/-- The step of a handler; where it opens the data file, no other has it open. -/
theorem Owned.handler (h : s.Owned) (he : s.step D (.handler i env) = some t)
    (halone : (s.handler i).pc = .open → ∀ j, (s.handler j).pc.holdsFile = false) : t.Owned := by
  obtain ⟨fd, hfd_i, hsock, hother, hdoes⟩ := step_handler he
  have hlive : (s.handler i).pc ≠ .done := by
    intro hd
    cases hdoes <;> simp_all [Pc.holdsFile]
  have hdone : ∀ j, (t.handler j).pc ≠ .done → (s.handler j).pc ≠ .done := by
    intro j hj
    rcases eq_or_ne j i with rfl | hji
    · exact hlive
    · rwa [← hother j hji]
  -- after a call that leaves the handler without the file, only others can have it
  have hheld : (t.handler i).pc.holdsFile = false → ∀ j, (t.handler j).pc.holdsFile = true →
      j ≠ i ∧ (s.handler j).pc.holdsFile = true := by
    intro hi j hj
    have hji : j ≠ i := by
      rintro rfl
      simp [hi] at hj
    exact ⟨hji, hother j hji ▸ hj⟩
  cases hdoes with
  | opens hpc ht hfds hfd =>
    constructor
    · intro j fd hj hne
      rw [hfds]
      exact SlotTable.get_add_of_some _ (h.socks j fd (hsock ▸ hj) (hdone j hne))
    · intro j hj
      rcases eq_or_ne j i with rfl | hji
      · exact ⟨0, target_eq_some.2 ⟨by rw [hfd]; omega, by rw [hfds, hfd]; simp⟩⟩
      · rw [hother j hji, halone hpc j] at hj
        simp at hj
  | failsToOpen hpc ht hfds hfd =>
    constructor
    · intro j fd hj hne
      rw [hfds]
      exact h.socks j fd (hsock ▸ hj) (hdone j hne)
    · intro j hj
      obtain ⟨-, hj⟩ := hheld (by rw [ht]; rfl) j hj
      simp [halone hpc j] at hj
  | works hpc hne ht hfds hfd =>
    -- a call in the loop moves at most the position of the open file
    obtain ⟨hsocks, htarget⟩ := h.put hfd hsock hfds
    obtain ⟨pos, hpos⟩ := h.file i hpc
    constructor
    · exact fun j fd hj hnd => hsocks j fd hj (hdone j hnd)
    · intro j hj
      rcases eq_or_ne j i with rfl | hji
      · exact htarget j pos hpos
      · rw [hother j hji] at hj
        exact absurd (h.unique hj hpc) hji
  | closes hpc ht hfds hfd =>
    have hin : (s.handler i).pc.holdsFile = true := by rw [hpc]; rfl
    obtain ⟨pos, hpos⟩ := h.file i hin
    obtain ⟨hge, -⟩ := target_eq_some.1 hpos
    constructor
    · intro j fd hj hnd
      rw [hsock] at hj
      rw [hfds, if_pos hge, SlotTable.get_remove_of_ne (h.sock_ne hj (hdone j hnd) hpos)]
      exact h.socks j fd hj (hdone j hnd)
    · intro j hj
      obtain ⟨hji, hj⟩ := hheld (by rw [ht]; rfl) j hj
      exact absurd (h.unique hj hin) hji
  | closesSock hpc ht hfds hfd =>
    -- a socket has a descriptor of its own, so that of no other client is closed
    have hget := h.socks i fd hfd_i hlive
    constructor
    · intro j fd' hj hnd
      rcases eq_or_ne j i with rfl | hji
      · exact absurd ht hnd
      · have hold := h.socks j fd' (hsock ▸ hj) (hdone j hnd)
        have hne : fd' ≠ fd := by
          rintro rfl
          rw [hget, Option.some.injEq, Obj.sock.injEq] at hold
          exact hji hold.symm
        rw [hfds, SlotTable.get_remove_of_ne hne, hold]
    · intro j hj
      obtain ⟨-, hj⟩ := hheld (by rw [ht]; rfl) j hj
      obtain ⟨pos, hpos⟩ := h.file j hj
      obtain ⟨hge, hget'⟩ := target_eq_some.1 hpos
      have hne := h.sock_ne hfd_i hlive hpos
      refine ⟨pos, target_eq_some.2 ⟨by rw [hfd]; exact hge, ?_⟩⟩
      rw [hfds, hfd, SlotTable.get_remove_of_ne hne.symm, hget']

end Owned

section Run

variable [DecidableEq ι] {D : Driver σ} {store : σ} {inUse : List Bool} {s t : Process σ ι}
  {es : List (ServerEvent ι)} {i : ι}

omit [DecidableEq ι] in
theorem OneAtATime.mono {tr tr' : List (Exec.Trans (Process σ ι) (ServerEvent ι))}
    (h : OneAtATime tr') (hsub : tr ⊆ tr') : OneAtATime tr :=
  fun x hx => h x (hsub hx)

theorem Owned.step (h : s.Owned) {e : ServerEvent ι} (he : s.step D e = some t)
    (halone : s.Alone e) : t.Owned := by
  cases e with
  | accept i => exact h.accept he
  | timestamp line => exact h.timestamp he
  | handler i env => exact h.handler he halone

end Run

end Process

end Aesd
