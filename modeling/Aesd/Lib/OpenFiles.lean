import Aesd.Lib.SlotTable

/-!
# Files that are written through open descriptions

An open file description is a file and an offset; the descriptors of processes refer to
descriptions, so that those with the same one share its offset.  Paths are compared as they are: two
paths are two files.

* `openTrunc`, `write`, `writes`: opening with truncation, and what a process writes;
* `received`: what of it goes to one description;
* `AtEnd`, `Alone`: a file that is written through one description only, at its end;
* `writes_content`: it gets what the description receives, in its order.
-/

/-- An open file description. -/
structure OpenFile (π : Type*) where
  path : π
  offset : ℕ

/-- What the files hold, and the descriptions, by number. -/
structure Files (π : Type*) where
  content : π → List UInt8
  opened : List (OpenFile π)

/-- `b` from offset `off` on; a gap is filled with zeros. -/
def overwrite (c : List UInt8) (off : ℕ) (b : List UInt8) : List UInt8 :=
  if b = [] then c
  else c.take off ++ List.replicate (off - c.length) 0 ++ b ++ c.drop (off + b.length)

theorem overwrite_end (c b : List UInt8) : overwrite c c.length b = c ++ b := by
  unfold overwrite
  split_ifs with hb
  · rw [hb, List.append_nil]
  · rw [List.take_length, Nat.sub_self, List.drop_eq_nil_of_le (Nat.le_add_right ..)]
    simp

namespace Files

variable {π : Type*} [DecidableEq π]

/-- `open` with `O_TRUNC` and `O_CREAT`: the new description has the next number. -/
def openTrunc (f : Files π) (p : π) : Files π :=
  ⟨Function.update f.content p [], f.opened ++ [⟨p, 0⟩]⟩

/-- `write` through a description. -/
def write (f : Files π) (d : ℕ) (b : List UInt8) : Files π :=
  match f.opened[d]? with
  | some o =>
    ⟨Function.update f.content o.path (overwrite (f.content o.path) o.offset b),
      f.opened.set d ⟨o.path, o.offset + b.length⟩⟩
  | none => f

/-- `write` to a descriptor; one that is not open gets nothing. -/
def writeFd (f : Files π) (fds : SlotTable ℕ) (a : ℕ × List UInt8) : Files π :=
  match fds.get a.1 with
  | some d => f.write d a.2
  | none => f

/-- One `write` after the other. -/
def writes (f : Files π) (fds : SlotTable ℕ) (acts : List (ℕ × List UInt8)) : Files π :=
  acts.foldl (fun f a => f.writeFd fds a) f

/-- What goes to description `d`. -/
def received (fds : SlotTable ℕ) (d : ℕ) (acts : List (ℕ × List UInt8)) : List UInt8 :=
  acts.flatMap fun a => if fds.get a.1 = some d then a.2 else []

/-- The file of a description. -/
def pathOf (f : Files π) (d : ℕ) : Option π := f.opened[d]?.map OpenFile.path

/-- Description `d` stands at the end of file `p`. -/
def AtEnd (f : Files π) (d : ℕ) (p : π) : Prop := f.opened[d]? = some ⟨p, (f.content p).length⟩

/-- No other description of file `p` is open. -/
def Alone (f : Files π) (fds : SlotTable ℕ) (d : ℕ) (p : π) : Prop :=
  ∀ n e, fds.get n = some e → f.pathOf e = some p → e = d

section Write

variable {f : Files π} {fds : SlotTable ℕ} {d e : ℕ} {p q : π} {b : List UInt8}

omit [DecidableEq π] in
theorem AtEnd.pathOf (h : f.AtEnd d p) : f.pathOf d = some p := by
  unfold Files.pathOf
  rw [show f.opened[d]? = _ from h]
  rfl

theorem pathOf_write (f : Files π) (d e : ℕ) (b : List UInt8) :
    (f.write d b).pathOf e = f.pathOf e := by
  unfold write pathOf
  cases hd : f.opened[d]? with
  | none => rfl
  | some o =>
    obtain ⟨hlt, ho⟩ := List.getElem?_eq_some_iff.1 hd
    by_cases hde : d = e
    · subst hde
      simp only [List.getElem?_set_self hlt, hd, Option.map_some]
    · simp only [List.getElem?_set_ne hde]

theorem write_content_of_ne (hp : f.pathOf d ≠ some p) : (f.write d b).content p = f.content p := by
  unfold write
  cases hd : f.opened[d]? with
  | none => rfl
  | some o =>
    refine Function.update_of_ne ?_ ..
    rintro rfl
    exact hp (by simp [pathOf, hd])

/-- A `write` at the end of the file. -/
theorem AtEnd.write (h : f.AtEnd d p) (b : List UInt8) :
    (f.write d b).content p = f.content p ++ b ∧ (f.write d b).AtEnd d p := by
  have hlt := (List.getElem?_eq_some_iff.1 h).1
  have hcontent : (f.write d b).content p = f.content p ++ b := by
    unfold Files.write
    rw [h]
    simp only [Function.update_self, overwrite_end]
  refine ⟨hcontent, ?_⟩
  unfold AtEnd
  rw [hcontent, List.length_append]
  unfold Files.write
  rw [h]
  exact List.getElem?_set_self hlt

/-- A `write` to another file. -/
theorem AtEnd.write_other (h : f.AtEnd d p) (he : f.pathOf e ≠ some p) :
    (f.write e b).AtEnd d p := by
  have hde : e ≠ d := by
    rintro rfl
    exact he h.pathOf
  unfold AtEnd
  rw [write_content_of_ne he, ← show f.opened[d]? = _ from h]
  unfold Files.write
  cases hopened : f.opened[e]? with
  | none => rfl
  | some o => exact List.getElem?_set_ne hde

theorem pathOf_writes (f : Files π) (fds : SlotTable ℕ) (acts : List (ℕ × List UInt8)) (e : ℕ) :
    (f.writes fds acts).pathOf e = f.pathOf e := by
  unfold writes
  induction acts generalizing f with
  | nil => rfl
  | cons a acts ih =>
    rw [List.foldl_cons, ih]
    unfold writeFd
    cases fds.get a.1 with
    | none => rfl
    | some d => exact pathOf_write ..

theorem length_writes (f : Files π) (fds : SlotTable ℕ) (acts : List (ℕ × List UInt8)) :
    (f.writes fds acts).opened.length = f.opened.length := by
  unfold writes
  induction acts generalizing f with
  | nil => rfl
  | cons a acts ih =>
    rw [List.foldl_cons, ih]
    unfold writeFd
    cases fds.get a.1 with
    | none => rfl
    | some d =>
      unfold write
      simp only
      split
      · exact List.length_set ..
      · rfl

theorem Alone.writes (h : f.Alone fds d p) (fds' : SlotTable ℕ) (acts : List (ℕ × List UInt8)) :
    (f.writes fds' acts).Alone fds d p := by
  intro n e hn he
  rw [pathOf_writes] at he
  exact h n e hn he

/-- **What a process writes** to a file through one description, in its order. -/
theorem writes_content {acts : List (ℕ × List UInt8)}
    (hacts : ∀ a ∈ acts, ∀ e, fds.get a.1 = some e → f.pathOf e = some p → e = d)
    (hend : f.AtEnd d p) :
    (f.writes fds acts).content p = f.content p ++ received fds d acts ∧
      (f.writes fds acts).AtEnd d p := by
  unfold received writes
  induction acts generalizing f with
  | nil => exact ⟨(List.append_nil _).symm, hend⟩
  | cons a acts ih =>
    rw [List.forall_mem_cons] at hacts
    rw [List.foldl_cons, List.flatMap_cons]
    cases ha : fds.get a.1 with
    | none =>
      have hstep : f.writeFd fds a = f := by
        unfold writeFd
        rw [ha]
      rw [hstep, if_neg (by simp), List.nil_append]
      exact ih hacts.2 hend
    | some e =>
      have hstep : f.writeFd fds a = f.write e a.2 := by
        unfold writeFd
        rw [ha]
      have hrest : ∀ b ∈ acts, ∀ e', fds.get b.1 = some e' →
          (f.write e a.2).pathOf e' = some p → e' = d := by
        intro b hb e' hn he'
        rw [pathOf_write] at he'
        exact hacts.2 b hb e' hn he'
      rw [hstep]
      by_cases hde : e = d
      · subst hde
        obtain ⟨hcontent, hend'⟩ := hend.write a.2
        obtain ⟨hcontent', hlast⟩ := ih hrest hend'
        refine ⟨?_, hlast⟩
        rw [hcontent', hcontent, if_pos rfl, List.append_assoc]
      · have hpath : f.pathOf e ≠ some p := fun he => hde (hacts.1 e ha he)
        obtain ⟨hcontent', hlast⟩ := ih hrest (hend.write_other hpath)
        refine ⟨?_, hlast⟩
        rw [hcontent', write_content_of_ne hpath, if_neg (by simpa using hde), List.nil_append]

/-- The same if no other description of the file is open. -/
theorem Alone.writes_content (h : f.Alone fds d p) (hend : f.AtEnd d p)
    (acts : List (ℕ × List UInt8)) :
    (f.writes fds acts).content p = f.content p ++ received fds d acts ∧
      (f.writes fds acts).AtEnd d p :=
  Files.writes_content (fun a _ e he => h a.1 e he) hend

end Write

section Open

variable {f : Files π} {fds : SlotTable ℕ} {d e : ℕ} {p q : π}

theorem pathOf_openTrunc_self (f : Files π) (p : π) :
    (f.openTrunc p).pathOf f.opened.length = some p := by
  simp [openTrunc, pathOf]

theorem pathOf_openTrunc (h : e < f.opened.length) :
    (f.openTrunc p).pathOf e = f.pathOf e := by
  simp [openTrunc, pathOf, List.getElem?_append_left h]

theorem AtEnd.openTrunc (h : f.AtEnd d p) (hp : q ≠ p) : (f.openTrunc q).AtEnd d p := by
  have hlt := (List.getElem?_eq_some_iff.1 h).1
  show (f.opened ++ [_])[d]? = some ⟨p, (Function.update f.content q [] p).length⟩
  rw [Function.update_of_ne (Ne.symm hp), List.getElem?_append_left hlt]
  exact h

/-- The new description stands at the end of its file. -/
theorem openTrunc_atEnd (f : Files π) (p : π) : (f.openTrunc p).AtEnd f.opened.length p := by
  simp [AtEnd, openTrunc]

end Open

end Files
