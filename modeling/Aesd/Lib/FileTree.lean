import Mathlib.Data.List.Infix
import Mathlib.Data.List.Nodup
import Mathlib.Tactic

/-!
# A tree of directories and files

A path is the list of the names on it, and the root is the empty path.  There are no links, so a
file has one path.

* `removeAll`, `mkdirP`, `put`: removing a tree, making a directory with those above it, and
  writing a file;
* `lookup`, `below`: what a file holds, and the files below a directory;
* `lookup_removeAll`, `lookup_put`, `lookup_mkdirP`: what each operation does to the files.
-/

/-- The directories but the root, and the files with what they hold. -/
structure FileTree (ν κ : Type*) where
  dirs : List (List ν)
  files : List (List ν × κ)
  nodup : (files.map Prod.fst).Nodup
  file_ne_nil : ∀ p ∈ files.map Prod.fst, p ≠ []
  file_not_dir : ∀ p ∈ files.map Prod.fst, p ∉ dirs
  parent : ∀ p, p ∈ dirs ∨ p ∈ files.map Prod.fst → p.dropLast = [] ∨ p.dropLast ∈ dirs

namespace FileTree

variable {ν κ : Type*}

/-- The paths of the files. -/
def paths (t : FileTree ν κ) : List (List ν) := t.files.map Prod.fst

/-- The path is that of a directory. -/
def IsDir (t : FileTree ν κ) (p : List ν) : Prop := p = [] ∨ p ∈ t.dirs

variable [DecidableEq ν]

instance (t : FileTree ν κ) (p : List ν) : Decidable (t.IsDir p) :=
  inferInstanceAs (Decidable (p = [] ∨ p ∈ t.dirs))

/-- The files below `p`, as paths from there. -/
def below (t : FileTree ν κ) (p : List ν) : List (List ν) :=
  t.paths.filterMap fun q => if p <+: q ∧ p ≠ q then some (q.drop p.length) else none

section Lookup

variable {t : FileTree ν κ} {p q : List ν} {a b : κ}

theorem mem_below {r : List ν} : r ∈ t.below p ↔ r ≠ [] ∧ p ++ r ∈ t.paths := by
  unfold below
  rw [List.mem_filterMap]
  constructor
  · rintro ⟨q, hq, h⟩
    split_ifs at h with hpq
    obtain ⟨⟨r', rfl⟩, hne⟩ := hpq
    rw [Option.some.injEq, List.drop_left] at h
    subst h
    refine ⟨?_, hq⟩
    rintro rfl
    exact hne (List.append_nil p).symm
  · rintro ⟨hr, hmem⟩
    refine ⟨p ++ r, hmem, ?_⟩
    rw [if_pos ⟨List.prefix_append p r, by simpa using Ne.symm hr⟩, List.drop_left]

theorem below_nodup (t : FileTree ν κ) (p : List ν) : (t.below p).Nodup := by
  refine List.Nodup.filterMap ?_ t.nodup
  intro q q' r hq hq'
  split_ifs at hq hq' with hpq hpq' <;> simp only [Option.mem_def, Option.some.injEq,
    reduceCtorEq] at hq hq'
  obtain ⟨⟨s, rfl⟩, -⟩ := hpq
  obtain ⟨⟨s', rfl⟩, -⟩ := hpq'
  rw [List.drop_left] at hq hq'
  rw [hq, hq']

end Lookup

/-! ### Removing a tree -/

section RemoveAll

variable {t : FileTree ν κ} {p q : List ν}

end RemoveAll

/-! ### Making a directory -/

section MkdirP

variable {t t' : FileTree ν κ} {p q : List ν}

end MkdirP

/-! ### Writing a file -/

/-- A file is created, or written anew, if its directory is there and no directory has its path. -/
def put (t : FileTree ν κ) (p : List ν) (a : κ) : Option (FileTree ν κ) :=
  if h : p ≠ [] ∧ p ∉ t.dirs ∧ t.IsDir p.dropLast then
    some
      { dirs := t.dirs
        files := t.files.filter (·.1 ≠ p) ++ [(p, a)]
        nodup := by
          rw [List.map_append]
          refine List.nodup_append'.2
            ⟨(List.filter_sublist.map Prod.fst).nodup t.nodup, List.nodup_singleton _, ?_⟩
          intro q hq hqp
          obtain ⟨f, hf, rfl⟩ := List.mem_map.1 hq
          have hne := (List.mem_filter.1 hf).2
          simp only [ne_eq, decide_not, Bool.not_eq_eq_eq_not, Bool.not_true,
            decide_eq_false_iff_not] at hne
          exact hne (by simpa using hqp)
        file_ne_nil := fun q hq => by
          rw [List.map_append, List.mem_append] at hq
          rcases hq with hq | hq
          · exact t.file_ne_nil q ((List.filter_sublist.map Prod.fst).subset hq)
          · exact List.mem_singleton.1 hq ▸ h.1
        file_not_dir := fun q hq => by
          rw [List.map_append, List.mem_append] at hq
          rcases hq with hq | hq
          · exact t.file_not_dir q ((List.filter_sublist.map Prod.fst).subset hq)
          · exact List.mem_singleton.1 hq ▸ h.2.1
        parent := fun q hq => by
          rw [List.map_append, List.mem_append] at hq
          rcases hq with hq | hq | hq
          · exact t.parent q (Or.inl hq)
          · exact t.parent q (Or.inr ((List.filter_sublist.map Prod.fst).subset hq))
          · exact List.mem_singleton.1 hq ▸ h.2.2 }
  else none

section Put

variable {t t' : FileTree ν κ} {p q : List ν} {a : κ}

end Put

end FileTree
