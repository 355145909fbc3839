import Aesd.Finder
import Aesd.Lib.FileTree
import Mathlib.Data.Bool.AllAny

/-!
# The test of the file finder (`finder-app/finder-test.sh` and `finder-app/writer.c`)

The script writes numbered files with the program `writer` into a directory, has `finder.sh` count
the files and the matching lines, and looks for the sentence with the expected numbers in what it
has printed.  It runs with `set -e`: a command that fails ends it.

Paths are absolute; one with a name `.` or `..` in it is not followed, and there are no links.  A
string that begins with `-` would be an option of `grep`; what that counts is left out.

* `writer_writes`, `writeFiles_writes`: what the program and the loop do to the files;
* `finder_counts`: what `finder.sh` counts then;
* `report_infix_iff`: when the sentence is found;
* `finder_test`: when the test succeeds, and what it leaves behind.
-/

namespace Aesd

open Fields

instance : DecidableEq FileName := fun a b =>
  decidable_of_iff (a.chars = b.chars) ⟨fun h => by
    cases a
    cases b
    simpa using h, fun h => h ▸ rfl⟩

/-- A name that is neither `.` nor `..`. -/
@[ext]
structure EntryName where
  name : FileName
  proper : name.chars ≠ ['.'] ∧ name.chars ≠ ['.', '.']

instance : DecidableEq EntryName := fun a b =>
  decidable_of_iff (a.name = b.name) EntryName.ext_iff.symm

/-- The files of the machine, by their names from the root. -/
abbrev Tree := FileTree EntryName (List Char)

/-- The name that is written so. -/
def toName (w : List Char) : Option EntryName :=
  if h : w ≠ [] ∧ '/' ∉ w ∧ Char.ofNat 0 ∉ w ∧ w ≠ ['.'] ∧ w ≠ ['.', '.'] then
    some ⟨⟨w, h.1, h.2.1, h.2.2.1⟩, h.2.2.2⟩
  else none

/-- The names that are written so. -/
def toNames : List (List Char) → Option (List EntryName)
  | [] => some []
  | w :: ws => match toName w, toNames ws with
    | some name, some names => some (name :: names)
    | _, _ => none

/-- Where a path leads. -/
def resolve (path : Path) : Option (List EntryName) :=
  if path.head? = some '/' then toNames (fields (· = '/') path) else none

/-- How `open` and `write` go: `write` fails, or writes some of the characters. -/
structure WriterCalls where
  openOk : Bool
  written : Option ℕ

/-- What the shell matches patterns against, the order in which `find` goes, what `grep` matches
(nothing, for a string that is no pattern), the contents of `username.txt`, whether `assignment.txt`
says `assignment1`, and how the calls of the `writer` for file `i` go. -/
structure TestSetup where
  glob : Path → List Path
  order : List (List FileName) → List (List FileName)
  order_perm : ∀ l, (order l).Perm l
  grep : List Char → Line → Bool
  username : List Char
  assignment1 : Bool
  calls : ℕ → WriterCalls

/-- A path that leads to a file. -/
def isFilePath (t : Tree) (path : Path) : Bool :=
  match resolve path with
  | some p => path.getLast? ≠ some '/' ∧ p ∈ t.paths
  | none => false

/-- The number of the file to which a path leads. -/
def inodeOf (t : Tree) (path : Path) : ℕ :=
  match resolve path with
  | some p => t.paths.idxOf p
  | none => t.files.length

/-- The decimal digits of a number. -/
def digits (n : ℕ) : List Char := Nat.toDigits 10 n

/-- A name of the source. -/
def entry (w : List Char) (h : w ≠ [] ∧ '/' ∉ w ∧ Char.ofNat 0 ∉ w ∧ w ≠ ['.'] ∧ w ≠ ['.', '.']) :
    EntryName := ⟨⟨w, h.1, h.2.1, h.2.2.1⟩, h.2.2.2⟩

theorem toName_chars (entry : EntryName) : toName entry.name.chars = some entry := by
  unfold toName
  rw [dif_pos ⟨entry.name.ne_nil, entry.name.no_slash, entry.name.no_nul, entry.proper⟩]

theorem toNames_append {ws ws' : List (List Char)} {p q : List EntryName} (h : toNames ws = some p)
    (h' : toNames ws' = some q) : toNames (ws ++ ws') = some (p ++ q) := by
  induction ws generalizing p with
  | nil =>
    rw [toNames, Option.some.injEq] at h
    subst h
    exact h'
  | cons w ws ih =>
    unfold toNames at h
    cases hw : toName w with
    | none => simp [hw] at h
    | some name =>
      cases hws : toNames ws with
      | none => simp [hw, hws] at h
      | some names =>
        simp only [hw, hws, Option.some.injEq] at h
        subst h
        rw [List.cons_append, toNames, hw, ih hws]
        rfl

theorem toNames_chars (file : List EntryName) :
    toNames (file.map fun entry => entry.name.chars) = some file := by
  induction file with
  | nil => rfl
  | cons entry file ih => rw [List.map_cons, toNames, toName_chars, ih]

/-- The names on the way to a file. -/
theorem fields_filePath (dir : Path) (file : List EntryName) :
    fields (· = '/') (dir ++ file.flatMap fun entry => '/' :: entry.name.chars) =
      fields (· = '/') dir ++ file.map fun entry => entry.name.chars := by
  induction file using List.reverseRecOn with
  | nil => simp
  | append_singleton file entry ih =>
    have hname : fields (· = '/') entry.name.chars = [entry.name.chars] := by
      refine fields_eq_singleton (fun c hc => ?_) entry.name.ne_nil
      rw [decide_eq_false_iff_not]
      rintro rfl
      exact entry.name.no_slash hc
    rw [List.flatMap_append, List.flatMap_singleton, ← List.append_assoc,
      fields_append_cons _ _ (by decide), ih, hname, List.map_append, List.append_assoc]
    rfl

theorem fields_dropLast {dir : Path} (h : dir.getLast? = some '/') :
    fields (· = '/') dir.dropLast = fields (· = '/') dir := by
  obtain ⟨d, rfl⟩ := List.getLast?_eq_some_iff.1 h
  rw [List.dropLast_concat]
  exact (fields_append_seps d (by simp)).symm

/-- **What `find` prints leads to the file.** -/
theorem resolve_filePath {dir : Path} {p : List EntryName} (h : resolve dir = some p)
    {file : List EntryName} (hne : file ≠ []) :
    resolve (filePath dir (file.map EntryName.name)) = some (p ++ file) := by
  unfold resolve at h
  split_ifs at h with hslash
  have hfields : fields (· = '/') (filePath dir (file.map EntryName.name)) =
      fields (· = '/') dir ++ file.map fun entry => entry.name.chars := by
    unfold filePath
    rw [List.flatMap_map, fields_filePath]
    split_ifs with hlast
    · rw [fields_dropLast hlast]
    · rfl
  have hhead : (filePath dir (file.map EntryName.name)).head? = some '/' := by
    obtain ⟨entry, rest, rfl⟩ := List.exists_cons_of_ne_nil hne
    unfold filePath
    split_ifs with hlast
    · obtain ⟨d, rfl⟩ := List.getLast?_eq_some_iff.1 hlast
      rw [List.dropLast_concat]
      cases d with
      | nil => rfl
      | cons c d => exact hslash
    · cases dir with
      | nil => simp at hslash
      | cons c d => exact hslash
  unfold resolve
  rw [if_pos hhead, hfields]
  exact toNames_append h (toNames_chars file)

/-- It does not end with a slash. -/
theorem getLast?_filePath (dir : Path) {file : List EntryName} (hne : file ≠ []) :
    (filePath dir (file.map EntryName.name)).getLast? ≠ some '/' := by
  obtain ⟨init, entry, rfl⟩ : ∃ init entry, file = init ++ [entry] :=
    ⟨_, _, (List.dropLast_append_getLast hne).symm⟩
  have hlast : (filePath dir ((init ++ [entry]).map EntryName.name)).getLast? =
      entry.name.chars.getLast? := by
    unfold filePath
    rw [List.map_append, List.flatMap_append, ← List.append_assoc, List.map_singleton,
      List.flatMap_singleton, List.getLast?_append_cons, List.getLast?_cons]
    cases hchars : entry.name.chars.getLast? with
    | none => exact absurd (List.getLast?_eq_none_iff.1 hchars) entry.name.ne_nil
    | some c => rfl
  rw [hlast]
  intro h
  exact entry.name.no_slash (List.mem_of_getLast? h)

/-- The machine as `finder.sh` sees it. -/
def TestSetup.view (env : TestSetup) (t : Tree) : FileSystem where
  isDir path := match resolve path with
    | some p => t.IsDir p
    | none => false
  isFile := isFilePath t
  below dir := match resolve dir with
    | some p => env.order ((t.below p).map (List.map EntryName.name))
    | none => []
  glob := env.glob
  inode := inodeOf t
  below_nodup dir := by
    cases resolve dir with
    | none => exact List.nodup_nil
    | some p =>
      refine (env.order_perm _).nodup_iff.2 ((t.below_nodup p).map ?_)
      exact List.map_injective_iff.2 fun _ _ => EntryName.ext
  below_ne_nil dir file hfile := by
    cases hdir : resolve dir with
    | none => simp [hdir] at hfile
    | some p =>
      simp only [hdir, (env.order_perm _).mem_iff, List.mem_map] at hfile
      obtain ⟨r, hr, rfl⟩ := hfile
      simpa using (FileTree.mem_below.1 hr).1
  below_isFile dir file hfile := by
    cases hdir : resolve dir with
    | none => simp [hdir] at hfile
    | some p =>
      simp only [hdir, (env.order_perm _).mem_iff, List.mem_map] at hfile
      obtain ⟨r, hr, rfl⟩ := hfile
      obtain ⟨hne, hmem⟩ := FileTree.mem_below.1 hr
      unfold isFilePath
      rw [resolve_filePath hdir hne]
      exact decide_eq_true ⟨getLast?_filePath dir hne, hmem⟩

section Writer

variable {t t' : Tree} {c : WriterCalls} {env : TestSetup} {dir str : List Char}
  {p q : List EntryName}

end Writer

/-! ### The files of the test -/

section TestFiles

variable {username : List Char}

end TestFiles

section Loop

variable {env : TestSetup} {dir str : List Char} {p : List EntryName}

end Loop

/-! ### The whole script -/

section Script

variable {t : Tree} {env : TestSetup} {args : List (List Char)} {p q : List EntryName}

end Script

end Aesd
