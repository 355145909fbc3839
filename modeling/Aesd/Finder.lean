import Aesd.Lib.Fields

/-!
# The file finder (`finder-app/finder.sh`)

The script counts the regular files below a directory and the lines in them that match.  It puts the
output of `find` into `all_files` and loops over `${all_files}`, which is not quoted: the shell
splits it at spaces, tabs and newlines and replaces every word that has a glob character and matches
some pathnames by these.  What comes out is what is counted, if `-f` says that it is a file.

A path is a list of characters, a character standing for any byte.

* `expansion_find`: the words of the loop are those of each path by itself;
* `finder_counts_once_iff`: exactly when every file is counted once;
* `finder_plain_names`: it is if no path has a blank or a glob character;
* `countsOnce_iff_count`, `finder_blank_iff`: what this comes to where no file has two paths.
-/

namespace Aesd

open Fields

abbrev Path := List Char

abbrev Line := List Char

/-- A name in a directory. -/
structure FileName where
  chars : List Char
  ne_nil : chars ≠ []
  no_slash : '/' ∉ chars
  no_nul : Char.ofNat 0 ∉ chars

/-- What `find` prints for a file below `dir`: a slash at the end of `dir` is not repeated. -/
def filePath (dir : Path) (file : List FileName) : Path :=
  (if dir.getLast? = some '/' then dir.dropLast else dir) ++
    file.flatMap fun name => '/' :: name.chars

/-- The file system as the script sees it: directories, what `-f` says, the regular files below a
directory in the order of `find`, the pathnames that a word with glob characters matches, and the
file that a path leads to, which links make the same for several paths. -/
structure FileSystem where
  isDir : Path → Bool
  isFile : Path → Bool
  below : Path → List (List FileName)
  glob : Path → List Path
  inode : Path → ℕ
  below_nodup : ∀ dir, (below dir).Nodup
  below_ne_nil : ∀ dir, ∀ file ∈ below dir, file ≠ []
  below_isFile : ∀ dir, ∀ file ∈ below dir, isFile (filePath dir file) = true

namespace FileSystem

/-- The paths of the regular files below `dir`. -/
def paths (fs : FileSystem) (dir : Path) : List Path := (fs.below dir).map (filePath dir)

/-- `find "${dir}" -type f`. -/
def find (fs : FileSystem) (dir : Path) : List Char := (fs.paths dir).flatMap (· ++ ['\n'])

end FileSystem

/-- `$(..)` drops the newlines at the end. -/
def commandSubstitution (output : List Char) : List Char := output.rdropWhile (· = '\n')

/-- The characters of `IFS`. -/
def isIfs (c : Char) : Bool := c = ' ' ∨ c = '\t' ∨ c = '\n'

/-- A word with one of these can be a pattern. -/
def isGlob (c : Char) : Bool := c = '*' ∨ c = '?' ∨ c = '[' ∨ c = '\\'

/-- Pathname expansion of one word; a pattern that matches nothing stays as it is. -/
def FileSystem.expandWord (fs : FileSystem) (word : Path) : List Path :=
  if word.any isGlob ∧ fs.glob word ≠ [] then fs.glob word else [word]

/-- The expansion of an unquoted variable. -/
def FileSystem.expansion (fs : FileSystem) (value : List Char) : List Path :=
  (fields isIfs value).flatMap fs.expandWord

/-- `grep -c "$search" "$file"`, where `matching` tells whether a line matches and `contents` what
the files hold. -/
def grepCount (fs : FileSystem) (matching : Line → Bool) (contents : ℕ → List Line)
    (file : Path) : ℕ :=
  (contents (fs.inode file)).countP matching

/-- One round of the loop of `string_search`. -/
def countFile (fs : FileSystem) (matching : Line → Bool) (contents : ℕ → List Line)
    (counts : ℕ × ℕ) (file : Path) : ℕ × ℕ :=
  if fs.isFile file then (counts.1 + 1, counts.2 + grepCount fs matching contents file) else counts

/-- `string_search`: the number of files and the number of matching lines. -/
def stringSearch (fs : FileSystem) (matching : Line → Bool) (contents : ℕ → List Line)
    (dir : Path) : ℕ × ℕ :=
  (fs.expansion (commandSubstitution (fs.find dir))).foldl (countFile fs matching contents) (0, 0)

/-- The script, called by `name` with `args`: the counts that it reports, or the message with which
it exits.  `grep` tells whether a line matches a search string. -/
def finder (fs : FileSystem) (grep : List Char → Line → Bool) (contents : ℕ → List Line)
    (name : String) : List (List Char) → Except String (ℕ × ℕ)
  | [filesdir, searchstr] =>
    if fs.isDir filesdir then .ok (stringSearch fs (grep searchstr) contents filesdir)
    else
      let dir := String.ofList filesdir
      .error s!"Error: Specified filepath '{dir}' is not a directory or does not exist"
  | _ => .error s!"Usage: {name} <filepath> <search_string>"

/-- The script reports the number of the regular files below `dir`, and the lines in them that
match, whatever the files hold and whatever is searched for. -/
def CountsOnce (fs : FileSystem) (dir : Path) : Prop :=
  ∀ grep contents name searchstr, finder fs grep contents name [dir, searchstr] =
    .ok ((fs.below dir).length,
      ((fs.below dir).map fun file =>
        grepCount fs (grep searchstr) contents (filePath dir file)).sum)

/-! ### Paths -/

/-- A name goes as far as the next slash. -/
theorem takeWhile_name {n s : List Char} (hn : '/' ∉ n) (hs : ∀ c ∈ s.head?, c = '/') :
    (n ++ s).takeWhile (· ≠ '/') = n := by
  have hpos : ∀ c ∈ n, decide (c ≠ '/') = true := by
    intro c hc
    refine decide_eq_true ?_
    rintro rfl
    exact hn hc
  rw [List.takeWhile_append_of_pos hpos]
  cases s with
  | nil => simp
  | cons c s =>
    obtain rfl := hs c rfl
    simp

theorem flatMap_name_head (file : List FileName) :
    ∀ c ∈ (file.flatMap fun name => '/' :: name.chars).head?, c = '/' := by
  cases file <;> simp

theorem flatMap_name_injective {file file' : List FileName}
    (h : (file.flatMap fun name => '/' :: name.chars) =
      file'.flatMap fun name => '/' :: name.chars) : file = file' := by
  induction file generalizing file' with
  | nil =>
    cases file' with
    | nil => rfl
    | cons name file' => simp at h
  | cons name file ih =>
    cases file' with
    | nil => simp at h
    | cons name' file' =>
      rw [List.flatMap_cons, List.flatMap_cons, List.cons_append, List.cons_append,
        List.cons.injEq] at h
      have hname := congrArg (List.takeWhile (· ≠ '/')) h.2
      rw [takeWhile_name name.no_slash (flatMap_name_head file),
        takeWhile_name name'.no_slash (flatMap_name_head file')] at hname
      obtain ⟨chars, _, _, _⟩ := name
      obtain ⟨chars', _, _, _⟩ := name'
      obtain rfl : chars = chars' := hname
      rw [ih (List.append_cancel_left h.2)]

theorem filePath_injective (dir : Path) : Function.Injective (filePath dir) :=
  fun _ _ h => flatMap_name_injective (List.append_cancel_left h)

namespace FileSystem

variable (fs : FileSystem) (dir : Path)

theorem paths_nodup : (fs.paths dir).Nodup :=
  (fs.below_nodup dir).map (filePath_injective dir)

theorem isFile_of_mem_paths {path : Path} (h : path ∈ fs.paths dir) : fs.isFile path = true := by
  obtain ⟨file, hfile, rfl⟩ := List.mem_map.1 h
  exact fs.below_isFile dir file hfile

theorem ne_nil_of_mem_paths {path : Path} (h : path ∈ fs.paths dir) : path ≠ [] := by
  obtain ⟨file, hfile, rfl⟩ := List.mem_map.1 h
  obtain ⟨name, file, rfl⟩ := List.exists_cons_of_ne_nil (fs.below_ne_nil dir file hfile)
  simp [filePath]

/-! ### The words of the loop -/

/-- **The words of the loop** are those that each path gives by itself. -/
theorem expansion_find :
    fs.expansion (commandSubstitution (fs.find dir)) = (fs.paths dir).flatMap fs.expansion := by
  have hsep : isIfs '\n' = true := by decide
  have hstrip : fields isIfs (commandSubstitution (fs.find dir)) =
      fields isIfs (fs.find dir) := by
    refine fields_rdropWhile (fun c hc => ?_) _
    obtain rfl : c = '\n' := of_decide_eq_true hc
    exact hsep
  unfold expansion
  rw [hstrip, find, fields_lines hsep, List.flatMap_assoc]

/-- Without glob characters the words are the pieces of the path. -/
theorem expansion_of_no_glob {path : Path} (h : ∀ c ∈ path, isGlob c = false) :
    fs.expansion path = fields isIfs path := by
  have hword : ∀ word ∈ fields isIfs path, fs.expandWord word = [word] := by
    intro word hword
    have hglob : word.any isGlob = false := by
      rw [List.any_eq_false]
      intro c hc
      simp [h c (of_mem_fields hword c hc).1]
    simp [expandWord, hglob]
  exact (List.flatMap_congr hword).trans (List.flatMap_singleton' _)

/-- A path without blanks and glob characters stays as it is. -/
theorem expansion_plain {path : Path} (hne : path ≠ [])
    (h : ∀ c ∈ path, isIfs c = false ∧ isGlob c = false) : fs.expansion path = [path] := by
  rw [fs.expansion_of_no_glob fun c hc => (h c hc).2,
    fields_eq_singleton (fun c hc => (h c hc).1) hne]

end FileSystem

/-! ### The counts -/

section Counts

variable {fs : FileSystem} {dir : Path}

theorem foldl_countFile (fs : FileSystem) (matching : Line → Bool) (contents : ℕ → List Line)
    (words : List Path) (counts : ℕ × ℕ) :
    words.foldl (countFile fs matching contents) counts =
      (counts.1 + (words.filter (fs.isFile ·)).length,
        counts.2 + ((words.filter (fs.isFile ·)).map (grepCount fs matching contents)).sum) := by
  induction words generalizing counts with
  | nil => rfl
  | cons word words ih =>
    rw [List.foldl_cons, ih, countFile]
    cases hfile : fs.isFile word with
    | false => simp [hfile]
    | true => simp [hfile, Nat.add_assoc, Nat.add_comm, Nat.add_left_comm]

/-- The files that are counted. -/
def FileSystem.counted (fs : FileSystem) (dir : Path) : List Path :=
  ((fs.paths dir).flatMap fs.expansion).filter (fs.isFile ·)

theorem finder_eq (hdir : fs.isDir dir = true) (grep : List Char → Line → Bool)
    (contents : ℕ → List Line) (name : String) (searchstr : List Char) :
    finder fs grep contents name [dir, searchstr] =
      .ok ((fs.counted dir).length,
        ((fs.counted dir).map (grepCount fs (grep searchstr) contents)).sum) := by
  rw [finder, if_pos hdir, stringSearch, fs.expansion_find, foldl_countFile, Nat.zero_add,
    Nat.zero_add]
  rfl

/-- What matters is which files are counted. -/
theorem countsOnce_iff_perm (hdir : fs.isDir dir = true) :
    CountsOnce fs dir ↔
      ((fs.counted dir).map fs.inode).Perm ((fs.paths dir).map fs.inode) := by
  have hbelow : ∀ f : Path → ℕ,
      ((fs.below dir).map fun file => f (filePath dir file)).sum = ((fs.paths dir).map f).sum := by
    intro f
    rw [FileSystem.paths, List.map_map]
    rfl
  have hinode : ∀ matching contents, ∀ paths : List Path,
      paths.map (grepCount fs matching contents) =
        (paths.map fs.inode).map fun inode => (contents inode).countP matching := by
    intro matching contents paths
    rw [List.map_map]
    rfl
  constructor
  · intro h
    refine perm_of_sums fun f => ?_
    -- every file holds as many lines as `f` says, and all lines match
    have hcount := h (fun _ _ => true) (fun inode => List.replicate (f inode) []) "" []
    rw [finder_eq hdir, Except.ok.injEq, Prod.mk.injEq, hbelow, hinode, hinode] at hcount
    simpa [List.countP_replicate] using hcount.2
  · intro h grep contents name searchstr
    have hlength : (fs.counted dir).length = (fs.below dir).length := by
      simpa [FileSystem.paths] using h.length_eq
    rw [finder_eq hdir, hbelow, hinode, hinode, (h.map _).sum_eq, hlength]

/-- **Every file is counted once** exactly if the words of the paths, each replaced by what it
matches if it has a glob character, lead to every file as often as the paths do. -/
theorem finder_counts_once_iff (fs : FileSystem) (dir : Path) (hdir : fs.isDir dir = true) :
    CountsOnce fs dir ↔ ∀ inode,
      ((fs.paths dir).flatMap fs.expansion).countP
          (fun word => fs.isFile word ∧ fs.inode word = inode) =
        (fs.paths dir).countP (fs.inode · = inode) := by
  rw [countsOnce_iff_perm hdir, List.perm_iff_count]
  refine forall_congr' fun inode => ?_
  have hcount : ∀ paths : List Path,
      (paths.map fs.inode).count inode = paths.countP (fs.inode · = inode) := by
    intro paths
    rw [List.count, List.countP_map]
    rfl
  rw [hcount, hcount, FileSystem.counted, List.countP_filter]
  simp [Bool.and_comm]

/-- **Plain names**: if no path has a blank or a glob character, every file is counted once. -/
theorem finder_plain_names (hdir : fs.isDir dir = true)
    (hplain : ∀ path ∈ fs.paths dir, ∀ c ∈ path, isIfs c = false ∧ isGlob c = false) :
    CountsOnce fs dir := by
  have hwords : (fs.paths dir).flatMap fs.expansion = fs.paths dir := by
    refine (List.flatMap_congr fun path hpath => ?_).trans (List.flatMap_singleton' _)
    exact fs.expansion_plain (fs.ne_nil_of_mem_paths dir hpath) (hplain path hpath)
  rw [countsOnce_iff_perm hdir, FileSystem.counted, hwords,
    List.filter_eq_self.2 fun path hpath => fs.isFile_of_mem_paths dir hpath]

/-- No file has two paths. -/
def FileSystem.NoLinks (fs : FileSystem) : Prop :=
  ∀ path path', fs.isFile path = true → fs.isFile path' = true →
    fs.inode path = fs.inode path' → path = path'

/-- **Without links** every file is counted once exactly if its path comes once among the words and
no path of another file comes among them. -/
theorem countsOnce_iff_count (hlinks : fs.NoLinks) (hdir : fs.isDir dir = true) :
    CountsOnce fs dir ↔ ∀ path, fs.isFile path = true →
      ((fs.paths dir).flatMap fs.expansion).count path = if path ∈ fs.paths dir then 1 else 0 := by
  have hpaths : ∀ path, (fs.paths dir).count path = if path ∈ fs.paths dir then 1 else 0 :=
    fun path => (fs.paths_nodup dir).count
  have hcount : ∀ ws : List Path, (∀ w ∈ ws, fs.isFile w = true) → ∀ path,
      fs.isFile path = true → (ws.map fs.inode).count (fs.inode path) = ws.count path := by
    intro ws hws path hfile
    rw [List.count, List.countP_map]
    refine List.countP_congr fun w hw => ?_
    have heq : fs.inode w = fs.inode path ↔ w = path :=
      ⟨hlinks w path (hws w hw) hfile, fun h => h ▸ rfl⟩
    simpa using heq
  have hcounted : ∀ w ∈ fs.counted dir, fs.isFile w = true := fun w hw => (List.mem_filter.1 hw).2
  have hfiles : ∀ w ∈ fs.paths dir, fs.isFile w = true := fun w hw => fs.isFile_of_mem_paths dir hw
  rw [countsOnce_iff_perm hdir]
  constructor
  · intro h path hfile
    have hinodes := h.count_eq (fs.inode path)
    rwa [hcount _ hcounted path hfile, hcount _ hfiles path hfile, hpaths, FileSystem.counted,
      List.count_filter hfile] at hinodes
  · intro h
    refine List.Perm.map _ (List.perm_iff_count.2 fun path => ?_)
    rw [hpaths path]
    cases hfile : fs.isFile path with
    | true => rw [FileSystem.counted, List.count_filter hfile, h path hfile]
    | false =>
      have hnot : ∀ ws : List Path, (∀ w ∈ ws, fs.isFile w = true) → path ∉ ws := by
        intro ws hws hp
        simp [hws path hp] at hfile
      rw [List.count_eq_zero.2 (hnot _ hcounted), if_neg (hnot _ hfiles)]

/-- **Blanks**: where no path has a glob character either, a blank anywhere makes the counts
wrong. -/
theorem finder_blank_iff (hlinks : fs.NoLinks) (hdir : fs.isDir dir = true)
    (hglob : ∀ path ∈ fs.paths dir, ∀ c ∈ path, isGlob c = false) :
    CountsOnce fs dir ↔ ∀ path ∈ fs.paths dir, ∀ c ∈ path, isIfs c = false := by
  constructor
  · intro h path hpath
    have hcount := (countsOnce_iff_count hlinks hdir).1 h path (fs.isFile_of_mem_paths dir hpath)
    rw [if_pos hpath] at hcount
    -- the path is one of the words, and no word has a blank
    have hword : path ∈ (fs.paths dir).flatMap fs.expansion :=
      List.count_pos_iff.1 (hcount ▸ Nat.one_pos)
    obtain ⟨path', hpath', hword⟩ := List.mem_flatMap.1 hword
    rw [fs.expansion_of_no_glob (hglob path' hpath')] at hword
    exact fun c hc => (of_mem_fields hword c hc).2
  · intro h
    exact finder_plain_names hdir fun path hpath c hc => ⟨h path hpath c hc, hglob path hpath c hc⟩

end Counts

/-- The directory `d` with the file `a` and a directory `s`, in which there is the file `b`. -/
def nestedFiles : FileSystem where
  isDir path := path = ['d'] ∨ path = ['d', '/', 's']
  isFile path := path = ['d', '/', 'a'] ∨ path = ['d', '/', 's', '/', 'b']
  below dir :=
    if dir = ['d'] then
      [[⟨['a'], by decide, by decide, by decide⟩],
        [⟨['s'], by decide, by decide, by decide⟩, ⟨['b'], by decide, by decide, by decide⟩]]
    else []
  glob _ := []
  inode path := if path = ['d', '/', 'a'] then 1 else 2
  below_nodup dir := by split <;> simp
  below_ne_nil dir file hfile := by
    split at hfile <;> simp at hfile
    rcases hfile with rfl | rfl <;> simp
  below_isFile dir file hfile := by
    split at hfile <;> simp at hfile
    rcases hfile with rfl | rfl <;> simp [filePath, *]

/-- Two files with plain names. -/
theorem finder_counts_once_plain : CountsOnce nestedFiles ['d'] := by
  refine (finder_counts_once_iff _ _ (by decide)).2 fun inode => ?_
  have hpaths : nestedFiles.paths ['d'] = [['d', '/', 'a'], ['d', '/', 's', '/', 'b']] := by
    decide +kernel
  have hwords : (nestedFiles.paths ['d']).flatMap nestedFiles.expansion =
      [['d', '/', 'a'], ['d', '/', 's', '/', 'b']] := by
    decide +kernel
  rw [hwords, hpaths]
  simp [nestedFiles, List.countP_cons]

/-- A directory `d` with one file. -/
def oneFile (name : FileName) : FileSystem where
  isDir path := path = ['d']
  isFile path := path = ['d', '/'] ++ name.chars
  below dir := if dir = ['d'] then [[name]] else []
  glob _ := []
  inode _ := 0
  below_nodup dir := by split <;> simp
  below_ne_nil dir file hfile := by
    split at hfile <;> simp at hfile
    simp [hfile]
  below_isFile dir file hfile := by
    split at hfile <;> simp at hfile
    simp [filePath, *]

/-- The file `a b` is not counted: the loop asks for `d/a` and for `b`. -/
theorem finder_misses_blank :
    ¬ CountsOnce (oneFile ⟨['a', ' ', 'b'], by decide, by decide, by decide⟩) ['d'] := by
  intro h
  have hcount := h (fun _ _ => false) (fun _ => []) "" []
  revert hcount
  decide +kernel

end Aesd
