import Mathlib.Data.List.TakeWhile
import Mathlib.Tactic

/-!
# Numbers in C strings

What `scanf` does for the conversion `%d` on a machine with 64-bit `long`: it skips white space,
takes an optional sign and as many decimal digits as there are, converts them like `strtol`, which
stops at the ends of the range, and stores the low 32 bits.

* `strncmp_eq_zero`: when `strncmp` finds a whole string;
* `scanInt_digits`: a string of digits that denotes a `long` is read as that number;
* `field_append`, `scanInt_field`: what `%d` makes of any other string.
-/

namespace Scan

/-- The string in memory: the bytes up to the first NUL. -/
def cString (mem : List UInt8) : List UInt8 := mem.takeWhile (· ≠ 0)

/-- `strncmp`: the difference of the first two bytes that differ, among the first `n` and up to
the end of the strings.  The end of a list stands for the terminating NUL. -/
def strncmp (s t : List UInt8) : ℕ → ℤ
  | 0 => 0
  | n + 1 =>
    let c := s.headD 0
    let d := t.headD 0
    if c = d then if c = 0 then 0 else strncmp s.tail t.tail n else (c.toNat : ℤ) - d.toNat

/-- `isspace`. -/
def isSpace (c : UInt8) : Bool := c = 32 ∨ 9 ≤ c ∧ c ≤ 13

/-- `isdigit`. -/
def isDigit (c : UInt8) : Bool := 48 ≤ c ∧ c ≤ 57

/-- The number that a string of digits denotes. -/
def digitsValue (ds : List UInt8) : ℕ := ds.foldl (fun v d => 10 * v + (d.toNat - 48)) 0

/-- A value outside the range of `long` becomes the nearest one inside. -/
def clampLong (v : ℤ) : ℤ := max (-2 ^ 63) (min v (2 ^ 63 - 1))

/-- An optional sign: whether it is a minus, and the rest. -/
def scanSign : List UInt8 → Bool × List UInt8
  | [] => (false, [])
  | c :: s => if c = 45 then (true, s) else if c = 43 then (false, s) else (false, c :: s)

/-- `%d`: the value converted, and the rest of the string. -/
def scanInt (s : List UInt8) : Option (ℤ × List UInt8) :=
  let r := scanSign (s.dropWhile isSpace)
  let ds := r.2.takeWhile isDigit
  if ds = [] then none
  else some (clampLong (if r.1 then -(digitsValue ds : ℤ) else digitsValue ds),
    r.2.dropWhile isDigit)

/-- How `%d` takes a string apart: the white space and the sign, the digits, the rest. -/
structure Field where
  lead : List UInt8
  digits : List UInt8
  rest : List UInt8

/-- The field at the beginning of a string. -/
def field (s : List UInt8) : Field :=
  let r := scanSign (s.dropWhile isSpace)
  ⟨s.take (s.length - r.2.length), r.2.takeWhile isDigit, r.2.dropWhile isDigit⟩

/-- The low 32 bits. -/
def low32 (v : ℤ) : UInt32 := .ofNat (v % 2 ^ 32).toNat

theorem clampLong_eq {v : ℕ} (h : v < 2 ^ 63) : clampLong v = v := by
  unfold clampLong; omega

theorem low32_natCast {v : ℕ} (h : v < 2 ^ 32) : low32 v = .ofNat v := by
  unfold low32
  congr 1
  omega

theorem isSpace_of_isDigit {c : UInt8} (h : isDigit c = true) : isSpace c = false := by
  unfold isDigit at h
  unfold isSpace
  simp only [decide_eq_true_eq, UInt8.le_iff_toNat_le, decide_eq_false_iff_not, not_or, not_and,
    ← UInt8.toNat_inj] at h ⊢
  simp only [UInt8.reduceToNat] at h ⊢
  omega

theorem scanSign_of_isDigit {c : UInt8} (s : List UInt8) (h : isDigit c = true) :
    scanSign (c :: s) = (false, c :: s) := by
  unfold isDigit at h
  simp only [decide_eq_true_eq, UInt8.le_iff_toNat_le, UInt8.reduceToNat] at h
  have h45 : c ≠ 45 := by rintro rfl; simp at h
  have h43 : c ≠ 43 := by rintro rfl; simp at h
  simp [scanSign, h45, h43]

/-- Digits, and a rest that does not begin with one. -/
theorem takeWhile_digits {ds rest : List UInt8} (hds : ∀ d ∈ ds, isDigit d = true)
    (hrest : ∀ c ∈ rest.head?, isDigit c = false) :
    (ds ++ rest).takeWhile isDigit = ds ∧ (ds ++ rest).dropWhile isDigit = rest := by
  rw [List.takeWhile_append_of_pos hds, List.dropWhile_append_of_pos hds]
  cases rest with
  | nil => simp
  | cons c rest =>
    have hc := hrest c rfl
    simp [hc]

/-- The first digit is neither white space nor a sign. -/
theorem scanSign_digits {ds rest : List UInt8} (hne : ds ≠ [])
    (hds : ∀ d ∈ ds, isDigit d = true) :
    scanSign ((ds ++ rest).dropWhile isSpace) = (false, ds ++ rest) := by
  obtain ⟨c, cs, rfl⟩ := List.exists_cons_of_ne_nil hne
  have hc := hds c List.mem_cons_self
  have hspace : ((c :: cs) ++ rest).dropWhile isSpace = (c :: cs) ++ rest := by
    simp [isSpace_of_isDigit hc]
  rw [hspace, List.cons_append, scanSign_of_isDigit _ hc]

theorem scanInt_digits {ds rest : List UInt8} (hne : ds ≠ []) (hds : ∀ d ∈ ds, isDigit d = true)
    (hrest : ∀ c ∈ rest.head?, isDigit c = false) (hv : digitsValue ds < 2 ^ 63) :
    scanInt (ds ++ rest) = some ((digitsValue ds : ℤ), rest) := by
  obtain ⟨h1, h2⟩ := takeWhile_digits hds hrest
  unfold scanInt
  simp only [scanSign_digits hne hds, h1, h2, if_neg hne, Bool.false_eq_true, if_false,
    clampLong_eq hv]

/-- With the length of a string without NUL, `strncmp` asks whether the other begins with it. -/
theorem strncmp_eq_zero {s t : List UInt8} (ht : ∀ c ∈ t, c ≠ 0) :
    strncmp s t t.length = 0 ↔ t <+: s := by
  induction t generalizing s with
  | nil => simp [strncmp]
  | cons d t ih =>
    have hd := ht d List.mem_cons_self
    have ih := @ih s.tail fun c hc => ht c (List.mem_cons_of_mem d hc)
    have hdiff : ∀ c : UInt8, c ≠ d → (c.toNat : ℤ) - d.toNat ≠ 0 := by
      intro c hcd h
      exact hcd (UInt8.toNat_inj.1 (by omega))
    cases s with
    | nil =>
      have hlen : strncmp [] (d :: t) (t.length + 1) = ((0 : UInt8).toNat : ℤ) - d.toNat := by
        simp [strncmp, Ne.symm hd]
      rw [List.length_cons, hlen]
      exact iff_of_false (hdiff 0 (Ne.symm hd)) (by simp)
    | cons c s =>
      rw [List.cons_prefix_cons]
      by_cases hcd : c = d
      · subst hcd
        simpa [strncmp, hd] using ih
      · have hlen : strncmp (c :: s) (d :: t) (t.length + 1) = (c.toNat : ℤ) - d.toNat := by
          simp [strncmp, hcd]
        rw [List.length_cons, hlen]
        exact iff_of_false (hdiff c hcd) fun h => hcd h.1.symm

/-- Zeroes that follow do not add to the strings without NUL that something begins with. -/
theorem prefix_append_replicate {s t : List UInt8} {n : ℕ} (ht : ∀ c ∈ t, c ≠ 0) :
    t <+: s ++ List.replicate n 0 ↔ t <+: s := by
  refine ⟨fun h => ?_, fun h => h.trans (List.prefix_append ..)⟩
  rcases List.prefix_or_prefix_of_prefix h (List.prefix_append s _) with hp | ⟨u, rfl⟩
  · exact hp
  · -- what comes behind `s` is a run of zeroes, and `t` has none
    rw [List.prefix_append_right_inj] at h
    cases u with
    | nil => simp
    | cons c u =>
      have hc : c = 0 := List.eq_of_mem_replicate (h.subset List.mem_cons_self)
      exact absurd hc (ht c (by simp))

/-- The string goes on behind a prefix without NUL. -/
theorem cString_append {p s : List UInt8} (hp : ∀ c ∈ p, c ≠ 0) :
    cString (p ++ s) = p ++ cString s := by
  unfold cString
  exact List.takeWhile_append_of_pos fun c hc => decide_eq_true (hp c hc)

/-- A string that ends inside `p` does not depend on what comes behind. -/
theorem cString_append_of_mem {p : List UInt8} (hp : 0 ∈ p) (s : List UInt8) :
    cString (p ++ s) = cString p := by
  unfold cString
  induction p with
  | nil => simp at hp
  | cons c p ih =>
    by_cases hc : c = 0
    · simp [hc]
    · have hp' : 0 ∈ p := (List.mem_cons.1 hp).resolve_left (Ne.symm hc)
      simpa [hc] using ih hp'

theorem cString_append_replicate (s : List UInt8) (n : ℕ) :
    cString (s ++ List.replicate n 0) = cString s := by
  unfold cString
  induction s with
  | nil => cases n <;> simp [List.replicate_succ]
  | cons c s ih =>
    by_cases hc : c = 0
    · simp [hc]
    · simpa [hc] using ih

/-- A string without NUL is all of it. -/
theorem cString_eq_self {s : List UInt8} : cString s = s ↔ 0 ∉ s := by
  unfold cString
  rw [List.takeWhile_eq_self_iff]
  constructor
  · intro h h0
    simpa using h 0 h0
  · rintro h c hc
    refine decide_eq_true ?_
    rintro rfl
    exact h hc

/-! ### Fields -/

theorem scanSign_suffix (s : List UInt8) : (scanSign s).2 <:+ s := by
  cases s with
  | nil => exact List.suffix_rfl
  | cons c s =>
    simp only [scanSign]
    split_ifs
    · exact List.suffix_cons ..
    · exact List.suffix_cons ..
    · exact List.suffix_rfl

/-- The parts of a field make up the string. -/
theorem field_append (s : List UInt8) :
    (field s).lead ++ ((field s).digits ++ (field s).rest) = s := by
  obtain ⟨p, hp⟩ := (scanSign_suffix (s.dropWhile isSpace)).trans (List.dropWhile_suffix _)
  have hlen : p.length + (scanSign (s.dropWhile isSpace)).2.length = s.length := by
    rw [← List.length_append, hp]
  have hlead : (field s).lead = p := by
    change s.take (s.length - (scanSign (s.dropWhile isSpace)).2.length) = p
    rw [← hlen, Nat.add_sub_cancel]
    nth_rewrite 1 [← hp]
    exact List.take_left
  have hrest : (field s).digits ++ (field s).rest = (scanSign (s.dropWhile isSpace)).2 :=
    List.takeWhile_append_dropWhile
  rw [hlead, hrest, hp]

theorem field_digits_isDigit (s : List UInt8) : ∀ c ∈ (field s).digits, isDigit c = true :=
  fun _ hc => List.mem_takeWhile_imp hc

/-- `%d` reads a number exactly if the field has digits, and goes on behind them. -/
theorem scanInt_field (s : List UInt8) :
    (∃ v, scanInt s = some (v, (field s).rest)) ∧ (field s).digits ≠ [] ∨
      scanInt s = none ∧ (field s).digits = [] := by
  unfold scanInt field
  dsimp only
  by_cases h : (scanSign (s.dropWhile isSpace)).2.takeWhile isDigit = []
  · exact Or.inr ⟨if_pos h, h⟩
  · exact Or.inl ⟨⟨_, if_neg h⟩, h⟩

/-- A string of digits is a field of its own. -/
theorem field_of_digits {ds rest : List UInt8} (hne : ds ≠ [])
    (hds : ∀ d ∈ ds, isDigit d = true) (hrest : ∀ c ∈ rest.head?, isDigit c = false) :
    field (ds ++ rest) = ⟨[], ds, rest⟩ := by
  obtain ⟨h1, h2⟩ := takeWhile_digits hds hrest
  unfold field
  simp only [scanSign_digits hne hds, h1, h2, Nat.sub_self, List.take_zero]

end Scan
