import Aesd.Lib.Scan
import Mathlib.Data.Nat.Digits.Lemmas

/-!
# Printed records

What a program has printed can be read back if each piece shows where it ends.  `Determines f g`
says that the text `f a`, with anything behind it, tells `g a` and its own end.

* `Determines.append`, `Determines.of_length`, `Determines.of_end`: texts put together from parts,
  of a fixed length, or with a character at the end that is not inside;
* `Determines.flatMap`: a sequence of records is told by their texts one after the other;
* `decimal`: numbers with leading zeros, as `printf` prints them for `%0wd`;
* `signed`: integers, as for `%d`.
-/

namespace Printing

variable {α β γ δ : Type*}

/-- The text `f a` tells `g a` and where it ends. -/
def Determines (f : α → List β) (g : α → γ) : Prop :=
  ∀ a b s t, f a ++ s = f b ++ t → g a = g b ∧ s = t

namespace Determines

variable {f f' : α → List β} {g : α → γ} {g' : α → δ}

/-- A text that is always the same stands in front. -/
theorem behind (l : List β) (h : Determines f g) : Determines (fun a => l ++ f a) g := by
  intro a b s t heq
  rw [List.append_assoc, List.append_assoc] at heq
  exact h a b s t (List.append_cancel_left heq)

theorem append (h : Determines f g) (h' : Determines f' g') :
    Determines (fun a => f a ++ f' a) fun a => (g a, g' a) := by
  intro a b s t heq
  rw [List.append_assoc, List.append_assoc] at heq
  obtain ⟨hg, hrest⟩ := h a b _ _ heq
  obtain ⟨hg', hst⟩ := h' a b s t hrest
  exact ⟨Prod.ext hg hg', hst⟩

/-- Less may be asked for. -/
theorem comp (h : Determines f g) (p : γ → δ) : Determines f fun a => p (g a) := fun a b s t heq =>
  (h a b s t heq).imp_left fun hg => congrArg p hg

/-- Texts of one length. -/
theorem of_length (hlen : ∀ a b, (f a).length = (f b).length) (h : ∀ a b, f a = f b → g a = g b) :
    Determines f g := by
  intro a b s t heq
  obtain ⟨hf, hst⟩ := List.append_inj heq (hlen a b)
  exact ⟨h a b hf, hst⟩

/-- A character that stands at the end only. -/
theorem of_end [DecidableEq β] {c : β} (hc : ∀ a, c ∉ f a) (h : ∀ a b, f a = f b → g a = g b) :
    Determines (fun a => f a ++ [c]) g := by
  have htake : ∀ a s, ((f a ++ [c]) ++ s).takeWhile (· ≠ c) = f a := by
    intro a s
    have hall : ∀ x ∈ f a, decide (x ≠ c) = true := fun x hx =>
      decide_eq_true (ne_of_mem_of_not_mem hx (hc a))
    rw [List.append_assoc, List.takeWhile_append_of_pos hall]
    simp
  intro a b s t heq
  have heq : (f a ++ [c]) ++ s = (f b ++ [c]) ++ t := heq
  have hf : f a = f b := by rw [← htake a s, heq, htake]
  rw [hf] at heq
  exact ⟨h a b hf, List.append_cancel_left heq⟩

/-- **A sequence of records** is told by their texts. -/
theorem flatMap (h : Determines f g) (hne : ∀ a, f a ≠ []) {as bs : List α}
    (heq : as.flatMap f = bs.flatMap f) : as.map g = bs.map g := by
  induction as generalizing bs with
  | nil =>
    cases bs with
    | nil => rfl
    | cons b bs => simp [hne] at heq
  | cons a as ih =>
    cases bs with
    | nil => simp [hne] at heq
    | cons b bs =>
      rw [List.flatMap_cons, List.flatMap_cons] at heq
      obtain ⟨hg, hrest⟩ := h a b _ _ heq
      rw [List.map_cons, List.map_cons, hg, ih hrest]

end Determines

/-! ### Decimal numbers -/

/-- A digit. -/
def digit (n : ℕ) : UInt8 := .ofNat (48 + n)

/-- The digits of `n`, with zeros in front up to the width `w`. -/
def decimal (w n : ℕ) : List UInt8 :=
  List.replicate (w - (Nat.digits 10 n).length) (digit 0) ++ (Nat.digits 10 n).reverse.map digit

theorem digit_toNat {n : ℕ} (h : n < 10) : (digit n).toNat = 48 + n := by
  unfold digit
  rw [UInt8.toNat_ofNat']
  omega

theorem decimal_length {w n : ℕ} (h : n < 10 ^ w) : (decimal w n).length = w := by
  have hlen := (Nat.digits_length_le_iff (by norm_num : 1 < 10) n).2 h
  simp only [decimal, List.length_append, List.length_replicate, List.length_map,
    List.length_reverse]
  omega

theorem decimal_length_le {w k n : ℕ} (hw : w ≤ k) (h : n < 10 ^ k) :
    (decimal w n).length ≤ k := by
  have hlen := (Nat.digits_length_le_iff (by norm_num : 1 < 10) n).2 h
  simp only [decimal, List.length_append, List.length_replicate, List.length_map,
    List.length_reverse]
  omega

theorem isDigit_decimal {w n : ℕ} {c : UInt8} (hc : c ∈ decimal w n) : Scan.isDigit c = true := by
  have hdigit : ∀ d < 10, Scan.isDigit (digit d) = true := by decide
  rcases List.mem_append.1 hc with hc | hc
  · rw [List.eq_of_mem_replicate hc]
    exact hdigit 0 (by decide)
  · obtain ⟨d, hd, rfl⟩ := List.mem_map.1 hc
    exact hdigit d (Nat.digits_lt_base (by norm_num) (List.mem_reverse.1 hd))

/-- **A number is read back.** -/
theorem digitsValue_decimal (w n : ℕ) : Scan.digitsValue (decimal w n) = n := by
  have hzeros : ∀ k, (List.replicate k (digit 0)).foldl
      (fun v d => 10 * v + (d.toNat - 48)) 0 = 0 := by
    intro k
    induction k with
    | zero => rfl
    | succ k ih => exact ih
  have hdigits : ∀ ds : List ℕ, (∀ d ∈ ds, d < 10) →
      (ds.reverse.map digit).foldl (fun v d => 10 * v + (d.toNat - 48)) 0 = Nat.ofDigits 10 ds := by
    intro ds hds
    induction ds with
    | nil => rfl
    | cons d ds ih =>
      rw [List.forall_mem_cons] at hds
      rw [List.reverse_cons, List.map_append, List.foldl_append, ih hds.2, Nat.ofDigits_cons]
      simp only [List.map_cons, List.map_nil, List.foldl_cons, List.foldl_nil, digit_toNat hds.1]
      omega
  unfold Scan.digitsValue decimal
  rw [List.foldl_append, hzeros, hdigits _ fun d hd => Nat.digits_lt_base (by norm_num) hd,
    Nat.ofDigits_digits]

theorem decimal_injective (w : ℕ) : Function.Injective (decimal w) :=
  Function.LeftInverse.injective (g := Scan.digitsValue) (digitsValue_decimal w)

/-- An integer, with a minus if it is negative. -/
def signed (z : ℤ) : List UInt8 := (if z < 0 then [45] else []) ++ decimal 1 z.natAbs

theorem mem_signed {z : ℤ} {c : UInt8} (hc : c ∈ signed z) : c = 45 ∨ Scan.isDigit c = true := by
  rcases List.mem_append.1 hc with hc | hc
  · split_ifs at hc
    · exact Or.inl (List.mem_singleton.1 hc)
    · simp at hc
  · exact Or.inr (isDigit_decimal hc)

theorem signed_length_le {z : ℤ} {k : ℕ} (hk : 1 ≤ k) (h : z.natAbs < 10 ^ k) :
    (signed z).length ≤ k + 1 := by
  have hlen := decimal_length_le hk h
  unfold signed
  rw [List.length_append]
  split_ifs
  · rw [List.length_singleton]
    omega
  · rw [List.length_nil]
    omega

/-- **An integer is read back.** -/
theorem signed_injective : Function.Injective signed := by
  -- a number does not begin with a minus
  have hsign : ∀ {m n : ℕ}, 45 :: decimal 1 m ≠ decimal 1 n := by
    intro m n h
    have hdigit : Scan.isDigit 45 = true := isDigit_decimal (h ▸ List.mem_cons_self)
    exact absurd hdigit (by decide)
  intro x y h
  unfold signed at h
  split_ifs at h with hx hy hy
  · have := decimal_injective 1 (List.append_cancel_left h)
    omega
  · exact absurd h hsign
  · exact absurd h.symm hsign
  · have := decimal_injective 1 h
    omega

end Printing
