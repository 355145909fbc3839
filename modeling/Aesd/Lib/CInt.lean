import Mathlib.Tactic

/-!
# Machine integers of a 64-bit C implementation

`size_t` values are natural numbers below `2 ^ 64`, and `long`, `ssize_t` and `loff_t` values are
integers in `[-2 ^ 63, 2 ^ 63)`.  Unsigned arithmetic wraps; a conversion between the two kinds
keeps the bit pattern.  Each operation comes with the lemma that removes it where no wrap
happens.
-/

namespace CInt

/-- `a + b` on `size_t`. -/
def sizeAdd (a b : ℕ) : ℕ := (a + b) % 2 ^ 64

/-- `a - b` on `size_t`. -/
def sizeSub (a b : ℕ) : ℕ := (a + (2 ^ 64 - b % 2 ^ 64)) % 2 ^ 64

/-- A signed 64-bit value converted to `size_t`. -/
def toSize (x : ℤ) : ℕ := (x % 2 ^ 64).toNat

/-- A `size_t` value converted to a signed 64-bit type. -/
def toLong (n : ℕ) : ℤ := Int.bmod n (2 ^ 64)

/-- `a + b` on a signed 64-bit type, wrapping. -/
def longAdd (a b : ℤ) : ℤ := Int.bmod (a + b) (2 ^ 64)

theorem sizeAdd_eq {a b : ℕ} (h : a + b < 2 ^ 64) : sizeAdd a b = a + b := Nat.mod_eq_of_lt h

theorem sizeSub_eq {a b : ℕ} (hb : b ≤ a) (ha : a < 2 ^ 64) : sizeSub a b = a - b := by
  unfold sizeSub
  rw [Nat.mod_eq_of_lt (show b < 2 ^ 64 by omega)]
  omega

theorem toSize_eq {n : ℕ} (h : n < 2 ^ 64) : toSize n = n := by
  unfold toSize; omega

theorem toLong_eq {n : ℕ} (h : n < 2 ^ 63) : toLong n = n := by
  unfold toLong
  apply Int.bmod_eq_of_le <;> omega

theorem longAdd_eq {a b : ℤ} (hlo : -2 ^ 63 ≤ a + b) (hhi : a + b < 2 ^ 63) :
    longAdd a b = a + b := by
  unfold longAdd
  apply Int.bmod_eq_of_le <;> omega

/-- A loop that adds up `size_t` values computes their sum when the sum does not wrap. -/
theorem foldl_sizeAdd {l : List ℕ} {a : ℕ} (h : a + l.sum < 2 ^ 64) :
    l.foldl sizeAdd a = a + l.sum := by
  induction l generalizing a with
  | nil => rfl
  | cons x l ih =>
    simp only [List.sum_cons] at h
    rw [List.foldl_cons, sizeAdd_eq (by omega), ih (by omega), List.sum_cons, Nat.add_assoc]

/-- The same loop with a `long` accumulator. -/
theorem foldl_longAdd {l : List ℕ} {a : ℕ} (h : a + l.sum < 2 ^ 63) :
    l.foldl (fun (s : ℤ) (n : ℕ) => longAdd s n) (a : ℤ) = ((a + l.sum : ℕ) : ℤ) := by
  induction l generalizing a with
  | nil => rfl
  | cons x l ih =>
    simp only [List.sum_cons] at h
    have hx : longAdd (a : ℤ) x = ((a + x : ℕ) : ℤ) := by
      rw [longAdd_eq (by omega) (by omega)]; push_cast; rfl
    rw [List.foldl_cons, hx, ih (by omega), List.sum_cons, Nat.add_assoc]

/-! ### Which operations wrap -/

/-- An addition or subtraction on `size_t`, with its operands. -/
inductive SizeOp
  | add (a b : ℕ)
  | sub (a b : ℕ)
  deriving DecidableEq, Repr

/-- The operation does not wrap. -/
def SizeOp.Exact : SizeOp → Prop
  | add a b => a + b < 2 ^ 64
  | sub a b => b ≤ a

/-- The additions of a loop that adds up `size_t` values. -/
def sumOps : ℕ → List ℕ → List SizeOp
  | _, [] => []
  | s, n :: ns => .add s n :: sumOps (sizeAdd s n) ns

/-- None of them wraps if the last one does not. -/
theorem sumOps_exact {s : ℕ} {ns : List ℕ} (h : s + ns.sum < 2 ^ 64) :
    ∀ op ∈ sumOps s ns, op.Exact := by
  induction ns generalizing s with
  | nil => simp [sumOps]
  | cons n ns ih =>
    rw [List.sum_cons] at h
    have hadd : s + n < 2 ^ 64 := by omega
    intro op hop
    rw [sumOps, sizeAdd_eq hadd] at hop
    rcases List.mem_cons.1 hop with rfl | hop
    · exact hadd
    · exact ih (by omega) op hop

end CInt
