import Mathlib.Tactic

namespace Word

/-- Unsigned 64-bit arithmetic on naturals. -/
def add64 (a b : Nat) : Nat := (a + b) % 2^64

def sub64 (a b : Nat) : Nat := (a + (2^64 - b)) % 2^64

theorem add64_lt (a b : Nat) : add64 a b < 2^64 := Nat.mod_lt _ (by positivity)

theorem add64_of_lt (a b : Nat) (h : a + b < 2^64) : add64 a b = a + b :=
  Nat.mod_eq_of_lt h

theorem sub64_of_le (a b : Nat) (h : b ≤ a) (ha : a < 2^64) : sub64 a b = a - b := by
  unfold sub64
  omega

theorem sub64_add64 (a b : Nat) (ha : a < 2^64) (hb : b ≤ 2^64) :
    sub64 (add64 a b) b = a := by
  unfold sub64 add64
  omega

/-- A value as it is stored in an `int`. -/
def int32 (n : Int) : Int := n.bmod (2^32)

theorem int32_of_lt {n : Nat} (h : n < 2^31) : int32 n = n := by
  unfold int32
  rw [Int.bmod_eq_of_le] <;> omega

/-- Round down to a multiple of `n`. -/
def roundDown (a n : Nat) : Nat := a - a % n

theorem roundDown_eq (a n : Nat) : roundDown a n = a / n * n := by
  have h := Nat.div_add_mod a n
  rw [roundDown, Nat.mul_comm]
  omega

/-- Flag bits below the alignment of an address are added to it. -/
theorem or_of_aligned (i a p : Nat) (ha : a % 2^i = 0) (hp : p < 2^i) : a ||| p = a + p := by
  have h := Nat.two_pow_add_eq_or_of_lt hp (a / 2^i)
  rw [Nat.mul_div_cancel' (Nat.dvd_of_mod_eq_zero ha)] at h
  exact h.symm

theorem and_low (x n : Nat) : x &&& (2^n - 1) = x % 2^n := Nat.and_two_pow_sub_one_eq_mod x n

theorem shift_field (x n k : Nat) : (x >>> n) &&& (2^k - 1) = x / 2^n % 2^k := by
  rw [and_low, Nat.shiftRight_eq_div_pow]

end Word
