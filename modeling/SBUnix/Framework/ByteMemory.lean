import Mathlib.Tactic

namespace ByteMemory

/-- A flat byte memory; addresses are unbounded, so a caller states its own wrap-around. -/
abbrev Mem := Nat → UInt8

/-- Little-endian read of `n` bytes. -/
def load (m : Mem) : Nat → Nat → Nat
  | 0, _ => 0
  | n+1, a => (m a).toNat + 256 * load m n (a+1)

/-- Little-endian write of the low `n` bytes of `v`. -/
def store (m : Mem) (n a v : Nat) : Mem :=
  fun x => if a ≤ x ∧ x < a+n then UInt8.ofNat (v / 256^(x-a)) else m x

abbrev load32 (m : Mem) (a : Nat) : Nat := load m 4 a
abbrev load64 (m : Mem) (a : Nat) : Nat := load m 8 a
abbrev store32 (m : Mem) (a v : Nat) : Mem := store m 4 a v
abbrev store64 (m : Mem) (a v : Nat) : Mem := store m 8 a v

@[simp] theorem load_empty (m : Mem) (a : Nat) : load m 0 a = 0 := rfl

theorem load_succ (m : Mem) (n a : Nat) :
    load m (n+1) a = (m a).toNat + 256 * load m n (a+1) := rfl

theorem store_outside (m : Mem) (n a v x : Nat) (h : x < a ∨ a+n ≤ x) :
    store m n a v x = m x := by
  rw [store, if_neg]
  omega

theorem load_congr (m m' : Mem) (n a : Nat) (h : ∀ x, a ≤ x → x < a+n → m x = m' x) :
    load m n a = load m' n a := by
  induction n generalizing a with
  | zero => rfl
  | succ n ih =>
    rw [load_succ, load_succ, h a (by omega) (by omega), ih (a+1)]
    intro x hl hu
    exact h x (by omega) (by omega)

theorem load_lt (m : Mem) (n a : Nat) : load m n a < 256^n := by
  induction n generalizing a with
  | zero => simp
  | succ n ih =>
    have hb := (m a).toNat_lt
    have ht := ih (a+1)
    rw [load_succ, pow_succ]
    omega

theorem load64_lt (m : Mem) (a : Nat) : load64 m a < 2^64 := by
  simpa using load_lt m 8 a

/-- A read determined byte by byte. -/
theorem load_of_bytes (m : Mem) (n a v : Nat)
    (h : ∀ i < n, (m (a+i)).toNat = v / 256^i % 256) : load m n a = v % 256^n := by
  induction n generalizing a v with
  | zero => simp [Nat.mod_one]
  | succ n ih =>
    have h0 := h 0 (by omega)
    have ht : load m n (a+1) = v / 256 % 256^n := by
      apply ih
      intro i hi
      rw [show a+1+i = a+(i+1) by omega, h (i+1) (by omega), pow_succ',
        Nat.div_div_eq_div_mul]
    simp only [Nat.add_zero, pow_zero, Nat.div_one] at h0
    rw [load_succ, ht, h0, pow_succ', Nat.mod_mul]

theorem load_store_same (m : Mem) (n a v : Nat) : load (store m n a v) n a = v % 256^n := by
  apply load_of_bytes
  intro i hi
  rw [store, if_pos (by omega), Nat.add_sub_cancel_left, UInt8.toNat_ofNat']

theorem load_store_apart (m : Mem) (n k a b v : Nat) (h : a+n ≤ b ∨ b+k ≤ a) :
    load (store m k b v) n a = load m n a := by
  apply load_congr
  intro x hl hu
  exact store_outside _ _ _ _ _ (by omega)

theorem byte_of_load (m : Mem) (n a i : Nat) (hi : i < n) :
    UInt8.ofNat (load m n a / 256^i) = m (a+i) := by
  induction n generalizing a i with
  | zero => omega
  | succ n ih =>
    rw [load_succ]
    cases i with
    | zero =>
      rw [pow_zero, Nat.div_one, show a+0 = a from rfl]
      apply UInt8.toNat_inj.mp
      rw [UInt8.toNat_ofNat']
      have := (m a).toNat_lt
      omega
    | succ i =>
      have hbyte := (m a).toNat_lt
      have hdiv : ((m a).toNat + 256 * load m n (a+1)) / 256^(i+1) = load m n (a+1) / 256^i := by
        rw [pow_succ', ← Nat.div_div_eq_div_mul]
        congr 1
        omega
      rw [hdiv, ih (a+1) i (by omega), Nat.add_right_comm, Nat.add_assoc]

/-- Storing what is there. -/
theorem store_load (m : Mem) (n a : Nat) : store m n a (load m n a) = m := by
  funext x
  rw [store]
  split_ifs with h
  · rw [byte_of_load m n a (x-a) (by omega)]
    congr 1
    omega
  · rfl

/-- A wide read splits into its low and high parts. -/
theorem load_add (m : Mem) (n k a : Nat) :
    load m (n+k) a = load m n a + 256^n * load m k (a+n) := by
  induction n generalizing a with
  | zero => simp
  | succ n ih =>
    rw [show n+1+k = (n+k)+1 by omega, load_succ, load_succ, ih (a+1),
      show a+1+n = a+(n+1) by omega, pow_succ']
    ring

theorem load_low (m : Mem) (n k a : Nat) : load m n a = load m (n+k) a % 256^n := by
  rw [load_add, Nat.add_mul_mod_self_left, Nat.mod_eq_of_lt (load_lt m n a)]

theorem load_high (m : Mem) (n k a : Nat) : load m k (a+n) = load m (n+k) a / 256^n := by
  rw [load_add, Nat.add_mul_div_left _ _ (by positivity),
    Nat.div_eq_of_lt (load_lt m n a), Nat.zero_add]

theorem load64_store64_same (m : Mem) (a v : Nat) (h : v < 2^64) :
    load64 (store64 m a v) a = v := by
  rw [load64, store64, load_store_same]
  exact Nat.mod_eq_of_lt (by simpa using h)

theorem load64_store64_apart (m : Mem) (a b v : Nat) (h : a+8 ≤ b ∨ b+8 ≤ a) :
    load64 (store64 m b v) a = load64 m a :=
  load_store_apart m 8 8 a b v h

/-- A 32-bit store into the low half of a 64-bit word keeps the high half. -/
theorem load64_store32_low (m : Mem) (a v : Nat) (h : v < 2^32) :
    load64 (store32 m a v) a = v + 2^32 * (load64 m a / 2^32) := by
  have hl : load (store32 m a v) 4 a = v := by
    rw [store32, load_store_same]
    exact Nat.mod_eq_of_lt (by simpa using h)
  have hh : load (store32 m a v) 4 (a+4) = load64 m a / 2^32 := by
    rw [store32, load_store_apart _ _ _ _ _ _ (by omega), load_high m 4 4 a]
    norm_num
  rw [load64, load_add _ 4 4, hl, hh]
  norm_num

/-- A 32-bit store into the high half of a 64-bit word keeps the low half. -/
theorem load64_store32_high (m : Mem) (a v : Nat) (h : v < 2^32) :
    load64 (store32 m (a+4) v) a = load64 m a % 2^32 + 2^32 * v := by
  have hl : load (store32 m (a+4) v) 4 a = load64 m a % 2^32 := by
    rw [store32, load_store_apart _ _ _ _ _ _ (by omega), load_low m 4 4 a]
    norm_num
  have hh : load (store32 m (a+4) v) 4 (a+4) = v := by
    rw [store32, load_store_same]
    exact Nat.mod_eq_of_lt (by simpa using h)
  rw [load64, load_add _ 4 4, hl, hh]
  norm_num

/-- A byte store at the foot of a 64-bit word keeps the seven bytes above it. -/
theorem load64_store8 (m : Mem) (a v : Nat) (h : v < 256) :
    load64 (store m 1 a v) a = v + 256 * (load64 m a / 256) := by
  have hl : load (store m 1 a v) 1 a = v := by
    rw [load_store_same]
    exact Nat.mod_eq_of_lt (by simpa using h)
  have hh : load (store m 1 a v) 7 (a+1) = load64 m a / 256 := by
    rw [load_store_apart _ _ _ _ _ _ (by omega), load_high m 1 7 a]
    norm_num
  rw [load64, load_add _ 1 7, hl, hh]
  norm_num

theorem load_zero (m : Mem) (n a : Nat) (h : ∀ x, a ≤ x → x < a+n → m x = 0) :
    load m n a = 0 := by
  induction n generalizing a with
  | zero => rfl
  | succ n ih =>
    rw [load_succ, h a (by omega) (by omega), ih (a+1)]
    · rfl
    · intro x hl hu
      exact h x (by omega) (by omega)

/-- `n` bytes from `a` on set to zero. -/
def clear (m : Mem) (a n : Nat) : Mem := fun x => if a ≤ x ∧ x < a+n then 0 else m x

theorem clear_outside (m : Mem) (a n x : Nat) (h : x < a ∨ a+n ≤ x) : clear m a n x = m x :=
  if_neg (by omega)

theorem store_zero (m : Mem) (n a : Nat) : store m n a 0 = clear m a n := by
  funext x
  rw [store, clear, Nat.zero_div]
  rfl

theorem clear_store (m : Mem) (a n k b v : Nat) (hl : a ≤ b) (hu : b+k ≤ a+n) :
    clear (store m k b v) a n = clear m a n := by
  funext x
  rw [clear, clear]
  split_ifs with h
  · rfl
  · exact store_outside _ _ _ _ _ (by omega)

theorem clear_comm (m : Mem) (a n b k : Nat) :
    clear (clear m b k) a n = clear (clear m a n) b k := by
  funext x
  simp only [clear]
  split_ifs <;> rfl

theorem clear_clear (m : Mem) (a n : Nat) : clear (clear m a 1) (a+1) n = clear m a (n+1) := by
  funext x
  simp only [clear]
  split_ifs <;> first | rfl | omega

end ByteMemory
