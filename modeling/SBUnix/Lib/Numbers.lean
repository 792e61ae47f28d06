import SBUnix.Framework.CString
import SBUnix.Framework.Digits

namespace SBUnix

open CString Digits

def isDigit (c : UInt8) : Bool := 48 ≤ c && c ≤ 57

/-- The loop of stoi with `n` rounds left. It looks at the next byte before it counts. -/
def stoiFrom : Nat → Nat → Bytes → Option Nat
  | _, _, [] => none
  | n, i, c::s =>
    if isDigit c ∧ 0 < n then stoiFrom (n-1) ((i*10 + (c.toNat - 48)) % 2^64) s else some i

def stoi (str : Bytes) : Option Nat := stoiFrom 12 0 str

def power (base : Nat) : Nat → Nat
  | 0 => 1
  | p+1 => base * power base p % 2^64

/-- `while (oct != 0)`; the first argument is at least as large as `oct`, so it is not what
ends the loop. -/
def oct2decFrom : Nat → Nat → Nat → Nat → Nat
  | 0, _, _, dec => dec
  | n+1, oct, pow, dec =>
    if oct = 0 then dec
    else oct2decFrom n (oct/10) (pow+1) ((dec + oct%10 * power 8 pow) % 2^64)

def oct2dec (oct : Nat) : Nat := oct2decFrom oct oct 0 0

theorem power_eq (base p : Nat) : power base p = base^p % 2^64 := by
  induction p with
  | zero => rfl
  | succ p ih => rw [power, ih, Nat.mul_mod_mod, ← pow_succ']

/-- A number in octal, as `k` digit characters. -/
def octal : Nat → Nat → Bytes
  | 0, _ => []
  | k+1, n => octal k (n/8) ++ [UInt8.ofNat (48 + n%8)]

/-- What the last `k` octal digits of a number stand for when they are read in decimal. -/
def readDecimal : Nat → Nat → Nat
  | 0, _ => 0
  | k+1, n => 10 * readDecimal k (n/8) + n%8

theorem octal_length (k n : Nat) : (octal k n).length = k := by
  induction k generalizing n with
  | zero => rfl
  | succ k ih => rw [octal, List.length_append, ih, List.length_singleton]

def digitByte (d : Nat) : UInt8 := UInt8.ofNat (48+d)

/-- The digits of the larger bases go on with the small letters. -/
def digitChar (k : Nat) : UInt8 := UInt8.ofNat (if k < 10 then 48+k else 87+k)

theorem digitByte_toNat {d : Nat} (hd : d < 10) : (digitByte d).toNat = 48+d := by
  rw [digitByte, UInt8.toNat_ofNat']
  omega

theorem isDigit_digitByte {d : Nat} (hd : d < 10) : isDigit (digitByte d) = true := by
  have h := digitByte_toNat hd
  simp only [isDigit, Bool.and_eq_true, decide_eq_true_eq, UInt8.le_iff_toNat_le, h]
  exact ⟨Nat.le_add_right _ _, by change _ ≤ 57; omega⟩

theorem octal_eq_map (k n : Nat) : octal k n = (low 8 k n).reverse.map digitByte := by
  induction k generalizing n with
  | zero => rfl
  | succ k ih =>
    rw [octal, ih, low_succ, List.reverse_cons, List.map_append, List.map_singleton, digitByte]

theorem readDecimal_eq (k n : Nat) : readDecimal k n = Nat.ofDigits 10 (low 8 k n) := by
  induction k generalizing n with
  | zero => rfl
  | succ k ih => rw [readDecimal, ih, low_succ, Nat.ofDigits_cons, Nat.add_comm]

theorem readDecimal_lt (k n : Nat) : readDecimal k n < 10^k := by
  induction k generalizing n with
  | zero => exact Nat.one_pos
  | succ k ih =>
    have := ih (n/8)
    rw [readDecimal, pow_succ]
    omega

/-- stoi over a run of digits, the highest first. -/
theorem stoiFrom_digits {ds : List Nat} (hds : ∀ d ∈ ds, d < 10) (m i : Nat) (r : Bytes)
    (hi : (i+1)*10^ds.length ≤ 2^64) :
    stoiFrom (m + ds.length) i (ds.map digitByte ++ r) =
      stoiFrom m (i*10^ds.length + Nat.ofDigits 10 ds.reverse) r := by
  induction ds generalizing i with
  | nil => simp
  | cons d ds ih =>
    have hd := hds d List.mem_cons_self
    rw [List.length_cons, pow_succ] at hi
    have hpos : 0 < 10^ds.length := by positivity
    have hfit : i*10 + d < 2^64 := by nlinarith
    have hnext : (i*10 + d + 1)*10^ds.length ≤ 2^64 := by nlinarith
    rw [List.map_cons, List.cons_append, List.length_cons, ← Nat.add_assoc, stoiFrom,
      if_pos ⟨isDigit_digitByte hd, Nat.succ_pos _⟩, digitByte_toNat hd, Nat.add_sub_cancel,
      Nat.add_sub_cancel_left, Nat.mod_eq_of_lt hfit,
      ih (fun e he => hds e (List.mem_cons_of_mem d he)) _ hnext, List.reverse_cons,
      Nat.ofDigits_append, Nat.ofDigits_singleton, List.length_reverse, pow_succ]
    congr 1
    ring

/-- Up to twelve digits. Behind fewer of them there has to be a byte that is no digit. -/
theorem stoi_digits {ds : List Nat} (hds : ∀ d ∈ ds, d < 10) (hlen : ds.length ≤ 12) {c : UInt8}
    (hc : ds.length = 12 ∨ isDigit c = false) (r : Bytes) :
    stoi (ds.map digitByte ++ c::r) = some (Nat.ofDigits 10 ds.reverse) := by
  have hrounds : 12 = 12 - ds.length + ds.length := (Nat.sub_add_cancel hlen).symm
  have hpow : (0+1)*10^ds.length ≤ 2^64 := by
    rw [Nat.zero_add, Nat.one_mul]
    exact (Nat.pow_le_pow_right (by norm_num) hlen).trans (by norm_num)
  have hstop : ¬(isDigit c = true ∧ 0 < 12 - ds.length) := by
    intro h
    rcases hc with hlast | hend
    · omega
    · exact absurd h.1 (by simp [hend])
  rw [stoi, hrounds, stoiFrom_digits hds _ 0 _ hpow, stoiFrom, if_neg hstop, Nat.zero_mul,
    Nat.zero_add]

theorem stoiFrom_stop {c : UInt8} (h : isDigit c = false) (n i : Nat) (r : Bytes) :
    stoiFrom n i (c::r) = some i := by
  rw [stoiFrom, if_neg (by simp [h])]

theorem readDecimal_zero (k : Nat) : readDecimal k 0 = 0 := by
  induction k with
  | zero => rfl
  | succ k ih => rw [readDecimal, Nat.zero_div, ih]

theorem readDecimal_pos (k n : Nat) (hn : n < 8^k) (h0 : 0 < n) : 0 < readDecimal k n := by
  induction k generalizing n with
  | zero => simp at hn; omega
  | succ k ih =>
    rw [readDecimal]
    by_cases h8 : n%8 = 0
    · have := ih (n/8) (by rw [pow_succ] at hn; omega) (by omega)
      omega
    · omega

/-- Each round takes one octal digit off; the number left to read shrinks with it. -/
theorem oct2decFrom_readDecimal (k n f pow dec : Nat) (hn : n < 8^k) (hf : readDecimal k n ≤ f)
    (hfit : dec + n * 8^pow < 2^64) :
    oct2decFrom f (readDecimal k n) pow dec = dec + n * 8^pow := by
  induction k generalizing n f pow dec with
  | zero =>
    have h0 : n = 0 := by simpa using hn
    subst h0
    cases f with
    | zero => simp [oct2decFrom]
    | succ f => simp [oct2decFrom, readDecimal]
  | succ k ih =>
    by_cases h0 : n = 0
    · subst h0
      rw [readDecimal_zero]
      cases f with
      | zero => simp [oct2decFrom]
      | succ f => simp [oct2decFrom]
    · have hpos := readDecimal_pos (k+1) n hn (by omega)
      obtain ⟨g, rfl⟩ : ∃ g, f = g+1 := ⟨f-1, by omega⟩
      have hpow : 8^pow < 2^64 := by nlinarith [Nat.pos_of_ne_zero h0]
      have hsplit : n%8 * 8^pow + n/8 * 8^(pow+1) = n * 8^pow := by
        conv_rhs => rw [← Nat.mod_add_div n 8]
        ring
      rw [oct2decFrom, if_neg (by omega), power_eq, Nat.mod_eq_of_lt hpow]
      rw [readDecimal] at hf ⊢
      have hdiv : (10 * readDecimal k (n/8) + n%8) / 10 = readDecimal k (n/8) := by omega
      have hmod : (10 * readDecimal k (n/8) + n%8) % 10 = n%8 := by omega
      rw [hdiv, hmod, Nat.mod_eq_of_lt (by omega),
        ih (n/8) g _ _ (by rw [pow_succ] at hn; omega) (by omega) (by omega)]
      omega

theorem stoi_octal {k : Nat} (hk : k ≤ 12) (n : Nat) {c : UInt8}
    (hc : k = 12 ∨ isDigit c = false) (r : Bytes) :
    stoi (octal k n ++ c::r) = some (readDecimal k n) := by
  have hdigits : ∀ d ∈ (low 8 k n).reverse, d < 10 := by
    intro d hd
    have := low_lt (show 0 < 8 by norm_num) k n d (List.mem_reverse.mp hd)
    omega
  have hlen : (low 8 k n).reverse.length = k := by simp
  rw [octal_eq_map, stoi_digits hdigits (by omega) (by rwa [hlen]), List.reverse_reverse,
    readDecimal_eq]

theorem oct2dec_readDecimal {k : Nat} (hk : k ≤ 12) {n : Nat} (hn : n < 8^k) :
    oct2dec (readDecimal k n) = n := by
  have hpow : 8^k ≤ 8^12 := Nat.pow_le_pow_right (by norm_num) hk
  have hfit : 0 + n * 8^0 < 2^64 := by
    rw [Nat.pow_zero, Nat.mul_one, Nat.zero_add]
    exact lt_of_lt_of_le hn (hpow.trans (by norm_num))
  rw [oct2dec, oct2decFrom_readDecimal k n _ 0 0 hn (le_refl _) hfit, Nat.pow_zero, Nat.mul_one,
    Nat.zero_add]

/-- A size field: eleven octal digits and a byte that is no digit. -/
theorem oct2dec_stoi_octal (n : Nat) (hn : n < 8^11) {c : UInt8} (hc : isDigit c = false)
    (r : Bytes) : (stoi (octal 11 n ++ c::r)).map oct2dec = some n := by
  have hk : 11 ≤ 12 := by norm_num
  rw [stoi_octal hk n (Or.inr hc), Option.map_some, oct2dec_readDecimal hk hn]

end SBUnix
