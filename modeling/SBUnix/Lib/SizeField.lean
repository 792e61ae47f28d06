import SBUnix.Lib.Numbers

namespace SBUnix

open CString

/-- The results of the 64-bit operations of stoiFrom, before they are cut to 64 bits. -/
def stoiValues : Nat → Nat → Bytes → List Nat
  | _, _, [] => []
  | n, i, c::s =>
    if isDigit c ∧ 0 < n then
      i*10 :: (i*10 + (c.toNat - 48)) :: stoiValues (n-1) ((i*10 + (c.toNat - 48)) % 2^64) s
    else []

/-- Those of power. -/
def powerValues (base : Nat) : Nat → List Nat
  | 0 => []
  | p+1 => base * power base p :: powerValues base p

/-- Those of oct2decFrom. -/
def oct2decValues : Nat → Nat → Nat → Nat → List Nat
  | 0, _, _, _ => []
  | n+1, oct, pow, dec =>
    if oct = 0 then []
    else (pow+1) :: (oct%10 * power 8 pow) :: (dec + oct%10 * power 8 pow) :: (powerValues 8 pow ++
      oct2decValues n (oct/10) (pow+1) ((dec + oct%10 * power 8 pow) % 2^64))

/-- `oct2dec(stoi(field))` is `n`, and no operation on the way is cut to 64 bits. -/
structure ReadsSize (field : Bytes) (n : Nat) : Prop where
  value : (stoi field).map oct2dec = some n
  stoiFits : ∀ x ∈ stoiValues 12 0 field, x < 2^64
  oct2decFits : ∀ v, stoi field = some v → ∀ x ∈ oct2decValues v v 0 0, x < 2^64

theorem digit_le_nine {c : UInt8} (h : isDigit c = true) : c.toNat - 48 ≤ 9 := by
  simp only [isDigit, Bool.and_eq_true, decide_eq_true_eq, UInt8.le_iff_toNat_le] at h
  have h57 : c.toNat ≤ 57 := h.2
  omega

/-- A number of `n` digits behind `i`. -/
theorem stoiValues_lt {n i : Nat} (s : Bytes) (hfit : (i+1)*10^n ≤ 2^64) :
    ∀ x ∈ stoiValues n i s, x < (i+1)*10^n := by
  induction s generalizing n i with
  | nil => simp [stoiValues]
  | cons c s ih =>
    rw [stoiValues]
    split_ifs with h
    · obtain ⟨hdigit, hn⟩ := h
      obtain ⟨n, rfl⟩ := Nat.exists_eq_add_one_of_ne_zero hn.ne'
      have hd := digit_le_nine hdigit
      have hpow : 1 ≤ 10^n := Nat.one_le_pow _ _ (by norm_num)
      have hstep : (i*10 + (c.toNat - 48) + 1)*10^n ≤ (i+1)*10^(n+1) := by
        rw [pow_succ']
        nlinarith
      have hsum : i*10 + (c.toNat - 48) < (i+1)*10^(n+1) := by nlinarith
      have hmod : (i*10 + (c.toNat - 48)) % 2^64 = i*10 + (c.toNat - 48) :=
        Nat.mod_eq_of_lt (lt_of_lt_of_le hsum hfit)
      intro x hx
      rw [List.mem_cons, List.mem_cons, hmod] at hx
      rcases hx with rfl | rfl | hx
      · omega
      · exact hsum
      · exact lt_of_lt_of_le (ih (hstep.trans hfit) x hx) hstep
    · simp

theorem powerValues_lt {p : Nat} (hfit : 8^p < 2^64) : ∀ x ∈ powerValues 8 p, x ≤ 8^p := by
  induction p with
  | zero => simp [powerValues]
  | succ p ih =>
    have hle : 8^p ≤ 8^(p+1) := Nat.pow_le_pow_right (by norm_num) (Nat.le_succ p)
    have hlow : 8^p < 2^64 := lt_of_le_of_lt hle hfit
    intro x hx
    rw [powerValues, List.mem_cons, power_eq, Nat.mod_eq_of_lt hlow] at hx
    rcases hx with rfl | hx
    · rw [pow_succ']
    · exact (ih hlow x hx).trans hle

/-- Each digit counts at most 9, so that `dec` stays below twice the next power of 8. -/
theorem oct2decValues_lt {k oct pow dec : Nat} (f : Nat) (hoct : oct < 10^k)
    (hdec : dec < 2*8^pow) (hpow : pow < 2^64 - k) (hfit : 2*8^(pow+k) ≤ 2^64) :
    ∀ x ∈ oct2decValues f oct pow dec, x < 2^64 := by
  induction f generalizing k oct pow dec with
  | zero => simp [oct2decValues]
  | succ f ih =>
    rw [oct2decValues]
    split_ifs with h0
    · simp
    · obtain ⟨k, rfl⟩ : ∃ j, k = j+1 := by
        apply Nat.exists_eq_add_one_of_ne_zero
        intro hk
        rw [hk, pow_zero] at hoct
        omega
      have hmono : 8^(pow+1) ≤ 8^(pow+(k+1)) := Nat.pow_le_pow_right (by norm_num) (by omega)
      have hnext : 8^(pow+1) = 8*8^pow := pow_succ' 8 pow
      have hpower : power 8 pow = 8^pow := by
        rw [power_eq, Nat.mod_eq_of_lt (by omega)]
      have hdigit : oct%10 * 8^pow ≤ 9*8^pow := Nat.mul_le_mul_right _ (by omega)
      have hdiv : oct/10 < 10^k := by
        rw [pow_succ] at hoct
        omega
      have hsum : (dec + oct%10 * 8^pow) % 2^64 = dec + oct%10 * 8^pow :=
        Nat.mod_eq_of_lt (by omega)
      have hlevel : pow+1+k = pow+(k+1) := by omega
      have hrest : ∀ x ∈ oct2decValues f (oct/10) (pow+1) (dec + oct%10 * 8^pow), x < 2^64 :=
        ih hdiv (by omega) (by omega) (by rwa [hlevel])
      intro x hx
      rw [hpower, hsum] at hx
      simp only [List.mem_cons, List.mem_append] at hx
      rcases hx with rfl | rfl | rfl | hx | hx
      · omega
      · omega
      · omega
      · have := powerValues_lt (by omega) x hx
        omega
      · exact hrest x hx

theorem readsSize_octal {k : Nat} (hk : k ≤ 12) {n : Nat} (hn : n < 8^k) {c : UInt8}
    (hc : k = 12 ∨ isDigit c = false) (r : Bytes) : ReadsSize (octal k n ++ c::r) n := by
  have hstoi := stoi_octal hk n hc r
  constructor
  case value => rw [hstoi, Option.map_some, oct2dec_readDecimal hk hn]
  case stoiFits =>
    intro x hx
    have hlt := stoiValues_lt (octal k n ++ c::r) (by norm_num) x hx
    exact lt_of_lt_of_le hlt (by norm_num)
  case oct2decFits =>
    intro v hv
    rw [hstoi] at hv
    obtain rfl := Option.some.inj hv
    have hlt : readDecimal k n < 10^12 :=
      lt_of_lt_of_le (readDecimal_lt k n) (Nat.pow_le_pow_right (by norm_num) hk)
    exact oct2decValues_lt _ hlt (by norm_num) (by norm_num) (by norm_num)

/-- Eleven digits with a NUL or a space behind them, and twelve with anything. -/
theorem oct2dec_stoi_sizeField (n : Nat) (r : Bytes) :
    (n < 8^11 → ∀ c, c = 0 ∨ c = 32 → ReadsSize (octal 11 n ++ c::r) n) ∧
      (n < 8^12 → ∀ c, ReadsSize (octal 12 n ++ c::r) n) := by
  constructor
  · intro hn c hc
    have hdigit : isDigit c = false := by
      rcases hc with rfl | rfl
      · decide
      · decide
    exact readsSize_octal (by norm_num) hn (Or.inr hdigit) r
  · intro hn c
    exact readsSize_octal (le_refl 12) hn (Or.inl rfl) r

/-- A file of 1234 bytes, and the largest size with a digit behind the field. -/
theorem oct2dec_stoi_sizeField_first :
    ReadsSize (octal 11 1234 ++ [32]) 1234 ∧ ReadsSize (octal 12 (8^12-1) ++ [55]) (8^12-1) :=
  ⟨(oct2dec_stoi_sizeField 1234 []).1 (by norm_num) 32 (Or.inr rfl),
    (oct2dec_stoi_sizeField (8^12-1) []).2 (by norm_num) 55⟩

end SBUnix
