import SBUnix.Framework.Digits
import SBUnix.Lib.Numbers

namespace SBUnix

open CString Digits

/-- The string constant of itoa, zyx…cba9876543210123456789abc…xyz: the 0 is at index 35. -/
def itoaTable : Bytes :=
  [122, 121, 120, 119, 118, 117, 116, 115, 114, 113, 112, 111, 110, 109, 108, 107, 106, 105,
   104, 103, 102, 101, 100, 99, 98, 97, 57, 56, 55, 54, 53, 52, 51, 50, 49, 48, 49, 50, 51, 52,
   53, 54, 55, 56, 57, 97, 98, 99, 100, 101, 102, 103, 104, 105, 106, 107, 108, 109, 110, 111,
   112, 113, 114, 115, 116, 117, 118, 119, 120, 121, 122]

/-- `*ptr++ = '-'` for negative decimals; with where the numbers start. -/
def itoaSign (value base : Int) (str : Bytes) : Option (Nat × Bytes) :=
  if value < 0 ∧ base = 10 then (setByte str 0 45).map fun str => (1, str) else some (0, str)

/-- The conversion loop, with the index of `ptr` behind it. `none` also where the rounds run
out. -/
def itoaDigits (base : Int) : Nat → Int → Nat → Bytes → Option (Nat × Bytes)
  | 0, _, _, _ => none
  | n+1, value, ptr, str => do
    -- the remainder has the sign of the value
    let c ← itoaTable[(35 + value.tmod base).toNat]?
    let str ← setByte str ptr c
    if value.tdiv base = 0 then some (ptr+1, str)
    else itoaDigits base n (value.tdiv base) (ptr+1) str

/-- `while (low < ptr)`; `none` also where the rounds run out. -/
def invert : Nat → Nat → Nat → Bytes → Option Bytes
  | 0, _, _, _ => none
  | n+1, low, ptr, str =>
    if low < ptr then do
      let tmp ← str[low]?
      let c ← str[ptr]?
      let str ← setByte str low c
      let str ← setByte str ptr tmp
      invert n (low+1) (ptr-1) str
    else some str

def itoa (value : Int) (str : Bytes) (base : Int) : Option Bytes :=
  if base < 2 ∨ 36 < base then setByte str 0 0
  else do
    let s ← itoaSign value base str
    let r ← itoaDigits base (value.natAbs+1) value s.1 s.2
    let str ← setByte r.2 r.1 0
    invert (r.1+1) s.1 (r.1-1) str

section Numeral

def alnumValue (c : UInt8) : Option Nat :=
  if 48 ≤ c.toNat ∧ c.toNat ≤ 57 then some (c.toNat - 48)
  else if 97 ≤ c.toNat ∧ c.toNat ≤ 122 then some (c.toNat - 87)
  else none

/-- The digits of a base are those below it. -/
def digitValue (base : Nat) (c : UInt8) : Option Nat := (alnumValue c).filter (· < base)

/-- A numeral without its sign. -/
def magnitude (w : Bytes) : Bytes := if w.head? = some 45 then w.tail else w

/-- An unsigned numeral read back, the highest digit first. -/
def readNumeral (base : Nat) (w : Bytes) : Option Nat :=
  if w = [] then none else (w.mapM (digitValue base)).map fun ds => Nat.ofDigits base ds.reverse

def readSigned (base : Nat) (w : Bytes) : Option Int :=
  (readNumeral base (magnitude w)).map fun n : Nat => if w.head? = some 45 then -(n : Int) else n

/-- The numeral of a value, with a sign in base 10 only. -/
structure IsNumeral (v : Int) (b : Nat) (w : Bytes) : Prop where
  noNul : 0 ∉ w
  minus : w.head? = some 45 ↔ v < 0 ∧ b = 10
  value : readSigned b w = some (if 0 ≤ v ∨ b = 10 then v else |v|)
  leading : (magnitude w).head? = some 48 → w = [48]
  zero : v = 0 → w = [48]

def sign (v : Int) (b : Nat) : Bytes := if v < 0 ∧ b = 10 then [45] else []

def numeral (v : Int) (b : Nat) : Bytes := sign v b ++ ((shown b v.natAbs).map digitChar).reverse

theorem sign_minus {v : Int} {b : Nat} (h : v < 0 ∧ b = 10) : sign v b = [45] := if_pos h

theorem sign_none {v : Int} {b : Nat} (h : ¬(v < 0 ∧ b = 10)) : sign v b = [] := if_neg h

theorem length_numeral (v : Int) (b : Nat) :
    (numeral v b).length = (sign v b).length + (shown b v.natAbs).length := by
  simp [numeral]

theorem digitChar_spec : ∀ k < 36, digitChar k ≠ 0 ∧ digitChar k ≠ 45 ∧
    (digitChar k = 48 → k = 0) ∧ alnumValue (digitChar k) = some k := by
  decide

theorem digitValue_digitChar {b k : Nat} (hb : b ≤ 36) (hk : k < b) :
    digitValue b (digitChar k) = some k := by
  obtain ⟨-, -, -, hval⟩ := digitChar_spec k (by omega)
  rw [digitValue, hval]
  simp [hk]

theorem readNumeral_map {b : Nat} (hb : b ≤ 36) {ds : List Nat} (hne : ds ≠ [])
    (h : ∀ k ∈ ds, k < b) :
    readNumeral b (ds.map digitChar).reverse = some (Nat.ofDigits b ds) := by
  have hall : (ds.reverse.map digitChar).mapM (digitValue b) = some ds.reverse :=
    mapM_map_of_inverse fun k hk => digitValue_digitChar hb (h k (List.mem_reverse.mp hk))
  rw [readNumeral, if_neg (by simpa using hne), ← List.map_reverse, hall, Option.map_some,
    List.reverse_reverse]

variable {b : Nat} (h2 : 2 ≤ b) (h36 : b ≤ 36)
include h2 h36

theorem digit_of_mem {c : UInt8} {v : Nat} (h : c ∈ ((shown b v).map digitChar).reverse) :
    c ≠ 0 ∧ c ≠ 45 := by
  obtain ⟨k, hk, rfl⟩ := List.mem_map.mp (List.mem_reverse.mp h)
  have hlt := shown_lt h2 v k hk
  obtain ⟨hnul, hminus, -⟩ := digitChar_spec k (by omega)
  exact ⟨hnul, hminus⟩

theorem numeral_head?_iff (v : Int) : (numeral v b).head? = some 45 ↔ v < 0 ∧ b = 10 := by
  by_cases hs : v < 0 ∧ b = 10
  · refine iff_of_true ?_ hs
    rw [numeral, sign_minus hs]
    rfl
  · refine iff_of_false ?_ hs
    rw [numeral, sign_none hs, List.nil_append]
    intro h
    exact (digit_of_mem h2 h36 (List.mem_of_mem_head? h)).2 rfl

theorem magnitude_numeral (v : Int) :
    magnitude (numeral v b) = ((shown b v.natAbs).map digitChar).reverse := by
  have hhead := numeral_head?_iff h2 h36 v
  by_cases hs : v < 0 ∧ b = 10
  · rw [magnitude, if_pos (hhead.mpr hs), numeral, sign_minus hs]
    rfl
  · rw [magnitude, if_neg (mt hhead.mp hs), numeral, sign_none hs, List.nil_append]

theorem readSigned_numeral (v : Int) :
    readSigned b (numeral v b) = some (if 0 ≤ v ∨ b = 10 then v else |v|) := by
  rw [readSigned, magnitude_numeral h2 h36,
    readNumeral_map h36 (shown_ne_nil h2 _) (shown_lt h2 _), ofDigits_shown, Option.map_some]
  simp only [numeral_head?_iff h2 h36, Int.abs_eq_natAbs]
  congr 1
  split_ifs <;> omega

/-- A numeral that starts with 0 is that of 0. -/
theorem numeral_leading (v : Int) (h : (magnitude (numeral v b)).head? = some 48) : v = 0 := by
  rw [magnitude_numeral h2 h36, List.head?_reverse, List.getLast?_map, Option.map_eq_some_iff] at h
  obtain ⟨k, hlast, hchar⟩ := h
  have hlt := shown_lt h2 _ k (List.mem_of_getLast? hlast)
  have hzero := (digitChar_spec k (by omega)).2.2.1 hchar
  rw [hzero] at hlast
  exact Int.natAbs_eq_zero.mp (getLast?_shown hlast)

theorem nul_not_mem_numeral (v : Int) : 0 ∉ numeral v b := by
  intro h
  rcases List.mem_append.mp h with hsign | hdigit
  · by_cases hs : v < 0 ∧ b = 10
    · simp [sign_minus hs] at hsign
    · simp [sign_none hs] at hsign
  · exact (digit_of_mem h2 h36 hdigit).1 rfl

theorem isNumeral_numeral (v : Int) : IsNumeral v b (numeral v b) where
  noNul := nul_not_mem_numeral h2 h36 v
  minus := numeral_head?_iff h2 h36 v
  value := readSigned_numeral h2 h36 v
  leading h := by
    rw [numeral_leading h2 h36 v h]
    rfl
  zero h := by
    rw [h]
    rfl

end Numeral

section Conversion

theorem itoaTable_mirrored : ∀ k < 36, itoaTable[35+k]? = some (digitChar k) ∧
    itoaTable[35-k]? = some (digitChar k) := by
  decide

/-- The table turns a remainder of either sign into its digit. -/
theorem itoaTable_tmod {b : Nat} (h2 : 2 ≤ b) (h36 : b ≤ 36) (v : Int) :
    itoaTable[(35 + v.tmod b).toNat]? = some (digitChar (v.natAbs % b)) := by
  have habs : (v.tmod b).natAbs = v.natAbs % b := by rw [Int.natAbs_tmod, Int.natAbs_natCast]
  have hlt : v.natAbs % b < b := Nat.mod_lt _ (by omega)
  obtain ⟨hup, hdown⟩ := itoaTable_mirrored (v.natAbs % b) (by omega)
  rcases Int.natAbs_eq (v.tmod b) with hpos | hneg
  · rw [← hup]
    congr 1
    omega
  · rw [← hdown]
    congr 1
    omega

theorem natAbs_tdiv_natCast (v : Int) (b : Nat) : (v.tdiv b).natAbs = v.natAbs / b := by
  rw [Int.natAbs_tdiv, Int.natAbs_natCast]
  rfl

variable {b : Nat} (h2 : 2 ≤ b) (h36 : b ≤ 36)
include h2 h36

/-- The digits are put down lowest first, over as many bytes of the buffer. -/
theorem itoaDigits_eq {n : Nat} {v : Int} (hn : v.natAbs < n) (p old rest : Bytes)
    (hold : old.length = (shown b v.natAbs).length) :
    itoaDigits b n v p.length (p ++ (old ++ rest)) =
      some (p.length + old.length, p ++ ((shown b v.natAbs).map digitChar ++ rest)) := by
  induction n generalizing v p old with
  | zero => omega
  | succ n ih =>
    have hdiv := natAbs_tdiv_natCast v b
    rw [shown_eq h2] at hold ⊢
    obtain ⟨c, old, rfl⟩ := List.exists_cons_of_length_eq_add_one hold
    rw [List.length_cons, List.length_cons, Nat.add_right_cancel_iff] at hold
    rw [itoaDigits, itoaTable_tmod h2 h36]
    simp only [Option.bind_eq_bind, Option.bind_some, List.cons_append, setByte_append]
    by_cases hlast : v.tdiv b = 0
    · have hq : v.natAbs / b = 0 := by rw [← hdiv, hlast]; rfl
      rw [if_pos hq, List.length_nil, List.length_eq_zero_iff] at hold
      simp [hlast, hq, hold]
    · have hq : v.natAbs / b ≠ 0 := by rwa [← hdiv, Int.natAbs_ne_zero]
      rw [if_neg hq] at hold ⊢
      have hless : (v.tdiv b).natAbs < n := by
        have := Nat.div_lt_self (show 0 < v.natAbs by
          apply Nat.pos_of_ne_zero
          intro h0
          simp [h0] at hq) h2
        omega
      have hround := ih hless (p ++ [digitChar (v.natAbs % b)]) old (by rw [hdiv, hold])
      rw [if_neg hlast]
      simpa [hdiv, Nat.add_assoc, Nat.add_comm 1] using hround

omit h2 h36 in
/-- One round swaps the ends of what is not inverted yet. -/
theorem invert_eq {n : Nat} (p mid z : Bytes) (hn : mid.length < n) :
    invert n p.length (p.length + mid.length - 1) (p ++ (mid ++ z)) =
      some (p ++ (mid.reverse ++ z)) := by
  induction n generalizing p mid z with
  | zero => omega
  | succ n ih =>
    rw [invert]
    cases mid with
    | nil => rw [if_neg (by simp), List.reverse_nil]
    | cons a mid =>
      rcases List.eq_nil_or_concat' mid with rfl | ⟨mid, c, rfl⟩
      · rw [if_neg (by simp), List.reverse_singleton]
      · have hlast : p.length + (a :: (mid ++ [c])).length - 1 = (p ++ a::mid).length := by simp
        have hlow : (p ++ (a :: (mid ++ [c]) ++ z))[p.length]? = some a := by simp
        have hptr : (p ++ (a :: (mid ++ [c]) ++ z))[(p ++ a::mid).length]? = some c := by
          rw [show p ++ (a :: (mid ++ [c]) ++ z) = (p ++ a::mid) ++ c::z by simp,
            List.getElem?_append_right (le_refl _), Nat.sub_self]
          rfl
        have hfirst : setByte (p ++ (a :: (mid ++ [c]) ++ z)) p.length c =
            some ((p ++ c::mid) ++ c::z) := by
          rw [List.cons_append, setByte_append]
          simp
        have hsecond : setByte ((p ++ c::mid) ++ c::z) (p ++ a::mid).length a =
            some ((p ++ [c]) ++ (mid ++ a::z)) := by
          rw [show (p ++ a::mid).length = (p ++ c::mid).length by simp, setByte_append]
          simp
        have hrest := ih (p ++ [c]) mid (a::z) (by simp at hn; omega)
        rw [hlast, if_pos (by simp), hlow, hptr]
        simp only [Option.bind_eq_bind, Option.bind_some, hfirst, hsecond]
        rw [show p.length + 1 = (p ++ [c]).length by simp,
          show (p ++ a::mid).length - 1 = (p ++ [c]).length + mid.length - 1 by
            simp only [List.length_append, List.length_cons, List.length_nil]
            omega, hrest]
        simp

omit h2 h36 in
theorem itoaSign_eq (v : Int) (s rest : Bytes) (hs : s.length = (sign v b).length) :
    itoaSign v b (s ++ rest) = some ((sign v b).length, sign v b ++ rest) := by
  by_cases hneg : v < 0 ∧ b = 10
  · rw [sign_minus hneg] at hs ⊢
    obtain ⟨c, rfl⟩ := List.length_eq_one_iff.mp hs
    have hput := setByte_append [] c 45 rest
    rw [List.nil_append, List.length_nil] at hput
    rw [itoaSign, if_pos (by omega), List.singleton_append, hput]
    rfl
  · rw [sign_none hneg] at hs ⊢
    obtain rfl := List.length_eq_zero_iff.mp hs
    rw [itoaSign, if_neg (by omega)]
    rfl

/-- The buffer is split into what the sign, the digits and the terminator overwrite, and the
rest. -/
theorem itoa_eq (v : Int) (s old rest : Bytes) (d : UInt8) (hs : s.length = (sign v b).length)
    (hold : old.length = (shown b v.natAbs).length) :
    itoa v (s ++ (old ++ d::rest)) b = some (numeral v b ++ 0::rest) := by
  have hdigits := itoaDigits_eq h2 h36 (Nat.lt_succ_self v.natAbs) (sign v b) old (d::rest) hold
  have hnul : setByte (sign v b ++ ((shown b v.natAbs).map digitChar ++ d::rest))
      ((sign v b).length + old.length) 0 =
      some (sign v b ++ ((shown b v.natAbs).map digitChar ++ 0::rest)) := by
    have hput := setByte_append (sign v b ++ (shown b v.natAbs).map digitChar) d 0 rest
    simpa [hold] using hput
  have hinvert := invert_eq (n := (sign v b).length + old.length + 1) (sign v b)
    ((shown b v.natAbs).map digitChar) (0::rest) (by simp [hold])
  rw [List.length_map, ← hold] at hinvert
  rw [itoa, if_neg (by omega), itoaSign_eq v s _ hs]
  simp only [Option.bind_eq_bind, Option.bind_some, hdigits, hnul, hinvert]
  rw [numeral, List.append_assoc]

/-- Every buffer with room for the numeral and its terminator. -/
theorem itoa_writes (v : Int) (str : Bytes) (hroom : (numeral v b).length < str.length) :
    itoa v str b = some (numeral v b ++ 0 :: str.drop ((numeral v b).length + 1)) := by
  rw [length_numeral] at hroom ⊢
  obtain ⟨d, rest, hrest⟩ := List.exists_cons_of_length_pos
    (l := str.drop ((sign v b).length + (shown b v.natAbs).length)) (by simp; omega)
  have hsplit : str = str.take (sign v b).length ++
      ((str.drop (sign v b).length).take (shown b v.natAbs).length ++ d::rest) := by
    rw [← hrest, ← List.drop_drop, List.take_append_drop, List.take_append_drop]
  have hnext : str.drop ((sign v b).length + (shown b v.natAbs).length + 1) = rest := by
    rw [← List.drop_drop, hrest]
    rfl
  rw [hnext]
  conv_lhs => rw [hsplit]
  apply itoa_eq h2 h36
  · simp
    omega
  · simp
    omega

theorem numeral_length_le {v : Int} (hlo : -2^31 ≤ v) (hhi : v < 2^31) :
    (numeral v b).length ≤ 32 := by
  have hdigits (k : Nat) (hk : 0 < k) (hv : v.natAbs < b^k) : (shown b v.natAbs).length ≤ k :=
    length_shown_le h2 hk hv
  rw [length_numeral]
  by_cases hs : v < 0 ∧ b = 10
  · rw [sign_minus hs, List.length_singleton]
    obtain ⟨-, rfl⟩ := hs
    have := hdigits 10 (by norm_num) (by omega)
    omega
  · rw [sign_none hs, List.length_nil]
    have hpow : 2^32 ≤ b^32 := Nat.pow_le_pow_left h2 32
    have := hdigits 32 (by norm_num) (by omega)
    omega

end Conversion

section ReadBack

theorem stoi_numeral {v : Int} (h0 : 0 ≤ v) (hv : v < 10^12) (r : Bytes) :
    stoi (numeral v 10 ++ 0::r) = some v.toNat := by
  have hsign : sign v 10 = [] := sign_none (by omega)
  have hdigits : ∀ k ∈ (shown 10 v.natAbs).reverse, k < 10 := fun k hk =>
    shown_lt (by norm_num) _ k (List.mem_reverse.mp hk)
  have hlen : (shown 10 v.natAbs).reverse.length ≤ 12 := by
    rw [List.length_reverse]
    exact length_shown_le (by norm_num) (by norm_num) (by omega)
  have hbytes : (shown 10 v.natAbs).reverse.map digitChar =
      (shown 10 v.natAbs).reverse.map digitByte := by
    apply List.map_congr_left
    intro k hk
    rw [digitChar, if_pos (hdigits k hk), digitByte]
  rw [numeral, hsign, List.nil_append, ← List.map_reverse, hbytes,
    stoi_digits hdigits hlen (Or.inr (by decide)), List.reverse_reverse, ofDigits_shown]
  congr 1
  omega

/-- itoa writes the numeral of every int in every base it supports, in 33 bytes at most, and
stoi reads a decimal back. -/
theorem itoa_numeral (v : Int) (hlo : -2^31 ≤ v) (hhi : v < 2^31) (b : Nat) (h2 : 2 ≤ b)
    (h36 : b ≤ 36) :
    ∃ w, IsNumeral v b w ∧ w.length ≤ 32 ∧ ∀ str : Bytes, w.length < str.length →
      itoa v str b = some (w ++ 0 :: str.drop (w.length + 1)) ∧
      (b = 10 → 0 ≤ v → (itoa v str b).bind stoi = some v.toNat) := by
  refine ⟨numeral v b, isNumeral_numeral h2 h36 v, numeral_length_le h2 h36 hlo hhi, ?_⟩
  intro str hroom
  have hwrites := itoa_writes h2 h36 v str hroom
  refine ⟨hwrites, ?_⟩
  intro h10 h0
  subst h10
  rw [hwrites, Option.bind_some]
  apply stoi_numeral h0
  omega

theorem itoa_numeral_extremes :
    (∃ w, IsNumeral (-2^31) 10 w ∧ itoa (-2^31) (List.replicate 33 1) 10 =
      some (w ++ 0 :: (List.replicate 33 1).drop (w.length + 1))) ∧
    (itoa (2^31 - 1) (List.replicate 33 1) 10).bind stoi = some (2^31 - 1) := by
  obtain ⟨w, hw, hlen, hmin⟩ :=
    itoa_numeral (-2^31) (by norm_num) (by norm_num) 10 (by norm_num) (by norm_num)
  obtain ⟨u, -, hlen', hmax⟩ :=
    itoa_numeral (2^31 - 1) (by norm_num) (by norm_num) 10 (by norm_num) (by norm_num)
  have hroom (n : Nat) (hn : n ≤ 32) : n < (List.replicate 33 (1 : UInt8)).length := by
    rw [List.length_replicate]
    omega
  exact ⟨⟨w, hw, (hmin _ (hroom _ hlen)).1⟩, (hmax _ (hroom _ hlen')).2 rfl (by norm_num)⟩

end ReadBack

end SBUnix
