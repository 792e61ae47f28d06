import SBUnix.Console.Format
import SBUnix.Framework.Digits
import Mathlib.Data.Nat.Digits.Div

namespace SBUnix

open CString Digits

/-- The conversions of an unsigned long. -/
inductive Conversion where
  | d
  | x
  | p
  deriving DecidableEq, Repr

def Conversion.letter : Conversion → UInt8
  | .d => 100
  | .x => 120
  | .p => 112

/-- The decimal numeral, the highest digit first. -/
def decimal (v : Nat) : Bytes :=
  if v = 0 then [48] else (Nat.digits 10 v).reverse.map digitByte

def hexValue (c : UInt8) : Option Nat :=
  if 48 ≤ c.toNat ∧ c.toNat ≤ 57 then some (c.toNat - 48)
  else if 97 ≤ c.toNat ∧ c.toNat ≤ 102 then some (c.toNat - 87)
  else none

/-- A hexadecimal numeral read back, the highest digit first. -/
def readHex (s : Bytes) : Option Nat := (s.mapM hexValue).map fun ds => Nat.ofDigits 16 ds.reverse

/-- The text is right for the value. -/
def Conversion.Shows (v : Nat) (out : Bytes) : Conversion → Prop
  | .d => out = decimal v
  | .x => readHex out = some v
  | .p => ∃ ds, out = 48::120::ds ∧ readHex ds = some v

/-- The formatter `format` puts out a right text for the value, with nothing around it. -/
def ShowsValue (format : Bytes → List VaArg → Option (Bytes × List VaArg)) (c : Conversion)
    (v : Nat) : Prop :=
  ∃ out, format [charPercent, c.letter, 0] [.word v] = some (out ++ [0], []) ∧ c.Shows v out

/-- The values a conversion is right for. -/
def Conversion.Fits (v : Nat) : Conversion → Prop
  | .d => 0 < v ∧ v < 10*2^32 ∧ (Nat.digits 10 v).reverse = Nat.digits 10 v
  | .x => v < 2^32
  | .p => v < 2^32

section Decimal

theorem map_digitByte_inj {ds es : List Nat} (hds : ∀ k ∈ ds, k < 10) (hes : ∀ k ∈ es, k < 10) :
    ds.map digitByte = es.map digitByte ↔ ds = es := by
  refine ⟨fun h => ?_, fun h => by rw [h]⟩
  have hread (l : List Nat) (hl : ∀ k ∈ l, k < 10) :
      (l.map digitByte).map (fun c => c.toNat - 48) = l := by
    rw [List.map_map]
    conv_rhs => rw [← List.map_id l]
    apply List.map_congr_left
    intro k hk
    simp [digitByte_toNat (hl k hk)]
  rw [← hread ds hds, h, hread es hes]

theorem digits_ten_lt (v : Nat) : ∀ k ∈ Nat.digits 10 v, k < 10 :=
  fun _ hk => Nat.digits_lt_base (by norm_num) hk

/-- Below `10 * 2^32` no quotient is cut. -/
theorem decDigitsFrom_eq {n v : Nat} (hn : v ≤ n) (hv : v < 10*2^32) :
    decDigitsFrom n v = (Nat.digits 10 v).map digitByte := by
  induction n generalizing v with
  | zero =>
    obtain rfl : v = 0 := by omega
    rfl
  | succ n ih =>
    rw [decDigitsFrom]
    by_cases h0 : v = 0
    · simp [h0]
    · rw [if_neg h0, Nat.mod_eq_of_lt (show v/10 < 2^32 by omega),
        ih (by omega) (by omega), Nat.digits_def' (by norm_num) (Nat.pos_of_ne_zero h0),
        List.map_cons, digitByte, Nat.add_comm 48]

/-- The digits of any value: its last one, then those of the quotient cut to 32 bits. -/
theorem decDigits_eq {v : Nat} (hv : 0 < v) :
    decDigits v = (v%10 :: Nat.digits 10 (v/10 % 2^32)).map digitByte := by
  obtain ⟨n, rfl⟩ : ∃ n, v = n+1 := ⟨v-1, by omega⟩
  have hcut : (n+1)/10 % 2^32 < 2^32 := Nat.mod_lt _ (by norm_num)
  have hle : (n+1)/10 % 2^32 ≤ (n+1)/10 := Nat.mod_le _ _
  rw [decDigits, decDigitsFrom, if_neg (by omega), decDigitsFrom_eq (by omega) (by omega),
    List.map_cons, digitByte, Nat.add_comm 48]

/-- A number of eleven digits at most whose quotient by ten is cut to 32 bits does not keep its
remainder modulo 9, since `2^32` is 4 there. -/
theorem mod_nine_cut {v s : Nat} (hv : 10*2^32 ≤ v) (hbound : v < 10^11)
    (hcut : v/10 % 2^32 % 9 = s%9) : v%9 ≠ (v%10 + s) % 9 := by
  obtain ⟨k, hk⟩ : ∃ k, v/10 / 2^32 = k := ⟨_, rfl⟩
  have hq := Nat.div_add_mod (v/10) (2^32)
  rw [hk] at hq
  generalize v/10 % 2^32 = m at hq hcut
  have hk1 : 1 ≤ k := by omega
  have hk2 : k ≤ 2 := by omega
  interval_cases k
  · omega
  · omega

/-- Where the quotient is cut, the digits are not those of the value, in any order. -/
theorem digits_cut_ne {v : Nat} (hv : 10*2^32 ≤ v) :
    v%10 :: Nat.digits 10 (v/10 % 2^32) ≠ (Nat.digits 10 v).reverse := by
  intro h
  have hm : v/10 % 2^32 < 10^10 := lt_trans (Nat.mod_lt _ (by norm_num)) (by norm_num)
  have hlen := congrArg List.length h
  have hsum := congrArg List.sum h
  have hshort := (Nat.digits_length_le_iff (by norm_num) (v/10 % 2^32)).mpr hm
  rw [List.length_cons, List.length_reverse] at hlen
  rw [List.sum_cons, List.sum_reverse] at hsum
  have hbound : v < 10^11 := (Nat.digits_length_le_iff (by norm_num) v).mp (by omega)
  have hnine := Nat.modEq_nine_digits_sum v
  rw [← hsum] at hnine
  exact mod_nine_cut hv hbound (Nat.modEq_nine_digits_sum _) hnine

/-- A decimal text is right exactly for a palindrome of which no quotient is cut. -/
theorem decDigits_eq_decimal_iff (v : Nat) : decDigits v = decimal v ↔ Conversion.d.Fits v := by
  rcases Nat.eq_zero_or_pos v with rfl | hpos
  · simp [decDigits, decDigitsFrom, decimal, Conversion.Fits]
  · have hrev : ∀ k ∈ (Nat.digits 10 v).reverse, k < 10 := by
      simpa using digits_ten_lt v
    rw [decimal, if_neg (by omega), Conversion.Fits]
    rcases Nat.lt_or_ge v (10*2^32) with hlt | hge
    · rw [decDigits, decDigitsFrom_eq (le_refl v) hlt, map_digitByte_inj (digits_ten_lt v) hrev]
      simp only [hpos, hlt, true_and]
      exact eq_comm
    · have hcut : ∀ k ∈ v%10 :: Nat.digits 10 (v/10 % 2^32), k < 10 := by
        intro k hk
        rcases List.mem_cons.mp hk with rfl | hk
        · exact Nat.mod_lt _ (by norm_num)
        · exact digits_ten_lt _ k hk
      rw [decDigits_eq hpos, map_digitByte_inj hcut hrev]
      refine iff_of_false (digits_cut_ne hge) ?_
      omega

end Decimal

section Hexadecimal

theorem hexDigits_eq (v : Nat) : hexDigits v = (low 16 8 v).reverse.map digitChar := by
  have hdigit (j : Nat) : (v >>> (j*4)) &&& 0xF = v / 16^j % 16 := by
    have hpow : 2^(j*4) = 16^j := by
      rw [mul_comm, pow_mul]
      norm_num
    rw [Nat.shiftRight_eq_div_pow, hpow]
    exact Nat.and_two_pow_sub_one_eq_mod _ 4
  simp only [hexDigits, hdigit, low, ← List.map_reverse, List.map_map]
  rfl

theorem hexValue_digitChar {k : Nat} (hk : k < 16) : hexValue (digitChar k) = some k := by
  interval_cases k <;> rfl

theorem readHex_map {ds : List Nat} (h : ∀ k ∈ ds, k < 16) :
    readHex (ds.map digitChar) = some (Nat.ofDigits 16 ds.reverse) := by
  have hall : (ds.map digitChar).mapM hexValue = some ds :=
    mapM_map_of_inverse fun k hk => hexValue_digitChar (h k hk)
  rw [readHex, hall, Option.map_some]

/-- Eight digits show the low half of the value. -/
theorem readHex_hexDigits (v : Nat) : readHex (hexDigits v) = some (v % 2^32) := by
  have hlt : ∀ k ∈ (low 16 8 v).reverse, k < 16 := by
    simpa using low_lt (by norm_num) 8 v
  have hpow : 16^8 = 2^32 := by norm_num
  rw [hexDigits_eq, readHex_map hlt, List.reverse_reverse, ofDigits_low, hpow]

theorem readHex_hexDigits_iff (v : Nat) : readHex (hexDigits v) = some v ↔ v < 2^32 := by
  rw [readHex_hexDigits, Option.some_inj]
  omega

end Hexadecimal

/-- The text a conversion puts out. -/
def Conversion.output (v : Nat) : Conversion → Bytes
  | .d => decDigits v
  | .x => hexDigits v
  | .p => 48 :: 120 :: hexDigits v

theorem vasprintf_conversion (c : Conversion) (v : Nat) :
    vasprintf [charPercent, c.letter, 0] [.word v] = some (c.output v ++ [0], []) := by
  have hd : directive c.letter [.word v] = some (c.output v, []) := by
    cases c <;> rfl
  have hlen : kstrlen [charPercent, c.letter, 0] = some 3 := by
    cases c <;> rfl
  rw [vasprintf, hlen, Option.bind_some, formatFrom_directive [0] _ c.letter (by decide), hd,
    Option.bind_some, formatFrom_stop _ _ (Or.inr rfl), Option.map_some, Option.map_some,
    List.append_nil]

theorem Conversion.shows_output_iff (c : Conversion) (v : Nat) :
    c.Shows v (c.output v) ↔ c.Fits v := by
  cases c with
  | d => exact decDigits_eq_decimal_iff v
  | x => exact readHex_hexDigits_iff v
  | p => simp [Conversion.Shows, Conversion.output, Conversion.Fits, readHex_hexDigits_iff]

/-- The kernel's formatter and the library's put out the right text for a value exactly if `%d`
gets a positive palindrome below `10 * 2^32`, and `%x` and `%p` get 32 bits. -/
theorem vasprintf_showsValue_iff (c : Conversion) (v : UInt64) :
    (ShowsValue vasprintf c v.toNat ↔ c.Fits v.toNat) ∧
      (ShowsValue vsprintf c v.toNat ↔ c.Fits v.toNat) := by
  have h : ShowsValue vasprintf c v.toNat ↔ c.Fits v.toNat := by
    rw [← c.shows_output_iff, ShowsValue, vasprintf_conversion]
    simp
  exact ⟨h, h⟩

/-- `%d` of 12 is "21". -/
theorem vasprintf_backwards :
    vasprintf [37, 100, 0] [.word 12] = some ([50, 49, 0], []) ∧
      ¬ ShowsValue vasprintf .d 12 := by
  have hrun : vasprintf [37, 100, 0] [.word 12] = some ([50, 49, 0], []) := by decide
  refine ⟨hrun, ?_⟩
  rintro ⟨out, hout, hshows⟩
  change vasprintf [37, 100, 0] [.word 12] = some (out ++ [0], []) at hout
  have hdec : decimal 12 = [49, 50] := by simp [decimal, digitByte]
  rw [Conversion.Shows, hdec] at hshows
  rw [hrun, hshows] at hout
  simp at hout

end SBUnix
