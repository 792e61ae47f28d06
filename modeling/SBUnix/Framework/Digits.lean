import Mathlib.Data.Nat.Digits.Lemmas
import Mathlib.Tactic

namespace Digits

/-- The last `n` digits of `v` in base `b`, lowest first. -/
def low (b n v : Nat) : List Nat := (List.range n).map fun j => v / b^j % b

@[simp] theorem length_low (b n v : Nat) : (low b n v).length = n := by simp [low]

theorem low_succ (b n v : Nat) : low b (n+1) v = v%b :: low b n (v/b) := by
  have hdiv (j : Nat) : v / b^(j+1) % b = v/b / b^j % b := by
    rw [pow_succ', Nat.div_div_eq_div_mul]
  simp [low, List.range_succ_eq_map, hdiv, Function.comp_def]

theorem low_lt {b : Nat} (hb : 0 < b) (n v : Nat) : ∀ d ∈ low b n v, d < b := by
  intro d hd
  obtain ⟨j, -, rfl⟩ := List.mem_map.mp hd
  exact Nat.mod_lt _ hb

/-- They stand for the number cut to them. -/
theorem ofDigits_low (b n v : Nat) : Nat.ofDigits b (low b n v) = v % b^n := by
  induction n generalizing v with
  | zero => simp [low, Nat.mod_one]
  | succ n ih => rw [low_succ, Nat.ofDigits_cons, ih, pow_succ', Nat.mod_mul]

theorem low_zero (b n : Nat) : low b n 0 = List.replicate n 0 := by
  rw [List.eq_replicate_iff]
  refine ⟨length_low b n 0, ?_⟩
  intro d hd
  obtain ⟨j, -, rfl⟩ := List.mem_map.mp hd
  simp

/-- Of a number that fits they are its digits, padded. -/
theorem low_eq_digits {b n v : Nat} (hb : 1 < b) (hv : v < b^n) :
    low b n v = b.digits v ++ List.replicate (n - (b.digits v).length) 0 := by
  induction n generalizing v with
  | zero =>
    obtain rfl : v = 0 := by simpa using hv
    simp [low]
  | succ n ih =>
    rcases Nat.eq_zero_or_pos v with rfl | hpos
    · simp [low_zero]
    · have hdiv : v/b < b^n := by
        rw [Nat.div_lt_iff_lt_mul (by omega)]
        rwa [pow_succ] at hv
      rw [low_succ, ih hdiv, Nat.digits_def' hb hpos, List.cons_append, List.length_cons,
        Nat.add_sub_add_right]

/-- The digits of a numeral, lowest first: those of the number, and one for 0. -/
def shown (b v : Nat) : List Nat := if v = 0 then [0] else b.digits v

@[simp] theorem shown_zero (b : Nat) : shown b 0 = [0] := rfl

theorem shown_of_ne_zero (b : Nat) {v : Nat} (hv : v ≠ 0) : shown b v = b.digits v := if_neg hv

theorem ofDigits_shown (b v : Nat) : Nat.ofDigits b (shown b v) = v := by
  by_cases hv : v = 0
  · simp [hv]
  · rw [shown_of_ne_zero b hv, Nat.ofDigits_digits]

/-- The highest digit is 0 for 0 only. -/
theorem getLast?_shown {b v : Nat} (h : (shown b v).getLast? = some 0) : v = 0 := by
  by_contra hv
  rw [shown_of_ne_zero b hv,
    List.getLast?_eq_some_getLast (Nat.digits_ne_nil_iff_ne_zero.mpr hv)] at h
  exact Nat.getLast_digit_ne_zero b hv (Option.some.inj h)

section Shown

variable {b : Nat} (hb : 1 < b)
include hb

theorem shown_eq (v : Nat) : shown b v = v%b :: if v/b = 0 then [] else shown b (v/b) := by
  by_cases hv : v = 0
  · simp [hv]
  · rw [shown_of_ne_zero b hv, Nat.digits_def' hb (Nat.pos_of_ne_zero hv)]
    by_cases hdiv : v/b = 0
    · rw [if_pos hdiv, hdiv, Nat.digits_zero]
    · rw [if_neg hdiv, shown_of_ne_zero b hdiv]

theorem shown_lt (v : Nat) : ∀ d ∈ shown b v, d < b := by
  by_cases hv : v = 0
  · simp [hv]
    omega
  · rw [shown_of_ne_zero b hv]
    exact fun d hd => Nat.digits_lt_base hb hd

theorem shown_ne_nil (v : Nat) : shown b v ≠ [] := by
  rw [shown_eq hb]
  exact List.cons_ne_nil _ _

theorem length_shown_le {v k : Nat} (hk : 0 < k) (hv : v < b^k) : (shown b v).length ≤ k := by
  by_cases h0 : v = 0
  · rw [h0, shown_zero]
    exact hk
  · rw [shown_of_ne_zero b h0]
    exact (Nat.digits_length_le_iff hb v).mpr hv

end Shown

/-- Characters that are read back one by one. -/
theorem mapM_map_of_inverse {α β : Type*} {f : α → β} {g : β → Option α} {l : List α}
    (h : ∀ a ∈ l, g (f a) = some a) : (l.map f).mapM g = some l := by
  induction l with
  | nil => rfl
  | cons a l ih =>
    rw [List.map_cons, List.mapM_cons, h a List.mem_cons_self,
      ih fun e he => h e (List.mem_cons_of_mem a he)]
    rfl

end Digits
