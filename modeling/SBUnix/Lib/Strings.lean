import SBUnix.Framework.CString
import Mathlib.Data.List.Lex

namespace SBUnix

open CString

/-- `while (str[i++] != '\0');` leaves `i` one past the terminator. -/
def countThrough : Bytes → Option Nat
  | [] => none
  | c::s => if c = 0 then some 1 else (countThrough s).map (· + 1)

/-- The length of a string, or `none` where no terminator is met. A string that is not empty
counts its terminator. -/
def kstrlen : Bytes → Option Nat
  | [] => none
  | c::s => if c = 0 then some 0 else countThrough (c::s)

/-- strlen of the C library has the same body. -/
def strlen (s : Bytes) : Option Nat := kstrlen s

def kstrcmp : Bytes → Bytes → Option Int
  | a::s, b::t =>
    if a = b then if a = 0 then some 0 else kstrcmp s t
    else some ((a.toNat : Int) - b.toNat)
  | _, _ => none

/-- The counter `i` that is compared with `n` stays 0. -/
def kstrncmp (n : Nat) : Bytes → Bytes → Option Int
  | a::s, b::t =>
    if a = b ∧ 0 < n then if a = 0 then some 0 else kstrncmp n s t
    else some ((a.toNat : Int) - b.toNat)
  | _, _ => none

/-- What kstrcpy leaves in the array at `dst`, or `none` if it runs past its end. -/
def kstrcpy : Bytes → Bytes → Option Bytes
  | _::dst, c::src => if c = 0 then some (0::dst) else (kstrcpy dst src).map (c :: ·)
  | _, _ => none

/-- What strncpy of the C library stores at `dst`. Each round copies a byte and then stops at a
NUL behind it, so that the byte at `src` is copied whatever it is; the last store is a NUL. -/
def strncpy : Nat → Bytes → Option Bytes
  | 0, _ => some [0]
  | n+1, c::d::src => if d = 0 then some [c, 0] else (strncpy n (d::src)).map (c :: ·)
  | _+1, _ => none

/-- kstrncpy has the body of strncpy. -/
def kstrncpy (n : Nat) (src : Bytes) : Option Bytes := strncpy n src

theorem countThrough_append_nul {t : Bytes} (h : 0 ∉ t) (r : Bytes) :
    countThrough (t ++ 0::r) = some (t.length+1) := by
  induction t with
  | nil => rfl
  | cons c t ih =>
    rw [List.mem_cons, not_or] at h
    rw [List.cons_append, countThrough, if_neg (Ne.symm h.1), ih h.2]
    rfl

theorem kstrlen_append_nul {t : Bytes} (h : 0 ∉ t) (r : Bytes) :
    kstrlen (t ++ 0::r) = some (if t = [] then 0 else t.length+1) := by
  cases t with
  | nil => rfl
  | cons c t =>
    have hc : c ≠ 0 := fun h0 => h (h0 ▸ List.mem_cons_self)
    rw [if_neg (List.cons_ne_nil c t), ← countThrough_append_nul h r, List.cons_append, kstrlen,
      if_neg hc]

/-- kstrlen as its callers use it. -/
theorem kstrlen_text {s : Bytes} (h : 0 ∈ s) :
    kstrlen s = some (if text s = [] then 0 else (text s).length+1) := by
  obtain ⟨r, hr⟩ := exists_text h
  have := kstrlen_append_nul (nul_not_mem_text s) r
  rwa [← hr] at this

theorem nul_mem_of_countThrough {s : Bytes} {n : Nat} (h : countThrough s = some n) : 0 ∈ s := by
  induction s generalizing n with
  | nil => cases h
  | cons c s ih =>
    rw [countThrough] at h
    by_cases hc : c = 0
    · exact hc ▸ List.mem_cons_self
    · rw [if_neg hc] at h
      obtain ⟨k, hk, -⟩ := Option.map_eq_some_iff.mp h
      exact List.mem_cons_of_mem _ (ih hk)

theorem nul_mem_of_kstrlen {s : Bytes} {n : Nat} (h : kstrlen s = some n) : 0 ∈ s := by
  cases s with
  | nil => cases h
  | cons c s =>
    rw [kstrlen] at h
    by_cases hc : c = 0
    · exact hc ▸ List.mem_cons_self
    · rw [if_neg hc] at h
      exact nul_mem_of_countThrough h

/-- The difference of the first bytes in which two texts differ; a text that has ended counts
as a byte 0. -/
def compareText : Bytes → Bytes → Int
  | [], [] => 0
  | [], b::_ => -b.toNat
  | a::_, [] => a.toNat
  | a::u, b::v => if a = b then compareText u v else (a.toNat : Int) - b.toNat

theorem toNat_pos_of_ne_nul {c : UInt8} (h : c ≠ 0) : 0 < c.toNat := by
  apply Nat.pos_of_ne_zero
  intro h0
  exact h (UInt8.toNat_inj.mp h0)

theorem kstrcmp_append_nul {u v : Bytes} (hu : 0 ∉ u) (hv : 0 ∉ v) (r r' : Bytes) :
    kstrcmp (u ++ 0::r) (v ++ 0::r') = some (compareText u v) := by
  induction u generalizing v with
  | nil =>
    cases v with
    | nil => rfl
    | cons b v =>
      have hb : (0 : UInt8) ≠ b := fun h => hv (h ▸ List.mem_cons_self)
      simp [kstrcmp, compareText, hb]
  | cons a u ih =>
    have ha : a ≠ 0 := fun h => hu (h ▸ List.mem_cons_self)
    cases v with
    | nil => simp [kstrcmp, compareText, ha]
    | cons b v =>
      rw [List.mem_cons, not_or] at hu hv
      by_cases hab : a = b
      · simp [kstrcmp, compareText, ← hab, ha, ih hu.2 hv.2]
      · simp [kstrcmp, compareText, hab]

theorem kstrcmp_eq_compareText {s t : Bytes} (hs : 0 ∈ s) (ht : 0 ∈ t) :
    kstrcmp s t = some (compareText (text s) (text t)) := by
  obtain ⟨r, hr⟩ := exists_text hs
  obtain ⟨r', hr'⟩ := exists_text ht
  have h := kstrcmp_append_nul (nul_not_mem_text s) (nul_not_mem_text t) r r'
  rwa [← hr, ← hr'] at h

theorem compareText_self (u : Bytes) : compareText u u = 0 := by
  induction u with
  | nil => rfl
  | cons a u ih => rw [compareText, if_pos rfl, ih]

theorem compareText_swap (u v : Bytes) : compareText v u = -compareText u v := by
  induction u generalizing v with
  | nil =>
    cases v with
    | nil => rfl
    | cons b v => simp [compareText]
  | cons a u ih =>
    cases v with
    | nil => simp [compareText]
    | cons b v =>
      by_cases hab : a = b
      · simp [compareText, hab, ih]
      · simp [compareText, hab, Ne.symm hab]

/-- The sign is that of the lexicographic comparison. -/
theorem compareText_neg_iff {u v : Bytes} (hv : 0 ∉ v) : compareText u v < 0 ↔ u < v := by
  induction u generalizing v with
  | nil =>
    cases v with
    | nil => simp [compareText]
    | cons b v =>
      have hb : b ≠ 0 := fun h => hv (h ▸ List.mem_cons_self)
      have := toNat_pos_of_ne_nul hb
      simp [compareText, this]
  | cons a u ih =>
    cases v with
    | nil => simp [compareText]
    | cons b v =>
      rw [List.mem_cons, not_or] at hv
      rw [List.cons_lt_cons_iff]
      by_cases hab : a = b
      · simp [compareText, hab, ih hv.2]
      · simp only [compareText, hab, if_false, false_and, or_false, UInt8.lt_iff_toNat_lt]
        omega

theorem compareText_pos_iff {u v : Bytes} (hu : 0 ∉ u) : 0 < compareText u v ↔ v < u := by
  rw [← compareText_neg_iff hu, compareText_swap u v]
  omega

theorem compareText_eq_zero {u v : Bytes} (hu : 0 ∉ u) (hv : 0 ∉ v) :
    compareText u v = 0 ↔ u = v := by
  constructor
  · intro h
    have hlt : ¬ u < v := by
      rw [← compareText_neg_iff hv]
      omega
    have hgt : ¬ v < u := by
      rw [← compareText_pos_iff hu]
      omega
    exact List.le_antisymm (List.not_lt.mp hgt) (List.not_lt.mp hlt)
  · intro h
    rw [h, compareText_self]

/-- kstrcmp as its callers use it. -/
theorem kstrcmp_text {s t : Bytes} (hs : 0 ∈ s) (ht : 0 ∈ t) :
    ∃ d, kstrcmp s t = some d ∧ (d = 0 ↔ text s = text t) :=
  ⟨_, kstrcmp_eq_compareText hs ht, compareText_eq_zero (nul_not_mem_text s) (nul_not_mem_text t)⟩

theorem kstrncmp_pos {n : Nat} (hn : 0 < n) (s t : Bytes) : kstrncmp n s t = kstrcmp s t := by
  induction s generalizing t with
  | nil => rfl
  | cons a s ih =>
    cases t with
    | nil => rfl
    | cons b t => simp only [kstrncmp, kstrcmp, hn, and_true, ih]

/-- With `n = 0` the first characters are compared all the same. -/
theorem kstrncmp_zero (a b : UInt8) (s t : Bytes) :
    kstrncmp 0 (a::s) (b::t) = some ((a.toNat : Int) - b.toNat) := by
  rw [kstrncmp, if_neg (by simp)]

/-- kstrncmp bounded by the length of its second string compares whole strings, also with the
bound 0. -/
theorem kstrncmp_kstrlen {s file : Bytes} (hs : 0 ∈ s) (hf : 0 ∈ file) :
    ∃ len d, kstrlen file = some len ∧ kstrncmp len s file = some d ∧
      (d = 0 ↔ text s = text file) := by
  have hlen := kstrlen_text hf
  by_cases h0 : text file = []
  · obtain ⟨r, hr⟩ := exists_text hf
    rw [h0, List.nil_append] at hr
    obtain ⟨c, s, rfl⟩ := List.exists_cons_of_ne_nil (List.ne_nil_of_mem hs)
    rw [if_pos h0] at hlen
    refine ⟨0, (c.toNat : Int) - (0 : UInt8).toNat, hlen, ?_, ?_⟩
    · rw [hr, kstrncmp_zero]
    · rw [h0]
      by_cases hc : c = 0
      · rw [hc, text_nul]
        simp
      · rw [text_cons hc]
        refine iff_of_false ?_ (List.cons_ne_nil _ _)
        intro h
        apply hc
        apply UInt8.toNat_inj.mp
        omega
  · obtain ⟨d, hd, hiff⟩ := kstrcmp_text hs hf
    rw [if_neg h0] at hlen
    exact ⟨_, d, hlen, (kstrncmp_pos (Nat.succ_pos _) s file).trans hd, hiff⟩

theorem kstrcpy_append_nul {t : Bytes} (h : 0 ∉ t) (r dst : Bytes) (hlen : t.length < dst.length) :
    kstrcpy dst (t ++ 0::r) = some (t ++ 0::dst.drop (t.length+1)) := by
  induction t generalizing dst with
  | nil =>
    cases dst with
    | nil => simp at hlen
    | cons d dst => rfl
  | cons c t ih =>
    cases dst with
    | nil => simp at hlen
    | cons d dst =>
      rw [List.mem_cons, not_or] at h
      rw [List.cons_append, kstrcpy, if_neg (Ne.symm h.1), ih h.2 dst (by simpa using hlen)]
      rfl

/-- A string that does not fit is written past the end. -/
theorem kstrcpy_overflow {t : Bytes} (h : 0 ∉ t) (r dst : Bytes) (hlen : dst.length ≤ t.length) :
    kstrcpy dst (t ++ 0::r) = none := by
  induction t generalizing dst with
  | nil =>
    rw [List.eq_nil_of_length_eq_zero (Nat.le_zero.mp hlen)]
    rfl
  | cons c t ih =>
    cases dst with
    | nil => rfl
    | cons d dst =>
      rw [List.mem_cons, not_or] at h
      rw [List.cons_append, kstrcpy, if_neg (Ne.symm h.1), ih h.2 dst (by simpa using hlen)]
      rfl

/-- And so is one without an end. -/
theorem kstrcpy_unterminated {s dst : Bytes} (h : 0 ∉ s) (hlen : dst.length ≤ s.length) :
    kstrcpy dst s = none := by
  induction s generalizing dst with
  | nil =>
    cases dst <;> rfl
  | cons c s ih =>
    cases dst with
    | nil => rfl
    | cons d dst =>
      rw [List.mem_cons, not_or] at h
      rw [kstrcpy, if_neg (Ne.symm h.1), ih h.2 (by simpa using hlen), Option.map_none]

theorem strncpy_take {t : Bytes} (h : 0 ∉ t) (c : UInt8) (r : Bytes) :
    strncpy t.length (t ++ c::r) = some (t ++ [0]) := by
  induction t with
  | nil => simp [strncpy]
  | cons a t ih =>
    have ht : 0 ∉ t := fun h' => h (List.mem_cons_of_mem a h')
    cases t with
    | nil =>
      by_cases hc : c = 0 <;> simp [strncpy, hc]
    | cons b t =>
      have hb : b ≠ 0 := fun hb => ht (hb ▸ List.mem_cons_self)
      simp only [List.cons_append, List.length_cons] at ih ⊢
      rw [strncpy, if_neg hb, ih ht]
      rfl

/-- A string that is not empty is copied whole where the count allows it. -/
theorem strncpy_append_nul {t : Bytes} (h : 0 ∉ t) (hne : t ≠ []) {n : Nat} (hn : t.length ≤ n)
    (r : Bytes) : strncpy n (t ++ 0::r) = some (t ++ [0]) := by
  induction t generalizing n with
  | nil => exact absurd rfl hne
  | cons a t ih =>
    have ht : 0 ∉ t := fun h' => h (List.mem_cons_of_mem a h')
    obtain ⟨n, rfl⟩ : ∃ m, n = m+1 := ⟨n-1, by simp only [List.length_cons] at hn; omega⟩
    cases t with
    | nil => simp [strncpy]
    | cons b t =>
      have hb : b ≠ 0 := fun hb => ht (hb ▸ List.mem_cons_self)
      have hlen : (b::t).length ≤ n := by simpa using hn
      have hrest := ih ht (List.cons_ne_nil b t) hlen
      simp only [List.cons_append] at hrest ⊢
      rw [strncpy, if_neg hb, hrest]
      rfl

theorem strncpy_isSome {n : Nat} {s : Bytes} (h : n < s.length) : ∃ w, strncpy n s = some w := by
  induction n generalizing s with
  | zero => exact ⟨[0], by simp [strncpy]⟩
  | succ n ih =>
    match s, h with
    | c::d::s, h =>
      obtain ⟨w, hw⟩ := ih (s := d::s) (by simpa using h)
      by_cases hd : d = 0
      · exact ⟨[c, 0], by simp [strncpy, hd]⟩
      · exact ⟨c::w, by simp [strncpy, hd, hw]⟩

/-- The byte at `src` is copied whatever it is. -/
theorem strncpy_cons {n : Nat} {c : UInt8} {s : Bytes} (h : n < s.length) :
    ∃ w, strncpy (n+1) (c::s) = some (c::w) := by
  match s, h with
  | d::s, h =>
    by_cases hd : d = 0
    · exact ⟨[0], by simp [strncpy, hd]⟩
    · obtain ⟨w, hw⟩ := strncpy_isSome h
      exact ⟨w, by simp [strncpy, hd, hw]⟩

theorem text_strncpy {n : Nat} {s v : Bytes} (h : strncpy n s = some v) :
    text v = text (s.take n) := by
  induction n generalizing s v with
  | zero =>
    rw [strncpy] at h
    rw [← Option.some.inj h, List.take_zero]
    rfl
  | succ n ih =>
    match s with
    | [] => simp [strncpy] at h
    | [_] => simp [strncpy] at h
    | c::d::s =>
      rw [strncpy] at h
      rw [List.take_succ_cons]
      by_cases hd : d = 0
      · rw [if_pos hd] at h
        have hend : text ((d::s).take n) = [] := by
          cases n with
          | zero => rfl
          | succ n => rw [List.take_succ_cons, hd, text_nul]
        by_cases hc : c = 0
        · rw [← Option.some.inj h, hc, text_nul, text_nul]
        · rw [← Option.some.inj h, text_cons hc, text_cons hc, hend, text_nul]
      · rw [if_neg hd] at h
        obtain ⟨u, hu, rfl⟩ := Option.map_eq_some_iff.mp h
        by_cases hc : c = 0
        · rw [hc, text_nul, text_nul]
        · rw [text_cons hc, text_cons hc, ih hu]

end SBUnix
