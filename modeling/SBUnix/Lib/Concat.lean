import SBUnix.Lib.Strings

namespace SBUnix

open CString

/-- The loop of kstrcat from `i` on, with `n` rounds left. -/
def catFrom (len1 : Nat) (str2 : Bytes) : Nat → Nat → Bytes → Option Bytes
  | 0, _, a => some a
  | n+1, i, a =>
    str2[i]?.bind fun c => (setByte a (len1+i) c).bind (catFrom len1 str2 n (i+1))

/-- What kstrcat leaves in the array at `str1`, or `none` if it runs past an end. -/
def kstrcat (str1 str2 : Bytes) : Option Bytes :=
  (kstrlen str1).bind fun len1 =>
    (kstrlen str2).bind fun len2 =>
      (catFrom len1 str2 len2 0 str1).bind fun a => setByte a (len1+len2) 0

/-- strcat of the C library has the same body. -/
def strcat (str1 str2 : Bytes) : Option Bytes := kstrcat str1 str2

/-- The text `u`, stored with `tail` behind its terminator, becomes `u` followed by `v`. -/
def Concatenates (cat : Bytes → Bytes → Option Bytes) (u v tail r : Bytes) : Prop :=
  ∃ a, cat (u ++ 0::tail) (v ++ 0::r) = some a ∧ text a = u ++ v

/-- What kstrlen counts for a text. -/
def counted (u : Bytes) : Nat := if u = [] then 0 else u.length+1

section Loop

variable {len1 : Nat} {str2 a b : Bytes}

theorem catFrom_frame {n i : Nat} (h : catFrom len1 str2 n i a = some b) :
    b.length = a.length ∧ ∀ k ≤ len1+i, b.take k = a.take k := by
  induction n generalizing i a with
  | zero =>
    rw [catFrom] at h
    cases h
    exact ⟨rfl, fun _ _ => rfl⟩
  | succ n ih =>
    rw [catFrom] at h
    obtain ⟨c, -, h⟩ := Option.bind_eq_some_iff.mp h
    obtain ⟨d, hd, h⟩ := Option.bind_eq_some_iff.mp h
    obtain ⟨hlen, htake⟩ := ih h
    refine ⟨hlen.trans (setByte_length hd), ?_⟩
    intro k hk
    rw [htake k (by omega), setByte_take hd hk]

theorem catFrom_returns {n i : Nat} (hs : i+n ≤ str2.length) (ha : len1+i+n ≤ a.length) :
    ∃ b, catFrom len1 str2 n i a = some b := by
  induction n generalizing i a with
  | zero => exact ⟨a, rfl⟩
  | succ n ih =>
    have hi : i < str2.length := by omega
    have hget : str2[i]? = some (str2.get ⟨i, hi⟩) := List.getElem?_eq_getElem hi
    have hin : len1+i < a.length := by omega
    obtain ⟨d, hd⟩ := setByte_isSome_iff (c := str2.get ⟨i, hi⟩).mpr hin
    have hlen := setByte_length hd
    obtain ⟨b, hb⟩ := ih (i := i+1) (a := d) (by omega) (by omega)
    refine ⟨b, ?_⟩
    rw [catFrom, hget, Option.bind_some, hd, Option.bind_some, hb]

/-- The loop stores the bytes `t` over those that are there. -/
theorem catFrom_store {t p q old : Bytes} (hp : p.length = len1 + q.length)
    (hold : old.length = t.length) (z rest : Bytes) :
    catFrom len1 (q ++ (t ++ z)) t.length q.length (p ++ (old ++ rest)) =
      some (p ++ (t ++ rest)) := by
  induction t generalizing p q old with
  | nil =>
    rw [List.eq_nil_of_length_eq_zero hold]
    rfl
  | cons c t ih =>
    cases old with
    | nil => cases hold
    | cons d old =>
      have hget : (q ++ (c::t ++ z))[q.length]? = some c := by simp
      have hlen : old.length = t.length := Nat.succ.inj hold
      have hnext := ih (p := p ++ [c]) (q := q ++ [c]) (by simp; omega) hlen
      simp only [List.append_assoc, List.singleton_append, List.length_append,
        List.length_singleton] at hnext
      rw [List.length_cons, catFrom, hget, Option.bind_some, ← hp, List.cons_append,
        setByte_append, Option.bind_some]
      exact hnext

theorem catFrom_start {t z : Bytes} (ha : t.length ≤ a.length)
    (h : catFrom 0 (t ++ z) t.length 0 a = some b) : b.take t.length = t := by
  have hold : (a.take t.length).length = t.length := List.length_take_of_le ha
  have hstore : catFrom 0 ([] ++ (t ++ z)) t.length ([] : Bytes).length
      ([] ++ (a.take t.length ++ a.drop t.length)) = some ([] ++ (t ++ a.drop t.length)) :=
    catFrom_store rfl hold z _
  rw [List.take_append_drop] at hstore
  have hb : some b = some ([] ++ (t ++ a.drop t.length)) := h.symm.trans hstore
  rw [Option.some.inj hb]
  simp

end Loop

theorem text_of_take {a w : Bytes} (hw : 0 ∉ w) (h : a.take (w.length+1) = w ++ [0]) :
    text a = w := by
  rw [← List.take_append_drop (w.length+1) a, h, List.append_assoc, List.singleton_append,
    text_append_nul hw]

section Concat

variable {u v : Bytes} (hu : 0 ∉ u) (hv : 0 ∉ v) (tail r : Bytes)
include hu hv

theorem kstrcat_eq : kstrcat (u ++ 0::tail) (v ++ 0::r) =
    (catFrom (counted u) (v ++ 0::r) (counted v) 0 (u ++ 0::tail)).bind fun a =>
      setByte a (counted u + counted v) 0 := by
  rw [kstrcat, kstrlen_append_nul hu, kstrlen_append_nul hv, Option.bind_some, Option.bind_some]
  rfl

/-- It returns where the last store is inside the array. -/
theorem kstrcat_returns_iff : (∃ a, kstrcat (u ++ 0::tail) (v ++ 0::r) = some a) ↔
    counted u + counted v ≤ u.length + tail.length := by
  have hcount : counted v ≤ v.length+1 := by
    unfold counted
    split_ifs <;> omega
  have harr : (u ++ 0::tail).length = u.length + tail.length + 1 := by
    simp
    omega
  rw [kstrcat_eq hu hv]
  constructor
  · intro h
    obtain ⟨a, h⟩ := h
    obtain ⟨b, hb, h⟩ := Option.bind_eq_some_iff.mp h
    have hin := setByte_isSome_iff.mp ⟨a, h⟩
    rw [(catFrom_frame hb).1, harr] at hin
    exact Nat.le_of_lt_succ hin
  · intro h
    have hrun : ∃ b, catFrom (counted u) (v ++ 0::r) (counted v) 0 (u ++ 0::tail) = some b := by
      apply catFrom_returns
      · simp
        omega
      · omega
    obtain ⟨b, hb⟩ := hrun
    rw [hb, Option.bind_some, setByte_isSome_iff, (catFrom_frame hb).1, harr]
    exact Nat.lt_succ_of_le h

/-- The first of the two texts that is not empty: behind a text that is not empty the copy starts
past its terminator. -/
theorem kstrcat_text {a : Bytes} (h : kstrcat (u ++ 0::tail) (v ++ 0::r) = some a) :
    text a = if u = [] then v else u := by
  rw [kstrcat_eq hu hv] at h
  obtain ⟨b, hb, hset⟩ := Option.bind_eq_some_iff.mp h
  obtain ⟨hlen, htake⟩ := catFrom_frame hb
  have hin : counted u + counted v < b.length := setByte_isSome_iff.mp ⟨a, hset⟩
  by_cases hnil : u = []
  · subst hnil
    rw [if_pos rfl]
    by_cases hempty : v = []
    · subst hempty
      cases hb
      apply text_of_take List.not_mem_nil
      cases hset
      rfl
    · have hcount : counted v = (v ++ [0]).length := by
        rw [counted, if_neg hempty, List.length_append, List.length_singleton]
      have hsrc : v ++ 0::r = (v ++ [0]) ++ r := by simp
      have hzero : counted [] = 0 := rfl
      rw [hzero, Nat.zero_add, hcount] at hin hset
      rw [hzero, hcount, hsrc] at hb
      have hcopy := catFrom_start (by omega) hb
      apply text_of_take hv
      rw [List.length_append, List.length_singleton] at hset hcopy
      rw [setByte_take hset (le_refl _), hcopy]
  · rw [if_neg hnil]
    apply text_of_take hu
    have hstart : counted u = u.length+1 := if_neg hnil
    have hsplit : u ++ 0::tail = (u ++ [0]) ++ tail := by simp
    have hlast : (u ++ [0]).length = u.length+1 := by simp
    rw [setByte_take hset (by omega), htake _ (by omega), hsplit, ← hlast, List.take_left]

theorem concatenates_kstrcat_iff : Concatenates kstrcat u v tail r ↔
    (u = [] ∨ v = []) ∧ counted u + counted v ≤ u.length + tail.length := by
  have hword : (if u = [] then v else u) = u ++ v ↔ u = [] ∨ v = [] := by
    by_cases hnil : u = []
    · simp [hnil]
    · simp [hnil]
  rw [← kstrcat_returns_iff hu hv tail r, ← hword]
  constructor
  · intro h
    obtain ⟨a, ha, htext⟩ := h
    exact ⟨(kstrcat_text hu hv tail r ha).symm.trans htext, a, ha⟩
  · intro h
    obtain ⟨heq, a, ha⟩ := h
    exact ⟨a, ha, (kstrcat_text hu hv tail r ha).trans heq⟩

end Concat

/-- With an empty text on one side the last store is one byte behind the result. -/
theorem counted_add_le_iff {u v : Bytes} (h : u = [] ∨ v = []) (k : Nat) :
    counted u + counted v ≤ u.length + k ↔ u ++ v = [] ∨ v.length < k := by
  unfold counted
  rcases h with rfl | rfl
  · by_cases hv : v = []
    · simp [hv]
    · simp [hv]
  · by_cases hu : u = []
    · simp [hu]
    · simp [hu]
      omega

/-- strcat and kstrcat start behind the terminator of a text that is not empty, and end one byte
behind the one they copy. They are right exactly where one of the two texts is empty and, unless
both are, there is a byte to spare. -/
theorem strcat_concatenates_iff {u v : Bytes} (hu : 0 ∉ u) (hv : 0 ∉ v) (tail r : Bytes) :
    (Concatenates strcat u v tail r ↔
      (u = [] ∨ v = []) ∧ (u ++ v = [] ∨ v.length < tail.length)) ∧
    (Concatenates kstrcat u v tail r ↔
      (u = [] ∨ v = []) ∧ (u ++ v = [] ∨ v.length < tail.length)) := by
  have h : Concatenates kstrcat u v tail r ↔
      (u = [] ∨ v = []) ∧ (u ++ v = [] ∨ v.length < tail.length) := by
    rw [concatenates_kstrcat_iff hu hv]
    exact and_congr_right fun hor => counted_add_le_iff hor tail.length
  exact ⟨h, h⟩

/-- "cd" behind an empty text. -/
theorem strcat_concatenates_cd :
    Concatenates strcat [] [99, 100] [1, 1, 1] [] ∧ Concatenates kstrcat [] [99, 100] [1, 1, 1] [] := by
  obtain ⟨hs, hk⟩ := strcat_concatenates_iff (u := []) (v := [99, 100]) (by decide) (by decide)
    [1, 1, 1] []
  exact ⟨hs.mpr (by decide), hk.mpr (by decide)⟩

/-- "cd" behind "ab": the text is still "ab". -/
theorem strcat_loses_cd :
    strcat [97, 98, 0, 1, 1, 1, 1, 1] [99, 100, 0] = some [97, 98, 0, 99, 100, 0, 0, 1] ∧
      ¬Concatenates strcat [97, 98] [99, 100] [1, 1, 1, 1, 1] [] := by
  refine ⟨by decide, ?_⟩
  intro h
  have hone := ((concatenates_kstrcat_iff (by decide) (by decide) _ _).mp h).1
  simp at hone

end SBUnix
