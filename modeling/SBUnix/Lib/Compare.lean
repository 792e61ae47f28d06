import SBUnix.Lib.Strings

namespace SBUnix

open CString

/-- strcmp of the C library has the same body. -/
def strcmp (s t : Bytes) : Option Int := kstrcmp s t

/-- strncmp of the C library has the same body. -/
def strncmp (n : Nat) (s t : Bytes) : Option Int := kstrncmp n s t

/-- A byte string without a NUL: what a NUL-terminated array stands for. -/
abbrev Text := {t : Bytes // 0 ∉ t}

/-- kstrcmp and strcmp are one comparison of texts, whatever stands behind the terminators (and
also where nothing does): it is 0 on equal texts only, its sign is that of the lexicographic order
on unsigned bytes, and so it is antisymmetric and transitive. -/
theorem kstrcmp_lexicographic : ∃ cmp : Text → Text → Int,
    (∀ (a b : Text) (r r' : Bytes), kstrcmp (a.1 ++ 0::r) (b.1 ++ 0::r') = some (cmp a b) ∧
      strcmp (a.1 ++ 0::r) (b.1 ++ 0::r') = some (cmp a b)) ∧
    (∀ a b, cmp a b = 0 ↔ a = b) ∧
    (∀ a b, cmp a b < 0 ↔ a.1 < b.1) ∧
    (∀ a b, 0 < cmp a b ↔ b.1 < a.1) ∧
    (∀ a b, cmp b a = -cmp a b) ∧
    (∀ a b c, cmp a b < 0 → cmp b c < 0 → cmp a c < 0) := by
  have hneg (a b : Text) : compareText a.1 b.1 < 0 ↔ a.1 < b.1 := compareText_neg_iff b.2
  refine ⟨fun a b => compareText a.1 b.1, ?_, ?_, hneg, ?_, ?_, ?_⟩
  · intro a b r r'
    have h := kstrcmp_append_nul a.2 b.2 r r'
    exact ⟨h, h⟩
  · intro a b
    rw [compareText_eq_zero a.2 b.2, Subtype.ext_iff]
  · intro a b
    exact compareText_pos_iff a.2
  · intro a b
    exact compareText_swap a.1 b.1
  · intro a b c hab hbc
    rw [hneg] at hab hbc ⊢
    exact List.lt_trans hab hbc

/-- A difference among the first `n` characters decides the comparison. -/
theorem compareText_take {n : Nat} {u v : Bytes} (h : u.take n ≠ v.take n) :
    compareText u v = compareText (u.take n) (v.take n) := by
  induction n generalizing u v with
  | zero => simp at h
  | succ n ih =>
    cases u with
    | nil =>
      cases v with
      | nil => rfl
      | cons b v => rfl
    | cons a u =>
      cases v with
      | nil => rfl
      | cons b v =>
        by_cases hab : a = b
        · have hrest : u.take n ≠ v.take n := by simpa [hab] using h
          simp [compareText, hab, ih hrest]
        · simp [compareText, hab]

theorem eq_of_take_eq {n : Nat} {u v : Bytes} (h : u.take n = v.take n) (hu : u.length < n) :
    u = v := by
  have hlen := congrArg List.length h
  simp only [List.length_take] at hlen
  rwa [List.take_of_length_le hu.le, List.take_of_length_le (by omega)] at h

/-- What a comparison of at most `n` characters is to return for `a` and `b`: 0 where they agree
on the first `n` characters or up to a common terminator among them, else the sign of the
first difference there, and nothing behind those characters counts. -/
structure ComparesFirst (cmp : Nat → Bytes → Bytes → Option Int) (n : Nat) (a b : Bytes) :
    Prop where
  value : ∃ d, cmp n a b = some d ∧ (d = 0 ↔ (text a).take n = (text b).take n) ∧
    (d < 0 ↔ (text a).take n < (text b).take n)
  depends : ∀ a' b', 0 ∈ a' → 0 ∈ b' → (text a').take n = (text a).take n →
    (text b').take n = (text b).take n → cmp n a' b' = cmp n a b

/-- `a` and `b` differ, or both end, among their first `n` characters. -/
def DecidedWithin (n : Nat) (a b : Bytes) : Prop :=
  (text a).take n = (text b).take n → (text a).length < n

instance (n : Nat) (a b : Bytes) : Decidable (DecidedWithin n a b) :=
  inferInstanceAs (Decidable (_ → _))

/-- Where the first `n` characters decide, kstrncmp, which compares the whole strings, is right. -/
theorem kstrncmp_decided {n : Nat} {a b : Bytes} (ha : 0 ∈ a) (hb : 0 ∈ b)
    (h : DecidedWithin n a b) :
    kstrncmp n a b = some (compareText ((text a).take n) ((text b).take n)) := by
  have hn : 0 < n := by
    by_contra h0
    obtain rfl : n = 0 := by omega
    exact absurd (h (by simp)) (by simp)
  rw [kstrncmp_pos hn, kstrcmp_eq_compareText ha hb]
  by_cases heq : (text a).take n = (text b).take n
  · rw [eq_of_take_eq heq (h heq), compareText_self, compareText_self]
  · rw [compareText_take heq]

theorem DecidedWithin.comparesFirst {n : Nat} {a b : Bytes} (ha : 0 ∈ a) (hb : 0 ∈ b)
    (h : DecidedWithin n a b) : ComparesFirst kstrncmp n a b := by
  have hta := nul_not_mem_take (nul_not_mem_text a) n
  have htb := nul_not_mem_take (nul_not_mem_text b) n
  refine ⟨⟨_, kstrncmp_decided ha hb h, compareText_eq_zero hta htb, compareText_neg_iff htb⟩, ?_⟩
  intro a' b' ha' hb' hea heb
  have h' : DecidedWithin n a' b' := by
    intro heq
    have hlen := congrArg List.length hea
    have := h (hea.symm.trans (heq.trans heb))
    simp only [List.length_take] at hlen
    omega
  rw [kstrncmp_decided ha hb h, kstrncmp_decided ha' hb' h', hea, heb]

/-- Two strings that agree on `n` characters and differ behind them. -/
theorem kstrncmp_beyond {p : Bytes} (hp : 0 ∉ p) :
    kstrncmp p.length (p ++ [1, 0]) (p ++ [2, 0]) ≠ kstrncmp p.length (p ++ [0]) (p ++ [0]) := by
  cases p with
  | nil => decide
  | cons c p =>
    have hn : 0 < (c::p).length := Nat.succ_pos _
    have hs (d : UInt8) (hd : 0 ≠ d) : 0 ∉ (c::p) ++ [d] := by
      simpa [hd] using hp
    have h12 := kstrcmp_append_nul (hs 1 (by decide)) (hs 2 (by decide)) [] []
    have h00 := kstrcmp_append_nul hp hp [] []
    rw [List.append_assoc, List.append_assoc] at h12
    rw [kstrncmp_pos hn, kstrncmp_pos hn, h00, compareText_self]
    simp only [List.singleton_append] at h12
    rw [h12, ne_eq, Option.some_inj, compareText_eq_zero (hs 1 (by decide)) (hs 2 (by decide))]
    simp

/-- Where the strings agree on `n` characters, what follows them decides. -/
theorem ComparesFirst.decidedWithin {n : Nat} {a b : Bytes}
    (h : ComparesFirst kstrncmp n a b) : DecidedWithin n a b := by
  intro heq
  by_contra hlen
  have hp := nul_not_mem_take (nul_not_mem_text a) n
  have hplen : ((text a).take n).length = n := by
    rw [List.length_take]
    omega
  have htake (e : Bytes) : (text ((text a).take n ++ e)).take n = (text a).take n := by
    rw [text_append hp, List.take_left' hplen]
  have hany (e e' : Bytes) (he : 0 ∈ e) (he' : 0 ∈ e') :
      kstrncmp n ((text a).take n ++ e) ((text a).take n ++ e') = kstrncmp n a b := by
    apply h.depends
    · exact List.mem_append_right _ he
    · exact List.mem_append_right _ he'
    · exact htake e
    · exact (htake e').trans heq
  have hbeyond := kstrncmp_beyond hp
  rw [hplen] at hbeyond
  apply hbeyond
  rw [hany _ _ (by simp) (by simp), hany _ _ (by simp) (by simp)]

/-- kstrncmp and strncmp never advance the counter they compare with `n`. They are right exactly
where the strings differ, or both end, among their first `n` characters; so never for `n = 0`. -/
theorem kstrncmp_comparesFirst_iff {a b : Bytes} (ha : 0 ∈ a) (hb : 0 ∈ b) (n : Nat) :
    (ComparesFirst kstrncmp n a b ↔ DecidedWithin n a b) ∧
      (ComparesFirst strncmp n a b ↔ DecidedWithin n a b) := by
  have h : ComparesFirst kstrncmp n a b ↔ DecidedWithin n a b :=
    ⟨ComparesFirst.decidedWithin, DecidedWithin.comparesFirst ha hb⟩
  exact ⟨h, h⟩

/-- "ls" and "lx" on three characters. -/
theorem kstrncmp_comparesFirst_ls :
    ComparesFirst kstrncmp 3 [108, 115, 0] [108, 120, 0] ∧
      ComparesFirst strncmp 3 [108, 115, 0] [108, 120, 0] := by
  obtain ⟨hk, hs⟩ := kstrncmp_comparesFirst_iff (a := [108, 115, 0]) (b := [108, 120, 0])
    (by decide) (by decide) 3
  exact ⟨hk.mpr (by decide), hs.mpr (by decide)⟩

/-- "ls" and "lsx" agree on two characters, and the third is compared all the same. -/
theorem kstrncmp_reads_on : ¬ ComparesFirst kstrncmp 2 [108, 115, 0] [108, 115, 120, 0] := by
  intro h
  obtain ⟨d, hd, hzero, -⟩ := h.value
  have hval : kstrncmp 2 [108, 115, 0] [108, 115, 120, 0] = some (-120) := by decide
  have h0 : d = 0 := hzero.mpr (by decide)
  rw [hval, h0] at hd
  simp at hd

end SBUnix
