import SBUnix.Framework.ByteMemory
import SBUnix.Framework.CString

namespace StringMemory

open ByteMemory CString

/-- These bytes stand in memory from `a` on. -/
def BytesAt (m : Mem) : Nat → Bytes → Prop
  | _, [] => True
  | a, c::w => m a = c ∧ BytesAt m (a+1) w

/-- The C string at `a`. -/
structure StringAt (m : Mem) (a : Nat) (w : Bytes) : Prop where
  nonzero : 0 ∉ w
  bytes : BytesAt m a (w ++ [0])

section Bytes

variable {m t : Mem} {a : Nat} {w : Bytes}

theorem BytesAt.congr (h : BytesAt m a w) (ht : ∀ x, a ≤ x → x < a + w.length → t x = m x) :
    BytesAt t a w := by
  induction w generalizing a with
  | nil => trivial
  | cons c w ih =>
    rw [List.length_cons] at ht
    refine ⟨(ht a (by omega) (by omega)).trans h.1, ih h.2 ?_⟩
    intro x hl hu
    exact ht x (by omega) (by omega)

theorem bytesAt_append (m : Mem) (a : Nat) (w v : Bytes) :
    BytesAt m a (w ++ v) ↔ BytesAt m a w ∧ BytesAt m (a + w.length) v := by
  induction w generalizing a with
  | nil => simp [BytesAt]
  | cons c w ih =>
    have hadd : a+1+w.length = a+(w.length+1) := by omega
    simp only [List.cons_append, BytesAt, ih, List.length_cons, hadd, and_assoc]

theorem StringAt.congr (h : StringAt m a w) (ht : ∀ x, a ≤ x → x ≤ a + w.length → t x = m x) :
    StringAt t a w := by
  refine ⟨h.nonzero, h.bytes.congr ?_⟩
  intro x hl hu
  rw [List.length_append, List.length_singleton] at hu
  exact ht x hl (by omega)

theorem BytesAt.get {i : Nat} (h : BytesAt m a w) (hi : i < w.length) : m (a+i) = w[i] := by
  induction w generalizing a i with
  | nil => simp at hi
  | cons c w ih =>
    cases i with
    | zero => exact h.1
    | succ i =>
      have hadd : a+(i+1) = a+1+i := by omega
      rw [hadd, ih h.2 (by simpa using hi), List.getElem_cons_succ]

theorem StringAt.byte_ne_zero {i : Nat} (h : StringAt m a w) (hi : i < w.length) :
    m (a+i) ≠ 0 := by
  have hb := ((bytesAt_append m a w [0]).mp h.bytes).1.get hi
  intro h0
  exact h.nonzero (h0 ▸ hb ▸ List.getElem_mem hi)

/-- The bytes of memory that a program looks at, as a list. -/
def bytesFrom (m : Mem) (a n : Nat) : Bytes := (List.range n).map fun j => m (a+j)

theorem bytesFrom_succ (m : Mem) (a n : Nat) :
    bytesFrom m a (n+1) = m a :: bytesFrom m (a+1) n := by
  rw [bytesFrom, List.range_succ_eq_map, List.map_cons, List.map_map, bytesFrom]
  congr 1
  apply List.map_congr_left
  intro j _
  exact congrArg m (by simp only [Nat.succ_eq_add_one]; omega)

theorem bytesFrom_congr {n : Nat} (h : ∀ x, a ≤ x → x < a+n → t x = m x) :
    bytesFrom t a n = bytesFrom m a n := by
  apply List.map_congr_left
  intro j hj
  have hlt := List.mem_range.mp hj
  exact h _ (by omega) (by omega)

theorem bytesAt_bytesFrom (m : Mem) (a n : Nat) : BytesAt m a (bytesFrom m a n) := by
  induction n generalizing a with
  | zero => trivial
  | succ n ih =>
    rw [bytesFrom_succ]
    exact ⟨rfl, ih _⟩

theorem bytesAt_replicate {n : Nat} {c : UInt8} (h : ∀ x, a ≤ x → x < a+n → m x = c) :
    BytesAt m a (List.replicate n c) := by
  induction n generalizing a with
  | zero => trivial
  | succ n ih =>
    refine ⟨h a le_rfl (by omega), ih ?_⟩
    intro x hl hu
    exact h x (by omega) (by omega)

theorem bytesFrom_of_bytesAt (h : BytesAt m a w) (k : Nat) :
    bytesFrom m a (w.length+k) = w ++ bytesFrom m (a+w.length) k := by
  induction w generalizing a with
  | nil => simp
  | cons c w ih =>
    have hadd : (c::w).length+k = w.length+k+1 := by simp only [List.length_cons]; omega
    have hnext : a+(w.length+1) = a+1+w.length := by omega
    rw [hadd, bytesFrom_succ, ih h.2, h.1, List.length_cons, hnext, List.cons_append]

/-- A part of bytes that stand in memory. -/
theorem bytesFrom_drop_take (h : BytesAt m a w) {i n : Nat} (hn : i+n ≤ w.length) :
    bytesFrom m (a+i) n = (w.drop i).take n := by
  obtain ⟨p, v, r, rfl, hp, hv⟩ : ∃ p v r, w = p ++ (v ++ r) ∧ p.length = i ∧ v.length = n := by
    refine ⟨w.take i, (w.drop i).take n, (w.drop i).drop n, by simp, ?_, ?_⟩
    · rw [List.length_take]
      omega
    · rw [List.length_take, List.length_drop]
      omega
  rw [bytesAt_append, bytesAt_append, hp] at h
  have hbytes := bytesFrom_of_bytesAt h.2.1 0
  rw [hv] at hbytes
  rw [List.drop_left' hp, List.take_left' hv]
  simpa [bytesFrom] using hbytes

/-- A string and some of what lies behind it. -/
theorem StringAt.bytesFrom (h : StringAt m a w) {n : Nat} (hn : w.length < n) :
    ∃ r, StringMemory.bytesFrom m a n = w ++ 0::r ∧ r.length = n - w.length - 1 := by
  obtain ⟨k, rfl⟩ : ∃ k, n = (w ++ [0]).length + k := ⟨n - (w.length+1), by simp; omega⟩
  refine ⟨StringMemory.bytesFrom m (a + (w ++ [0]).length) k, ?_, ?_⟩
  · rw [bytesFrom_of_bytesAt h.bytes, List.append_assoc]
    rfl
  · simp [StringMemory.bytesFrom]
    omega

end Bytes

/-- These bytes written from `a` on. -/
def storeBytes (m : Mem) : Nat → Bytes → Mem
  | _, [] => m
  | a, c::w => storeBytes (Function.update m a c) (a+1) w

theorem storeBytes_kept (m : Mem) (a : Nat) (w : Bytes) {x : Nat} (hx : x < a ∨ a + w.length ≤ x) :
    storeBytes m a w x = m x := by
  induction w generalizing m a with
  | nil => rfl
  | cons c w ih =>
    rw [List.length_cons] at hx
    rw [storeBytes, ih _ _ (by omega), Function.update_of_ne (by omega)]

theorem bytesAt_storeBytes (m : Mem) (a : Nat) (w : Bytes) : BytesAt (storeBytes m a w) a w := by
  induction w generalizing m a with
  | nil => trivial
  | cons c w ih =>
    refine ⟨?_, ih _ _⟩
    rw [storeBytes, storeBytes_kept _ _ _ (by omega), Function.update_self]

/-- `while (*src) *dst++ = *src++; *dst = '\0';` in at most so many rounds. -/
def strcpyLoop : Nat → Nat → Nat → Mem → Option Mem
  | 0, _, _, _ => none
  | n+1, dst, src, m =>
    if m src = 0 then some (Function.update m dst 0)
    else strcpyLoop n (dst+1) (src+1) (Function.update m dst (m src))

/-- A string copied to where it does not meet itself. -/
theorem strcpyLoop_apart {m : Mem} {dst src n : Nat} {w : Bytes} (h : StringAt m src w)
    (hn : w.length < n) (hd : dst + w.length < src ∨ src + w.length < dst) :
    ∃ t, strcpyLoop n dst src m = some t ∧ StringAt t dst w ∧
      ∀ x, x < dst ∨ dst + w.length < x → t x = m x := by
  induction w generalizing m dst src n with
  | nil =>
    obtain ⟨n, rfl⟩ : ∃ k, n = k+1 := ⟨n-1, by omega⟩
    refine ⟨Function.update m dst 0, ?_, ⟨by simp, Function.update_self _ _ _, trivial⟩, ?_⟩
    · rw [strcpyLoop, if_pos h.bytes.1]
    · intro x hx
      exact Function.update_of_ne (by simp at hx; omega) _ _
  | cons c w ih =>
    obtain ⟨n, rfl⟩ : ∃ k, n = k+1 := ⟨n-1, by omega⟩
    have hz := h.nonzero
    rw [List.mem_cons, not_or] at hz
    have hc : m src = c := h.bytes.1
    rw [List.length_cons] at hn hd
    have hrest : StringAt (Function.update m dst c) (src+1) w := by
      refine StringAt.congr ⟨hz.2, h.bytes.2⟩ ?_
      intro x hl hu
      exact Function.update_of_ne (by omega) _ _
    have hlen : w.length < n := by omega
    obtain ⟨t, ht, hs, hk⟩ := ih hrest hlen (by omega : dst+1+w.length < src+1 ∨
      src+1+w.length < dst+1)
    refine ⟨t, ?_, ⟨h.nonzero, ?_, hs.bytes⟩, ?_⟩
    · rw [strcpyLoop, hc, if_neg (Ne.symm hz.1), ht]
    · rw [hk dst (by omega), Function.update_self]
    · intro x hx
      rw [List.length_cons] at hx
      rw [hk x (by omega), Function.update_of_ne (by omega)]

/-- Without a terminator before the place it is copied to, the copy reads what it has written
and never ends. -/
theorem strcpyLoop_runs_on (n : Nat) {m : Mem} {dst src : Nat} (hlt : src < dst)
    (h : ∀ x, src ≤ x → x < dst → m x ≠ 0) : strcpyLoop n dst src m = none := by
  induction n generalizing m dst src with
  | zero => rfl
  | succ n ih =>
    have hsrc := h src le_rfl hlt
    rw [strcpyLoop, if_neg hsrc]
    apply ih (by omega)
    intro x hl hu
    by_cases hx : x = dst
    · rw [hx, Function.update_self]
      exact hsrc
    · rw [Function.update_of_ne hx]
      exact h x (by omega) (by omega)

/-- `for (i = 0; i < n; i++) { *dst++ = *src++; if (*src == '\0') break; } *dst = '\0';` -/
def strncpyLoop : Nat → Nat → Nat → Mem → Mem
  | 0, dst, _, m => Function.update m dst 0
  | n+1, dst, src, m =>
    let m := Function.update m dst (m src)
    if m (src+1) = 0 then Function.update m (dst+1) 0 else strncpyLoop n (dst+1) (src+1) m

section Strncpy

theorem strncpyLoop_kept (n dst src : Nat) (m : Mem) {x : Nat} (hx : x < dst ∨ dst + n < x) :
    strncpyLoop n dst src m x = m x := by
  induction n generalizing dst src m with
  | zero => exact Function.update_of_ne (by omega) _ _
  | succ n ih =>
    rw [strncpyLoop]
    split_ifs
    · rw [Function.update_of_ne (by omega), Function.update_of_ne (by omega)]
    · rw [ih _ _ _ (by omega), Function.update_of_ne (by omega)]

/-- Whatever stands at the source, the copy is the string in its first `n` bytes. -/
theorem strncpyLoop_text (n dst src : Nat) (m : Mem) (hd : src + n ≤ dst) :
    StringAt (strncpyLoop n dst src m) dst (text (bytesFrom m src n)) := by
  induction n generalizing dst src m with
  | zero => exact ⟨by simp [bytesFrom, text], Function.update_self _ _ _, trivial⟩
  | succ n ih =>
    rw [bytesFrom_succ, strncpyLoop]
    have hnext : bytesFrom (Function.update m dst (m src)) (src+1) n = bytesFrom m (src+1) n := by
      apply bytesFrom_congr
      intro x hl hu
      exact Function.update_of_ne (by omega) _ _
    by_cases hc : m src = 0
    · rw [hc, text_nul]
      refine ⟨by simp, ?_, trivial⟩
      split_ifs
      · rw [Function.update_of_ne (by omega), Function.update_self]
      · rw [strncpyLoop_kept _ _ _ _ (by omega), Function.update_self]
    · rw [text_cons hc]
      split_ifs with h0
      · -- the byte behind it ends the string, or the count does
        have hend : text (bytesFrom m (src+1) n) = [] := by
          cases n with
          | zero => rfl
          | succ n =>
            rw [Function.update_of_ne (by omega)] at h0
            rw [bytesFrom_succ, h0, text_nul]
        rw [hend]
        refine ⟨by simpa using Ne.symm hc, ?_, Function.update_self _ _ _, trivial⟩
        rw [Function.update_of_ne (by omega), Function.update_self]
      · have hs := ih (dst+1) (src+1) (Function.update m dst (m src)) (by omega)
        rw [hnext] at hs
        refine ⟨?_, ?_, hs.bytes⟩
        · rw [List.mem_cons, not_or]
          exact ⟨Ne.symm hc, hs.nonzero⟩
        · rw [strncpyLoop_kept _ _ _ _ (by omega), Function.update_self]

end Strncpy

end StringMemory
