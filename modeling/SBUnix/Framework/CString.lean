import Mathlib.Tactic
import Mathlib.Data.List.TakeWhile

namespace CString

/-- What a `char *` gives access to: the bytes from where it points to the end of its
object. -/
abbrev Bytes := List UInt8

/-- The string a pointer stands for: the bytes before the first NUL. -/
def text (s : Bytes) : Bytes := s.takeWhile (· ≠ 0)

@[simp] theorem text_nul (s : Bytes) : text (0::s) = [] := rfl

theorem text_cons {c : UInt8} (h : c ≠ 0) (s : Bytes) : text (c::s) = c :: text s :=
  List.takeWhile_cons_of_pos (by simpa using h)

theorem nul_not_mem_text (s : Bytes) : 0 ∉ text s := by
  intro h
  have := List.mem_takeWhile_imp h
  simp at this

theorem text_append {p : Bytes} (hp : 0 ∉ p) (e : Bytes) : text (p ++ e) = p ++ text e := by
  induction p with
  | nil => rfl
  | cons c p ih =>
    rw [List.mem_cons, not_or] at hp
    rw [List.cons_append, text_cons (Ne.symm hp.1), ih hp.2, List.cons_append]

theorem text_append_nul {t : Bytes} (h : 0 ∉ t) (r : Bytes) : text (t ++ 0::r) = t := by
  rw [text_append h, text_nul, List.append_nil]

/-- A pointer with a terminator somewhere ahead of it, split at the first. -/
theorem exists_text {s : Bytes} (h : 0 ∈ s) : ∃ r, s = text s ++ 0::r := by
  induction s with
  | nil => simp at h
  | cons c s ih =>
    by_cases hc : c = 0
    · exact ⟨s, by rw [hc]; rfl⟩
    · obtain ⟨r, hr⟩ := ih ((List.mem_cons.mp h).resolve_left (Ne.symm hc))
      refine ⟨r, ?_⟩
      rw [text_cons hc, List.cons_append, ← hr]

theorem text_of_not_mem {t : Bytes} (h : 0 ∉ t) : text t = t := by
  apply List.takeWhile_eq_self_iff.mpr
  intro c hc
  have : c ≠ 0 := fun h0 => h (h0 ▸ hc)
  simpa using this

theorem nul_not_mem_take {t : Bytes} (h : 0 ∉ t) (n : Nat) : 0 ∉ t.take n :=
  fun h0 => h (List.mem_of_mem_take h0)

/-- `a[i] = c`, or `none` past the end of the object. -/
def setByte (a : Bytes) (i : Nat) (c : UInt8) : Option Bytes :=
  if i < a.length then some (a.set i c) else none

theorem setByte_append (p : Bytes) (d c : UInt8) (r : Bytes) :
    setByte (p ++ d::r) p.length c = some (p ++ c::r) := by
  rw [setByte, if_pos (by simp), List.set_append_right _ _ (le_refl _), Nat.sub_self,
    List.set_cons_zero]

theorem setByte_isSome_iff {a : Bytes} {i : Nat} {c : UInt8} :
    (∃ b, setByte a i c = some b) ↔ i < a.length := by
  rw [setByte]
  split_ifs with h
  · simp [h]
  · simp [h]

theorem setByte_length {a b : Bytes} {i : Nat} {c : UInt8} (h : setByte a i c = some b) :
    b.length = a.length := by
  rw [setByte] at h
  split_ifs at h
  rw [← Option.some.inj h, List.length_set]

/-- Bytes in front of the store stay. -/
theorem setByte_take {a b : Bytes} {i : Nat} {c : UInt8} (h : setByte a i c = some b) {k : Nat}
    (hk : k ≤ i) : b.take k = a.take k := by
  rw [setByte] at h
  split_ifs at h
  rw [← Option.some.inj h, List.take_set_of_le hk]

end CString
