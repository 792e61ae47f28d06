import SBUnix.Lib.Strings

namespace SBUnix

open CString

/-- The array at `dst` once the bytes `w` have been stored from its start, or `none` if they run
past its end. -/
def storedAt (dst w : Bytes) : Option Bytes :=
  if w.length ≤ dst.length then some (w ++ dst.drop w.length) else none

/-- What a bounded copy is to do with the text `u`: wherever it is stored, with whatever behind
its terminator, and in every array with room for it, the copy leaves the first `n` characters and
a NUL and keeps the rest of the array. -/
def CopiesFirst (copy : Nat → Bytes → Option Bytes) (n : Nat) (u : Bytes) : Prop :=
  ∀ r dst, min n u.length < dst.length →
    (copy n (u ++ 0::r)).bind (storedAt dst) =
      some (u.take n ++ 0::dst.drop (min n u.length + 1))

theorem strncpy_text {u : Bytes} (hu : 0 ∉ u) {n : Nat} (h : n = 0 ∨ u ≠ []) (r : Bytes) :
    strncpy n (u ++ 0::r) = some (u.take n ++ [0]) := by
  rcases Nat.lt_or_ge u.length n with hn | hn
  · have hne : u ≠ [] := h.resolve_left (by omega)
    rw [List.take_of_length_le hn.le, strncpy_append_nul hu hne hn.le]
  · obtain ⟨c, s, hs⟩ : ∃ c s, u.drop n ++ 0::r = c::s := by
      apply List.exists_cons_of_ne_nil
      simp
    have hsplit : u ++ 0::r = u.take n ++ c::s := by
      rw [← hs, ← List.append_assoc, List.take_append_drop]
    have hlen : (u.take n).length = n := List.length_take_of_le hn
    have htake := strncpy_take (nul_not_mem_take hu n) c s
    rwa [hlen, ← hsplit] at htake

theorem storedAt_take (dst u : Bytes) {n : Nat} (h : min n u.length < dst.length) :
    storedAt dst (u.take n ++ [0]) = some (u.take n ++ 0::dst.drop (min n u.length + 1)) := by
  have hlen : (u.take n ++ [0]).length = min n u.length + 1 := by simp
  rw [storedAt, hlen, if_pos (Nat.succ_le_of_lt h), List.append_assoc, List.singleton_append]

/-- strncpy and kstrncpy look for the terminator behind the byte they have just copied. They are
right exactly where they copy nothing or the string has a first character. -/
theorem strncpy_copiesFirst_iff {u : Bytes} (hu : 0 ∉ u) (n : Nat) :
    (CopiesFirst strncpy n u ↔ n = 0 ∨ u ≠ []) ∧
      (CopiesFirst kstrncpy n u ↔ n = 0 ∨ u ≠ []) := by
  have h : CopiesFirst strncpy n u ↔ n = 0 ∨ u ≠ [] := by
    constructor
    · intro hcopy
      by_contra hcon
      obtain ⟨hn, rfl⟩ : n ≠ 0 ∧ u = [] := by simpa using hcon
      obtain ⟨m, rfl⟩ := Nat.exists_eq_succ_of_ne_zero hn
      -- the terminator is the last byte of its object
      have hend := hcopy [] [0] (by simp)
      simp [strncpy] at hend
    · intro hcond r dst hroom
      rw [strncpy_text hu hcond, Option.bind_some, storedAt_take dst u hroom]
  exact ⟨h, h⟩

/-- "ab" into an array of four bytes, cut at one character. -/
theorem strncpy_copiesFirst_ab :
    (strncpy 1 [97, 98, 0]).bind (storedAt [1, 2, 3, 4]) = some [97, 0, 3, 4] ∧
      (kstrncpy 1 [97, 98, 0]).bind (storedAt [1, 2, 3, 4]) = some [97, 0, 3, 4] := by
  obtain ⟨hs, hk⟩ := strncpy_copiesFirst_iff (u := [97, 98]) (by decide) 1
  exact ⟨hs.mpr (by decide) [] [1, 2, 3, 4] (by decide),
    hk.mpr (by decide) [] [1, 2, 3, 4] (by decide)⟩

/-- An empty string with "A" stored behind it: two more bytes of the array change. -/
theorem strncpy_empty_reads_on :
    (strncpy 5 [0, 65, 0]).bind (storedAt [1, 2, 3, 4]) = some [0, 65, 0, 4] ∧
      ¬ CopiesFirst strncpy 5 [] := by
  have hrun : (strncpy 5 [0, 65, 0]).bind (storedAt [1, 2, 3, 4]) = some [0, 65, 0, 4] := by
    decide
  refine ⟨hrun, ?_⟩
  intro h
  have hright := h [65, 0] [1, 2, 3, 4] (by decide)
  simp [strncpy, storedAt] at hright

end SBUnix
