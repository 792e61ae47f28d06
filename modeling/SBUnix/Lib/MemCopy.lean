import SBUnix.Framework.ByteMemory
import SBUnix.Framework.Word

namespace SBUnix

open ByteMemory Word

/-- `for (int i = 0; i < n; i++)` for a `size_t n`, or `none` where the int overflows before it
comes to `n`. -/
def intLoop {σ : Type} (n : Nat) (body : Nat → σ → σ) (s : σ) : Option σ :=
  if n < 2^31 then some ((List.range n).foldl (fun s i => body i s) s) else none

def kmemcpy (dest src n : Nat) (m : Mem) : Option Mem :=
  intLoop n (fun i m => Function.update m (add64 dest i) (m (add64 src i))) m

/-- `temp` is what the local array holds before it is filled. -/
def kmemmove (temp : Nat → UInt8) (dest src n : Nat) (m : Mem) : Option Mem :=
  (intLoop n (fun i temp => Function.update temp i (m (add64 src i))) temp).bind fun temp =>
    intLoop n (fun i m => Function.update m (add64 dest i) (temp i)) m

/-- memcpy and memmove of the C library have the same bodies. -/
def memcpy (dest src n : Nat) (m : Mem) : Option Mem := kmemcpy dest src n m

def memmove (temp : Nat → UInt8) (dest src n : Nat) (m : Mem) : Option Mem :=
  kmemmove temp dest src n m

/-- The `n` bytes from `dest` on are those of `f`, and no other byte has changed. -/
structure Overwritten (dest n : Nat) (f : Nat → UInt8) (m t : Mem) : Prop where
  bytes : ∀ i < n, t (dest+i) = f i
  kept : ∀ x, x < dest ∨ dest+n ≤ x → t x = m x

/-- The bytes at `dest` are those that were at `src`. -/
def Moves (copy : Nat → Nat → Nat → Mem → Option Mem) (dest src n : Nat) (m : Mem) : Prop :=
  ∃ t, copy dest src n m = some t ∧ Overwritten dest n (fun i => m (src+i)) m t

/-- The rule for a loop: what each round carries on holds at its end. -/
theorem intLoop_run {σ : Type} {n : Nat} {body : Nat → σ → σ} {s : σ} (P : Nat → σ → Prop)
    (hn : n < 2^31) (hstart : P 0 s) (hround : ∀ i < n, ∀ t, P i t → P (i+1) (body i t)) :
    ∃ t, intLoop n body s = some t ∧ P n t := by
  have hrun (k : Nat) (hk : k ≤ n) : P k ((List.range k).foldl (fun s i => body i s) s) := by
    induction k with
    | zero => exact hstart
    | succ k ih =>
      rw [List.range_succ, List.foldl_append]
      exact hround k hk _ (ih (Nat.le_of_succ_le hk))
  exact ⟨_, if_pos hn, hrun n (le_refl n)⟩

section Copy

variable {dest src n : Nat} {m : Mem}

theorem Overwritten.store {f : Nat → UInt8} {k : Nat} {t : Mem} (h : Overwritten dest k f m t) :
    Overwritten dest (k+1) f m (Function.update t (dest+k) (f k)) where
  bytes i hi := by
    by_cases hik : i = k
    · rw [hik, Function.update_self]
    · rw [Function.update_of_ne (by omega)]
      exact h.bytes i (by omega)
  kept x hx := by
    rw [Function.update_of_ne (by omega)]
    exact h.kept x (by omega)

/-- Rounds that store the bytes of `f` one after the other, each computed from the memory it
finds. -/
theorem storeLoop_overwrites (r : Nat → Mem → UInt8) (f : Nat → UInt8) (hn : n < 2^31)
    (hdest : dest+n ≤ 2^64) (hr : ∀ i < n, ∀ t, Overwritten dest i f m t → r i t = f i) :
    ∃ t, intLoop n (fun i t => Function.update t (add64 dest i) (r i t)) m = some t ∧
      Overwritten dest n f m t := by
  apply intLoop_run (fun k t => Overwritten dest k f m t) hn
  · exact ⟨fun i hi => absurd hi (Nat.not_lt_zero i), fun _ _ => rfl⟩
  · intro i hi t h
    have hadd : add64 dest i = dest+i := add64_of_lt dest i (by omega)
    rw [hr i hi t h, hadd]
    exact h.store

/-- Going up is right as long as no byte is written before it is read. -/
theorem kmemcpy_overwrites (hn : n < 2^31) (hdest : dest+n ≤ 2^64) (hsrc : src+n ≤ 2^64)
    (hout : ¬(src < dest ∧ dest < src+n)) : Moves kmemcpy dest src n m := by
  apply storeLoop_overwrites (fun i t => t (add64 src i)) (fun i => m (src+i)) hn hdest
  intro i hi t h
  have hadd : add64 src i = src+i := add64_of_lt src i (by omega)
  rw [hadd]
  exact h.kept (src+i) (by omega)

/-- The array has all bytes of the source before the first is stored. -/
theorem kmemmove_overwrites (temp : Nat → UInt8) (hn : n < 2^31) (hdest : dest+n ≤ 2^64)
    (hsrc : src+n ≤ 2^64) : Moves (kmemmove temp) dest src n m := by
  have htemp : ∃ copy, intLoop n (fun i temp => Function.update temp i (m (add64 src i))) temp =
      some copy ∧ ∀ i < n, copy i = m (src+i) := by
    apply intLoop_run (fun k (temp : Nat → UInt8) => ∀ i < k, temp i = m (src+i)) hn
    · exact fun i hi => absurd hi (Nat.not_lt_zero i)
    · intro k hk temp h i hi
      have hadd : add64 src k = src+k := add64_of_lt src k (by omega)
      by_cases hik : i = k
      · rw [hik, Function.update_self, hadd]
      · rw [Function.update_of_ne hik]
        exact h i (by omega)
  obtain ⟨copy, hcopy, hbytes⟩ := htemp
  obtain ⟨t, ht, hover⟩ := storeLoop_overwrites (fun i _ => copy i) (fun i => m (src+i)) hn hdest
    fun i hi _ _ => hbytes i hi
  refine ⟨t, ?_, hover⟩
  rw [kmemmove, hcopy, Option.bind_some]
  exact ht

end Copy

/-- kmemmove copies between any two ranges, kmemcpy as long as `dest` is not inside the source;
so do memmove and memcpy. -/
theorem kmemmove_moves (m : Mem) (temp : Nat → UInt8) (dest src n : Nat) (hn : n < 2^31)
    (hdest : dest+n ≤ 2^64) (hsrc : src+n ≤ 2^64) :
    (Moves (kmemmove temp) dest src n m ∧ Moves (memmove temp) dest src n m) ∧
      (¬(src < dest ∧ dest < src+n) → Moves kmemcpy dest src n m ∧ Moves memcpy dest src n m) := by
  have hmove : Moves (kmemmove temp) dest src n m := kmemmove_overwrites temp hn hdest hsrc
  refine ⟨⟨hmove, hmove⟩, ?_⟩
  intro hout
  have hcopy : Moves kmemcpy dest src n m := kmemcpy_overwrites hn hdest hsrc hout
  exact ⟨hcopy, hcopy⟩

/-- Three bytes, one address up and one address down. -/
theorem kmemmove_moves_up_and_down :
    Moves (kmemmove fun _ => 0) 101 100 3 UInt8.ofNat ∧ Moves kmemcpy 99 100 3 UInt8.ofNat :=
  ⟨(kmemmove_moves UInt8.ofNat (fun _ => 0) 101 100 3 (by norm_num) (by norm_num)
      (by norm_num)).1.1,
    ((kmemmove_moves UInt8.ofNat (fun _ => 0) 99 100 3 (by norm_num) (by norm_num)
      (by norm_num)).2 (by norm_num)).1⟩

end SBUnix
