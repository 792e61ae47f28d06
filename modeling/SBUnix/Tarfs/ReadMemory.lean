import SBUnix.Framework.ByteMemory
import SBUnix.Tarfs.ReadFile

namespace SBUnix

open ByteMemory CString Word

/-- `while (size-- > 0) tmp[i++] = *file_start_addr++;` with `n` bytes left. -/
def copyOut (dst src : Nat) : Nat → Nat → Mem → Mem
  | 0, _, m => m
  | n+1, i, m => copyOut dst src n (i+1) (Function.update m (add64 dst i) (m (add64 src i)))

def bytesAt (m : Mem) (a n : Nat) : Bytes := (List.range n).map fun k => m (add64 a k)

/-- readfile on the kernel's memory, with the archive in it; `gets` is the call for a NULL
`file_addr`. stoi looks at the 12 bytes of the size field and one more. -/
def readfileAt (gets : Nat → Mem → Int × Mem) (fileAddr : Option File) (size : Int) (buf : Nat)
    (m : Mem) : Option (Int × Mem) :=
  if size < 0 then some (0, m)
  else match fileAddr with
    | none => some (gets buf m)
    | some f =>
      (stoi (bytesAt m (add64 f.address 124) 13)).map fun oct =>
        let size := if oct2dec oct < size.toNat then int32 (oct2dec oct) else size
        let m := copyOut buf (add64 f.address 512) size.toNat 0 m
        (size, Function.update m (add64 buf size.toNat) 0)

/-- The archive is where the linker put it. -/
def Archive.InMemory (a : Archive) (m : Mem) : Prop :=
  ∀ k b, a.bytes[k]? = some b → m (a.start+k) = b

/-- What a read of `s` bytes to `buf` should do. -/
structure ReadRight (content : Bytes) (s buf : Nat) (m : Mem) (r : Int × Mem) : Prop where
  count : r.1 = (min s content.length : Nat)
  bytes : ∀ k b, k < s → content[k]? = some b → r.2 (buf+k) = b
  frame : ∀ x, x < buf ∨ buf+s ≤ x → r.2 x = m x

/-- The copy loop on two ranges that lie apart, by induction on what is left. -/
theorem copyOut_apply (dst src : Nat) {n i : Nat} {m : Mem} (hdst : dst+i+n ≤ 2^64)
    (hsrc : src+i+n ≤ 2^64) (hapart : dst+i+n ≤ src+i ∨ src+i+n ≤ dst+i) (x : Nat) :
    copyOut dst src n i m x =
      if dst+i ≤ x ∧ x < dst+i+n then m (src + (x-dst)) else m x := by
  induction n generalizing i m with
  | zero =>
    rw [if_neg (by omega)]
    rfl
  | succ n ih =>
    rw [copyOut, ih (by omega) (by omega) (by omega), add64_of_lt dst i (by omega),
      add64_of_lt src i (by omega)]
    by_cases hx : x = dst+i
    · rw [if_neg (by omega), if_pos (by omega), hx, Function.update_self, Nat.add_sub_cancel_left]
    · rw [Function.update_of_ne hx]
      by_cases hin : dst+(i+1) ≤ x ∧ x < dst+(i+1)+n
      · rw [if_pos hin, if_pos (by omega), Function.update_of_ne (by omega)]
      · rw [if_neg hin, if_neg (by omega)]

section Entry

variable {a : Archive} {mem : Mem} {i : Nat} {m : Member}

/-- An entry's bytes, and those after it, as they are in memory. -/
theorem Archive.InMemory.entry (h : a.InMemory mem) (hm : a.members[i]? = some m) :
    ∃ r, (∀ k b, (m.bytes ++ r)[k]? = some b → mem (a.address i + k) = b) ∧
      a.address i + (m.bytes ++ r).length ≤ 2^64 ∧ 512 ≤ r.length := by
  obtain ⟨r, hdrop, hrest, hlen⟩ := a.bytes_at_offset hm
  refine ⟨r, ?_, ?_, hrest⟩
  · intro k b hb
    rw [← hdrop, List.getElem?_drop] at hb
    rw [Archive.address, Nat.add_assoc]
    exact h _ b hb
  · have hend := a.end_le
    rw [← a.bytes_length] at hend
    rw [Archive.address, List.length_append]
    omega

theorem bytesAt_eq {l : Bytes} {addr k n : Nat}
    (h : ∀ j b, l[j]? = some b → mem (addr+j) = b) (hlt : addr + l.length ≤ 2^64)
    (hn : k+n ≤ l.length) : bytesAt mem (add64 addr k) n = (l.drop k).take n := by
  apply List.ext_getElem?
  intro j
  rw [bytesAt, List.getElem?_map, List.getElem?_take, List.getElem?_drop]
  by_cases hj : j < n
  · have hb : l[k+j]? = some (l[k+j]) := List.getElem?_eq_getElem (by omega)
    rw [List.getElem?_range hj, if_pos hj, hb, Option.map_some, add64_of_lt addr k (by omega),
      add64_of_lt _ _ (by omega), Nat.add_assoc, h _ _ hb]
  · rw [if_neg hj, List.getElem?_eq_none (by rw [List.length_range]; omega)]
    rfl

theorem stoi_size_take (m : Member) (r : Bytes) :
    ∃ oct, stoi (((m.bytes ++ r).drop 124).take 13) = some oct ∧
      oct2dec oct = m.data.length := by
  obtain ⟨s, hs⟩ := m.bytes_size r
  have hlt : m.data.length < 8^11 := lt_trans m.data_length (by norm_num)
  have htake : ((m.bytes ++ r).drop 124).take 13 = octal 11 m.data.length ++ 0::s.take 1 := by
    rw [hs, List.take_append, octal_length, List.take_of_length_le (by rw [octal_length]; omega)]
    rfl
  rw [htake]
  exact Option.map_eq_some_iff.mp (oct2dec_stoi_octal m.data.length hlt rfl _)

/-- The whole call on an entry: a copy of as much as there is, and one byte after it. -/
theorem readfileAt_member (h : a.InMemory mem) (hm : a.members[i]? = some m)
    (gets : Nat → Mem → Int × Mem) {f : File} (haddr : f.address = a.address i) (s buf : Nat) :
    readfileAt gets (some f) s buf mem = some (((min s m.data.length : Nat) : Int),
      Function.update (copyOut buf (a.address i + 512) (min s m.data.length) 0 mem)
        (add64 buf (min s m.data.length)) 0) := by
  obtain ⟨r, hr, htop, hzero⟩ := h.entry hm
  obtain ⟨oct, hoct, hsize⟩ := stoi_size_take m r
  have hlen : 512 + 512 ≤ (m.bytes ++ r).length := by
    rw [List.length_append, m.bytes_length]
    omega
  have hclamp : (if m.data.length < (s : Int).toNat then int32 m.data.length else (s : Int)) =
      (min s m.data.length : Nat) := by
    rw [int32_of_lt m.data_length]
    split_ifs <;> omega
  rw [readfileAt, if_neg (by omega)]
  dsimp only
  rw [haddr, bytesAt_eq hr htop (by omega), hoct, Option.map_some, hsize, hclamp,
    add64_of_lt (a.address i) 512 (by omega), Int.toNat_natCast]

theorem Archive.InMemory.data (h : a.InMemory mem) (hm : a.members[i]? = some m) (k : Nat)
    (b : UInt8) (hb : m.data[k]? = some b) : mem (a.address i + 512 + k) = b := by
  obtain ⟨r, hr, -, -⟩ := h.entry hm
  obtain ⟨s, hs⟩ := m.bytes_data r
  rw [Nat.add_assoc]
  apply hr
  rw [← List.getElem?_drop, hs, List.getElem?_append_left (List.getElem?_eq_some_iff.mp hb).1, hb]

theorem Archive.data_within (hm : a.members[i]? = some m) :
    a.start ≤ a.address i ∧
      a.address i + 512 + m.data.length ≤ a.start + a.bytes.length := by
  obtain ⟨r, -, -, hlen⟩ := a.bytes_at_offset hm
  rw [m.bytes_length] at hlen
  rw [Archive.address]
  omega

/-- The copy loop's part of a read, for a buffer that shares no byte with the archive. -/
theorem copyOut_member (h : a.InMemory mem) (hm : a.members[i]? = some m) {s buf : Nat}
    (hbuf : buf+s ≤ 2^64)
    (hapart : ∀ x, buf ≤ x → x < buf+s → x < a.start ∨ a.start + a.bytes.length ≤ x) :
    (∀ k b, k < s → m.data[k]? = some b →
      copyOut buf (a.address i + 512) (min s m.data.length) 0 mem (buf+k) = b) ∧
    ∀ x, x < buf ∨ buf+s ≤ x →
      copyOut buf (a.address i + 512) (min s m.data.length) 0 mem x = mem x := by
  obtain ⟨hlow, hhigh⟩ := a.data_within hm
  have hend := a.end_le
  rw [← a.bytes_length] at hend
  have hsides : s = 0 ∨ buf+s ≤ a.start ∨ a.start + a.bytes.length ≤ buf := by
    by_contra hn
    have hmeet := hapart (max buf a.start) (by omega) (by omega)
    omega
  have hcopy := copyOut_apply buf (a.address i + 512) (n := min s m.data.length) (i := 0)
    (m := mem) (by omega) (by omega) (by omega)
  constructor
  · intro k b hk hb
    have hlt := (List.getElem?_eq_some_iff.mp hb).1
    rw [hcopy, if_pos (by omega), Nat.add_sub_cancel_left]
    exact h.data hm k b hb
  · intro x hx
    rw [hcopy, if_neg (by omega)]

theorem add64_end {s buf : Nat} (hs : s < 2^31) (hbuf : buf+s ≤ 2^64) :
    add64 buf s < buf ∨ add64 buf s = buf+s := by
  rcases Nat.lt_or_eq_of_le hbuf with hlt | heq
  · exact Or.inr (add64_of_lt buf s hlt)
  · left
    rw [add64, heq]
    omega

/-- The store after the loop, over any copy that is right so far. -/
theorem readRight_update_iff {content : Bytes} {s buf : Nat} {copy : Mem} (hs : s < 2^31)
    (hbuf : buf+s ≤ 2^64) (hbytes : ∀ k b, k < s → content[k]? = some b → copy (buf+k) = b)
    (hframe : ∀ x, x < buf ∨ buf+s ≤ x → copy x = mem x) :
    ReadRight content s buf mem (((min s content.length : Nat) : Int),
      Function.update copy (add64 buf (min s content.length)) 0) ↔
        content.length < s ∨ mem (add64 buf s) = 0 := by
  by_cases hshort : content.length < s
  · -- it goes to the first byte of the buffer that the file leaves
    rw [Nat.min_eq_right hshort.le, add64_of_lt buf content.length (by omega)]
    refine iff_of_true ⟨by rw [Nat.min_eq_right hshort.le], ?_, ?_⟩ (Or.inl hshort)
    · intro k b hk hb
      have hlt := (List.getElem?_eq_some_iff.mp hb).1
      exact (Function.update_of_ne (by omega) ..).trans (hbytes k b hk hb)
    · intro x hx
      exact (Function.update_of_ne (by omega) ..).trans (hframe x hx)
  · have hmin : min s content.length = s := Nat.min_eq_left (not_lt.mp hshort)
    have hlast := add64_end hs hbuf
    rw [hmin, or_iff_right hshort]
    constructor
    · intro hr
      have hx := hr.frame (add64 buf s) (by omega)
      exact hx.symm.trans (Function.update_self ..)
    · intro hzero
      refine ⟨by rw [hmin], ?_, ?_⟩
      · intro k b hk hb
        exact (Function.update_of_ne (by omega) ..).trans (hbytes k b hk hb)
      · intro x hx
        by_cases hxs : x = add64 buf s
        · rw [hxs, hzero]
          exact Function.update_self ..
        · exact (Function.update_of_ne hxs ..).trans (hframe x hx)

/-- A read is right exactly when the file is shorter than the request or the byte behind the
buffer is 0 already. -/
theorem readfileAt_right_iff (h : a.InMemory mem) (hm : a.members[i]? = some m)
    (gets : Nat → Mem → Int × Mem) (f : File) (haddr : f.address = a.address i) (s buf : Nat)
    (hs : s < 2^31) (hbuf : buf+s ≤ 2^64)
    (hapart : ∀ x, buf ≤ x → x < buf+s → x < a.start ∨ a.start + a.bytes.length ≤ x) :
    ∃ r, readfileAt gets (some f) s buf mem = some r ∧
      (ReadRight m.data s buf mem r ↔ m.data.length < s ∨ mem (add64 buf s) = 0) := by
  obtain ⟨hbytes, hframe⟩ := copyOut_member h hm hbuf hapart
  exact ⟨_, readfileAt_member h hm gets haddr s buf, readRight_update_iff hs hbuf hbytes hframe⟩

end Entry

/-- The archive in a memory that is `fill` everywhere else. -/
def Archive.memory (a : Archive) (fill : UInt8) : Mem := fun x =>
  if a.start ≤ x then a.bytes.getD (x - a.start) fill else fill

theorem Archive.memory_inMemory (a : Archive) (fill : UInt8) : a.InMemory (a.memory fill) := by
  intro k b hb
  rw [Archive.memory, if_pos (by omega), Nat.add_sub_cancel_left, List.getD_eq_getElem?_getD, hb]
  rfl

/-- The FILE that openfile makes for `bin/cat`. -/
def catFile : File := ⟨0, [], 0, ramdisk.address 1⟩

/-- One byte of `bin/cat`, which has two, to a buffer of one byte: the byte behind it is
overwritten. -/
theorem readfileAt_overruns :
    ∃ r, readfileAt (fun _ m => (0, m)) (some catFile) 1 0x1000 (ramdisk.memory 7) = some r ∧
      ramdisk.memory 7 0x1001 = 7 ∧ r.2 0x1001 = 0 ∧
      ¬ReadRight binCat.data 1 0x1000 (ramdisk.memory 7) r := by
  have hold : ramdisk.memory 7 0x1001 = 7 := if_neg (by decide)
  obtain ⟨r, hr, hlast⟩ : ∃ r, readfileAt (fun _ m => (0, m)) (some catFile) 1 0x1000
      (ramdisk.memory 7) = some r ∧ r.2 0x1001 = 0 := by
    refine ⟨_, readfileAt_member (ramdisk.memory_inMemory 7) (m := binCat) rfl _ rfl 1 0x1000, ?_⟩
    have hone : min 1 binCat.data.length = 1 := by decide
    rw [hone, add64_of_lt _ _ (by norm_num)]
    simp
  refine ⟨r, hr, hold, hlast, ?_⟩
  intro hright
  have hx := hright.frame 0x1001 (by omega)
  rw [hold, hlast] at hx
  exact absurd hx (by decide)

theorem readfileAt_right_cat :
    ∃ r, readfileAt (fun _ m => (0, m)) (some catFile) 3 0x1000 (ramdisk.memory 7) = some r ∧
      ReadRight binCat.data 3 0x1000 (ramdisk.memory 7) r := by
  obtain ⟨r, hr, hiff⟩ := readfileAt_right_iff (ramdisk.memory_inMemory 7) (m := binCat) rfl
    (fun _ m => (0, m)) catFile rfl 3 0x1000 (by norm_num) (by norm_num) (by
      intro x _ hx
      have hstart : ramdisk.start = 0x200000 := rfl
      omega)
  exact ⟨r, hr, hiff.mpr (Or.inl (by decide))⟩

end SBUnix
