import SBUnix.Tarfs.OpenFile

namespace SBUnix

open CString Word

/-- readfile: the value returned and the bytes stored from `buf` on. `stdin` is what gets does
for a NULL `file_addr`. The FILE is only read, and of it only the address. -/
def readfile (start : Nat) (img : Bytes) (stdin : Int × Bytes) (fileAddr : Option File)
    (size : Int) : Option (Int × Bytes) :=
  if size < 0 then some (0, [])
  else match fileAddr with
    | none => some stdin
    | some f =>
      (headerAt img ((f.address : Int) - start)).bind fun hdr =>
        (stoi (hdr.drop 124)).bind fun oct =>
          let size := if oct2dec oct < size.toNat then int32 (oct2dec oct) else size
          let content := hdr.drop 512
          if size.toNat ≤ content.length then some (size, content.take size.toNat ++ [0])
          else none

/-- One call after the other on the same FILE. -/
def reads (start : Nat) (img : Bytes) (stdin : Int × Bytes) (f : File) :
    List Nat → Option (List (Int × Bytes))
  | [] => some []
  | s::ss =>
    (readfile start img stdin (some f) s).bind fun r =>
      (reads start img stdin f ss).map (r :: ·)

/-- The bytes a call returned: as many as it says. -/
def delivered (r : Int × Bytes) : Bytes := r.2.take r.1.toNat

/-- The pieces make up the content as far as was asked for, and calls behind its end return
0. -/
def Consecutive (content : Bytes) (ss : List Nat) (rs : List (Int × Bytes)) : Prop :=
  (rs.map delivered).flatten = content.take ss.sum ∧
    ∀ i r, rs[i]? = some r → content.length ≤ (ss.take i).sum → r.1 = 0

section Pieces

variable {c : Bytes}

/-- A call always delivers the start of the content. -/
def piece (c : Bytes) (s : Nat) : Int × Bytes := (min s c.length, c.take s ++ [0])

theorem delivered_piece (c : Bytes) (s : Nat) : delivered (piece c s) = c.take s := by
  have hlen : ((min (s : Int) c.length).toNat) = (c.take s).length := by
    rw [List.length_take]
    omega
  rw [delivered, piece, hlen, List.take_left]

theorem min_sum_le (c : Bytes) (ss : List Nat) :
    min ss.sum c.length ≤ ((ss.map fun s => c.take s).flatten).length := by
  induction ss with
  | nil => exact Nat.min_le_left _ _
  | cons s ss ih =>
    rw [List.map_cons, List.flatten_cons, List.length_append, List.length_take, List.sum_cons]
    omega

/-- The pieces against a rest `d` of the content, by induction on the sizes: no piece is
shorter than the part of `d` it stands for, so all have to be equally long. -/
theorem flatten_take_iff {d : Bytes} (hd : d.length ≤ c.length) (ss : List Nat) :
    (ss.map fun s => c.take s).flatten = d.take ss.sum ↔
      ∀ i s, ss[i]? = some s → c.take s = (d.drop (ss.take i).sum).take s := by
  induction ss generalizing d with
  | nil => simp
  | cons s ss ih =>
    have hrest : (d.drop s).length ≤ c.length := by
      rw [List.length_drop]
      omega
    have hsplit : d.take (s::ss).sum = d.take s ++ (d.drop s).take ss.sum := by
      rw [List.sum_cons, List.take_add]
    rw [List.map_cons, List.flatten_cons, hsplit]
    constructor
    · intro heq
      have hlen := congrArg List.length heq
      have hmin := min_sum_le c ss
      rw [List.length_append, List.length_append, List.length_take, List.length_take,
        List.length_take, List.length_drop] at hlen
      obtain ⟨hfirst, htail⟩ := List.append_inj heq (by
        rw [List.length_take, List.length_take]
        omega)
      intro i
      cases i with
      | zero =>
        intro r hr
        rw [← Option.some_inj.mp hr]
        exact hfirst
      | succ i =>
        intro r hr
        rw [List.take_succ_cons, List.sum_cons, ← List.drop_drop]
        exact (ih hrest).mp htail i r hr
    · intro hall
      have hfirst := hall 0 s rfl
      have htail := (ih hrest).mpr (fun i r hr => by
        have := hall (i+1) r hr
        rwa [List.take_succ_cons, List.sum_cons, ← List.drop_drop] at this)
      rw [htail]
      exact congrArg (· ++ _) hfirst

theorem consecutive_pieces_iff (c : Bytes) (ss : List Nat) :
    Consecutive c ss (ss.map (piece c)) ↔
      ∀ i s, ss[i]? = some s → c.take s = (c.drop (ss.take i).sum).take s := by
  have hflat : ((ss.map (piece c)).map delivered).flatten =
      (ss.map fun s => c.take s).flatten := by
    rw [List.map_map]
    congr 1
    apply List.map_congr_left
    intro s _
    exact delivered_piece c s
  rw [Consecutive, hflat, flatten_take_iff (le_refl _)]
  constructor
  · exact And.left
  · intro hall
    refine ⟨hall, fun i r hr hend => ?_⟩
    rw [List.getElem?_map] at hr
    obtain ⟨s, hs, rfl⟩ := Option.map_eq_some_iff.mp hr
    have hnil := hall i s hs
    rw [List.drop_eq_nil_of_le hend, List.take_nil] at hnil
    have hlen := congrArg List.length hnil
    rw [List.length_take, List.length_nil] at hlen
    rw [piece]
    omega

end Pieces

section Reads

variable {a : Archive} {i : Nat} {m : Member}

theorem readfile_member (hm : a.members[i]? = some m) (stdin : Int × Bytes) {f : File}
    (haddr : f.address = a.address i) (s : Nat) :
    readfile a.start a.bytes stdin (some f) s = some (piece m.data s) := by
  obtain ⟨rest, hdrop, -, -⟩ := a.bytes_at_offset hm
  obtain ⟨oct, hoct, hsize⟩ := stoi_size m rest
  obtain ⟨r, hr⟩ := m.bytes_data rest
  have hhdr : (f.address : Int) - a.start = offset a.members i := by
    rw [haddr, Archive.address]
    omega
  have hclamp : (if m.data.length < (s : Int).toNat then int32 m.data.length else (s : Int)) =
      min (s : Int) m.data.length := by
    rw [int32_of_lt m.data_length]
    split_ifs <;> omega
  have htake : ((m.data ++ r).take (min (s : Int) m.data.length).toNat) = m.data.take s := by
    rw [show (min (s : Int) m.data.length).toNat = min s m.data.length by omega,
      List.take_append_of_le_length (Nat.min_le_right _ _), ← List.take_take, List.take_length]
  rw [readfile, if_neg (by omega)]
  dsimp only
  rw [hhdr, headerAt_nat, Option.bind_some, hdrop, hoct, Option.bind_some, hr, hsize, hclamp,
    htake, if_pos (by rw [List.length_append]; omega), piece]

theorem reads_member (hm : a.members[i]? = some m) (stdin : Int × Bytes) {f : File}
    (haddr : f.address = a.address i) (ss : List Nat) :
    reads a.start a.bytes stdin f ss = some (ss.map (piece m.data)) := by
  induction ss with
  | nil => rfl
  | cons s ss ih =>
    rw [reads, readfile_member hm stdin haddr, Option.bind_some, ih]
    rfl

end Reads

/-- Any sequence of reads of a FILE that openfile has returned for an entry: all calls succeed,
and they deliver consecutive pieces exactly when each piece of the content equals the start of
the content. -/
theorem reads_consecutive_iff (a : Archive) (t : Tarfs) (file : Bytes) (f : File) (i : Nat)
    (m : Member) (stdin : Int × Bytes) (ss : List Nat) (hk : a.members.length ≤ 16)
    (ht : initTarfs a.start a.bytes = some t) (hf : 0 ∈ file)
    (hopen : openfile t file = some (some f)) (hi : a.chosen file = some i)
    (hm : a.members[i]? = some m) :
    ∃ rs, reads a.start a.bytes stdin f ss = some rs ∧
      (Consecutive m.data ss rs ↔
        ∀ j s, ss[j]? = some s → m.data.take s = (m.data.drop (ss.take j).sum).take s) := by
  have h := Loaded.of_initTarfs hk ht
  obtain ⟨-, j, hj, haddr⟩ := h.chosen_of_openfile hk hf hopen
  rw [hi, Option.some_inj] at hj
  rw [← hj, (h.stored i m hm).addr] at haddr
  exact ⟨_, reads_member hm stdin haddr.symm ss, consecutive_pieces_iff m.data ss⟩

/-- Two reads of one byte each, of a content whose bytes are equal. -/
theorem reads_consecutive_twice :
    ∃ t f rs, initTarfs doubleRamdisk.start doubleRamdisk.bytes = some t ∧
      openfile t [98, 105, 110, 47, 99, 97, 116, 0] = some (some f) ∧
      reads doubleRamdisk.start doubleRamdisk.bytes (0, []) f [1, 1] = some rs ∧
      Consecutive [104, 104] [1, 1] rs := by
  obtain ⟨t, ht, hl⟩ := initTarfs_loaded doubleRamdisk (by decide)
  have hfile : (0 : UInt8) ∈ [98, 105, 110, 47, 99, 97, 116, 0] := by decide
  obtain ⟨f, hf, -⟩ := hl.openfile_of_chosen (by decide) hfile (by decide) (j := 1) (by decide)
  obtain ⟨rs, hrs, hiff⟩ := reads_consecutive_iff doubleRamdisk t _ f 1 doubleCat (0, []) [1, 1]
    (by decide) ht (by decide) hf (by decide) rfl
  refine ⟨t, f, rs, ht, hf, hrs, hiff.mpr ?_⟩
  intro j s hs
  rcases j with _ | _ | j
  · rfl
  · cases hs
    rfl
  · simp at hs

/-- Two reads of one byte each both return the first byte of `bin/cat`. -/
theorem reads_repeat_start :
    ∃ t f, initTarfs ramdisk.start ramdisk.bytes = some t ∧
      openfile t [98, 105, 110, 47, 99, 97, 116, 0] = some (some f) ∧
      reads ramdisk.start ramdisk.bytes (0, []) f [1, 1] = some [(1, [104, 0]), (1, [104, 0])] ∧
      ¬Consecutive [104, 105] [1, 1] [(1, [104, 0]), (1, [104, 0])] := by
  obtain ⟨t, ht, hl⟩ := initTarfs_loaded ramdisk (by decide)
  have hfile : (0 : UInt8) ∈ [98, 105, 110, 47, 99, 97, 116, 0] := by decide
  obtain ⟨f, hf, haddr⟩ := hl.openfile_of_chosen (by decide) hfile (by decide) (j := 1) (by decide)
  refine ⟨t, f, ht, hf, ?_, fun hc => absurd hc.1 (by decide)⟩
  exact reads_member (i := 1) (m := binCat) rfl (0, [])
    (haddr.trans (hl.stored 1 binCat rfl).addr) [1, 1]

end SBUnix
