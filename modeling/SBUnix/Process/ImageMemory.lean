import SBUnix.Paging.PageRange
import SBUnix.Process.ForkEffect
import SBUnix.Process.Regions

namespace SBUnix

open ByteMemory CString Word

/-- What byte `j` of a segment has to be: the file's, and zero behind its end. -/
def segmentByte (start : Nat) (img : Bytes) (elf : Nat) (ph : ProgramHeader) (j : Nat) :
    Option UInt8 :=
  if j < ph.pFilesz then (archiveAt start img (add64 elf ph.pOffset)).bind (·[j]?) else some 0

/-- The pages an area occupies. -/
def Segment.OnPage (seg : Segment) (p : Nat) : Prop :=
  seg.vmStart/4096 ≤ p ∧ p < (seg.vmStart + seg.vmMmsz + 4095)/4096

instance (seg : Segment) (p : Nat) : Decidable (seg.OnPage p) :=
  inferInstanceAs (Decidable (_ ∧ _))

def Segment.pages (seg : Segment) : Nat :=
  (seg.vmStart + seg.vmMmsz + 4095)/4096 - seg.vmStart/4096

theorem onPage_segment (ph : ProgramHeader) (elf p : Nat) : (ph.segment elf).OnPage p ↔
    ph.pVaddr/4096 ≤ p ∧ p < (ph.pVaddr + ph.pMemsz + 4095)/4096 := Iff.rfl

theorem pages_segment (ph : ProgramHeader) (elf : Nat) : (ph.segment elf).pages =
    (ph.pVaddr + ph.pMemsz + 4095)/4096 - ph.pVaddr/4096 := rfl

/-- The file has the bytes of the segment, and they are not more than its size. -/
structure Sized (start : Nat) (img : Bytes) (elf : Nat) (ph : ProgramHeader) : Prop where
  le : ph.pFilesz ≤ ph.pMemsz
  file : ∃ src, archiveAt start img (add64 elf ph.pOffset) = some src ∧ ph.pFilesz ≤ src.length

/-- `n` frames are free, one after the other, and there are pages for the tables they may take and
`p` more. -/
structure Supply (k : Kernel) (F : Nat → Option Nat) (n p : Nat) : Prop where
  space : Space k F
  few : n ≤ 4096
  frames : ∀ i < n, FreeFrame F (nextFrame^[i] k.usrPhysAddr)
  budget : Budget k (3*n + p)

section Supply

variable {k t : Kernel} {F : Nat → Option Nat} {n p : Nat}

theorem Supply.cursor_le (h : Supply k F n p) : k.cursor ≤ startPaddrForUsrs := by
  have := h.budget.top
  omega

theorem Supply.mono (h : Supply k F n p) {m q : Nat} (hm : m ≤ n) (hq : q ≤ p) :
    Supply k F m q where
  space := h.space
  few := hm.trans h.few
  frames i hi := h.frames i (by omega)
  budget := h.budget.mono (by omega)

theorem Supply.grown (h : Supply k F (n+1) p) {virt : Nat} (hg : Grown k t F virt) :
    Supply t (place F virt k.usrPhysAddr) n p := by
  have hfew := h.few
  refine ⟨hg.space, by omega, ?_, ?_⟩
  · intro i hi
    rw [hg.usrPhysAddr, ← Function.iterate_succ_apply]
    apply (h.frames (i+1) (by omega)).place
    exact nextFrame_iterate_ne (j := 0) h.space.wf.frame.1 (by omega) (by omega) (by omega)
  · apply Budget.grown _ hg
    have hsum : 3 + (3*n+p) = 3*(n+1)+p := by omega
    rw [hsum]
    exact h.budget

theorem Supply.quiet (h : Supply k F n (q+p)) (hs : Space t F) (hq : Quiet k t q) :
    Supply t F n p := by
  refine ⟨hs, h.few, ?_, ?_⟩
  · rw [hq.usrPhysAddr]
    exact h.frames
  · apply Budget.after _ hq
    have hsum : q + (3*n+p) = 3*n + (q+p) := by omega
    rw [hsum]
    exact h.budget

/-- One page through ACCESSED_NOT_PRESENT. -/
theorem Supply.page (h : Supply k F (n+1) p) {addr : Nat} (ha : addr < 2^47) :
    Grown k (memmap addr pageSize usrPermBits .accessedNotPresent k).2 F
      (roundDown addr pageSize) := by
  have hround : roundDown addr pageSize < 2^47 := by
    rw [roundDown_page_eq]
    omega
  have hfree := h.frames 0 (by omega)
  have hg := h.space.grown (h.budget.mono (by omega)) hfree (accessed_eq addr usrPermBits k) ha
    (by rw [pathOf_roundDown]) hround
  exact hg

/-- What mapping the pages from `first` to `last` has done: they have frames, and no byte of
another page has changed. -/
structure Spread (k t : Kernel) (G : Nat → Option Nat) (first last : Nat) : Prop where
  mapped : ∀ x < 2^47, first ≤ x/4096 → x/4096 < last → G x ≠ none
  kept : ∀ x < 2^47, x/4096 < first ∨ last ≤ x/4096 → peek t x = peek k x
  vaCursor : t.vaCursor = k.vaCursor

theorem Supply.range {num : Nat} (h : Supply k F (num+n) p) {va : Nat}
    (hva : va/4096 + num ≤ 2^35) {i : Nat} (hi : i ≤ num) :
    ∃ G, Supply ((List.range i).foldl (fun k i =>
        (memmap (add64 va (i*pageSize)) pageSize usrPermBits .accessedNotPresent k).2) k) G
        (num-i+n) p ∧
      Spread k ((List.range i).foldl (fun k i =>
        (memmap (add64 va (i*pageSize)) pageSize usrPermBits .accessedNotPresent k).2) k) G
        (va/4096) (va/4096 + i) := by
  induction i with
  | zero => exact ⟨F, h, ⟨fun x _ h1 h2 => by omega, fun _ _ _ => rfl, rfl⟩⟩
  | succ i ih =>
    obtain ⟨G, hs, hspread⟩ := ih (by omega)
    have hadd : add64 va (i*pageSize) = va + i*4096 := by
      apply add64_of_lt
      unfold pageSize
      omega
    have hcount : num-i+n = (num-(i+1)+n)+1 := by omega
    rw [List.range_succ, List.foldl_append, List.foldl_cons, List.foldl_nil, hadd]
    rw [hcount] at hs
    generalize (List.range i).foldl (fun k i =>
      (memmap (add64 va (i*pageSize)) pageSize usrPermBits .accessedNotPresent k).2) k = u at hs hspread ⊢
    have haddr : va + i*4096 < 2^47 := by omega
    have hg := hs.page haddr
    have hvirt : roundDown (va + i*4096) pageSize / 4096 = va/4096 + i := by
      rw [roundDown_page_eq]
      omega
    refine ⟨_, hs.grown hg, ?_, ?_, ?_⟩
    · intro x hx h1 h2
      unfold place
      rw [hvirt]
      split_ifs with he
      · exact Option.some_ne_none _
      · exact hspread.mapped x hx h1 (by omega)
    · intro x hx hout
      rw [hg.kept x hx (by omega), hspread.kept x hx (by omega)]
    · rw [memmap_vaCursor, ← hspread.vaCursor]
      rfl

/-- allocate_regions for a segment. -/
theorem Supply.allocateRegions {va len : Nat} (hend : va+len ≤ 2^47)
    (h : Supply k F ((va+len+4095)/4096 - va/4096 + n) p) :
    ∃ G, Supply (allocateRegions va len k) G n p ∧
      Spread k (allocateRegions va len k) G (va/4096) ((va+len+4095)/4096) := by
  have hfew := h.few
  have hsz : roundUp (va+len) pageSize - roundDown va pageSize < 2^31 := by
    rw [roundUp_page_eq, roundDown_page_eq]
    omega
  have hva : va/4096 + ((va+len+4095)/4096 - va/4096) ≤ 2^35 := by omega
  obtain ⟨G, hs, hspread⟩ := h.range hva (le_refl _)
  have hlast : va/4096 + ((va+len+4095)/4096 - va/4096) = (va+len+4095)/4096 := by omega
  rw [hlast] at hspread
  rw [Nat.sub_self, Nat.zero_add] at hs
  rw [allocateRegions_eq hend hsz]
  exact ⟨G, hs, hspread⟩

/-- Stores to mapped bytes. -/
theorem Supply.userStores (h : Supply k F n p) {bs : Bytes} {va : Nat}
    (hva : va + bs.length ≤ 2^47) (hmap : ∀ x, va ≤ x → x < va + bs.length → F x ≠ none) :
    ∃ t, userStores bs va k = some t ∧ Supply t F n p ∧ t.vaCursor = k.vaCursor ∧
    ∀ x < 2^47, peek t x = if va ≤ x ∧ x < va + bs.length then bs[x-va]? else peek k x := by
  obtain ⟨t, ht⟩ := h.space.userStores_returns h.cursor_le hva hmap
  obtain ⟨hs, ⟨m, hm⟩, hpeek⟩ := h.space.userStores h.cursor_le hva ht
  have hq : Quiet k t 0 := by
    rw [hm]
    exact Quiet.setMem k m
  refine ⟨t, ht, Supply.quiet (q := 0) ?_ hs hq, hq.vaCursor, hpeek⟩
  rwa [Nat.zero_add]

theorem segmentByte_file {start elf j : Nat} {img src : Bytes} {ph : ProgramHeader}
    (hsrc : archiveAt start img (add64 elf ph.pOffset) = some src) (hj : j < ph.pFilesz) :
    segmentByte start img elf ph j = (src.take ph.pFilesz)[j]? := by
  rw [segmentByte, if_pos hj, hsrc, Option.bind_some, List.getElem?_take, if_pos hj]

theorem segmentByte_zero {start elf j : Nat} {img : Bytes} {ph : ProgramHeader}
    (hj : ph.pFilesz ≤ j) : segmentByte start img elf ph j = some 0 := by
  rw [segmentByte, if_neg (by omega)]

/-- kmemcpy and memset for a segment whose bytes are mapped. -/
theorem Supply.fillSegment (h : Supply k F n p) {start elf : Nat} {img : Bytes}
    {ph : ProgramHeader} (hsz : Sized start img elf ph) (hend : ph.pVaddr + ph.pMemsz ≤ 2^47)
    (hint : ph.pMemsz < 2^31)
    (hmap : ∀ x, ph.pVaddr ≤ x → x < ph.pVaddr + ph.pMemsz → F x ≠ none) :
    ∃ t, fillSegment start img elf ph k = some t ∧ Supply t F n p ∧ t.vaCursor = k.vaCursor ∧
    ∀ x < 2^47, peek t x =
      if ph.pVaddr ≤ x ∧ x < ph.pVaddr + ph.pMemsz then
        segmentByte start img elf ph (x - ph.pVaddr)
      else peek k x := by
  obtain ⟨src, hsrc, hlen⟩ := hsz.file
  have hle := hsz.le
  have htake : (src.take ph.pFilesz).length = ph.pFilesz := by
    rw [List.length_take]
    omega
  have hfill : ph.pVaddr + (src.take ph.pFilesz).length ≤ 2^47 := by omega
  obtain ⟨u, hu, hsu, hvu, hpu⟩ := h.userStores hfill fun x hx hx' => hmap x hx (by omega)
  rw [htake] at hpu
  rw [SBUnix.fillSegment, hsrc, Option.bind_some, if_neg (by omega), hu, Option.bind_some]
  by_cases hbss : ph.pFilesz < ph.pMemsz
  · have hadd : add64 ph.pVaddr ph.pFilesz = ph.pVaddr + ph.pFilesz := add64_of_lt _ _ (by omega)
    have hcount : (int32 ((ph.pMemsz : Int) - ph.pFilesz)).toNat = ph.pMemsz - ph.pFilesz := by
      rw [← Nat.cast_sub hle, int32_of_lt (by omega), Int.toNat_natCast]
    have hzero : (List.replicate (ph.pMemsz - ph.pFilesz) (0 : UInt8)).length =
        ph.pMemsz - ph.pFilesz := List.length_replicate
    have hrest : ph.pVaddr + ph.pFilesz +
        (List.replicate (ph.pMemsz - ph.pFilesz) (0 : UInt8)).length ≤ 2^47 := by omega
    obtain ⟨t, ht, hst, hvt, hpt⟩ := hsu.userStores hrest fun x hx hx' => hmap x (by omega) (by omega)
    rw [hzero] at hpt
    rw [if_pos hbss, hcount, hadd]
    refine ⟨t, ht, hst, hvt.trans hvu, ?_⟩
    intro x hx
    rw [hpt x hx, hpu x hx]
    -- the zeros, the bytes of the file, and everything else
    by_cases hz : ph.pVaddr + ph.pFilesz ≤ x ∧ x < ph.pVaddr + ph.pMemsz
    · rw [if_pos (by omega), if_pos (by omega), segmentByte_zero (by omega),
        List.getElem?_replicate, if_pos (by omega)]
    · rw [if_neg (by omega)]
      by_cases hin : ph.pVaddr ≤ x ∧ x < ph.pVaddr + ph.pFilesz
      · rw [if_pos hin, if_pos (by omega), segmentByte_file hsrc (by omega)]
      · rw [if_neg hin, if_neg (by omega)]
  · have heq : ph.pFilesz = ph.pMemsz := by omega
    rw [if_neg hbss]
    refine ⟨u, rfl, hsu, hvu, ?_⟩
    intro x hx
    rw [hpu x hx, ← heq]
    split_ifs with hin
    · rw [segmentByte_file hsrc (by omega)]
    · rfl

/-- What loading a segment has done: its bytes are in place, and those of other pages are as they
were. -/
structure SegmentLoaded (start : Nat) (img : Bytes) (elf : Nat) (ph : ProgramHeader)
    (k t : Kernel) : Prop where
  bytes : ∀ j < ph.pMemsz, peek t (ph.pVaddr + j) = segmentByte start img elf ph j
  kept : ∀ x < 2^47, ¬(ph.segment elf).OnPage (x/4096) → peek t x = peek k x
  vaCursor : t.vaCursor = k.vaCursor

theorem Supply.segment {start elf : Nat} {img : Bytes} {ph : ProgramHeader}
    (h : Supply k F ((ph.segment elf).pages + n) p) (hsz : Sized start img elf ph)
    (hend : ph.pVaddr + ph.pMemsz ≤ 2^47) :
    ∃ t G, SBUnix.fillSegment start img elf ph (SBUnix.allocateRegions ph.pVaddr ph.pMemsz k) =
        some t ∧ Supply t G n p ∧ SegmentLoaded start img elf ph k t := by
  rw [pages_segment] at h
  have hfew := h.few
  have hint : ph.pMemsz < 2^31 := by omega
  obtain ⟨G, hs, hspread⟩ := Supply.allocateRegions hend h
  have hmap (x : Nat) (hx : ph.pVaddr ≤ x) (hx' : x < ph.pVaddr + ph.pMemsz) : G x ≠ none :=
    hspread.mapped x (by omega) (by omega) (by omega)
  obtain ⟨t, ht, hst, hvt, hpt⟩ := hs.fillSegment hsz hend hint hmap
  refine ⟨t, G, ht, hst, ?_, ?_, hvt.trans hspread.vaCursor⟩
  · intro j hj
    rw [hpt _ (by omega), if_pos (by omega), Nat.add_sub_cancel_left]
  · intro x hx hoff
    rw [onPage_segment] at hoff
    rw [hpt x hx, if_neg (by omega), hspread.kept x hx (by omega)]

end Supply

end SBUnix
