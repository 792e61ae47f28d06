import SBUnix.Process.ImageMemory
import SBUnix.Process.VmAreas

namespace SBUnix

open ByteMemory CString Word

/-- sizeof(Elf64_Phdr) -/
def phdrSize : Nat := 56

/-- The program headers of a file from the `i`-th on, as the format has them. -/
def fileHeaders (start : Nat) (img : Bytes) (elf phoff : Nat) :
    Nat → Nat → Option (List ProgramHeader)
  | 0, _ => some []
  | n+1, i =>
    ((archiveAt start img (add64 (add64 elf phoff) (phdrSize*i))).bind programHeader).bind fun ph =>
      (fileHeaders start img elf phoff n (i+1)).map (ph :: ·)

/-- Those of type PT_LOAD. -/
def segmentHeaders (phs : List ProgramHeader) : List ProgramHeader :=
  phs.filter fun ph => ph.pType = elfProgLoad

/-- A file of the archive, with the three fields of its header that load_segment reads. -/
structure ElfFile (start : Nat) (img : Bytes) (n : Nat) (file : Bytes)
    (elf entry phoff phnum : Nat) : Prop where
  found : ∃ offset, fileExists img file n = some offset ∧ ¬(offset = 0 ∨ offset = 999) ∧
    add64 start offset.toNat = elf
  header : ∃ ehdr, archiveAt start img elf = some ehdr ∧ readLe 8 (ehdr.drop 24) = some entry ∧
    readLe 8 (ehdr.drop 32) = some phoff ∧ readLe 2 (ehdr.drop 56) = some phnum

/-- Areas in the user half of which no two meet in a page. -/
structure UserAreas (segs : List Segment) : Prop where
  user : ∀ seg ∈ segs, seg.vmStart + seg.vmMmsz ≤ 2^47
  apart : segs.Pairwise fun a b => ∀ p, a.OnPage p → ¬b.OnPage p

def pageTotal (segs : List Segment) : Nat := (segs.map Segment.pages).sum

/-- The loop over the headers that are acted on. -/
def loadPrograms (start : Nat) (img : Bytes) (elf a : Nat) :
    List ProgramHeader → Loader → Option Loader
  | [], s => some s
  | ph::l, s => (loadProgram start img elf a ph s).bind (loadPrograms start img elf a l)

section Headers

variable {start : Nat} {img : Bytes}

theorem loadHeaders_eq {elf phoff a n i : Nat} {l : List ProgramHeader}
    (h : loadedHeaders start img elf phoff n i = some l) (s : Loader) :
    loadHeaders start img elf phoff a n i s = loadPrograms start img elf a l s := by
  induction n generalizing i l s with
  | zero =>
    cases h
    rfl
  | succ n ih =>
    obtain ⟨ph, hph, h⟩ := Option.bind_eq_some_iff.mp h
    obtain ⟨rest, hrest, rfl⟩ := Option.map_eq_some_iff.mp h
    rw [loadHeaders, hph, Option.bind_some]
    split_ifs with hty
    · rw [loadPrograms]
      congr 1
      funext t
      exact ih hrest t
    · exact ih hrest s

theorem ElfFile.loadSegment_eq {n : Nat} {file : Bytes} {elf entry phoff phnum : Nat}
    (h : ElfFile start img n file elf entry phoff phnum) (task : TaskImage) (s : Loader) :
    loadSegment start img n task file s =
      (loadHeaders start img elf phoff task.mm phnum 0 s).bind (setHeap task entry) := by
  obtain ⟨offset, hfound, hne, helf⟩ := h.found
  obtain ⟨ehdr, hehdr, hentry, hphoff, hphnum⟩ := h.header
  rw [loadSegment, hfound, Option.bind_some, if_neg hne]
  dsimp only
  rw [helf, hehdr, Option.bind_some, hentry, Option.bind_some, hphoff, Option.bind_some, hphnum,
    Option.bind_some]

/-- With one header at most there is no stride. -/
theorem loadedHeaders_eq_of_le {elf phoff phnum : Nat} {phs : List ProgramHeader}
    (h : fileHeaders start img elf phoff phnum 0 = some phs) (hle : phnum ≤ 1) :
    loadedHeaders start img elf phoff phnum 0 = some (segmentHeaders phs) := by
  obtain rfl | rfl : phnum = 0 ∨ phnum = 1 := by omega
  · cases h
    rfl
  · obtain ⟨ph, hph, h⟩ := Option.bind_eq_some_iff.mp h
    obtain ⟨rest, hrest, rfl⟩ := Option.map_eq_some_iff.mp h
    cases hrest
    rw [Nat.mul_zero] at hph
    rw [loadedHeaders, hph, Option.bind_some, loadedHeaders, Option.map_some, segmentHeaders,
      List.filter_cons, List.filter_nil]
    simp only [decide_eq_true_eq]

end Headers

section Within

variable {s t : Loader} {start : Nat} {img : Bytes} {elf a : Nat}

theorem addArea_within {seg : Segment} (h : addArea a seg s = some t) :
    s.kern.pools.Within 1 t.kern.pools := by
  rcases addArea_kern h with ⟨-, hk⟩ | ⟨-, hk⟩
  · refine ⟨1, le_refl 1, 0, ?_⟩
    rw [hk, kmalloc_pools_exact s.kern vmaSize (by decide) (by decide)]
    rfl
  · exact ⟨0, Nat.zero_le 1, 0, by rw [hk]; rfl⟩

theorem loadProgram_within {ph : ProgramHeader}
    (h : loadProgram start img elf a ph s = some t) : s.kern.pools.Within (2^25) t.kern.pools := by
  obtain ⟨k, hk, h⟩ := Option.bind_eq_some_iff.mp h
  have hfill : s.kern.pools.Within (2^24) k.pools := by
    rw [fillSegment_pools hk]
    exact allocateRegions_within _ _ _
  exact (hfill.trans (addArea_within h)).mono (by norm_num)

theorem loadPrograms_within {l : List ProgramHeader}
    (h : loadPrograms start img elf a l s = some t) :
    s.kern.pools.Within (2^25*l.length) t.kern.pools := by
  induction l generalizing s with
  | nil =>
    cases h
    exact ⟨0, Nat.zero_le _, 0, rfl⟩
  | cons ph l ih =>
    obtain ⟨u, hu, h⟩ := Option.bind_eq_some_iff.mp h
    apply ((loadProgram_within hu).trans (ih h)).mono
    rw [List.length_cons]
    omega

end Within

section Programs

variable {s t : Loader} {mms : List Nat} {base : Nat → Nat} {segs : Nat → List Segment} {a : Nat}
  {start : Nat} {img : Bytes} {elf : Nat} {F : Nat → Option Nat} {m : Nat}

/-- What loading segments has done. -/
structure ProgramsLoaded (start : Nat) (img : Bytes) (elf : Nat) (l : List ProgramHeader)
    (k t : Kernel) : Prop where
  bytes : ∀ ph ∈ l, ∀ j < ph.pMemsz, peek t (ph.pVaddr + j) = segmentByte start img elf ph j
  kept : ∀ x < 2^47, (∀ ph ∈ l, ¬(ph.segment elf).OnPage (x/4096)) → peek t x = peek k x
  vaCursor : t.vaCursor = k.vaCursor

theorem onPage_byte {ph : ProgramHeader} {j : Nat} (elf : Nat) (hj : j < ph.pMemsz) :
    (ph.segment elf).OnPage ((ph.pVaddr + j)/4096) := by
  rw [onPage_segment]
  omega

/-- One segment and its area. -/
theorem Areas.loadProgram_returns (h : Areas s mms base segs) (ha : a ∈ mms)
    (hlen : (segs a).length < 56) {ph : ProgramHeader} (hsz : Sized start img elf ph)
    (hend : ph.pVaddr + ph.pMemsz ≤ 2^47)
    (hs : Supply s.kern F ((ph.segment elf).pages + m) (if segs a = [] then 1 else 0))
    (hn : ∀ q, s.kern.pools.Within (2^25) q → q.pages.Nodup) :
    ∃ t base' G, SBUnix.loadProgram start img elf a ph s = some t ∧
      Areas t mms base' (Function.update segs a (segs a ++ [ph.segment elf])) ∧
      Supply t.kern G m 0 ∧ s.kern.pools.Within (2^25) t.kern.pools ∧
      SegmentLoaded start img elf ph s.kern t.kern := by
  obtain ⟨k, G, hk, hsk, hload⟩ := hs.segment hsz hend
  have hlater : s.kern.pools.Later k.pools := by
    rw [fillSegment_pools hk]
    exact allocateRegions_later _ _ _
  have h1 : Areas { s with kern := k } mms base segs := h.later hlater rfl rfl
  obtain ⟨t, ht, -⟩ := h1.addArea_returns ha hlen (ph.segment elf)
  have hnone : ({ s with kern := k }.mm a).mmap = none → (if segs a = [] then 1 else 0) = 1 := by
    intro hmm
    exact if_pos ((h1.holds a ha).eq_nil hmm)
  obtain ⟨hst, hq, hp⟩ := hsk.space.addArea hnone (hsk.budget.mono (by omega)) ht
  have hret : SBUnix.loadProgram start img elf a ph s = some t := by
    rw [SBUnix.loadProgram, hk, Option.bind_some, ht]
  have hw := loadProgram_within hret
  obtain ⟨base', h2⟩ := h.loadProgram ha hlen hret (hn _ hw)
  refine ⟨t, base', G, hret, h2, hsk.quiet hst hq, hw, ?_, ?_, hq.vaCursor.trans hload.vaCursor⟩
  · intro j hj
    rw [hp _ (by omega)]
    exact hload.bytes j hj
  · intro x hx hoff
    rw [hp x hx]
    exact hload.kept x hx hoff

/-- All of them: by induction, a segment's bytes outlast those loaded after it, which have other
pages. -/
theorem Areas.loadPrograms_returns {l : List ProgramHeader} (h : Areas s mms base segs)
    (ha : a ∈ mms) (hlen : (segs a).length + l.length ≤ 56)
    (hsz : ∀ ph ∈ l, Sized start img elf ph) (hl : UserAreas (l.map (·.segment elf)))
    (hs : Supply s.kern F (pageTotal (l.map (·.segment elf)) + m) (if segs a = [] then 1 else 0))
    (hn : ∀ q, s.kern.pools.Within (2^25*l.length) q → q.pages.Nodup) :
    ∃ t base' G, loadPrograms start img elf a l s = some t ∧
      Areas t mms base' (Function.update segs a (segs a ++ l.map (·.segment elf))) ∧
      Supply t.kern G m 0 ∧ ProgramsLoaded start img elf l s.kern t.kern := by
  induction l generalizing s base segs F with
  | nil =>
    refine ⟨s, base, F, rfl, by simpa using h, ?_, ?_, fun _ _ _ => rfl, rfl⟩
    · exact hs.mono (Nat.le_add_left _ _) (Nat.zero_le _)
    · intro ph hph
      cases hph
  | cons ph l ih =>
    rw [List.length_cons] at hlen hn
    rw [List.map_cons] at hl
    have htotal : pageTotal ((ph::l).map (·.segment elf)) + m =
        (ph.segment elf).pages + (pageTotal (l.map (·.segment elf)) + m) := by
      rw [List.map_cons, pageTotal, List.map_cons, List.sum_cons, pageTotal, Nat.add_assoc]
    rw [htotal] at hs
    obtain ⟨hhead, htail⟩ := List.pairwise_cons.mp hl.apart
    have hend : ph.pVaddr + ph.pMemsz ≤ 2^47 := hl.user _ List.mem_cons_self
    obtain ⟨u, base1, G, hu, h1, hsu, hw, hload⟩ := h.loadProgram_returns ha (by omega)
      (hsz ph List.mem_cons_self) hend hs fun q hq => hn q (hq.mono (by omega))
    have hne : Function.update segs a (segs a ++ [ph.segment elf]) a ≠ [] := by
      rw [Function.update_self]
      simp
    obtain ⟨t, base2, G2, ht, h2, hst, hrest⟩ := ih h1
      (by rw [Function.update_self, List.length_append, List.length_singleton]; omega)
      (fun q hq => hsz q (List.mem_cons_of_mem ph hq))
      ⟨fun q hq => hl.user q (List.mem_cons_of_mem _ hq), htail⟩
      (by rwa [if_neg hne])
      (fun q hq => hn q ((hw.trans hq).mono (by omega)))
    rw [Function.update_self, Function.update_idem, List.append_assoc, List.singleton_append] at h2
    refine ⟨t, base2, G2, by rw [loadPrograms, hu, Option.bind_some, ht], by simpa using h2, hst,
      ?_, ?_, hrest.vaCursor.trans hload.vaCursor⟩
    · intro q hq j hj
      rcases List.mem_cons.mp hq with rfl | hq
      · rw [hrest.kept _ (by omega) fun r hr =>
          hhead _ (List.mem_map_of_mem hr) _ (onPage_byte elf hj)]
        exact hload.bytes j hj
      · exact hrest.bytes q hq j hj
    · intro x hx hoff
      rw [hrest.kept x hx fun q hq => hoff q (List.mem_cons_of_mem ph hq)]
      exact hload.kept x hx (hoff ph List.mem_cons_self)

end Programs

/-- Where load_segment puts the heap of a process whose last area this is. -/
def Segment.brk (seg : Segment) : Nat :=
  add64 0x6e000 (roundDown (add64 seg.vmEnd (100*pageSize)) pageSize)

section Heap

variable {s : Loader} {F : Nat → Option Nat}

theorem brk_aligned (seg : Segment) : seg.brk % 4096 = 0 := by
  rw [Segment.brk, roundDown_page_eq, add64]
  omega

/-- The last area, as the loop behind the headers finds it. -/
theorem Holds.last_seg {a base : Nat} {segs : List Segment} {last : Segment}
    (h : Holds s a base segs) (hlast : segs.getLast? = some last) :
    ∃ node, (s.mm a).mmap = some base ∧
      SBUnix.lastVma s.vma ((s.mm a).count.toNat + 1) base = some node ∧
      (s.vma node).seg = last := by
  have hne : segs ≠ [] := by
    rintro rfl
    cases hlast
  have hpos := List.length_pos_iff.mpr hne
  have hnode := h.lastVma (segs.length+1) 0 hpos (by omega)
  rw [Nat.mul_zero, Nat.add_zero] at hnode
  refine ⟨base + vmaSize*(segs.length-1), by rw [h.head, if_neg hne], ?_, ?_⟩
  · rw [h.count, Int.toNat_natCast]
    exact hnode
  · rw [h.node _ (by omega)]
    rw [List.getLast?_eq_getElem?, List.getElem?_eq_getElem (by omega)] at hlast
    exact Option.some.inj hlast

/-- The heap's two pages, apart from the rest. -/
theorem Supply.setHeap (hs : Supply s.kern F 2 0) {task : TaskImage} {base : Nat} (entry : Nat)
    {segs : List Segment} {last : Segment} (h : Holds s task.mm base segs)
    (hlast : segs.getLast? = some last) (hnew : s.kern.vaCursor.newPage < 2^47)
    (hbrk : last.brk + pageSize ≤ 2^47) :
    ∃ r, SBUnix.setHeap task entry s = some r ∧ r.1.entry = entry ∧
      ∀ x < 2^47, x/4096 ≠ s.kern.vaCursor.newPage/4096 → x/4096 ≠ last.brk/4096 →
        peek r.2.kern x = peek s.kern x := by
  obtain ⟨node, hhead, hnode, hseg⟩ := h.last_seg hlast
  have hg := hs.space.newPage (hs.budget.mono (by omega)) (hs.frames 0 (by omega)) hnew
  have hs1 := hs.grown hg
  rw [SBUnix.setHeap, hhead, Option.bind_some, hnode, Option.map_some, hseg]
  dsimp only
  rw [← Segment.brk]
  generalize memmap 0 pageSize usrPermBits .newPage s.kern = u at hg hs1 ⊢
  have hal := brk_aligned last
  have hpages : (last.brk + pageSize + 4095)/4096 - last.brk/4096 + 0 = 1 := by
    unfold pageSize
    omega
  rw [← hpages] at hs1
  obtain ⟨G, -, hspread⟩ := Supply.allocateRegions hbrk hs1
  refine ⟨_, rfl, rfl, ?_⟩
  intro x hx hvma hheap
  have hout : x/4096 < last.brk/4096 ∨ (last.brk + pageSize + 4095)/4096 ≤ x/4096 := by
    unfold pageSize
    omega
  dsimp only
  rw [hspread.kept x hx hout, hg.kept x hx hvma]

end Heap

/-- The process after load_segment, as the headers `l` of its file have it. -/
structure ImageLoaded (start : Nat) (img : Bytes) (elf entry : Nat) (l : List ProgramHeader)
    (s : Loader) (task : TaskImage) (r : TaskImage × Loader) : Prop where
  bytes : ∀ ph ∈ l, ∀ j < ph.pMemsz,
    peek r.2.kern (ph.pVaddr + j) = segmentByte start img elf ph j
  areas : ∃ nodes nodes', Chain s.vma (s.mm task.mm).mmap nodes ∧
    Chain r.2.vma (r.2.mm task.mm).mmap nodes' ∧
    (nodes'.map fun n => (r.2.vma n).seg) =
      (nodes.map fun n => (s.vma n).seg) ++ l.map (·.segment elf)
  entry : r.1.entry = entry

/-- The kernel has the memory that the new areas and the heap take, the list has room for them,
and the pages of the heap and of its descriptor are in none of the new areas. -/
structure LoadReady (s : Loader) (old new : List Segment) : Prop where
  supply : Supply s.kern s.kern.frameOf (pageTotal new + 2) 1
  room : old.length + new.length ≤ 56
  fresh : ∀ q, s.kern.pools.Within (2^31) q → q.pages.Nodup
  descriptor : s.kern.vaCursor.newPage < 2^47 ∧
    ∀ seg ∈ new, ¬seg.OnPage (s.kern.vaCursor.newPage/4096)
  heap : ∃ last, (old ++ new).getLast? = some last ∧ last.brk + pageSize ≤ 2^47 ∧
    ∀ seg ∈ new, ¬seg.OnPage (last.brk/4096)

section Image

variable {s : Loader} {mms : List Nat} {base : Nat → Nat} {segs : Nat → List Segment}
  {start : Nat} {img : Bytes} {n : Nat} {file : Bytes} {elf entry phoff phnum : Nat}
  {task : TaskImage} {l : List ProgramHeader}

/-- load_segment with the headers it finds. -/
theorem ElfFile.loads (hfile : ElfFile start img n file elf entry phoff phnum)
    (hl : loadedHeaders start img elf phoff phnum 0 = some l)
    (hsz : ∀ ph ∈ l, Sized start img elf ph) (hu : UserAreas (l.map (·.segment elf)))
    (h : Areas s mms base segs) (ha : task.mm ∈ mms)
    (hr : LoadReady s (segs task.mm) (l.map (·.segment elf))) :
    ∃ r, loadSegment start img n task file s = some r ∧
      ImageLoaded start img elf entry l s task r := by
  have hroom := hr.room
  rw [List.length_map] at hroom
  have hs : Supply s.kern s.kern.frameOf (pageTotal (l.map (·.segment elf)) + 2)
      (if segs task.mm = [] then 1 else 0) := hr.supply.mono (le_refl _) (by split_ifs <;> omega)
  obtain ⟨t, base', G, ht, hareas, hst, hload⟩ := h.loadPrograms_returns ha hroom hsz hu hs
    fun q hq => hr.fresh q (hq.mono (by omega))
  have hholds := hareas.holds task.mm ha
  rw [Function.update_self] at hholds
  obtain ⟨hnew, hdesc⟩ := hr.descriptor
  obtain ⟨last, hlast, hbrk, hheap⟩ := hr.heap
  rw [← hload.vaCursor] at hnew hdesc
  obtain ⟨r, hset, hentry, hkept⟩ := hst.setHeap entry hholds hlast hnew hbrk
  obtain ⟨-, hvma, hmm⟩ := setHeap_frame hset
  refine ⟨r, ?_, ?_, ?_, hentry⟩
  · rw [hfile.loadSegment_eq, loadHeaders_eq hl, ht, Option.bind_some, hset]
  · intro ph hph j hj
    have hseg := List.mem_map_of_mem (f := fun ph => ph.segment elf) hph
    have hon := onPage_byte elf hj
    have huser : ph.pVaddr + ph.pMemsz ≤ 2^47 := hu.user _ hseg
    rw [hkept _ (by omega) (fun he => hdesc _ hseg (he ▸ hon)) fun he => hheap _ hseg (he ▸ hon)]
    exact hload.bytes ph hph j hj
  · have hold := h.holds task.mm ha
    refine ⟨_, _, hold.chain, by rw [hvma, hmm]; exact hholds.chain, ?_⟩
    rw [hvma, hholds.segs_eq, hold.segs_eq]

/-- Whatever the headers: every area found in the list afterwards is that of a header that was
acted on. -/
theorem ElfFile.areas_eq (hfile : ElfFile start img n file elf entry phoff phnum)
    (hl : loadedHeaders start img elf phoff phnum 0 = some l) (h : Areas s mms base segs)
    (ha : task.mm ∈ mms) (hroom : (segs task.mm).length + l.length ≤ 56)
    (hfresh : ∀ q, s.kern.pools.Within (2^31) q → q.pages.Nodup) {r : TaskImage × Loader}
    (hr : loadSegment start img n task file s = some r) {l' : List ProgramHeader}
    (hi : ImageLoaded start img elf entry l' s task r) :
    l.map (·.segment elf) = l'.map (·.segment elf) := by
  rw [hfile.loadSegment_eq] at hr
  obtain ⟨t, ht, hset⟩ := Option.bind_eq_some_iff.mp hr
  have hprog := ht
  rw [loadHeaders_eq hl] at hprog
  obtain ⟨-, hvma, hmm⟩ := setHeap_frame hset
  have hn : t.kern.pools.pages.Nodup :=
    hfresh _ ((loadPrograms_within hprog).mono (by omega))
  obtain ⟨base', hareas⟩ := h.loadHeaders ha hl hroom ht hn
  have hnew := hareas.holds task.mm ha
  have hold := h.holds task.mm ha
  rw [Function.update_self] at hnew
  obtain ⟨nodes, nodes', hc, hc', hsegs⟩ := hi.areas
  rw [hvma, hmm] at hc'
  rw [hvma, hc.unique hold.chain, hc'.unique hnew.chain, hnew.segs_eq, hold.segs_eq] at hsegs
  exact List.append_cancel_left hsegs

end Image

/-- The headers `l` make the areas that the headers `l'` do, with the same bytes in them. -/
structure SameImage (start : Nat) (img : Bytes) (elf : Nat) (l l' : List ProgramHeader) : Prop where
  areas : l.map (·.segment elf) = l'.map (·.segment elf)
  bytes : ∀ a ∈ l, ∀ b ∈ l', a.segment elf = b.segment elf → ∀ j < b.pMemsz,
    segmentByte start img elf a j = segmentByte start img elf b j

/-- load_segment reads the headers one byte apart. It loads the image if there is one header at
most, and, where the other ones it comes upon make sense at all, only if they happen to describe
the same image. -/
theorem loadSegment_loads_iff (start : Nat) (img : Bytes) (n : Nat) (file : Bytes)
    (elf entry phoff phnum : Nat) (phs : List ProgramHeader) (s : Loader) (task : TaskImage)
    (mms : List Nat) (base : Nat → Nat) (segs : Nat → List Segment)
    (hfile : ElfFile start img n file elf entry phoff phnum)
    (hphs : fileHeaders start img elf phoff phnum 0 = some phs)
    (hsz : ∀ ph ∈ segmentHeaders phs, Sized start img elf ph)
    (hu : UserAreas ((segmentHeaders phs).map (·.segment elf)))
    (h : Areas s mms base segs) (ha : task.mm ∈ mms)
    (hr : LoadReady s (segs task.mm) ((segmentHeaders phs).map (·.segment elf))) :
    (phnum ≤ 1 → ∃ r, loadSegment start img n task file s = some r ∧
      ImageLoaded start img elf entry (segmentHeaders phs) s task r) ∧
    ((∀ l, loadedHeaders start img elf phoff phnum 0 = some l →
        (segs task.mm).length + l.length ≤ 56 ∧ ∀ ph ∈ l, Sized start img elf ph) →
      ((∃ r, loadSegment start img n task file s = some r ∧
        ImageLoaded start img elf entry (segmentHeaders phs) s task r) ↔
      ∃ l, loadedHeaders start img elf phoff phnum 0 = some l ∧
        SameImage start img elf l (segmentHeaders phs))) := by
  constructor
  · intro hle
    exact hfile.loads (loadedHeaders_eq_of_le hphs hle) hsz hu h ha hr
  · intro hfound
    constructor
    · rintro ⟨r, hload, hi⟩
      have hsome := hload
      rw [hfile.loadSegment_eq] at hsome
      obtain ⟨t, ht, -⟩ := Option.bind_eq_some_iff.mp hsome
      obtain ⟨l, hl⟩ := loadedHeaders_of_loadHeaders ht
      obtain ⟨hroom, hszl⟩ := hfound l hl
      have hareas := hfile.areas_eq hl h ha hroom hr.fresh hload hi
      refine ⟨l, hl, hareas, ?_⟩
      intro a hal b hbl hab j hj
      -- the same run, with the bytes of the headers it found
      rw [← hareas] at hu hr
      obtain ⟨r', hload', hi'⟩ := hfile.loads hl hszl hu h ha hr
      obtain rfl : r = r' := Option.some.inj (hload.symm.trans hload')
      have hstart : a.pVaddr = b.pVaddr := congrArg Segment.vmStart hab
      have hsize : a.pMemsz = b.pMemsz := congrArg Segment.vmMmsz hab
      rw [← hi'.bytes a hal j (by omega), hstart, hi.bytes b hbl j hj]
    · rintro ⟨l, hl, hsame⟩
      obtain ⟨hroom, hszl⟩ := hfound l hl
      rw [← hsame.areas] at hu hr
      obtain ⟨r, hload, hi⟩ := hfile.loads hl hszl hu h ha hr
      refine ⟨r, hload, ?_, by rw [← hsame.areas]; exact hi.areas, hi.entry⟩
      intro b hbl j hj
      have hmem := List.mem_map_of_mem (f := fun ph => ph.segment elf) hbl
      rw [← hsame.areas] at hmem
      obtain ⟨a, hal, hab⟩ := List.mem_map.mp hmem
      have hstart : a.pVaddr = b.pVaddr := congrArg Segment.vmStart hab
      have hsize : a.pMemsz = b.pMemsz := congrArg Segment.vmMmsz hab
      rw [← hstart, hi.bytes a hal j (by omega)]
      exact hsame.bytes a hal b hbl hab j hj

section Scenario

theorem freeFrame_iterate {F : Nat → Option Nat} (hF : ∀ x < 2^47, F x = none) (i : Nat) :
    FreeFrame F (nextFrame^[i] startPaddrForUsrs) := by
  have hpool := nextFrame_iterate (r := 0) (by norm_num) (by norm_num) i
  have hend : endPaddrForUsrs = startPaddrForUsrs + 2^24 := rfl
  have hlt : (0 + 4096*i) % 2^24 < 2^24 := Nat.mod_lt _ (by norm_num)
  rw [Nat.add_zero] at hpool
  constructor
  case range =>
    rw [hpool, hend]
    exact ⟨Nat.le_add_right _ _, Nat.add_lt_add_left hlt _⟩
  case unused =>
    intro x hx h
    rw [hF x hx] at h
    cases h

/-- A process that has just been created, and nothing else in the user half. -/
theorem exists_created_process {k : Kernel} (hs : Space k fun _ => none) (hb : Budget k 20)
    (hframe : k.usrPhysAddr = startPaddrForUsrs)
    (hn : ∀ q, k.pools.Within (2^33) q → q.pages.Nodup) :
    ∃ s a base segs, Areas s [a] base segs ∧ segs a = [] ∧ Supply s.kern s.kern.frameOf 4 1 ∧
      s.kern.vaCursor = k.vaCursor ∧ ∀ q, s.kern.pools.Within (2^31) q → q.pages.Nodup := by
  obtain ⟨hs1, hq, -⟩ := hs.kmalloc (show 1 ≤ mmSize by decide)
    (show (mmSize+4095)/4096 = 1 by decide) (hb.mono (by decide))
  have hb1 : Budget (kmalloc mmSize k).2 19 := hb.after hq
  have hw := kmalloc_within k mmSize
  have h0 : Areas (bootLoader k) [] (fun _ => 0) (fun _ => []) := by
    refine ⟨?_, ?_, ?_, ?_, ?_, hs.wf.cursor⟩ <;> exact fun a ha => absurd ha List.not_mem_nil
  have h1 := h0.newMm mmSize (hn _ (hw.mono (by norm_num)))
  have hsupply : Supply (kmalloc mmSize k).2 (kmalloc mmSize k).2.frameOf 4 1 := by
    constructor
    case space => exact hs1.self
    case few => norm_num
    case frames =>
      intro i _
      rw [hq.usrPhysAddr, hframe]
      exact freeFrame_iterate hs1.frames i
    case budget => exact hb1.mono (by norm_num)
  exact ⟨_, _, _, _, h1, Function.update_self _ _ _, hsupply, hq.vaCursor,
    fun q hq => hn q ((hw.trans hq).mono (by norm_num))⟩

theorem exists_process :
    ∃ s a base segs, Areas s [a] base segs ∧ segs a = [] ∧ Supply s.kern s.kern.frameOf 4 1 ∧
      s.kern.vaCursor.newPage = startVaddrForUsrs ∧
      ∀ q, s.kern.pools.Within (2^31) q → q.pages.Nodup := by
  obtain ⟨hs, hbudget⟩ := booted_space
  have hb := booted_spec (fun _ => 0) 0x300000 (by norm_num) (by norm_num)
  obtain ⟨s, a, base, segs, h, hnil, hsupply, hva, hn⟩ := exists_created_process hs hbudget
    hb.usrPhysAddr fun q hq => booted_nodup (by norm_num) hq
  have hpage : (⟨1, 0, 0⟩ : Tally).newPage = startVaddrForUsrs := by decide
  refine ⟨s, a, base, segs, h, hnil, hsupply, ?_, hn⟩
  rw [hva, hb.vaCursor, Tally.cursor_newPage, hpage]

/-- An ELF header with the entry 0x400000 and its program headers at 64. -/
def elfHeader (phnum : UInt8) : Bytes :=
  List.replicate 26 0 ++ [0x40] ++ List.replicate 5 0 ++ [64] ++ List.replicate 23 0 ++ [phnum] ++
    List.replicate 7 0

/-- A program header of type PT_LOAD: the first 32 bytes of the file and 8 zeros, in a page of
their own. -/
def elfSegment (page : UInt8) : Bytes :=
  [1, 0, 0, 0, 5, 0, 0, 0] ++ List.replicate 9 0 ++ [page, 0x40] ++ List.replicate 13 0 ++ [32] ++
    List.replicate 7 0 ++ [40] ++ List.replicate 15 0

/-- A file `bin/ps` with one segment, and one with two. -/
def oneSegment : Member :=
  .zeroed [98, 105, 110, 47, 112, 115] .file (elfHeader 1 ++ elfSegment 0) (by decide) (by decide)
    (by decide) (by decide) (by decide)

def twoSegments : Member :=
  .zeroed [98, 105, 110, 47, 112, 115] .file (elfHeader 2 ++ (elfSegment 0 ++ elfSegment 0x10))
    (by decide) (by decide) (by decide) (by decide +kernel) (by decide)

def oneSegmentDisk : Archive := .linked [binDir, oneSegment] (by
  simp only [List.flatMap_cons, List.flatMap_nil, List.length_append, Member.bytes_length]
  decide)

def twoSegmentDisk : Archive := .linked [binDir, twoSegments] (by
  simp only [List.flatMap_cons, List.flatMap_nil, List.length_append, Member.bytes_length]
  decide +kernel)

/-- The headers. -/
def firstHeader : ProgramHeader := ⟨1, 5, 0, 0x400000, 32, 40⟩
def secondHeader : ProgramHeader := ⟨1, 5, 0, 0x401000, 32, 40⟩

theorem oneSegment_file :
    ElfFile 0x200000 oneSegmentDisk.bytes 1 [98, 105, 110, 47, 112, 115, 0] 0x200400 0x400000 64 1 where
  found := ⟨1024, by decide +kernel, by decide, rfl⟩
  header := ⟨oneSegmentDisk.bytes.drop 1024, rfl, by decide +kernel, by decide +kernel,
    by decide +kernel⟩

theorem oneSegment_headers :
    fileHeaders 0x200000 oneSegmentDisk.bytes 0x200400 64 1 0 = some [firstHeader] := by
  decide +kernel

theorem twoSegments_file :
    ElfFile 0x200000 twoSegmentDisk.bytes 1 [98, 105, 110, 47, 112, 115, 0] 0x200400 0x400000 64 2 where
  found := ⟨1024, by decide +kernel, by decide, rfl⟩
  header := ⟨twoSegmentDisk.bytes.drop 1024, rfl, by decide +kernel, by decide +kernel,
    by decide +kernel⟩

theorem twoSegments_headers :
    fileHeaders 0x200000 twoSegmentDisk.bytes 0x200400 64 2 0 = some [firstHeader, secondHeader] ∧
    loadedHeaders 0x200000 twoSegmentDisk.bytes 0x200400 64 2 0 = some [firstHeader] := by
  decide +kernel

/-- Whatever the file is, the archive has 32 bytes from its start on. -/
theorem firstHeader_sized (m : Member) (h : ([binDir, m].flatMap Member.bytes).length < 2^30) :
    ∀ ph ∈ [firstHeader], Sized 0x200000 (Archive.linked [binDir, m] h).bytes 0x200400 ph := by
  intro ph hph
  rw [List.mem_singleton.mp hph]
  refine ⟨by decide, (Archive.linked [binDir, m] h).bytes.drop 1024, rfl, ?_⟩
  have hlen : 1024 + 32 ≤ (Archive.linked [binDir, m] h).bytes.length := by
    rw [Archive.bytes_length, Archive.linked]
    simp only [List.flatMap_cons, List.flatMap_nil, List.length_append, Member.bytes_length]
    omega
  rw [List.length_drop]
  exact Nat.le_sub_of_add_le' hlen

theorem userAreas_firstHeader : UserAreas ([firstHeader].map (·.segment 0x200400)) where
  user := by decide
  apart := List.pairwise_singleton _ _

/-- Areas of two pages at most, for a process that has none. -/
theorem LoadReady.created {s : Loader} {new : List Segment} {last : Segment}
    (hs : Supply s.kern s.kern.frameOf 4 1) (hva : s.kern.vaCursor.newPage = startVaddrForUsrs)
    (hn : ∀ q, s.kern.pools.Within (2^31) q → q.pages.Nodup) (hpages : pageTotal new ≤ 2)
    (hlen : new.length ≤ 56) (hdesc : ∀ seg ∈ new, ¬seg.OnPage (startVaddrForUsrs/4096))
    (hlast : new.getLast? = some last) (hbrk : last.brk + pageSize ≤ 2^47)
    (hheap : ∀ seg ∈ new, ¬seg.OnPage (last.brk/4096)) : LoadReady s [] new := by
  constructor
  case supply => exact hs.mono (by omega) (le_refl 1)
  case room =>
    rw [List.length_nil, Nat.zero_add]
    exact hlen
  case fresh => exact hn
  case descriptor =>
    rw [hva]
    exact ⟨by decide, hdesc⟩
  case heap => exact ⟨last, hlast, hbrk, hheap⟩

theorem LoadReady.firstHeader {s : Loader} (hs : Supply s.kern s.kern.frameOf 4 1)
    (hva : s.kern.vaCursor.newPage = startVaddrForUsrs)
    (hn : ∀ q, s.kern.pools.Within (2^31) q → q.pages.Nodup) :
    LoadReady s [] ([SBUnix.firstHeader].map (·.segment 0x200400)) :=
  LoadReady.created hs hva hn (by decide) (by decide) (by decide) rfl (by decide) (by decide)

end Scenario

theorem loadSegment_loads_one :
    ∃ s task r, loadSegment 0x200000 oneSegmentDisk.bytes 1 task
        [98, 105, 110, 47, 112, 115, 0] s = some r ∧
      ImageLoaded 0x200000 oneSegmentDisk.bytes 0x200400 0x400000 [firstHeader] s task r := by
  obtain ⟨s, a, base, segs, h, hnil, hs, hva, hn⟩ := exists_process
  have hready : LoadReady s (segs a) ([firstHeader].map (·.segment 0x200400)) := by
    rw [hnil]
    exact LoadReady.firstHeader hs hva hn
  obtain ⟨r, hr, hi⟩ := (loadSegment_loads_iff 0x200000 oneSegmentDisk.bytes 1
    [98, 105, 110, 47, 112, 115, 0] 0x200400 0x400000 64 1 [firstHeader] s ⟨a, 0, 0⟩ [a] base segs
    oneSegment_file oneSegment_headers (firstHeader_sized oneSegment _) userAreas_firstHeader h
    List.mem_cons_self hready).1 (le_refl 1)
  exact ⟨s, _, r, hr, hi⟩

/-- Of two segments the second is not loaded: one byte behind the first header there is none of
type PT_LOAD. -/
theorem loadSegment_skips_second :
    ∃ s task r, LoadReady s [] ([firstHeader, secondHeader].map (·.segment 0x200400)) ∧
      loadSegment 0x200000 twoSegmentDisk.bytes 1 task [98, 105, 110, 47, 112, 115, 0] s = some r ∧
      ImageLoaded 0x200000 twoSegmentDisk.bytes 0x200400 0x400000 [firstHeader] s task r ∧
      ¬ImageLoaded 0x200000 twoSegmentDisk.bytes 0x200400 0x400000 [firstHeader, secondHeader] s
        task r := by
  obtain ⟨s, a, base, segs, h, hnil, hs, hva, hn⟩ := exists_process
  have hready : LoadReady s (segs a) ([firstHeader].map (·.segment 0x200400)) := by
    rw [hnil]
    exact LoadReady.firstHeader hs hva hn
  have hmem : (⟨a, 0, 0⟩ : TaskImage).mm ∈ [a] := List.mem_cons_self
  obtain ⟨r, hr, hi⟩ := twoSegments_file.loads twoSegments_headers.2
    (firstHeader_sized twoSegments _) userAreas_firstHeader h hmem hready
  refine ⟨s, _, r, ?_, hr, hi, ?_⟩
  · exact LoadReady.created hs hva hn (by decide) (by decide) (by decide) rfl (by decide)
      (by decide)
  · intro htwo
    have hareas := twoSegments_file.areas_eq twoSegments_headers.2 h hmem
      (by rw [hnil]; decide) hn hr htwo
    revert hareas
    decide

end SBUnix
