import SBUnix.Paging.Pools
import SBUnix.Tarfs.FileExists

namespace SBUnix

open ByteMemory CString Word

def elfProgLoad : Nat := 1

/-- sizeof(struct vm_area_struct) -/
def vmaSize : Nat := 72

/-- sizeof(struct mm_struct) -/
def mmSize : Nat := 168

/-- What load_segment stores in a `struct vm_area_struct`, but its link. -/
structure Segment where
  vmStart : Nat
  vmEnd : Nat
  vmMmsz : Nat
  vmFlags : Nat
  vmFile : Nat
  vmOffset : Nat
  deriving DecidableEq, Repr

structure VmArea where
  seg : Segment
  vmNext : Option Nat
  deriving DecidableEq, Repr

structure MmStruct where
  mmap : Option Nat
  count : Int
  deriving DecidableEq, Repr

/-- The fields of `struct task_struct` that load_segment reads or sets. -/
structure TaskImage where
  mm : Nat
  entry : Nat
  heapVma : Nat

/-- The kernel with its areas and mm_structs by address. The area that heap_vma points at is in
a user page and kept apart. -/
structure Loader where
  kern : Kernel
  vma : Nat → VmArea
  heap : Nat → Segment
  mm : Nat → MmStruct

/-- The last node of a list of at most `n` nodes. -/
def lastVma (vma : Nat → VmArea) : Nat → Nat → Option Nat
  | 0, _ => none
  | n+1, a =>
    match (vma a).vmNext with
    | none => some a
    | some b => lastVma vma n b

def emptyArea : VmArea := ⟨⟨0, 0, 0, 0, 0, 0⟩, none⟩

/-- `count` is the number of nodes there are to pass. The new node lies right behind the last
one, in whatever page that is. -/
def mallocVma (a : Nat) (s : Loader) : Option (Nat × Loader) :=
  match (s.mm a).mmap with
  | none =>
    let r := kmalloc vmaSize s.kern
    some (r.1, { s with
      kern := r.2
      vma := Function.update s.vma r.1 emptyArea
      mm := Function.update s.mm a ⟨some r.1, int32 ((s.mm a).count + 1)⟩ })
  | some head =>
    (lastVma s.vma ((s.mm a).count.toNat + 1) head).map fun last =>
      (add64 last vmaSize, { s with
        vma := Function.update s.vma last { s.vma last with vmNext := some (add64 last vmaSize) }
        mm := Function.update s.mm a ⟨some head, int32 ((s.mm a).count + 1)⟩ })

/-- malloc_vma and the assignments after it. -/
def addArea (a : Nat) (seg : Segment) (s : Loader) : Option Loader :=
  (mallocVma a s).map fun r => { r.2 with vma := Function.update r.2.vma r.1 ⟨seg, none⟩ }

/-- The pages of `[va, va+len)`, each asked for by its own call of memmap. -/
def allocateRegions (va len : Nat) (k : Kernel) : Kernel :=
  let vaStart := roundDown va pageSize
  let vaEnd := roundDown (sub64 (add64 (add64 va len) pageSize) 1) pageSize
  let sz := sub64 vaEnd vaStart % 2^32
  let num := sz / pageSize + sz % pageSize
  (List.range num).foldl (fun k i =>
    (memmap (add64 va (i*pageSize)) pageSize usrPermBits .accessedNotPresent k).2) k

/-- Bytes stored one after the other at a virtual address; `none` is a page fault. -/
def userStores : Bytes → Nat → Kernel → Option Kernel
  | [], _, k => some k
  | b::bs, va, k =>
    (translate k va).bind fun p =>
      userStores bs (add64 va 1) { k with mem := store k.mem 1 p b.toNat }

/-- A little-endian number of `n` bytes. -/
def readLe : Nat → Bytes → Option Nat
  | 0, _ => some 0
  | _+1, [] => none
  | n+1, b::bs => (readLe n bs).map fun v => b.toNat + 256*v

/-- A kernel address inside the archive, as the bytes from there on. -/
def archiveAt (start : Nat) (img : Bytes) (addr : Nat) : Option Bytes :=
  if addr < start then none else some (img.drop (addr-start))

structure ProgramHeader where
  pType : Nat
  pFlags : Nat
  pOffset : Nat
  pVaddr : Nat
  pFilesz : Nat
  pMemsz : Nat
  deriving DecidableEq, Repr

def programHeader (ph : Bytes) : Option ProgramHeader :=
  (readLe 4 ph).bind fun type =>
    (readLe 4 (ph.drop 4)).bind fun flags =>
      (readLe 8 (ph.drop 8)).bind fun offset =>
        (readLe 8 (ph.drop 16)).bind fun vaddr =>
          (readLe 8 (ph.drop 32)).bind fun filesz =>
            (readLe 8 (ph.drop 40)).map fun memsz => ⟨type, flags, offset, vaddr, filesz, memsz⟩

/-- The area of a program header of the image at `elf`. -/
def ProgramHeader.segment (ph : ProgramHeader) (elf : Nat) : Segment where
  vmStart := ph.pVaddr
  vmEnd := add64 ph.pVaddr ph.pMemsz
  vmMmsz := ph.pMemsz
  vmFlags := ph.pFlags
  vmFile := elf
  vmOffset := ph.pOffset

/-- kmemcpy out of the archive, then memset, whose length is an int. -/
def fillSegment (start : Nat) (img : Bytes) (elf : Nat) (ph : ProgramHeader) (k : Kernel) :
    Option Kernel :=
  (archiveAt start img (add64 elf ph.pOffset)).bind fun src =>
    if src.length < ph.pFilesz then none
    else (userStores (src.take ph.pFilesz) ph.pVaddr k).bind fun k =>
      if ph.pFilesz < ph.pMemsz then
        userStores (List.replicate (int32 ((ph.pMemsz : Int) - ph.pFilesz)).toNat 0)
          (add64 ph.pVaddr ph.pFilesz) k
      else some k

/-- The body of the loop for a header of type PT_LOAD. -/
def loadProgram (start : Nat) (img : Bytes) (elf a : Nat) (ph : ProgramHeader) (s : Loader) :
    Option Loader :=
  (fillSegment start img elf ph (allocateRegions ph.pVaddr ph.pMemsz s.kern)).bind fun k =>
    addArea a (ph.segment elf) { s with kern := k }

/-- The headers from the `i`-th on. They are looked for one byte apart. -/
def loadHeaders (start : Nat) (img : Bytes) (elf phoff a : Nat) :
    Nat → Nat → Loader → Option Loader
  | 0, _, s => some s
  | n+1, i, s =>
    ((archiveAt start img (add64 (add64 elf phoff) i)).bind programHeader).bind fun ph =>
      if ph.pType = elfProgLoad then
        (loadProgram start img elf a ph s).bind (loadHeaders start img elf phoff a n (i+1))
      else loadHeaders start img elf phoff a n (i+1) s

/-- From `pcb->entry = elf->e_entry` to the end: a page for heap_vma, and the heap behind the
last area. -/
def setHeap (task : TaskImage) (entry : Nat) (s : Loader) : Option (TaskImage × Loader) :=
  let r := memmap 0 pageSize usrPermBits .newPage s.kern
  (s.mm task.mm).mmap.bind fun head =>
    (lastVma s.vma ((s.mm task.mm).count.toNat + 1) head).map fun last =>
      let brk := add64 0x6e000
        (roundDown (add64 (s.vma last).seg.vmEnd (100*pageSize)) pageSize)
      ({ task with entry := entry, heapVma := r.1 }, { s with
        kern := allocateRegions brk pageSize r.2
        heap := Function.update s.heap r.1 { s.heap r.1 with
          vmStart := brk, vmEnd := brk, vmMmsz := pageSize } })

/-- load_segment, with `n` rounds for the search in file_exists. -/
def loadSegment (start : Nat) (img : Bytes) (n : Nat) (task : TaskImage) (file : Bytes)
    (s : Loader) : Option (TaskImage × Loader) :=
  (fileExists img file n).bind fun offset =>
    if offset = 0 ∨ offset = 999 then some (task, s)
    else
      let elf := add64 start offset.toNat
      (archiveAt start img elf).bind fun ehdr =>
        (readLe 8 (ehdr.drop 24)).bind fun entry =>
          (readLe 8 (ehdr.drop 32)).bind fun phoff =>
            (readLe 2 (ehdr.drop 56)).bind fun phnum =>
              (loadHeaders start img elf phoff task.mm phnum 0 s).bind (setHeap task entry)

/-- The inner loop of fork_process: a word at a time, one byte further each time. -/
def copyWords (start : Nat) (img : Bytes) (seg : Segment) : Nat → Nat → Kernel → Option Kernel
  | 0, _, k => some k
  | n+1, j, k =>
    (archiveAt start img (add64 (add64 seg.vmFile seg.vmOffset) j)).bind fun src =>
      if src.length < 8 then none
      else (userStores (src.take 8) (add64 seg.vmStart j) k).bind
        (copyWords start img seg n (j+1))

/-- `while (NULL != parent_vm)` of fork_process, for a list of at most `n` nodes. -/
def copyAreas (start : Nat) (img : Bytes) (child : Nat) :
    Nat → Option Nat → Loader → Option Loader
  | _, none, s => some s
  | 0, some _, _ => none
  | n+1, some p, s =>
    (addArea child (s.vma p).seg s).bind fun t =>
      (copyWords start img (t.vma p).seg (t.vma p).seg.vmMmsz 0 t.kern).bind fun k =>
        copyAreas start img child n (t.vma p).vmNext { t with kern := k }

/-- The headers load_segment acts on: of those it looks at, the ones of type PT_LOAD. -/
def loadedHeaders (start : Nat) (img : Bytes) (elf phoff : Nat) :
    Nat → Nat → Option (List ProgramHeader)
  | 0, _ => some []
  | n+1, i =>
    ((archiveAt start img (add64 (add64 elf phoff) i)).bind programHeader).bind fun ph =>
      (loadedHeaders start img elf phoff n (i+1)).map fun phs =>
        if ph.pType = elfProgLoad then ph::phs else phs

/-- The areas load_segment makes for a file. -/
def fileSegments (start : Nat) (img : Bytes) (n : Nat) (file : Bytes) : Option (List Segment) :=
  (fileExists img file n).bind fun offset =>
    if offset = 0 ∨ offset = 999 then some []
    else
      let elf := add64 start offset.toNat
      (archiveAt start img elf).bind fun ehdr =>
        (readLe 8 (ehdr.drop 32)).bind fun phoff =>
          (readLe 2 (ehdr.drop 56)).bind fun phnum =>
            (loadedHeaders start img elf phoff phnum 0).map fun phs => phs.map (·.segment elf)

section Later

variable {start : Nat} {img : Bytes}

theorem allocateRegions_within (va len : Nat) (k : Kernel) :
    k.pools.Within (2^24) (allocateRegions va len k).pools := by
  have hfold (l : List Nat) (k : Kernel) : k.pools.Within (11*l.length) (l.foldl (fun k i =>
      (memmap (add64 va (i*pageSize)) pageSize usrPermBits .accessedNotPresent k).2) k).pools := by
    induction l generalizing k with
    | nil => exact ⟨0, le_refl _, 0, rfl⟩
    | cons i l ih =>
      exact ((memmap_within _ _ _ _).trans (ih _)).mono (by rw [List.length_cons]; omega)
  rw [allocateRegions]
  refine (hfold _ k).mono ?_
  rw [List.length_range]
  unfold pageSize
  omega

theorem allocateRegions_later (va len : Nat) (k : Kernel) :
    k.pools.Later (allocateRegions va len k).pools := (allocateRegions_within va len k).later

theorem userStores_pools {bs : Bytes} {va : Nat} {k t : Kernel} (h : userStores bs va k = some t) :
    t.pools = k.pools := by
  induction bs generalizing va k with
  | nil =>
    cases h
    rfl
  | cons b bs ih =>
    obtain ⟨p, -, h⟩ := Option.bind_eq_some_iff.mp h
    rw [ih h]
    exact pools_congr rfl rfl rfl rfl rfl

theorem fillSegment_pools {elf : Nat} {ph : ProgramHeader} {k t : Kernel}
    (h : fillSegment start img elf ph k = some t) : t.pools = k.pools := by
  obtain ⟨src, -, h⟩ := Option.bind_eq_some_iff.mp h
  split_ifs at h
  · obtain ⟨u, hu, h⟩ := Option.bind_eq_some_iff.mp h
    rw [userStores_pools h, userStores_pools hu]
  · obtain ⟨u, hu, h⟩ := Option.bind_eq_some_iff.mp h
    cases h
    exact userStores_pools hu

theorem addArea_later {a : Nat} {seg : Segment} {s t : Loader} (h : addArea a seg s = some t) :
    s.kern.pools.Later t.kern.pools := by
  obtain ⟨r, hr, rfl⟩ := Option.map_eq_some_iff.mp h
  rw [mallocVma] at hr
  split at hr
  · cases hr
    exact kmalloc_later s.kern vmaSize
  · obtain ⟨last, -, rfl⟩ := Option.map_eq_some_iff.mp hr
    exact Pools.Later.refl _

theorem loadProgram_later {elf a : Nat} {ph : ProgramHeader} {s t : Loader}
    (h : loadProgram start img elf a ph s = some t) : s.kern.pools.Later t.kern.pools := by
  obtain ⟨k, hk, h⟩ := Option.bind_eq_some_iff.mp h
  have hadd := addArea_later h
  rw [fillSegment_pools hk] at hadd
  exact (allocateRegions_later _ _ _).trans hadd

theorem loadHeaders_later {elf phoff a n i : Nat} {s t : Loader}
    (h : loadHeaders start img elf phoff a n i s = some t) :
    s.kern.pools.Later t.kern.pools := by
  induction n generalizing i s with
  | zero =>
    cases h
    exact Pools.Later.refl _
  | succ n ih =>
    obtain ⟨ph, -, h⟩ := Option.bind_eq_some_iff.mp h
    split_ifs at h
    · obtain ⟨u, hu, h⟩ := Option.bind_eq_some_iff.mp h
      exact (loadProgram_later hu).trans (ih h)
    · exact ih h

/-- The heap's page and its descriptor leave the lists alone. -/
theorem setHeap_frame {task : TaskImage} {entry : Nat} {s : Loader} {r : TaskImage × Loader}
    (h : setHeap task entry s = some r) :
    s.kern.pools.Within (2^25) r.2.kern.pools ∧ r.2.vma = s.vma ∧ r.2.mm = s.mm := by
  rw [setHeap] at h
  have hm := memmap_within 0 usrPermBits .newPage s.kern
  dsimp only at h
  generalize memmap 0 pageSize usrPermBits .newPage s.kern = m at h hm
  obtain ⟨head, -, h⟩ := Option.bind_eq_some_iff.mp h
  obtain ⟨last, -, h⟩ := Option.map_eq_some_iff.mp h
  have h2 := congrArg Prod.snd h
  dsimp only at h2
  rw [← h2]
  dsimp only
  exact ⟨(hm.trans (allocateRegions_within _ pageSize m.2)).mono (by norm_num), rfl, rfl⟩

theorem copyWords_pools {seg : Segment} {n j : Nat} {k t : Kernel}
    (h : copyWords start img seg n j k = some t) : t.pools = k.pools := by
  induction n generalizing j k with
  | zero =>
    cases h
    rfl
  | succ n ih =>
    obtain ⟨src, -, h⟩ := Option.bind_eq_some_iff.mp h
    split_ifs at h
    obtain ⟨u, hu, h⟩ := Option.bind_eq_some_iff.mp h
    rw [ih h, userStores_pools hu]

theorem copyAreas_later {child n : Nat} {p : Option Nat} {s t : Loader}
    (h : copyAreas start img child n p s = some t) : s.kern.pools.Later t.kern.pools := by
  induction n generalizing p s with
  | zero =>
    cases p with
    | none =>
      cases h
      exact Pools.Later.refl _
    | some p => cases h
  | succ n ih =>
    cases p with
    | none =>
      cases h
      exact Pools.Later.refl _
    | some p =>
      obtain ⟨u, hu, h⟩ := Option.bind_eq_some_iff.mp h
      obtain ⟨k, hk, h⟩ := Option.bind_eq_some_iff.mp h
      have hrest := ih h
      rw [copyWords_pools hk] at hrest
      exact (addArea_later hu).trans hrest

end Later

theorem loadedHeaders_of_loadHeaders {start : Nat} {img : Bytes} {elf phoff a n i : Nat}
    {s t : Loader} (h : loadHeaders start img elf phoff a n i s = some t) :
    ∃ phs, loadedHeaders start img elf phoff n i = some phs := by
  induction n generalizing i s with
  | zero => exact ⟨[], rfl⟩
  | succ n ih =>
    obtain ⟨ph, hph, h⟩ := Option.bind_eq_some_iff.mp h
    have hrest : ∃ phs, loadedHeaders start img elf phoff n (i+1) = some phs := by
      split_ifs at h
      · obtain ⟨u, -, h⟩ := Option.bind_eq_some_iff.mp h
        exact ih h
      · exact ih h
    obtain ⟨phs, hphs⟩ := hrest
    rw [loadedHeaders, hph, Option.bind_some, hphs]
    exact ⟨_, rfl⟩

/-- The part of load_segment that gets as far as the headers. -/
theorem loadSegment_cases {start : Nat} {img : Bytes} {n : Nat} {task : TaskImage} {file : Bytes}
    {s : Loader} {r : TaskImage × Loader} (h : loadSegment start img n task file s = some r) :
    (fileSegments start img n file = some [] ∧ r = (task, s)) ∨
    ∃ elf entry phoff phnum phs u,
      fileSegments start img n file = some (phs.map (·.segment elf)) ∧
      loadedHeaders start img elf phoff phnum 0 = some phs ∧
      loadHeaders start img elf phoff task.mm phnum 0 s = some u ∧
      setHeap task entry u = some r := by
  obtain ⟨offset, hoff, h⟩ := Option.bind_eq_some_iff.mp h
  rw [fileSegments, hoff, Option.bind_some]
  split_ifs at h ⊢
  · cases h
    exact Or.inl ⟨rfl, rfl⟩
  · dsimp only at h ⊢
    obtain ⟨ehdr, he, h⟩ := Option.bind_eq_some_iff.mp h
    obtain ⟨entry, -, h⟩ := Option.bind_eq_some_iff.mp h
    obtain ⟨phoff, hpo, h⟩ := Option.bind_eq_some_iff.mp h
    obtain ⟨phnum, hpn, h⟩ := Option.bind_eq_some_iff.mp h
    obtain ⟨u, hu, h⟩ := Option.bind_eq_some_iff.mp h
    obtain ⟨phs, hphs⟩ := loadedHeaders_of_loadHeaders hu
    refine Or.inr ⟨_, entry, phoff, phnum, phs, u, ?_, hphs, hu, h⟩
    rw [he, Option.bind_some, hpo, Option.bind_some, hpn, Option.bind_some, hphs, Option.map_some]

theorem loadSegment_later {start : Nat} {img : Bytes} {n : Nat} {task : TaskImage} {file : Bytes}
    {s : Loader} {r : TaskImage × Loader} (h : loadSegment start img n task file s = some r) :
    s.kern.pools.Later r.2.kern.pools := by
  rcases loadSegment_cases h with ⟨-, rfl⟩ | ⟨_, _, _, _, _, u, -, -, hu, hset⟩
  · exact Pools.Later.refl _
  · exact (loadHeaders_later hu).trans (setHeap_frame hset).1.later

end SBUnix
