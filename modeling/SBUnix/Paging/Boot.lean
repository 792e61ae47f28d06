import SBUnix.Paging.Kernel

namespace SBUnix

open ByteMemory Word

/-- `pdesc->pd_free = v`: a one-bit field at the foot of the descriptor. -/
def setPdFree (m : Mem) (p v : Nat) : Mem := store m 1 p (load m 1 p / 2 * 2 + v)

def free : Nat := 0
def inUse : Nat := 1

/-- `*p = a; *p |= perm;` on a table entry. -/
def setEntry (m : Mem) (p a perm : Nat) : Mem :=
  let m := store64 m p a
  store64 m p (load64 m p ||| perm)

def getPage (s : Kernel) : Nat × Kernel :=
  let head := s.pdesc
  let m := setPdFree s.mem s.pdesc inUse
  let pdesc := load64 m (s.pdesc + 8)
  let m := store32 m (s.freelist + 4*s.counter) 0
  (head, { s with
    mem := m, pdesc := pdesc, counter := s.counter+1,
    log := .slot s.counter :: .early head :: s.log })

/-- The body of `while (i < TABLE_SIZE)` in set_end_addr, set_kpage_tables and
set_new_kpts, `n` times: one PTE a round, `addr` and `virt` both advancing by a page.
Returns the final `addr`, which set_end_addr keeps in a global. -/
def mapPages : Nat → Mem → Nat → Nat → Nat → Mem × Nat
  | 0, m, _, _, addr => (m, addr)
  | n+1, m, pt, virt, addr =>
      mapPages n (setEntry m (pt + 8*getPtOffset virt) addr kernPermBits) pt
        (add64 virt pageSize) (add64 addr pageSize)

/-- The loop of set_initial_addr, which stops on the address instead of a count. -/
def mapInitial (limit : Nat) (m : Mem) (pt virt base : Nat) : Mem :=
  if base ≤ limit then
    mapInitial limit (setEntry m (pt + 8*getPtOffset virt) base kernPermBits) pt
      (add64 virt pageSize) (base + pageSize)
  else m
termination_by limit + 1 - base
decreasing_by simp only [pageSize]; omega

/-- Hang `pt` into the directory, the directory into the pointer table and that into
the PML4, all with kernel permissions. -/
def linkKern (m : Mem) (pml pdp pd pt virt : Nat) : Mem :=
  let m := setEntry m (pd + 8*getPdOffset virt) pt kernPermBits
  let m := setEntry m (pdp + 8*getPdpOffset virt) pd kernPermBits
  setEntry m (pml + 8*getPml4Offset virt) pdp kernPermBits

def setEndAddr (pt : Nat) (s : Kernel) : Kernel :=
  let s := if s.flag then s else { s with endBaseAddr := s.endAddr, flag := true }
  let virt := add64 s.initVirtBase s.endBaseAddr
  let r := mapPages tableSize s.mem pt virt s.endBaseAddr
  let m := linkKern r.1 s.globalPml4 s.globalPdp s.globalPd pt virt
  let s := { s with
    mem := m, endBaseAddr := r.2,
    pml4Shared := s.globalPml4, pdpShared := s.globalPdp, pdShared := s.globalPd }
  let g := getPage s
  { g.2 with ptShared := g.1 }

def setInitialAddr (pt : Nat) (s : Kernel) : Kernel :=
  let m := mapInitial (sub64 s.physbase pageSize) s.mem pt s.initVirtBase baseAddr
  { s with mem := linkKern m s.globalPml4 s.globalPdp s.globalPd pt s.initVirtBase }

/-- `pt_max[count] = __get_page()` for each count. -/
def getPages : Nat → Kernel → List Nat × Kernel
  | 0, s => ([], s)
  | n+1, s =>
      let g := getPage s
      let r := getPages n g.2
      (g.1 :: r.1, r.2)

def Kernel.setMem (s : Kernel) (m : Mem) : Kernel := { s with mem := m }

def Kernel.setGlobals (s : Kernel) (pml4 pdp pd pt : Nat) : Kernel :=
  { s with globalPml4 := pml4, globalPdp := pdp, globalPd := pd, kpt := pt }

/-- `end_addr = physbase + 2 MiB`, then set_end_addr on each of `pt_max`. -/
def setEndAddrs (ptMax : List Nat) (s : Kernel) : Kernel :=
  ptMax.foldl (fun s pt => setEndAddr pt s)
    { s with endAddr := add64 s.physbase (tableSize * pageSize) }

def setKpageTables (pml4 : Nat) (s : Kernel) : Nat × Kernel :=
  let base := s.physbase
  let virt := s.virtBase
  let pdp := getPage s
  let pd := getPage pdp.2
  let pt := getPage pd.2
  let ptInit := getPage pt.2
  let ptMax := getPages numPt ptInit.2
  let s := setInitialAddr ptInit.1 (ptMax.2.setGlobals pml4 pdp.1 pd.1 pt.1)
  let s := setEndAddrs ptMax.1 s
  let r := mapPages tableSize s.mem pt.1 virt base
  (pml4, s.setMem (linkKern r.1 pml4 pdp.1 pd.1 s.kpt virt))

def Kernel.raiseVirtBase (s : Kernel) : Kernel :=
  { s with virtBase := add64 s.virtBase s.physbase }

def setKernelPages (s : Kernel) : Nat × Kernel :=
  let pml4 := getPage s
  setKpageTables pml4.1 pml4.2.raiseVirtBase

def loadCr3 (lcr3 : Nat) (s : Kernel) : Kernel := { s with pml4Shared := lcr3, cr3 := lcr3 }

def setPml4 (s : Kernel) : Kernel :=
  let r := setKernelPages s
  loadCr3 r.1 r.2

/-- The loop of set_pages with `left` descriptors to go; the last one ends the list. -/
def setPagesLoop : Nat → Mem → Nat → Mem
  | 0, m, _ => m
  | 1, m, p => store64 m (p+8) 0
  | left+2, m, p =>
      let m := store64 m (p+8) (p + pageDescSize*pdescPgInc)
      let m := setPdFree m p free
      setPagesLoop (left+1) m (load64 m (p+8))

def setPages (page : Nat) (s : Kernel) : Kernel :=
  { s with mem := setPagesLoop numberOfPages s.mem page, pdesc := page }

/-- `*freelist = 1; freelist += 1;` -/
def fillFreelist : Nat → Mem → Nat → Mem × Nat
  | 0, m, p => (m, p)
  | n+1, m, p => fillFreelist n (store32 m p 1) (p+4)

/-- The tail of set_free_list: from here on the kernel runs on its direct map. -/
def Kernel.goVirtual (s : Kernel) (address : Nat) : Kernel :=
  { s with
    pml4Shared := add64 s.pml4Shared SBUnix.virtBase
    pdpShared := add64 s.pdpShared SBUnix.virtBase
    pdShared := add64 s.pdShared SBUnix.virtBase
    freelist := add64 s.initVirtBase address }

def setFreeList (s : Kernel) : Kernel :=
  let r := fillFreelist numberOfPages s.mem s.physfree
  let t := setPages r.2 { s with mem := r.1, freelist := r.2 }
  (setPml4 t).goVirtual s.physfree

/-- The machine after `set_free_list`, from RAM contents `m`. -/
def booted (m : Mem) (physfree : Nat) : Kernel :=
  setFreeList (Kernel.init m 0x200000 physfree)

end SBUnix
