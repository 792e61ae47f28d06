import SBUnix.Paging.PageAlloc

namespace SBUnix

open ByteMemory Word

def endPaddrForUsrs : Nat := 0x6000000

/-- Loads cr3. -/
def tlbFlush (pt : Nat) (s : Kernel) : Kernel := { s with cr3 := pt }

/-- The next user_addr, which starts over below the kernel. -/
def nextUserAddr (limit a : Nat) : Nat :=
  if add64 a pageSize < limit then add64 a pageSize else startVaddrForUsrs

/-- The next usr_phys_addr. -/
def nextFrame (a : Nat) : Nat :=
  if add64 a pageSize < endPaddrForUsrs then add64 a pageSize else startPaddrForUsrs

/-- The next pml_same_ctxt. -/
def nextPml (p : Nat) : Nat :=
  if add64 p pmlInc = pmlMaxInc then pmlSameCtxt else add64 p pmlInc

attribute [irreducible] nextUserAddr nextFrame nextPml

def getUserVirtAddr (mapped : Bool) (s : Kernel) : Nat × Kernel :=
  if mapped then (sub64 s.userAddr pageSize, s)
  else (s.userAddr, { s with
    userAddr := nextUserAddr (add64 s.physbase s.virtBaseForUser) s.userAddr })

def getUserPhysAddr (mapped : Bool) (s : Kernel) : Nat × Kernel :=
  if mapped then (sub64 s.usrPhysAddr pageSize, s)
  else (s.usrPhysAddr, { s with
    usrPhysAddr := nextFrame s.usrPhysAddr, log := .frame s.usrPhysAddr :: s.log })

def incrementPml (s : Kernel) : Nat × Kernel :=
  (nextPml s.pmlSameCtxt, { s with pmlSameCtxt := nextPml s.pmlSameCtxt })

/-- The four entries of add_user_page, the leaf first. -/
def linkUser (m : Mem) (base virt frame pml pdp pd ptu perm : Nat) : Mem :=
  let m := setEntry m (direct ptu + 8*getPtOffset virt) frame perm
  let m := setEntry m (direct pd + 8*getPdOffset virt) (sub64 ptu base) perm
  let m := setEntry m (direct pdp + 8*getPdpOffset virt) (sub64 pd base) perm
  setEntry m (direct pml + 8*getPml4Offset virt) (sub64 pdp base) perm

def addUserPage (virt pdp pd ptu perm : Nat) (s : Kernel) : Kernel :=
  let r := getUserPhysAddr false s
  let s := r.2
  { s with
    mem := linkUser s.mem s.virtBaseForUser virt r.1 s.pml4Shared pdp pd ptu perm
    usrPt := ptu, usrPd := pd, usrPdp := pdp, usrPml := s.pml4Shared
    log := .pte virt :: s.log }

attribute [irreducible] addUserPage

/-- A round of `while (pages--)` that is not the last: map `page addr`, go on to the next. -/
def addAndAdvance (page : Nat → Nat) (pdp pd ptu perm : Nat) (r : Nat × Kernel) : Nat × Kernel :=
  (add64 r.1 pageSize, addUserPage (page r.1) pdp pd ptu perm r.2)

/-- `while (pages--)` around add_user_page: the last round leaves `addr` at its page. -/
def addUserPages (page : Nat → Nat) (pdp pd ptu perm n addr : Nat) (s : Kernel) : Nat × Kernel :=
  if n = 0 then (addr, s)
  else
    let r := (addAndAdvance page pdp pd ptu perm)^[n-1] (addr, s)
    (r.1, addUserPage (page r.1) pdp pd ptu perm r.2)

def setNewKpts (ptk virt pdp pd pml physAddr : Nat) (s : Kernel) : Kernel :=
  let base := s.virtBaseForUser
  let m := (mapPages tableSize s.mem (direct ptk) virt physAddr).1
  let m := setEntry m (direct pd + 8*getPdOffset virt) (sub64 ptk base) kernPermBits
  let m := setEntry m (direct pdp + 8*getPdpOffset virt) (sub64 pd base) kernPermBits
  let m := setEntry m (direct pml + 8*getPml4Offset virt) (sub64 pdp base) kernPermBits
  { s with mem := m, pdShared := pd, pdpShared := pdp, pml4Shared := pml }

attribute [irreducible] setNewKpts

/-- get_pt, get_pd and get_pdp: `(entry && 0x1) == 0x1` holds of any entry but 0, and the
address comes back with the permission bits still in it. -/
def getTable (lookup off : Nat) (s : Kernel) : Nat × Kernel :=
  let e := load64 s.mem (direct lookup + 8*off)
  if e ≠ 0 then (add64 e virtBase, s) else pageAlloc s

attribute [irreducible] getTable

def getPt (addr pd : Nat) : Kernel → Nat × Kernel := getTable pd (getPdOffset addr)
def getPd (addr pdp : Nat) : Kernel → Nat × Kernel := getTable pdp (getPdpOffset addr)
def getPdp (addr pml : Nat) : Kernel → Nat × Kernel := getTable pml (getPml4Offset addr)

/-- The three tables below the PML4 on the way to an address, as kernel pointers. -/
structure Tables where
  pdp : Nat
  pd : Nat
  pt : Nat

/-- get_pdp, get_pd and get_pt in a row, each rounded down to its page. -/
def findTables (addr : Nat) (s : Kernel) : Tables × Kernel :=
  let pdp := getPdp addr s.pml4Shared s
  let pd := getPd addr (roundDown pdp.1 pageSize) pdp.2
  let pt := getPt addr (roundDown pd.1 pageSize) pd.2
  (⟨roundDown pdp.1 pageSize, roundDown pd.1 pageSize, roundDown pt.1 pageSize⟩, pt.2)

attribute [irreducible] findTables

def Kernel.setUser (s : Kernel) (t : Tables) : Kernel :=
  { s with usrPdp := t.pdp, usrPd := t.pd, usrPt := t.pt }

/-- The body of memmap's cases that map pages: look the tables up for `addr`, then install
the pages. -/
def mapUser (page : Nat → Nat) (addr perm n : Nat) (s : Kernel) : Nat × Kernel :=
  let r := findTables addr s
  addUserPages page r.1.pdp r.1.pd r.1.pt perm n addr (r.2.setUser r.1)

/-- Rewrites one page's permissions. The upper entries are stored back without any. -/
def changePermissions (addr perm : Nat) (s : Kernel) : Kernel :=
  let r := findTables addr s
  let base := r.2.virtBaseForUser
  let a := direct r.1.pt + 8*getPtOffset addr
  let m := store64 r.2.mem a (pageOf (load64 r.2.mem a) ||| perm)
  let m := store64 m (direct r.1.pd + 8*getPdOffset addr) (sub64 r.1.pt base)
  let m := store64 m (direct r.1.pdp + 8*getPdpOffset addr) (sub64 r.1.pd base)
  let m := store64 m (direct s.pml4Shared + 8*getPml4Offset addr) (sub64 r.1.pdp base)
  { r.2.setUser r.1 with mem := m, usrPml := s.pml4Shared }

attribute [irreducible] changePermissions

/-- `*p = a; *p = (*p >> 12) << 12; *p |= USR_PERM_BITS;` -/
def setUserEntry (m : Mem) (p a : Nat) : Mem :=
  let m := store64 m p a
  let m := store64 m p (pageOf (load64 m p))
  store64 m p (load64 m p ||| usrPermBits)

/-- set_kernel_page_user. The last entry it writes is the PML4's own address. -/
def setKernelPageUser (addr : Nat) (s : Kernel) : Kernel :=
  let addr := pageOf addr
  let pml := s.pml4Shared
  let r := findTables addr s
  let base := r.2.virtBaseForUser
  let a := direct r.1.pt + 8*getPtOffset addr
  let m := setEntry r.2.mem a (load64 r.2.mem a) usrPermBits
  let m := setUserEntry m (direct r.1.pd + 8*getPdOffset addr) (sub64 r.1.pt base)
  let m := setUserEntry m (direct r.1.pdp + 8*getPdpOffset addr) (sub64 r.1.pd base)
  let m := setUserEntry m (direct pml + 8*getPml4Offset addr) (sub64 pml base)
  tlbFlush (sub64 pml base) { r.2 with mem := m }

/-- The `flags` of memmap; every other value is a context switch. -/
inductive MapFlag where
  | accessedNotPresent
  | setCowRw
  | rwToCow
  | newPage
  | contextSwitch
  | growsDown
  deriving DecidableEq, Repr

/-- `int pages`. -/
def pageCount (length : Nat) : Nat :=
  (length / pageSize + if length % pageSize = 0 then 0 else 1) % 2^32

/-- How often `while (i < pages)` goes round: not at all for a count that is negative as an
int. -/
def intRounds (n : Nat) : Nat := if n < 2^31 then n else 0

/-- A round of `while (i < pages)` of RW_TO_COW. -/
def changeAndAdvance (addr perm : Nat) (r : Nat × Kernel) : Nat × Kernel :=
  (r.1+1, changePermissions (roundDown (add64 addr (r.1*pageSize)) pageSize) perm r.2)

def changePages (addr perm n : Nat) (s : Kernel) : Kernel :=
  ((changeAndAdvance addr perm)^[n] (0, s)).2

/-- The default case of memmap: a new address space with the kernel's first 8 MiB and the
pages asked for. -/
def newContext (n : Nat) (s : Kernel) : Nat × Kernel :=
  let base := s.physbase
  let kernEnd := add64 s.physbase (tableSize*pageSize)
  let kernExtra := add64 s.physbase (2*tableSize*pageSize)
  let initPtk := pageAlloc s
  let ptkern := pageAlloc initPtk.2
  let ptk1 := pageAlloc ptkern.2
  let ptk2 := pageAlloc ptk1.2
  let ptu := pageAlloc ptk2.2
  let pd := pageAlloc ptu.2
  let pdp := pageAlloc pd.2
  let pml := pageAlloc pdp.2
  let addr := getUserVirtAddr false pml.2
  let s := setNewKpts initPtk.1 virtBase pdp.1 pd.1 pml.1 0 addr.2
  let s := setNewKpts ptkern.1 (add64 virtBase base) pdp.1 pd.1 pml.1 base s
  let s := setNewKpts ptk1.1 (add64 virtBase kernEnd) pdp.1 pd.1 pml.1 kernEnd s
  let s := setNewKpts ptk2.1 (add64 virtBase kernExtra) pdp.1 pd.1 pml.1 kernExtra s
  addUserPages id pdp.1 pd.1 ptu.1 usrPermBits n addr.1 s

/-- The switch of memmap. -/
def mapPagesFor (addr n prot : Nat) : MapFlag → Kernel → Nat × Kernel
  | .accessedNotPresent, s => mapUser (roundDown · pageSize) addr prot n s
  | .setCowRw, s =>
    let r := getUserVirtAddr false s
    mapUser (roundDown · pageSize) r.1 prot 1 r.2
  | .rwToCow, s => (addr, changePages addr prot (intRounds n) s)
  | .newPage, s =>
    if s.difCtxt = 0 then
      let r := getUserVirtAddr false s
      let p := incrementPml r.2
      mapUser id (add64 r.1 p.1) usrPermBits n p.2
    else
      let r := getUserVirtAddr false s
      mapUser id r.1 usrPermBits n r.2
  | .growsDown, s =>
    let r := getUserVirtAddr false s
    mapUser (sub64 · pageSize) r.1 usrPermBits n r.2
  | .contextSwitch, s => newContext n s

def memmap (addr length prot : Nat) (flag : MapFlag) (s : Kernel) : Nat × Kernel :=
  let r := mapPagesFor addr (pageCount length) prot flag s
  (r.1, tlbFlush (sub64 r.2.pml4Shared virtBase) r.2)

end SBUnix
