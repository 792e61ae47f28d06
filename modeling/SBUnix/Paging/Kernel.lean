import SBUnix.Framework.ByteMemory
import SBUnix.Framework.RadixTable
import SBUnix.Framework.Word

namespace SBUnix

open ByteMemory Word

def pageSize : Nat := 0x1000
def numberOfPages : Nat := 24576
def numPt : Nat := 47
def virtBase : Nat := 0xFFFFFFFF80000000
def kernPermBits : Nat := 0x3
def usrPermBits : Nat := 0x7
def cowPermBits : Nat := 0x5
def startPaddrForUsrs : Nat := 0x5000000
def startVaddrForUsrs : Nat := 0x8eee70000
def tableSize : Nat := 512
def baseAddr : Nat := 0x0
def ptOff : Nat := 12
def pdOff : Nat := 21
def pdpOff : Nat := 30
def pmlOff : Nat := 39
def pdescPgInc : Nat := 0x100
def padding : Nat := 0x1FF
def pmlSameCtxt : Nat := 0x0
def pmlInc : Nat := 0x8000000000
def pmlMaxInc : Nat := 0xFF8000000000

/-- Size of `struct page_desc`: a bit-field word, padding, and the `next` pointer at 8. -/
def pageDescSize : Nat := 16

/-- What the allocators did, newest first. History only: no modelled function reads it. -/
inductive Event where
  /-- `get_page` gave out the page at this physical address during boot. -/
  | early (p : Nat)
  /-- `page_alloc` returned this kernel address. -/
  | page (p : Nat)
  /-- `freelist[k] = 0`. -/
  | slot (k : Nat)
  /-- `get_user_phys_addr(0)` handed out this frame. -/
  | frame (f : Nat)
  /-- `add_user_page` installed a PTE for the page of this virtual address. -/
  | pte (v : Nat)
  deriving DecidableEq, Repr

/-- The globals of paging.c and user_paging.c over physical memory. -/
structure Kernel where
  mem : Mem
  physbase : Nat
  physfree : Nat
  pdesc : Nat
  /-- `_pdesc` -/
  pdescPhys : Nat
  virtToPhyFlag : Bool
  freelist : Nat
  counter : Nat
  virtBase : Nat
  initVirtBase : Nat
  endAddr : Nat
  endBaseAddr : Nat
  flag : Bool
  globalPml4 : Nat
  globalPdp : Nat
  globalPd : Nat
  kpt : Nat
  pml4Shared : Nat
  pdpShared : Nat
  pdShared : Nat
  ptShared : Nat
  cr3 : Nat
  virtBaseForUser : Nat
  usrPhysAddr : Nat
  userAddr : Nat
  usrPml : Nat
  usrPdp : Nat
  usrPd : Nat
  usrPt : Nat
  difCtxt : Nat
  pmlSameCtxt : Nat
  log : List Event

/-- The state in which `start` leaves the machine: initialised globals, zeroed bss,
`mem_data` filled in, and RAM as the loader left it. -/
def Kernel.init (m : Mem) (physbase physfree : Nat) : Kernel where
  mem := m
  physbase := physbase
  physfree := physfree
  pdesc := 0
  pdescPhys := 0
  virtToPhyFlag := false
  freelist := 0
  counter := 0
  virtBase := SBUnix.virtBase
  initVirtBase := SBUnix.virtBase
  endAddr := 0
  endBaseAddr := 0
  flag := false
  globalPml4 := 0
  globalPdp := 0
  globalPd := 0
  kpt := 0
  pml4Shared := 0
  pdpShared := 0
  pdShared := 0
  ptShared := 0
  cr3 := 0
  virtBaseForUser := SBUnix.virtBase
  usrPhysAddr := startPaddrForUsrs
  userAddr := startVaddrForUsrs
  usrPml := 0
  usrPdp := 0
  usrPd := 0
  usrPt := 0
  difCtxt := 1
  pmlSameCtxt := SBUnix.pmlSameCtxt
  log := []

def getPtOffset (v : Nat) : Nat := (v >>> ptOff) &&& padding
def getPdOffset (v : Nat) : Nat := (v >>> pdOff) &&& padding
def getPdpOffset (v : Nat) : Nat := (v >>> pdpOff) &&& padding
def getPml4Offset (v : Nat) : Nat := (v >>> pmlOff) &&& padding

theorem getPtOffset_eq (v : Nat) : getPtOffset v = v / 2^12 % 512 := shift_field v 12 9
theorem getPdOffset_eq (v : Nat) : getPdOffset v = v / 2^21 % 512 := shift_field v 21 9
theorem getPdpOffset_eq (v : Nat) : getPdpOffset v = v / 2^30 % 512 := shift_field v 30 9
theorem getPml4Offset_eq (v : Nat) : getPml4Offset v = v / 2^39 % 512 := shift_field v 39 9

attribute [irreducible] getPtOffset getPdOffset getPdpOffset getPml4Offset

theorem add64_pageSize (a : Nat) (h : a + 4096 < 2^64) : add64 a pageSize = a + 4096 := by
  unfold add64 pageSize
  omega

/-- A kernel pointer is dereferenced through the direct map: `virtBase + p` is the byte
at physical `p`. -/
def direct (va : Nat) : Nat := sub64 va SBUnix.virtBase

/-- Entry `i` of the table in physical page `p`. -/
def entry (m : Mem) (p i : Nat) : Nat := load64 m (p + 8*i)

/-- The address in an entry: its low 12 bits masked off. -/
def pageOf (e : Nat) : Nat := (e >>> 12) <<< 12

theorem pageOf_eq (e : Nat) : pageOf e = e / 4096 * 4096 := by
  rw [pageOf, Nat.shiftRight_eq_div_pow, Nat.shiftLeft_eq]

/-- The processor goes on to the page an entry names when the present bit is set. -/
def next (e : Nat) : Option Nat := if e % 2 = 1 then some (pageOf e) else none

theorem next_add (a p : Nat) (ha : a % 4096 = 0) (hp : p < 4096) (h1 : p % 2 = 1) :
    next (a+p) = some a := by
  rw [next, if_pos (by omega), pageOf_eq]
  congr 1
  omega

theorem next_of_even (e : Nat) (h : e % 2 = 0) : next e = none := by
  rw [next, if_neg (by omega)]

theorem next_aligned {e q : Nat} (h : next e = some q) : q % 4096 = 0 := by
  rw [next] at h
  split_ifs at h
  cases h
  rw [pageOf_eq, Nat.mul_mod_left]

def pathOf (va : Nat) : List Nat :=
  [getPml4Offset va, getPdpOffset va, getPdOffset va, getPtOffset va]

/-- The entries of the four-level walk, or `none` at the first one not present. -/
def walk (m : Mem) (root va : Nat) : Option (List Nat) :=
  RadixTable.walk next (entry m) root (pathOf va)

/-- The physical address the processor comes to for a virtual one. -/
def translate (k : Kernel) (va : Nat) : Option Nat :=
  (walk k.mem k.cr3 va).map fun es => pageOf (es.getLastD 0) + va % pageSize

/-- A canonical address: bits 47 to 63 are equal. -/
def Canonical (va : Nat) : Prop := va < 2^47 ∨ 2^64 - 2^47 ≤ va ∧ va < 2^64

theorem pathOf_lt (va : Nat) : ∀ i ∈ pathOf va, i < 512 := by
  intro i hi
  simp only [pathOf, getPtOffset_eq, getPdOffset_eq, getPdpOffset_eq, getPml4Offset_eq,
    List.mem_cons, List.not_mem_nil, or_false] at hi
  omega

end SBUnix
