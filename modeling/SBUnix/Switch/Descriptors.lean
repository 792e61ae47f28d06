import SBUnix.Framework.Rings

namespace SBUnix

open Rings

def gdtCs : BitVec 64 := 0x00180000000000
def gdtDs : BitVec 64 := 0x00100000000000
def gdtDpl0 : BitVec 64 := 0x00000000000000
def gdtDpl3 : BitVec 64 := 0x00600000000000
def gdtP : BitVec 64 := 0x00800000000000
def gdtL : BitVec 64 := 0x20000000000000
def gdtW : BitVec 64 := 0x00020000000000

def maxGdt : Nat := 32

/-- The initialiser of `gdt[MAX_GDT]`. -/
def gdt : List (BitVec 64) :=
  [0,
    gdtCs ||| gdtP ||| gdtDpl0 ||| gdtL,
    gdtDs ||| gdtP ||| gdtW ||| gdtDpl0,
    0,
    gdtDs ||| gdtP ||| gdtW ||| gdtDpl3,
    gdtCs ||| gdtP ||| gdtDpl3 ||| gdtL,
    0, 0] ++ List.replicate (maxGdt-8) 0

/-- The bit fields of a descriptor in two entries of the table, the lowest first. -/
structure SysSegmentDescriptor where
  sdLolimit : BitVec 16
  sdLobase : BitVec 24
  sdType : BitVec 5
  sdDpl : BitVec 2
  sdP : BitVec 1
  sdHilimit : BitVec 4
  sdXx1 : BitVec 3
  sdGran : BitVec 1
  sdHibase : BitVec 40
  sdXx2 : BitVec 8
  sdZero : BitVec 5
  sdXx3 : BitVec 19

/-- The first entry, which ends within `sd_hibase`. -/
def SysSegmentDescriptor.low (d : SysSegmentDescriptor) : BitVec 64 :=
  d.sdHibase.extractLsb' 0 8 ++ d.sdGran ++ d.sdXx1 ++ d.sdHilimit ++ d.sdP ++ d.sdDpl ++
    d.sdType ++ d.sdLobase ++ d.sdLolimit

def SysSegmentDescriptor.high (d : SysSegmentDescriptor) : BitVec 64 :=
  d.sdXx3 ++ d.sdZero ++ d.sdXx2 ++ d.sdHibase.extractLsb' 8 32

def sizeofTss : Nat := 104

/-- What init_gdt writes into entries 6 and 7; the fields it leaves alone are zero. -/
def tssDescriptor (tss : BitVec 64) : SysSegmentDescriptor where
  sdLolimit := BitVec.ofNat 16 (sizeofTss-1)
  sdLobase := tss.setWidth 24
  sdType := 9
  sdDpl := 0
  sdP := 1
  sdHilimit := 0
  sdXx1 := 0
  sdGran := 0
  sdHibase := (tss >>> 24).setWidth 40
  sdXx2 := 0
  sdZero := 0
  sdXx3 := 0

def initGdt (tss : BitVec 64) : List (BitVec 64) :=
  (gdt.set 6 (tssDescriptor tss).low).set 7 (tssDescriptor tss).high

/-- `struct int_vec_t` -/
structure IntVec where
  offset1 : BitVec 16
  selector : BitVec 16
  ist : BitVec 8
  typeAttr : BitVec 8
  offset2 : BitVec 16
  offset3 : BitVec 32
  zero : BitVec 32
  deriving DecidableEq

def IntVec.clear : IntVec := ⟨0, 0, 0, 0, 0, 0, 0⟩

def IntVec.words (g : IntVec) : BitVec 64 × BitVec 64 :=
  (g.offset2 ++ g.typeAttr ++ g.ist ++ g.selector ++ g.offset1, g.zero ++ g.offset3)

def ivtSetGate (ivt : BitVec 8 → IntVec) (i : BitVec 8) (offset : BitVec 64) (selector : BitVec 16)
    (flags : BitVec 8) : BitVec 8 → IntVec :=
  Function.update ivt i
    { offset1 := (offset &&& 0xFFFF).setWidth 16
      offset2 := ((offset >>> 16) &&& 0xFFFF).setWidth 16
      offset3 := ((offset >>> 32) &&& 0xFFFFFFFF).setWidth 32
      selector := selector
      typeAttr := flags
      ist := 0x0
      zero := 0x0 }

/-- The entry points of idt.s. -/
inductive Stub where
  | isr0 | isr10 | isr14 | isr128 | irq0 | irq1
  deriving DecidableEq, Repr

/-- `ivt` after the calls of ivt_set_gate in set_up_idt; it is zero before. -/
def setUpIdt (address : Stub → BitVec 64) : BitVec 8 → IntVec :=
  let ivt := ivtSetGate (fun _ => .clear) 0 (address .isr0) 0x08 0x8E
  let ivt := ivtSetGate ivt 10 (address .isr10) 0x08 0x8E
  let ivt := ivtSetGate ivt 14 (address .isr14) 0x08 0x8E
  let ivt := ivtSetGate ivt 128 (address .isr128) 0x08 0xEE
  let ivt := ivtSetGate ivt 32 (address .irq0) 0x08 0x8E
  ivtSetGate ivt 33 (address .irq1) 0x08 0x8E

/-- `tss` in memory: everything is zero until set_tss_rsp. -/
def tssClear : TaskState := ⟨fun _ => 0, fun _ => 0⟩

def setTssRsp (rsp : BitVec 64) (s : TaskState) : TaskState :=
  { s with rsp := Function.update s.rsp 0 rsp }

/-- The task segment that `ltr` takes from the table: an available one of 64 bits. -/
def taskSegment (gdt : List (BitVec 64)) (selector : BitVec 16) : Option TaskSegment :=
  let i := (selector >>> 3).toNat
  gdt[i]?.bind fun low => gdt[i+1]?.bind fun high =>
    let d := TaskSegment.ofWords low high
    if d.present ∧ d.kind = 9 then some d else none

/-- The tables of the processor once boot has set them up. `tssAt` gives the task state segments
in memory by their address. -/
def bootTables (tss : BitVec 64) (tssAt : BitVec 64 → Option TaskState)
    (address : Stub → BitVec 64) : Option SystemTables :=
  (taskSegment (initGdt tss) 0x30).bind fun d => (tssAt d.base).map fun s =>
    ⟨initGdt tss, fun v => (setUpIdt address v).words, s⟩

section Fields

theorem extractLsb'_self {n : Nat} (x : BitVec n) : x.extractLsb' 0 n = x := by
  rw [← BitVec.setWidth_eq_extractLsb' le_rfl, BitVec.setWidth_eq]

theorem setWidth_ushiftRight (x : BitVec 64) (i n : Nat) :
    (x >>> i).setWidth n = x.extractLsb' i n := by
  apply BitVec.eq_of_getLsbD_eq
  intro j hj
  simp [hj]

/-- What the processor reads out of the bit fields. -/
theorem SysSegmentDescriptor.ofWords (d : SysSegmentDescriptor) :
    TaskSegment.ofWords d.low d.high =
      ⟨d.sdHibase ++ d.sdLobase, d.sdHilimit ++ d.sdLolimit, d.sdType, d.sdP.getLsbD 0⟩ := by
  have hbase : d.high.extractLsb' 0 32 ++ d.low.extractLsb' 56 8 = d.sdHibase := by
    simp (disch := omega) only [low, high, BitVec.extractLsb'_append_eq_of_le,
      BitVec.extractLsb'_append_eq_of_add_le]
    exact (congrArg₂ _ (extractLsb'_self _) (extractLsb'_self _)).trans
      BitVec.extractLsb'_append_extractLsb'
  have hlobase : d.low.extractLsb' 16 24 = d.sdLobase := by
    simp (disch := omega) only [low, BitVec.extractLsb'_append_eq_of_le,
      BitVec.extractLsb'_append_eq_of_add_le]
    exact extractLsb'_self _
  have hlimit : d.low.extractLsb' 48 4 ++ d.low.extractLsb' 0 16 = d.sdHilimit ++ d.sdLolimit := by
    simp (disch := omega) only [low, BitVec.extractLsb'_append_eq_of_le,
      BitVec.extractLsb'_append_eq_of_add_le]
    exact congrArg₂ _ (extractLsb'_self _) (extractLsb'_self _)
  have hkind : d.low.extractLsb' 40 5 = d.sdType := by
    simp (disch := omega) only [low, BitVec.extractLsb'_append_eq_of_le,
      BitVec.extractLsb'_append_eq_of_add_le]
    exact extractLsb'_self _
  have hp : d.low.getLsbD 47 = d.sdP.getLsbD 0 := by
    simp only [low, BitVec.getLsbD_append]
    rfl
  rw [TaskSegment.ofWords, hbase, hlobase, hlimit, hkind, hp]

theorem IntVec.ofWords (g : IntVec) :
    Gate.ofWords g.words.1 g.words.2 =
      ⟨g.offset3 ++ g.offset2 ++ g.offset1, g.selector, g.ist.extractLsb' 0 3,
        g.typeAttr.extractLsb' 0 5, g.typeAttr.extractLsb' 5 2, g.typeAttr.getLsbD 7⟩ := by
  have hoffset : g.words.2.extractLsb' 0 32 ++ g.words.1.extractLsb' 48 16 ++
      g.words.1.extractLsb' 0 16 = g.offset3 ++ g.offset2 ++ g.offset1 := by
    simp (disch := omega) only [words, BitVec.extractLsb'_append_eq_of_le,
      BitVec.extractLsb'_append_eq_of_add_le]
    exact congrArg₂ _ (congrArg₂ _ (extractLsb'_self _) (extractLsb'_self _)) (extractLsb'_self _)
  have hselector : g.words.1.extractLsb' 16 16 = g.selector := by
    simp (disch := omega) only [words, BitVec.extractLsb'_append_eq_of_le,
      BitVec.extractLsb'_append_eq_of_add_le]
    exact extractLsb'_self _
  have hist : g.words.1.extractLsb' 32 3 = g.ist.extractLsb' 0 3 := by
    simp (disch := omega) only [words, BitVec.extractLsb'_append_eq_of_le,
      BitVec.extractLsb'_append_eq_of_add_le]
  have hkind : g.words.1.extractLsb' 40 5 = g.typeAttr.extractLsb' 0 5 := by
    simp (disch := omega) only [words, BitVec.extractLsb'_append_eq_of_le,
      BitVec.extractLsb'_append_eq_of_add_le]
  have hdpl : g.words.1.extractLsb' 45 2 = g.typeAttr.extractLsb' 5 2 := by
    simp (disch := omega) only [words, BitVec.extractLsb'_append_eq_of_le,
      BitVec.extractLsb'_append_eq_of_add_le]
  have hpresent : g.words.1.getLsbD 47 = g.typeAttr.getLsbD 7 := by
    simp only [words, BitVec.getLsbD_append]
    rfl
  rw [Gate.ofWords, hoffset, hselector, hist, hkind, hdpl, hpresent]

/-- A mask of `n` ones before the cut to `n` bits does nothing. -/
theorem setWidth_and_ones (x : BitVec 64) {n : Nat} (hn : n < 64) :
    (x &&& BitVec.ofNat 64 (2^n-1)).setWidth n = x.setWidth n := by
  have hlt : 2^n - 1 < 2^64 := by
    have := Nat.pow_lt_pow_right (a := 2) (by omega) hn
    omega
  apply BitVec.eq_of_toNat_eq
  rw [BitVec.toNat_setWidth, BitVec.toNat_setWidth, BitVec.toNat_and, BitVec.toNat_ofNat,
    Nat.mod_eq_of_lt hlt, Nat.and_two_pow_sub_one_eq_mod, Nat.mod_mod]

/-- An address cut into three comes back. -/
theorem gate_offset (x : BitVec 64) :
    (((x >>> 32) &&& 0xFFFFFFFF).setWidth 32 ++ ((x >>> 16) &&& 0xFFFF).setWidth 16 ++
      (x &&& 0xFFFF).setWidth 16 : BitVec 64) = x := by
  have h1 := setWidth_and_ones (x >>> 32) (n := 32) (by omega)
  have h2 := setWidth_and_ones (x >>> 16) (n := 16) (by omega)
  have h3 := (setWidth_and_ones x (n := 16) (by omega)).trans
    (BitVec.setWidth_eq_extractLsb' (by omega))
  rw [setWidth_ushiftRight] at h1 h2
  refine (congrArg₂ _ (congrArg₂ _ h1 h2) h3).trans ?_
  rw [BitVec.extractLsb'_append_extractLsb'_eq_extractLsb' (by omega),
    BitVec.extractLsb'_append_extractLsb'_eq_extractLsb' (by omega)]
  exact extractLsb'_self x

theorem ivtSetGate_gate (ivt : BitVec 8 → IntVec) (i : BitVec 8) (offset : BitVec 64)
    (selector : BitVec 16) (flags : BitVec 8) :
    Gate.ofWords (ivtSetGate ivt i offset selector flags i).words.1
        (ivtSetGate ivt i offset selector flags i).words.2 =
      ⟨offset, selector, 0, flags.extractLsb' 0 5, flags.extractLsb' 5 2, flags.getLsbD 7⟩ := by
  rw [IntVec.ofWords, ivtSetGate, Function.update_self]
  simp only [gate_offset]
  rfl

theorem ivtSetGate_of_ne {v i : BitVec 8} (h : v ≠ i) (ivt : BitVec 8 → IntVec) (offset : BitVec 64)
    (selector : BitVec 16) (flags : BitVec 8) : ivtSetGate ivt i offset selector flags v = ivt v :=
  Function.update_of_ne h _ _

theorem tssDescriptor_ofWords (tss : BitVec 64) :
    TaskSegment.ofWords (tssDescriptor tss).low (tssDescriptor tss).high = ⟨tss, 103, 9, true⟩ := by
  rw [SysSegmentDescriptor.ofWords]
  have hbase : (tssDescriptor tss).sdHibase ++ (tssDescriptor tss).sdLobase = tss := by
    rw [tssDescriptor, setWidth_ushiftRight, BitVec.setWidth_eq_extractLsb' (by omega)]
    exact BitVec.extractLsb'_append_extractLsb'
  rw [hbase]
  simp [tssDescriptor, sizeofTss]

end Fields

def Stub.vector : Stub → BitVec 8
  | .isr0 => 0
  | .isr10 => 10
  | .isr14 => 14
  | .isr128 => 128
  | .irq0 => 32
  | .irq1 => 33

/-- The ring a program may be in to call the stub by `int`. -/
def Stub.dpl : Stub → BitVec 2
  | .isr128 => 3
  | _ => 0

/-- The tables that boot leaves, with the task state segment at hand. -/
def tablesOf (tss : BitVec 64) (address : Stub → BitVec 64) (s : TaskState) : SystemTables :=
  ⟨initGdt tss, fun v => (setUpIdt address v).words, s⟩

section Boot

variable (tss : BitVec 64) (address : Stub → BitVec 64) (s : TaskState)

/-- ltr finds the task state segment that init_gdt has written the address of. -/
theorem bootTables_eq {tssAt : BitVec 64 → Option TaskState} (h : tssAt tss = some s) :
    bootTables tss tssAt address = some (tablesOf tss address s) := by
  have hseg : taskSegment (initGdt tss) 0x30 = some ⟨tss, 103, 9, true⟩ := by
    have hw := tssDescriptor_ofWords tss
    simp [taskSegment, initGdt, gdt, hw]
  rw [bootTables, hseg, Option.bind_some, h]
  rfl

theorem tablesOf_gate (b : Stub) :
    (tablesOf tss address s).gate b.vector = ⟨address b, 8, 0, interruptGate, b.dpl, true⟩ := by
  have h8E : (0x8E : BitVec 8).extractLsb' 0 5 = 14 ∧ (0x8E : BitVec 8).extractLsb' 5 2 = 0 ∧
      (0x8E : BitVec 8).getLsbD 7 := by decide
  have hEE : (0xEE : BitVec 8).extractLsb' 0 5 = 14 ∧ (0xEE : BitVec 8).extractLsb' 5 2 = 3 ∧
      (0xEE : BitVec 8).getLsbD 7 := by decide
  cases b <;>
    simp (disch := decide) only [SystemTables.gate, tablesOf, setUpIdt, Stub.vector, Stub.dpl,
      ivtSetGate_of_ne, ivtSetGate_gate, h8E, hEE, interruptGate]

theorem tablesOf_gate_clear {v : BitVec 8} (h : ∀ b : Stub, v ≠ b.vector) :
    (tablesOf tss address s).gate v = ⟨0, 0, 0, 0, 0, false⟩ := by
  have h0 : v ≠ 0 := h .isr0
  have h10 : v ≠ 10 := h .isr10
  have h14 : v ≠ 14 := h .isr14
  have h128 : v ≠ 128 := h .isr128
  have h32 : v ≠ 32 := h .irq0
  have h33 : v ≠ 33 := h .irq1
  have hclear : setUpIdt address v = .clear := by
    simp only [setUpIdt, ivtSetGate_of_ne h0, ivtSetGate_of_ne h10, ivtSetGate_of_ne h14,
      ivtSetGate_of_ne h128, ivtSetGate_of_ne h32, ivtSetGate_of_ne h33]
  rw [SystemTables.gate, tablesOf, IntVec.ofWords, hclear]
  rfl

end Boot

end SBUnix
