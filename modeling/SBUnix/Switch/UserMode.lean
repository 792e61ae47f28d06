import SBUnix.Switch.Interrupts

namespace SBUnix

open StackMachine Rings Simulation

section Selectors

variable {tss : BitVec 64} {address : Stub → BitVec 64} {s : TaskState}

/-- The descriptor of the task state segment is neither code nor data, in both its halves. -/
theorem tssDescriptor_system (tss : BitVec 64) :
    (Descriptor.ofWord (tssDescriptor tss).low).codeOrData = false ∧
    (Descriptor.ofWord (tssDescriptor tss).high).codeOrData = false := by
  constructor
  · simp only [Descriptor.ofWord, SysSegmentDescriptor.low, BitVec.getLsbD_append]
    simp [tssDescriptor]
  · simp only [Descriptor.ofWord, SysSegmentDescriptor.high, BitVec.getLsbD_append]
    simp [tssDescriptor]

/-- Of the whole table, two descriptors are for programs: the fourth and the fifth. -/
theorem initGdt_segments {i : Nat} {w : BitVec 64} (hw : (initGdt tss)[i]? = some w)
    (hs : (Descriptor.ofWord w).codeOrData) :
    (Descriptor.ofWord w).conforming = false ∧
    ((Descriptor.ofWord w).dpl = 3 → i = if (Descriptor.ofWord w).executable then 5 else 4) := by
  obtain ⟨h6, h7⟩ := tssDescriptor_system tss
  have hi : i < 32 := (List.getElem?_eq_some_iff.mp hw).1
  by_cases hi6 : i = 6
  · subst hi6
    obtain rfl := Option.some.inj hw
    exact absurd hs (by rw [h6]; simp)
  by_cases hi7 : i = 7
  · subst hi7
    obtain rfl := Option.some.inj hw
    exact absurd hs (by rw [h7]; simp)
  rw [initGdt, List.getElem?_set_ne (by omega), List.getElem?_set_ne (by omega)] at hw
  clear h6 h7 hi6 hi7
  revert hs
  interval_cases i <;> (obtain rfl := Option.some.inj hw; decide)

/-- The table's index, its kind and the ring make up a selector. -/
theorem selector_eq {x : BitVec 16} {i : Nat} (hi : (x >>> 3).toNat = i)
    (ht : x.getLsbD 2 = false) (hr : rpl x = 3) : x = BitVec.ofNat 16 (8*i+3) := by
  have hdiv : x.toNat / 8 = i := by simpa [Nat.shiftRight_eq_div_pow] using hi
  have hring : x.toNat % 4 = 3 := by
    have := congrArg BitVec.toNat hr
    simpa [rpl, BitVec.extractLsb'_toNat] using this
  have hkind : x.toNat / 4 % 2 ≠ 1 := by
    simpa [BitVec.getLsbD, Nat.testBit_eq_decide_div_mod_eq] using ht
  apply BitVec.eq_of_toNat_eq
  rw [BitVec.toNat_ofNat]
  omega

theorem segment_some {t : SystemTables} {x : BitVec 16} {g : Descriptor} (h : t.segment x = some g) :
    x.getLsbD 2 = false ∧ ∃ w, t.gdt[(x >>> 3).toNat]? = some w ∧ Descriptor.ofWord w = g := by
  rw [SystemTables.segment] at h
  split_ifs at h with hx
  obtain ⟨w, hw, rfl⟩ := Option.map_eq_some_iff.mp h
  exact ⟨by simpa using (not_or.mp hx).2, w, hw, rfl⟩

/-- A program can be in no code segment but its own. -/
theorem returnsTo_ring3 {cs : BitVec 16} (h : (tablesOf tss address s).returnsTo 3 cs) :
    cs = 0x2B := by
  rw [SystemTables.returnsTo] at h
  cases hseg : (tablesOf tss address s).segment cs with
  | none => simp [hseg] at h
  | some g =>
    obtain ⟨hti, w, hw, rfl⟩ := segment_some hseg
    rw [hseg] at h
    simp only [Bool.and_eq_true, decide_eq_true_eq, Descriptor.isCode] at h
    obtain ⟨⟨⟨⟨⟨⟨hs, hx⟩, -⟩, -⟩, -⟩, hle⟩, hdpl⟩ := h
    obtain ⟨hconf, hindex⟩ := initGdt_segments hw hs
    have hring : rpl cs = 3 := by
      bv_omega
    simp only [hconf, Bool.false_eq_true, if_false, beq_iff_eq] at hdpl
    have hi := hindex (hdpl.trans hring)
    rw [if_pos hx] at hi
    exact selector_eq hi hti hring

theorem stacksOn_ring3 {ss : BitVec 16} (h : (tablesOf tss address s).stacksOn 3 ss) :
    ss = 0x23 := by
  rw [SystemTables.stacksOn] at h
  split_ifs at h
  · simp at h
  cases hseg : (tablesOf tss address s).segment ss with
  | none => simp [hseg] at h
  | some g =>
    obtain ⟨hti, w, hw, rfl⟩ := segment_some hseg
    rw [hseg] at h
    simp only [Bool.and_eq_true, beq_iff_eq, Descriptor.isStack, Bool.not_eq_true'] at h
    obtain ⟨⟨⟨⟨⟨hs, hx⟩, -⟩, -⟩, hdpl⟩, hring⟩ := h
    have hi := (initGdt_segments hw hs).2 hdpl
    rw [if_neg (by simp [hx])] at hi
    exact selector_eq hi hti hring

end Selectors

section Start

variable {q : Processor Reg}

/-- The words on the stack at the iretq of jmp_usrmode. -/
theorem jmpUsrmode_words (function stack flags : BitVec 64) (c : Cpu Reg) {j : Nat} {v : BitVec 64}
    (hj : [function, 0x2B, flags ||| 0x200, stack, 0x23][j]? = some v) :
    let d := pop .rax (pushWord flags (pushWords [0x23, stack] c))
    word (pushWords [d.reg .rax ||| 0x200, 0x2B, function]
      { d with reg := Function.update d.reg .rax (d.reg .rax ||| 0x200) }) j = v := by
  intro d
  obtain ⟨-, hreg, hwords⟩ := pop_pushWord Reg.rax flags (pushWords [0x23, stack] c)
  have hrax : d.reg .rax = flags := by
    rw [hreg, Function.update_self]
  rw [hrax]
  have hlt : j < 5 := (List.getElem?_eq_some_iff.mp hj).1
  rcases Nat.lt_or_ge j 3 with hlow | hhigh
  · apply pushWords_word (by simp)
    rw [← hj]
    interval_cases j <;> rfl
  · obtain ⟨i, rfl⟩ : ∃ i, j = 3+i := ⟨j-3, by omega⟩
    refine (pushWords_word_above [flags ||| 0x200, 0x2B, function] _ i (by
      simp only [List.length_cons, List.length_nil]
      omega)).trans ?_
    refine (hwords i (by omega)).trans ?_
    apply pushWords_word (by simp)
    rw [← hj]
    have hi : i < 2 := by omega
    interval_cases i <;> rfl

/-- jmp_usrmode starts the program in ring 3, with IF set in the word that was pushed. -/
theorem jmpUsrmode_enters (hcpl : q.cpl = 0) (hnt : q.flags.getLsbD flagNT = false)
    (function stack tss : BitVec 64) (address : Stub → BitVec 64) (s : TaskState) :
    ∃ r, jmpUsrmode (tablesOf tss address s) function stack q = some r ∧ r.ip = function ∧
      r.sp = stack ∧ r.cs = 0x2B ∧ r.ss = 0x23 ∧ r.flags = q.flags &&& ~~~0x200 ||| 0x200 := by
  have hflags : (q.flags &&& ~~~0x200 ||| 0x200).getLsbD flagNT = false := by
    simpa [flagNT] using hnt
  let target : Processor Reg := ⟨⟨q.reg, stack, function, q.mem⟩, 0x2B, 0x23,
    q.flags &&& ~~~0x200 ||| 0x200⟩
  refine ⟨_, iretq_saved (p := target) hcpl hflags tablesOf_program.1 tablesOf_program.2 ?_,
    rfl, rfl, rfl, rfl, rfl⟩
  intro j v hj
  exact jmpUsrmode_words function stack (q.flags &&& ~~~0x200)
    { q.toCpu with reg := Function.update (Function.update q.reg .rbx stack) .rax 0x23 } hj

end Start

/-- The kernel's own code, wherever it is: in ring 0, with NT and IOPL clear as at boot. -/
structure InKernelMode (q : Processor Reg) : Prop where
  cpl : q.cpl = 0
  nested : q.flags.getLsbD flagNT = false
  iopl : iopl q.flags = 0

/-- What an instruction can do in ring 3 to the parts of the processor that protect the kernel: load
selectors the processor accepts there, and change IF only if IOPL allows it. -/
structure Ring3 (t : SystemTables) (p q : Processor Reg) : Prop where
  cs : t.returnsTo 3 q.cs
  ss : t.stacksOn 3 q.ss
  interrupts : iopl p.flags < p.cpl → q.flags.getLsbD flagIF = p.flags.getLsbD flagIF
  iopl : p.cpl ≠ 0 → iopl q.flags = iopl p.flags

inductive Mode where
  | program (p : Processor Reg)
  | kernel (q : Processor Reg)
  | reset

inductive RingOp where
  | instruction
  | event (e : TrapEvent)
  | back (b : Stub)
  | start (function stack : BitVec 64)

/-- A program and the kernel take turns. The kernel is left by the way back of a stub, or by
jmp_usrmode from anywhere in its code. isr10 is entered but has no way back. -/
inductive RingStep (t : SystemTables) (address : Stub → BitVec 64) :
    RingOp → Mode → Mode → Prop where
  | instruction {p q : Processor Reg} :
    Ring3 t p q → RingStep t address .instruction (.program p) (.program q)
  | enter {p q : Processor Reg} {e : TrapEvent} :
    Genuine e → raise t e p = some q → RingStep t address (.event e) (.program p) (.kernel q)
  | reset {p : Processor Reg} {e : TrapEvent} :
    Genuine e → raise t e p = none → RingStep t address (.event e) (.program p) .reset
  | back {q r : Processor Reg} {b : Stub} {handler : Cpu Reg → Cpu Reg} :
    q.ip = address b → b ≠ .isr10 → KeepsStack b.height handler → b.back t handler q = some r →
    RingStep t address (.back b) (.kernel q) (.program r)
  | start {q q' r : Processor Reg} {function stack : BitVec 64} :
    InKernelMode q' → jmpUsrmode t function stack q' = some r →
    RingStep t address (.start function stack) (.kernel q) (.program r)

/-- Programs are in ring 3, and the kernel is entered at a stub, with interrupts off and the stack
at its top but for the frame. -/
def Confined (rsp : BitVec 64) (address : Stub → BitVec 64) : Mode → Prop
  | .program p => InUserMode p
  | .kernel q => ∃ b k, q.ip = address b ∧ q.cpl = 0 ∧ q.flags.getLsbD flagIF = false ∧ k ≤ 6 ∧
      q.sp = (rsp &&& ~~~0xF) - BitVec.ofNat 64 (8*k)
  | .reset => True

/-- The event has a stub written for it. -/
def Served (e : TrapEvent) : Prop := ∃ b : Stub, b.Serves e

section Run

variable {tss rsp : BitVec 64} {address : Stub → BitVec 64} {s : TaskState}

/-- The invariant of a run: in the kernel there is a program to go back to. -/
def Sound (rsp : BitVec 64) (address : Stub → BitVec 64) : Mode → Prop
  | .program p => InUserMode p
  | .kernel q => ∃ (b : Stub) (e : TrapEvent) (p : Processor Reg),
      b.Serves e ∧ InUserMode p ∧ q = entered rsp (address b) e p
  | .reset => True

theorem Sound.confined {m : Mode} (h : Sound rsp address m) : Confined rsp address m := by
  cases m with
  | program p => exact h
  | reset => trivial
  | kernel q =>
    obtain ⟨b, e, p, -, -, rfl⟩ := h
    exact ⟨b, (p.frame e).length, rfl, (by decide : rpl 8 = 0), (entered_flags _ _ e p).2,
      frame_length p e, pushWords_sp (p.frame e) _⟩

theorem iopl_setIF (flags : BitVec 64) : iopl (flags &&& ~~~0x200 ||| 0x200) = iopl flags := by
  have hclear : (~~~0x200 : BitVec 64).extractLsb' flagIOPL 2 = BitVec.allOnes 2 := by decide
  have hset : (0x200 : BitVec 64).extractLsb' flagIOPL 2 = 0 := by decide
  rw [iopl, BitVec.extractLsb'_or, BitVec.extractLsb'_and, hclear, hset, BitVec.and_allOnes]
  exact BitVec.or_zero

theorem InKernelMode.jmpUsrmode {q r : Processor Reg} (h : InKernelMode q)
    {function stack : BitVec 64}
    (hr : SBUnix.jmpUsrmode (tablesOf tss address s) function stack q = some r) : InUserMode r := by
  obtain ⟨r', hr', -, -, hcs, hss, hflags⟩ := jmpUsrmode_enters h.cpl h.nested function
    stack tss address s
  obtain rfl := Option.some.inj (hr'.symm.trans hr)
  refine ⟨hcs, hss, by rw [hflags]; simp [flagIF], ?_⟩
  rw [hflags, iopl_setIF, h.iopl]

theorem InUserMode.ring3 {p q : Processor Reg} (h : InUserMode p)
    (hq : Ring3 (tablesOf tss address s) p q) : InUserMode q := by
  have hlow : SBUnix.iopl p.flags < p.cpl := by
    rw [h.iopl, h.cpl]
    decide
  refine ⟨returnsTo_ring3 hq.cs, stacksOn_ring3 hq.ss, ?_, ?_⟩
  · rw [hq.interrupts hlow]
    exact h.interrupts
  · rw [hq.iopl (by rw [h.cpl]; decide), h.iopl]

theorem Stub.Serves.codes_length {b : Stub} {e : TrapEvent} (h : b.Serves e) (hb : b ≠ .isr10) :
    e.codes.length = b.drops := by
  rw [h.codes]
  cases b with
  | isr10 => exact absurd rfl hb
  | _ => rfl

theorem Sound.step (ha : Function.Injective address) {m n : Mode} {op : RingOp}
    (h : Sound (s.rsp 0) address m) (hstep : RingStep (tablesOf tss address s) address op m n) :
    Sound (s.rsp 0) address n ∧
    (n = .reset ↔ ∃ e, op = .event e ∧ ¬Served e) := by
  cases hstep with
  | instruction hq => exact ⟨InUserMode.ring3 h hq, by simp⟩
  | @enter p q e hg hq =>
    have hserved : Served e := by
      by_contra hn
      have hnone := InUserMode.raise_none h hg (not_exists.mp hn) tss address s
      rw [hnone] at hq
      cases hq
    obtain ⟨b, hb⟩ := hserved
    rw [InUserMode.raise h hb] at hq
    obtain rfl := Option.some.inj hq
    refine ⟨⟨b, e, p, hb, h, rfl⟩, ?_⟩
    simp only [reduceCtorEq, RingOp.event.injEq, false_iff, not_exists, not_and, not_not]
    intro e' he
    exact he ▸ ⟨b, hb⟩
  | @reset p e hg hq =>
    refine ⟨trivial, iff_of_true rfl ⟨e, rfl, ?_⟩⟩
    intro ⟨b, hb⟩
    rw [InUserMode.raise h hb] at hq
    cases hq
  | @back q r b handler hip hb hk hr =>
    obtain ⟨b', e, p, hserves, hp, rfl⟩ := h
    obtain rfl : b' = b := ha hip
    rw [hp.back hk (hserves.codes_length hb)] at hr
    obtain rfl := Option.some.inj hr
    exact ⟨⟨hp.cs, hp.ss, hp.interrupts, hp.iopl⟩, by simp⟩
  | start hq hr => exact ⟨hq.jmpUsrmode hr, by simp⟩

theorem Sound.run (ha : Function.Injective address) {m n : Mode} {ops : List RingOp}
    (h : Run (RingStep (tablesOf tss address s) address) m ops n)
    (hm : Sound (s.rsp 0) address m) (hne : m ≠ .reset) :
    Sound (s.rsp 0) address n ∧
    (n = .reset ↔ ∃ e, RingOp.event e ∈ ops ∧ ¬Served e) := by
  induction h with
  | nil m => exact ⟨hm, by simp [hne]⟩
  | @cons m k n op ops hstep hrest ih =>
    obtain ⟨hk, hiff⟩ := hm.step ha hstep
    by_cases hreset : k = .reset
    · -- nothing follows a reset
      subst hreset
      obtain ⟨e, rfl, he⟩ := hiff.mp rfl
      cases hrest with
      | nil => exact ⟨trivial, iff_of_true rfl ⟨e, List.mem_cons_self, he⟩⟩
      | cons h _ => cases h
    · obtain ⟨hn, hrun⟩ := ih hk hreset
      refine ⟨hn, hrun.trans ?_⟩
      constructor
      · intro ⟨e, he, hs⟩
        exact ⟨e, List.mem_cons_of_mem _ he, hs⟩
      · intro ⟨e, he, hs⟩
        rcases List.mem_cons.mp he with heq | hmem
        · exact absurd (hiff.mpr ⟨e, heq.symm, hs⟩) hreset
        · exact ⟨e, hmem, hs⟩

end Run

/-- In every run of programs and the kernel from the tables of boot on, programs stay in ring 3
with interrupts on, the kernel is entered at the six stubs and nowhere else, with interrupts off
and its stack empty; and the machine is reset exactly by an event that has no stub. -/
theorem programs_confined (tss rsp : BitVec 64) (address : Stub → BitVec 64)
    (tssAt : BitVec 64 → Option TaskState) (t : SystemTables) (ha : Function.Injective address)
    (hboot : bootTables tss tssAt address = some t)
    (htss : tssAt tss = some (setTssRsp rsp tssClear)) (q p : Processor Reg)
    (hq : InKernelMode q) (function stack : BitVec 64)
    (hp : jmpUsrmode t function stack q = some p) (ops : List RingOp) (m : Mode)
    (hrun : Run (RingStep t address) (.program p) ops m) :
    Confined rsp address m ∧ (m = .reset ↔ ∃ e, RingOp.event e ∈ ops ∧ ¬Served e) := by
  rw [bootTables_eq tss address _ htss] at hboot
  obtain rfl := Option.some.inj hboot
  have hstart : Sound rsp address (.program p) := hq.jmpUsrmode hp
  obtain ⟨hsound, hreset⟩ := Sound.run ha hrun hstart (by simp)
  exact ⟨hsound.confined, hreset⟩

section Examples

/-- Stubs at the addresses of their vectors. -/
def vectorAddress (b : Stub) : BitVec 64 := b.vector.setWidth 64

def tssAnywhere (_ : BitVec 64) : Option TaskState := some (setTssRsp 0x8000 tssClear)

def demoTables : SystemTables := tablesOf 0 vectorAddress (setTssRsp 0x8000 tssClear)

theorem bootTables_demo : bootTables 0 tssAnywhere vectorAddress = some demoTables :=
  bootTables_eq 0 _ _ rfl

/-- The kernel in boot. -/
def kernelAtBoot : Processor Reg := ⟨⟨fun _ => 0, 0x7000, 0, fun _ => 0⟩, 8, 0x10, 2⟩

theorem kernelAtBoot_inKernelMode : InKernelMode kernelAtBoot :=
  ⟨by decide, by decide, by decide⟩

/-- A program that executes `int $3`. -/
theorem program_breakpoint_resets :
    ∃ p, jmpUsrmode demoTables 0x400 0x500 kernelAtBoot = some p ∧
      Run (RingStep demoTables vectorAddress) (.program p) [.event ⟨.software, 3, 0⟩] .reset ∧
      ∃ e, RingOp.event e ∈ [RingOp.event ⟨.software, 3, 0⟩] ∧ ¬Served e := by
  have ha : Function.Injective vectorAddress := by
    intro b c h
    cases b <;> cases c <;> first | rfl | exact absurd h (by decide)
  have hk := kernelAtBoot_inKernelMode
  obtain ⟨p, hp, -⟩ := jmpUsrmode_enters hk.cpl hk.nested 0x400 0x500 0 vectorAddress
    (setTssRsp 0x8000 tssClear)
  have hnone : raise demoTables ⟨.software, 3, 0⟩ p = none := by
    refine (hk.jmpUsrmode hp).raise_none (e := ⟨.software, 3, 0⟩) trivial ?_ _ _ _
    intro b hb
    have hv := hb.2
    cases b <;> exact absurd hv (by decide)
  have hrun : Run (RingStep demoTables vectorAddress) (.program p)
      [.event ⟨.software, 3, 0⟩] .reset := .cons (.reset trivial hnone) (.nil _)
  exact ⟨p, hp, hrun, (programs_confined 0 0x8000 vectorAddress tssAnywhere _ ha bootTables_demo rfl
    kernelAtBoot p hk 0x400 0x500 hp _ _ hrun).2.mp rfl⟩

end Examples

end SBUnix
