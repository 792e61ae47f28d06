import SBUnix.Switch.Descriptors
import SBUnix.Switch.Trap
import SBUnix.Framework.Simulation

namespace SBUnix

open StackMachine Rings Simulation

/-- `isr_coord`, up to its iretq. `handler` is the call of isr_handler. -/
def isrCoord (handler : Cpu Reg → Cpu Reg) (c : Cpu Reg) : Cpu Reg :=
  let c := pushAll pusha c
  let c := popAll popa (handler { c with reg := Function.update c.reg .rdi c.sp })
  { c with sp := c.sp + 0x10 }

def isr0 (handler : Cpu Reg → Cpu Reg) (c : Cpu Reg) : Cpu Reg :=
  isrCoord handler (pushWords [0, 0] c)

def isr10 (handler : Cpu Reg → Cpu Reg) (c : Cpu Reg) : Cpu Reg :=
  isrCoord handler (pushWords [0, 10] c)

def isr14 (handler : Cpu Reg → Cpu Reg) (c : Cpu Reg) : Cpu Reg :=
  isrCoord handler (pushWords [14] c)

def irq1 (handler : Cpu Reg → Cpu Reg) (c : Cpu Reg) : Cpu Reg :=
  isrCoord handler (pushWords [0x0, 0x21] c)

def Stub.code : Stub → (Cpu Reg → Cpu Reg) → Cpu Reg → Cpu Reg
  | .isr0 => SBUnix.isr0
  | .isr10 => SBUnix.isr10
  | .isr14 => SBUnix.isr14
  | .isr128 => SBUnix.isr128
  | .irq0 => SBUnix.irq0
  | .irq1 => SBUnix.irq1

/-- The processor before the iretq of a stub; its sti takes effect only after that. -/
def Stub.run (b : Stub) (handler : Cpu Reg → Cpu Reg) (q : Processor Reg) : Processor Reg :=
  ⟨b.code handler q.toCpu, q.cs, q.ss, q.flags⟩

/-- The way back from a stub to the program. -/
def Stub.back (t : SystemTables) (b : Stub) (handler : Cpu Reg → Cpu Reg) (q : Processor Reg) :
    Option (Processor Reg) :=
  iretq t (b.run handler q)

/-- What makes the processor go through the gate. -/
def Stub.origin : Stub → Origin
  | .isr0 | .isr10 | .isr14 => .exception
  | .isr128 => .software
  | .irq0 | .irq1 => .external

/-- The words from the stack pointer of the handler's caller up to the last that iretq pops. -/
def Stub.height : Stub → Nat
  | .isr128 | .irq0 => 20
  | _ => 22

/-- A C handler that returns to its caller and leaves the first `n` words there alone; isr_handler
has twenty-two of them as its argument. -/
structure KeepsStack (n : Nat) (handler : Cpu Reg → Cpu Reg) : Prop where
  sp : ∀ c, (handler c).sp = c.sp
  words : ∀ c, ∀ j < n, word (handler c) j = word c j

section Stubs

variable {handler : Cpu Reg → Cpu Reg} {n : Nat}

theorem KeepsStack.keepsFrame (hk : KeepsStack n handler) (hn : 15 ≤ n) : KeepsFrame handler :=
  ⟨hk.sp, fun c j hj => hk.words c j (by omega)⟩

/-- Above the fifteen words of PUSHA, what the pops leave is what was there before. -/
theorem KeepsStack.popped (hk : KeepsStack n handler) (hn : n < 2^60) (c d : Cpu Reg)
    (hsp : d.sp = (pushAll pusha c).sp) (hmem : d.mem = (pushAll pusha c).mem) (rs : List Reg)
    (hl : rs.length = 15) {j : Nat} (hj : 15+j < n) : word (popAll rs (handler d)) j = word c j := by
  have hkf := hk.keepsFrame (by omega)
  obtain ⟨-, hpop⟩ := popAll_frame hkf c rs hl d hsp hmem
  obtain ⟨-, -, hpm, -⟩ := popAll_spec rs (popa.map c.reg) (handler d) (by rw [hl]; rfl)
    (frame_words hkf c d hsp hmem)
  have hlen : (pusha.map c.reg).length = 15 := rfl
  calc word (popAll rs (handler d)) j
      = (handler d).mem (c.sp + BitVec.ofNat 64 (8*j)) := by rw [word, hpop, hpm]
    _ = word (handler d) (15+j) := by
        rw [word, hk.sp, hsp, pushAll_sp]
        change _ = (handler d).mem (c.sp - BitVec.ofNat 64 120 + _)
        congr 1
        bv_omega
    _ = word (pushAll pusha c) (15+j) := by rw [hk.words d _ hj, word, word, hsp, hmem]
    _ = word c j := by
        rw [pushAll_eq, ← hlen]
        exact pushWords_word_above _ c j (by omega)

/-- irq0 and isr_coord put the registers back. -/
theorem irq0_spec (hk : KeepsStack n handler) (h20 : 20 ≤ n) (hn : n < 2^60) (c : Cpu Reg) :
    (SBUnix.irq0 handler c).reg = c.reg ∧ (SBUnix.irq0 handler c).sp = c.sp ∧
    ∀ j, 15+j < n → word (SBUnix.irq0 handler c) j = word c j := by
  obtain ⟨hsp, hreg⟩ := irq0_preserves (hk.keepsFrame (by omega)) c
  refine ⟨hreg, hsp, ?_⟩
  intro j hj
  exact hk.popped hn c { pushAll pusha c with
    reg := Function.update (pushAll pusha c).reg .rdi (pushAll pusha c).sp } rfl rfl popa rfl hj

theorem isrCoord_eq (handler : Cpu Reg → Cpu Reg) (c : Cpu Reg) :
    isrCoord handler c =
      { SBUnix.irq0 handler c with sp := (SBUnix.irq0 handler c).sp + 16 } := rfl

theorem isrCoord_spec (hk : KeepsStack 22 handler) (c : Cpu Reg) :
    (isrCoord handler c).reg = c.reg ∧ (isrCoord handler c).sp = c.sp + 16 ∧
    ∀ j < 5, word (isrCoord handler c) j = word c (j+2) := by
  obtain ⟨hreg, hsp, hwords⟩ := irq0_spec hk (by norm_num) (by norm_num) c
  rw [isrCoord_eq]
  generalize SBUnix.irq0 handler c = d at *
  refine ⟨hreg, by rw [hsp], ?_⟩
  intro j hj
  have haddr : d.sp + 16 + BitVec.ofNat 64 (8*j) = d.sp + BitVec.ofNat 64 (8*(j+2)) := by bv_omega
  rw [← hwords (j+2) (by omega), word, word, haddr]

/-- How far below the stack pointer at its iretq a stub was entered. -/
def Stub.drops (b : Stub) : Nat := if b = .isr14 then 1 else 0

theorem coord_spec (hk : KeepsStack 22 handler) (c : Cpu Reg) (ws : List (BitVec 64)) {k : Nat}
    (hw : ws.length + k = 2) :
    (isrCoord handler (pushWords ws c)).reg = c.reg ∧
    (isrCoord handler (pushWords ws c)).sp = c.sp + BitVec.ofNat 64 (8*k) ∧
    ∀ j < 5, word (isrCoord handler (pushWords ws c)) j = word c (j+k) := by
  obtain ⟨hreg, hsp, hwords⟩ := isrCoord_spec hk (pushWords ws c)
  refine ⟨by rw [hreg, pushWords_reg], ?_, ?_⟩
  · rw [hsp, pushWords_sp]
    have hlen : ws.length = 2-k := by omega
    have hk2 : k ≤ 2 := by omega
    rw [hlen]
    interval_cases k <;> bv_omega
  · intro j hj
    rw [hwords j hj, show j+2 = ws.length+(j+k) by omega]
    exact pushWords_word_above ws c (j+k) (by omega)

/-- A stub as the interrupted program sees it: where its iretq looks, and the registers. -/
theorem Stub.code_spec (b : Stub) (hk : KeepsStack b.height handler) (c : Cpu Reg) :
    (b ≠ .isr128 → (b.code handler c).reg = c.reg) ∧
    (b.code handler c).sp = c.sp + BitVec.ofNat 64 (8*b.drops) ∧
    ∀ j < 5, word (b.code handler c) j = word c (j+b.drops) := by
  cases b with
  | isr0 => exact (coord_spec hk c [0, 0] rfl).imp_left fun h _ => h
  | isr10 => exact (coord_spec hk c [0, 10] rfl).imp_left fun h _ => h
  | isr14 => exact (coord_spec hk c [14] rfl).imp_left fun h _ => h
  | irq1 => exact (coord_spec hk c [0x0, 0x21] rfl).imp_left fun h _ => h
  | irq0 =>
    have hk20 : KeepsStack 20 handler := hk
    obtain ⟨hreg, hsp, hwords⟩ := irq0_spec hk20 le_rfl (by norm_num) c
    refine ⟨fun _ => hreg, by rw [Stub.code, hsp]; simp [Stub.drops], ?_⟩
    intro j hj
    exact hwords j (by omega)
  | isr128 =>
    have hk20 : KeepsStack 20 handler := hk
    have hsp := isr128_sp (hk20.keepsFrame (by norm_num)) c
    refine ⟨fun h => absurd rfl h, by rw [Stub.code, hsp]; simp [Stub.drops], ?_⟩
    intro j hj
    exact hk20.popped (by norm_num) c (pushAll pusha c) rfl rfl isr128Pops rfl (by omega)

end Stubs

def flagIOPL : Nat := 12

def iopl (flags : BitVec 64) : BitVec 2 := flags.extractLsb' flagIOPL 2

/-- A program that runs: in ring 3, on its own stack segment, with interrupts on. -/
structure InUserMode (p : Processor Reg) : Prop where
  cs : p.cs = 0x2B
  ss : p.ss = 0x23
  interrupts : p.flags.getLsbD flagIF
  iopl : iopl p.flags = 0

/-- jmp_usrmode, with its arguments in rdi and rsi where they are passed; `none` is a fault. -/
def jmpUsrmode (t : SystemTables) (function stack : BitVec 64) (p : Processor Reg) :
    Option (Processor Reg) :=
  let flags := p.flags &&& ~~~0x200
  let c := p.toCpu
  let c := { c with reg := Function.update (Function.update c.reg .rbx stack) .rax 0x23 }
  let c := push .rbx (pushWord 0x23 c)
  let c := pop .rax (pushWord flags c)
  let c := { c with reg := Function.update c.reg .rax (c.reg .rax ||| 0x200) }
  let c := pushWord function (pushWord 0x2B (push .rax c))
  iretq t { c with cs := p.cs, ss := p.ss, flags := flags ||| 0x200 }

/-- The events of the hardware: exceptions have the first 32 vectors, init_pic gives the next
sixteen to the interrupts. -/
def Genuine (e : TrapEvent) : Prop :=
  match e.origin with
  | .exception => e.vector < 32
  | .external => 32 ≤ e.vector ∧ e.vector < 48
  | .software => True

/-- The event that a stub is written for. -/
def Stub.Serves (b : Stub) (e : TrapEvent) : Prop := e.origin = b.origin ∧ e.vector = b.vector

section Entry

variable {tss : BitVec 64} {address : Stub → BitVec 64} {s : TaskState} {p : Processor Reg}
  {e : TrapEvent} {b : Stub}

/-- The processor at the first instruction of a stub. -/
def entered (rsp offset : BitVec 64) (e : TrapEvent) (p : Processor Reg) : Processor Reg :=
  { pushWords (p.frame e) { p.toCpu with sp := rsp &&& ~~~0xF } with
    ip := offset
    cs := 8
    ss := 0
    flags := p.flags &&& ~~~0x4300 }

theorem tablesOf_enters (tss : BitVec 64) (address : Stub → BitVec 64) (s : TaskState) (b : Stub) :
    (tablesOf tss address s).Enters b.vector (address b) 8 b.dpl
      ⟨true, 0, true, true, false, false, true, false⟩ where
  gate := tablesOf_gate tss address s b
  segment := rfl
  code := rfl
  present := rfl
  conforming := rfl
  ring := rfl

theorem InUserMode.cpl (h : InUserMode p) : p.cpl = 3 := by
  rw [Processor.cpl, h.cs]
  rfl

theorem Stub.Serves.software (h : b.Serves e) (ho : e.origin = .software) : b = .isr128 := by
  have hb := h.1.symm.trans ho
  cases b <;> first | rfl | cases hb

theorem InUserMode.raise (h : InUserMode p) (hb : b.Serves e) (tss : BitVec 64)
    (address : Stub → BitVec 64) (s : TaskState) :
    Rings.raise (tablesOf tss address s) e p = some (entered (s.rsp 0) (address b) e p) := by
  have henters := tablesOf_enters tss address s b
  rw [← hb.2] at henters
  have hpos : 0 < p.cpl := by
    rw [h.cpl]
    decide
  rw [henters.raise p, if_pos hpos, if_pos hpos]
  · rfl
  · intro ho
    rw [hb.software ho, h.cpl]
    decide

theorem generalProtection_clear :
    ((tablesOf tss address s).gate generalProtection).kind = 0 := by
  rw [tablesOf_gate_clear tss address s fun b => by cases b <;> decide]

theorem doubleFault_clear : ((tablesOf tss address s).gate doubleFault).kind = 0 := by
  rw [tablesOf_gate_clear tss address s fun b => by cases b <;> decide]

theorem Genuine.serves (hg : Genuine e) (hb : e.vector = b.vector) (ho : e.origin ≠ .software) :
    b.Serves e := by
  refine ⟨?_, hb⟩
  rw [Genuine, hb] at hg
  cases h : e.origin with
  | software => exact absurd h ho
  | exception =>
    rw [h] at hg
    cases b with
    | isr0 | isr10 | isr14 => rfl
    | isr128 | irq0 | irq1 => exact absurd hg (by decide)
  | external =>
    rw [h] at hg
    cases b with
    | irq0 | irq1 => rfl
    | isr0 | isr10 | isr14 | isr128 => exact absurd hg (by decide)

/-- An event without a stub of its own resets the machine: there is no gate for the faults that
follow either. -/
theorem InUserMode.raise_none (h : InUserMode p) (hg : Genuine e) (hn : ∀ b : Stub, ¬b.Serves e)
    (tss : BitVec 64) (address : Stub → BitVec 64) (s : TaskState) :
    Rings.raise (tablesOf tss address s) e p = none := by
  apply raise_refused _ generalProtection_clear doubleFault_clear
  by_cases hv : ∀ b : Stub, e.vector ≠ b.vector
  · apply deliver_absent
    rw [tablesOf_gate_clear tss address s hv]
  · obtain ⟨b, hb⟩ := not_forall_not.mp hv
    -- the vector has a stub, so the event is an `int` from outside the gate's ring
    have ho : e.origin = .software := by
      by_contra ho
      exact hn b (hg.serves hb ho)
    have hdpl : b.dpl = 0 := by
      cases b with
      | isr128 => exact absurd ⟨ho, hb⟩ (hn .isr128)
      | _ => rfl
    have hlt : (0 : BitVec 2) < 3 := by decide
    apply deliver_forbidden ho
    rw [hb, tablesOf_gate, h.cpl, hdpl]
    exact hlt

theorem frame_length (p : Processor Reg) (e : TrapEvent) : (p.frame e).length ≤ 6 := by
  rw [Processor.frame, TrapEvent.codes]
  split_ifs <;> simp

/-- From the stack pointer up: the error code if there is one, then what iretq pops. -/
theorem entered_word {rsp offset : BitVec 64} {j : Nat} {v : BitVec 64}
    (h : (e.codes ++ p.saved)[j]? = some v) : word (entered rsp offset e p).toCpu j = v := by
  rw [← frame_reverse] at h
  apply pushWords_word _ h
  have hlen := frame_length p e
  omega

theorem Stub.Serves.codes (h : b.Serves e) :
    e.codes = if b = .isr10 ∨ b = .isr14 then [e.code] else [] := by
  rw [TrapEvent.codes, h.1, h.2]
  cases b <;> rfl

end Entry

section Return

variable {tss : BitVec 64} {address : Stub → BitVec 64} {s : TaskState} {p : Processor Reg}
  {e : TrapEvent} {b : Stub} {handler : Cpu Reg → Cpu Reg}

/-- iretq accepts the two selectors of a program. -/
theorem tablesOf_program : (tablesOf tss address s).returnsTo 0 0x2B ∧
    (tablesOf tss address s).stacksOn (rpl 0x2B) 0x23 := by
  have hring : rpl 0x2B = 3 := by decide
  rw [hring]
  exact ⟨rfl, rfl⟩

theorem InUserMode.returnsTo (h : InUserMode p) : (tablesOf tss address s).returnsTo 0 p.cs := by
  rw [h.cs]
  exact tablesOf_program.1

theorem InUserMode.stacksOn (h : InUserMode p) :
    (tablesOf tss address s).stacksOn p.cpl p.ss := by
  rw [Processor.cpl, h.cs, h.ss]
  exact tablesOf_program.2

theorem entered_flags (rsp offset : BitVec 64) (e : TrapEvent) (p : Processor Reg) :
    (entered rsp offset e p).flags.getLsbD flagNT = false ∧
    (entered rsp offset e p).flags.getLsbD flagIF = false := by
  constructor <;> simp [entered, flagNT, flagIF]

/-- The program goes on where it was, if the stub drops as many words as there are error codes. -/
theorem InUserMode.back (h : InUserMode p) (hk : KeepsStack b.height handler)
    (hc : e.codes.length = b.drops) (rsp offset tss : BitVec 64) (address : Stub → BitVec 64)
    (s : TaskState) :
    b.back (tablesOf tss address s) handler (entered rsp offset e p) =
      some { b.run handler (entered rsp offset e p) with
        ip := p.ip, cs := p.cs, flags := p.flags, sp := p.sp, ss := p.ss } := by
  obtain ⟨-, -, hwords⟩ := b.code_spec hk (entered rsp offset e p).toCpu
  have hcpl : (b.run handler (entered rsp offset e p)).cpl = 0 := by
    change rpl 8 = 0
    decide
  apply iretq_saved (r := b.run handler (entered rsp offset e p)) hcpl
    (entered_flags rsp offset e p).1 h.returnsTo h.stacksOn
  intro j v hj
  change word (b.code handler (entered rsp offset e p).toCpu) j = v
  have hlt : j < 5 := (List.getElem?_eq_some_iff.mp hj).1
  rw [hwords j hlt]
  apply entered_word
  rw [List.getElem?_append_right (by omega), hc, Nat.add_sub_cancel]
  exact hj

/-- isr10 leaves the error code on the stack, below what iretq is to take from there. -/
theorem isr10_word (hk : KeepsStack 22 handler) (hb : Stub.isr10.Serves e)
    (rsp offset : BitVec 64) (j : Nat) (hj : j < 5) {v : BitVec 64}
    (hv : (e.code::p.saved)[j]? = some v) :
    word (Stub.isr10.run handler (entered rsp offset e p)).toCpu j = v := by
  obtain ⟨-, -, hwords⟩ := Stub.isr10.code_spec hk (entered rsp offset e p).toCpu
  refine (hwords j hj).trans (entered_word ?_)
  rw [hb.codes]
  exact hv

/-- So the error code is where iretq takes the instruction pointer from. -/
theorem back_isr10 (hk : KeepsStack 22 handler) (hb : Stub.isr10.Serves e)
    {t : SystemTables} {rsp offset : BitVec 64} {r : Processor Reg}
    (hr : Stub.isr10.back t handler (entered rsp offset e p) = some r) :
    r.ip = e.code ∧ r.flags = p.cs.setWidth 64 ∧ r.sp = p.flags := by
  rw [Stub.back, iretq] at hr
  split_ifs at hr
  obtain rfl := Option.some.inj hr
  have hword := isr10_word (p := p) hk hb rsp offset
  exact ⟨hword 0 (by norm_num) rfl, hword 2 (by norm_num) rfl, hword 3 (by norm_num) rfl⟩

end Return

end SBUnix
