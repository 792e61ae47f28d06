import SBUnix.Switch.UserMode

namespace SBUnix

open StackMachine Rings

/-- What a program sees of the processor: all of it but the memory that is not its own. -/
structure Alike (user : BitVec 64 → Prop) (p q : Processor Reg) : Prop where
  reg : p.reg = q.reg
  sp : p.sp = q.sp
  ip : p.ip = q.ip
  cs : p.cs = q.cs
  ss : p.ss = q.ss
  flags : p.flags = q.flags
  mem : ∀ a, user a → p.mem a = q.mem a

/-- A program, by the effect of its next instruction on the processor in ring 3. -/
structure UserProgram (user : BitVec 64 → Prop) where
  next : Processor Reg → Processor Reg
  alike : ∀ p q, Alike user p q → Alike user (next p) (next q)
  inUserMode : ∀ p, InUserMode p → InUserMode (next p)

/-- An interrupt, with what its handler does this time. -/
structure Visit where
  stub : Stub
  code : BitVec 64
  handler : Cpu Reg → Cpu Reg

def Visit.event (i : Visit) : TrapEvent := ⟨i.stub.origin, i.stub.vector, i.code⟩

/-- Through the gate, the stub and its iretq. -/
def Visit.through (t : SystemTables) (i : Visit) (p : Processor Reg) : Option (Processor Reg) :=
  (raise t i.event p).bind (i.stub.back t i.handler)

/-- The handler returns, and leaves the program's memory alone. -/
structure Visit.Returns (user : BitVec 64 → Prop) (i : Visit) : Prop where
  stack : KeepsStack i.stub.height i.handler
  memory : ∀ c a, user a → (i.handler c).mem a = c.mem a
  notTss : i.stub ≠ .isr10
  notCall : i.stub ≠ .isr128

/-- The program with interrupts between its instructions; `none` is an instruction. -/
def UserProgram.interrupted {user : BitVec 64 → Prop} (prog : UserProgram user) (t : SystemTables) :
    List (Option Visit) → Processor Reg → Option (Processor Reg)
  | [], p => some p
  | none::ops, p => prog.interrupted t ops (prog.next p)
  | some i::ops, p => (i.through t p).bind (prog.interrupted t ops)

/-- The words below `rsp` that an interrupt writes before its handler does. -/
def KernelStack (rsp a : BitVec 64) : Prop :=
  ∃ j < 32, a = (rsp &&& ~~~0xF) - BitVec.ofNat 64 (8*(j+1))

theorem Alike.refl (user : BitVec 64 → Prop) (p : Processor Reg) : Alike user p p :=
  ⟨rfl, rfl, rfl, rfl, rfl, rfl, fun _ _ => rfl⟩

section Memory

variable {handler : Cpu Reg → Cpu Reg} {a : BitVec 64}

theorem popAll_mem (rs : List Reg) (c : Cpu Reg) : (popAll rs c).mem = c.mem := by
  induction rs generalizing c with
  | nil => rfl
  | cons r rs ih => exact ih (pop r c)

/-- irq0 writes the fifteen words of PUSHA, and what its handler writes. -/
theorem irq0_mem (hm : ∀ c, (handler c).mem a = c.mem a) (c : Cpu Reg)
    (ha : ∀ j < 15, a ≠ c.sp - BitVec.ofNat 64 (8*(j+1))) :
    (SBUnix.irq0 handler c).mem a = c.mem a := by
  simp only [SBUnix.irq0, popAll_mem, hm, pushAll_eq]
  exact pushWords_mem _ c a ha

theorem isrCoord_mem (hm : ∀ c, (handler c).mem a = c.mem a) (ws : List (BitVec 64)) (c : Cpu Reg)
    (hw : ws.length ≤ 2) (ha : ∀ j < 17, a ≠ c.sp - BitVec.ofNat 64 (8*(j+1))) :
    (isrCoord handler (pushWords ws c)).mem a = c.mem a := by
  have hsp := pushWords_sp ws c
  rw [isrCoord_eq]
  dsimp only
  rw [irq0_mem hm, pushWords_mem]
  · intro j hj
    exact ha j (by omega)
  · intro j hj he
    apply ha (ws.length+j) (by omega)
    rw [he, hsp]
    bv_omega

theorem Stub.code_mem (b : Stub) (hb : b ≠ .isr128) (hm : ∀ c, (handler c).mem a = c.mem a)
    (c : Cpu Reg) (ha : ∀ j < 17, a ≠ c.sp - BitVec.ofNat 64 (8*(j+1))) :
    (b.code handler c).mem a = c.mem a := by
  cases b with
  | isr0 | isr10 | isr14 | irq1 => exact isrCoord_mem hm _ c (by simp) ha
  | irq0 => exact irq0_mem hm c fun j hj => ha j (by omega)
  | isr128 => exact absurd rfl hb

/-- The whole way through the kernel writes only its stack, the handler apart. -/
theorem entered_mem {rsp offset : BitVec 64} (e : TrapEvent) (p : Processor Reg) (b : Stub)
    (hb : b ≠ .isr128) (hm : ∀ c, (handler c).mem a = c.mem a) (ha : ¬KernelStack rsp a) :
    (b.code handler (entered rsp offset e p).toCpu).mem a = p.mem a := by
  have hlen := frame_length p e
  have hsp : (entered rsp offset e p).sp =
      (rsp &&& ~~~0xF) - BitVec.ofNat 64 (8*(p.frame e).length) := pushWords_sp _ _
  rw [b.code_mem hb hm]
  · apply pushWords_mem
    intro j hj he
    exact ha ⟨j, by omega, he⟩
  · intro j hj he
    apply ha
    refine ⟨(p.frame e).length+j, by omega, ?_⟩
    rw [he, hsp]
    bv_omega

end Memory

section Unseen

variable {user : BitVec 64 → Prop} {tss : BitVec 64} {address : Stub → BitVec 64} {s : TaskState}
  {p q : Processor Reg}

theorem Visit.serves (i : Visit) : i.stub.Serves i.event := ⟨rfl, rfl⟩

/-- One interrupt. -/
theorem Visit.Returns.through {i : Visit} (h : i.Returns user)
    (hu : ∀ a, user a → ¬KernelStack (s.rsp 0) a) (hp : InUserMode p) (tss : BitVec 64)
    (address : Stub → BitVec 64) :
    ∃ r, i.through (tablesOf tss address s) p = some r ∧ Alike user r p := by
  have hback := hp.back h.stack (i.serves.codes_length h.notTss) (s.rsp 0) (address i.stub) tss
    address s
  obtain ⟨hreg, -, -⟩ := i.stub.code_spec h.stack
    (entered (s.rsp 0) (address i.stub) i.event p).toCpu
  rw [Visit.through, hp.raise i.serves, Option.bind_some, hback]
  refine ⟨_, rfl, (hreg h.notCall).trans (pushWords_reg _ _), rfl, rfl, rfl, rfl, rfl, ?_⟩
  intro a ha
  exact entered_mem i.event p i.stub h.notCall (fun c => h.memory c a ha) (hu a ha)

theorem Alike.inUserMode (h : Alike user p q) (hq : InUserMode q) : InUserMode p :=
  ⟨h.cs.trans hq.cs, h.ss.trans hq.ss, h.flags ▸ hq.interrupts, h.flags ▸ hq.iopl⟩

theorem Alike.trans {r : Processor Reg} (h : Alike user p q) (k : Alike user q r) :
    Alike user p r :=
  ⟨h.reg.trans k.reg, h.sp.trans k.sp, h.ip.trans k.ip, h.cs.trans k.cs, h.ss.trans k.ss,
    h.flags.trans k.flags, fun a ha => (h.mem a ha).trans (k.mem a ha)⟩

/-- A program interrupted any number of times, compared with one that has run undisturbed. -/
theorem UserProgram.interrupted_alike (prog : UserProgram user)
    (hu : ∀ a, user a → ¬KernelStack (s.rsp 0) a) (ops : List (Option Visit))
    (hops : ∀ i, some i ∈ ops → i.Returns user) (hq : InUserMode q) (h : Alike user p q) :
    ∃ r, prog.interrupted (tablesOf tss address s) ops p = some r ∧
      Alike user r (prog.next^[ops.countP Option.isNone] q) := by
  induction ops generalizing p q with
  | nil => exact ⟨p, rfl, h⟩
  | cons op ops ih =>
    have hrest (i : Visit) (hi : some i ∈ ops) : i.Returns user :=
      hops i (List.mem_cons_of_mem _ hi)
    cases op with
    | none =>
      obtain ⟨r, hr, hrq⟩ := ih hrest (prog.inUserMode q hq) (prog.alike p q h)
      refine ⟨r, hr, ?_⟩
      rw [List.countP_cons_of_pos rfl, Function.iterate_succ_apply]
      exact hrq
    | some i =>
      obtain ⟨x, hx, hxp⟩ := (hops i List.mem_cons_self).through hu (h.inUserMode hq) tss address
      obtain ⟨r, hr, hrq⟩ := ih hrest hq (hxp.trans h)
      refine ⟨r, ?_, ?_⟩
      · rw [UserProgram.interrupted, hx, Option.bind_some, hr]
      · rw [List.countP_cons_of_neg (by simp)]
        exact hrq

end Unseen

/-- The stub written for an event brings the program back to where it was, unless it is isr10: its
iretq takes the error code for the instruction pointer. -/
theorem interrupt_returns_iff (tss rsp : BitVec 64) (address : Stub → BitVec 64)
    (tssAt : BitVec 64 → Option TaskState) (t : SystemTables)
    (hboot : bootTables tss tssAt address = some t)
    (htss : tssAt tss = some (setTssRsp rsp tssClear)) (p : Processor Reg) (hp : InUserMode p)
    (b : Stub) (e : TrapEvent) (hb : b.Serves e) (handler : Cpu Reg → Cpu Reg)
    (hk : KeepsStack b.height handler) :
    ((∃ q r, raise t e p = some q ∧ b.back t handler q = some r ∧ r.ip = p.ip ∧ r.sp = p.sp ∧
      r.cs = p.cs ∧ r.ss = p.ss ∧ r.flags = p.flags) ↔ b ≠ .isr10) ∧
    (b = .isr10 → ∃ q, raise t e p = some q ∧ word (b.run handler q).toCpu 0 = e.code ∧
      ∀ r, b.back t handler q = some r → r.ip = e.code) := by
  rw [bootTables_eq tss address _ htss] at hboot
  obtain rfl := Option.some.inj hboot
  have hraise := hp.raise hb tss address (setTssRsp rsp tssClear)
  refine ⟨⟨?_, ?_⟩, ?_⟩
  · rintro ⟨q, r, hq, hr, -, -, -, -, hflags⟩ rfl
    obtain rfl := Option.some.inj (hraise.symm.trans hq)
    -- the flags come from the word of the code selector, in which IF is 0
    have hsel := (back_isr10 hk hb hr).2.1
    have hif := hp.interrupts
    rw [← hflags, hsel, hp.cs] at hif
    exact absurd hif (by decide)
  · intro hne
    exact ⟨_, _, hraise, hp.back hk (hb.codes_length hne) _ _ _ _ _, rfl, rfl, rfl, rfl, rfl⟩
  · rintro rfl
    exact ⟨_, hraise, isr10_word hk hb _ _ 0 (by norm_num) rfl, fun r hr => (back_isr10 hk hb hr).1⟩

/-- Whatever timer, keyboard, page-fault and divide interrupts come between the instructions of a
program, it comes back from every one of them and goes on as if there had been none, as long as
the handlers return with the frame and the program's memory untouched. -/
theorem interrupts_unseen (tss rsp : BitVec 64) (address : Stub → BitVec 64)
    (tssAt : BitVec 64 → Option TaskState) (t : SystemTables)
    (hboot : bootTables tss tssAt address = some t)
    (htss : tssAt tss = some (setTssRsp rsp tssClear)) (user : BitVec 64 → Prop)
    (hu : ∀ a, user a → ¬KernelStack rsp a) (prog : UserProgram user) (p : Processor Reg)
    (hp : InUserMode p) (ops : List (Option Visit))
    (hops : ∀ i, some i ∈ ops → i.Returns user) :
    ∃ r, prog.interrupted t ops p = some r ∧ Alike user r (prog.next^[ops.countP Option.isNone] p) := by
  rw [bootTables_eq tss address _ htss] at hboot
  obtain rfl := Option.some.inj hboot
  exact prog.interrupted_alike hu ops hops hp (.refl user p)

section Examples

/-- A program at address 0x400. -/
def programAt400 : Processor Reg := ⟨⟨fun _ => 0, 0x500, 0x400, fun _ => 0⟩, 0x2B, 0x23, 0x202⟩

theorem programAt400_inUserMode : InUserMode programAt400 := ⟨rfl, rfl, by decide, by decide⟩

theorem keepsStack_id (n : Nat) : KeepsStack n id := ⟨fun _ => rfl, fun _ _ _ => rfl⟩

/-- A page fault. -/
theorem interrupt_returns_pageFault :
    ∃ q r, raise demoTables ⟨.exception, 14, 6⟩
        programAt400 = some q ∧
      Stub.isr14.back demoTables id q = some r ∧
      r.ip = 0x400 ∧ r.sp = 0x500 ∧ r.cs = 0x2B ∧ r.ss = 0x23 ∧ r.flags = 0x202 :=
  (interrupt_returns_iff 0 0x8000 vectorAddress tssAnywhere _ bootTables_demo rfl programAt400
    programAt400_inUserMode .isr14 ⟨.exception, 14, 6⟩ ⟨rfl, rfl⟩ id (keepsStack_id _)).1.mpr
    (by decide)

/-- A row of one-byte instructions in the first page. -/
def nops : UserProgram (· < 0x1000) where
  next p := { p with ip := p.ip + 1 }
  alike _ _ h := ⟨h.reg, h.sp, congrArg (· + 1) h.ip, h.cs, h.ss, h.flags, h.mem⟩
  inUserMode _ h := ⟨h.cs, h.ss, h.interrupts, h.iopl⟩

/-- Two instructions with the timer between them. -/
theorem interrupts_unseen_timer :
    ∃ r, nops.interrupted demoTables
        [none, some ⟨.irq0, 0, id⟩, none] programAt400 = some r ∧ r.ip = 0x402 := by
  have hu (a : BitVec 64) (ha : a < 0x1000) : ¬KernelStack 0x8000 a := by
    rintro ⟨j, hj, rfl⟩
    have htop : (0x8000 &&& ~~~0xF : BitVec 64) = 0x8000 := by decide
    rw [htop] at ha
    bv_omega
  obtain ⟨r, hr, h⟩ := interrupts_unseen 0 0x8000 vectorAddress tssAnywhere _ bootTables_demo rfl
    (· < 0x1000) hu nops programAt400 programAt400_inUserMode [none, some ⟨.irq0, 0, id⟩, none]
    (by
      intro i hi
      obtain rfl : i = ⟨.irq0, 0, id⟩ := by simpa using hi
      exact ⟨keepsStack_id _, fun _ _ _ => rfl, by decide, by decide⟩)
  exact ⟨r, hr, h.ip.trans (by decide)⟩

end Examples

end SBUnix
