import SBUnix.Framework.StackMachine

namespace SBUnix

open StackMachine

/-- The general registers that PUSHA saves. -/
inductive Reg where
  | rax | rbx | rcx | rdx | rsi | rdi | rbp | r8 | r9 | r10 | r11 | r12 | r13 | r14 | r15
  deriving DecidableEq, Repr

/-- The order of the pushes in PUSHA. -/
def pusha : List Reg :=
  [.rdi, .rax, .rbx, .rcx, .rdx, .rbp, .rsi, .r8, .r9, .r10, .r11, .r12, .r13, .r14, .r15]

def popa : List Reg :=
  [.r15, .r14, .r13, .r12, .r11, .r10, .r9, .r8, .rsi, .rbp, .rdx, .rcx, .rbx, .rax, .rdi]

/-- The pops written out in isr128, which leave rax alone. -/
def isr128Pops : List Reg :=
  [.r15, .r15, .r14, .r13, .r12, .r11, .r10, .r9, .r8, .rsi, .rbp, .rdx, .rcx, .rbx, .rdi]

/-- A C handler as the stub sees it: back at the same stack pointer with the fifteen words
of PUSHA untouched; every register may have changed. -/
structure KeepsFrame (handler : Cpu Reg → Cpu Reg) : Prop where
  sp : ∀ c, (handler c).sp = c.sp
  frame : ∀ c, ∀ j < 15, word (handler c) j = word c j

/-- From the stub's first instruction to its iretq. -/
def isr128 (handler : Cpu Reg → Cpu Reg) (c : Cpu Reg) : Cpu Reg :=
  popAll isr128Pops (handler (pushAll pusha c))

def irq0 (handler : Cpu Reg → Cpu Reg) (c : Cpu Reg) : Cpu Reg :=
  let c := pushAll pusha c
  popAll popa (handler { c with reg := Function.update c.reg .rdi c.sp })

section Stub

variable {handler : Cpu Reg → Cpu Reg} (hk : KeepsFrame handler) (c : Cpu Reg)
include hk

theorem frame_words (d : Cpu Reg) (hsp : d.sp = (pushAll pusha c).sp)
    (hmem : d.mem = (pushAll pusha c).mem) (j : Nat) (hj : j < 15) :
    word (handler d) j = (popa.map c.reg).get ⟨j, hj⟩ := by
  rw [hk.frame d j hj, word, hsp, hmem]
  refine (pushAll_word pusha c j hj (by decide)).trans ?_
  interval_cases j <;> rfl

theorem popAll_frame (rs : List Reg) (hl : rs.length = 15) (d : Cpu Reg)
    (hsp : d.sp = (pushAll pusha c).sp) (hmem : d.mem = (pushAll pusha c).mem) :
    (popAll rs (handler d)).reg = assign (handler d).reg rs (popa.map c.reg) ∧
    (popAll rs (handler d)).sp = c.sp := by
  obtain ⟨h1, h2, -⟩ := popAll_spec rs (popa.map c.reg) (handler d) (by rw [hl]; rfl)
    (frame_words hk c d hsp hmem)
  refine ⟨h1, ?_⟩
  rw [h2, hk.sp, hsp, pushAll_sp, hl]
  exact BitVec.sub_add_cancel _ _

/-- The interrupt stub that uses POPA gives every register back. -/
theorem irq0_preserves : (irq0 handler c).sp = c.sp ∧ (irq0 handler c).reg = c.reg := by
  obtain ⟨h1, h2⟩ := popAll_frame hk c popa rfl { pushAll pusha c with
    reg := Function.update (pushAll pusha c).reg .rdi (pushAll pusha c).sp } rfl rfl
  refine ⟨h2, ?_⟩
  rw [irq0, h1]
  funext r
  cases r <;> rfl

/-- Where isr128 takes a register's value from: its second pop of r15 puts everything but
rdi one register further down the list. -/
def isr128Source : Reg → Reg
  | .rax => .rax
  | .rbx => .rax
  | .rcx => .rbx
  | .rdx => .rcx
  | .rbp => .rdx
  | .rsi => .rbp
  | .r8 => .rsi
  | .r9 => .r8
  | .r10 => .r9
  | .r11 => .r10
  | .r12 => .r11
  | .r13 => .r12
  | .r14 => .r13
  | .r15 => .r14
  | .rdi => .rdi

theorem isr128_reg (r : Reg) (h : r ≠ .rax) :
    (isr128 handler c).reg r = c.reg (isr128Source r) := by
  obtain ⟨h1, -⟩ := popAll_frame hk c isr128Pops rfl (pushAll pusha c) rfl rfl
  rw [isr128, h1]
  cases r <;> first | rfl | exact absurd rfl h

theorem isr128_sp : (isr128 handler c).sp = c.sp :=
  (popAll_frame hk c isr128Pops rfl (pushAll pusha c) rfl rfl).2

end Stub

/-- isr128 gives every register but rax back, with the stack pointer at the iretq frame,
exactly when the registers other than rdi all held one value. -/
theorem isr128_preserves_iff (handler : Cpu Reg → Cpu Reg) (hk : KeepsFrame handler)
    (c : Cpu Reg) :
    ((isr128 handler c).sp = c.sp ∧
      ∀ r, r ≠ .rax → (isr128 handler c).reg r = c.reg r) ↔
    ∀ r, r ≠ .rdi → c.reg r = c.reg .rax := by
  constructor
  · rintro ⟨-, h⟩
    have step (r : Reg) (hr : r ≠ .rax) : c.reg r = c.reg (isr128Source r) :=
      (h r hr).symm.trans (isr128_reg hk c r hr)
    -- following the sources from any register but rdi ends at rax
    intro r hne
    cases r <;> grind [isr128Source]
  · intro h
    refine ⟨isr128_sp hk c, ?_⟩
    intro r hr
    rw [isr128_reg hk c r hr]
    rcases eq_or_ne r .rdi with rfl | hd
    · rfl
    · have hs : isr128Source r ≠ .rdi := by
        cases r <;> first | exact absurd rfl hd | exact nofun
      exact (h _ hs).trans (h r hd).symm

theorem keepsFrame_id : KeepsFrame id := ⟨fun _ => rfl, fun _ _ _ => rfl⟩

theorem isr128_preserves_equal_registers :
    (isr128 id ⟨fun _ => 7, 0x1000, 0, fun _ => 0⟩).sp = 0x1000 ∧
      ∀ r, r ≠ .rax → (isr128 id ⟨fun _ => 7, 0x1000, 0, fun _ => 0⟩).reg r = 7 :=
  (isr128_preserves_iff id keepsFrame_id ⟨fun _ => 7, 0x1000, 0, fun _ => 0⟩).mpr fun _ _ => rfl

/-- A system call 2 with its buffer address in rbx comes back with the call's number there. -/
theorem isr128_loses_rbx :
    let c : Cpu Reg := ⟨fun r => if r = .rax then 2 else if r = .rbx then 0x401000 else 0,
      0x1000, 0, fun _ => 0⟩
    c.reg .rbx = 0x401000 ∧ (isr128 id c).reg .rbx = 2 :=
  ⟨rfl, isr128_reg keepsFrame_id _ .rbx nofun⟩

end SBUnix
