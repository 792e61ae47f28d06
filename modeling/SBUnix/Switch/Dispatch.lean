import SBUnix.Switch.Trap

namespace SBUnix

open StackMachine

def pushal : List Reg :=
  [.rax, .rbx, .rcx, .rdx, .rbp, .r15, .r14, .r13, .r12, .r11, .r10, .r9, .r8]

/-- `dispatch`, from its first push to its ret; the popal before the ret is commented out. -/
def dispatch (c : Cpu Reg) : Cpu Reg :=
  let c := push .rdi (push .rsi (pushAll pushal c))
  let c := store (c.reg .rdi + 0x10) c.sp c
  let c := { c with sp := c.mem (c.reg .rsi + 0x8) }
  ret (pop .rsi (pop .rdi c))

/-- The C call `dispatch(me, next)` with return address `back`. -/
def switchTo (me next back : BitVec 64) (c : Cpu Reg) : Cpu Reg :=
  dispatch (pushWord back
    { c with reg := Function.update (Function.update c.reg .rdi me) .rsi next })

def calleeSaved : List Reg := [.rbx, .rbp, .r12, .r13, .r14, .r15]

/-- Offsets from `&pcb->c_t`: `rsp` is at 8, behind `rip`; then come `pid`, the word with
`proc_state` and `exit_status`, and `next`. -/
def ctxRsp : BitVec 64 := 0x8
def pcbPid : BitVec 64 := 0x10
def pcbState : BitVec 64 := 0x18
def pcbNext : BitVec 64 := 0x20

/-- The words a call of dispatch pushes: the return address, thirteen registers, rsi and
rdi. -/
def OnFrame (sp a : BitVec 64) : Prop := ∃ j < 16, a = sp - BitVec.ofNat 64 (8*(j+1))

section SwitchTo

variable (me next back : BitVec 64) (c : Cpu Reg)

/-- The processor when all fifteen registers are on the stack. -/
private def saved : Cpu Reg :=
  pushAll (pushal ++ [.rsi, .rdi]) (pushWord back
    { c with reg := Function.update (Function.update c.reg .rdi me) .rsi next })

private theorem saved_sp : (saved me next back c).sp = c.sp - 128 := by
  rw [saved, pushAll_sp]
  change c.sp - 8 - BitVec.ofNat 64 120 = _
  bv_omega

private theorem saved_mem (a : BitVec 64) (h : ¬OnFrame c.sp a) :
    (saved me next back c).mem a = c.mem a := by
  rw [saved, pushAll_mem]
  · change Function.update c.mem (c.sp - 8) back a = _
    rw [Function.update_of_ne]
    intro he
    exact h ⟨0, by norm_num, he⟩
  · intro j hj he
    have hj' : j < 15 := hj
    refine h ⟨j+1, by omega, ?_⟩
    rw [he]
    change c.sp - 8 - _ = _
    bv_omega

private theorem saved_back : (saved me next back c).mem (c.sp - 8) = back := by
  rw [saved, pushAll_mem]
  · exact Function.update_self _ _ _
  · intro j hj he
    have hj' : j < 15 := hj
    change c.sp - 8 = c.sp - 8 - _ at he
    bv_omega

theorem switchTo_eq :
    let s := saved me next back c
    let mem := Function.update s.mem (me + 0x10) (c.sp - 128)
    let sp := mem (next + 0x8)
    switchTo me next back c =
      ret (pop .rsi (pop .rdi { s with mem := mem, sp := sp })) := by
  have hrdi : (saved me next back c).reg .rdi = me := by
    rw [saved, pushAll_reg]
    rfl
  have hrsi : (saved me next back c).reg .rsi = next := by
    rw [saved, pushAll_reg]
    rfl
  have hsp := saved_sp me next back c
  have hs : push .rdi (push .rsi (pushAll pushal (pushWord back
      { c with reg := Function.update (Function.update c.reg .rdi me) .rsi next }))) =
      saved me next back c := by
    rw [saved, pushAll, pushAll, List.foldl_append]
    rfl
  simp only [switchTo, dispatch, hs, store, hrdi, hrsi, hsp]

theorem switchTo_mem (a : BitVec 64) (hf : ¬OnFrame c.sp a) (ha : a ≠ me + pcbPid) :
    (switchTo me next back c).mem a = c.mem a := by
  rw [switchTo_eq]
  change Function.update (saved me next back c).mem (me + pcbPid) (c.sp - 128) a = _
  rw [Function.update_of_ne ha, saved_mem me next back c a hf]

/-- The stack pointer goes to offset 0x10, where the pid is. -/
theorem switchTo_pid : (switchTo me next back c).mem (me + pcbPid) = c.sp - 128 := by
  rw [switchTo_eq]
  exact Function.update_self _ _ _

theorem switchTo_back (h : c.sp - 8 ≠ me + pcbPid) :
    (switchTo me next back c).mem (c.sp - 8) = back := by
  rw [switchTo_eq]
  change Function.update (saved me next back c).mem (me + pcbPid) (c.sp - 128) (c.sp - 8) = _
  rw [Function.update_of_ne h, saved_back]

theorem switchTo_reg (r : Reg) (hr : r ∈ calleeSaved) :
    (switchTo me next back c).reg r = c.reg r := by
  have hs : (saved me next back c).reg r = c.reg r := by
    rw [saved, pushAll_reg]
    simp only [calleeSaved, List.mem_cons, List.not_mem_nil, or_false] at hr
    rcases hr with rfl | rfl | rfl | rfl | rfl | rfl <;> rfl
  rw [switchTo_eq, ← hs]
  simp only [calleeSaved, List.mem_cons, List.not_mem_nil, or_false] at hr
  rcases hr with rfl | rfl | rfl | rfl | rfl | rfl <;> rfl

/-- The next thread comes up three words above what its `c_t.rsp` says. -/
theorem switchTo_resume (hf : ¬OnFrame c.sp (next + ctxRsp)) (ha : next + ctxRsp ≠ me + pcbPid) :
    (switchTo me next back c).sp = c.mem (next + ctxRsp) + 24 ∧
    (switchTo me next back c).ip =
      (switchTo me next back c).mem (c.mem (next + ctxRsp) + 16) := by
  have hsp : Function.update (saved me next back c).mem (me + 0x10) (c.sp - 128) (next + 0x8) =
      c.mem (next + ctxRsp) := by
    refine (Function.update_of_ne ha _ _).trans ?_
    exact saved_mem me next back c _ hf
  rw [switchTo_eq, hsp]
  constructor
  · change c.mem (next + ctxRsp) + 8 + 8 + 8 = _
    bv_omega
  · change Function.update (saved me next back c).mem _ _ (c.mem (next + ctxRsp) + 8 + 8) =
      Function.update (saved me next back c).mem _ _ (c.mem (next + ctxRsp) + 16)
    congr 1
    bv_omega

end SwitchTo

/-- Thread `A` leaves with `dispatch(A, B)` in state `c`, and thread `X` comes back to it with
`dispatch(X, A)` in state `d`. `own` holds of the words of `A`'s PCB and stack, which nobody
else has written in between. -/
structure RoundTrip (A B X back : BitVec 64) (own : BitVec 64 → Prop) (c d : Cpu Reg) :
    Prop where
  stack : ∀ a, OnFrame c.sp a → own a
  fields : own (A + ctxRsp)
  apart : ∀ f ∈ [ctxRsp, pcbPid, pcbState, pcbNext], ¬OnFrame c.sp (A + f)
  others : ∀ a, own a → d.mem a = (switchTo A B back c).mem a
  frame : ∀ a, own a → ¬OnFrame d.sp a
  pcb : ∀ a, own a → a ≠ X + pcbPid

/-- `A` is back where it called, with its stack pointer and callee-saved registers, and the
rest of its PCB is as it was. -/
def Resumes (A B X back back' : BitVec 64) (c d : Cpu Reg) : Prop :=
  let r := switchTo X A back' d
  r.ip = back ∧ r.sp = c.sp ∧ (∀ q ∈ calleeSaved, r.reg q = c.reg q) ∧
  ∀ f ∈ [pcbPid, pcbState, pcbNext], (switchTo A B back c).mem (A + f) = c.mem (A + f)

/-- dispatch saves the stack pointer over the pid, never updates `c_t.rsp` and does not pop
what it pushed, so a thread comes back as it left only when those values happen to agree. -/
theorem dispatch_resumes_iff (A B X back back' : BitVec 64) (own : BitVec 64 → Prop)
    (c d : Cpu Reg) (h : RoundTrip A B X back own c d) :
    Resumes A B X back back' c d ↔
      c.mem (A + ctxRsp) + 24 = c.sp ∧ (∀ q ∈ calleeSaved, d.reg q = c.reg q) ∧
      c.mem (A + pcbPid) = c.sp - 128 := by
  have hctx : A + ctxRsp ≠ A + pcbPid := by
    unfold ctxRsp pcbPid
    bv_omega
  have hrsp : d.mem (A + ctxRsp) = c.mem (A + ctxRsp) := by
    rw [h.others _ h.fields]
    exact switchTo_mem A B back c _ (h.apart _ (by simp)) hctx
  obtain ⟨hsp, hip⟩ := switchTo_resume X A back' d (h.frame _ h.fields) (h.pcb _ h.fields)
  have hreg (q : Reg) (hq : q ∈ calleeSaved) := switchTo_reg X A back' d q hq
  have hpid := switchTo_pid A B back c
  rw [hrsp] at hsp hip
  constructor
  · rintro ⟨-, h2, h3, h4⟩
    refine ⟨hsp.symm.trans h2, fun q hq => (hreg q hq).symm.trans (h3 q hq), ?_⟩
    exact (h4 pcbPid (by simp)).symm.trans hpid
  · rintro ⟨h1, h2, h3⟩
    have htop : OnFrame c.sp (c.sp - 8) := ⟨0, by norm_num, rfl⟩
    have hback : c.sp - 8 ≠ A + pcbPid := fun he => h.apart pcbPid (by simp) (he ▸ htop)
    refine ⟨?_, hsp.trans h1, fun q hq => (hreg q hq).trans (h2 q hq), ?_⟩
    · rw [hip, show c.mem (A + ctxRsp) + 16 = c.sp - 8 by rw [← h1]; bv_omega,
        switchTo_mem X A back' d _ (h.frame _ (h.stack _ htop)) (h.pcb _ (h.stack _ htop)),
        h.others _ (h.stack _ htop), switchTo_back A B back c hback]
    · intro f hf
      simp only [List.mem_cons, List.not_mem_nil, or_false] at hf
      rcases hf with rfl | rfl | rfl
      · exact hpid.trans h3.symm
      · refine switchTo_mem A B back c _ (h.apart _ (by simp)) ?_
        unfold pcbState pcbPid
        bv_omega
      · refine switchTo_mem A B back c _ (h.apart _ (by simp)) ?_
        unfold pcbNext pcbPid
        bv_omega

/-- A thread whose `c_t` at 0x800 is behind 0x800 bytes of stack. -/
def threadAt (rsp pid : BitVec 64) : Cpu Reg where
  reg _ := 0
  sp := 0x7f0
  ip := 0
  mem a := if a = 0x808 then rsp else if a = 0x810 then pid else 0

/-- Another thread, on a stack below 0x1800, about to switch back. -/
def otherThread (mem : BitVec 64 → BitVec 64) : Cpu Reg := ⟨fun _ => 0, 0x17f0, 0, mem⟩

theorem roundTrip_other (rsp pid : BitVec 64) :
    RoundTrip 0x800 0x1800 0x1800 0x200100 (fun a => a.toNat < 0x1000) (threadAt rsp pid)
      (otherThread (switchTo 0x800 0x1800 0x200100 (threadAt rsp pid)).mem) := by
  obtain ⟨e, he⟩ : ∃ e, e = switchTo 0x800 0x1800 0x200100 (threadAt rsp pid) := ⟨_, rfl⟩
  constructor
  case stack =>
    rintro a ⟨j, hj, rfl⟩
    change (0x7f0 - BitVec.ofNat 64 (8*(j+1))).toNat < 0x1000
    interval_cases j <;> decide
  case fields => decide
  case apart =>
    rintro f hf ⟨j, hj, ha⟩
    change 0x800 + f = 0x7f0 - BitVec.ofNat 64 (8*(j+1)) at ha
    simp only [List.mem_cons, List.not_mem_nil, or_false] at hf
    rcases hf with rfl | rfl | rfl | rfl <;> interval_cases j <;> revert ha <;> decide
  case others =>
    intro a _
    rw [← he]
    rfl
  case frame =>
    rintro a ha ⟨j, hj, rfl⟩
    change (0x17f0 - BitVec.ofNat 64 (8*(j+1))).toNat < 0x1000 at ha
    interval_cases j <;> revert ha <;> decide
  case pcb =>
    rintro a ha rfl
    revert ha
    decide

theorem dispatch_resumes_by_chance :
    Resumes 0x800 0x1800 0x1800 0x200100 0x200200 (threadAt 0x7d8 0x770)
      (otherThread (switchTo 0x800 0x1800 0x200100 (threadAt 0x7d8 0x770)).mem) :=
  (dispatch_resumes_iff 0x800 0x1800 0x1800 0x200100 0x200200 _ _ _
    (roundTrip_other 0x7d8 0x770)).mpr ⟨by decide, fun q _ => by rw [otherThread, threadAt],
      by decide⟩

/-- As init_pcb sets it up, with pid 1: the first switch away leaves a stack pointer there. -/
theorem dispatch_overwrites_pid :
    (threadAt 0x7f0 1).mem (0x800 + pcbPid) = 1 ∧
    (switchTo 0x800 0x1800 0x200100 (threadAt 0x7f0 1)).mem (0x800 + pcbPid) = 0x770 :=
  ⟨rfl, switchTo_pid 0x800 0x1800 0x200100 (threadAt 0x7f0 1)⟩

end SBUnix
