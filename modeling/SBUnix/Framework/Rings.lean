import SBUnix.Framework.StackMachine

namespace Rings

open StackMachine

/-- A code or data segment, as the processor reads its descriptor. -/
structure Descriptor where
  present : Bool
  dpl : BitVec 2
  codeOrData : Bool
  executable : Bool
  conforming : Bool
  writable : Bool
  long : Bool
  big : Bool
  deriving DecidableEq, Repr

def Descriptor.ofWord (w : BitVec 64) : Descriptor where
  present := w.getLsbD 47
  dpl := w.extractLsb' 45 2
  codeOrData := w.getLsbD 44
  executable := w.getLsbD 43
  conforming := w.getLsbD 42
  writable := w.getLsbD 41
  long := w.getLsbD 53
  big := w.getLsbD 54

/-- 64-bit code. -/
def Descriptor.isCode (s : Descriptor) : Bool := s.codeOrData && s.executable && s.long && !s.big

def Descriptor.isStack (s : Descriptor) : Bool := s.codeOrData && !s.executable && s.writable

/-- The system descriptor that ltr reads. -/
structure TaskSegment where
  base : BitVec 64
  limit : BitVec 20
  kind : BitVec 5
  present : Bool
  deriving DecidableEq, Repr

def TaskSegment.ofWords (low high : BitVec 64) : TaskSegment where
  base := high.extractLsb' 0 32 ++ low.extractLsb' 56 8 ++ low.extractLsb' 16 24
  limit := low.extractLsb' 48 4 ++ low.extractLsb' 0 16
  kind := low.extractLsb' 40 5
  present := low.getLsbD 47

structure Gate where
  offset : BitVec 64
  selector : BitVec 16
  ist : BitVec 3
  kind : BitVec 5
  dpl : BitVec 2
  present : Bool
  deriving DecidableEq, Repr

def Gate.ofWords (low high : BitVec 64) : Gate where
  offset := high.extractLsb' 0 32 ++ low.extractLsb' 48 16 ++ low.extractLsb' 0 16
  selector := low.extractLsb' 16 16
  ist := low.extractLsb' 32 3
  kind := low.extractLsb' 40 5
  dpl := low.extractLsb' 45 2
  present := low.getLsbD 47

def interruptGate : BitVec 5 := 14
def trapGate : BitVec 5 := 15

/-- The stacks a task state segment names: one for each ring, and those of the gates. -/
structure TaskState where
  rsp : BitVec 2 → BitVec 64
  ist : BitVec 3 → BitVec 64

structure SystemTables where
  gdt : List (BitVec 64)
  idt : BitVec 8 → BitVec 64 × BitVec 64
  tss : TaskState

def isNull (selector : BitVec 16) : Bool := selector.extractLsb' 2 14 == 0

def rpl (selector : BitVec 16) : BitVec 2 := selector.extractLsb' 0 2

/-- Selectors of a local table are none. -/
def SystemTables.segment (t : SystemTables) (selector : BitVec 16) : Option Descriptor :=
  if isNull selector ∨ selector.getLsbD 2 then none
  else t.gdt[(selector >>> 3).toNat]?.map Descriptor.ofWord

def SystemTables.gate (t : SystemTables) (v : BitVec 8) : Gate := .ofWords (t.idt v).1 (t.idt v).2

/-- A processor in long mode. `flags` is RFLAGS but for RF, which no program sees. -/
structure Processor (R : Type*) extends Cpu R where
  cs : BitVec 16
  ss : BitVec 16
  flags : BitVec 64

variable {R : Type*}

def Processor.cpl (p : Processor R) : BitVec 2 := rpl p.cs

inductive Origin where
  | exception
  | external
  | software
  deriving DecidableEq, Repr

/-- The exceptions that come with an error code. -/
def codeVectors : List (BitVec 8) := [8, 10, 11, 12, 13, 14, 17, 21, 29, 30]

/-- An event that asks for the handler of a vector. -/
structure TrapEvent where
  origin : Origin
  vector : BitVec 8
  code : BitVec 64
  deriving DecidableEq, Repr

def TrapEvent.codes (e : TrapEvent) : List (BitVec 64) :=
  if e.origin = .exception ∧ e.vector ∈ codeVectors then [e.code] else []

/-- A fault on the way to a handler, with its error code. -/
def faultAt (e : TrapEvent) (v : BitVec 8) (code : BitVec 64) : TrapEvent :=
  ⟨.exception, v, code ||| (if e.origin = .software then 0 else 1)⟩

def generalProtection : BitVec 8 := 13
def notPresent : BitVec 8 := 11
def doubleFault : BitVec 8 := 8

def flagIF : Nat := 9
def flagNT : Nat := 14

/-- IF, TF and NT; a trap gate leaves IF alone. -/
def maskedFlags (kind : BitVec 5) : BitVec 64 := if kind = interruptGate then 0x4300 else 0x4100

/-- What the processor pushes, the first word first. -/
def Processor.frame (p : Processor R) (e : TrapEvent) : List (BitVec 64) :=
  [p.ss.setWidth 64, p.sp, p.flags, p.cs.setWidth 64, p.ip] ++ e.codes

/-- The stack the frame is pushed on. -/
def Processor.frameTop (p : Processor R) (t : SystemTables) (g : Gate) (ring : BitVec 2) :
    BitVec 64 :=
  (if g.ist ≠ 0 then t.tss.ist g.ist else if ring < p.cpl then t.tss.rsp ring else p.sp) &&&
    ~~~0xF

/-- Entry into a handler through its gate, or the fault that stops it. The stack is taken to be
mapped. -/
def deliver (t : SystemTables) (e : TrapEvent) (p : Processor R) : Except TrapEvent (Processor R) :=
  let g := t.gate e.vector
  let gateCode : BitVec 64 := BitVec.ofNat 64 (8*e.vector.toNat + 2)
  if g.kind ≠ interruptGate ∧ g.kind ≠ trapGate then
    .error (faultAt e generalProtection gateCode)
  else if e.origin = .software ∧ g.dpl < p.cpl then
    .error (faultAt e generalProtection gateCode)
  else if g.present = false then .error (faultAt e notPresent gateCode)
  else
    let selectorCode : BitVec 64 := (g.selector &&& ~~~7).setWidth 64
    match t.segment g.selector with
    | none => .error (faultAt e generalProtection selectorCode)
    | some s =>
      if s.isCode = false ∨ p.cpl < s.dpl then
        .error (faultAt e generalProtection selectorCode)
      else if s.present = false then .error (faultAt e notPresent selectorCode)
      else
        let ring := if s.conforming then p.cpl else s.dpl
        .ok { pushWords (p.frame e) { p.toCpu with sp := p.frameTop t g ring } with
          ip := g.offset
          cs := (g.selector &&& ~~~3) ||| ring.setWidth 16
          ss := if ring < p.cpl then ring.setWidth 16 else p.ss
          flags := p.flags &&& ~~~maskedFlags g.kind }

/-- A second fault while one of these is delivered is a double fault. -/
def contributory : List (BitVec 8) := [0, 10, 11, 12, 13, 14]

def TrapEvent.escalates (e : TrapEvent) : Bool := e.origin == .exception && e.vector ∈ contributory

/-- A software interrupt that is refused faults at the instruction itself, which has two bytes. -/
def Processor.refused (p : Processor R) (e : TrapEvent) : Processor R :=
  if e.origin = .software then { p with ip := p.ip - 2 } else p

/-- An event with the faults it leads to. `none` is a reset: not even a double fault could be
delivered. -/
def raise (t : SystemTables) (e : TrapEvent) (p : Processor R) : Option (Processor R) :=
  let doubled := match deliver t ⟨.exception, doubleFault, 0⟩ (p.refused e) with
    | .ok q => some q
    | .error _ => none
  match deliver t e p with
  | .ok q => some q
  | .error f =>
    if e.origin = .exception ∧ e.vector = doubleFault then none
    else if e.escalates then doubled
    else match deliver t f (p.refused e) with
      | .ok q => some q
      | .error _ => doubled

/-- iretq takes 64-bit code of its own ring or an outer one. -/
def SystemTables.returnsTo (t : SystemTables) (cpl : BitVec 2) (cs : BitVec 16) : Bool :=
  match t.segment cs with
  | none => false
  | some s => s.isCode && s.present && cpl ≤ rpl cs &&
      (if s.conforming then s.dpl ≤ rpl cs else s.dpl == rpl cs)

/-- The stack that goes with it. -/
def SystemTables.stacksOn (t : SystemTables) (ring : BitVec 2) (ss : BitVec 16) : Bool :=
  if isNull ss then ring != 3
  else match t.segment ss with
    | none => false
    | some s => s.isStack && s.present && s.dpl == ring && rpl ss == ring

/-- iretq in ring 0; `none` is a fault. That addresses are canonical is not checked. -/
def iretq (t : SystemTables) (p : Processor R) : Option (Processor R) :=
  let cs : BitVec 16 := (word p.toCpu 1).setWidth 16
  let ss : BitVec 16 := (word p.toCpu 4).setWidth 16
  if p.flags.getLsbD flagNT = false ∧ t.returnsTo p.cpl cs ∧ t.stacksOn (rpl cs) ss then
    some { p with
      ip := word p.toCpu 0
      cs := cs
      flags := word p.toCpu 2
      sp := word p.toCpu 3
      ss := ss }
  else none

/-- The five words that iretq pops, from the stack pointer up. -/
def Processor.saved (p : Processor R) : List (BitVec 64) :=
  [p.ip, p.cs.setWidth 64, p.flags, p.sp, p.ss.setWidth 64]

/-- An interrupt gate into ring 0. -/
structure SystemTables.Enters (t : SystemTables) (v : BitVec 8) (offset : BitVec 64)
    (selector : BitVec 16) (dpl : BitVec 2) (s : Descriptor) : Prop where
  gate : t.gate v = ⟨offset, selector, 0, interruptGate, dpl, true⟩
  segment : t.segment selector = some s
  code : s.isCode
  present : s.present
  conforming : s.conforming = false
  ring : s.dpl = 0

theorem setWidth_setWidth_16 (x : BitVec 16) : (x.setWidth 64).setWidth 16 = x := by
  simp

/-- Entry through such a gate, from any ring. -/
theorem SystemTables.Enters.deliver {t : SystemTables} {e : TrapEvent} {offset : BitVec 64}
    {selector : BitVec 16} {dpl : BitVec 2} {s : Descriptor}
    (h : t.Enters e.vector offset selector dpl s)
    (p : Processor R) (hs : e.origin = .software → p.cpl ≤ dpl) :
    Rings.deliver t e p = .ok
      { pushWords (p.frame e) { p.toCpu with sp :=
          (if 0 < p.cpl then t.tss.rsp 0 else p.sp) &&& ~~~0xF } with
        ip := offset
        cs := selector &&& ~~~3
        ss := if 0 < p.cpl then 0 else p.ss
        flags := p.flags &&& ~~~0x4300 } := by
  have hsoft : ¬(e.origin = .software ∧ dpl < p.cpl) := by
    intro ⟨ho, hlt⟩
    exact absurd hlt (BitVec.not_lt.mpr (hs ho))
  have hring : ¬p.cpl < 0 := by simp
  simp only [Rings.deliver, h.gate, h.segment, h.code, h.present, h.conforming, h.ring, hsoft,
    hring, Processor.frameTop, maskedFlags]
  simp

theorem SystemTables.Enters.raise {t : SystemTables} {e : TrapEvent} {offset : BitVec 64}
    {selector : BitVec 16} {dpl : BitVec 2} {s : Descriptor}
    (h : t.Enters e.vector offset selector dpl s)
    (p : Processor R) (hs : e.origin = .software → p.cpl ≤ dpl) :
    Rings.raise t e p = some
      { pushWords (p.frame e) { p.toCpu with sp :=
          (if 0 < p.cpl then t.tss.rsp 0 else p.sp) &&& ~~~0xF } with
        ip := offset
        cs := selector &&& ~~~3
        ss := if 0 < p.cpl then 0 else p.ss
        flags := p.flags &&& ~~~0x4300 } := by
  rw [Rings.raise, h.deliver p hs]

/-- An entry of zeros is no gate. -/
theorem deliver_absent {t : SystemTables} {e : TrapEvent} (h : (t.gate e.vector).kind = 0)
    (p : Processor R) : ∃ f, deliver t e p = .error f ∧ f.vector = generalProtection := by
  have hkind : (t.gate e.vector).kind ≠ interruptGate ∧ (t.gate e.vector).kind ≠ trapGate := by
    rw [h]
    decide
  rw [deliver, if_pos hkind]
  exact ⟨_, rfl, rfl⟩

theorem deliver_forbidden {t : SystemTables} {e : TrapEvent} {p : Processor R}
    (ho : e.origin = .software) (h : (t.gate e.vector).dpl < p.cpl) :
    ∃ f, deliver t e p = .error f ∧ f.vector = generalProtection := by
  rw [deliver]
  split_ifs with h1 h2
  · exact ⟨_, rfl, rfl⟩
  · exact ⟨_, rfl, rfl⟩
  all_goals exact absurd ⟨ho, h⟩ h2

/-- Without a gate for the general protection fault and one for the double fault, an event that
is refused resets the processor. -/
theorem raise_refused {t : SystemTables} {e : TrapEvent} {p : Processor R}
    (h : ∃ f, deliver t e p = .error f ∧ f.vector = generalProtection)
    (h13 : (t.gate generalProtection).kind = 0) (h8 : (t.gate doubleFault).kind = 0) :
    raise t e p = none := by
  obtain ⟨f, hf, hv⟩ := h
  obtain ⟨f', hf', -⟩ := deliver_absent (e := f) (by rw [hv]; exact h13) (p.refused e)
  obtain ⟨g, hg, -⟩ := deliver_absent (e := ⟨.exception, doubleFault, 0⟩) h8 (p.refused e)
  simp only [raise, hf, hf', hg, ite_self]

theorem frame_reverse (p : Processor R) (e : TrapEvent) : (p.frame e).reverse = e.codes ++ p.saved := by
  have hcodes : e.codes.reverse = e.codes := by
    rw [TrapEvent.codes]
    split_ifs <;> rfl
  rw [Processor.frame, List.reverse_append, hcodes]
  rfl

/-- iretq undoes an entry if the words it finds are those that were pushed. -/
theorem iretq_saved {t : SystemTables} {p r : Processor R} (hr : r.cpl = 0)
    (hnt : r.flags.getLsbD flagNT = false)
    (hcs : t.returnsTo 0 p.cs) (hss : t.stacksOn p.cpl p.ss)
    (h : ∀ j v, p.saved[j]? = some v → word r.toCpu j = v) :
    iretq t r = some { r with ip := p.ip, cs := p.cs, flags := p.flags, sp := p.sp, ss := p.ss } := by
  have h0 := h 0 _ rfl
  have h1 := h 1 _ rfl
  have h2 := h 2 _ rfl
  have h3 := h 3 _ rfl
  have h4 := h 4 _ rfl
  have hring : t.stacksOn (rpl p.cs) p.ss := hss
  simp only [iretq, h0, h1, h2, h3, h4, setWidth_setWidth_16, hr, hnt, hcs, hring, and_self, if_true]

end Rings
