import SBUnix.Console.Screen
import SBUnix.Framework.CString
import SBUnix.Paging.PageAlloc

namespace SBUnix

open ByteMemory CString Word

/-- `last_key_pressed` -/
inductive LastKeyPressed where
  | no | ctrl | shift | alt | caps
  deriving DecidableEq, Repr

def kbdus : List UInt8 := [
  0, 27, 49, 50, 51, 52, 53, 54, 55, 56,  -- Esc 1 .. 8
  57, 48, 45, 61, 8,                      -- 9 0 - = Backspace
  9, 113, 119, 101, 114,                  -- Tab q w e r
  116, 121, 117, 105, 111, 112, 91, 93, 10,
  0,                                      -- Control
  97, 115, 100, 102, 103, 104, 106, 107, 108, 59,
  39, 96, 0,                              -- Left shift
  92, 122, 120, 99, 118, 98, 110,
  109, 44, 46, 47, 0,                     -- Right shift
  42,
  0, 32, 0,                               -- Alt, space, Caps lock
  0, 0, 0, 0, 0, 0, 0, 0, 0, 0,           -- F1 .. F10
  0, 0, 0, 0, 0, 45, 0, 0, 0, 43] ++ List.replicate 49 0

def kbdshift : List UInt8 := [
  0, 27, 33, 64, 35, 36, 37, 94, 38, 42,
  40, 41, 95, 43, 8,
  9, 81, 87, 69, 82,
  84, 89, 85, 73, 79, 80, 123, 125, 10,
  0,
  65, 83, 68, 70, 71, 72, 74, 75, 76, 58,
  34, 126, 0,
  124, 90, 88, 67, 86, 66, 78,
  77, 60, 62, 63, 0,
  42,
  0, 32, 0,
  0, 0, 0, 0, 0, 0, 0, 0, 0, 0,
  0, 0, 0, 0, 0, 45, 0, 0, 0, 43] ++ List.replicate 49 0

def kbdcaps : List UInt8 := [
  0, 27, 49, 50, 51, 52, 53, 54, 55, 56,
  57, 48, 45, 61, 8,
  9, 81, 87, 69, 82,
  84, 89, 85, 73, 79, 80, 91, 93, 10,
  0,
  65, 83, 68, 70, 71, 72, 74, 75, 76, 59,
  39, 96, 0,
  92, 90, 88, 67, 86, 66, 78,
  77, 44, 46, 47, 0,
  42,
  0, 32, 0,
  0, 0, 0, 0, 0, 0, 0, 0, 0, 0,
  0, 0, 0, 0, 0, 45, 0, 0, 0, 43] ++ List.replicate 49 0

example : kbdus.length = 128 ∧ kbdshift.length = 128 ∧ kbdcaps.length = 128 := by decide +kernel

/-- The array `value` is read from. -/
def keyTable : LastKeyPressed → List UInt8
  | .no | .ctrl | .alt => kbdus
  | .shift => kbdshift
  | .caps => kbdcaps

/-- The globals of keyboard.c, over those it shares with paging.c: `counter` is the low half of
the allocator's `int counter`, and `flag` is the same object too. `written` has the kernel
addresses stored to through kbd_buf since gets was last called; nothing reads it. -/
structure Keyboard where
  kern : Kernel
  screen : Screen
  kbdBuf : Nat
  lkp : LastKeyPressed
  checkNl : Bool
  written : List Nat

/-- `counter`, as the `uint16_t` that keyboard.c declares. -/
def Keyboard.counter (k : Keyboard) : Nat := k.kern.counter % 2^16

/-- A store to the `uint16_t`: the upper half of the int stays. -/
def Keyboard.setCounter (k : Keyboard) (c : Nat) : Keyboard :=
  { k with kern := { k.kern with counter := k.kern.counter / 2^16 * 2^16 + c % 2^16 } }

/-- `kbd_buf[i] = v` at kernel address `a`. Until the first gets kbd_buf is NULL, and the byte
goes to the user half, which is not part of the kernel's memory. -/
def Keyboard.storeAt (k : Keyboard) (a : Nat) (v : UInt8) : Keyboard :=
  { k with
    kern := if k.kbdBuf = 0 then k.kern
      else { k.kern with mem := Function.update k.kern.mem (direct a) v }
    written := a :: k.written }

/-- `kbd_buf[counter - 1] = v`; the index is an int, and -1 for a counter of 0. -/
def Keyboard.storeKey (k : Keyboard) (v : UInt8) : Keyboard :=
  k.storeAt (sub64 (add64 k.kbdBuf k.counter) 1) v

def initKbd (k : Keyboard) : Keyboard :=
  { k with
    lkp := .no
    kern := { (k.setCounter 0).kern with flag := true } }

/-- keyboard_handler from the lookup on. -/
def putKey (value : UInt8) (k : Keyboard) : Keyboard :=
  if value = charNewline then { k.storeKey 0 with checkNl := true }
  else if value = charBackspace then
    { k with screen := putch value k.screen }.setCounter (k.counter + (2^16-1))
  else
    { k.storeKey value with screen := putch value k.screen }.setCounter (k.counter + 1)

/-- keyboard_handler on the scancode `inb(0x60)` gave. -/
def keyboardHandler (scancode : UInt8) (k : Keyboard) : Keyboard :=
  if scancode &&& 0x80 ≠ 0 then
    let scancode := scancode - 0x80
    if scancode = 157 ∨ scancode = 170 ∨ scancode = 184 then { k with lkp := .no } else k
  else if scancode = 29 then { k with lkp := .ctrl }
  else if scancode = 42 ∨ scancode = 54 then { k with lkp := .shift }
  else if scancode = 56 then { k with lkp := .alt }
  else if scancode = 58 then { k with lkp := .caps }
  else putKey ((keyTable k.lkp).getD scancode.toNat 0) { k with lkp := .no }

/-- What can interrupt a gets that is waiting: a key, or page allocations of the scheduler or
the page fault handler. -/
inductive Interrupt where
  | key (scancode : UInt8)
  | alloc (call : AllocCall)
  deriving DecidableEq, Repr

def Interrupt.run : Interrupt → Keyboard → Keyboard
  | .key sc, k => keyboardHandler sc k
  | .alloc c, k => { k with kern := (c.run k.kern).2 }

/-- gets up to the `sti`. -/
def getsStart (k : Keyboard) : Keyboard :=
  let r := kmalloc pageSize k.kern
  let k := { k with kern := r.2, kbdBuf := r.1, written := [] }
  if k.kern.flag then
    { k.setCounter 1 with kern := { (k.setCounter 1).kern with flag := false } }
  else k

/-- What kstrcpy copies out of kbd_buf; `none` while it has found no NUL in `n` bytes. -/
def lineAt (n : Nat) (k : Keyboard) : Option Bytes :=
  let b := (List.range n).map fun i => k.kern.mem (direct (add64 k.kbdBuf i))
  if 0 ∈ b then some (text b) else none

/-- `while (counter > 0) kbd_buf[--counter] = '\0';` -/
def clearLine : Nat → Keyboard → Keyboard
  | 0, k => k
  | c+1, k => clearLine c ((k.setCounter c).storeAt (add64 k.kbdBuf c) 0)

/-- gets once it has seen check_nl: the line, and the state it leaves. -/
def getsEnd (n : Nat) (k : Keyboard) : Option (Bytes × Keyboard) :=
  (lineAt n k).map fun line =>
    let k := clearLine k.counter { k with checkNl := false }
    (line, { k.setCounter 1 with kern := { (k.setCounter 1).kern with flag := true } })

/-- The busy loop: check_nl is looked at between any two interrupts; `none` while they have not
brought an Enter. -/
def getsWait (n : Nat) : List Interrupt → Keyboard → Option (Bytes × Keyboard)
  | [], k => if k.checkNl then getsEnd n k else none
  | i::is, k => if k.checkNl then getsEnd n k else getsWait n is (i.run k)

/-- `gets(s)`, interrupted by `is`: the string stored at `s`. -/
def gets (n : Nat) (is : List Interrupt) (k : Keyboard) : Option (Bytes × Keyboard) :=
  getsWait n is (getsStart k)

/-- What readfile returns and stores for a NULL file_addr: the int is the pointer gets
returns. -/
def readStdin (buf : Nat) (line : Bytes) : Int × Bytes := (int32 buf, line ++ [0])

section Modifiers

/-- What one scancode does to `lkp`. -/
def nextLkp (lkp : LastKeyPressed) (scancode : UInt8) : LastKeyPressed :=
  if scancode &&& 0x80 ≠ 0 then lkp
  else if scancode = 29 then .ctrl
  else if scancode = 42 ∨ scancode = 54 then .shift
  else if scancode = 56 then .alt
  else if scancode = 58 then .caps
  else .no

theorem setCounter_lkp (k : Keyboard) (c : Nat) : (k.setCounter c).lkp = k.lkp := rfl

theorem setCounter_checkNl (k : Keyboard) (c : Nat) : (k.setCounter c).checkNl = k.checkNl := rfl

theorem putKey_lkp (v : UInt8) (k : Keyboard) : (putKey v k).lkp = k.lkp := by
  unfold putKey
  split_ifs
  · rfl
  · rw [setCounter_lkp]
  · rw [setCounter_lkp]
    rfl

/-- No scancode less 0x80 is one of the three release codes that are compared with. -/
theorem release_codes (sc : UInt8) (h : sc &&& 0x80 ≠ 0) :
    ¬(sc - 0x80 = 157 ∨ sc - 0x80 = 170 ∨ sc - 0x80 = 184) := by
  intro hr
  have hback : sc = sc - 0x80 + 0x80 := (UInt8.sub_add_cancel sc 0x80).symm
  rcases hr with hr | hr | hr
  all_goals
    rw [hr] at hback
    rw [hback] at h
    exact h (by decide)

theorem keyboardHandler_lkp (sc : UInt8) (k : Keyboard) :
    (keyboardHandler sc k).lkp = nextLkp k.lkp sc := by
  unfold keyboardHandler nextLkp
  by_cases h : sc &&& 0x80 ≠ 0
  · simp only [if_pos h, if_neg (release_codes sc h)]
  · simp only [if_neg h]
    split_ifs <;> first | rfl | exact putKey_lkp _ _

def typeKeys (scs : List UInt8) (k : Keyboard) : Keyboard :=
  scs.foldl (fun k sc => keyboardHandler sc k) k

theorem typeKeys_snoc (scs : List UInt8) (sc : UInt8) (k : Keyboard) :
    typeKeys (scs ++ [sc]) k = keyboardHandler sc (typeKeys scs k) := by
  simp [typeKeys]

def IsPress (sc : UInt8) : Prop := sc &&& 0x80 = 0

instance : DecidablePred IsPress := fun sc => inferInstanceAs (Decidable (sc &&& 0x80 = 0))

/-- A press that is not of a modifier. -/
def Ordinary (sc : UInt8) : Prop :=
  IsPress sc ∧ sc ≠ 29 ∧ sc ≠ 42 ∧ sc ≠ 54 ∧ sc ≠ 56 ∧ sc ≠ 58

/-- The events of one key, its presses and releases. -/
def keyEvents (key : UInt8) (scs : List UInt8) : List UInt8 :=
  scs.filter fun sc => sc = key ∨ sc = key + 0x80

/-- A key is down: its last event was a press. -/
def Down (key : UInt8) (scs : List UInt8) : Prop := (keyEvents key scs).getLast? = some key

/-- A shift key is down. -/
def ShiftDown (scs : List UInt8) : Prop := Down 42 scs ∨ Down 54 scs

instance (key : UInt8) (scs : List UInt8) : Decidable (Down key scs) :=
  inferInstanceAs (Decidable (_ = _))

instance (scs : List UInt8) : Decidable (ShiftDown scs) := inferInstanceAs (Decidable (_ ∨ _))

/-- Every key is pressed and released in turn, a press first. -/
def WellNested (scs : List UInt8) : Prop :=
  ∀ sc ∈ scs, (keyEvents (sc &&& 0x7F) scs).head? = some (sc &&& 0x7F) ∧
    (keyEvents (sc &&& 0x7F) scs).IsChain (· ≠ ·)

/-- The last key pressed was a shift key. -/
def AfterShift (scs : List UInt8) : Prop :=
  (scs.filter IsPress).getLast? = some 42 ∨ (scs.filter IsPress).getLast? = some 54

/-- Without Caps Lock, `lkp` says whether the last press was a shift key's. -/
theorem typeKeys_lkp (scs : List UInt8) (k : Keyboard) (h : k.lkp = .no) (hc : 58 ∉ scs) :
    ((typeKeys scs k).lkp = .shift ↔ AfterShift scs) ∧ (typeKeys scs k).lkp ≠ .caps := by
  induction scs using List.reverseRecOn with
  | nil => simp [typeKeys, AfterShift, h]
  | append_singleton scs sc ih =>
    rw [List.mem_append, not_or, List.mem_singleton] at hc
    obtain ⟨ihs, ihc⟩ := ih hc.1
    rw [typeKeys_snoc, keyboardHandler_lkp]
    unfold nextLkp AfterShift
    by_cases hp : IsPress sc
    · have hlast : ((scs ++ [sc]).filter IsPress).getLast? = some sc := by
        simp [List.filter_append, hp]
      have hbit : ¬(sc &&& 0x80 ≠ 0) := not_not.mpr hp
      rw [hlast, if_neg hbit]
      split_ifs with h1 h2 h3 h4
      · simp [h1]
      · simpa using h2
      · simp [h3]
      · exact absurd h4.symm hc.2
      · simpa using h2
    · have hsame : (scs ++ [sc]).filter IsPress = scs.filter IsPress := by
        simp [List.filter_append, hp]
      have hbit : sc &&& 0x80 ≠ 0 := hp
      rw [hsame, if_pos hbit]
      exact ⟨ihs, ihc⟩

/-- keyboard_handler forgets a shift key at the next press and not at its release: the table is
the right one exactly when, at every ordinary press, a shift key is down if and only if it was
the last key pressed. -/
theorem keyTable_shift_iff (scs : List UInt8) (k : Keyboard) (hc : 58 ∉ scs) :
    (∀ before sc after, scs = before ++ sc :: after → Ordinary sc →
      keyTable (typeKeys before (initKbd k)).lkp =
        if ShiftDown before then kbdshift else kbdus) ↔
    ∀ before sc after, scs = before ++ sc :: after → Ordinary sc →
      (ShiftDown before ↔ AfterShift before) := by
  have hdiff : kbdus ≠ kbdshift := by decide
  refine forall_congr' fun before => forall_congr' fun sc => forall_congr' fun after =>
    forall_congr' fun hsplit => forall_congr' fun _ => ?_
  have hb : 58 ∉ before := fun h => hc (by rw [hsplit]; simp [h])
  obtain ⟨hs, hcaps⟩ := typeKeys_lkp before (initKbd k) rfl hb
  rw [← hs]
  by_cases hd : ShiftDown before
  · rw [if_pos hd, iff_true_left hd]
    cases hl : (typeKeys before (initKbd k)).lkp with
    | shift => simp [keyTable]
    | caps => exact absurd hl hcaps
    | no => simp [keyTable, hdiff]
    | ctrl => simp [keyTable, hdiff]
    | alt => simp [keyTable, hdiff]
  · rw [if_neg hd, iff_false_left hd]
    cases hl : (typeKeys before (initKbd k)).lkp with
    | shift => simp [keyTable, hdiff.symm]
    | caps => exact absurd hl hcaps
    | no => simp [keyTable]
    | ctrl => simp [keyTable]
    | alt => simp [keyTable]

/-- Before init_kbd, with nothing in memory. -/
def Keyboard.blank : Keyboard :=
  ⟨Kernel.init (fun _ => 0) 0 0, .home fun _ => 0, 0, .no, false, []⟩

theorem keyTable_shift_letter :
    (58 : UInt8) ∉ [(42 : UInt8), 30] ∧
    ∀ before sc after, [(42 : UInt8), 30] = before ++ sc :: after → Ordinary sc →
      keyTable (typeKeys before (initKbd .blank)).lkp =
        if ShiftDown before then kbdshift else kbdus := by
  refine ⟨by decide, (keyTable_shift_iff [42, 30] .blank (by decide)).mpr ?_⟩
  intro before sc after h ho
  match before, h with
  | [], h =>
    obtain ⟨rfl, -⟩ := List.cons.inj h
    exact absurd rfl ho.2.2.1
  | [_], h =>
    obtain ⟨rfl, -⟩ := List.cons.inj h
    exact ⟨fun _ => Or.inl rfl, fun _ => Or.inl rfl⟩
  | [_, _], h => simp at h
  | _ :: _ :: _ :: _, h => simp at h

/-- Shift is held for two letters, and the second comes out unshifted; and shift is released
before a letter, which comes out shifted. -/
theorem keyTable_forgets_shift :
    WellNested [42, 30, 158, 31, 159, 170] ∧ ShiftDown [42, 30, 158] ∧
    keyTable (typeKeys [42, 30, 158] (initKbd .blank)).lkp = kbdus ∧
    WellNested [42, 170, 30, 158] ∧ ¬ShiftDown [42, 170] ∧
    keyTable (typeKeys [42, 170] (initKbd .blank)).lkp = kbdshift := by
  refine ⟨?_, ?_, ?_, ?_, ?_, ?_⟩
  · unfold WellNested
    decide +kernel
  · decide
  · rfl
  · unfold WellNested
    decide +kernel
  · decide
  · rfl

end Modifiers

end SBUnix
