import SBUnix.Console.Keyboard
import SBUnix.Tarfs.ReadFile

namespace SBUnix

open ByteMemory CString Word

/-- What an interrupt means for the line: a character or an editing key, or pages taken. -/
inductive Stroke where
  | key (v : UInt8)
  | pages (n : Nat)
  deriving DecidableEq, Repr

instance : DecidablePred Ordinary := fun _ => inferInstanceAs (Decidable (_ ∧ _))

/-- The value keyboard_handler goes on with, none for a release or a modifier. -/
def keyValue (lkp : LastKeyPressed) (sc : UInt8) : Option UInt8 :=
  if Ordinary sc then some ((keyTable lkp).getD sc.toNat 0) else none

/-- The strokes of a sequence of interrupts. -/
def strokes : LastKeyPressed → List Interrupt → List Stroke
  | _, [] => []
  | lkp, .key sc :: is => ((keyValue lkp sc).map Stroke.key).toList ++ strokes (nextLkp lkp sc) is
  | lkp, .alloc c :: is => .pages c.pages :: strokes lkp is

/-- The line as the counter moves over it: `cells c` is the byte below index `c`, that is
`kbd_buf[c-1]`, and `stored` has the counters at which a byte was stored, newest first. -/
structure Line where
  count : Nat
  cells : Nat → UInt8
  stored : List Nat

def Line.start (count : Nat) : Line := ⟨count, fun _ => 0, []⟩

def Line.step (l : Line) : Stroke → Line
  | .key v =>
    if v = charBackspace then { l with count := (l.count + (2^16-1)) % 2^16 }
    else ⟨(l.count+1) % 2^16, Function.update l.cells l.count v, l.count :: l.stored⟩
  | .pages n => { l with count := (l.count+n) % 2^16 }

/-- The line after some strokes. -/
def lineAfter (count : Nat) (ss : List Stroke) : Line := ss.foldl Line.step (.start count)

theorem lineAfter_snoc (count : Nat) (ss : List Stroke) (s : Stroke) :
    lineAfter count (ss ++ [s]) = (lineAfter count ss).step s := by
  simp [lineAfter]

/-- What kstrcpy finds after Enter has put a NUL below the counter. -/
def Line.shown (l : Line) : Bytes := text ((List.range (l.count-1)).map fun i => l.cells (i+1))

/-- Every byte, that of Enter too, goes to the page of the buffer. -/
def Line.InPage (l : Line) : Prop := ∀ c ∈ l.count :: l.stored, 1 ≤ c ∧ c ≤ 4096

/-- The keyboard's state shows the line in the page at `base`. -/
structure Shows (base : Nat) (l : Line) (k : Keyboard) : Prop where
  buf : k.kbdBuf = add64 base virtBase
  counter : k.counter = l.count
  page : ∀ i < 4096, k.kern.mem (base+i) = l.cells (i+1)
  below : base + 4096 ≤ k.kern.cursor
  written : k.written = l.stored.map fun c => sub64 (add64 k.kbdBuf c) 1
  small : ∀ c ∈ l.stored, c < 2^16

section Bytes

variable {base : Nat}

theorem direct_index (i : Nat) (h : base + i < 2^64) :
    direct (add64 (add64 base virtBase) i) = base + i := by
  unfold direct sub64 add64 virtBase
  omega

theorem direct_below (c : Nat) (h0 : 0 < base) (h : base + c ≤ 2^64) :
    direct (sub64 (add64 (add64 base virtBase) c) 1) = base + c - 1 := by
  unfold direct sub64 add64 virtBase
  omega

theorem buf_ne_zero (h : base < 2^31) : add64 base virtBase ≠ 0 := by
  unfold add64 virtBase
  omega

theorem storeAt_eq {k : Keyboard} (h : k.kbdBuf ≠ 0) (a : Nat) (v : UInt8) :
    k.storeAt a v = { k with
      kern := { k.kern with mem := Function.update k.kern.mem (direct a) v }
      written := a :: k.written } := by
  rw [Keyboard.storeAt, if_neg h]

end Bytes

section Counter

variable (k : Keyboard) (c : Nat)

theorem setCounter_counter : (k.setCounter c).counter = c % 2^16 := by
  simp only [Keyboard.counter, Keyboard.setCounter]
  omega

end Counter

/-- Room for a page, and for every index a 16-bit counter can name, in what boot has mapped. -/
structure Room (base : Nat) : Prop where
  pos : 0 < base
  top : base + 2^17 ≤ 49*0x200000

section Steps

variable {base : Nat} {l : Line} {k : Keyboard}

theorem Shows.count_lt (h : Shows base l k) : l.count < 2^16 := by
  rw [← h.counter]
  exact Nat.mod_lt _ (by norm_num)

/-- A store below the counter changes the cell at the counter. -/
theorem Shows.store_page (h : Shows base l k) (hr : Room base) (v : UInt8) (i : Nat)
    (hi : i < 4096) :
    Function.update k.kern.mem (direct (sub64 (add64 k.kbdBuf k.counter) 1)) v (base+i) =
      Function.update l.cells l.count v (i+1) := by
  have hlt := h.count_lt
  have hpos := hr.pos
  have htop := hr.top
  rw [h.buf, h.counter, direct_below _ hr.pos (by omega)]
  by_cases hc : i+1 = l.count
  · rw [hc, Function.update_self, show base+i = base + l.count - 1 by omega, Function.update_self]
  · rw [Function.update_of_ne hc, Function.update_of_ne (by omega), h.page i hi]

theorem Shows.setCounter (h : Shows base l k) (c : Nat) :
    Shows base { l with count := c % 2^16 } (k.setCounter c) :=
  ⟨h.buf, setCounter_counter k c, h.page, h.below, h.written, h.small⟩

theorem Shows.setScreen (h : Shows base l k) (s : Screen) : Shows base l { k with screen := s } :=
  ⟨h.buf, h.counter, h.page, h.below, h.written, h.small⟩

theorem Shows.buf_ne (h : Shows base l k) (hr : Room base) : k.kbdBuf ≠ 0 := by
  have htop := hr.top
  rw [h.buf]
  exact buf_ne_zero (by omega)

theorem Shows.storeKey (h : Shows base l k) (hr : Room base) (v : UInt8) :
    Shows base ⟨l.count, Function.update l.cells l.count v, l.count :: l.stored⟩
      (k.storeKey v) := by
  rw [Keyboard.storeKey, storeAt_eq (h.buf_ne hr)]
  constructor
  case buf => exact h.buf
  case counter => exact h.counter
  case page => exact h.store_page hr v
  case below => exact h.below
  case written =>
    rw [List.map_cons, ← h.written, h.counter]
  case small =>
    intro c hc
    rcases List.mem_cons.mp hc with rfl | hc
    · exact h.count_lt
    · exact h.small c hc

/-- One press of a character key or of backspace. -/
theorem Shows.key (h : Shows base l k) (hr : Room base) (v : UInt8) (hv : v ≠ charNewline) :
    Shows base (l.step (.key v)) (putKey v k) := by
  rw [putKey, if_neg hv, h.counter, Line.step]
  by_cases hb : v = charBackspace
  · rw [if_pos hb, if_pos hb]
    exact (h.setScreen _).setCounter _
  · rw [if_neg hb, if_neg hb]
    exact ((h.storeKey hr v).setScreen _).setCounter _

theorem Shows.setLkp (h : Shows base l k) (lkp : LastKeyPressed) :
    Shows base l { k with lkp := lkp } :=
  ⟨h.buf, h.counter, h.page, h.below, h.written, h.small⟩

theorem keyboardHandler_eq (sc : UInt8) (k : Keyboard) :
    keyboardHandler sc k = match keyValue k.lkp sc with
      | none => { k with lkp := nextLkp k.lkp sc }
      | some v => putKey v { k with lkp := .no } := by
  unfold keyboardHandler keyValue nextLkp Ordinary IsPress
  by_cases h : sc &&& 0x80 = 0
  · simp only [h, ne_eq, not_true_eq_false, if_false, true_and]
    split_ifs <;> simp_all
  · have hbit : sc &&& 0x80 ≠ 0 := h
    simp only [if_pos hbit, if_neg (release_codes sc hbit), h, false_and, if_false]

theorem putKey_checkNl (v : UInt8) (k : Keyboard) (hv : v ≠ charNewline) :
    (putKey v k).checkNl = k.checkNl := by
  rw [putKey, if_neg hv]
  split_ifs
  · rw [setCounter_checkNl]
  · rw [setCounter_checkNl]
    rfl

/-- Pages taken while the line is open move the counter, and nothing else as long as the
freelist words they clear are below the page. -/
theorem Shows.alloc (h : Shows base l k) (c : AllocCall) (hv : c.Valid)
    (htop : k.kern.cursor + 4096*c.pages < 2^64)
    (hfree : direct k.kern.freelist + 4*(k.kern.counter + c.pages) ≤ base) :
    Shows base (l.step (.pages c.pages)) { k with kern := (c.run k.kern).2 } := by
  obtain ⟨t, he, ht⟩ := c.run_taken k.kern hv htop
  have hcount := h.counter
  have hbelow := h.below
  rw [he, Line.step]
  constructor
  case buf => exact h.buf
  case counter =>
    rw [← hcount, Keyboard.counter, Keyboard.counter, ht.counter, Nat.mod_add_mod]
  case page =>
    intro i hi
    rw [← h.page i hi]
    exact ht.kept _ (Or.inl (by omega)) (Or.inr (by omega))
  case below =>
    have := ht.cursor
    change base + 4096 ≤ t.cursor
    omega
  case written => exact h.written
  case small => exact h.small

end Steps

section Run

def Interrupt.runAll (is : List Interrupt) (k : Keyboard) : Keyboard :=
  is.foldl (fun k i => i.run k) k

/-- The page allocations among the interrupts stay clear of the page at `base`. -/
def Harmless (base : Nat) (is : List Interrupt) (k : Keyboard) : Prop :=
  ∀ before c after, is = before ++ .alloc c :: after →
    let s := (Interrupt.runAll before k).kern
    c.Valid ∧ s.cursor + 4096*c.pages < 2^64 ∧
      direct s.freelist + 4*(s.counter + c.pages) ≤ base

theorem Harmless.tail {base : Nat} {i : Interrupt} {is : List Interrupt} {k : Keyboard}
    (h : Harmless base (i::is) k) : Harmless base is (i.run k) := by
  intro before c after hsplit
  exact h (i::before) c after (by rw [hsplit]; rfl)

/-- No key of the interrupts is an Enter. -/
def NoEnter (ss : List Stroke) : Prop := .key charNewline ∉ ss

variable {base n : Nat}

/-- Interrupts without an Enter: gets goes on waiting, and the line follows the strokes. -/
theorem getsWait_run (is rest : List Interrupt) (l : Line) (k : Keyboard) (hr : Room base)
    (h : Shows base l k) (hw : k.checkNl = false) (hh : Harmless base is k)
    (hn : NoEnter (strokes k.lkp is)) :
    let e := Interrupt.runAll is k
    Shows base ((strokes k.lkp is).foldl Line.step l) e ∧ e.checkNl = false ∧
      getsWait n (is++rest) k = getsWait n rest e := by
  induction is generalizing l k with
  | nil => exact ⟨h, hw, rfl⟩
  | cons i is ih =>
    have hstep : getsWait n (i::is ++ rest) k = getsWait n (is++rest) (i.run k) := by
      rw [List.cons_append, getsWait, hw]
      rfl
    rw [hstep]
    cases i with
    | alloc c =>
      obtain ⟨hv, htop, hfree⟩ := hh [] c is rfl
      refine ih _ _ (h.alloc c hv htop hfree) hw hh.tail ?_
      intro hm
      exact hn (by rw [strokes]; exact List.mem_cons_of_mem _ hm)
    | key sc =>
      have hlkp : (keyboardHandler sc k).lkp = nextLkp k.lkp sc := keyboardHandler_lkp sc k
      have heq := keyboardHandler_eq sc k
      have hih (l' : Line) := ih l' (keyboardHandler sc k)
      rw [hlkp] at hih
      cases hval : keyValue k.lkp sc with
      | none =>
        rw [hval] at heq
        have hs : strokes k.lkp (.key sc :: is) = strokes (nextLkp k.lkp sc) is := by
          rw [strokes, hval]
          rfl
        rw [hs] at hn ⊢
        refine hih l ?_ ?_ hh.tail hn
        · rw [heq]
          exact h.setLkp _
        · rw [heq]
          exact hw
      | some v =>
        rw [hval] at heq
        have hs : strokes k.lkp (.key sc :: is) = .key v :: strokes (nextLkp k.lkp sc) is := by
          rw [strokes, hval]
          rfl
        rw [hs] at hn ⊢
        have hv : v ≠ charNewline := by
          rintro rfl
          exact hn (by simp)
        refine hih (l.step (.key v)) ?_ ?_ hh.tail fun hm => hn (List.mem_cons_of_mem _ hm)
        · rw [heq]
          exact (h.setLkp _).key hr v hv
        · rw [heq, putKey_checkNl v _ hv]
          exact hw

/-- `counter` once gets waits. -/
def startCount (k : Keyboard) : Nat := if k.kern.flag then 1 else (k.kern.counter+1) % 2^16

theorem getsStart_shows (k : Keyboard) (hr : Room k.kern.cursor) :
    Shows k.kern.cursor (.start (startCount k)) (getsStart k) ∧
    (getsStart k).checkNl = k.checkNl ∧ (getsStart k).lkp = k.lkp := by
  have htop := hr.top
  obtain ⟨t, he, ht⟩ := kmalloc_taken pageSize k.kern (by norm_num [pageSize])
    (by norm_num [pageSize]) (by norm_num [pageSize]; omega)
  have hone : (pageSize+4095)/4096 = 1 := by norm_num [pageSize]
  rw [hone] at ht
  have hflag : t.flag = k.kern.flag := congrArg (·.flag) ht.others
  have hcur := ht.cursor
  have hbase : Shows k.kern.cursor (.start ((k.kern.counter+1) % 2^16))
      { k with kern := t, kbdBuf := add64 k.kern.cursor virtBase, written := [] } := by
    constructor
    case buf => rfl
    case counter => rw [Keyboard.counter, ht.counter, Line.start]
    case page =>
      intro i hi
      exact ht.fresh _ (by omega) (by omega)
    case below => exact hcur.ge
    case written => rfl
    case small => simp [Line.start]
  unfold getsStart
  rw [he]
  dsimp only
  rw [hflag]
  by_cases hf : k.kern.flag = true
  · rw [if_pos hf, startCount, if_pos hf]
    have hset := hbase.setCounter 1
    exact ⟨⟨hset.buf, hset.counter, hset.page, hset.below, hset.written, hset.small⟩, rfl, rfl⟩
  · rw [if_neg hf, startCount, if_neg hf]
    exact ⟨hbase, rfl, rfl⟩

/-- An Enter from before the call ends gets at once. -/
theorem gets_stale (n : Nat) (is : List Interrupt) {k : Keyboard}
    (h : (getsStart k).checkNl = true) : gets n is k = getsEnd n (getsStart k) := by
  cases is with
  | nil => rw [gets, getsWait, if_pos h]
  | cons i is => rw [gets, getsWait, if_pos h]

theorem keyValue_enter (lkp : LastKeyPressed) : keyValue lkp 28 = some charNewline := by
  cases lkp <;> decide +kernel

/-- The line with the NUL that Enter stores. -/
def Line.entered (l : Line) : Line :=
  ⟨l.count, Function.update l.cells l.count 0, l.count :: l.stored⟩

theorem Line.entered_cells (l : Line) :
    l.entered.cells = Function.update l.cells l.count 0 := rfl

/-- The whole of gets up to the Enter that it is waiting for. -/
theorem gets_enter (is : List Interrupt) (k : Keyboard) (hr : Room k.kern.cursor)
    (hw : k.checkNl = false) (hh : Harmless k.kern.cursor is (getsStart k))
    (hn : NoEnter (strokes k.lkp is)) :
    ∃ e, Shows k.kern.cursor (lineAfter (startCount k) (strokes k.lkp is)).entered e ∧
      ∀ n, gets n (is ++ [.key 28]) k = getsEnd n e := by
  obtain ⟨hshow, hnl, hlkp⟩ := getsStart_shows k hr
  rw [hw] at hnl
  obtain ⟨e, he⟩ : ∃ e, e = Interrupt.runAll is (getsStart k) := ⟨_, rfl⟩
  have hrun (n : Nat) := getsWait_run (n := n) is [.key 28] _ _ hr hshow hnl hh (hlkp ▸ hn)
  rw [hlkp, ← he] at hrun
  obtain ⟨hl, hwait, -⟩ := hrun 0
  have henter : keyboardHandler 28 e = { (({ e with lkp := .no } : Keyboard).storeKey 0) with
      checkNl := true } := by
    rw [keyboardHandler_eq, keyValue_enter]
    exact if_pos rfl
  refine ⟨keyboardHandler 28 e, ?_, ?_⟩
  · have hs := (hl.setLkp .no).storeKey hr 0
    rw [henter]
    exact ⟨hs.buf, hs.counter, hs.page, hs.below, hs.written, hs.small⟩
  · intro n
    rw [gets, (hrun n).2.2, getsWait, hwait]
    have hset : (Interrupt.run (.key 28) e).checkNl = true := by
      rw [Interrupt.run, henter]
    change getsWait n [] (Interrupt.run (.key 28) e) = _
    rw [getsWait, hset]
    rfl

end Run

section Finish

variable {base n : Nat} {l : Line} {e : Keyboard}

theorem text_append_zero (t r : Bytes) : text (t ++ 0::r) = text t := by
  induction t with
  | nil => rfl
  | cons c t ih =>
    by_cases hc : c = 0
    · rw [hc, List.cons_append, text_nul, text_nul]
    · rw [List.cons_append, text_cons hc, text_cons hc, ih]

theorem text_map_range (f : Nat → UInt8) (j n : Nat) (hj : j < n) (h0 : f j = 0) :
    0 ∈ (List.range n).map f ∧ text ((List.range n).map f) = text ((List.range j).map f) := by
  obtain ⟨m, rfl⟩ := Nat.exists_eq_add_of_lt hj
  have hsplit : (List.range (j+m+1)).map f = (List.range j).map f ++ 0 ::
      ((List.range m).map fun i => f (j+1+i)) := by
    rw [Nat.add_assoc, List.range_add, List.map_append, List.range_succ_eq_map]
    simp [h0, Function.comp_def, Nat.add_assoc, Nat.add_comm 1]
  rw [hsplit]
  exact ⟨by simp, text_append_zero _ _⟩

/-- gets returns the bytes before the first NUL of the page. -/
theorem getsEnd_text (hr : Room base) (h : Shows base l e) (j : Nat) (hj : j < 4096)
    (hz : l.cells (j+1) = 0) (hn : 4096 ≤ n) :
    ∃ k, getsEnd n e = some (text ((List.range j).map fun i => l.cells (i+1)), k) := by
  have htop := hr.top
  have hbyte (i : Nat) (hi : i < 4096) :
      e.kern.mem (direct (add64 e.kbdBuf i)) = l.cells (i+1) := by
    rw [h.buf, direct_index i (by omega), h.page i hi]
  obtain ⟨hmem, htext⟩ := text_map_range
    (fun i => e.kern.mem (direct (add64 e.kbdBuf i))) j n (by omega) (by rw [hbyte j hj, hz])
  have hcells : ((List.range j).map fun i => e.kern.mem (direct (add64 e.kbdBuf i))) =
      (List.range j).map fun i => l.cells (i+1) := by
    apply List.map_congr_left
    intro i hi
    rw [List.mem_range] at hi
    exact hbyte i (by omega)
  rw [getsEnd, lineAt, if_pos hmem, htext, hcells]
  exact ⟨_, rfl⟩

theorem getsEnd_shown (hr : Room base) (h : Shows base l.entered e) (hc : 1 ≤ l.count)
    (hc' : l.count ≤ 4096) (hn : 4096 ≤ n) : ∃ k, getsEnd n e = some (l.shown, k) := by
  have hz : l.entered.cells (l.count-1+1) = 0 := by
    rw [Nat.sub_add_cancel hc, Line.entered_cells, Function.update_self]
  have hcells : ((List.range (l.count-1)).map fun i => l.entered.cells (i+1)) =
      (List.range (l.count-1)).map fun i => l.cells (i+1) := by
    apply List.map_congr_left
    intro i hi
    rw [List.mem_range] at hi
    rw [Line.entered_cells, Function.update_of_ne (by omega)]
  have hend := getsEnd_text hr h (l.count-1) (by omega) hz hn
  rw [hcells] at hend
  exact hend

theorem clearLine_written (c : Nat) (k : Keyboard) :
    (clearLine c k).kbdBuf = k.kbdBuf ∧ ∀ a, a ∈ (clearLine c k).written ↔
      a ∈ k.written ∨ ∃ i < c, a = add64 k.kbdBuf i := by
  induction c generalizing k with
  | zero => simp [clearLine]
  | succ c ih =>
    obtain ⟨hbuf, hmem⟩ := ih ((k.setCounter c).storeAt (add64 k.kbdBuf c) 0)
    have hw : ((k.setCounter c).storeAt (add64 k.kbdBuf c) 0).written =
        add64 k.kbdBuf c :: k.written := rfl
    refine ⟨hbuf, ?_⟩
    intro a
    rw [clearLine, hmem a, hw, List.mem_cons]
    change (a = _ ∨ a ∈ k.written) ∨ (∃ i < c, a = add64 k.kbdBuf i) ↔ _
    constructor
    · rintro ((rfl | h) | ⟨i, hi, rfl⟩)
      · exact Or.inr ⟨c, by omega, rfl⟩
      · exact Or.inl h
      · exact Or.inr ⟨i, by omega, rfl⟩
    · rintro (h | ⟨i, hi, rfl⟩)
      · exact Or.inl (Or.inr h)
      · rcases Nat.lt_succ_iff_lt_or_eq.mp hi with hlt | rfl
        · exact Or.inr ⟨i, hlt, rfl⟩
        · exact Or.inl (Or.inl rfl)

/-- The bytes stored to while gets was waiting are those of its page. -/
def OnlyBuffer (k : Keyboard) : Prop :=
  ∀ a ∈ k.written, k.kbdBuf ≤ a ∧ a < k.kbdBuf + pageSize

/-- The stores stay in the page exactly when those made before do and the loop that clears the
line starts in it. -/
theorem getsEnd_onlyBuffer (hr : Room base) (h : Shows base l e) {t : Bytes} {k : Keyboard}
    (hk : getsEnd n e = some (t, k)) :
    OnlyBuffer k ↔ (∀ c ∈ l.stored, 1 ≤ c ∧ c ≤ 4096) ∧ l.count ≤ 4096 := by
  have htop := hr.top
  have hpos := hr.pos
  have hclear := clearLine_written e.counter { e with checkNl := false }
  have hlt : l.count < 2^16 := h.count_lt
  rw [getsEnd, Option.map_eq_some_iff] at hk
  obtain ⟨_, -, hk⟩ := hk
  have hbuf : k.kbdBuf = add64 base virtBase := by
    rw [← (Prod.mk.inj hk).2]
    exact hclear.1.trans h.buf
  have hmem (a : Nat) : a ∈ k.written ↔ (∃ c ∈ l.stored,
      sub64 (add64 (add64 base virtBase) c) 1 = a) ∨
      ∃ i < l.count, a = add64 (add64 base virtBase) i := by
    rw [← (Prod.mk.inj hk).2]
    refine (hclear.2 a).trans ?_
    rw [← h.buf, ← h.counter]
    change a ∈ e.written ∨ _ ↔ _
    rw [h.written, List.mem_map]
  have hplace (c : Nat) (hc : c < 2^16) : (add64 base virtBase ≤
      sub64 (add64 (add64 base virtBase) c) 1 ∧
      sub64 (add64 (add64 base virtBase) c) 1 < add64 base virtBase + pageSize) ↔
      1 ≤ c ∧ c ≤ 4096 := by
    unfold add64 sub64 virtBase pageSize
    omega
  have hindex (i : Nat) (hi : i < 2^16) :
      (add64 base virtBase ≤ add64 (add64 base virtBase) i ∧
      add64 (add64 base virtBase) i < add64 base virtBase + pageSize) ↔ i < 4096 := by
    unfold add64 virtBase pageSize
    omega
  unfold OnlyBuffer
  rw [hbuf]
  constructor
  · intro hall
    refine ⟨?_, ?_⟩
    · intro c hc
      exact (hplace c (h.small c hc)).mp (hall _ ((hmem _).mpr (Or.inl ⟨c, hc, rfl⟩)))
    · by_contra hgt
      have hlast := (hindex 4096 (by norm_num)).mp
        (hall _ ((hmem _).mpr (Or.inr ⟨4096, by omega, rfl⟩)))
      omega
  · rintro ⟨hin, hcount⟩ a ha
    rcases (hmem a).mp ha with ⟨c, hc, rfl⟩ | ⟨i, hi, rfl⟩
    · exact (hplace c (h.small c hc)).mpr (hin c hc)
    · exact (hindex i (by omega)).mpr (by omega)

end Finish

section Edit

/-- The values of a sequence of keys, newlines and backspaces among them. -/
def typed : LastKeyPressed → List UInt8 → List UInt8
  | _, [] => []
  | lkp, sc::scs => (keyValue lkp sc).toList ++ typed (nextLkp lkp sc) scs

theorem strokes_keys (lkp : LastKeyPressed) (scs : List UInt8) :
    strokes lkp (scs.map .key) = (typed lkp scs).map .key := by
  induction scs generalizing lkp with
  | nil => rfl
  | cons sc scs ih =>
    rw [List.map_cons, strokes, typed, ih, List.map_append]
    cases keyValue lkp sc <;> rfl

/-- What the keys spell: a backspace takes back the last character that is left. -/
def editLine (vs : List UInt8) : Bytes :=
  vs.foldl (fun line v => if v = charBackspace then line.dropLast else line ++ [v]) []

theorem editLine_snoc (vs : List UInt8) (v : UInt8) : editLine (vs ++ [v]) =
    if v = charBackspace then (editLine vs).dropLast else editLine vs ++ [v] := by
  simp [editLine]

/-- No backspace comes on an empty line. -/
def NoOverErase (vs : List UInt8) : Prop :=
  ∀ before after, vs = before ++ charBackspace :: after → editLine before ≠ []

def characters (vs : List UInt8) : Nat := (vs.filter (· ≠ charBackspace)).length

theorem characters_snoc (vs : List UInt8) (v : UInt8) : characters (vs ++ [v]) =
    if v = charBackspace then characters vs else characters vs + 1 := by
  by_cases h : v = charBackspace <;> simp [characters, List.filter_append, h]

theorem editLine_length_le (vs : List UInt8) : (editLine vs).length ≤ characters vs := by
  induction vs using List.reverseRecOn with
  | nil => simp [editLine, characters]
  | append_singleton vs v ih =>
    rw [editLine_snoc, characters_snoc]
    split_ifs
    · simp only [List.length_dropLast]
      omega
    · simpa using ih

/-- A property of every key and of what is before it, when one more key follows. -/
theorem forall_split_snoc {P : List UInt8 → UInt8 → Prop} (vs : List UInt8) (w : UInt8) :
    (∀ before v after, vs ++ [w] = before ++ v :: after → P before v) ↔
      (∀ before v after, vs = before ++ v :: after → P before v) ∧ P vs w := by
  constructor
  · intro h
    refine ⟨?_, h vs w [] rfl⟩
    intro before v after hsplit
    exact h before v (after ++ [w]) (by rw [hsplit]; simp)
  · rintro ⟨h, hlast⟩ before v after hsplit
    rcases List.eq_nil_or_concat after with rfl | ⟨after, u, rfl⟩
    · obtain ⟨rfl, he⟩ := List.append_inj' hsplit rfl
      rw [← List.singleton_inj.mp he]
      exact hlast
    · have hsplit' : vs ++ [w] = (before ++ v :: after) ++ [u] := by
        rw [hsplit]
        simp
      exact h before v after (List.append_inj' hsplit' rfl).1

theorem noOverErase_snoc (vs : List UInt8) (v : UInt8) : NoOverErase (vs ++ [v]) ↔
    NoOverErase vs ∧ (v = charBackspace → editLine vs ≠ []) := by
  have hforall (vs : List UInt8) : NoOverErase vs ↔
      ∀ before v after, vs = before ++ v :: after → v = charBackspace → editLine before ≠ [] := by
    constructor
    · rintro h before v after hsplit rfl
      exact h before after hsplit
    · intro h before after hsplit
      exact h before _ after hsplit rfl
  rw [hforall, hforall]
  exact forall_split_snoc vs v

/-- How many backspaces come on an empty line. -/
def overErased (vs : List UInt8) : Nat :=
  (List.range vs.length).countP fun i => vs[i]? = some charBackspace ∧ editLine (vs.take i) = []

theorem overErased_snoc (vs : List UInt8) (v : UInt8) : overErased (vs ++ [v]) =
    overErased vs + if v = charBackspace ∧ editLine vs = [] then 1 else 0 := by
  have hsame : (List.range vs.length).countP (fun i => (vs ++ [v])[i]? = some charBackspace ∧
      editLine ((vs ++ [v]).take i) = []) = overErased vs := by
    apply List.countP_congr
    intro i hi
    rw [List.mem_range] at hi
    rw [List.getElem?_append_left hi, List.take_append_of_le_length hi.le]
  rw [overErased, List.length_append, List.length_singleton, List.range_succ, List.countP_append,
    hsame, List.countP_singleton]
  simp

theorem overErased_le_count (vs : List UInt8) : overErased vs ≤ vs.count charBackspace := by
  induction vs using List.reverseRecOn with
  | nil => exact Nat.le_refl 0
  | append_singleton vs v ih =>
    rw [overErased_snoc, List.count_append, List.count_singleton]
    by_cases hv : v = charBackspace
    · simp only [hv, true_and, beq_self_eq_true, if_true]
      split_ifs <;> omega
    · simp [hv, ih]

theorem noOverErase_iff (vs : List UInt8) : NoOverErase vs ↔ overErased vs = 0 := by
  induction vs using List.reverseRecOn with
  | nil => simp [NoOverErase, overErased]
  | append_singleton vs v ih =>
    rw [noOverErase_snoc, overErased_snoc, ih, Nat.add_eq_zero_iff]
    refine and_congr_right fun _ => ?_
    by_cases hv : v = charBackspace <;> simp [hv]

/-- Every character has a place in the page when the first is for index `s`. -/
def CharsFit (s : Nat) (vs : List UInt8) : Prop :=
  ∀ before v after, vs = before ++ v :: after → v ≠ charBackspace →
    s + (editLine before).length ≤ 4096 + overErased before

theorem charsFit_snoc (s : Nat) (vs : List UInt8) (v : UInt8) : CharsFit s (vs ++ [v]) ↔
    CharsFit s vs ∧ (v ≠ charBackspace → s + (editLine vs).length ≤ 4096 + overErased vs) :=
  forall_split_snoc vs v

/-- With the counter at 1, 4095 characters have. -/
theorem charsFit_one {vs : List UInt8} (hlen : characters vs ≤ 4095) : CharsFit 1 vs := by
  induction vs using List.reverseRecOn with
  | nil => exact fun before v after h => by simp at h
  | append_singleton vs v ih =>
    have hle := editLine_length_le vs
    rw [characters_snoc] at hlen
    rw [charsFit_snoc]
    split_ifs at hlen
    · exact ⟨ih hlen, fun _ => by omega⟩
    · exact ⟨ih (by omega), fun _ => by omega⟩

/-- What the keys spell stands right below the counter, which began at `s` and has been taken down
by every backspace on an empty line. -/
structure SpellsFrom (s : Nat) (l : Line) (vs : List UInt8) : Prop where
  erased : overErased vs < s
  count : l.count + overErased vs = s + (editLine vs).length
  cells : ∀ i (h : i < (editLine vs).length),
    l.cells (s - overErased vs + i) = (editLine vs)[i]
  low : ∀ c < s - overErased vs, l.cells c = 0
  stored : ∀ c ∈ l.stored, 1 ≤ c ∧ c ≤ 4096

theorem SpellsFrom.key {s : Nat} {l : Line} {vs : List UInt8} {v : UInt8} (h : SpellsFrom s l vs)
    (hv : v ≠ charBackspace) (hfit : l.count ≤ 4096) :
    SpellsFrom s (l.step (.key v)) (vs ++ [v]) := by
  have herased := h.erased
  have hcount := h.count
  have hsame : overErased (vs ++ [v]) = overErased vs := by
    rw [overErased_snoc, if_neg (fun he => hv he.1), Nat.add_zero]
  have hline : editLine (vs ++ [v]) = editLine vs ++ [v] := by rw [editLine_snoc, if_neg hv]
  rw [Line.step, if_neg hv]
  constructor
  case erased => rwa [hsame]
  case count =>
    rw [hsame, hline, List.length_append, List.length_singleton]
    dsimp only
    omega
  case cells =>
    intro i hi
    simp only [hline, hsame, List.length_append, List.length_singleton] at hi ⊢
    by_cases hi' : i < (editLine vs).length
    · rw [Function.update_of_ne (by omega), h.cells i hi', List.getElem_append_left hi']
    · obtain rfl : i = (editLine vs).length := by omega
      rw [show s - overErased vs + (editLine vs).length = l.count by omega, Function.update_self]
      simp
  case low =>
    intro c hc
    rw [hsame] at hc
    dsimp only
    rw [Function.update_of_ne (by omega)]
    exact h.low c hc
  case stored =>
    intro c hc
    rcases List.mem_cons.mp hc with rfl | hc
    · omega
    · exact h.stored c hc

theorem SpellsFrom.backspace {s : Nat} {l : Line} {vs : List UInt8} (h : SpellsFrom s l vs)
    (hl : l.count < 2^16) (he : overErased (vs ++ [charBackspace]) < s) :
    SpellsFrom s (l.step (.key charBackspace)) (vs ++ [charBackspace]) := by
  have herased := h.erased
  have hcount := h.count
  have hline : editLine (vs ++ [charBackspace]) = (editLine vs).dropLast := by
    rw [editLine_snoc, if_pos rfl]
  rw [Line.step, if_pos rfl]
  rw [overErased_snoc] at he
  by_cases hempty : editLine vs = []
  · rw [if_pos ⟨rfl, hempty⟩] at he
    rw [hempty, List.length_nil] at hcount
    constructor
    case erased => rwa [overErased_snoc, if_pos ⟨rfl, hempty⟩]
    case count =>
      rw [overErased_snoc, if_pos ⟨rfl, hempty⟩, hline, hempty]
      dsimp only [List.dropLast, List.length_nil]
      omega
    case cells =>
      intro i hi
      simp [hline, hempty] at hi
    case low =>
      intro c hc
      rw [overErased_snoc, if_pos ⟨rfl, hempty⟩] at hc
      exact h.low c (by omega)
    case stored => exact h.stored
  · have hpos := List.length_pos_of_ne_nil hempty
    have hsame : overErased (vs ++ [charBackspace]) = overErased vs := by
      rw [overErased_snoc, if_neg (fun hb => hempty hb.2), Nat.add_zero]
    constructor
    case erased => rwa [hsame]
    case count =>
      rw [hsame, hline, List.length_dropLast]
      dsimp only
      omega
    case cells =>
      intro i hi
      simp only [hline, hsame, List.length_dropLast] at hi ⊢
      rw [h.cells i (by omega), List.getElem_dropLast]
    case low =>
      intro c hc
      rw [hsame] at hc
      exact h.low c hc
    case stored => exact h.stored

theorem count_lt (s : Nat) (hs : s < 2^16) (ss : List Stroke) : (lineAfter s ss).count < 2^16 := by
  induction ss using List.reverseRecOn with
  | nil => exact hs
  | append_singleton ss x ih =>
    rw [lineAfter_snoc]
    cases x with
    | key v =>
      rw [Line.step]
      split_ifs
      · exact Nat.mod_lt _ (by norm_num)
      · exact Nat.mod_lt _ (by norm_num)
    | pages n => exact Nat.mod_lt _ (by norm_num)

theorem spellsFrom_lineAfter {s : Nat} (hs : s < 2^16) (vs : List UInt8) (he : overErased vs < s)
    (hfit : CharsFit s vs) : SpellsFrom s (lineAfter s (vs.map .key)) vs := by
  induction vs using List.reverseRecOn with
  | nil =>
    exact ⟨he, by simp [lineAfter, Line.start, editLine, overErased], by simp [editLine],
      fun _ _ => rfl, by simp [lineAfter, Line.start]⟩
  | append_singleton vs v ih =>
    rw [charsFit_snoc] at hfit
    have hle : overErased vs < s := by
      rw [overErased_snoc] at he
      omega
    have h := ih hle hfit.1
    have hcount := h.count
    rw [List.map_append, List.map_singleton, lineAfter_snoc]
    by_cases hv : v = charBackspace
    · subst hv
      exact h.backspace (count_lt s hs _) he
    · have := hfit.2 hv
      exact h.key hv (by omega)

theorem zero_not_mem_editLine (vs : List UInt8) (h : ∀ v ∈ vs, v ≠ 0) : 0 ∉ editLine vs := by
  induction vs using List.reverseRecOn with
  | nil => simp [editLine]
  | append_singleton vs v ih =>
    have hv := h v (by simp)
    have hvs := ih fun w hw => h w (List.mem_append_left _ hw)
    rw [editLine_snoc]
    split_ifs
    · intro hm
      exact hvs (List.mem_of_mem_dropLast hm)
    · simp [hvs, Ne.symm hv]

/-- It is what gets finds if it begins at the start of the page. -/
theorem SpellsFrom.shown_iff {s : Nat} {l : Line} {vs : List UInt8} (h : SpellsFrom s l vs)
    (hz : ∀ v ∈ vs, v ≠ 0) :
    l.shown = editLine vs ↔ overErased vs + 1 = s ∨ editLine vs = [] := by
  have herased := h.erased
  have hcount := h.count
  have hnul := zero_not_mem_editLine vs hz
  by_cases hone : overErased vs + 1 = s
  · refine iff_of_true ?_ (Or.inl hone)
    have hmap : ((List.range (l.count-1)).map fun i => l.cells (i+1)) = editLine vs := by
      apply List.ext_getElem
      · rw [List.length_map, List.length_range]
        omega
      · intro i hi hi'
        rw [List.getElem_map, List.getElem_range, ← h.cells i hi']
        congr 1
        omega
    rw [Line.shown, hmap]
    exact text_of_not_mem hnul
  · -- the first cell of the page is below everything that was stored
    have hempty : l.shown = [] := by
      obtain ⟨n, hn⟩ : ∃ n, l.count - 1 = n+1 := ⟨l.count - 2, by omega⟩
      rw [Line.shown, hn, List.range_succ_eq_map, List.map_cons, h.low (0+1) (by omega), text_nul]
    rw [hempty]
    exact ⟨fun he => Or.inr he.symm, fun he => (he.resolve_left hone).symm⟩

/-- The line after keys that never erase more than was typed. -/
structure Spells (l : Line) (vs : List UInt8) : Prop where
  count : l.count = (editLine vs).length + 1
  cells : ∀ i (h : i < (editLine vs).length), l.cells (i+1) = (editLine vs)[i]
  inPage : l.InPage
  shown : (∀ v ∈ vs, v ≠ 0) → l.shown = editLine vs

theorem spells_lineAfter (vs : List UInt8) (h : NoOverErase vs) (hlen : characters vs ≤ 4095) :
    Spells (lineAfter 1 (vs.map .key)) vs := by
  have h0 := (noOverErase_iff vs).mp h
  have hs := spellsFrom_lineAfter (by norm_num) vs (by omega) (charsFit_one hlen)
  have hcount := hs.count
  have hle := editLine_length_le vs
  constructor
  case count => omega
  case cells =>
    intro i hi
    rw [← hs.cells i hi, h0, Nat.sub_zero, Nat.add_comm]
  case inPage =>
    intro c hc
    rcases List.mem_cons.mp hc with rfl | hc
    · omega
    · exact hs.stored c hc
  case shown =>
    intro hz
    exact (hs.shown_iff hz).mpr (Or.inl (by rw [h0]))

/-- A byte went out of the page, or the next one will: `s` backspaces on an empty line have taken
the counter to 0, and some of the others below that. -/
def Astray (s backs : Nat) (l : Line) : Prop :=
  (∃ c ∈ l.stored, ¬(1 ≤ c ∧ c ≤ 4096)) ∨ ∃ m, m + s ≤ backs ∧ l.count = (2^16-m) % 2^16

/-- From there no key leads back, as long as the backspaces do not bring the counter round. -/
theorem Astray.key {s backs : Nat} {l : Line} (h : Astray s backs l) (h1 : 1 ≤ s) (v : UInt8)
    (hback : backs ≤ 61440) :
    Astray s (backs + if v = charBackspace then 1 else 0) (l.step (.key v)) := by
  rw [Line.step]
  rcases h with ⟨c, hc, hout⟩ | ⟨m, hm, hcount⟩
  · refine Or.inl ⟨c, ?_, hout⟩
    split_ifs
    · exact hc
    · exact List.mem_cons_of_mem _ hc
  · by_cases hv : v = charBackspace
    · refine Or.inr ⟨m+1, by rw [if_pos hv]; omega, ?_⟩
      rw [if_pos hv]
      dsimp only
      rw [hcount]
      omega
    · refine Or.inl ?_
      rw [if_neg hv]
      refine ⟨_, List.mem_cons_self, ?_⟩
      rw [hcount]
      omega

theorem Line.InPage.not_astray {s backs : Nat} {l : Line} (h : l.InPage) (h1 : 1 ≤ s)
    (hback : backs ≤ 61440) : ¬Astray s backs l := by
  rintro (⟨c, hc, hout⟩ | ⟨m, hm, hcount⟩)
  · exact hout (h c (List.mem_cons_of_mem _ hc))
  · have hend := h _ List.mem_cons_self
    rw [hcount] at hend
    omega

theorem charsFit_or_astray {s : Nat} (h1 : 1 ≤ s) (hs : s < 2^16) (vs : List UInt8)
    (hback : vs.count charBackspace ≤ 61440) :
    (overErased vs < s ∧ CharsFit s vs) ∨
      Astray s (vs.count charBackspace) (lineAfter s (vs.map .key)) := by
  induction vs using List.reverseRecOn with
  | nil => exact Or.inl ⟨h1, fun before v after h => by simp at h⟩
  | append_singleton vs v ih =>
    have hcount : (vs ++ [v]).count charBackspace =
        vs.count charBackspace + if v = charBackspace then 1 else 0 := by
      rw [List.count_append, List.count_singleton]
      simp
    have hle := overErased_le_count (vs ++ [v])
    rw [hcount] at hback hle ⊢
    rw [List.map_append, List.map_singleton, lineAfter_snoc]
    rcases ih (by omega) with ⟨he, hfit⟩ | hbad
    · have hc := (spellsFrom_lineAfter hs vs he hfit).count
      by_cases hv : v = charBackspace
      · by_cases hlast : editLine vs = [] ∧ overErased vs + 1 = s
        · rw [overErased_snoc, if_pos ⟨hv, hlast.1⟩] at hle
          rw [hlast.1, List.length_nil] at hc
          refine Or.inr (Or.inr ⟨0, by omega, ?_⟩)
          rw [Line.step, if_pos hv]
          dsimp only
          omega
        · refine Or.inl ⟨?_, (charsFit_snoc s vs v).mpr ⟨hfit, fun h => absurd hv h⟩⟩
          rw [overErased_snoc]
          split_ifs with hempty
          · have : overErased vs + 1 ≠ s := fun h => hlast ⟨hempty.2, h⟩
            omega
          · omega
      · by_cases hroom : (lineAfter s (vs.map .key)).count ≤ 4096
        · refine Or.inl ⟨?_, (charsFit_snoc s vs v).mpr ⟨hfit, fun _ => by omega⟩⟩
          rwa [overErased_snoc, if_neg (fun h => hv h.1)]
        · refine Or.inr (Or.inl ?_)
          rw [Line.step, if_neg hv]
          exact ⟨_, List.mem_cons_self, fun h => hroom h.2⟩
    · exact Or.inr (hbad.key h1 v (by omega))

/-- Where the counter can not have come round, the line is right when it begins with the page and
ends inside it. -/
theorem inPage_shown_iff {s : Nat} (h1 : 1 ≤ s) (hs : s < 2^16) (vs : List UInt8)
    (hz : ∀ v ∈ vs, v ≠ 0) (hback : vs.count charBackspace ≤ 61440) :
    let l := lineAfter s (vs.map .key)
    l.InPage ∧ l.shown = editLine vs ↔
      overErased vs < s ∧ CharsFit s vs ∧ s + (editLine vs).length ≤ 4096 + overErased vs ∧
        (overErased vs + 1 = s ∨ editLine vs = []) := by
  intro l
  constructor
  · rintro ⟨hin, hshown⟩
    obtain ⟨he, hfit⟩ := (charsFit_or_astray h1 hs vs hback).resolve_right
      (hin.not_astray h1 hback)
    have hspell := spellsFrom_lineAfter hs vs he hfit
    have hend := (hin _ List.mem_cons_self).2
    have hcount : l.count + _ = _ := hspell.count
    exact ⟨he, hfit, by omega, (hspell.shown_iff hz).mp hshown⟩
  · rintro ⟨he, hfit, hend, hfirst⟩
    have hspell := spellsFrom_lineAfter hs vs he hfit
    have hcount : l.count + _ = _ := hspell.count
    refine ⟨?_, (hspell.shown_iff hz).mpr hfirst⟩
    intro c hc
    rcases List.mem_cons.mp hc with rfl | hc
    · omega
    · exact hspell.stored c hc

theorem noOverErase_of_inPage (vs : List UInt8) (hback : vs.count charBackspace ≤ 61440)
    (h : (lineAfter 1 (vs.map .key)).InPage) : NoOverErase vs := by
  rw [noOverErase_iff]
  obtain ⟨he, -⟩ := (charsFit_or_astray le_rfl (by norm_num) vs hback).resolve_right
    (h.not_astray le_rfl hback)
  omega

/-- A read of a line from the keyboard as it should be: gets ends with the Enter and stores the
line that the keys spell, nothing but its page is written, and readfile returns the length. -/
def ReadsLine (scs : List UInt8) (start : Nat) (img : Bytes) (buf : Nat) (size : Int)
    (k : Keyboard) : Prop :=
  let line := editLine (typed k.lkp scs)
  ∃ N, ∀ n, N ≤ n → ∃ k', gets n (scs.map .key ++ [.key 28]) k = some (line, k') ∧
    OnlyBuffer k' ∧
    (readfile start img (readStdin buf line) none size).map Prod.fst = some (line.length : Int)

theorem harmless_keys (base : Nat) (scs : List UInt8) (k : Keyboard) :
    Harmless base (scs.map .key) k := by
  intro before c after hsplit
  have hm : Interrupt.alloc c ∈ scs.map .key := by
    rw [hsplit]
    simp
  simp at hm

theorem readStdin_length (start : Nat) (img line : Bytes) (buf : Nat) (size : Int)
    (hs : 0 ≤ size) :
    (readfile start img (readStdin buf line) none size).map Prod.fst =
      some (line.length : Int) ↔ int32 buf = line.length := by
  rw [readfile, if_neg (by omega)]
  simp [readStdin]

/-- With an Enter from before the call gets returns the empty line, whatever is typed. -/
theorem readsLine_stale {k : Keyboard} {scs img : Bytes} {start buf : Nat} {size : Int}
    (hr : Room k.kern.cursor) (hs : 0 ≤ size) (hw : k.checkNl = true) :
    ReadsLine scs start img buf size k ↔
      (editLine (typed k.lkp scs) = [] ∧ startCount k ≤ 4096) ∧
      int32 buf = (editLine (typed k.lkp scs)).length := by
  unfold ReadsLine
  simp only [readStdin_length _ _ _ _ _ hs]
  obtain ⟨hshow, hnl, -⟩ := getsStart_shows k hr
  have hgets (n : Nat) := gets_stale n (scs.map .key ++ [.key 28]) (hnl.trans hw)
  have hend (n : Nat) (hn : 4096 ≤ n) := getsEnd_text hr hshow 0 (by norm_num) rfl hn
  constructor
  · rintro ⟨N, h⟩
    obtain ⟨k', hk, honly, hbuf⟩ := h (max N 4096) (le_max_left _ _)
    obtain ⟨k'', hk''⟩ := hend _ (le_max_right N 4096)
    rw [hgets, hk''] at hk
    obtain ⟨hline, rfl⟩ := Prod.mk.inj (Option.some.inj hk)
    exact ⟨⟨hline.symm, ((getsEnd_onlyBuffer hr hshow hk'').mp honly).2⟩, hbuf⟩
  · rintro ⟨⟨hline, hcount⟩, hbuf⟩
    refine ⟨4096, ?_⟩
    intro n hn
    obtain ⟨k', hk⟩ := hend n hn
    refine ⟨k', ?_, (getsEnd_onlyBuffer hr hshow hk).mpr ⟨by simp [Line.start], hcount⟩, hbuf⟩
    rw [hgets, hk, hline]
    rfl

/-- Otherwise it returns what stands in the page when the Enter comes. -/
theorem readsLine_waiting {k : Keyboard} {scs img : Bytes} {start buf : Nat} {size : Int}
    (hr : Room k.kern.cursor) (hs : 0 ≤ size) (hw : k.checkNl = false)
    (hn : charNewline ∉ typed k.lkp scs) :
    let l := lineAfter (startCount k) ((typed k.lkp scs).map .key)
    ReadsLine scs start img buf size k ↔
      (l.InPage ∧ l.shown = editLine (typed k.lkp scs)) ∧
      int32 buf = (editLine (typed k.lkp scs)).length := by
  intro l
  unfold ReadsLine
  simp only [readStdin_length _ _ _ _ _ hs]
  have hnl : NoEnter (strokes k.lkp (scs.map .key)) := by
    rw [strokes_keys]
    intro hm
    simp only [List.mem_map, Stroke.key.injEq, exists_eq_right] at hm
    exact hn hm
  obtain ⟨e, hshow, hgets⟩ := gets_enter (scs.map .key) k hr hw (harmless_keys _ _ _) hnl
  rw [strokes_keys] at hshow
  have honly {n : Nat} {t : Bytes} {k' : Keyboard} (hk : getsEnd n e = some (t, k')) :
      OnlyBuffer k' ↔ l.InPage := by
    rw [getsEnd_onlyBuffer hr hshow hk]
    exact ⟨fun h => h.1, fun h => ⟨h, (h _ List.mem_cons_self).2⟩⟩
  constructor
  · rintro ⟨N, h⟩
    obtain ⟨k', hk, hpage, hbuf⟩ := h (max N 4096) (le_max_left _ _)
    rw [hgets] at hk
    have hin := (honly hk).mp hpage
    have hcount := hin _ List.mem_cons_self
    obtain ⟨k'', hk''⟩ := getsEnd_shown hr hshow hcount.1 hcount.2 (le_max_right N 4096)
    rw [hk''] at hk
    exact ⟨⟨hin, (Prod.mk.inj (Option.some.inj hk)).1⟩, hbuf⟩
  · rintro ⟨⟨hin, hshown⟩, hbuf⟩
    have hcount := hin _ List.mem_cons_self
    refine ⟨4096, ?_⟩
    intro n hn
    obtain ⟨k', hk⟩ := getsEnd_shown hr hshow hcount.1 hcount.2 hn
    refine ⟨k', ?_, (honly hk).mpr hin, hbuf⟩
    rw [hgets, hk]
    exact congrArg (fun t => some (t, k')) hshown

/-- The line is right when every byte goes to the page and what stands in it in the end is what
the keys spell. With the counter at 1 that is unless a backspace comes on an empty line; further on
it takes as many of these as bring the line to the first byte of the page. readfile returns the low
half of the buffer's address instead of the length. -/
theorem gets_line_iff (k : Keyboard) (scs : List UInt8) (start : Nat) (img : Bytes) (buf : Nat)
    (size : Int) (hr : Room k.kern.cursor) (hs : 0 ≤ size)
    (hv : ∀ v ∈ typed k.lkp scs, v ≠ 0 ∧ v ≠ charNewline)
    (hlen : characters (typed k.lkp scs) ≤ 4095) :
    let vs := typed k.lkp scs
    let l := lineAfter (startCount k) (vs.map .key)
    (ReadsLine scs start img buf size k ↔
      (if k.checkNl then editLine vs = [] ∧ startCount k ≤ 4096
        else l.InPage ∧ l.shown = editLine vs) ∧
      int32 buf = (editLine vs).length) ∧
    (k.kern.flag = true → (NoOverErase vs → l.InPage ∧ l.shown = editLine vs) ∧
      (vs.count charBackspace ≤ 61440 → l.InPage → NoOverErase vs)) ∧
    (1 ≤ startCount k → vs.count charBackspace ≤ 61440 →
      (l.InPage ∧ l.shown = editLine vs ↔
        overErased vs < startCount k ∧ CharsFit (startCount k) vs ∧
        startCount k + (editLine vs).length ≤ 4096 + overErased vs ∧
        (overErased vs + 1 = startCount k ∨ editLine vs = []))) := by
  intro vs l
  refine ⟨?_, ?_, ?_⟩
  · by_cases hw : k.checkNl = true
    · rw [if_pos hw]
      exact readsLine_stale hr hs hw
    · rw [if_neg hw]
      exact readsLine_waiting hr hs (Bool.eq_false_iff.mpr hw) fun hm => (hv _ hm).2 rfl
  · intro hf
    have hone : startCount k = 1 := if_pos hf
    have hl : l = lineAfter 1 (vs.map .key) := by
      change lineAfter (startCount k) _ = _
      rw [hone]
    rw [hl]
    refine ⟨?_, noOverErase_of_inPage vs⟩
    intro hno
    have hspell := spells_lineAfter vs hno hlen
    exact ⟨hspell.inPage, hspell.shown fun v hm => (hv v hm).1⟩
  · intro h1 hback
    have hlt : startCount k < 2^16 := by
      rw [startCount]
      split_ifs <;> omega
    exact inPage_shown_iff h1 hlt vs (fun v hm => (hv v hm).1) hback

/-- The keyboard after init_kbd, with the freelist at 3 MiB and the next free page at 4 MiB. -/
def idleKeyboard : Keyboard :=
  initKbd { Keyboard.blank with
    kern := { Kernel.init (fun _ => 0) 0 0 with
      freelist := virtBase + 0x300000, pdesc := 0x400000 } }

theorem idleKeyboard_room : Room idleKeyboard.kern.cursor := by
  have hcur : idleKeyboard.kern.cursor = 0x400000 := rfl
  rw [hcur]
  exact ⟨by norm_num, by norm_num⟩

/-- The letter a, read into a buffer whose address ends in the length of the line. -/
theorem gets_line_letter : typed .no [30] = [97] ∧
    ReadsLine [30] 0 [] 0x100000001 100 idleKeyboard := by
  have htyped : typed idleKeyboard.lkp [30] = [97] := by decide +kernel
  obtain ⟨hiff, hno, -⟩ := gets_line_iff idleKeyboard [30] 0 [] 0x100000001 100 idleKeyboard_room
    (by norm_num) (by rw [htyped]; simp [charNewline]) (by rw [htyped]; decide)
  rw [htyped] at hiff hno
  refine ⟨htyped, hiff.mpr ⟨?_, by decide⟩⟩
  rw [if_neg (by decide)]
  refine (hno rfl).1 ?_
  intro before after hsplit
  have hm : charBackspace ∈ [(97 : UInt8)] := by
    rw [hsplit]
    simp
  exact absurd hm (by decide)

/-- A backspace and then a letter: the letter is stored in the byte below the page. And one
letter alone: readfile returns the address of the buffer. -/
theorem gets_line_lost : editLine (typed .no [14, 30]) = [97] ∧
    ¬ReadsLine [14, 30] 0 [] 0x100000001 100 idleKeyboard ∧
    ¬ReadsLine [30] 0 [] 0x601000 100 idleKeyboard := by
  have htyped : typed idleKeyboard.lkp [14, 30] = [8, 97] := by decide +kernel
  refine ⟨by decide +kernel, ?_, ?_⟩
  · rintro ⟨N, h⟩
    obtain ⟨k, hk, honly, -⟩ := h N le_rfl
    have hnl : NoEnter (strokes idleKeyboard.lkp ([14, 30].map .key)) := by
      rw [strokes_keys, htyped, NoEnter]
      decide
    obtain ⟨e, hshow, hgets⟩ := gets_enter ([14, 30].map .key) idleKeyboard idleKeyboard_room rfl
      (harmless_keys _ _ _) hnl
    rw [hgets] at hk
    have hin := ((getsEnd_onlyBuffer idleKeyboard_room hshow hk).mp honly).1
    rw [strokes_keys, htyped] at hin
    have hzero := hin 0 (by decide +kernel)
    omega
  · rintro ⟨N, h⟩
    obtain ⟨k, -, -, hread⟩ := h N le_rfl
    rw [readStdin_length _ _ _ _ _ (by norm_num)] at hread
    revert hread
    decide +kernel

end Edit

end SBUnix
