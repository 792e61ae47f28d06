import SBUnix.Console.LineBuffer

namespace SBUnix

open ByteMemory Word

/-- The `k`-th page of the pool has been given out, by get_page or by page_alloc. -/
def HandedOut (pf k : Nat) (log : List Event) : Prop :=
  .early (pool pf + 4096*k) ∈ log ∨ .page (add64 (pool pf + 4096*k) virtBase) ∈ log

/-- `freelist[k]` -/
def Kernel.freeWord (s : Kernel) (k : Nat) : Nat := load32 s.mem (direct s.freelist + 4*k)

/-- The freelist says which pages of the pool are given out. -/
def ExactBooks (pf : Nat) (s : Kernel) : Prop :=
  ∀ k < numberOfPages, s.freeWord k = 0 ↔ HandedOut pf k s.log

/-- Whatever happens after boot: allocations, init_kbd, a call of gets and its end, and keys at
any time, whether gets is waiting or not. -/
inductive KbdRun (k₀ : Keyboard) : Keyboard → Prop
  | start : KbdRun k₀ k₀
  | alloc {k : Keyboard} (c : AllocCall) : KbdRun k₀ k →
      KbdRun k₀ { k with kern := (c.run k.kern).2 }
  | init {k : Keyboard} : KbdRun k₀ k → KbdRun k₀ (initKbd k)
  | key {k : Keyboard} (sc : UInt8) : KbdRun k₀ k → KbdRun k₀ (keyboardHandler sc k)
  | call {k : Keyboard} : KbdRun k₀ k → KbdRun k₀ (getsStart k)
  | finish {k k' : Keyboard} {line : CString.Bytes} (n : Nat) : KbdRun k₀ k → k.checkNl = true →
      getsEnd n k = some (line, k') → KbdRun k₀ k'

section Frame

/-- The keyboard code has written nothing below `lo`, and of the allocator's state only the
counter and the flag. -/
structure KbdFrame (lo : Nat) (k k' : Keyboard) : Prop where
  mem : ∀ x < lo, k'.kern.mem x = k.kern.mem x
  cursor : k'.kern.cursor = k.kern.cursor
  freelist : k'.kern.freelist = k.kern.freelist
  log : k'.kern.log = k.kern.log
  buf : k'.kbdBuf = k.kbdBuf

variable {lo : Nat} {k k' k'' : Keyboard}

theorem KbdFrame.refl (lo : Nat) (k : Keyboard) : KbdFrame lo k k :=
  ⟨fun _ _ => rfl, rfl, rfl, rfl, rfl⟩

theorem KbdFrame.trans (h : KbdFrame lo k k') (g : KbdFrame lo k' k'') : KbdFrame lo k k'' where
  mem x hx := (g.mem x hx).trans (h.mem x hx)
  cursor := g.cursor.trans h.cursor
  freelist := g.freelist.trans h.freelist
  log := g.log.trans h.log
  buf := g.buf.trans h.buf

theorem KbdFrame.setCounter (h : KbdFrame lo k k') (c : Nat) : KbdFrame lo k (k'.setCounter c) :=
  ⟨h.mem, h.cursor, h.freelist, h.log, h.buf⟩

theorem KbdFrame.setScreen (h : KbdFrame lo k k') (s : Screen) :
    KbdFrame lo k { k' with screen := s } :=
  ⟨h.mem, h.cursor, h.freelist, h.log, h.buf⟩

theorem KbdFrame.setFlag (h : KbdFrame lo k k') (f : Bool) :
    KbdFrame lo k { k' with kern := { k'.kern with flag := f } } :=
  ⟨h.mem, h.cursor, h.freelist, h.log, h.buf⟩

/-- Wherever the counter stands, the bytes at it and below it are not under `lo`; or there is no
buffer yet. -/
def BufferAbove (lo : Nat) (k : Keyboard) : Prop :=
  k.kbdBuf = 0 ∨ ∀ c < 2^16, lo ≤ direct (sub64 (add64 k.kbdBuf c) 1) ∧
    lo ≤ direct (add64 k.kbdBuf c)

theorem bufferAbove_zero (k : Keyboard) : BufferAbove 0 k :=
  Or.inr fun _ _ => ⟨Nat.zero_le _, Nat.zero_le _⟩

theorem bufferAbove_page (base : Nat) (hlo : lo < base) (hhi : base + 2^17 < 2^64)
    (h : k.kbdBuf = add64 base virtBase) : BufferAbove lo k := by
  right
  intro c hc
  rw [h, direct_below c (by omega) (by omega), direct_index c (by omega)]
  omega

theorem storeAt_frame (a : Nat) (v : UInt8) (h : k.kbdBuf = 0 ∨ lo ≤ direct a) :
    KbdFrame lo k (k.storeAt a v) := by
  by_cases h0 : k.kbdBuf = 0
  · rw [Keyboard.storeAt, if_pos h0]
    exact ⟨fun _ _ => rfl, rfl, rfl, rfl, rfl⟩
  · have ha := h.resolve_left h0
    rw [storeAt_eq h0]
    generalize direct a = p at ha
    refine ⟨fun x hx => ?_, rfl, rfl, rfl, rfl⟩
    exact Function.update_of_ne (by omega) _ _

theorem BufferAbove.storeKey (h : BufferAbove lo k) (v : UInt8) :
    KbdFrame lo k (k.storeKey v) := by
  apply storeAt_frame
  rcases h with h | h
  · exact Or.inl h
  · exact Or.inr (h k.counter (Nat.mod_lt _ (by norm_num))).1

theorem BufferAbove.putKey (h : BufferAbove lo k) (v : UInt8) :
    KbdFrame lo k (putKey v k) := by
  have hs := h.storeKey
  unfold SBUnix.putKey
  split_ifs
  · exact ⟨(hs 0).mem, (hs 0).cursor, (hs 0).freelist, (hs 0).log, (hs 0).buf⟩
  · exact ((KbdFrame.refl lo k).setScreen _).setCounter _
  · exact ((hs v).setScreen _).setCounter _

theorem BufferAbove.keyboardHandler (h : BufferAbove lo k) (sc : UInt8) :
    KbdFrame lo k (keyboardHandler sc k) := by
  rw [keyboardHandler_eq]
  cases keyValue k.lkp sc with
  | none => exact ⟨fun _ _ => rfl, rfl, rfl, rfl, rfl⟩
  | some v =>
    have hp : BufferAbove lo { k with lkp := .no } := h
    have hf := hp.putKey v
    exact ⟨hf.mem, hf.cursor, hf.freelist, hf.log, hf.buf⟩

theorem BufferAbove.clearLine (h : BufferAbove lo k) (c : Nat) (hc : c ≤ 2^16) :
    KbdFrame lo k (clearLine c k) := by
  induction c generalizing k with
  | zero => exact KbdFrame.refl lo k
  | succ c ih =>
    have hstep : KbdFrame lo k ((k.setCounter c).storeAt (add64 k.kbdBuf c) 0) := by
      refine ((KbdFrame.refl lo k).setCounter c).trans (storeAt_frame _ _ ?_)
      rcases h with h | h
      · exact Or.inl h
      · exact Or.inr (h c (by omega)).2
    have hnext : BufferAbove lo ((k.setCounter c).storeAt (add64 k.kbdBuf c) 0) := by
      unfold BufferAbove
      rw [hstep.buf]
      exact h
    exact hstep.trans (ih hnext (by omega))

theorem BufferAbove.getsEnd (h : BufferAbove lo k) {n : Nat} {line : CString.Bytes}
    (he : getsEnd n k = some (line, k')) : KbdFrame lo k k' := by
  rw [SBUnix.getsEnd, Option.map_eq_some_iff] at he
  obtain ⟨_, -, he⟩ := he
  have hb : BufferAbove lo { k with checkNl := false } := h
  have hf := hb.clearLine k.counter (Nat.mod_lt _ (by norm_num)).le
  have hs := (hf.setCounter 1).setFlag true
  rw [← (Prod.mk.inj he).2]
  exact ⟨hs.mem, hs.cursor, hs.freelist, hs.log, hs.buf⟩

end Frame

section Books

/-- An allocation, of whatever size, takes a run of pages. -/
theorem AllocCall.run_pageAllocs (c : AllocCall) (s : Kernel) :
    ∃ n, n ≤ 2^32 ∧ (c.run s).2 = pageAllocs n s := by
  cases c with
  | pageAlloc =>
    refine ⟨1, by norm_num, ?_⟩
    rw [pageAllocs_succ, pageAllocs_zero]
    rfl
  | kmalloc sz =>
    obtain ⟨p, hp, he⟩ : ∃ p, p < 2^32 ∧
        (SBUnix.kmalloc sz s).2 = pageAllocs p (SBUnix.pageAlloc s).2 := by
      rw [SBUnix.kmalloc]
      dsimp only
      refine ⟨_, ?_, rfl⟩
      exact Nat.mod_lt _ (by norm_num)
    refine ⟨p+1, hp, ?_⟩
    rw [pageAllocs_succ]
    exact he

/-- The books while some page of the pool is left: `slots` has the entries that page_alloc has
cleared since boot, one for each page it gave out. -/
structure Books (m : Mem) (pf : Nat) (slots : List Nat) (k : Keyboard) : Prop where
  few : 99 + slots.length < numberOfPages
  freelist : k.kern.freelist = add64 virtBase pf
  cursor : k.kern.cursor = pool pf + 4096*(99 + slots.length)
  pages : ∀ j < numberOfPages, HandedOut pf j k.kern.log ↔ j < 99 + slots.length
  kept : ∀ j < numberOfPages, j ∉ slots → ∀ x, pf + 4*j ≤ x → x < pf + 4*j + 4 →
    k.kern.mem x = (booted m pf).mem x
  buf : BufferAbove (pool pf) k

/-- Every page of the pool is given out. -/
def AllOut (pf : Nat) (k : Keyboard) : Prop :=
  ∀ j < numberOfPages, HandedOut pf j k.kern.log

variable {m : Mem} {pf : Nat} {slots : List Nat} {k k' : Keyboard}

theorem HandedOut.mono {j : Nat} {l l' : List Event} (h : HandedOut pf j l)
    (hl : ∀ e ∈ l, e ∈ l') : HandedOut pf j l' := h.imp (hl _) (hl _)

theorem Books.frame (h : Books m pf slots k) (hf : KbdFrame (pool pf) k k') :
    Books m pf slots k' where
  few := h.few
  freelist := hf.freelist.trans h.freelist
  cursor := hf.cursor.trans h.cursor
  pages := by
    rw [hf.log]
    exact h.pages
  kept := by
    intro j hj hm x h1 h2
    rw [hf.mem x (by unfold pool; unfold numberOfPages at hj; omega), h.kept j hj hm x h1 h2]
  buf := by
    unfold BufferAbove
    rw [hf.buf]
    exact h.buf

theorem AllOut.frame {lo : Nat} (h : AllOut pf k) (hf : KbdFrame lo k k') : AllOut pf k' := by
  intro j hj
  rw [hf.log]
  exact h j hj

theorem add64_virtBase_inj {a b : Nat} (ha : a < 2^64) (hb : b < 2^64)
    (h : add64 a virtBase = add64 b virtBase) : a = b := by
  unfold add64 virtBase at h
  omega

theorem Books.direct_freelist (h : Books m pf slots k) (hf : pf < 2^52) :
    direct k.kern.freelist = pf := by
  rw [h.freelist]
  exact direct_virtBase_add pf (by omega)

/-- Taking pages: each comes with one entry of the freelist, wherever the counter stands. -/
theorem Books.take (h : Books m pf slots k) (hf : pf < 2^52) (n : Nat) (hn : n ≤ 2^32)
    (hbuf : BufferAbove (pool pf) k') (hk : k'.kern = pageAllocs n k.kern) :
    AllOut pf k' ∨ ∃ slots', Books m pf slots' k' := by
  have hfew := h.few
  have hcur := h.cursor
  have hpool : pool pf = pf + 98304 := rfl
  have hnum : numberOfPages = 24576 := rfl
  have ht := pageAllocs_taken n k.kern (by rw [hcur]; omega)
  rw [← hk] at ht
  have hpages : ∀ j < numberOfPages,
      HandedOut pf j k'.kern.log ↔ j < 99 + (slots.length+n) := by
    intro j hj
    have hold := h.pages j hj
    rw [HandedOut, ht.log, List.mem_append, List.mem_append, mem_takenLog, mem_takenLog]
    rw [HandedOut] at hold
    constructor
    · rintro ((⟨i, -, he | he⟩ | he) | (⟨i, hi, he | he⟩ | he))
      · cases he
      · cases he
      · have := hold.mp (Or.inl he)
        omega
      · have hpage := add64_virtBase_inj (by omega) (by omega) (Event.page.inj he)
        omega
      · cases he
      · have := hold.mp (Or.inr he)
        omega
    · intro hlt
      rcases Nat.lt_or_ge j (99 + slots.length) with hj' | hj'
      · rcases hold.mpr hj' with he | he
        · exact Or.inl (Or.inr he)
        · exact Or.inr (Or.inr he)
      · refine Or.inr (Or.inl ⟨j - (99 + slots.length), by omega, Or.inl ?_⟩)
        congr 2
        omega
  by_cases hend : 99 + (slots.length+n) < numberOfPages
  · have hlen : (List.range' k.kern.counter n ++ slots).length = slots.length + n := by
      rw [List.length_append, List.length_range', Nat.add_comm]
    refine Or.inr ⟨List.range' k.kern.counter n ++ slots, ?_⟩
    constructor
    case few =>
      rw [hlen]
      exact hend
    case freelist => exact ht.freelist.trans h.freelist
    case cursor =>
      rw [hlen, ht.cursor, hcur]
      omega
    case pages =>
      rw [hlen]
      exact hpages
    case kept =>
      intro j hj hm x h1 h2
      rw [List.mem_append, not_or, List.mem_range'_1] at hm
      have hfree := h.direct_freelist hf
      rw [ht.kept x (Or.inl (by omega)) (by rw [hfree]; omega), h.kept j hj hm.2 x h1 h2]
    case buf => exact hbuf
  · refine Or.inl ?_
    intro j hj
    exact (hpages j hj).mpr (by omega)

theorem pageAllocs_allOut (h : AllOut pf k) (n : Nat) (hk : k'.kern = pageAllocs n k.kern) :
    AllOut pf k' := by
  intro j hj
  rw [hk]
  exact (h j hj).mono fun e he => pageAllocs_log_mem n k.kern e he

/-- gets takes one page and makes it the buffer; the rest of its start is the counter and the
flag. -/
theorem getsStart_frame (k : Keyboard) :
    ∃ k', k'.kern = pageAllocs 1 k.kern ∧ k'.kbdBuf = (pageAlloc k.kern).1 ∧
      ∀ lo, KbdFrame lo k' (getsStart k) := by
  have hone : (pageSize+4095)/4096 = 1 := by norm_num [pageSize]
  have he := kmalloc_eq pageSize k.kern (by norm_num [pageSize]) (by norm_num [pageSize])
  rw [hone, Nat.sub_self] at he
  refine ⟨{ k with
    kern := (kmalloc pageSize k.kern).2
    kbdBuf := (kmalloc pageSize k.kern).1
    written := [] }, ?_, ?_, ?_⟩
  · rw [he, pageAllocs_succ]
  · rw [he]
  · intro lo
    rw [getsStart]
    dsimp only
    split_ifs
    · exact ((KbdFrame.refl lo _).setCounter 1).setFlag false
    · exact KbdFrame.refl lo _

theorem Books.call (h : Books m pf slots k) (hf : pf < 2^52) :
    AllOut pf (getsStart k) ∨ ∃ slots', Books m pf slots' (getsStart k) := by
  obtain ⟨k', hkern, hbuf, hframe⟩ := getsStart_frame k
  have hfew := h.few
  have hcur := h.cursor
  have hpool : pool pf = pf + 98304 := rfl
  have hnum : numberOfPages = 24576 := rfl
  obtain ⟨t, he, -⟩ := pageAlloc_taken k.kern (by rw [hcur]; omega)
  have hpage : BufferAbove (pool pf) k' := by
    refine bufferAbove_page k.kern.cursor (by omega) (by omega) ?_
    rw [hbuf, he]
  rcases h.take hf 1 (by norm_num) hpage hkern with hall | ⟨slots', hbooks⟩
  · exact Or.inl (hall.frame (hframe 0))
  · exact Or.inr ⟨slots', hbooks.frame (hframe (pool pf))⟩

/-- The state after boot: 99 pages are given out, and every entry of the freelist is still 1. -/
theorem booted_books (hp : pf % 4096 = 0) (hf : pf < 2^52) (h0 : k.kern = booted m pf)
    (hb : k.kbdBuf = 0) : Books m pf [] k := by
  have hboot := booted_spec m pf hp hf
  have hcur := booted_cursor hboot
  have hpool : pool pf = pf + 98304 := rfl
  constructor
  case few => norm_num [numberOfPages]
  case freelist => rw [h0, hboot.freelist]
  case cursor => rw [h0, hcur, List.length_nil]
  case pages =>
    intro j hj
    have hnum : numberOfPages = 24576 := rfl
    have hearly : (.early (pool pf + 4096*j) : Event) ∈ earlyLog pf 99 ↔ j < 99 := by
      constructor
      · intro h
        obtain ⟨i, hi, he | he⟩ := mem_earlyLog pf 99 _ h
        · cases he
        · have := Event.early.inj he
          omega
      · intro h
        have hm : pool pf + 4096*j ∈ earlyIn (earlyLog pf 99) := by
          rw [earlyIn_earlyLog, List.mem_reverse, List.mem_map]
          exact ⟨j, List.mem_range.mpr h, rfl⟩
        obtain ⟨e, hm, he⟩ := List.mem_filterMap.mp hm
        cases e with
        | early p =>
          obtain rfl := Option.some.inj he
          exact hm
        | page p => cases he
        | slot p => cases he
        | frame p => cases he
        | pte p => cases he
    have hpage : ¬(.page (add64 (pool pf + 4096*j) virtBase) : Event) ∈ earlyLog pf 99 := by
      intro h
      obtain ⟨i, hi, he | he⟩ := mem_earlyLog pf 99 _ h <;> cases he
    rw [h0, hboot.log, HandedOut, hearly, or_iff_left hpage, List.length_nil]
  case kept =>
    intro j hj hm x h1 h2
    rw [h0]
  case buf => exact Or.inl hb

/-- In every state of a run either the pool is used up or the books are as `Books` says. -/
theorem KbdRun.books {k₀ : Keyboard} (hp : pf % 4096 = 0) (hf : pf < 2^52)
    (h0 : k₀.kern = booted m pf) (hb : k₀.kbdBuf = 0) (h : KbdRun k₀ k) :
    AllOut pf k ∨ ∃ slots, Books m pf slots k := by
  induction h with
  | start => exact Or.inr ⟨[], booted_books hp hf h0 hb⟩
  | @alloc k c _ ih =>
    obtain ⟨n, hn, he⟩ := c.run_pageAllocs k.kern
    rcases ih with hall | ⟨slots, hbooks⟩
    · exact Or.inl (pageAllocs_allOut hall n he)
    · exact hbooks.take hf n hn hbooks.buf he
  | @init k _ ih =>
    have hframe (lo : Nat) : KbdFrame lo k (initKbd k) :=
      ⟨fun _ _ => rfl, rfl, rfl, rfl, rfl⟩
    rcases ih with hall | ⟨slots, hbooks⟩
    · exact Or.inl (hall.frame (hframe 0))
    · exact Or.inr ⟨slots, hbooks.frame (hframe _)⟩
  | @key k sc _ ih =>
    rcases ih with hall | ⟨slots, hbooks⟩
    · exact Or.inl (hall.frame ((bufferAbove_zero k).keyboardHandler sc))
    · exact Or.inr ⟨slots, hbooks.frame (hbooks.buf.keyboardHandler sc)⟩
  | @call k _ ih =>
    rcases ih with hall | ⟨slots, hbooks⟩
    · obtain ⟨k', hkern, -, hframe⟩ := getsStart_frame k
      exact Or.inl ((pageAllocs_allOut hall 1 hkern).frame (hframe 0))
    · exact hbooks.call hf
  | @finish k k' line n _ _ he ih =>
    rcases ih with hall | ⟨slots, hbooks⟩
    · exact Or.inl (hall.frame ((bufferAbove_zero k).getsEnd he))
    · exact Or.inr ⟨slots, hbooks.frame (hbooks.buf.getsEnd he)⟩

/-- After boot no entry of the freelist is 0: get_page cleared words of the first pool page
instead. -/
theorem booted_freeWord (m : Mem) (pf j : Nat) (hp : pf % 4096 = 0) (hf : pf < 2^52)
    (hj : j < numberOfPages) : load32 (booted m pf).mem (pf + 4*j) = 1 := by
  have hboot := booted_spec m pf hp hf
  have hpool : pool pf = pf + 98304 := rfl
  have hnum : numberOfPages = 24576 := rfl
  have hword := hboot.words.below (pf + 8*(j/2)) (by omega) (by omega)
  rw [belowOf, if_pos (by omega)] at hword
  rcases Nat.mod_two_eq_zero_or_one j with h | h
  · rw [show pf + 4*j = pf + 8*(j/2) by omega, load32, load_low _ 4 4]
    exact congrArg (· % 256^4) hword
  · rw [show pf + 4*j = pf + 8*(j/2) + 4 by omega, load32, load_high _ 4 4]
    exact congrArg (· / 256^4) hword

/-- While a page is left, fewer entries are 0 than pages are given out. -/
theorem Books.not_exact (h : Books m pf slots k) (hp : pf % 4096 = 0) (hf : pf < 2^52) :
    ¬ExactBooks pf k.kern := by
  intro hex
  have hfew := h.few
  have hsub : List.range (99 + slots.length) ⊆ slots := by
    intro j hj
    rw [List.mem_range] at hj
    by_contra hm
    have hzero := (hex j (by omega)).mpr ((h.pages j (by omega)).mpr hj)
    have hkept : load32 k.kern.mem (pf + 4*j) = load32 (booted m pf).mem (pf + 4*j) :=
      load_congr _ _ _ _ (h.kept j (by omega) hm)
    rw [Kernel.freeWord, h.direct_freelist hf, hkept, booted_freeWord m pf j hp hf (by omega)]
      at hzero
    cases hzero
  have hle := (List.nodup_range.subperm hsub).length_le
  rw [List.length_range] at hle
  omega

/-- The 99 pages of boot are not in the freelist, so the books are never right until every page
of the pool is given out; then they are right when every entry is 0. -/
theorem exactBooks_iff (m : Mem) (pf : Nat) (hp : pf % 4096 = 0) (hf : pf < 2^52)
    (k₀ k : Keyboard) (h0 : k₀.kern = booted m pf) (hb : k₀.kbdBuf = 0) (h : KbdRun k₀ k) :
    ExactBooks pf k.kern ↔
      (∀ j < numberOfPages, HandedOut pf j k.kern.log) ∧
      ∀ j < numberOfPages, k.kern.freeWord j = 0 := by
  constructor
  · intro hex
    rcases h.books hp hf h0 hb with hall | ⟨slots, hbooks⟩
    · exact ⟨hall, fun j hj => (hex j hj).mpr (hall j hj)⟩
    · exact absurd hex (hbooks.not_exact hp hf)
  · rintro ⟨hall, hzero⟩ j hj
    exact ⟨fun _ => hall j hj, fun _ => hzero j hj⟩

/-- A keyboard on the state after boot. -/
def bootedKeyboard : Keyboard :=
  { Keyboard.blank with kern := booted (fun _ => 0) 0x300000 }

theorem exactBooks_gets : 0x300000 % 4096 = 0 ∧
    (ExactBooks 0x300000 (getsStart bootedKeyboard).kern ↔
      (∀ j < numberOfPages, HandedOut 0x300000 j (getsStart bootedKeyboard).kern.log) ∧
      ∀ j < numberOfPages, (getsStart bootedKeyboard).kern.freeWord j = 0) :=
  ⟨by norm_num, exactBooks_iff (fun _ => 0) 0x300000 (by norm_num) (by norm_num) bootedKeyboard _
    rfl rfl (KbdRun.call KbdRun.start)⟩

/-- Right after boot the first page is given out and `freelist[0]` is 1. -/
theorem exactBooks_fails :
    HandedOut 0x300000 0 bootedKeyboard.kern.log ∧ bootedKeyboard.kern.freeWord 0 = 1 ∧
    ¬ExactBooks 0x300000 bootedKeyboard.kern := by
  have hf : 0x300000 < 2^52 := by norm_num
  have hbooks : Books (fun _ => 0) 0x300000 [] bootedKeyboard :=
    booted_books (by norm_num) hf rfl rfl
  refine ⟨(hbooks.pages 0 (by norm_num [numberOfPages])).mpr (by norm_num), ?_,
    hbooks.not_exact (by norm_num) hf⟩
  rw [Kernel.freeWord, hbooks.direct_freelist hf]
  exact booted_freeWord (fun _ => 0) 0x300000 0 (by norm_num) hf (by norm_num [numberOfPages])

end Books

end SBUnix
