import SBUnix.Paging.VaRuns
import SBUnix.Process.ForkMemory

namespace SBUnix

open ByteMemory CString Word

/-- Where the heap descriptor of a child goes. -/
def Kernel.heapPage (k : Kernel) : Nat := (k.vaCursor.step .growsDown).newPage

/-- In an area, or not more than a word away from it. -/
def Segment.Around (seg : Segment) (x : Nat) : Prop :=
  seg.vmStart ≤ x+8 ∧ x < seg.vmStart + seg.vmMmsz + 8

/-- The kernel has the memory a fork takes, and takes it where no area of the parent is. -/
structure ForkReady (s : Loader) (parent : ForkTask) (segs : List Segment) : Prop where
  space : Space s.kern s.kern.frameOf
  budget : Budget s.kern 11
  stackFrame : FreeFrame s.kern.frameOf s.kern.usrPhysAddr
  heapFrame : FreeFrame s.kern.frameOf (nextFrame s.kern.usrPhysAddr)
  cr3 : parent.cr3 = s.kern.cr3
  stack : s.kern.userAddr % 4096 = 0 ∧ s.kern.userAddr % 2^21 ≠ 0 ∧ s.kern.userAddr < 2^47
  heap : s.kern.heapPage % 4096 = 0 ∧ s.kern.heapPage < 2^47
  areas : ∀ seg ∈ segs, ∀ x, seg.Around x → x < 2^47 ∧
    x / 4096 ≠ (s.kern.userAddr - 4096) / 4096 ∧ x / 4096 ≠ s.kern.heapPage / 4096

section Fork

variable {s s' t : Loader} {mms : List Nat} {base : Nat → Nat} {segs : Nat → List Segment}
  {k u : Kernel} {F : Nat → Option Nat} {start : Nat} {img : Bytes} {parent : ForkTask}

/-- The state at the loop of fork_process. -/
structure StackMade (s k : Kernel) : Prop where
  space : Space k (place s.frameOf (s.userAddr - 4096) s.usrPhysAddr)
  budget : Budget k 4
  cr3 : k.cr3 = s.cr3
  usrPhysAddr : k.usrPhysAddr = nextFrame s.usrPhysAddr
  vaCursor : k.vaCursor = s.vaCursor.step .growsDown
  kept : ∀ x < 2^47, x / 4096 ≠ (s.userAddr - 4096) / 4096 → peek k x = peek s x

theorem ForkReady.stackMapped {l : List Segment} (h : ForkReady s parent l) :
    (memmap 0 pageSize usrPermBits .growsDown
      (kmalloc taskSize (kmalloc taskSize s.kern).2).2).1 = s.kern.userAddr ∧
    StackMade s.kern (memmap 0 pageSize usrPermBits .growsDown
      (kmalloc taskSize (kmalloc taskSize s.kern).2).2).2 := by
  have hone : 1 ≤ taskSize := by decide
  have htwo : (taskSize+4095)/4096 = 2 := by decide
  obtain ⟨hs1, hq1, hp1⟩ := h.space.kmalloc hone htwo (h.budget.mono (by decide))
  have hb1 : Budget (kmalloc taskSize s.kern).2 9 := h.budget.after hq1
  obtain ⟨hs2, hq2, hp2⟩ := hs1.kmalloc hone htwo (hb1.mono (by decide))
  have hb2 : Budget (kmalloc taskSize (kmalloc taskSize s.kern).2).2 7 := hb1.after hq2
  have hq := hq1.trans hq2
  have hp : ∀ x < 2^47, peek (kmalloc taskSize (kmalloc taskSize s.kern).2).2 x = peek s.kern x :=
    fun x hx => (hp2 x hx).trans (hp1 x hx)
  generalize (kmalloc taskSize (kmalloc taskSize s.kern).2).2 = k2 at hs2 hb2 hq hp
  have haddr : k2.userAddr = s.kern.userAddr := congrArg (·.userAddr) hq.vaCursor
  have hfree : FreeFrame s.kern.frameOf k2.usrPhysAddr := by
    rw [hq.usrPhysAddr]
    exact h.stackFrame
  obtain ⟨ha, h21, hlt⟩ := h.stack
  have hg := hs2.growsDown (hb2.mono (by decide)) hfree (by rwa [haddr]) (by rwa [haddr])
    (by rwa [haddr])
  have hspace := hg.space
  rw [haddr, hq.usrPhysAddr] at hspace
  refine ⟨?_, hspace, Budget.grown (n := 4) hb2 hg, ?_, ?_, ?_, ?_⟩
  · rw [(growsDown_result 0 usrPermBits k2).1, hq.vaCursor, Kernel.vaCursor]
  · rw [hg.cr3, hq.cr3]
  · rw [hg.usrPhysAddr, hq.usrPhysAddr]
  · rw [memmap_vaCursor, hq.vaCursor]
  · intro x hx hne
    rw [hg.kept x hx (by rwa [haddr]), hp x hx]

theorem StackMade.copied {s : Kernel} (h : StackMade s k) (hlt : s.userAddr < 2^47)
    (hpos : 4096 ≤ s.userAddr) (hal : s.userAddr % 4096 = 0) {src : Nat}
    (hk : userCopy pageSize (s.userAddr - 4096) src k = some u) : StackMade s u := by
  have htop := h.budget.top
  have hpage : s.userAddr - 4096 + pageSize = s.userAddr := by
    unfold pageSize
    omega
  obtain ⟨hs, ⟨m, hm⟩, hp⟩ := h.space.userCopy (by omega) (by omega) hk
  have hq : Quiet k u 0 := by
    rw [hm]
    exact Quiet.setMem k m
  refine ⟨hs, h.budget.after hq, ?_, ?_, ?_, ?_⟩
  · rw [hq.cr3, h.cr3]
  · rw [hq.usrPhysAddr, h.usrPhysAddr]
  · rw [hq.vaCursor, h.vaCursor]
  · intro x hx hne
    rw [hp x hx (by omega), h.kept x hx hne]

theorem ForkReady.stackMade {l : List Segment} (h : ForkReady s parent l) {src : Nat}
    (hk : userCopy pageSize
      (sub64 (memmap 0 pageSize usrPermBits .growsDown
        (kmalloc taskSize (kmalloc taskSize s.kern).2).2).1 pageSize) src
      (memmap 0 pageSize usrPermBits .growsDown
        (kmalloc taskSize (kmalloc taskSize s.kern).2).2).2 = some k) :
    StackMade s.kern k := by
  obtain ⟨hfst, hmade⟩ := h.stackMapped
  obtain ⟨ha, h21, hlt⟩ := h.stack
  have hpos : 4096 ≤ s.kern.userAddr := by omega
  rw [hfst, sub64_of_le _ _ (by unfold pageSize; omega) (by omega), pageSize] at hk
  exact hmade.copied hlt hpos ha hk

/-- A word of the heap descriptor. -/
theorem Space.storeWord (h : Space k F) (hb : k.cursor ≤ startPaddrForUsrs) {p off v : Nat}
    (hp : p % 4096 = 0) (hlt : p < 2^47) (hoff : off + 8 ≤ 4096)
    (ht : SBUnix.userStores (wordBytes v) (add64 p off) k = some u) :
    Space u F ∧ Quiet k u 0 ∧ ∀ x < 2^47, x / 4096 ≠ p / 4096 → peek u x = peek k x := by
  have hadd : add64 p off = p + off := add64_of_lt p off (by omega)
  have hlen : (wordBytes v).length = 8 := by simp [wordBytes]
  rw [hadd] at ht
  obtain ⟨hs, ⟨m, rfl⟩, hpeek⟩ := h.userStores hb (by rw [hlen]; omega) ht
  refine ⟨hs, Quiet.setMem k m, ?_⟩
  intro x hx hne
  rw [hpeek x hx, hlen, if_neg (by omega)]

theorem heapMade_kept (h : Space k F) (hb : Budget k 3) (hfree : FreeFrame F k.usrPhysAddr)
    (hp : k.vaCursor.newPage % 4096 = 0) (hlt : k.vaCursor.newPage < 2^47) {brk : Nat}
    {k1 k2 : Kernel}
    (h1 : userStores (wordBytes brk)
      (add64 (memmap 0 pageSize usrPermBits .newPage k).1 vmEnd)
      (memmap 0 pageSize usrPermBits .newPage k).2 = some k1)
    (h2 : userStores (wordBytes brk)
      (add64 (memmap 0 pageSize usrPermBits .newPage k).1 vmStart) k1 = some k2)
    (h3 : userStores (wordBytes pageSize)
      (add64 (memmap 0 pageSize usrPermBits .newPage k).1 vmMmsz) k2 = some u) :
    u.cr3 = k.cr3 ∧
    ∀ x < 2^47, x / 4096 ≠ k.vaCursor.newPage / 4096 → peek u x = peek k x := by
  have hg := h.newPage hb hfree hlt
  have hb0 := Budget.grown (n := 0) hb hg
  rw [(newPage_result 0 usrPermBits k).1] at h1 h2 h3
  obtain ⟨hs1, hq1, hp1⟩ := hg.space.storeWord hb0.top hp hlt (by decide) h1
  have hb1 : Budget k1 0 := hb0.after hq1
  obtain ⟨hs2, hq2, hp2⟩ := hs1.storeWord hb1.top hp hlt (by decide) h2
  have hb2 : Budget k2 0 := hb1.after hq2
  obtain ⟨-, hq3, hp3⟩ := hs2.storeWord hb2.top hp hlt (by decide) h3
  refine ⟨((hq1.trans hq2).trans hq3).cr3.trans hg.cr3, ?_⟩
  intro x hx hne
  rw [hp3 x hx hne, hp2 x hx hne, hp1 x hx hne, hg.kept x hx hne]

theorem memmap_later (addr length prot : Nat) (flag : MapFlag) (k : Kernel) :
    k.pools.Later (memmap addr length prot flag k).2.pools := by
  obtain ⟨n, -, h⟩ := memmap_pools addr length prot flag k
  exact ⟨n, _, h⟩

theorem userCopy_pools {n dst src : Nat} (h : userCopy n dst src k = some u) :
    u.pools = k.pools := by
  induction n generalizing dst src k with
  | zero =>
    cases h
    rfl
  | succ n ih =>
    obtain ⟨b, -, h⟩ := Option.bind_eq_some_iff.mp h
    obtain ⟨t, ht, h⟩ := Option.bind_eq_some_iff.mp h
    rw [ih h, userStores_pools ht]

/-- The child's list before the loop: empty, and apart from the parent's. -/
theorem Areas.forkList (h : Areas s mms base segs) {a : Nat} (ha : a ∈ mms)
    (hl : (kmalloc taskSize (kmalloc taskSize s.kern).2).2.pools.Later k.pools)
    (hn : k.pools.pages.Nodup) :
    Areas { s with
        kern := k
        mm := Function.update s.mm (kmalloc taskSize (kmalloc taskSize s.kern).2).1 ⟨none, 0⟩ }
      ((kmalloc taskSize (kmalloc taskSize s.kern).2).1 :: mms) base
      (Function.update segs (kmalloc taskSize (kmalloc taskSize s.kern).2).1 []) ∧
    a ≠ (kmalloc taskSize (kmalloc taskSize s.kern).2).1 := by
  have h1 : Areas { s with kern := (kmalloc taskSize s.kern).2 } mms base segs :=
    h.later (kmalloc_later s.kern taskSize) rfl rfl
  have hn2 := hl.nodup hn
  have h2 := h1.newMm taskSize hn2
  have hfresh := (kmalloc_fresh _ taskSize hn2).2
  refine ⟨h2.later hl rfl rfl, ?_⟩
  intro he
  rw [← he] at hfresh
  exact hfresh (h1.mapped a ha)

theorem ForkReady.range {l : List Segment} (h : ForkReady s parent l) :
    ∀ seg ∈ l, seg.vmStart + seg.vmMmsz + 7 ≤ 2^47 := by
  intro seg hseg
  have hend := (h.areas seg hseg (seg.vmStart + seg.vmMmsz + 7) ⟨by omega, by omega⟩).1
  omega

/-- The state behind the loop of fork_process. -/
structure AreasCopied (start : Nat) (img : Bytes) (s t : Kernel) (l : List Segment) : Prop where
  space : Space t (place s.frameOf (s.userAddr - 4096) s.usrPhysAddr)
  budget : Budget t 3
  cr3 : t.cr3 = s.cr3
  frame : FreeFrame (place s.frameOf (s.userAddr - 4096) s.usrPhysAddr) t.usrPhysAddr
  heapPage : t.vaCursor.newPage = s.heapPage
  copied : ∀ x < 2^47, x / 4096 ≠ (s.userAddr - 4096) / 4096 →
    peek t x = forked start img l x (peek s x)

theorem ForkReady.areasCopied {l : List Segment} (hr : ForkReady s parent l)
    (hmade : StackMade s.kern k) (hs : s'.kern = k) (h : Areas s' mms base segs) {a child n : Nat}
    (ha : a ∈ mms) (hc : child ∈ mms) (hne : a ≠ child) (hl : segs a = l) (hnil : segs child = [])
    (himg : start + img.length < 2^64) {head : Option Nat} (hhead : (s'.mm a).mmap = head)
    (ht : copyAreas start img child n head s' = some t)
    (hn : t.kern.pools.pages.Nodup) : AreasCopied start img s.kern t.kern l := by
  subst hl
  subst hs
  rw [← hhead, (h.holds a ha).head_node] at ht
  obtain ⟨hspace, hq, hpeek⟩ := h.copyPeek ha hc hne (i := 0) (Nat.zero_le _)
    (by rw [hnil, List.take_zero]) hmade.space (hmade.budget.mono (by decide)) himg hr.range ht hn
  rw [if_pos rfl] at hq
  constructor
  case space => exact hspace
  case budget => exact hmade.budget.after hq
  case cr3 => rw [hq.cr3, hmade.cr3]
  case frame =>
    rw [hq.usrPhysAddr, hmade.usrPhysAddr]
    exact hr.heapFrame.place (nextFrame_ne hr.stackFrame.range)
  case heapPage => rw [hq.vaCursor, hmade.vaCursor, Kernel.heapPage]
  case copied =>
    intro x hx hne
    rw [hpeek x hx, List.drop_zero, hmade.kept x hx hne]

/-- The calls fork_process makes, with the states in between. -/
theorem forkMemory_cases {n : Nat} {r : ForkTask × Loader}
    (hf : forkMemory start img n parent s = some r) :
    ∃ pcb mm stack k t heap brk k1 k2 k3, kmalloc taskSize s.kern = pcb ∧
      kmalloc taskSize pcb.2 = mm ∧
      memmap 0 pageSize usrPermBits .growsDown mm.2 = stack ∧
      userCopy pageSize (sub64 stack.1 pageSize) (sub64 parent.stack pageSize) stack.2 = some k ∧
      copyAreas start img mm.1 n (s.mm parent.mm).mmap { s with
        kern := k, mm := Function.update s.mm mm.1 ⟨none, 0⟩ } = some t ∧
      memmap 0 pageSize usrPermBits .newPage t.kern = heap ∧
      userStores (wordBytes brk) (add64 heap.1 vmEnd) heap.2 = some k1 ∧
      userStores (wordBytes brk) (add64 heap.1 vmStart) k1 = some k2 ∧
      userStores (wordBytes pageSize) (add64 heap.1 vmMmsz) k2 = some k3 ∧
      r.2.kern = tlbFlush parent.cr3 k3 ∧ r.1.mm = mm.1 ∧ r.2.mm = t.mm ∧ r.2.vma = t.vma := by
  unfold forkMemory at hf
  dsimp only at hf
  generalize kmalloc taskSize s.kern = pcb at hf
  generalize hmm : kmalloc taskSize pcb.2 = mm at hf
  generalize hstack : memmap 0 pageSize usrPermBits .growsDown mm.2 = stack at hf
  obtain ⟨k, hk, hf⟩ := Option.bind_eq_some_iff.mp hf
  obtain ⟨t, ht, hf⟩ := Option.bind_eq_some_iff.mp hf
  generalize hheap : memmap 0 pageSize usrPermBits .newPage t.kern = heap at hf
  obtain ⟨head, -, hf⟩ := Option.bind_eq_some_iff.mp hf
  obtain ⟨last, -, hf⟩ := Option.bind_eq_some_iff.mp hf
  obtain ⟨k1, h1, hf⟩ := Option.bind_eq_some_iff.mp hf
  obtain ⟨k2, h2, hf⟩ := Option.bind_eq_some_iff.mp hf
  obtain ⟨k3, h3, hf⟩ := Option.map_eq_some_iff.mp hf
  exact ⟨pcb, mm, stack, k, t, heap, _, k1, k2, k3, rfl, hmm, hstack, hk, ht, hheap, h1, h2, h3,
    by rw [← hf], by rw [← hf], by rw [← hf], by rw [← hf]⟩

theorem tlbFlush_self (k : Kernel) : tlbFlush k.cr3 k = k := rfl

/-- A byte outside the two new pages, after a fork. -/
theorem forkMemory_peek (h : Areas s mms base segs) (hp : parent.mm ∈ mms)
    (hr : ForkReady s parent (segs parent.mm)) (himg : start + img.length < 2^64) {n : Nat}
    {r : ForkTask × Loader} (hf : forkMemory start img n parent s = some r)
    (hn : r.2.kern.pools.pages.Nodup) {x : Nat} (hx : x < 2^47)
    (hstack : x / 4096 ≠ (s.kern.userAddr - 4096) / 4096)
    (hheap : x / 4096 ≠ s.kern.heapPage / 4096) :
    peek r.2.kern x = forked start img (segs parent.mm) x (peek s.kern x) := by
  obtain ⟨pcb, mm, stack, k, t, heap, brk, k1, k2, k3, rfl, rfl, rfl, hk, ht, rfl, h1, h2, h3,
    hkern, -⟩ := forkMemory_cases hf
  have hpools : r.2.kern.pools = (memmap 0 pageSize usrPermBits .newPage t.kern).2.pools := by
    rw [hkern, tlbFlush_pools, userStores_pools h3, userStores_pools h2, userStores_pools h1]
  rw [hpools] at hn
  have hnt := (memmap_later 0 pageSize usrPermBits .newPage t.kern).nodup hn
  have hnk := (copyAreas_later ht).nodup hnt
  have hmade := hr.stackMade hk
  have hlater := memmap_later 0 pageSize usrPermBits .growsDown
    (kmalloc taskSize (kmalloc taskSize s.kern).2).2
  rw [← userCopy_pools hk] at hlater
  obtain ⟨hlist, hne⟩ := h.forkList hp hlater hnk
  have hcopied := hr.areasCopied hmade rfl hlist (List.mem_cons_of_mem _ hp) List.mem_cons_self hne
    (Function.update_of_ne hne _ _) (Function.update_self _ _ _) himg
    (congrArg MmStruct.mmap (Function.update_of_ne hne _ _)) ht hnt
  obtain ⟨hcr3, hkept⟩ := heapMade_kept hcopied.space hcopied.budget hcopied.frame
    (by rw [hcopied.heapPage]; exact hr.heap.1) (by rw [hcopied.heapPage]; exact hr.heap.2) h1 h2 h3
  rw [hkern, hr.cr3, ← hcopied.cr3, ← hcr3, tlbFlush_self,
    hkept x hx (by rwa [hcopied.heapPage]), hcopied.copied x hx hstack]

theorem Segment.Touches.around {seg : Segment} {x : Nat} (h : seg.Touches x) : seg.Around x := by
  obtain ⟨-, h1, h2⟩ := h
  exact ⟨by omega, by omega⟩

theorem lastTouch_spec {l : List Segment} {x : Nat} {seg : Segment}
    (h : lastTouch l x = some seg) : seg ∈ l ∧ seg.Touches x := by
  unfold lastTouch at h
  have hdec := List.find?_some h
  exact ⟨List.mem_reverse.mp (List.mem_of_find?_eq_some h), of_decide_eq_true hdec⟩

theorem forked_eq_self_iff {l : List Segment} {x : Nat} {b : Option UInt8} :
    forked start img l x b = b ↔
      ∀ seg, lastTouch l x = some seg → b = fileByte start img seg (x - seg.vmStart) := by
  rw [forked]
  cases lastTouch l x with
  | none => simp
  | some last => simp [eq_comm]

end Fork

section Returns

variable {s : Loader} {mms : List Nat} {base : Nat → Nat} {segs : Nat → List Segment}
  {k : Kernel} {F : Nat → Option Nat} {start : Nat} {img : Bytes} {parent : ForkTask}

theorem place_ne_none {virt f x : Nat} (h : F x ≠ none) : place F virt f x ≠ none := by
  unfold place
  split_ifs
  · simp
  · exact h

theorem place_page {virt f x : Nat} (hv : virt % 4096 = 0) (hle : virt ≤ x)
    (hlt : x < virt + 4096) : place F virt f x ≠ none := by
  have hpage : x / 4096 = virt / 4096 := by omega
  rw [place, if_pos hpage]
  simp

/-- Every word the loop reads for an area is in the archive. -/
def Segment.InArchive (start : Nat) (img : Bytes) (seg : Segment) : Prop :=
  ∀ j < seg.vmMmsz, ∃ src, archiveAt start img (add64 (add64 seg.vmFile seg.vmOffset) j) = some src ∧
    8 ≤ src.length

theorem Space.copyWords_returns (h : Space k F) (hb : k.cursor ≤ startPaddrForUsrs) {seg : Segment}
    (hfile : seg.InArchive start img) (hmap : ∀ x, seg.Touches x → F x ≠ none) {n j : Nat}
    (hj : j + n = seg.vmMmsz) (hrange : seg.vmStart + seg.vmMmsz + 7 ≤ 2^47) :
    ∃ t, SBUnix.copyWords start img seg n j k = some t := by
  induction n generalizing j k with
  | zero => exact ⟨k, rfl⟩
  | succ n ih =>
    obtain ⟨src, hsrc, hlen⟩ := hfile j (by omega)
    have htake : (src.take 8).length = 8 := by
      rw [List.length_take]
      omega
    have hva : seg.vmStart + j + (src.take 8).length ≤ 2^47 := by omega
    obtain ⟨u, hu⟩ := h.userStores_returns hb hva fun x hx hlt =>
      hmap x ⟨by omega, by omega, by omega⟩
    obtain ⟨h1, ⟨m, rfl⟩, -⟩ := h.userStores hb hva hu
    obtain ⟨t, ht⟩ := ih (j := j+1) h1 hb (by omega)
    refine ⟨t, ?_⟩
    rw [SBUnix.copyWords, hsrc, Option.bind_some, if_neg (by omega),
      add64_of_lt seg.vmStart j (by omega), hu, Option.bind_some, ht]

theorem Space.storeWord_returns (h : Space k F) (hb : k.cursor ≤ startPaddrForUsrs) {p off : Nat}
    (v : Nat) (hp : p % 4096 = 0) (hlt : p < 2^47) (hoff : off + 8 ≤ 4096)
    (hmap : ∀ x, p ≤ x → x < p + 4096 → F x ≠ none) :
    ∃ t, SBUnix.userStores (wordBytes v) (add64 p off) k = some t := by
  have hadd : add64 p off = p + off := add64_of_lt p off (by omega)
  have hlen : (wordBytes v).length = 8 := by simp [wordBytes]
  rw [hadd]
  exact h.userStores_returns hb (by omega) fun x hx hx' => hmap x (by omega) (by omega)

theorem heapMade_returns (h : Space k F) (hb : Budget k 3) (hfree : FreeFrame F k.usrPhysAddr)
    (hp : k.vaCursor.newPage % 4096 = 0) (hlt : k.vaCursor.newPage < 2^47) (brk : Nat) :
    ∃ k1 k2 u, userStores (wordBytes brk)
      (add64 (memmap 0 pageSize usrPermBits .newPage k).1 vmEnd)
      (memmap 0 pageSize usrPermBits .newPage k).2 = some k1 ∧
    userStores (wordBytes brk)
      (add64 (memmap 0 pageSize usrPermBits .newPage k).1 vmStart) k1 = some k2 ∧
    userStores (wordBytes pageSize)
      (add64 (memmap 0 pageSize usrPermBits .newPage k).1 vmMmsz) k2 = some u := by
  have hg := h.newPage hb hfree hlt
  have hb0 := Budget.grown (n := 0) hb hg
  have hmap : ∀ x, k.vaCursor.newPage ≤ x → x < k.vaCursor.newPage + 4096 →
      place F k.vaCursor.newPage k.usrPhysAddr x ≠ none := fun x hx hx' => place_page hp hx hx'
  rw [(newPage_result 0 usrPermBits k).1]
  obtain ⟨k1, h1⟩ := hg.space.storeWord_returns hb0.top brk hp hlt
    (show vmEnd + 8 ≤ 4096 by decide) hmap
  obtain ⟨hs1, hq1, -⟩ := hg.space.storeWord hb0.top hp hlt (by decide) h1
  have hb1 : Budget k1 0 := hb0.after hq1
  obtain ⟨k2, h2⟩ := hs1.storeWord_returns hb1.top brk hp hlt
    (show vmStart + 8 ≤ 4096 by decide) hmap
  obtain ⟨hs2, hq2, -⟩ := hs1.storeWord hb1.top hp hlt (by decide) h2
  have hb2 : Budget k2 0 := hb1.after hq2
  obtain ⟨u, h3⟩ := hs2.storeWord_returns hb2.top pageSize hp hlt
    (show vmMmsz + 8 ≤ 4096 by decide) hmap
  exact ⟨k1, k2, u, h1, h2, h3⟩

theorem Areas.addArea_returns (h : Areas s mms base segs) {a : Nat} (ha : a ∈ mms)
    (hlen : (segs a).length < 56) (seg : Segment) :
    ∃ t, addArea a seg s = some t ∧
      s.kern.pools.Within (if segs a = [] then 1 else 0) t.kern.pools := by
  by_cases hne : segs a = []
  · have hh := h.holds a ha
    rw [hne] at hh
    obtain ⟨t, ht, hk, -⟩ := addArea_first hh seg
    refine ⟨t, ht, 1, by rw [if_pos hne], 0, ?_⟩
    rw [hk, kmalloc_pools_exact s.kern vmaSize (by decide) (by decide)]
    rfl
  · obtain ⟨-, hal, hlt⟩ := h.page a ha hne
    obtain ⟨t, ht, hk, -⟩ := addArea_next (h.holds a ha) hne hlen (page_end hal hlt) seg
    exact ⟨t, ht, 0, Nat.zero_le _, 0, by rw [hk]; rfl⟩

/-- The loop of fork_process comes to its end, from node `i` on. -/
theorem Areas.copy_returns (h : Areas s mms base segs) {parent child : Nat} (hp : parent ∈ mms)
    (hc : child ∈ mms) (hne : parent ≠ child) {n i : Nat} (hi : i ≤ (segs parent).length)
    (hfuel : (segs parent).length ≤ i + n) (htake : segs child = (segs parent).take i)
    (hs : Space s.kern F) (hb : Budget s.kern (if i = 0 then 1 else 0))
    (himg : start + img.length < 2^64)
    (hrange : ∀ seg ∈ segs parent, seg.vmStart + seg.vmMmsz + 7 ≤ 2^47)
    (hfile : ∀ seg ∈ segs parent, seg.InArchive start img)
    (hmap : ∀ seg ∈ segs parent, ∀ x, seg.Touches x → F x ≠ none)
    (hn : ∀ q, s.kern.pools.Within (if i = 0 then 1 else 0) q → q.pages.Nodup) :
    ∃ t, copyAreas start img child n
      (if i < (segs parent).length then some (base parent + vmaSize*i) else none) s = some t ∧
      s.kern.pools.Within (if i = 0 then 1 else 0) t.kern.pools := by
  induction n generalizing s i base segs with
  | zero =>
    rw [if_neg (by omega)]
    exact ⟨s, rfl, 0, Nat.zero_le _, 0, rfl⟩
  | succ n ih =>
    by_cases hlt : i < (segs parent).length
    · have hroom := h.room parent hp
      have hlen : (segs child).length = i := by
        rw [htake, List.length_take]
        omega
      have hnil : segs child = [] ↔ i = 0 := by rw [← List.length_eq_zero_iff, hlen]
      obtain ⟨u, hu, hwithin⟩ := h.addArea_returns hc (by omega)
        (s.vma (base parent + vmaSize*i)).seg
      simp only [hnil] at hwithin
      obtain ⟨base1, hbase, h1, hnode⟩ := h.copyStep hp hc hne hlt htake hu (hn _ hwithin)
      obtain ⟨hs1, hq1, -⟩ := hs.addArea (h.firstPage hc hlt htake) hb hu
      have hb1 : Budget u.kern 0 := hb.after hq1
      have hmem : (segs parent).get ⟨i, hlt⟩ ∈ segs parent := List.get_mem _ _
      obtain ⟨k, hk⟩ := hs1.copyWords_returns hb1.top (hfile _ hmem) (hmap _ hmem) (Nat.zero_add _)
        (hrange _ hmem)
      obtain ⟨hs2, hq2, -⟩ := hs1.copyArea hb1.top himg (hrange _ hmem) hk
      have hpools := copyWords_pools hk
      have h2 : Areas { u with kern := k } mms _ _ := h1.later
        (show u.kern.pools.Later k.pools by
          rw [hpools]
          exact Pools.Later.refl _) rfl rfl
      have hparent : Function.update segs child ((segs parent).take (i+1)) parent = segs parent :=
        Function.update_of_ne hne _ _
      have hstep (q : Pools) (hq : k.pools.Within (if i+1 = 0 then 1 else 0) q) :
          s.kern.pools.Within (if i = 0 then 1 else 0) q := by
        rw [if_neg (by omega), hpools] at hq
        exact hwithin.trans hq
      obtain ⟨t, ht, hwt⟩ := ih (i := i+1) h2 (by rw [hparent]; omega) (by rw [hparent]; omega)
        (by rw [Function.update_self, hparent]) hs2
        (by rw [if_neg (by omega)]; exact hb1.after hq2) (by rwa [hparent]) (by rwa [hparent])
        (by rwa [hparent]) (fun q hq => hn q (hstep q hq))
      refine ⟨t, ?_, hstep _ hwt⟩
      rw [hparent, hbase] at ht
      rw [if_pos hlt, copyAreas, hu, Option.bind_some, hnode]
      dsimp only
      rw [hk, Option.bind_some, ht]
    · rw [if_neg hlt]
      exact ⟨s, rfl, 0, Nat.zero_le _, 0, rfl⟩

/-- What the parent must have for fork_process to return: its stack and its areas are mapped, and
the archive holds the files. -/
structure ForkMapped (start : Nat) (img : Bytes) (s : Loader) (parent : ForkTask)
    (segs : List Segment) : Prop where
  stack : sub64 parent.stack pageSize + 4096 ≤ 2^47
  stackMapped : ∀ i < 4096, s.kern.frameOf (sub64 parent.stack pageSize + i) ≠ none
  files : ∀ seg ∈ segs, seg.InArchive start img
  mapped : ∀ seg ∈ segs, ∀ x, seg.Touches x → s.kern.frameOf x ≠ none

/-- The copy of the stack. -/
theorem ForkMapped.stack_returns {l : List Segment} (hm : ForkMapped start img s parent l)
    (hr : ForkReady s parent l) :
    ∃ k, userCopy pageSize
      (sub64 (memmap 0 pageSize usrPermBits .growsDown
        (kmalloc taskSize (kmalloc taskSize s.kern).2).2).1 pageSize)
      (sub64 parent.stack pageSize)
      (memmap 0 pageSize usrPermBits .growsDown
        (kmalloc taskSize (kmalloc taskSize s.kern).2).2).2 = some k := by
  obtain ⟨hfst, hmade⟩ := hr.stackMapped
  obtain ⟨ha, h21, hlt⟩ := hr.stack
  have htop := hmade.budget.top
  have hstack := hm.stack
  rw [hfst, sub64_of_le _ _ (by unfold pageSize; omega) (by omega), pageSize]
  refine hmade.space.userCopy_returns (by omega) (by omega) hm.stack ?_
  intro i hi
  exact ⟨place_page (by omega) (by omega) (by omega), place_ne_none (hm.stackMapped i hi)⟩

theorem Holds.last_returns {a p : Nat} {l : List Segment} (h : Holds s a p l) (hne : l ≠ []) :
    ∃ head last, (s.mm a).mmap = some head ∧
      SBUnix.lastVma s.vma ((s.mm a).count.toNat + 1) head = some last := by
  have hlast := h.lastVma (l.length+1) 0 (List.length_pos_iff.mpr hne) (by omega)
  refine ⟨p, p + vmaSize*(l.length-1), by rw [h.head, if_neg hne], ?_⟩
  rw [h.count, Int.toNat_natCast]
  exact hlast

/-- fork_process of a parent with areas returns. -/
theorem forkMemory_returns (h : Areas s mms base segs) (hp : parent.mm ∈ mms)
    (hr : ForkReady s parent (segs parent.mm)) (hm : ForkMapped start img s parent (segs parent.mm))
    (himg : start + img.length < 2^64) (hsome : segs parent.mm ≠ []) {n : Nat}
    (hfuel : (segs parent.mm).length ≤ n)
    (hn : ∀ q, s.kern.pools.Within (2^34) q → q.pages.Nodup) :
    ∃ r, forkMemory start img n parent s = some r ∧ r.2.kern.pools.pages.Nodup := by
  obtain ⟨k, hk⟩ := hm.stack_returns hr
  have hmade := hr.stackMade hk
  have hw1 := (kmalloc_within s.kern taskSize).trans
    (kmalloc_within (kmalloc taskSize s.kern).2 taskSize)
  have hw2 := memmap_within 0 usrPermBits .growsDown
    (kmalloc taskSize (kmalloc taskSize s.kern).2).2
  rw [← userCopy_pools hk] at hw2
  have hw := hw1.trans hw2
  obtain ⟨hlist, hne⟩ := h.forkList hp hw2.later (hn _ (hw.mono (by norm_num)))
  have hparent : Function.update segs (kmalloc taskSize (kmalloc taskSize s.kern).2).1 [] parent.mm =
      segs parent.mm := Function.update_of_ne hne _ _
  obtain ⟨t, ht, hwt⟩ := hlist.copy_returns (i := 0) (n := n) (List.mem_cons_of_mem _ hp)
    List.mem_cons_self hne (Nat.zero_le _) (by rw [hparent]; omega)
    (by rw [Function.update_self, List.take_zero]) hmade.space
    (hmade.budget.mono (by decide)) himg (by rw [hparent]; exact hr.range)
    (by rw [hparent]; exact hm.files)
    (by rw [hparent]; exact fun seg hseg x hx => place_ne_none (hm.mapped seg hseg x hx))
    (fun q hq => hn q ((hw.trans hq).mono (by norm_num)))
  have hwt' := hw.trans hwt
  have hnt := hn _ (hwt'.mono (by norm_num))
  obtain ⟨base', hlists⟩ := hlist.copyFrom (List.mem_cons_of_mem _ hp) List.mem_cons_self hne
    (Nat.zero_le _) (by rw [Function.update_self, List.take_zero]) ht hnt
  have hholds := hlists.holds _ List.mem_cons_self
  rw [Function.update_self, hparent] at hholds
  obtain ⟨head, last, hhead, hlast⟩ := hholds.last_returns hsome
  rw [hparent, ← (h.holds _ hp).head_node] at ht
  have hcopied := hr.areasCopied hmade rfl hlist (List.mem_cons_of_mem _ hp) List.mem_cons_self hne
    hparent (Function.update_self _ _ _) himg
    (congrArg MmStruct.mmap (Function.update_of_ne hne _ _)) ht hnt
  obtain ⟨k1, k2, k3, h1, h2, h3⟩ := heapMade_returns hcopied.space hcopied.budget hcopied.frame
    (by rw [hcopied.heapPage]; exact hr.heap.1) (by rw [hcopied.heapPage]; exact hr.heap.2)
    (roundDown (add64 (t.vma last).seg.vmEnd pageSize) pageSize)
  have hwh := memmap_within 0 usrPermBits .newPage t.kern
  have hreturn : ∃ r, forkMemory start img n parent s = some r ∧
      r.2.kern = tlbFlush parent.cr3 k3 := by
    unfold forkMemory
    dsimp only
    rw [hk, Option.bind_some, ht, Option.bind_some, hhead, Option.bind_some, hlast,
      Option.bind_some, h1, Option.bind_some, h2, Option.bind_some, h3, Option.map_some]
    exact ⟨_, rfl, rfl⟩
  obtain ⟨r, hr, hkern⟩ := hreturn
  refine ⟨r, hr, ?_⟩
  rw [hkern, tlbFlush_pools, userStores_pools h3, userStores_pools h2, userStores_pools h1]
  exact hn _ ((hwt'.trans hwh).mono (by norm_num))

/-- fork_process leaves the areas of the parent as they were just where each byte its loop stores
to holds what the file has there. -/
theorem forkMemory_keeps_iff (h : Areas s mms base segs) (hp : parent.mm ∈ mms)
    (hr : ForkReady s parent (segs parent.mm)) (himg : start + img.length < 2^64) {n : Nat}
    {r : ForkTask × Loader} (hf : forkMemory start img n parent s = some r)
    (hn : r.2.kern.pools.pages.Nodup) :
    (∀ seg ∈ segs parent.mm, ∀ x, seg.Around x → peek r.2.kern x = peek s.kern x) ↔
    ∀ x seg, lastTouch (segs parent.mm) x = some seg →
      peek s.kern x = fileByte start img seg (x - seg.vmStart) := by
  have hpeek {seg : Segment} (hseg : seg ∈ segs parent.mm) {x : Nat} (hx : seg.Around x) :
      peek r.2.kern x = forked start img (segs parent.mm) x (peek s.kern x) := by
    obtain ⟨hlt, hstack, hheap⟩ := hr.areas seg hseg x hx
    exact forkMemory_peek h hp hr himg hf hn hlt hstack hheap
  constructor
  · intro hkept x seg hlast
    obtain ⟨hmem, htouch⟩ := lastTouch_spec hlast
    have hsame := hkept seg hmem x htouch.around
    rw [hpeek hmem htouch.around] at hsame
    exact forked_eq_self_iff.mp hsame seg hlast
  · intro hfile seg hseg x hx
    rw [hpeek hseg hx]
    exact forked_eq_self_iff.mpr (hfile x)

end Returns

section List

variable {s t : Loader} {mms : List Nat} {base : Nat → Nat} {segs : Nat → List Segment}
  {start : Nat} {img : Bytes} {parent : ForkTask}

theorem addArea_mm {a b : Nat} {seg : Segment} (h : addArea a seg s = some t) (hb : b ≠ a) :
    t.mm b = s.mm b := by
  obtain ⟨r, hr, rfl⟩ := Option.map_eq_some_iff.mp h
  rw [mallocVma] at hr
  split at hr
  next =>
    cases hr
    exact Function.update_of_ne hb _ _
  next =>
    obtain ⟨last, -, rfl⟩ := Option.map_eq_some_iff.mp hr
    exact Function.update_of_ne hb _ _

/-- The first area brings the page of the list, which stays. -/
theorem addArea_head {a : Nat} {seg : Segment} (h : addArea a seg s = some t) :
    (t.mm a).mmap = some ((s.mm a).mmap.getD (kmalloc vmaSize s.kern).1) := by
  obtain ⟨r, hr, rfl⟩ := Option.map_eq_some_iff.mp h
  rw [mallocVma] at hr
  generalize kmalloc vmaSize s.kern = q at hr ⊢
  split at hr
  next hnone =>
    cases hr
    dsimp only
    rw [hnone, Option.getD_none, Function.update_self]
  next head hsome =>
    obtain ⟨last, -, rfl⟩ := Option.map_eq_some_iff.mp hr
    dsimp only
    rw [hsome, Option.getD_some, Function.update_self]

theorem copyAreas_mm {child b n : Nat} {p : Option Nat} (h : copyAreas start img child n p s = some t)
    (hb : b ≠ child) : t.mm b = s.mm b := by
  induction n generalizing p s with
  | zero =>
    cases p with
    | none => rw [Option.some.inj h]
    | some p => cases h
  | succ n ih =>
    cases p with
    | none => rw [Option.some.inj h]
    | some p =>
      obtain ⟨u, hu, h⟩ := Option.bind_eq_some_iff.mp h
      obtain ⟨k, -, h⟩ := Option.bind_eq_some_iff.mp h
      have hstep : t.mm b = u.mm b := ih (s := { u with kern := k }) h
      rw [hstep, addArea_mm hu hb]

theorem copyAreas_head {child q n : Nat} {p : Option Nat} (hq : (s.mm child).mmap = some q)
    (h : copyAreas start img child n p s = some t) : (t.mm child).mmap = some q := by
  induction n generalizing p s with
  | zero =>
    cases p with
    | none => rwa [← Option.some.inj h]
    | some p => cases h
  | succ n ih =>
    cases p with
    | none => rwa [← Option.some.inj h]
    | some p =>
      obtain ⟨u, hu, h⟩ := Option.bind_eq_some_iff.mp h
      obtain ⟨k, -, h⟩ := Option.bind_eq_some_iff.mp h
      have hhead := addArea_head hu
      rw [hq, Option.getD_some] at hhead
      exact ih (s := { u with kern := k }) hhead h

/-- A list that was empty begins in the page kmalloc gives for its first node. -/
theorem copyAreas_fresh {child p n : Nat} (hnone : (s.mm child).mmap = none)
    (h : copyAreas start img child n (some p) s = some t) :
    (t.mm child).mmap = some (kmalloc vmaSize s.kern).1 ∧
    (kmalloc vmaSize s.kern).2.pools.Later t.kern.pools := by
  cases n with
  | zero => cases h
  | succ n =>
    obtain ⟨u, hu, h⟩ := Option.bind_eq_some_iff.mp h
    obtain ⟨k, hk, h⟩ := Option.bind_eq_some_iff.mp h
    have hhead := addArea_head hu
    rw [hnone, Option.getD_none] at hhead
    refine ⟨copyAreas_head (s := { u with kern := k }) hhead h, ?_⟩
    have hlater := copyAreas_later h
    rw [copyWords_pools hk] at hlater
    rcases addArea_kern hu with ⟨-, hkern⟩ | ⟨hsome, -⟩
    · rwa [hkern] at hlater
    · exact absurd hnone hsome

/-- What fork_process does to the lists: the child has its own copy of the parent's, in a page
that was not given out before. -/
structure ListCopied (s t : Loader) (parent child : Nat) (nodes : List Nat) : Prop where
  areas : ∃ page copies, page ∉ s.kern.pools.pages ∧ page ∈ t.kern.pools.pages ∧
    (t.mm child).mmap = some page ∧ Chain t.vma (t.mm child).mmap copies ∧ copies.Nodup ∧
    (∀ x ∈ copies, page ≤ x ∧ x + vmaSize ≤ page + pageSize) ∧
    copies.map (fun x => (t.vma x).seg) = nodes.map fun x => (s.vma x).seg
  count : (t.mm child).count = nodes.length
  parentMm : t.mm parent = s.mm parent
  parentNodes : ∀ x ∈ nodes, t.vma x = s.vma x

theorem nodesAt_nodup (p n : Nat) : (nodesAt p n).Nodup := by
  refine List.Nodup.map ?_ (List.nodup_range')
  intro i j hij
  have hmul : vmaSize * i = vmaSize * j := Nat.add_left_cancel hij
  exact Nat.eq_of_mul_eq_mul_left (by decide) hmul

theorem nodesAt_inside {p n x : Nat} (hn : n ≤ 56) (hx : x ∈ nodesAt p n) :
    p ≤ x ∧ x + vmaSize ≤ p + pageSize := by
  obtain ⟨i, hi, rfl⟩ := List.mem_map.mp hx
  have hlt := (List.mem_range'_1.mp hi).2
  unfold vmaSize pageSize
  omega

/-- The loop of fork_process, over a list that is not empty. -/
theorem Areas.listCopied (h : Areas s mms base segs) {parent child n : Nat} (hp : parent ∈ mms)
    (hc : child ∈ mms) (hne : parent ≠ child) (hsome : segs parent ≠ []) (hnil : segs child = [])
    {head : Option Nat} (hhead : (s.mm parent).mmap = head)
    (ht : copyAreas start img child n head s = some t) (hn : t.kern.pools.pages.Nodup) :
    ListCopied s t parent child (nodesAt (base parent) (segs parent).length) := by
  have hnone := (h.holds child hc).head
  rw [if_pos hnil] at hnone
  have hparent := h.holds parent hp
  rw [← hhead, hparent.head, if_neg hsome] at ht
  obtain ⟨hpage, hlater⟩ := copyAreas_fresh hnone ht
  obtain ⟨hin, hnew⟩ := kmalloc_fresh s.kern vmaSize (hlater.nodup hn)
  have hmm := copyAreas_mm ht hne
  have hfrom : copyAreas start img child n
      (if 0 < (segs parent).length then some (base parent + vmaSize*0) else none) s = some t := by
    rwa [← hparent.head_node, hparent.head, if_neg hsome]
  obtain ⟨base', h'⟩ := h.copyFrom hp hc hne (i := 0) (Nat.zero_le _)
    (by rw [hnil, List.take_zero]) hfrom hn
  have hchild := h'.holds child hc
  have hkept := h'.holds parent hp
  rw [Function.update_self] at hchild
  rw [Function.update_of_ne hne] at hkept
  have hbase : base' parent = base parent := by
    have hsame := hkept.head
    rw [hmm, hparent.head, if_neg hsome, if_neg hsome] at hsame
    exact (Option.some.inj hsame).symm
  have hfirst : (kmalloc vmaSize s.kern).1 = base' child := by
    have hsame := hchild.head
    rw [hpage, if_neg hsome] at hsame
    exact Option.some.inj hsame
  rw [hfirst] at hin hnew hpage
  constructor
  case areas =>
    refine ⟨base' child, _, hnew, hlater.pages_subset hin, hpage, hchild.chain, nodesAt_nodup _ _,
      fun x hx => nodesAt_inside (h.room parent hp) hx, ?_⟩
    rw [hchild.segs_eq, hparent.segs_eq]
  case count =>
    rw [hchild.count]
    simp [nodesAt]
  case parentMm => exact hmm
  case parentNodes =>
    intro x hx
    obtain ⟨i, hi, rfl⟩ := List.mem_map.mp hx
    have hlt : i < (segs parent).length := by
      have hr := (List.mem_range'_1.mp hi).2
      omega
    rw [hparent.node i hlt, ← hbase, hkept.node i hlt]

theorem ListCopied.widen {s' t' : Loader} {parent child : Nat} {nodes : List Nat}
    (h : ListCopied s' t' parent child nodes) (hs : s.kern.pools.Later s'.kern.pools)
    (ht : t'.kern.pools.Later t.kern.pools) (hsm : s'.mm parent = s.mm parent)
    (hsv : s'.vma = s.vma) (htm : t.mm = t'.mm) (htv : t.vma = t'.vma) :
    ListCopied s t parent child nodes := by
  obtain ⟨page, copies, hnew, hin, hrest⟩ := h.areas
  rw [hsv, ← htm, ← htv] at hrest
  refine ⟨⟨page, copies, fun hp => hnew (hs.pages_subset hp), ht.pages_subset hin, hrest⟩, ?_, ?_, ?_⟩
  · rw [htm, h.count]
  · rw [htm, h.parentMm, hsm]
  · intro x hx
    rw [htv, h.parentNodes x hx, hsv]

theorem forkMemory_listCopied (h : Areas s mms base segs) (hp : parent.mm ∈ mms)
    (hsome : segs parent.mm ≠ []) {n : Nat} {r : ForkTask × Loader}
    (hf : forkMemory start img n parent s = some r) (hn : r.2.kern.pools.pages.Nodup) :
    ListCopied s r.2 parent.mm r.1.mm (nodesAt (base parent.mm) (segs parent.mm).length) := by
  obtain ⟨pcb, mm, stack, k, t, heap, brk, k1, k2, k3, rfl, rfl, rfl, hk, ht, rfl, h1, h2, h3,
    hkern, hchild, hmm, hvma⟩ := forkMemory_cases hf
  have hpools : r.2.kern.pools = (memmap 0 pageSize usrPermBits .newPage t.kern).2.pools := by
    rw [hkern, tlbFlush_pools, userStores_pools h3, userStores_pools h2, userStores_pools h1]
  have hheap := memmap_later 0 pageSize usrPermBits .newPage t.kern
  rw [← hpools] at hheap
  have hnt := hheap.nodup hn
  have hnk := (copyAreas_later ht).nodup hnt
  have hlater := memmap_later 0 pageSize usrPermBits .growsDown
    (kmalloc taskSize (kmalloc taskSize s.kern).2).2
  rw [← userCopy_pools hk] at hlater
  have hstart : s.kern.pools.Later k.pools :=
    ((kmalloc_later s.kern taskSize).trans (kmalloc_later _ taskSize)).trans hlater
  obtain ⟨hlist, hne⟩ := h.forkList hp hlater hnk
  rw [hchild]
  generalize (kmalloc taskSize (kmalloc taskSize s.kern).2).1 = child at hlist hne ht
  have hsegs : Function.update segs child [] parent.mm = segs parent.mm :=
    Function.update_of_ne hne _ _
  have hcopied := hlist.listCopied (List.mem_cons_of_mem _ hp) List.mem_cons_self hne
    (by rwa [hsegs]) (Function.update_self _ _ _)
    (congrArg MmStruct.mmap (Function.update_of_ne hne _ _)) ht hnt
  rw [hsegs] at hcopied
  exact hcopied.widen hstart hheap (Function.update_of_ne hne _ _) rfl hmm hvma

/-- fork_process gives the child the parent's list, of 1 to 56 areas, and does return where memory
is left and everything it touches is mapped. -/
theorem fork_copies_list (h : Areas s mms base segs) (hp : parent.mm ∈ mms)
    (hsome : segs parent.mm ≠ []) :
    (∀ start img n r nodes, forkMemory start img n parent s = some r →
      r.2.kern.pools.pages.Nodup → Chain s.vma (s.mm parent.mm).mmap nodes →
      ListCopied s r.2 parent.mm r.1.mm nodes) ∧
    ∀ start img n, ForkReady s parent (segs parent.mm) →
      ForkMapped start img s parent (segs parent.mm) → start + img.length < 2^64 →
      (segs parent.mm).length ≤ n → (∀ q, s.kern.pools.Within (2^34) q → q.pages.Nodup) →
      ∃ r, forkMemory start img n parent s = some r ∧ r.2.kern.pools.pages.Nodup := by
  constructor
  · intro start img n r nodes hf hn hchain
    rw [hchain.unique (h.holds _ hp).chain]
    exact forkMemory_listCopied h hp hsome hf hn
  · intro start img n hr hm himg hfuel hn
    exact forkMemory_returns h hp hr hm himg hsome hfuel hn

end List

section Scenario

theorem Space.self {k : Kernel} {F : Nat → Option Nat} (h : Space k F) : Space k k.frameOf := by
  constructor
  case wf => exact h.wf
  case cr3 => exact h.cr3
  case frames =>
    intro va hva
    rfl
  case high =>
    intro va f hva hf
    rw [h.frames va hva] at hf
    exact h.high va f hva hf
  case inj =>
    intro x y f hx hy hfx hfy
    rw [h.frames x hx] at hfx
    rw [h.frames y hy] at hfy
    exact h.inj x y f hx hy hfx hfy

/-- After boot the user half is empty. -/
theorem booted_space :
    Space (booted (fun _ => 0) 0x300000) (fun _ => none) ∧
    Budget (booted (fun _ => 0) 0x300000) 20 := by
  have hb := booted_spec (fun _ => 0) 0x300000 (by norm_num) (by norm_num)
  have hwf := zeroBoot_wellFormed
  have hroot := booted_root (fun _ => 0) (show 0x300000 % 4096 = 0 by norm_num) (by norm_num)
  have hnone (va : Nat) (hva : slotOf va 0 ≠ 511) :
      (booted (fun _ => 0) 0x300000).lookup va = none :=
    booted_lookup_none (by norm_num) (by norm_num) (by norm_num) hva
  generalize booted (fun _ => 0) 0x300000 = k at hb hwf hroot hnone
  constructor
  · constructor
    case wf => exact hwf
    case cr3 => rw [hb.cr3, hroot]
    case frames =>
      intro va hva
      have hslot : slotOf va 0 ≠ 511 := by
        simp only [slotOf, pathOf, List.getD_cons_zero, getPml4Offset_eq]
        omega
      rw [Kernel.frameOf, hnone va hslot, Option.map_none]
    case high =>
      intro va f _ hf
      cases hf
    case inj =>
      intro x y f _ _ hf
      cases hf
  · constructor
    case slots => norm_num [hb.counter, numberOfPages]
    case top => norm_num [booted_cursor hb, pool, startPaddrForUsrs]

theorem nextFrame_first : nextFrame startPaddrForUsrs = 0x5001000 := by
  unfold nextFrame
  decide

theorem nextFrame_second : nextFrame 0x5001000 = 0x5002000 := by
  unfold nextFrame
  decide

/-- After boot and the first page of a program. -/
theorem exists_firstPage :
    ∃ k, Grown (booted (fun _ => 0) 0x300000) k (fun _ => none) 0x400000 ∧
      k.vaCursor = (⟨1, 0, 0⟩ : Tally).cursor ∧ k.usrPhysAddr = 0x5001000 ∧
      (booted (fun _ => 0) 0x300000).usrPhysAddr = startPaddrForUsrs ∧
      Budget k 17 ∧ (booted (fun _ => 0) 0x300000).pools.Within 11 k.pools := by
  obtain ⟨hs, hbudget⟩ := booted_space
  have hb := booted_spec (fun _ => 0) 0x300000 (by norm_num) (by norm_num)
  have hframe := hb.usrPhysAddr
  have hva := hb.vaCursor
  generalize booted (fun _ => 0) 0x300000 = k0 at hs hbudget hframe hva
  have hfree : FreeFrame (fun _ => none) k0.usrPhysAddr := by
    rw [hframe]
    exact ⟨by decide, fun _ _ h => by cases h⟩
  have hpage : roundDown 0x400000 pageSize = 0x400000 := by decide
  have hg := hs.grown (hbudget.mono (by decide)) hfree (accessed_eq 0x400000 usrPermBits k0)
    (by norm_num) (by rw [pathOf_roundDown]) (by rw [hpage]; norm_num)
  rw [hpage] at hg
  refine ⟨_, hg, ?_, ?_, hframe, Budget.grown (n := 17) hbudget hg, memmap_within _ _ _ k0⟩
  · rw [memmap_vaCursor, hva]
    rfl
  · rw [hg.usrPhysAddr, hframe, nextFrame_first]

/-- One byte, at the start of the archive and of a page. -/
def oneArea : Segment where
  vmStart := 0x400000
  vmEnd := 0x400001
  vmMmsz := 1
  vmFlags := 7
  vmFile := 0x200000
  vmOffset := 0

/-- That page, with eight bytes of zero in it. -/
theorem exists_zeroed :
    ∃ k F, Space k F ∧ Budget k 17 ∧ k.vaCursor = (⟨1, 0, 0⟩ : Tally).cursor ∧
      k.usrPhysAddr = 0x5001000 ∧ (∀ x, F x ≠ none ↔ x / 4096 = 0x400) ∧
      (∀ x f, F x = some f → f = startPaddrForUsrs) ∧
      (booted (fun _ => 0) 0x300000).pools.Within 11 k.pools ∧
      ∀ x, 0x400000 ≤ x → x < 0x400008 → peek k x = some 0 := by
  obtain ⟨k, hg, hva, husr, hframe, hb, hw⟩ := exists_firstPage
  have htop := hb.top
  have hlen : 0x400000 + (List.replicate 8 (0 : UInt8)).length ≤ 2^47 := by norm_num
  obtain ⟨u, hu⟩ := hg.space.userStores_returns (by omega) hlen fun x hx hlt =>
    place_page (by norm_num) hx (by rw [List.length_replicate] at hlt; omega)
  obtain ⟨hs, ⟨m, hm⟩, hpeek⟩ := hg.space.userStores (by omega) hlen hu
  have hq : Quiet k u 0 := by
    rw [hm]
    exact Quiet.setMem k m
  refine ⟨u, _, hs, hb.after hq, ?_, ?_, ?_, ?_, ?_, ?_⟩
  · rw [hq.vaCursor, hva]
  · rw [hq.usrPhysAddr, husr]
  · intro x
    unfold place
    split_ifs with h
    · simpa using h
    · simpa using h
  · intro x f hf
    unfold place at hf
    split_ifs at hf
    rw [← Option.some.inj hf, hframe]
  · rw [userStores_pools hu]
    exact hw
  · intro x hlo hhi
    have hin : 0x400000 ≤ x ∧ x < 0x400000 + (List.replicate 8 (0 : UInt8)).length := by
      rw [List.length_replicate]
      omega
    rw [hpeek x (by omega), if_pos hin, List.getElem?_replicate, if_pos (by omega)]

theorem booted_nodup {N : Nat} {q : Pools} (hN : N ≤ 2^36)
    (h : (booted (fun _ => 0) 0x300000).pools.Within N q) : q.pages.Nodup := by
  obtain ⟨hcur, hpages⟩ := (booted_spec (fun _ => 0) 0x300000 (by norm_num) (by norm_num)).pools
  refine h.nodup hpages ?_
  rw [hcur, pool]
  omega

/-- The page of the area and those the fork takes for a stack and a heap. -/
theorem oneArea_apart {k : Kernel} (hva : k.vaCursor = (⟨1, 0, 0⟩ : Tally).cursor) :
    k.userAddr = startVaddrForUsrs ∧ k.heapPage = startVaddrForUsrs + 4096 := by
  have hround : 0 < userRound ∧ 1 % userRound = 1 := by decide
  constructor
  · have haddr : k.userAddr = k.vaCursor.userAddr := by rw [Kernel.vaCursor]
    rw [haddr, hva]
    show startVaddrForUsrs + 4096 * (0 % userRound) = startVaddrForUsrs
    rw [Nat.zero_mod, Nat.mul_zero, Nat.add_zero]
  · have hnext : (⟨1, 0, 0⟩ : Tally).cursor.step .growsDown = (⟨1, 1, 0⟩ : Tally).cursor :=
      Tally.cursor_next _
    rw [Kernel.heapPage, hva, hnext]
    show startVaddrForUsrs + 4096 * (1 % userRound) = startVaddrForUsrs + 4096
    rw [hround.2]

/-- A process with these areas, all in one page, which is its stack as well. -/
structure OnePage (s : Loader) (base : Nat → Nat) (segs : Nat → List Segment) (parent : ForkTask)
    (l : List Segment) : Prop where
  areas : Areas s [parent.mm] base segs
  list : segs parent.mm = l
  ready : ForkReady s parent l
  stack : parent.stack = 0x401000
  frames : ∀ x < 2^47, s.kern.frameOf x ≠ none ↔ x / 4096 = 0x400
  fresh : ∀ q, s.kern.pools.Within (2^34) q → q.pages.Nodup
  zero : ∀ x, 0x400000 ≤ x → x < 0x400008 → peek s.kern x = some 0

theorem exists_parent : ∃ s base segs parent, OnePage s base segs parent [oneArea] := by
  obtain ⟨k, F, hs, hb, hva, husr, hF, hFf, hw, hzero⟩ := exists_zeroed
  obtain ⟨hs1, hq1, hp1⟩ := hs.kmalloc (show 1 ≤ taskSize by decide)
    (show (taskSize+4095)/4096 = 2 by decide) (hb.mono (by decide))
  have hb1 : Budget (kmalloc taskSize k).2 15 := hb.after hq1
  have hw1 := hw.trans (kmalloc_within k taskSize)
  have h0 : Areas (bootLoader k) [] (fun _ => 0) (fun _ => []) := by
    refine ⟨?_, ?_, ?_, ?_, ?_, hs.wf.cursor⟩ <;> exact fun a ha => absurd ha List.not_mem_nil
  have h1 := h0.newMm taskSize (booted_nodup (by norm_num) hw1)
  have hholds := h1.holds _ List.mem_cons_self
  rw [Function.update_self] at hholds
  obtain ⟨t, ht, hk, -⟩ := addArea_first hholds oneArea
  have hkern : t.kern = (kmalloc vmaSize (kmalloc taskSize k).2).2 := hk
  have hw2 := hw1.trans (kmalloc_within (kmalloc taskSize k).2 vmaSize)
  rw [← hkern] at hw2
  obtain ⟨p, h2⟩ := h1.add List.mem_cons_self (by simp) ht (booted_nodup (by norm_num) hw2)
  obtain ⟨hs2, hq2, hp2⟩ := hs1.kmalloc (show 1 ≤ vmaSize by decide)
    (show (vmaSize+4095)/4096 = 1 by decide) (hb1.mono (by decide))
  have hb2 : Budget (kmalloc vmaSize (kmalloc taskSize k).2).2 14 := hb1.after hq2
  rw [← hkern] at hs2 hq2 hp2 hb2
  have hq := hq1.trans hq2
  obtain ⟨haddr, hheap⟩ := oneArea_apart (hq.vaCursor.trans hva)
  have hframe : t.kern.usrPhysAddr = 0x5001000 := hq.usrPhysAddr.trans husr
  have hfree (f : Nat) (hf : 0x5001000 ≤ f ∧ f < endPaddrForUsrs) : FreeFrame t.kern.frameOf f := by
    constructor
    case range => exact ⟨le_trans (by decide) hf.1, hf.2⟩
    case unused =>
      intro x hx hx'
      rw [hs2.frames x hx] at hx'
      have hstart := hFf x f hx'
      unfold startPaddrForUsrs at hstart
      omega
  refine ⟨t, _, _, ⟨(kmalloc taskSize k).1, 0x401000, t.kern.cr3, 0⟩, h2, ?_, ?_, rfl, ?_, ?_, ?_⟩
  · exact (Function.update_self _ _ _).trans (by rw [Function.update_self, List.nil_append])
  · constructor
    case space => exact hs2.self
    case budget => exact hb2.mono (by decide)
    case stackFrame => exact hfree _ (by rw [hframe]; decide)
    case heapFrame => exact hfree _ (by rw [hframe, nextFrame_second]; decide)
    case cr3 => rfl
    case stack =>
      rw [haddr]
      decide
    case heap =>
      rw [hheap]
      decide
    case areas =>
      intro seg hseg x hx
      rw [List.mem_singleton.mp hseg] at hx
      obtain ⟨hlo, hhi⟩ := hx
      simp only [oneArea] at hlo hhi
      rw [haddr, hheap, startVaddrForUsrs]
      omega
  · intro x hx
    rw [hs2.frames x hx]
    exact hF x
  · intro q hq
    exact booted_nodup (by norm_num) (hw2.trans hq)
  · intro x hlo hhi
    rw [hp2 x (by omega), hp1 x (by omega)]
    exact hzero x hlo hhi

/-- One more byte of that page, from the same place of the archive. -/
def nextArea : Segment where
  vmStart := 0x400010
  vmEnd := 0x400011
  vmMmsz := 1
  vmFlags := 7
  vmFile := 0x200000
  vmOffset := 0

/-- A second area takes no memory: its node is in the page of the first. -/
theorem OnePage.next {s : Loader} {base : Nat → Nat} {segs : Nat → List Segment}
    {parent : ForkTask} (h : OnePage s base segs parent [oneArea]) :
    ∃ t base segs, OnePage t base segs parent [oneArea, nextArea] := by
  have hmem : parent.mm ∈ [parent.mm] := List.mem_cons_self
  have hne : segs parent.mm ≠ [] := by simp [h.list]
  have hlen : (segs parent.mm).length < 56 := by simp [h.list]
  obtain ⟨-, hal, hlt⟩ := h.areas.page _ hmem hne
  have hend : base parent.mm + pageSize ≤ 2^64 := by
    unfold pageSize at *
    omega
  obtain ⟨t, ht, hk, -⟩ := addArea_next (h.areas.holds _ hmem) hne hlen hend nextArea
  have hn : t.kern.pools.pages.Nodup := by
    rw [hk]
    exact h.fresh _ ⟨0, by omega, 0, rfl⟩
  obtain ⟨p, hA⟩ := h.areas.add hmem hlen ht hn
  have hr := h.ready
  obtain ⟨hpage, hstack, hheap⟩ := hr.areas oneArea List.mem_cons_self 0x400000 (by
    simp [Segment.Around, oneArea])
  obtain ⟨kern, vma, heap, mm⟩ := t
  obtain rfl : kern = s.kern := hk
  refine ⟨_, _, _, hA, ?_, { hr with areas := ?_ }, h.stack, h.frames, h.fresh, h.zero⟩
  · rw [Function.update_self, h.list]
    rfl
  · intro seg hseg x hx
    rcases List.mem_pair.mp hseg with rfl | rfl
    · exact hr.areas _ List.mem_cons_self x hx
    · obtain ⟨hlo, hhi⟩ := hx
      simp only [nextArea] at hlo hhi
      have hsame : x / 4096 = 0x400000 / 4096 := by omega
      rw [hsame]
      exact ⟨by omega, hstack, hheap⟩

theorem oneArea_file (b : UInt8) {j : Nat} (hj : j < 8) :
    fileByte 0x200000 (List.replicate 8 b) oneArea j = some b := by
  have hadd : add64 (add64 oneArea.vmFile oneArea.vmOffset) j = 0x200000 + j := by
    simp only [oneArea]
    unfold add64
    omega
  rw [fileByte, hadd, archiveAt, if_neg (by omega), Nat.add_sub_cancel_left, List.drop_replicate,
    Option.bind_some, List.head?_replicate, if_neg (by omega)]

theorem oneArea_touches {x : Nat} : oneArea.Touches x ↔ 0x400000 ≤ x ∧ x < 0x400008 := by
  simp [Segment.Touches, oneArea]

theorem oneArea_last {x : Nat} {seg : Segment} (h : lastTouch [oneArea] x = some seg) :
    seg = oneArea ∧ 0x400000 ≤ x ∧ x < 0x400008 := by
  obtain ⟨hmem, htouch⟩ := lastTouch_spec h
  have hseg := List.mem_singleton.mp hmem
  rw [hseg] at htouch
  exact ⟨hseg, oneArea_touches.mp htouch⟩

/-- Its fork returns, when the file has eight times `b`. -/
theorem OnePage.fork {s : Loader} {base : Nat → Nat} {segs : Nat → List Segment}
    {parent : ForkTask} {l : List Segment} (h : OnePage s base segs parent l)
    (hl : ∀ seg ∈ l, seg = oneArea ∨ seg = nextArea) (hne : l ≠ []) (b : UInt8) :
    ∃ r, forkMemory 0x200000 (List.replicate 8 b) l.length parent s = some r ∧
      r.2.kern.pools.pages.Nodup := by
  have hmapped : ForkMapped 0x200000 (List.replicate 8 b) s parent l := by
    have hbelow : sub64 parent.stack pageSize = 0x400000 := by
      rw [h.stack]
      decide
    constructor
    case stack =>
      rw [hbelow]
      norm_num
    case stackMapped =>
      intro i hi
      rw [hbelow, h.frames _ (by omega)]
      omega
    case files =>
      intro seg hseg j hj
      rcases hl seg hseg with rfl | rfl
      all_goals
        obtain rfl : j = 0 := Nat.lt_one_iff.mp hj
        exact ⟨List.replicate 8 b, rfl, by rw [List.length_replicate]⟩
    case mapped =>
      intro seg hseg x hx
      have hin : 0x400000 ≤ x ∧ x < 0x401000 := by
        rcases hl seg hseg with rfl | rfl
        all_goals
          simp only [Segment.Touches, oneArea, nextArea] at hx
          omega
      rw [h.frames x (by omega)]
      omega
  have hlist := h.list
  have hready := h.ready
  rw [← hlist] at hready hmapped hne ⊢
  exact forkMemory_returns h.areas List.mem_cons_self hready hmapped
    (by rw [List.length_replicate]; norm_num) hne le_rfl h.fresh

/-- A fork of the process with one area. -/
theorem exists_fork (b : UInt8) :
    ∃ s base segs parent r, Areas s [parent.mm] base segs ∧ segs parent.mm = [oneArea] ∧
      ForkReady s parent (segs parent.mm) ∧
      forkMemory 0x200000 (List.replicate 8 b) 1 parent s = some r ∧
      r.2.kern.pools.pages.Nodup ∧
      ∀ x, 0x400000 ≤ x → x < 0x400008 → peek s.kern x = some 0 := by
  obtain ⟨s, base, segs, parent, h⟩ := exists_parent
  obtain ⟨r, hf, hnodup⟩ := h.fork (fun seg hseg => Or.inl (List.mem_singleton.mp hseg)) (by simp) b
  exact ⟨s, base, segs, parent, r, h.areas, h.list, h.list ▸ h.ready, hf, hnodup, h.zero⟩

theorem fork_copies_list_two :
    ∃ s parent r nodes, forkMemory 0x200000 (List.replicate 8 0) 2 parent s = some r ∧
      nodes.length = 2 ∧ ListCopied s r.2 parent.mm r.1.mm nodes := by
  obtain ⟨s₀, base₀, segs₀, parent, hone⟩ := exists_parent
  obtain ⟨s, base, segs, h⟩ := hone.next
  obtain ⟨r, hf, hn⟩ := h.fork (fun seg hseg => List.mem_pair.mp hseg) (by simp) 0
  have hchain := (h.areas.holds _ List.mem_cons_self).chain
  refine ⟨s, parent, r, _, hf, ?_, (fork_copies_list h.areas List.mem_cons_self
    (by rw [h.list]; simp)).1 _ _ _ r _ hf hn hchain⟩
  rw [h.list]
  rfl

/-- A file that agrees with memory. -/
theorem forkMemory_keeps_equal :
    ∃ s base segs parent r, Areas s [parent.mm] base segs ∧ segs parent.mm = [oneArea] ∧
      forkMemory 0x200000 (List.replicate 8 0) 1 parent s = some r ∧
      ∀ seg ∈ segs parent.mm, ∀ x, seg.Around x → peek r.2.kern x = peek s.kern x := by
  obtain ⟨s, base, segs, parent, r, hA, hsegs, hr, hf, hn, hzero⟩ := exists_fork 0
  refine ⟨s, base, segs, parent, r, hA, hsegs, hf, ?_⟩
  rw [forkMemory_keeps_iff hA List.mem_cons_self hr (by rw [List.length_replicate]; norm_num) hf hn]
  intro x seg hlast
  rw [hsegs] at hlast
  obtain ⟨rfl, hlo, hhi⟩ := oneArea_last hlast
  rw [hzero x hlo hhi, oneArea_file 0 (by simp only [oneArea]; omega)]

/-- The parent has changed its byte since it was loaded; the fork puts the file's back. -/
theorem forkMemory_reverts :
    ∃ s base segs parent r, Areas s [parent.mm] base segs ∧ segs parent.mm = [oneArea] ∧
      ForkReady s parent (segs parent.mm) ∧
      forkMemory 0x200000 (List.replicate 8 1) 1 parent s = some r ∧
      peek s.kern oneArea.vmStart = some 0 ∧ peek r.2.kern oneArea.vmStart = some 1 := by
  obtain ⟨s, base, segs, parent, r, hA, hsegs, hr, hf, hn, hzero⟩ := exists_fork 1
  have htouch : oneArea.Touches oneArea.vmStart := oneArea_touches.mpr (by decide)
  obtain ⟨hlt, hstack, hheap⟩ := hr.areas oneArea (by rw [hsegs]; simp) _ htouch.around
  refine ⟨s, base, segs, parent, r, hA, hsegs, hr, hf, hzero _ (by decide) (by decide), ?_⟩
  have hlast : lastTouch [oneArea] oneArea.vmStart = some oneArea := by decide
  rw [forkMemory_peek hA List.mem_cons_self hr (by rw [List.length_replicate]; norm_num) hf hn hlt
    hstack hheap, hsegs, forked, hlast, Option.elim_some, Nat.sub_self, oneArea_file 1 (by omega)]

end Scenario

end SBUnix
