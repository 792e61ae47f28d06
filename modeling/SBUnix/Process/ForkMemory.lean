import SBUnix.Process.Heap
import SBUnix.Process.UserMemory
import SBUnix.Process.VmAreas

namespace SBUnix

open ByteMemory CString Word

/-- sizeof(struct task_struct) -/
def taskSize : Nat := 4400

/-- Offset of `vm_mmsz` in a `struct vm_area_struct`. -/
def vmMmsz : Nat := 24

/-- The fields of `struct task_struct` by which fork_process knows an address space. -/
structure ForkTask where
  mm : Nat
  stack : Nat
  cr3 : Nat
  heapVma : Nat

/-- The bytes of a uint64_t. -/
def wordBytes (v : Nat) : Bytes := (List.range 8).map fun i => UInt8.ofNat (v / 256^i)

/-- fork_process without what it does to the process table: the child's structures, its stack,
its list of areas and its heap. A list has at most `n` nodes. -/
def forkMemory (start : Nat) (img : Bytes) (n : Nat) (parent : ForkTask) (s : Loader) :
    Option (ForkTask × Loader) :=
  let pcb := kmalloc taskSize s.kern
  let mm := kmalloc taskSize pcb.2
  let stack := memmap 0 pageSize usrPermBits .growsDown mm.2
  (userCopy pageSize (sub64 stack.1 pageSize) (sub64 parent.stack pageSize) stack.2).bind fun k =>
  (copyAreas start img mm.1 n (s.mm parent.mm).mmap { s with
    kern := k, mm := Function.update s.mm mm.1 ⟨none, 0⟩ }).bind fun s =>
  let heap := memmap 0 pageSize usrPermBits .newPage s.kern
  (s.mm mm.1).mmap.bind fun head =>
  (lastVma s.vma ((s.mm mm.1).count.toNat + 1) head).bind fun last =>
  let brk := roundDown (add64 (s.vma last).seg.vmEnd pageSize) pageSize
  -- the new descriptor is in user memory, and in the record of such descriptors
  (userStores (wordBytes brk) (add64 heap.1 vmEnd) heap.2).bind fun k =>
  (userStores (wordBytes brk) (add64 heap.1 vmStart) k).bind fun k =>
  (userStores (wordBytes pageSize) (add64 heap.1 vmMmsz) k).map fun k =>
    (⟨mm.1, stack.1, sub64 stack.2.pml4Shared virtBase, heap.1⟩, { s with
      kern := tlbFlush parent.cr3 k
      heap := Function.update s.heap heap.1 { s.heap heap.1 with
        vmStart := brk, vmEnd := brk, vmMmsz := pageSize } })

/-- At most `n` pages have been taken; frames and virtual addresses are given out from where they
were. -/
structure Quiet (s t : Kernel) (n : Nat) : Prop where
  cr3 : t.cr3 = s.cr3
  usrPhysAddr : t.usrPhysAddr = s.usrPhysAddr
  vaCursor : t.vaCursor = s.vaCursor
  counter : t.counter ≤ s.counter + n
  cursor : t.cursor ≤ s.cursor + 4096*n

section Quiet

variable {s t u : Kernel} {n m : Nat}

theorem Quiet.trans (h : Quiet s t n) (g : Quiet t u m) : Quiet s u (n+m) := by
  have h1 := h.counter
  have h2 := h.cursor
  have h3 := g.counter
  have h4 := g.cursor
  exact ⟨g.cr3.trans h.cr3, g.usrPhysAddr.trans h.usrPhysAddr, g.vaCursor.trans h.vaCursor, by omega, by omega⟩

theorem Quiet.refl (s : Kernel) (n : Nat) : Quiet s s n :=
  ⟨rfl, rfl, rfl, Nat.le_add_right _ _, Nat.le_add_right _ _⟩

theorem Quiet.setMem (s : Kernel) (m : Mem) : Quiet s { s with mem := m } 0 :=
  ⟨rfl, rfl, rfl, le_refl s.counter, le_refl s.cursor⟩

theorem Taken.quiet (h : Taken n s t) : Quiet s t n where
  cr3 := congrArg (·.cr3) h.others
  usrPhysAddr := h.usrPhysAddr
  vaCursor := by
    show t.others.vaCursor = s.others.vaCursor
    rw [h.others]
  counter := h.counter.le
  cursor := h.cursor.le

theorem Budget.after (h : Budget s (n+m)) (hq : Quiet s t n) : Budget t m := by
  have h1 := h.slots
  have h2 := h.top
  have h3 := hq.counter
  have h4 := hq.cursor
  exact ⟨by omega, by omega⟩

end Quiet

section Steps

variable {k t : Kernel} {F : Nat → Option Nat}

theorem Space.kmalloc (h : Space k F) {sz n : Nat} (hsz : 1 ≤ sz) (hn : (sz+4095)/4096 = n)
    (hb : Budget k n) :
    Space (kmalloc sz k).2 F ∧ Quiet k (kmalloc sz k).2 n ∧
    ∀ x < 2^47, peek (kmalloc sz k).2 x = peek k x := by
  have htop := hb.top
  unfold startPaddrForUsrs at htop
  obtain ⟨t, he, ht⟩ := kmalloc_taken sz k hsz (by omega) (by omega)
  rw [hn] at ht
  obtain ⟨hs, hpeek⟩ := h.taken ht hb
  rw [he]
  exact ⟨hs, ht.quiet, hpeek⟩

/-- The byte of the file that stands `j` bytes behind the start of an area. -/
def fileByte (start : Nat) (img : Bytes) (seg : Segment) (j : Nat) : Option UInt8 :=
  (archiveAt start img (add64 (add64 seg.vmFile seg.vmOffset) j)).bind List.head?

/-- The bytes the loop of fork_process stores to for an area. -/
def Segment.Touches (seg : Segment) (x : Nat) : Prop :=
  0 < seg.vmMmsz ∧ seg.vmStart ≤ x ∧ x < seg.vmStart + seg.vmMmsz + 7

instance (seg : Segment) (x : Nat) : Decidable (seg.Touches x) :=
  inferInstanceAs (Decidable (_ ∧ _ ∧ _))

/-- A word of the archive, byte by byte. -/
theorem fileByte_word {start : Nat} {img : Bytes} (himg : start + img.length < 2^64)
    {seg : Segment} {j : Nat} {src : Bytes}
    (hsrc : archiveAt start img (add64 (add64 seg.vmFile seg.vmOffset) j) = some src)
    (hlen : 8 ≤ src.length) {i : Nat} (hi : i < 8) :
    (src.take 8)[i]? = fileByte start img seg (j+i) := by
  rw [fileByte]
  generalize add64 seg.vmFile seg.vmOffset = a at hsrc ⊢
  unfold archiveAt at hsrc
  split_ifs at hsrc with hlt
  have he : img.drop (add64 a j - start) = src := Option.some.inj hsrc
  have hl : img.length - (add64 a j - start) = src.length := by rw [← he, List.length_drop]
  have hadd : add64 a (j+i) = add64 a j + i := by
    have hj : add64 a j + i < 2^64 := by omega
    unfold add64 at hj ⊢
    omega
  rw [hadd, archiveAt, if_neg (by omega), Option.bind_some, List.head?_drop,
    List.getElem?_take_of_lt hi, ← he, List.getElem?_drop]
  congr 1
  omega

theorem Space.copyWords (h : Space k F) (hb : k.cursor ≤ startPaddrForUsrs) {start : Nat}
    {img : Bytes} (himg : start + img.length < 2^64) {seg : Segment} {n j : Nat}
    (hrange : seg.vmStart + j + n + 7 ≤ 2^47) (ht : copyWords start img seg n j k = some t) :
    Space t F ∧ Quiet k t 0 ∧
    ∀ x < 2^47, peek t x =
      if 0 < n ∧ seg.vmStart + j ≤ x ∧ x < seg.vmStart + j + n + 7 then
        fileByte start img seg (x - seg.vmStart) else peek k x := by
  induction n generalizing j k with
  | zero =>
    have he : k = t := Option.some.inj ht
    subst he
    refine ⟨h, Quiet.setMem k k.mem, ?_⟩
    intro x hx
    rw [if_neg (by omega)]
  | succ n ih =>
    obtain ⟨src, hsrc, ht⟩ := Option.bind_eq_some_iff.mp ht
    split_ifs at ht with hlen
    obtain ⟨u, hu, ht⟩ := Option.bind_eq_some_iff.mp ht
    have hstart : add64 seg.vmStart j = seg.vmStart + j := add64_of_lt _ _ (by omega)
    have htake : (src.take 8).length = 8 := by
      rw [List.length_take]
      omega
    rw [hstart] at hu
    obtain ⟨h1, ⟨m, rfl⟩, hpeek⟩ := h.userStores hb (by rw [htake]; omega) hu
    obtain ⟨h2, hq, hrest⟩ := ih h1 hb (by omega) ht
    refine ⟨h2, (Quiet.setMem k m).trans hq, ?_⟩
    intro x hx
    rw [hrest x hx, hpeek x hx, htake]
    by_cases hword : seg.vmStart + j ≤ x ∧ x < seg.vmStart + j + 8
    · -- a later word stores the same byte once more
      have hbyte := fileByte_word himg hsrc (by omega) (i := x - (seg.vmStart + j)) (by omega)
      have hoff : j + (x - (seg.vmStart + j)) = x - seg.vmStart := by omega
      rw [if_pos hword, hbyte, hoff, ite_self, if_pos (by omega)]
    · rw [if_neg hword]
      by_cases hin : 0 < n ∧ seg.vmStart + (j+1) ≤ x ∧ x < seg.vmStart + (j+1) + n + 7
      · rw [if_pos hin, if_pos (by omega)]
      · rw [if_neg hin, if_neg (by omega)]

theorem Space.copyArea (h : Space k F) (hb : k.cursor ≤ startPaddrForUsrs) {start : Nat}
    {img : Bytes} (himg : start + img.length < 2^64) {seg : Segment}
    (hrange : seg.vmStart + seg.vmMmsz + 7 ≤ 2^47)
    (ht : SBUnix.copyWords start img seg seg.vmMmsz 0 k = some t) :
    Space t F ∧ Quiet k t 0 ∧
    ∀ x < 2^47, peek t x =
      if seg.Touches x then fileByte start img seg (x - seg.vmStart) else peek k x := by
  obtain ⟨hs, hq, hpeek⟩ := h.copyWords hb himg (by omega) ht
  refine ⟨hs, hq, ?_⟩
  intro x hx
  rw [hpeek x hx, Nat.add_zero]
  by_cases htouch : seg.Touches x
  · rw [if_pos htouch]
    exact if_pos htouch
  · rw [if_neg htouch]
    exact if_neg htouch

end Steps

/-- What a call of memmap for one page does to the memory of a process. -/
structure Grown (k t : Kernel) (F : Nat → Option Nat) (virt : Nat) : Prop where
  space : Space t (place F virt k.usrPhysAddr)
  cr3 : t.cr3 = k.cr3
  usrPhysAddr : t.usrPhysAddr = nextFrame k.usrPhysAddr
  counter : t.counter ≤ k.counter + 3
  cursor : t.cursor ≤ k.cursor + 4096*3
  kept : ∀ x < 2^47, x / 4096 ≠ virt / 4096 → peek t x = peek k x

section Grown

variable {k t : Kernel} {F : Nat → Option Nat}

theorem Budget.grown {n virt : Nat} (h : Budget k (3+n)) (hg : Grown k t F virt) : Budget t n := by
  have h1 := h.slots
  have h2 := h.top
  have h3 := hg.counter
  have h4 := hg.cursor
  exact ⟨by omega, by omega⟩

/-- A frame of the user's that serves no page. -/
structure FreeFrame (F : Nat → Option Nat) (f : Nat) : Prop where
  range : startPaddrForUsrs ≤ f ∧ f < endPaddrForUsrs
  unused : ∀ x < 2^47, F x ≠ some f

theorem FreeFrame.place {f g virt : Nat} (h : FreeFrame F g) (hne : g ≠ f) :
    FreeFrame (place F virt f) g where
  range := h.range
  unused x hx he := by
    unfold SBUnix.place at he
    split_ifs at he
    · exact hne (Option.some.inj he).symm
    · exact h.unused x hx he

theorem nextFrame_ne {f : Nat} (h : startPaddrForUsrs ≤ f ∧ f < endPaddrForUsrs) :
    nextFrame f ≠ f := by
  have hstart : startPaddrForUsrs + 4096 < endPaddrForUsrs := by decide
  have hend : endPaddrForUsrs < 2^63 := by decide
  have hadd := add64_pageSize f (by omega)
  intro he
  unfold nextFrame at he
  split at he
  · omega
  · omega

theorem Space.grown (h : Space k F) (hb : Budget k 3) (hfree : FreeFrame F k.usrPhysAddr)
    {addr : Nat} {flag : MapFlag} {page : Nat → Nat} {la a p : Nat}
    (he : mapPagesFor addr 1 usrPermBits flag k = mapUser page la usrPermBits 1 (k.setCursor a p))
    (hla : la < 2^47) (hpath : (pathOf (page la)).take 3 = (pathOf la).take 3)
    (hvirt : page la < 2^47) :
    Grown k (memmap addr pageSize usrPermBits flag k).2 F (page la) := by
  obtain ⟨n, tables, hm⟩ := memmap_installed h.wf hb.pagesLeft he hla hpath rfl (by decide)
  have hcr3 := memmap_cr3 addr pageSize usrPermBits flag k
  obtain ⟨hs, hkept⟩ := h.installed hb hm hcr3 hvirt hfree.range.1 hfree.unused
  have hle := hm.le
  have hcounter := hm.counter
  have hcursor := hm.cursor
  exact ⟨hs, by rw [hcr3, hm.root_eq, h.cr3], hm.usrPhysAddr, by omega, by omega, hkept⟩

/-- Away from the first page a table maps, the page below has the same tables. -/
theorem pathOf_below {a : Nat} (h : a % 4096 = 0) (h21 : a % 2^21 ≠ 0) :
    (pathOf (a - 4096)).take 3 = (pathOf a).take 3 := by
  exact pathOf_take_three (by omega)

theorem Space.growsDown (h : Space k F) (hb : Budget k 3) (hfree : FreeFrame F k.usrPhysAddr)
    (ha : k.userAddr % 4096 = 0) (h21 : k.userAddr % 2^21 ≠ 0) (hlt : k.userAddr < 2^47) :
    Grown k (memmap 0 pageSize usrPermBits .growsDown k).2 F (k.userAddr - 4096) := by
  obtain ⟨a, he⟩ := growsDown_eq 0 usrPermBits k
  have hsub : sub64 k.userAddr pageSize = k.userAddr - 4096 :=
    sub64_of_le _ _ (by unfold pageSize; omega) (by omega)
  have hg := h.grown hb hfree he hlt (by rw [hsub, pathOf_below ha h21]) (by rw [hsub]; omega)
  rwa [hsub] at hg

theorem Space.newPage (h : Space k F) (hb : Budget k 3) (hfree : FreeFrame F k.usrPhysAddr)
    (hlt : k.vaCursor.newPage < 2^47) :
    Grown k (memmap 0 pageSize usrPermBits .newPage k).2 F k.vaCursor.newPage := by
  obtain ⟨a, p, he⟩ := newPage_eq 0 usrPermBits k
  have hg := h.grown hb hfree he hlt rfl hlt
  exact hg

end Grown

/-- Of the areas whose loop stores to `x`, the last. -/
def lastTouch (segs : List Segment) (x : Nat) : Option Segment :=
  segs.reverse.find? fun seg => seg.Touches x

/-- What the loop leaves at `x`, where `b` was. -/
def forked (start : Nat) (img : Bytes) (segs : List Segment) (x : Nat) (b : Option UInt8) :
    Option UInt8 :=
  (lastTouch segs x).elim b fun seg => fileByte start img seg (x - seg.vmStart)

theorem forked_nil (start : Nat) (img : Bytes) (x : Nat) (b : Option UInt8) :
    forked start img [] x b = b := rfl

theorem forked_cons (start : Nat) (img : Bytes) (seg : Segment) (segs : List Segment) (x : Nat)
    (b : Option UInt8) : forked start img (seg::segs) x b = forked start img segs x
      (if seg.Touches x then fileByte start img seg (x - seg.vmStart) else b) := by
  rw [forked, forked, lastTouch, lastTouch, List.reverse_cons, List.find?_append]
  cases segs.reverse.find? fun seg => decide (seg.Touches x) with
  | some s => rfl
  | none =>
    by_cases h : seg.Touches x
    · simp [h]
    · simp [h]

theorem addArea_kern {a : Nat} {seg : Segment} {s t : Loader} (h : addArea a seg s = some t) :
    (s.mm a).mmap = none ∧ t.kern = (kmalloc vmaSize s.kern).2 ∨
    (s.mm a).mmap ≠ none ∧ t.kern = s.kern := by
  obtain ⟨r, hr, rfl⟩ := Option.map_eq_some_iff.mp h
  rw [mallocVma] at hr
  split at hr
  next hnone =>
    cases hr
    exact Or.inl ⟨hnone, rfl⟩
  next head hsome =>
    obtain ⟨last, -, rfl⟩ := Option.map_eq_some_iff.mp hr
    exact Or.inr ⟨by rw [hsome]; simp, rfl⟩

section Loop

variable {s t : Loader} {mms : List Nat} {base : Nat → Nat} {segs : Nat → List Segment}
  {F : Nat → Option Nat} {start : Nat} {img : Bytes}

/-- A node for the child: the first one takes a page. -/
theorem Space.addArea (h : Space s.kern F) {a n : Nat} {seg : Segment}
    (hn : (s.mm a).mmap = none → n = 1) (hb : Budget s.kern n) (ht : addArea a seg s = some t) :
    Space t.kern F ∧ Quiet s.kern t.kern n ∧ ∀ x < 2^47, peek t.kern x = peek s.kern x := by
  rcases addArea_kern ht with ⟨hnone, hk⟩ | ⟨-, hk⟩
  · have h1 := hn hnone
    subst h1
    rw [hk]
    exact h.kmalloc (by decide) (by decide) hb
  · rw [hk]
    exact ⟨h, Quiet.refl s.kern n, fun _ _ => rfl⟩

/-- Only the first node the child is given takes a page. -/
theorem Areas.firstPage (h : Areas s mms base segs) {parent child i : Nat} (hc : child ∈ mms)
    (hlt : i < (segs parent).length) (htake : segs child = (segs parent).take i)
    (hnone : (s.mm child).mmap = none) : (if i = 0 then 1 else 0) = 1 := by
  have hnil := (h.holds child hc).eq_nil hnone
  rw [htake, List.take_eq_nil_iff] at hnil
  apply if_pos
  rcases hnil with hnil | hnil
  · exact hnil
  · rw [hnil] at hlt
    simp at hlt

/-- The loop of fork_process from node `i` of the parent on: every byte it stores is the file's. -/
theorem Areas.copyPeek (h : Areas s mms base segs) {parent child : Nat} (hp : parent ∈ mms)
    (hc : child ∈ mms) (hne : parent ≠ child) {n i : Nat} (hi : i ≤ (segs parent).length)
    (htake : segs child = (segs parent).take i)
    (hs : Space s.kern F) (hb : Budget s.kern (if i = 0 then 1 else 0))
    (himg : start + img.length < 2^64)
    (hrange : ∀ seg ∈ segs parent, seg.vmStart + seg.vmMmsz + 7 ≤ 2^47)
    (ht : copyAreas start img child n
      (if i < (segs parent).length then some (base parent + vmaSize*i) else none) s = some t)
    (hn : t.kern.pools.pages.Nodup) :
    Space t.kern F ∧ Quiet s.kern t.kern (if i = 0 then 1 else 0) ∧
    ∀ x < 2^47, peek t.kern x = forked start img ((segs parent).drop i) x (peek s.kern x) := by
  induction n generalizing s i base segs with
  | zero =>
    split_ifs at ht with hlt
    · cases ht
    · have he : s = t := Option.some.inj ht
      subst he
      refine ⟨hs, Quiet.refl s.kern _, ?_⟩
      intro x hx
      rw [List.drop_eq_nil_of_le (by omega), forked_nil]
  | succ n ih =>
    split_ifs at ht with hlt
    · obtain ⟨u, k, base1, hu, hk, h2, ht⟩ := h.copyRound hp hc hne hlt htake ht hn
      obtain ⟨hs1, hq1, hpeek1⟩ := hs.addArea (h.firstPage hc hlt htake) hb hu
      have htop := (hb.after (n := if i = 0 then 1 else 0) (m := 0) hq1).top
      have hmem : (segs parent).get ⟨i, hlt⟩ ∈ segs parent := List.get_mem _ _
      obtain ⟨hs2, hq2, hpeek2⟩ := hs1.copyArea (by omega) himg (hrange _ hmem) hk
      have hparent : Function.update segs child ((segs parent).take (i+1)) parent = segs parent :=
        Function.update_of_ne hne _ _
      have hb2 : Budget k (if i+1 = 0 then 1 else 0) := by
        rw [if_neg (by omega)]
        exact hb.after (hq1.trans hq2)
      obtain ⟨hs3, hq3, hpeek3⟩ := ih (i := i+1) h2 (by rwa [hparent])
        (by rw [Function.update_self, hparent]) hs2 hb2 (by rwa [hparent]) (by rwa [hparent])
      rw [if_neg (by omega)] at hq3
      refine ⟨hs3, (hq1.trans hq2).trans hq3, ?_⟩
      intro x hx
      rw [hpeek3 x hx, hparent, List.drop_eq_getElem_cons hlt, forked_cons, hpeek2 x hx,
        hpeek1 x hx]
      rfl
    · have he : s = t := Option.some.inj ht
      subst he
      refine ⟨hs, Quiet.refl s.kern _, ?_⟩
      intro x hx
      rw [List.drop_eq_nil_of_le (by omega), forked_nil]

end Loop

end SBUnix
