import SBUnix.Framework.BumpAllocator
import SBUnix.Paging.Kernel

namespace SBUnix

open ByteMemory Word

/-- Offsets in `struct vm_area_struct`. -/
def vmStart : Nat := 8
def vmEnd : Nat := 16

/-- malloc of the process whose heap_vma points at `h`. The store at the old break comes
before the test, and the test reads both fields again. -/
def malloc (h size : Nat) (m : Mem) : Nat × Mem :=
  let old := load64 m (h+vmEnd)
  let m := store64 m (h+vmEnd) (add64 old size)
  let m := store64 m old 0
  (if pageSize < sub64 (load64 m (h+vmEnd)) (load64 m (h+vmStart)) then 0 else old, m)

/-- A call: what it returned, what it was asked for, where it stored its eight bytes. -/
structure MallocCall where
  ptr : Nat
  size : Nat
  stored : Nat
  deriving DecidableEq, Repr

def mallocs (h : Nat) : List Nat → Mem → List MallocCall × Mem
  | [], m => ([], m)
  | n::ns, m =>
    let r := malloc h n m
    let t := mallocs h ns r.2
    (⟨r.1, n, load64 m (h+vmEnd)⟩ :: t.1, t.2)

/-- The heap page starts at `start` and its break is at `brk`; the page is one of the address
space, and heap_vma's own fields lie outside it. -/
structure HeapAt (h start brk : Nat) (m : Mem) : Prop where
  startField : load64 m (h+vmStart) = start
  endField : load64 m (h+vmEnd) = brk
  pos : 0 < start
  fits : start + 4096 < 2^64
  apart : h+24 ≤ start ∨ start + 4096 ≤ h+8

def MallocCall.block (c : MallocCall) : Nat × Nat := (c.ptr, c.size)

/-- Blocks inside the page, no two of them meeting, and no byte stored outside the block
that is returned. -/
structure HeapSound (start : Nat) (cs : List MallocCall) : Prop where
  inside : ∀ c ∈ cs, c.ptr ≠ 0 → start ≤ c.ptr ∧ c.ptr + c.size ≤ start + 4096
  disjoint : ((cs.filter (·.ptr ≠ 0)).map MallocCall.block).Pairwise BumpAllocator.Disjoint
  stores : ∀ c ∈ cs, ∀ x, c.stored ≤ x → x < c.stored + 8 →
    c.ptr ≠ 0 ∧ c.ptr ≤ x ∧ x < c.ptr + c.size

section Calls

variable {h start brk : Nat} {m : Mem}

theorem mallocs_cons (h n : Nat) (ns : List Nat) (m : Mem) : (mallocs h (n::ns) m).1 =
    ⟨(malloc h n m).1, n, load64 m (h+vmEnd)⟩ :: (mallocs h ns (malloc h n m).2).1 := by
  rw [mallocs]

theorem malloc_ptr (h n : Nat) (m : Mem) :
    (malloc h n m).1 = 0 ∨ (malloc h n m).1 = load64 m (h+vmEnd) := by
  rw [malloc]
  dsimp only
  split_ifs
  · exact Or.inl rfl
  · exact Or.inr rfl

/-- A request that fits into the page and covers what malloc stores. -/
theorem malloc_fits (hm : HeapAt h start brk m) (hb : start ≤ brk) (n : Nat) (hn : 8 ≤ n)
    (hfit : brk + n ≤ start + 4096) :
    (malloc h n m).1 = brk ∧ HeapAt h start (brk+n) (malloc h n m).2 := by
  have hbound := hm.fits
  have hsum : add64 brk n = brk+n := add64_of_lt _ _ (by omega)
  have hapart := hm.apart
  have hmem : (malloc h n m).2 = store64 (store64 m (h+vmEnd) (brk+n)) brk 0 := by
    rw [malloc, hm.endField, hsum]
  have hend : load64 (malloc h n m).2 (h+vmEnd) = brk+n := by
    rw [hmem, load64_store64_apart _ _ _ _ (by unfold vmEnd; omega),
      load64_store64_same _ _ _ (by omega)]
  have hstart : load64 (malloc h n m).2 (h+vmStart) = start := by
    rw [hmem, load64_store64_apart _ _ _ _ (by unfold vmStart; omega),
      load64_store64_apart _ _ _ _ (by unfold vmStart vmEnd; omega), hm.startField]
  refine ⟨?_, hstart, hend, hm.pos, hm.fits, hapart⟩
  have hptr : (malloc h n m).1 = if pageSize < sub64 (load64 (malloc h n m).2 (h+vmEnd))
      (load64 (malloc h n m).2 (h+vmStart)) then 0 else load64 m (h+vmEnd) := by
    rw [malloc]
  have hle : ¬pageSize < brk+n-start := by
    unfold pageSize
    omega
  rw [hptr, hend, hstart, sub64_of_le _ _ (by omega) (by omega), if_neg hle, hm.endField]

/-- As long as the requests fit, malloc is a pointer that moves up. -/
theorem mallocs_regions (ns : List Nat) (hm : HeapAt h start brk m) (hb : start ≤ brk)
    (h8 : ∀ n ∈ ns, 8 ≤ n) (hfit : brk + ns.sum ≤ start + 4096) :
    (mallocs h ns m).1 =
      (BumpAllocator.regions brk ns).map fun r => ⟨r.1, r.2, r.1⟩ := by
  induction ns generalizing brk m with
  | nil => rfl
  | cons n ns ih =>
    rw [List.sum_cons] at hfit
    obtain ⟨hptr, hnext⟩ := malloc_fits hm hb n (h8 n List.mem_cons_self) (by omega)
    rw [mallocs_cons, BumpAllocator.regions, List.map_cons, hptr, hm.endField,
      ih hnext (by omega) (fun k hk => h8 k (List.mem_cons_of_mem _ hk)) (by omega)]

/-- The first of several calls that keep the law was for at least eight bytes and fitted. -/
theorem HeapSound.first {p n old : Nat} {cs : List MallocCall}
    (hs : HeapSound start (⟨p, n, old⟩::cs)) (hp : p = 0 ∨ p = old) :
    8 ≤ n ∧ old + n ≤ start + 4096 := by
  have hlow := hs.stores _ List.mem_cons_self old (le_refl _) (Nat.lt_add_of_pos_right (by norm_num))
  have hhigh := hs.stores _ List.mem_cons_self (old+7) (Nat.le_add_right _ _)
    (Nat.add_lt_add_left (by norm_num) old)
  have hin := hs.inside _ List.mem_cons_self hlow.1
  dsimp only at hlow hhigh hin
  have hptr := hp.resolve_left hlow.1
  exact ⟨by omega, by omega⟩

theorem HeapSound.tail {c : MallocCall} {cs : List MallocCall} (hs : HeapSound start (c::cs)) :
    HeapSound start cs := by
  refine ⟨fun d hd => hs.inside d (List.mem_cons_of_mem _ hd), ?_,
    fun d hd => hs.stores d (List.mem_cons_of_mem _ hd)⟩
  apply List.Pairwise.sublist _ hs.disjoint
  exact ((List.sublist_cons_self c cs).filter _).map _

theorem requests_of_heapSound (ns : List Nat) (hm : HeapAt h start brk m) (hb : start ≤ brk)
    (hb' : brk ≤ start + 4096) (hs : HeapSound start (mallocs h ns m).1) :
    (∀ n ∈ ns, 8 ≤ n) ∧ brk + ns.sum ≤ start + 4096 := by
  induction ns generalizing brk m with
  | nil => exact ⟨fun n hn => absurd hn List.not_mem_nil, hb'⟩
  | cons n ns ih =>
    rw [mallocs_cons] at hs
    obtain ⟨h8, hfit⟩ := hs.first (malloc_ptr h n m)
    rw [hm.endField] at hfit
    obtain ⟨-, hnext⟩ := malloc_fits hm hb n h8 hfit
    obtain ⟨hall, hsum⟩ := ih hnext (by omega) hfit hs.tail
    refine ⟨?_, by rw [List.sum_cons]; omega⟩
    intro k hk
    rcases List.mem_cons.mp hk with rfl | hk
    · exact h8
    · exact hall k hk

theorem heapSound_regions (ns : List Nat) (hpos : 0 < start) (h8 : ∀ n ∈ ns, 8 ≤ n)
    (hfit : ns.sum ≤ 4096) :
    HeapSound start ((BumpAllocator.regions start ns).map fun r => ⟨r.1, r.2, r.1⟩) := by
  have hbounds := BumpAllocator.regions_bounds start ns
  have hsize : ∀ r ∈ BumpAllocator.regions start ns, 8 ≤ r.2 := by
    intro r hr
    apply h8
    rw [← BumpAllocator.regions_map_snd start ns]
    exact List.mem_map_of_mem hr
  refine ⟨?_, ?_, ?_⟩
  · intro c hc _
    obtain ⟨r, hr, rfl⟩ := List.mem_map.mp hc
    have := hbounds r hr
    dsimp only
    omega
  · have hall : ((BumpAllocator.regions start ns).map fun r =>
        (⟨r.1, r.2, r.1⟩ : MallocCall)).filter (·.ptr ≠ 0) =
        (BumpAllocator.regions start ns).map fun r => ⟨r.1, r.2, r.1⟩ := by
      apply List.filter_eq_self.mpr
      intro c hc
      obtain ⟨r, hr, rfl⟩ := List.mem_map.mp hc
      have hr1 : r.1 ≠ 0 := by
        have := hbounds r hr
        omega
      simpa using hr1
    rw [hall, List.map_map]
    have hid : (MallocCall.block ∘ fun r : Nat × Nat => ⟨r.1, r.2, r.1⟩) = id := rfl
    rw [hid, List.map_id]
    exact BumpAllocator.regions_disjoint start ns
  · intro c hc x hx hx'
    obtain ⟨r, hr, rfl⟩ := List.mem_map.mp hc
    have := hbounds r hr
    have := hsize r hr
    dsimp only at hx hx' ⊢
    omega

end Calls

/-- Any sequence of requests to a heap whose break is at its start: all blocks are in the
page, apart, and all that is written, exactly when every request is for at least eight bytes
and together they fit into the page. -/
theorem mallocs_sound_iff (h start : Nat) (m : Mem) (ns : List Nat)
    (hm : HeapAt h start start m) :
    HeapSound start (mallocs h ns m).1 ↔ (∀ n ∈ ns, 8 ≤ n) ∧ ns.sum ≤ 4096 := by
  constructor
  · intro hs
    obtain ⟨h8, hsum⟩ := requests_of_heapSound ns hm (le_refl _) (by omega) hs
    exact ⟨h8, by omega⟩
  · rintro ⟨h8, hsum⟩
    rw [mallocs_regions ns hm (le_refl _) h8 (by omega)]
    exact heapSound_regions ns hm.pos h8 hsum

/-- heap_vma at 0x1000 for a heap page at 0x2000. -/
def emptyHeap : Mem := store64 (store64 (fun _ => 0) (0x1000+vmStart) 0x2000) (0x1000+vmEnd) 0x2000

theorem emptyHeap_at : HeapAt 0x1000 0x2000 0x2000 emptyHeap := by
  refine ⟨?_, ?_, by norm_num, by norm_num, Or.inl (by norm_num)⟩
  · rw [emptyHeap, load64_store64_apart _ _ _ _ (by norm_num [vmStart, vmEnd]),
      load64_store64_same _ _ _ (by norm_num)]
  · rw [emptyHeap, load64_store64_same _ _ _ (by norm_num)]

theorem mallocs_sound_two :
    HeapAt 0x1000 0x2000 0x2000 emptyHeap ∧
    HeapSound 0x2000 (mallocs 0x1000 [64, 16] emptyHeap).1 :=
  ⟨emptyHeap_at, (mallocs_sound_iff 0x1000 0x2000 emptyHeap [64, 16] emptyHeap_at).mpr
    (by decide)⟩

/-- After 16 bytes, a request for 2^64-8 wraps the break back into the page and gets a block;
the next block lies on top of the first. -/
theorem mallocs_wrap :
    (mallocs 0x1000 [16, 2^64-8, 16] emptyHeap).1 =
      [⟨0x2000, 16, 0x2000⟩, ⟨0x2010, 2^64-8, 0x2010⟩, ⟨0x2008, 16, 0x2008⟩] ∧
    ¬HeapSound 0x2000 (mallocs 0x1000 [16, 2^64-8, 16] emptyHeap).1 := by
  have hrun : (mallocs 0x1000 [16, 2^64-8, 16] emptyHeap).1 =
      [⟨0x2000, 16, 0x2000⟩, ⟨0x2010, 2^64-8, 0x2010⟩, ⟨0x2008, 16, 0x2008⟩] := by decide +kernel
  refine ⟨hrun, fun hs => ?_⟩
  rw [hrun] at hs
  have := hs.inside ⟨0x2010, 2^64-8, 0x2010⟩ (by simp) (by norm_num)
  norm_num at this

/-- A heap in whatever state, as long as its break is not among heap_vma's own fields. -/
structure BreakAt (h start brk : Nat) (m : Mem) : Prop where
  startField : load64 m (h+vmStart) = start
  endField : load64 m (h+vmEnd) = brk
  clear : brk + 8 ≤ h+8 ∨ h+24 ≤ brk

/-- A request that is refused takes nothing: memory is as before, and what could be had before
can still be had. -/
def RefusesCleanly (h size : Nat) (m : Mem) : Prop :=
  (malloc h size m).1 = 0 → (malloc h size m).2 = m ∧
    ∀ n, (malloc h n m).1 ≠ 0 → (malloc h n (malloc h size m).2).1 ≠ 0

section Refusal

variable {h start brk size : Nat} {m : Mem}

theorem BreakAt.brk_lt (hm : BreakAt h start brk m) : brk < 2^64 := by
  rw [← hm.endField]
  exact load64_lt m _

/-- Both stores of malloc, and its answer in terms of the request. -/
theorem BreakAt.malloc_eq (hm : BreakAt h start brk m) (size : Nat) :
    malloc h size m = (if pageSize < sub64 (add64 brk size) start then 0 else brk,
      store64 (store64 m (h+vmEnd) (add64 brk size)) brk 0) := by
  have hclear := hm.clear
  have hsum : add64 brk size < 2^64 := add64_lt brk size
  have hend : load64 (store64 (store64 m (h+vmEnd) (add64 brk size)) brk 0) (h+vmEnd) =
      add64 brk size := by
    rw [load64_store64_apart _ _ _ _ (by unfold vmEnd; omega), load64_store64_same _ _ _ hsum]
  have hstart : load64 (store64 (store64 m (h+vmEnd) (add64 brk size)) brk 0) (h+vmStart) =
      start := by
    rw [load64_store64_apart _ _ _ _ (by unfold vmStart; omega),
      load64_store64_apart _ _ _ _ (by unfold vmStart vmEnd; omega), hm.startField]
  rw [malloc, hm.endField, hend, hstart]

/-- malloc leaves memory as it was only when it is asked for nothing at a break where there are
zeros. -/
theorem BreakAt.unchanged_iff (hm : BreakAt h start brk m) (hsize : size < 2^64) :
    (malloc h size m).2 = m ↔ size = 0 ∧ load64 m brk = 0 := by
  have hbrk := hm.brk_lt
  have hclear := hm.clear
  rw [hm.malloc_eq]
  dsimp only
  constructor
  · intro he
    have hzero : load64 m brk = 0 := by
      rw [← he]
      exact load64_store64_same _ _ _ (by norm_num)
    have hsame : add64 brk size = brk := by
      have hend := hm.endField
      rw [← he, load64_store64_apart _ _ _ _ (by unfold vmEnd; omega),
        load64_store64_same _ _ _ (add64_lt brk size)] at hend
      exact hend
    unfold add64 at hsame
    exact ⟨by omega, hzero⟩
  · intro ⟨hs, hzero⟩
    have hsame : add64 brk size = load64 m (h+vmEnd) := by
      rw [hm.endField, hs, add64_of_lt _ _ (by omega), Nat.add_zero]
    have hfield : store64 m (h+vmEnd) (load64 m (h+vmEnd)) = m := store_load m 8 _
    have hbytes : store64 m brk (load64 m brk) = m := store_load m 8 brk
    rw [hzero] at hbytes
    rw [hsame, hfield, hbytes]

/-- Every request to every heap: refusing is clean just when the request is not refused, or is for
nothing at a break where there are zeros. -/
theorem malloc_refuses_iff (h start brk size : Nat) (m : Mem) (hm : BreakAt h start brk m)
    (hsize : size < 2^64) :
    RefusesCleanly h size m ↔
      brk ≠ 0 ∧ sub64 (add64 brk size) start ≤ pageSize ∨ size = 0 ∧ load64 m brk = 0 := by
  have hptr : (malloc h size m).1 = 0 ↔ ¬(brk ≠ 0 ∧ sub64 (add64 brk size) start ≤ pageSize) := by
    rw [hm.malloc_eq]
    dsimp only
    split_ifs with hlt
    · simp [hlt]
    · simp [not_lt.mp hlt]
  rw [RefusesCleanly, hptr, hm.unchanged_iff hsize]
  constructor
  · intro hr
    by_cases hfit : brk ≠ 0 ∧ sub64 (add64 brk size) start ≤ pageSize
    · exact Or.inl hfit
    · exact Or.inr (hr hfit).1
  · intro hcase hrefused
    have hzero := hcase.resolve_left hrefused
    refine ⟨hzero, ?_⟩
    intro n hn
    rwa [(hm.unchanged_iff hsize).mpr hzero]

end Refusal

theorem emptyHeap_break : BreakAt 0x1000 0x2000 0x2000 emptyHeap :=
  ⟨emptyHeap_at.startField, emptyHeap_at.endField, by norm_num⟩

/-- Behind a request for two pages, one for nothing is refused as well, and changes nothing. -/
theorem malloc_refuses_nothing :
    ∃ m, BreakAt 0x1000 0x2000 0x4000 m ∧ (malloc 0x1000 0 m).1 = 0 ∧
      RefusesCleanly 0x1000 0 m := by
  have hbreak : BreakAt 0x1000 0x2000 0x4000 (malloc 0x1000 0x2000 emptyHeap).2 :=
    ⟨by decide +kernel, by decide +kernel, by norm_num⟩
  refine ⟨_, hbreak, by decide +kernel, ?_⟩
  exact (malloc_refuses_iff _ _ _ 0 _ hbreak (by norm_num)).mpr (Or.inr ⟨rfl, by decide +kernel⟩)

/-- A request for two pages is refused but moves the break, and then not even 16 bytes are left. -/
theorem malloc_refusal_sticks :
    BreakAt 0x1000 0x2000 0x2000 emptyHeap ∧ (malloc 0x1000 0x2000 emptyHeap).1 = 0 ∧
    load64 (malloc 0x1000 0x2000 emptyHeap).2 (0x1000+vmEnd) = 0x4000 ∧
    (malloc 0x1000 16 emptyHeap).1 = 0x2000 ∧
    (malloc 0x1000 16 (malloc 0x1000 0x2000 emptyHeap).2).1 = 0 :=
  ⟨emptyHeap_break, by decide +kernel, by decide +kernel, by decide +kernel, by decide +kernel⟩

end SBUnix
