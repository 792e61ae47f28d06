import SBUnix.Paging.BootWalk
import SBUnix.Paging.PageAlloc

namespace SBUnix

open ByteMemory Word

/-- page_alloc behind the processor's walk: its stores go to its page and to the freelist. `none`
is a page fault, or an entry left over from RAM that leads elsewhere. -/
def pageAllocMapped (s : Kernel) : Option (Nat × Kernel) :=
  let head := add64 s.cursor virtBase
  let slot := add64 s.freelist (4*s.counter)
  if translate s head = some (direct head) ∧
      translate s slot = some (direct s.freelist + 4*s.counter) then some (pageAlloc s) else none

def pageAllocsMapped : Nat → Kernel → Option Kernel
  | 0, s => some s
  | n+1, s => (pageAllocMapped s).bind fun r => pageAllocsMapped n r.2

def kmallocMapped (sz : Nat) (s : Kernel) : Option (Nat × Kernel) :=
  let pages := sz / pageSize % 2^32
  let modulo := sz % pageSize % 2^32
  let pages := if 0 < modulo then (pages+1) % 2^32 else pages
  (pageAllocMapped s).bind fun head =>
    let pages := (pages + (2^32-1)) % 2^32
    (pageAllocsMapped pages head.2).map fun t => (head.1, t)

def AllocCall.runMapped : AllocCall → Kernel → Option (Nat × Kernel)
  | .pageAlloc, s => pageAllocMapped s
  | .kmalloc sz, s => kmallocMapped sz s

/-- A sequence of calls, each with the region it returned. -/
def runAllocsMapped : List AllocCall → Kernel → Option (List (Nat × Nat) × Kernel)
  | [], s => some ([], s)
  | c::calls, s => (c.runMapped s).bind fun r =>
      (runAllocsMapped calls r.2).map fun t => ((r.1, 4096*c.pages) :: t.1, t.2)

/-- The entries for the addresses above the window, which boot leaves as it found them, are not
present. -/
structure NothingAbove (m : Mem) (pf : Nat) : Prop where
  pdp : gridOf m pf 1 511 % 2 = 0
  pd : ∀ i, 49 ≤ i → i < 512 → gridOf m pf 2 i % 2 = 0

section Walks

variable {m : Mem} {pf n x : Nat} {t : Kernel}

/-- The tables of the window are below the pages, and above the freelist. -/
theorem Taken.entry_eq (hp : pf % 4096 = 0) (hf : pf < 2^52) (h : Taken n (booted m pf) t)
    (hn : 99+n ≤ 25598) {k i : Nat} (hk : k < 52) (hi : i < 512) (htop : 1 ≤ k ∨ i = 511) :
    entry t.mem (pool pf + 4096*k) i = image pf (gridOf m pf) k i := by
  have hb := booted_spec m pf hp hf
  have hcur := booted_cursor hb
  have hlist : direct (booted m pf).freelist = pf := by
    rw [hb.freelist, direct_virtBase_add pf (by omega)]
  rw [← hb.words.grid k i hi, entry]
  apply load_congr
  intro a hl hu
  apply h.kept a
  · left
    omega
  · right
    rw [hlist, hb.counter]
    unfold pool at hl
    omega

theorem Taken.kernelMap (hp : pf % 4096 = 0) (hf : pf < 2^52) (h : Taken n (booted m pf) t)
    (hn : 99+n ≤ 25598) : KernelMap pf (entry t.mem) :=
  kernelMap_of_image fun _ _ hk hi htop => h.entry_eq hp hf hn hk hi htop

theorem Taken.cr3_booted (hp : pf % 4096 = 0) (hf : pf < 2^52) (h : Taken n (booted m pf) t) :
    t.cr3 = pool pf + 4096*0 := by
  rw [h.cr3, (booted_spec m pf hp hf).cr3, Nat.mul_zero, Nat.add_zero]

/-- In the window an address leads where the direct map says. -/
theorem Taken.translate_window (hp : pf % 4096 = 0) (hf : pf < 2^52)
    (h : Taken n (booted m pf) t) (hn : 99+n ≤ 25598) (hx : x < 49*0x200000) :
    translate t (virtBase + x) = some x := by
  have hwalk := (h.kernelMap hp hf hn).walk_window (pool_aligned hp) hx
  rw [translate, walk, h.cr3_booted hp hf, hwalk]
  simp only [Option.map_some, List.getLastD_cons, List.getLastD_nil, pageOf_eq, pageSize, virtBase,
    Option.some.injEq]
  omega

/-- Above it an address leads nowhere. -/
theorem Taken.translate_above (hp : pf % 4096 = 0) (hf : pf < 2^52)
    (h : Taken n (booted m pf) t) (hn : 99+n ≤ 25598) (hno : NothingAbove m pf)
    (hlo : 49*0x200000 ≤ x) (hx : x < 2^31) : translate t (virtBase + x) = none := by
  have hmap := h.kernelMap hp hf hn
  have hb := pool_aligned hp
  have hpath : pathOf (virtBase + x) =
      [511, 510 + x / 2^30, x / 2^21 % 512, x / 2^12 % 512] := by
    simp only [pathOf, getPml4Offset_eq, getPdpOffset_eq, getPdOffset_eq, getPtOffset_eq, virtBase,
      List.cons.injEq, and_true]
    omega
  rw [translate, walk, h.cr3_booted hp hf, hpath, walk_linked _ (by omega) hmap.pml4]
  rcases Nat.lt_or_ge x (2^30) with hlt | hge
  · have h0 : x / 2^30 = 0 := by omega
    have hentry : entry t.mem (pool pf + 4096*2) (x / 2^21 % 512) =
        gridOf m pf 2 (x / 2^21 % 512) := by
      rw [h.entry_eq hp hf hn (by omega) (by omega) (Or.inl (by omega)), image, if_neg (by omega),
        if_neg (by omega), if_pos rfl, if_neg (by omega), if_neg (by omega), if_neg (by omega)]
    have hnone := next_of_even _ (hno.pd (x / 2^21 % 512) (by omega) (by omega))
    rw [h0, walk_linked _ (by omega) hmap.pdp, RadixTable.walk_cons_none _ _ _ (hentry ▸ hnone)]
    rfl
  · have h1 : x / 2^30 = 1 := by omega
    have hentry : entry t.mem (pool pf + 4096*1) (510+1) = gridOf m pf 1 511 :=
      h.entry_eq hp hf hn (by omega) (by omega) (Or.inl le_rfl)
    rw [h1, RadixTable.walk_cons_none _ _ _ (hentry ▸ next_of_even _ hno.pdp)]
    rfl

end Walks

section Calls

variable {m : Mem} {pf n : Nat} {s : Kernel}

/-- What the next page is, and where the walk has to lead. -/
theorem Taken.next_addresses (hp : pf % 4096 = 0) (hf : pf < 2^52) (h : Taken n (booted m pf) s)
    (hlt : pool pf + 4096*(99+n) < 2^31) :
    s.cursor = pool pf + 4096*(99+n) ∧
    add64 s.cursor virtBase = virtBase + (pool pf + 4096*(99+n)) ∧
    direct (add64 s.cursor virtBase) = pool pf + 4096*(99+n) ∧
    add64 s.freelist (4*s.counter) = virtBase + (pf + 4*(99+n)) ∧
    direct s.freelist + 4*s.counter = pf + 4*(99+n) := by
  have hb := booted_spec m pf hp hf
  have hcur : s.cursor = pool pf + 4096*(99+n) := by
    rw [h.cursor, booted_cursor hb]
    omega
  have hcount : s.counter = 99+n := by rw [h.counter, hb.counter]
  have hlist : s.freelist = virtBase + pf := by
    rw [h.freelist, hb.freelist, add64_of_lt]
    unfold virtBase
    unfold pool at hlt
    omega
  refine ⟨hcur, ?_, ?_, ?_, ?_⟩
  · rw [hcur, add64_of_lt _ _ (by unfold virtBase; omega), Nat.add_comm]
  · rw [hcur, direct_add64 _ (by omega)]
  · rw [hlist, hcount, add64_of_lt, Nat.add_assoc]
    unfold virtBase
    unfold pool at hlt
    omega
  · rw [h.freelist, hb.freelist, direct_virtBase_add pf (by omega), hcount]

theorem Taken.pageAllocMapped_within (hp : pf % 4096 = 0) (h : Taken n (booted m pf) s)
    (hw : pool pf + 4096*(99+n) + 4096 ≤ 49*0x200000) :
    pageAllocMapped s = some (pageAlloc s) := by
  have hpool : pool pf = pf + 0x18000 := rfl
  have hf : pf < 2^52 := by omega
  obtain ⟨-, hhead, hdirect, hslot, hlist⟩ := h.next_addresses hp hf (by omega)
  have hwin {x : Nat} (hx : x < 49*0x200000) := h.translate_window hp hf (by omega) hx
  rw [pageAllocMapped, hdirect, hhead, hslot, hlist]
  exact if_pos ⟨hwin (by omega), hwin (by omega)⟩

theorem Taken.pageAllocMapped_above (hp : pf % 4096 = 0) (h : Taken n (booted m pf) s)
    (hn : 99+n ≤ 25598) (hno : NothingAbove m pf)
    (hlo : 49*0x200000 < pool pf + 4096*(99+n) + 4096) (hlt : pool pf + 4096*(99+n) < 2^31) :
    pageAllocMapped s = none := by
  have hpool : pool pf = pf + 0x18000 := rfl
  have hf : pf < 2^52 := by omega
  obtain ⟨-, hhead, hdirect, -⟩ := h.next_addresses hp hf hlt
  have hal := pool_aligned hp
  have hnone := h.translate_above hp hf hn hno
    (show 49*0x200000 ≤ pool pf + 4096*(99+n) by omega) hlt
  rw [pageAllocMapped, hhead, hnone]
  exact if_neg fun h => Option.some_ne_none _ h.1.symm

theorem Taken.next_page (hp : pf % 4096 = 0) (h : Taken n (booted m pf) s)
    (hlt : pool pf + 4096*(99+n) + 4096 ≤ 2^31) : Taken (n+1) (booted m pf) (pageAlloc s).2 := by
  have hf : pf < 2^52 := by
    unfold pool at hlt
    omega
  obtain ⟨hcur, -⟩ := h.next_addresses hp hf (by omega)
  obtain ⟨t, he, ht⟩ := pageAlloc_taken s (by omega)
  rw [he]
  exact h.trans ht

theorem cursor_succ (p n : Nat) : p + 4096*(99+(n+1)) = p + 4096*(99+n) + 4096 := by ring

/-- As many pages as the window has room for. -/
theorem Taken.pageAllocsMapped_within (hp : pf % 4096 = 0) {j : Nat}
    (h : Taken n (booted m pf) s) (hw : pool pf + 4096*(99+n) + 4096*j ≤ 49*0x200000) :
    pageAllocsMapped j s = some (pageAllocs j s) := by
  induction j generalizing n s with
  | zero => rfl
  | succ j ih =>
    rw [Nat.mul_succ 4096 j, ← Nat.add_assoc] at hw
    rw [pageAllocsMapped, h.pageAllocMapped_within hp (by omega), Option.bind_some,
      ih (h.next_page hp (by omega)) (by omega), pageAllocs_succ]

/-- One more faults. -/
theorem Taken.pageAllocsMapped_above (hp : pf % 4096 = 0) (hno : NothingAbove m pf) {j : Nat}
    (hj : 0 < j) (h : Taken n (booted m pf) s) (hn : n = 0 ∨ pool pf + 4096*(99+n) ≤ 49*0x200000)
    (hlo : 49*0x200000 < pool pf + 4096*(99+n) + 4096*j)
    (hlt : pool pf + 4096*(99+n) + 4096*j ≤ 2^31) : pageAllocsMapped j s = none := by
  induction j generalizing n s with
  | zero => omega
  | succ j ih =>
    rw [Nat.mul_succ 4096 j, ← Nat.add_assoc] at hlo hlt
    rw [pageAllocsMapped]
    rcases Nat.lt_or_ge (49*0x200000) (pool pf + 4096*(99+n) + 4096) with hout | hin
    · rw [h.pageAllocMapped_above hp (by omega) hno hout (by omega), Option.bind_none]
    · rw [h.pageAllocMapped_within hp hin, Option.bind_some]
      exact ih (by omega) (h.next_page hp (by omega)) (Or.inr ((cursor_succ _ _).trans_le hin))
        (by omega) (by omega)

theorem AllocCall.Valid.runMapped_eq {c : AllocCall} (hc : c.Valid) (s : Kernel) :
    c.runMapped s = (pageAllocMapped s).bind fun head =>
      (pageAllocsMapped (c.pages-1) head.2).map fun t => (head.1, t) := by
  cases c with
  | pageAlloc => exact (Option.bind_fun_some _).symm
  | kmalloc sz =>
    rw [AllocCall.runMapped, kmallocMapped, kmalloc_count hc.1 hc.2]
    rfl

theorem Taken.runMapped_within (hp : pf % 4096 = 0) {c : AllocCall} (hc : c.Valid)
    (h : Taken n (booted m pf) s)
    (hw : pool pf + 4096*(99+n) + 4096*c.pages ≤ 49*0x200000) :
    c.runMapped s = some (c.run s) := by
  have hpos := hc.pages_pos
  rw [hc.runMapped_eq, h.pageAllocMapped_within hp (by omega), Option.bind_some,
    (h.next_page hp (by omega)).pageAllocsMapped_within hp (by omega), Option.map_some, hc.run_eq]

theorem Taken.runMapped_above (hp : pf % 4096 = 0) (hno : NothingAbove m pf) {c : AllocCall}
    (hc : c.Valid) (h : Taken n (booted m pf) s)
    (hn : n = 0 ∨ pool pf + 4096*(99+n) ≤ 49*0x200000)
    (hlo : 49*0x200000 < pool pf + 4096*(99+n) + 4096*c.pages)
    (hlt : pool pf + 4096*(99+n) + 4096*c.pages ≤ 2^31) : c.runMapped s = none := by
  obtain ⟨k, hk⟩ : ∃ k, c.pages = k+1 := ⟨c.pages-1, by have := hc.pages_pos; omega⟩
  rw [hk, Nat.mul_succ 4096 k, ← Nat.add_assoc] at hlo hlt
  rw [hc.runMapped_eq, hk, Nat.add_sub_cancel]
  rcases Nat.lt_or_ge (49*0x200000) (pool pf + 4096*(99+n) + 4096) with hout | hin
  · rw [h.pageAllocMapped_above hp (by omega) hno hout (by omega), Option.bind_none]
  · rw [h.pageAllocMapped_within hp hin, Option.bind_some,
      (h.next_page hp (by omega)).pageAllocsMapped_above hp hno (by omega)
        (Or.inr ((cursor_succ _ _).trans_le hin)) (by omega) (by omega), Option.map_none]

theorem Taken.after_call (hp : pf % 4096 = 0) {c : AllocCall} (hc : c.Valid)
    (h : Taken n (booted m pf) s) (hlt : pool pf + 4096*(99+n) + 4096*c.pages ≤ 2^31) :
    Taken (n + c.pages) (booted m pf) (c.run s).2 := by
  have hpos := hc.pages_pos
  have hf : pf < 2^52 := by
    unfold pool at hlt
    omega
  obtain ⟨hcur, -⟩ := h.next_addresses hp hf (by omega)
  obtain ⟨t, he, ht⟩ := c.run_taken s hc (by omega)
  rw [he]
  exact h.trans ht

theorem Taken.runAllocsMapped_within (hp : pf % 4096 = 0) {calls : List AllocCall}
    (hv : ∀ c ∈ calls, c.Valid) (h : Taken n (booted m pf) s)
    (hw : pool pf + 4096*(99+n) + 4096*(calls.map AllocCall.pages).sum ≤ 49*0x200000) :
    runAllocsMapped calls s = some (runAllocs calls s) := by
  induction calls generalizing n s with
  | nil => rfl
  | cons c calls ih =>
    have hc := hv c List.mem_cons_self
    rw [List.map_cons, List.sum_cons, Nat.mul_add, ← Nat.add_assoc] at hw
    rw [runAllocsMapped, h.runMapped_within hp hc (by omega), Option.bind_some,
      ih (fun d hd => hv d (List.mem_cons_of_mem _ hd)) (h.after_call hp hc (by omega)) (by omega),
      Option.map_some, runAllocs_cons]

/-- By induction on the calls, up to the first that needs a page above the window. -/
theorem Taken.runAllocsMapped_above (hp : pf % 4096 = 0) (hno : NothingAbove m pf)
    {calls : List AllocCall} (hne : calls ≠ []) (hv : ∀ c ∈ calls, c.Valid)
    (h : Taken n (booted m pf) s) (hn : n = 0 ∨ pool pf + 4096*(99+n) ≤ 49*0x200000)
    (hlo : 49*0x200000 < pool pf + 4096*(99+n) + 4096*(calls.map AllocCall.pages).sum)
    (hlt : pool pf + 4096*(99+n) + 4096*(calls.map AllocCall.pages).sum ≤ 2^31) :
    runAllocsMapped calls s = none := by
  induction calls generalizing n s with
  | nil => exact absurd rfl hne
  | cons c calls ih =>
    have hc := hv c List.mem_cons_self
    rw [List.map_cons, List.sum_cons, Nat.mul_add, ← Nat.add_assoc] at hlo hlt
    rw [runAllocsMapped]
    rcases Nat.lt_or_ge (49*0x200000) (pool pf + 4096*(99+n) + 4096*c.pages) with hout | hin
    · rw [h.runMapped_above hp hno hc hn hout (by omega), Option.bind_none]
    · have hrest : calls ≠ [] := by
        rintro rfl
        rw [List.map_nil, List.sum_nil] at hlo
        omega
      rw [h.runMapped_within hp hc hin, Option.bind_some,
        ih hrest (fun d hd => hv d (List.mem_cons_of_mem _ hd)) (h.after_call hp hc (by omega))
          (Or.inr (by omega)) (by omega) (by omega), Option.map_none]

end Calls

/-- Every sequence of calls after boot runs through; each call takes its pages in one zeroed
region, and no two regions meet each other or a page that boot gave out. -/
structure AllocsRight (m : Mem) (pf : Nat) (calls : List AllocCall) : Prop where
  runs : runAllocsMapped calls (booted m pf) = some (runAllocs calls (booted m pf))
  each : ∀ xs c ys, calls = xs ++ c::ys →
    let s := (runAllocs xs (booted m pf)).2
    let r := c.run s
    r.2.counter = s.counter + c.pages ∧
    pagesIn r.2.log =
      ((List.range c.pages).map fun j => r.1 + 4096*j).reverse ++ pagesIn s.log ∧
    ∀ x, x < 4096*c.pages → r.2.mem (direct (r.1 + x)) = 0
  apart : (runAllocs calls (booted m pf)).1.Pairwise BumpAllocator.Disjoint
  early : (earlyIn (booted m pf).log).length = 99
  fresh : ∀ g ∈ (runAllocs calls (booted m pf)).1, ∀ q ∈ earlyIn (booted m pf).log,
    BumpAllocator.Disjoint g (virtBase + q, 4096)

/-- The allocators do not look at the end of the window: a sequence of calls is served as long as
its last page lies in it, and unless RAM left an entry there, no longer. -/
theorem allocsRight_iff (m : Mem) (pf : Nat) (hp : pf % 4096 = 0) (calls : List AllocCall)
    (hv : ∀ c ∈ calls, c.Valid) :
    (pool pf + 4096*(99 + (calls.map AllocCall.pages).sum) ≤ 49*0x200000 →
      AllocsRight m pf calls) ∧
    (pool pf + 4096*(99 + (calls.map AllocCall.pages).sum) ≤ 2^31 → NothingAbove m pf →
      (AllocsRight m pf calls ↔ calls = [] ∨
        pool pf + 4096*(99 + (calls.map AllocCall.pages).sum) ≤ 49*0x200000)) := by
  have hstart := Taken.refl (booted m pf)
  have hsum : pool pf + 4096*(99 + (calls.map AllocCall.pages).sum) =
      pool pf + 4096*(99+0) + 4096*(calls.map AllocCall.pages).sum := by ring
  have hright (hw : pool pf + 4096*(99 + (calls.map AllocCall.pages).sum) ≤ 49*0x200000) :
      AllocsRight m pf calls := by
    obtain ⟨heach, hapart, hearly, hfresh⟩ := runAllocs_regions m pf hp calls hv (by omega)
    exact ⟨hstart.runAllocsMapped_within hp hv (hsum ▸ hw), heach, hapart, hearly, hfresh⟩
  refine ⟨hright, fun hlt hno => ⟨?_, ?_⟩⟩
  · intro h
    by_contra hout
    rw [not_or, not_le] at hout
    have hnone := hstart.runAllocsMapped_above hp hno hout.1 hv (Or.inl rfl) (hsum ▸ hout.2)
      (hsum ▸ hlt)
    rw [h.runs] at hnone
    cases hnone
  · rintro (rfl | hw)
    · obtain ⟨heach, hapart, hearly, hfresh⟩ := runAllocs_regions m pf hp [] hv hlt
      exact ⟨rfl, heach, hapart, hearly, hfresh⟩
    · exact hright hw

theorem nothingAbove_zero (pf : Nat) : NothingAbove (fun _ => 0) pf :=
  ⟨by rw [gridOf_zero], fun i _ _ => by rw [gridOf_zero]⟩

/-- Two calls on zeroed RAM, and one that the window has no room for. -/
theorem allocsRight_two :
    AllocsRight (fun _ => 0) 0x300000 [.kmalloc 5000, .pageAlloc] ∧
    ¬AllocsRight (fun _ => 0) 0x300000 [.kmalloc 0x7000000] := by
  constructor
  · apply (allocsRight_iff (fun _ => 0) 0x300000 (by norm_num) [.kmalloc 5000, .pageAlloc] ?_).1
    · norm_num [pool, AllocCall.pages]
    · intro c hc
      fin_cases hc
      · exact ⟨by norm_num, by norm_num⟩
      · trivial
  · rw [(allocsRight_iff (fun _ => 0) 0x300000 (by norm_num) [.kmalloc 0x7000000] ?_).2
      (by norm_num [pool, AllocCall.pages]) (nothingAbove_zero _)]
    · norm_num [pool, AllocCall.pages]
    · intro c hc
      rw [List.mem_singleton.mp hc]
      exact ⟨by norm_num, by norm_num⟩

/-- kmalloc(0x7000000) after boot on zeroed RAM: one of its pages is not mapped. -/
theorem kmalloc_faults :
    (AllocCall.kmalloc 0x7000000).Valid ∧ pool 0x300000 + 4096*(99 + 0x7000) ≤ 2^31 ∧
    runAllocsMapped [.kmalloc 0x7000000] (booted (fun _ => 0) 0x300000) = none := by
  have hvalid : (AllocCall.kmalloc 0x7000000).Valid := ⟨by norm_num, by norm_num⟩
  have hpages : ([AllocCall.kmalloc 0x7000000].map AllocCall.pages).sum = 0x7000 := by
    norm_num [AllocCall.pages]
  refine ⟨hvalid, by norm_num [pool], ?_⟩
  apply (Taken.refl (booted (fun _ => 0) 0x300000)).runAllocsMapped_above (by norm_num)
    (nothingAbove_zero _) (by simp) (by simpa using hvalid) (Or.inl rfl)
  · rw [hpages]
    norm_num [pool]
  · rw [hpages]
    norm_num [pool]

end SBUnix
