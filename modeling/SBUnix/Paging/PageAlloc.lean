import SBUnix.Framework.BumpAllocator
import SBUnix.Paging.BootMap

namespace SBUnix

open ByteMemory Word

def memset (b c : Nat) : Nat → Mem → Mem
  | 0, m => m
  | len+1, m => memset (b+1) c len (store m 1 b c)

/-- The physical address of the next page: `_pdesc`, which the first call sets to where
get_page left `pdesc`. -/
def Kernel.cursor (s : Kernel) : Nat := if s.virtToPhyFlag then s.pdescPhys else s.pdesc

theorem cursor_latched (s : Kernel) (h : s.virtToPhyFlag = true) : s.cursor = s.pdescPhys :=
  if_pos h

/-- page_alloc where its stores reach the page: at the kernel address of a page of the direct
map. -/
def pageAlloc (s : Kernel) : Nat × Kernel :=
  let phys := s.cursor
  let head := add64 phys virtBase
  let m := setPdFree s.mem (direct head) inUse
  let m := store64 m (direct head + 8) (add64 head pageSize)
  let pdesc := load64 m (direct head + 8)
  let m := store32 m (direct s.freelist + 4*s.counter) 0
  let m := memset (direct head) 0 pageSize m
  (head, { s with
    mem := m, pdesc := pdesc, pdescPhys := add64 phys (pageDescSize*pdescPgInc),
    virtToPhyFlag := true, counter := s.counter+1,
    log := .page head :: .slot s.counter :: s.log })

attribute [irreducible] pageAlloc

/-- `while (pages-- > 0) trav = page_alloc();` -/
def pageAllocs (n : Nat) (s : Kernel) : Kernel := (fun t => (pageAlloc t).2)^[n] s

theorem pageAllocs_zero (s : Kernel) : pageAllocs 0 s = s := Function.iterate_zero_apply _ s

theorem pageAllocs_succ (n : Nat) (s : Kernel) :
    pageAllocs (n+1) s = pageAllocs n (pageAlloc s).2 := Function.iterate_succ_apply _ n s

/-- The page count is a `uint32_t`, and is decremented once before the loop tests it. -/
def kmalloc (sz : Nat) (s : Kernel) : Nat × Kernel :=
  let pages := sz / pageSize % 2^32
  let modulo := sz % pageSize % 2^32
  let pages := if 0 < modulo then (pages+1) % 2^32 else pages
  let head := pageAlloc s
  let pages := (pages + (2^32-1)) % 2^32
  (head.1, pageAllocs pages head.2)

theorem memset_zero (len b : Nat) (m : Mem) : memset b 0 len m = clear m b len := by
  induction len generalizing b m with
  | zero =>
    funext x
    rw [memset, clear_outside _ _ _ _ (by omega)]
  | succ len ih => rw [memset, ih, store_zero, clear_clear]

theorem direct_add64 (p : Nat) (h : p < 2^64) : direct (add64 p virtBase) = p :=
  sub64_add64 p virtBase h (by norm_num [virtBase])

/-- boot writes the address of the freelist the other way round. -/
theorem direct_virtBase_add (p : Nat) (h : p < 2^64) : direct (add64 virtBase p) = p := by
  rw [add64, Nat.add_comm virtBase p]
  exact direct_add64 p h

/-- What page_alloc leaves behind: its page and one word of the freelist are zero, and the
descriptor it kept in the page on the way is gone. -/
def Kernel.take (s : Kernel) (p q : Nat) : Kernel := { s with
  mem := clear (clear s.mem p 4096) (direct s.freelist + 4*s.counter) 4
  pdesc := q, pdescPhys := p+4096, virtToPhyFlag := true, counter := s.counter+1
  log := .page (add64 p SBUnix.virtBase) :: .slot s.counter :: s.log }

theorem pageAlloc_eq (s : Kernel) (p : Nat) (hp : s.cursor = p) (hlt : p + 4096 < 2^64) :
    ∃ q, pageAlloc s = (add64 p virtBase, s.take p q) := by
  have hinc : add64 p (pageDescSize*pdescPgInc) = p+4096 := add64_of_lt _ _ hlt
  refine ⟨load64 (store64 (setPdFree s.mem p inUse) (p+8)
    (add64 (add64 p virtBase) pageSize)) (p+8), ?_⟩
  rw [pageAlloc, hp, direct_add64 p (by omega), memset_zero, hinc, store32, store_zero, pageSize,
    clear_comm, store64, clear_store _ _ _ _ _ _ (by omega) (by omega), setPdFree,
    clear_store _ _ _ _ _ _ (by omega) (by omega), Kernel.take]

/-- The state without what page_alloc itself moves. -/
def Kernel.others (s : Kernel) : Kernel := { s with
  mem := fun _ => 0, pdesc := 0, pdescPhys := 0, virtToPhyFlag := false, counter := 0, log := [] }

/-- Stated over any new memory: with the cleared one in its place, comparing the two states
field by field would evaluate it. -/
theorem others_update (s : Kernel) (m : Mem) (d p c : Nat) (f : Bool) (l : List Event) :
    Kernel.others { s with
      mem := m, pdesc := d, pdescPhys := p, virtToPhyFlag := f, counter := c, log := l } =
    s.others := rfl

/-- The history of `n` calls of page_alloc from physical page `p` and freelist slot `c`. -/
def takenLog (p c : Nat) : Nat → List Event
  | 0 => []
  | n+1 => .page (add64 (p + 4096*n) virtBase) :: .slot (c+n) :: takenLog p c n

/-- `n` pages have been taken between `s` and `t`, all of them zeroed; nothing else is
written but the freelist. -/
structure Taken (n : Nat) (s t : Kernel) : Prop where
  cursor : t.cursor = s.cursor + 4096*n
  counter : t.counter = s.counter + n
  fresh : ∀ x, s.cursor ≤ x → x < s.cursor + 4096*n → t.mem x = 0
  zero : ∀ x, s.mem x = 0 → t.mem x = 0
  kept : ∀ x, x < s.cursor ∨ s.cursor + 4096*n ≤ x →
    x < direct s.freelist + 4*s.counter ∨ direct s.freelist + 4*(s.counter+n) ≤ x →
    t.mem x = s.mem x
  log : t.log = takenLog s.cursor s.counter n ++ s.log
  others : t.others = s.others

theorem takenLog_add (p c n k : Nat) :
    takenLog p c (n+k) = takenLog (p + 4096*n) (c+n) k ++ takenLog p c n := by
  induction k with
  | zero => rfl
  | succ k ih =>
    rw [← Nat.add_assoc, takenLog, takenLog, ih, Nat.mul_add, Nat.add_assoc, Nat.add_assoc c]
    rfl

theorem Taken.refl (s : Kernel) : Taken 0 s s :=
  ⟨rfl, rfl, fun x _ _ => by omega, fun _ h => h, fun _ _ _ => rfl, rfl, rfl⟩

section Fields

variable {n : Nat} {s t : Kernel} (h : Taken n s t)
include h

theorem Taken.freelist : t.freelist = s.freelist := congrArg (·.freelist) h.others

theorem Taken.pml4Shared : t.pml4Shared = s.pml4Shared := congrArg (·.pml4Shared) h.others

theorem Taken.virtBaseForUser : t.virtBaseForUser = s.virtBaseForUser :=
  congrArg (·.virtBaseForUser) h.others

theorem Taken.cr3 : t.cr3 = s.cr3 := congrArg (·.cr3) h.others

theorem Taken.usrPhysAddr : t.usrPhysAddr = s.usrPhysAddr := congrArg (·.usrPhysAddr) h.others

end Fields

theorem Taken.trans {n k : Nat} {s t u : Kernel} (h : Taken n s t) (g : Taken k t u) :
    Taken (n+k) s u := by
  have hc := h.cursor
  have hn := h.counter
  have hf := h.freelist
  refine ⟨?_, ?_, ?_, fun x hx => g.zero x (h.zero x hx), ?_, ?_, g.others.trans h.others⟩
  · rw [g.cursor, hc]
    omega
  · rw [g.counter, hn]
    omega
  · intro x hl hu
    rcases Nat.lt_or_ge x t.cursor with hx | hx
    · exact g.zero x (h.fresh x hl (by omega))
    · exact g.fresh x hx (by omega)
  · intro x hx hs
    rw [g.kept x (by omega) (by rw [hf, hn]; omega), h.kept x (by omega) (by omega)]
  · rw [g.log, h.log, hc, hn, takenLog_add, List.append_assoc]

theorem take_taken (s : Kernel) (p q : Nat) (hp : s.cursor = p) : Taken 1 s (s.take p q) := by
  subst hp
  constructor
  case cursor => exact cursor_latched _ rfl
  case counter => rfl
  case fresh =>
    intro x hl hu
    rw [Kernel.take]
    simp only [clear]
    split_ifs <;> first | rfl | omega
  case zero =>
    intro x hx
    rw [Kernel.take]
    simp only [clear, hx, ite_self]
  case kept =>
    intro x hx hs
    rw [Kernel.take]
    simp only
    rw [clear_outside _ _ _ _ (by omega), clear_outside _ _ _ _ (by omega)]
  case log =>
    rw [Kernel.take, takenLog, takenLog, Nat.mul_zero, Nat.add_zero, Nat.add_zero]
    rfl
  case others => exact others_update s _ _ _ _ _ _

theorem pageAlloc_taken (s : Kernel) (hlt : s.cursor + 4096 < 2^64) :
    ∃ t, pageAlloc s = (add64 s.cursor virtBase, t) ∧ Taken 1 s t := by
  obtain ⟨q, he⟩ := pageAlloc_eq s s.cursor rfl hlt
  exact ⟨_, he, take_taken s _ q rfl⟩

theorem pageAllocs_taken (n : Nat) (s : Kernel) (hlt : s.cursor + 4096*n < 2^64) :
    Taken n s (pageAllocs n s) := by
  induction n generalizing s with
  | zero =>
    rw [pageAllocs_zero]
    exact Taken.refl s
  | succ n ih =>
    rw [Nat.mul_succ, ← Nat.add_assoc] at hlt
    obtain ⟨t, he, h1⟩ := pageAlloc_taken s (by omega)
    have hc := h1.cursor
    have hn := ih t (by omega)
    rw [pageAllocs_succ, he, Nat.add_comm n 1]
    exact h1.trans hn

/-- The count is never 0 when the loop decrements it. -/
theorem kmalloc_count {sz : Nat} (hsz : 1 ≤ sz) (h32 : (sz+4095)/4096 < 2^32) :
    ((if 0 < sz % pageSize % 2^32 then (sz / pageSize % 2^32 + 1) % 2^32
      else sz / pageSize % 2^32) + (2^32-1)) % 2^32 = (sz+4095)/4096 - 1 := by
  unfold pageSize
  split_ifs <;> omega

/-- kmalloc takes `ceil(sz / 4096)` pages in one go. -/
theorem kmalloc_eq (sz : Nat) (s : Kernel) (hsz : 1 ≤ sz) (h32 : (sz+4095)/4096 < 2^32) :
    kmalloc sz s = ((pageAlloc s).1, pageAllocs ((sz+4095)/4096 - 1) (pageAlloc s).2) := by
  rw [kmalloc, kmalloc_count hsz h32]

theorem kmalloc_taken (sz : Nat) (s : Kernel) (hsz : 1 ≤ sz) (h32 : (sz+4095)/4096 < 2^32)
    (hlt : s.cursor + 4096*((sz+4095)/4096) < 2^64) :
    ∃ t, kmalloc sz s = (add64 s.cursor virtBase, t) ∧ Taken ((sz+4095)/4096) s t := by
  have he := kmalloc_eq sz s hsz h32
  obtain ⟨n, hn⟩ : ∃ n, (sz+4095)/4096 = 1+n := ⟨(sz+4095)/4096 - 1, by omega⟩
  rw [hn, Nat.add_sub_cancel_left] at he
  rw [hn, Nat.mul_add, ← Nat.add_assoc] at hlt
  obtain ⟨t, hp, h1⟩ := pageAlloc_taken s (by omega)
  have hc := h1.cursor
  have hk := pageAllocs_taken n t (by omega)
  rw [hn]
  exact ⟨pageAllocs n t, by rw [he, hp], h1.trans hk⟩

/-- The pages page_alloc has returned, newest first. -/
def pagesIn (log : List Event) : List Nat :=
  log.filterMap fun
    | .page p => some p
    | _ => none

/-- The pages get_page gave out during boot. -/
def earlyIn (log : List Event) : List Nat :=
  log.filterMap fun
    | .early p => some p
    | _ => none

theorem pagesIn_takenLog (p c n : Nat) (hp : p + 4096*n ≤ 2^31) :
    pagesIn (takenLog p c n) =
      ((List.range n).map fun j => virtBase + p + 4096*j).reverse := by
  induction n with
  | zero => rfl
  | succ n ih =>
    rw [Nat.mul_succ, ← Nat.add_assoc] at hp
    have hv : add64 (p + 4096*n) virtBase = virtBase + p + 4096*n := by
      rw [add64_of_lt _ _ (by unfold virtBase; omega)]
      ring
    rw [List.range_succ, List.map_append, List.reverse_append, ← ih (by omega), takenLog, hv]
    rfl

theorem pagesIn_append (l l' : List Event) : pagesIn (l++l') = pagesIn l ++ pagesIn l' :=
  List.filterMap_append

theorem earlyIn_earlyLog (pf t : Nat) :
    earlyIn (earlyLog pf t) = ((List.range t).map fun j => pool pf + 4096*j).reverse := by
  induction t with
  | zero => rfl
  | succ t ih =>
    rw [List.range_succ, List.map_append, List.reverse_append, ← ih, earlyLog]
    rfl

/-- A call of either allocator. -/
inductive AllocCall where
  | pageAlloc
  | kmalloc (sz : Nat)
  deriving DecidableEq, Repr

def AllocCall.pages : AllocCall → Nat
  | .pageAlloc => 1
  | .kmalloc sz => (sz+4095)/4096

def AllocCall.Valid : AllocCall → Prop
  | .pageAlloc => True
  | .kmalloc sz => 1 ≤ sz ∧ (sz+4095)/4096 < 2^32

def AllocCall.run : AllocCall → Kernel → Nat × Kernel
  | .pageAlloc, s => SBUnix.pageAlloc s
  | .kmalloc sz, s => SBUnix.kmalloc sz s

theorem AllocCall.Valid.pages_pos {c : AllocCall} (h : c.Valid) : 0 < c.pages := by
  cases c with
  | pageAlloc => exact Nat.one_pos
  | kmalloc sz =>
    have := h.1
    simp only [AllocCall.pages]
    omega

/-- A sequence of calls, with the region each returned: its address and length. -/
def runAllocs (calls : List AllocCall) (s : Kernel) : List (Nat × Nat) × Kernel :=
  calls.foldl (fun r c =>
    let t := c.run r.2
    (r.1 ++ [(t.1, 4096*c.pages)], t.2)) ([], s)

theorem AllocCall.Valid.run_eq {c : AllocCall} (h : c.Valid) (s : Kernel) :
    c.run s = ((SBUnix.pageAlloc s).1, pageAllocs (c.pages-1) (SBUnix.pageAlloc s).2) := by
  cases c with
  | pageAlloc => rfl
  | kmalloc sz => exact kmalloc_eq sz s h.1 h.2

theorem AllocCall.run_taken (c : AllocCall) (s : Kernel) (hc : c.Valid)
    (hlt : s.cursor + 4096*c.pages < 2^64) :
    ∃ t, c.run s = (add64 s.cursor virtBase, t) ∧ Taken c.pages s t := by
  cases c with
  | pageAlloc => exact pageAlloc_taken s hlt
  | kmalloc sz => exact kmalloc_taken sz s hc.1 hc.2 hlt

theorem runAllocs_cons (c : AllocCall) (calls : List AllocCall) (s : Kernel) :
    runAllocs (c::calls) s =
      (((c.run s).1, 4096*c.pages) :: (runAllocs calls (c.run s).2).1,
        (runAllocs calls (c.run s).2).2) := by
  have hacc (l : List (Nat × Nat)) (t : Kernel) : calls.foldl (fun r c =>
      let t := c.run r.2
      (r.1 ++ [(t.1, 4096*c.pages)], t.2)) (l, t) =
        (l ++ (runAllocs calls t).1, (runAllocs calls t).2) := by
    induction calls generalizing l t with
    | nil => simp [runAllocs]
    | cons d calls ih =>
      have hfirst : runAllocs (d::calls) t = _ := ih [((d.run t).1, 4096*d.pages)] (d.run t).2
      rw [List.foldl_cons, ih, hfirst]
      simp
  rw [runAllocs, List.foldl_cons, hacc]
  rfl

theorem runAllocs_snoc (calls : List AllocCall) (c : AllocCall) (s : Kernel) :
    runAllocs (calls++[c]) s =
      ((runAllocs calls s).1 ++ [((c.run (runAllocs calls s).2).1, 4096*c.pages)],
        (c.run (runAllocs calls s).2).2) := by
  rw [runAllocs, List.foldl_append]
  rfl

/-- The two allocators together are one pointer that only moves up. -/
theorem runAllocs_spec (calls : List AllocCall) (s : Kernel) (hv : ∀ c ∈ calls, c.Valid)
    (hw : s.cursor + 4096*(calls.map AllocCall.pages).sum ≤ 2^31) :
    ∃ t, runAllocs calls s = (BumpAllocator.regions (virtBase + s.cursor)
      (calls.map fun c => 4096*c.pages), t) ∧ Taken (calls.map AllocCall.pages).sum s t := by
  induction calls using List.reverseRecOn with
  | nil => exact ⟨s, rfl, Taken.refl s⟩
  | append_singleton calls c ih =>
    have hsum : ((calls++[c]).map AllocCall.pages).sum =
        (calls.map AllocCall.pages).sum + c.pages := by simp
    rw [hsum, Nat.mul_add, ← Nat.add_assoc] at hw
    obtain ⟨t, he, ht⟩ := ih (fun d hd => hv d (List.mem_append_left _ hd)) (by omega)
    have hcur := ht.cursor
    have hvc := hv c (by simp)
    have hpos := hvc.pages_pos
    obtain ⟨u, hu, hut⟩ := c.run_taken t hvc (by omega)
    have haddr : add64 t.cursor virtBase = virtBase + s.cursor +
        (calls.map fun c => 4096*c.pages).sum := by
      rw [add64_of_lt _ _ (by unfold virtBase; omega), hcur, List.sum_map_mul_left]
      ring
    refine ⟨u, ?_, ?_⟩
    · rw [runAllocs_snoc, he, List.map_append, BumpAllocator.regions_append, hu, haddr]
      rfl
    · rw [hsum]
      exact ht.trans hut

theorem booted_cursor {m : Mem} {pf : Nat} {s : Kernel} (h : Booted m pf s) :
    s.cursor = pool pf + 4096*99 := by
  have hflag : s.virtToPhyFlag.toNat = 0 := congrArg (·.getD 3 0) h.config
  rw [Kernel.cursor, if_neg (by intro hf; rw [hf] at hflag; cases hflag), h.pdesc]

/-- Every sequence of page_alloc and kmalloc calls after boot: what each call takes and
returns, and that no two regions meet each other or a page that boot gave out. -/
theorem runAllocs_regions (m : Mem) (pf : Nat) (hp : pf % 4096 = 0) (calls : List AllocCall)
    (hv : ∀ c ∈ calls, c.Valid)
    (hw : pool pf + 4096*(99 + (calls.map AllocCall.pages).sum) ≤ 2^31) :
    (∀ xs c ys, calls = xs ++ c::ys →
      let s := (runAllocs xs (booted m pf)).2
      let r := c.run s
      r.2.counter = s.counter + c.pages ∧
      pagesIn r.2.log =
        ((List.range c.pages).map fun j => r.1 + 4096*j).reverse ++ pagesIn s.log ∧
      ∀ x, x < 4096*c.pages → r.2.mem (direct (r.1 + x)) = 0) ∧
    (runAllocs calls (booted m pf)).1.Pairwise BumpAllocator.Disjoint ∧
    (earlyIn (booted m pf).log).length = 99 ∧
    ∀ g ∈ (runAllocs calls (booted m pf)).1, ∀ q ∈ earlyIn (booted m pf).log,
      BumpAllocator.Disjoint g (virtBase + q, 4096) := by
  have hb := booted_spec m pf hp (by unfold pool at hw; omega)
  have hcur := booted_cursor hb
  rw [Nat.mul_add, ← Nat.add_assoc] at hw
  have hlog := earlyIn_earlyLog pf 99
  rw [← hb.log] at hlog
  obtain ⟨t, he, -⟩ := runAllocs_spec calls (booted m pf) hv (by omega)
  refine ⟨?_, ?_, ?_, ?_⟩
  · intro xs c ys hsplit
    have hsum : (calls.map AllocCall.pages).sum = (xs.map AllocCall.pages).sum + (c.pages +
        (ys.map AllocCall.pages).sum) := by rw [hsplit]; simp
    rw [hsum, Nat.mul_add, ← Nat.add_assoc, Nat.mul_add, ← Nat.add_assoc] at hw
    obtain ⟨s, hs, hst⟩ := runAllocs_spec xs (booted m pf)
      (fun d hd => hv d (by rw [hsplit]; simp [hd])) (by omega)
    have hsc := hst.cursor
    have hvc := hv c (by rw [hsplit]; simp)
    have hpos := hvc.pages_pos
    obtain ⟨u, hu, hut⟩ := c.run_taken s hvc (by omega)
    have haddr : add64 s.cursor virtBase = virtBase + s.cursor := by
      rw [add64_of_lt _ _ (by unfold virtBase; omega), Nat.add_comm]
    rw [hs]
    simp only [hu, haddr]
    refine ⟨hut.counter, ?_, ?_⟩
    · rw [hut.log, pagesIn_append, pagesIn_takenLog _ _ _ (by omega)]
    · intro x hx
      rw [direct, sub64_of_le _ _ (by omega) (by unfold virtBase; omega),
        Nat.add_assoc, Nat.add_sub_cancel_left]
      exact hut.fresh _ (by omega) (by omega)
  · rw [he]
    exact BumpAllocator.regions_disjoint _ _
  · rw [hlog]
    simp
  · intro g hg q hq
    rw [he] at hg
    rw [hlog, List.mem_reverse, List.mem_map] at hq
    obtain ⟨j, hj, rfl⟩ := hq
    rw [List.mem_range] at hj
    have hg := (BumpAllocator.regions_bounds _ _ _ hg).1
    exact Or.inr (by simp only; omega)

/-- What one step of the history has to respect: a page is one of those set_pages laid out
and is mapped, an index into the freelist is one set_free_list filled. -/
def WithinPool (pf : Nat) : Event → Prop
  | .page p => (∃ k < numberOfPages, p = add64 (pool pf + 4096*k) virtBase) ∧
      virtBase ≤ p ∧ p + 4096 ≤ virtBase + 49*0x200000
  | .slot k => k < numberOfPages
  | _ => True

theorem mem_takenLog (p c n : Nat) (e : Event) :
    e ∈ takenLog p c n ↔
      ∃ j < n, e = .page (add64 (p + 4096*j) virtBase) ∨ e = .slot (c+j) := by
  induction n with
  | zero => simp [takenLog]
  | succ n ih =>
    rw [takenLog, List.mem_cons, List.mem_cons, ih]
    constructor
    · rintro (rfl | rfl | ⟨j, hj, h⟩)
      · exact ⟨n, by omega, Or.inl rfl⟩
      · exact ⟨n, by omega, Or.inr rfl⟩
      · exact ⟨j, by omega, h⟩
    · rintro ⟨j, hj, h⟩
      rcases Nat.lt_succ_iff_lt_or_eq.mp hj with hlt | rfl
      · exact Or.inr (Or.inr ⟨j, hlt, h⟩)
      · rcases h with rfl | rfl
        · exact Or.inl rfl
        · exact Or.inr (Or.inl rfl)

theorem mem_earlyLog (pf t : Nat) (e : Event) (h : e ∈ earlyLog pf t) :
    ∃ j < t, e = .slot j ∨ e = .early (pool pf + 4096*j) := by
  induction t with
  | zero => simp [earlyLog] at h
  | succ t ih =>
    rw [earlyLog, List.mem_cons, List.mem_cons] at h
    rcases h with rfl | rfl | h
    · exact ⟨t, by omega, Or.inl rfl⟩
    · exact ⟨t, by omega, Or.inr rfl⟩
    · obtain ⟨j, hj, he⟩ := ih h
      exact ⟨j, by omega, he⟩

theorem withinPool_page_iff (pf k : Nat) (hp : pf % 4096 = 0) (hf : pf < 2^52)
    (hk : k < numberOfPages) :
    WithinPool pf (.page (add64 (pool pf + 4096*k) virtBase)) ↔
      pool pf + 4096*k + 4096 ≤ 49*0x200000 := by
  have hb := pool_aligned hp
  have hk' : k < 24576 := hk
  have hlt : pool pf < 2^53 := by unfold pool; omega
  simp only [WithinPool]
  constructor
  · rintro ⟨-, hlo, hhi⟩
    unfold add64 virtBase at hlo hhi
    omega
  · intro h
    refine ⟨⟨k, hk, rfl⟩, ?_, ?_⟩
    · unfold add64 virtBase
      omega
    · unfold add64 virtBase
      omega

theorem pageAllocs_log (m : Mem) (pf n : Nat) (hp : pf % 4096 = 0) (hf : pf < 2^52)
    (hn : n < 2^32) :
    (pageAllocs n (booted m pf)).log =
      takenLog (pool pf + 4096*99) 99 n ++ earlyLog pf 99 := by
  have hb := booted_spec m pf hp hf
  have hcur := booted_cursor hb
  have ht := pageAllocs_taken n (booted m pf) (by rw [hcur]; unfold pool; omega)
  rw [ht.log, hcur, hb.counter, hb.log]

theorem pageAlloc_log_mem (s : Kernel) (e : Event) (h : e ∈ s.log) : e ∈ (pageAlloc s).2.log := by
  unfold pageAlloc
  exact List.mem_cons_of_mem _ (List.mem_cons_of_mem _ h)

theorem pageAllocs_log_mem (n : Nat) (s : Kernel) (e : Event) (h : e ∈ s.log) :
    e ∈ (pageAllocs n s).log := by
  induction n generalizing s with
  | zero =>
    rw [pageAllocs_zero]
    exact h
  | succ n ih =>
    rw [pageAllocs_succ]
    exact ih _ (pageAlloc_log_mem s e h)

/-- page_alloc never looks at the end of its pool: a run of it stays within the pool, the
freelist and the window exactly as long as its length allows. -/
theorem pageAllocs_within_iff (m : Mem) (pf n : Nat) (hp : pf % 4096 = 0) (hf : pf < 2^52) :
    (∀ e ∈ (pageAllocs n (booted m pf)).log, WithinPool pf e) ↔
      n = 0 ∨ 99+n ≤ numberOfPages ∧ pool pf + 4096*(99+n) ≤ 49*0x200000 := by
  constructor
  · intro h
    have hn : n ≤ 24477 := by
      by_contra hlt
      obtain ⟨k, rfl⟩ := Nat.exists_eq_add_of_le (show 24478 ≤ n by omega)
      have hsplit : pageAllocs (24478+k) (booted m pf) =
          pageAllocs k (pageAllocs 24478 (booted m pf)) := by
        rw [Nat.add_comm]
        exact Function.iterate_add_apply _ k 24478 _
      have hslot : Event.slot 24576 ∈ (pageAllocs 24478 (booted m pf)).log := by
        rw [pageAllocs_log m pf 24478 hp hf (by norm_num), List.mem_append, mem_takenLog]
        exact Or.inl ⟨24477, by norm_num, Or.inr rfl⟩
      rw [hsplit] at h
      exact absurd (h _ (pageAllocs_log_mem k _ _ hslot)) (by norm_num [WithinPool, numberOfPages])
    rcases Nat.eq_zero_or_pos n with h0 | h0
    · exact Or.inl h0
    · right
      rw [pageAllocs_log m pf n hp hf (by omega)] at h
      obtain ⟨j, rfl⟩ : ∃ j, n = j+1 := ⟨n-1, by omega⟩
      have hpage := h (.page (add64 (pool pf + 4096*99 + 4096*j) virtBase)) (by
        rw [List.mem_append, mem_takenLog]
        exact Or.inl ⟨j, by omega, Or.inl rfl⟩)
      rw [Nat.add_assoc, ← Nat.mul_add,
        withinPool_page_iff pf _ hp hf (by unfold numberOfPages; omega)] at hpage
      refine ⟨by unfold numberOfPages; omega, ?_⟩
      rw [← Nat.add_assoc 99, Nat.mul_succ, ← Nat.add_assoc]
      exact hpage
  · rintro (rfl | ⟨hN, hW⟩) e he
    · rw [pageAllocs_log m pf 0 hp hf (by norm_num)] at he
      obtain ⟨j, hj, rfl | rfl⟩ := mem_earlyLog pf 99 e he
      · exact lt_trans hj (by norm_num [numberOfPages])
      · trivial
    · have hN' : 99+n ≤ 24576 := hN
      rw [pageAllocs_log m pf n hp hf (by omega), List.mem_append, mem_takenLog] at he
      rcases he with ⟨j, hj, rfl | rfl⟩ | he
      · rw [Nat.add_assoc, ← Nat.mul_add,
          withinPool_page_iff pf _ hp hf (by unfold numberOfPages; omega)]
        calc pool pf + 4096*(99+j) + 4096 = pool pf + 4096*(99+j+1) := by ring
          _ ≤ pool pf + 4096*(99+n) :=
            Nat.add_le_add_left (Nat.mul_le_mul_left _ (by omega)) _
          _ ≤ 49*0x200000 := hW
      · show 99+j < numberOfPages
        unfold numberOfPages
        omega
      · obtain ⟨j, hj, rfl | rfl⟩ := mem_earlyLog pf 99 e he
        · exact lt_trans hj (by norm_num [numberOfPages])
        · trivial

theorem pageAllocs_within_first :
    0x300000 % 4096 = 0 ∧
    ∀ e ∈ (pageAllocs 1 (booted (fun _ => 0) 0x300000)).log, WithinPool 0x300000 e :=
  ⟨by norm_num, (pageAllocs_within_iff (fun _ => 0) 0x300000 1 (by norm_num) (by norm_num)).mpr
    (Or.inr ⟨by norm_num [numberOfPages], by norm_num [pool]⟩)⟩

/-- Call number 24198 after boot: the page above the last mapped one. -/
theorem pageAllocs_leaves_window :
    Event.page (virtBase + 49*0x200000) ∈
      (pageAllocs 24198 (booted (fun _ => 0) 0x300000)).log ∧
    ¬WithinPool 0x300000 (.page (virtBase + 49*0x200000)) := by
  constructor
  · rw [pageAllocs_log _ _ _ (by norm_num) (by norm_num) (by norm_num), List.mem_append,
      mem_takenLog]
    refine Or.inl ⟨24197, by norm_num, Or.inl ?_⟩
    rw [add64_of_lt _ _ (by norm_num [pool, virtBase])]
    norm_num [pool, virtBase]
  · rintro ⟨-, -, h⟩
    omega

end SBUnix
