import SBUnix.Paging.UserAddresses

namespace SBUnix

open ByteMemory Word BumpAllocator

/-- The next `_pdesc`. -/
def nextPage (c : Nat) : Nat := add64 c (pageDescSize*pdescPgInc)

/-- The frames get_user_phys_addr has handed out, newest first. -/
def framesIn (log : List Event) : List Nat :=
  log.filterMap fun
    | .frame f => some f
    | _ => none

/-- The two allocators: where each stands and what it has given out. -/
@[ext] structure Pools where
  cursor : Nat
  pages : List Nat
  frame : Nat
  frames : List Nat

def Kernel.pools (s : Kernel) : Pools :=
  ⟨s.cursor, pagesIn s.log, s.usrPhysAddr, framesIn s.log⟩

/-- After `n` calls of page_alloc and `m` of get_user_phys_addr(0), in any order. -/
def Pools.draw (p : Pools) (n m : Nat) : Pools where
  cursor := nextPage^[n] p.cursor
  pages := (draws nextPage p.cursor n).map (add64 · virtBase) ++ p.pages
  frame := nextFrame^[m] p.frame
  frames := draws nextFrame p.frame m ++ p.frames

theorem Pools.draw_zero (p : Pools) : p.draw 0 0 = p := rfl

theorem Pools.draw_draw (p : Pools) (n m k l : Nat) :
    (p.draw n m).draw k l = p.draw (n+k) (m+l) := by
  ext1
  · exact (Function.iterate_add_apply nextPage k n p.cursor).symm.trans (by rw [draw, Nat.add_comm])
  · simp only [draw, draws_add, List.map_append, List.append_assoc]
  · exact (Function.iterate_add_apply nextFrame l m p.frame).symm.trans (by rw [draw, Nat.add_comm])
  · simp only [draw, draws_add, List.append_assoc]

/-- The allocators have been used, but nothing was given back. -/
def Pools.Later (p q : Pools) : Prop := ∃ n m, q = p.draw n m

theorem Pools.Later.refl (p : Pools) : p.Later p := ⟨0, 0, rfl⟩

theorem Pools.Later.trans {p q r : Pools} (h : p.Later q) (g : q.Later r) : p.Later r := by
  obtain ⟨n, m, rfl⟩ := h
  obtain ⟨k, l, rfl⟩ := g
  exact ⟨n+k, m+l, p.draw_draw n m k l⟩

theorem Pools.Later.pages_subset {p q : Pools} (h : p.Later q) {x : Nat} (hx : x ∈ p.pages) :
    x ∈ q.pages := by
  obtain ⟨n, m, rfl⟩ := h
  exact List.mem_append_right _ hx

theorem Pools.Later.nodup {p q : Pools} (h : p.Later q) (hq : q.pages.Nodup) : p.pages.Nodup := by
  obtain ⟨n, m, rfl⟩ := h
  exact hq.of_append_right

theorem nextPage_aligned (n c : Nat) (h : c % pageSize = 0) : nextPage^[n] c % pageSize = 0 := by
  induction n generalizing c with
  | zero => exact h
  | succ n ih =>
    rw [Function.iterate_succ_apply]
    apply ih
    unfold nextPage add64 pageDescSize pdescPgInc pageSize at *
    omega

theorem Pools.Later.aligned {p q : Pools} (h : p.Later q) (hc : p.cursor % pageSize = 0) :
    q.cursor % pageSize = 0 := by
  obtain ⟨n, m, rfl⟩ := h
  exact nextPage_aligned n p.cursor hc

theorem nextPage_iterate (n c : Nat) (h : c + 4096*n < 2^64) : nextPage^[n] c = c + 4096*n := by
  induction n with
  | zero => rfl
  | succ n ih =>
    rw [Function.iterate_succ_apply', ih (by omega)]
    unfold nextPage add64 pageDescSize pdescPgInc
    omega

/-- At most `N` pages have been taken. -/
def Pools.Within (N : Nat) (p q : Pools) : Prop := ∃ n ≤ N, ∃ m, q = p.draw n m

theorem Pools.Within.later {N : Nat} {p q : Pools} (h : p.Within N q) : p.Later q := by
  obtain ⟨n, -, m, hq⟩ := h
  exact ⟨n, m, hq⟩

theorem Pools.Within.trans {N K : Nat} {p q r : Pools} (h : p.Within N q) (g : q.Within K r) :
    p.Within (N+K) r := by
  obtain ⟨n, hn, m, rfl⟩ := h
  obtain ⟨k, hk, l, rfl⟩ := g
  exact ⟨n+k, by omega, m+l, p.draw_draw n m k l⟩

theorem Pools.Within.mono {N K : Nat} {p q : Pools} (h : p.Within N q) (hNK : N ≤ K) :
    p.Within K q := by
  obtain ⟨n, hn, m, hq⟩ := h
  exact ⟨n, by omega, m, hq⟩

theorem Pools.Within.cursor_le {N : Nat} {p q : Pools} (h : p.Within N q)
    (hN : p.cursor + 4096*N < 2^64) : q.cursor ≤ p.cursor + 4096*N := by
  obtain ⟨n, hn, m, rfl⟩ := h
  have hat : (p.draw n m).cursor = p.cursor + 4096*n := nextPage_iterate n p.cursor (by omega)
  omega

/-- Below the end of the address space no page comes twice. -/
theorem Pools.Within.nodup {N : Nat} {p q : Pools} (h : p.Within N q) (hp : p.pages = [])
    (hN : p.cursor + 4096*N < 2^64) : q.pages.Nodup := by
  obtain ⟨n, hn, m, rfl⟩ := h
  have hat (j : Nat) (hj : j ≤ n) : nextPage^[j] p.cursor = p.cursor + 4096*j :=
    nextPage_iterate j p.cursor (by omega)
  rw [Pools.draw, hp, List.append_nil]
  refine List.Nodup.map_on ?_ (draws_nodup _ _ _ ?_)
  · intro x hx y hy hxy
    obtain ⟨i, hi, rfl⟩ := (mem_draws _ _ _ _).mp hx
    obtain ⟨j, hj, rfl⟩ := (mem_draws _ _ _ _).mp hy
    rw [hat i (by omega), hat j (by omega)] at hxy ⊢
    unfold add64 SBUnix.virtBase at hxy
    omega
  · intro i hi j hj
    rw [hat i (by omega), hat j (by omega)]
    omega

section Frames

variable (s : Kernel)

theorem pageAlloc_fst : (pageAlloc s).1 = add64 s.cursor virtBase := by
  rw [pageAlloc]

/-- Over any new memory, for the same reason as others_update. -/
theorem pools_update (m : Mem) (d p c : Nat) (l : List Event) :
    Kernel.pools { s with
      mem := m, pdesc := d, pdescPhys := p, virtToPhyFlag := true, counter := c, log := l } =
    ⟨p, pagesIn l, s.usrPhysAddr, framesIn l⟩ := rfl

theorem pageAlloc_pools : (pageAlloc s).2.pools = s.pools.draw 1 0 := by
  rw [pageAlloc]
  dsimp only
  rw [pools_update]
  rfl

theorem pageAllocs_pools (n : Nat) : (pageAllocs n s).pools = s.pools.draw n 0 := by
  induction n generalizing s with
  | zero => rw [pageAllocs_zero, Pools.draw_zero]
  | succ n ih => rw [pageAllocs_succ, ih, pageAlloc_pools, Pools.draw_draw, Nat.add_comm 1 n]

theorem kmalloc_fst (sz : Nat) : (kmalloc sz s).1 = add64 s.cursor virtBase := by
  rw [kmalloc]
  dsimp only
  rw [pageAlloc_fst]

theorem kmalloc_pools (sz : Nat) :
    ∃ n < 2^32, (kmalloc sz s).2.pools = s.pools.draw (1+n) 0 := by
  rw [kmalloc]
  dsimp only
  rw [pageAllocs_pools, pageAlloc_pools, Pools.draw_draw]
  exact ⟨_, Nat.mod_lt _ (by norm_num), rfl⟩

theorem kmalloc_pools_exact (sz : Nat) (hsz : 1 ≤ sz) (h32 : (sz+4095)/4096 < 2^32) :
    (kmalloc sz s).2.pools = s.pools.draw ((sz+4095)/4096) 0 := by
  rw [kmalloc_eq sz s hsz h32, pageAllocs_pools, pageAlloc_pools, Pools.draw_draw,
    show 1 + ((sz+4095)/4096 - 1) = (sz+4095)/4096 by omega]

theorem kmalloc_within (sz : Nat) : s.pools.Within (2^32) (kmalloc sz s).2.pools := by
  obtain ⟨n, hn, h⟩ := kmalloc_pools s sz
  exact ⟨1+n, by omega, 0, h⟩

theorem kmalloc_later (sz : Nat) : s.pools.Later (kmalloc sz s).2.pools :=
  (kmalloc_within s sz).later

/-- What kmalloc returns is new, as long as page_alloc has not come round. -/
theorem kmalloc_fresh (sz : Nat) (hn : (kmalloc sz s).2.pools.pages.Nodup) :
    (kmalloc sz s).1 ∈ (kmalloc sz s).2.pools.pages ∧ (kmalloc sz s).1 ∉ s.pools.pages := by
  obtain ⟨n, -, h⟩ := kmalloc_pools s sz
  have hmem : (kmalloc sz s).1 ∈
      (draws nextPage s.pools.cursor (1+n)).map (add64 · SBUnix.virtBase) := by
    rw [kmalloc_fst, List.mem_map]
    exact ⟨s.cursor, (mem_draws _ _ _ _).mpr ⟨0, by omega, rfl⟩, rfl⟩
  rw [h] at hn ⊢
  exact ⟨List.mem_append_left _ hmem, List.disjoint_of_nodup_append hn hmem⟩

theorem getTable_pools (lookup off : Nat) :
    ∃ n ≤ 1, (getTable lookup off s).2.pools = s.pools.draw n 0 := by
  rcases getTable_cases s lookup off with h | h
  · exact ⟨0, by omega, by rw [h, Pools.draw_zero]⟩
  · exact ⟨1, by omega, by rw [h, pageAlloc_pools]⟩

theorem findTables_pools (addr : Nat) :
    ∃ n ≤ 3, (findTables addr s).2.pools = s.pools.draw n 0 := by
  rw [findTables]
  simp only [getPdp, getPd, getPt]
  obtain ⟨i, hi, h1⟩ := getTable_pools s s.pml4Shared (getPml4Offset addr)
  obtain ⟨j, hj, h2⟩ := getTable_pools (getTable s.pml4Shared (getPml4Offset addr) s).2
    (roundDown (getTable s.pml4Shared (getPml4Offset addr) s).1 pageSize) (getPdpOffset addr)
  obtain ⟨k, hk, h3⟩ := getTable_pools
    (getTable (roundDown (getTable s.pml4Shared (getPml4Offset addr) s).1 pageSize)
      (getPdpOffset addr) (getTable s.pml4Shared (getPml4Offset addr) s).2).2 _ _
  exact ⟨i+(j+k), by omega, by rw [h3, h2, h1, Pools.draw_draw, Pools.draw_draw]⟩

theorem pools_congr {s t : Kernel} (hf : t.virtToPhyFlag = s.virtToPhyFlag)
    (hp : t.pdescPhys = s.pdescPhys) (hd : t.pdesc = s.pdesc) (hu : t.usrPhysAddr = s.usrPhysAddr)
    (hl : t.log = s.log) : t.pools = s.pools := by
  simp only [Kernel.pools, Kernel.cursor, hf, hp, hd, hu, hl]

theorem setUser_pools (t : Tables) : (s.setUser t).pools = s.pools :=
  pools_congr rfl rfl rfl rfl rfl

theorem tlbFlush_pools (p : Nat) : (tlbFlush p s).pools = s.pools :=
  pools_congr rfl rfl rfl rfl rfl

theorem getUserVirtAddr_pools : (getUserVirtAddr false s).2.pools = s.pools :=
  pools_congr rfl rfl rfl rfl rfl

theorem incrementPml_pools : (incrementPml s).2.pools = s.pools := by
  cases s
  exact pools_congr rfl rfl rfl rfl rfl

theorem setNewKpts_pools (ptk virt pdp pd pml phys : Nat) :
    (setNewKpts ptk virt pdp pd pml phys s).pools = s.pools := by
  rw [setNewKpts]
  exact pools_congr rfl rfl rfl rfl rfl

theorem addUserPage_pools (virt pdp pd ptu perm : Nat) :
    (addUserPage virt pdp pd ptu perm s).pools = s.pools.draw 0 1 := by
  rw [addUserPage, getUserPhysAddr, if_neg Bool.false_ne_true]
  cases s
  rfl

theorem addUserPages_pools (page : Nat → Nat) (pdp pd ptu perm n addr : Nat) :
    (addUserPages page pdp pd ptu perm n addr s).2.pools = s.pools.draw 0 n := by
  have hloop (k : Nat) (r : Nat × Kernel) :
      ((addAndAdvance page pdp pd ptu perm)^[k] r).2.pools = r.2.pools.draw 0 k := by
    induction k generalizing r with
    | zero => rw [Function.iterate_zero_apply, Pools.draw_zero]
    | succ k ih =>
      rw [Function.iterate_succ_apply, ih, addAndAdvance, addUserPage_pools, Pools.draw_draw,
        Nat.add_comm 1 k]
  rw [addUserPages]
  split_ifs with h
  · rw [h, Pools.draw_zero]
  · rw [addUserPage_pools, hloop, Pools.draw_draw, Nat.sub_add_cancel (Nat.pos_of_ne_zero h)]

theorem mapUser_pools (page : Nat → Nat) (addr perm n : Nat) :
    ∃ k ≤ 3, (mapUser page addr perm n s).2.pools = s.pools.draw k n := by
  obtain ⟨k, hk, h⟩ := findTables_pools s addr
  refine ⟨k, hk, ?_⟩
  rw [mapUser, addUserPages_pools, setUser_pools, h, Pools.draw_draw, Nat.zero_add]
  rfl

theorem changePermissions_pools (addr perm : Nat) :
    ∃ k ≤ 3, (changePermissions addr perm s).pools = s.pools.draw k 0 := by
  obtain ⟨k, hk, h⟩ := findTables_pools s addr
  refine ⟨k, hk, ?_⟩
  rw [← h, changePermissions]
  exact pools_congr rfl rfl rfl rfl rfl

theorem changePages_pools (addr perm n : Nat) :
    ∃ k ≤ 3*n, (changePages addr perm n s).pools = s.pools.draw k 0 := by
  have hloop (r : Nat × Kernel) :
      ∃ k ≤ 3*n, ((changeAndAdvance addr perm)^[n] r).2.pools = r.2.pools.draw k 0 := by
    induction n generalizing r with
    | zero => exact ⟨0, le_refl _, rfl⟩
    | succ n ih =>
      obtain ⟨i, hi, h1⟩ := changePermissions_pools r.2
        (roundDown (add64 addr (r.1*pageSize)) pageSize) perm
      obtain ⟨j, hj, h2⟩ := ih (changeAndAdvance addr perm r)
      refine ⟨i+j, by omega, ?_⟩
      rw [Function.iterate_succ_apply, h2, changeAndAdvance, h1, Pools.draw_draw]
  exact hloop (0, s)

theorem newContext_pools (n : Nat) : (newContext n s).2.pools = s.pools.draw 8 n := by
  simp only [newContext, addUserPages_pools, setNewKpts_pools, getUserVirtAddr_pools,
    pageAlloc_pools, Pools.draw_draw]
  rw [Nat.zero_add]

end Frames

/-- The frames a call of memmap takes for `n` pages. -/
def MapFlag.frames (n : Nat) : MapFlag → Nat
  | .rwToCow => 0
  | .setCowRw => 1
  | _ => n

/-- memmap and the two allocators: at most three tables a page, or the eight of a new address
space. -/
theorem memmap_pools (addr length prot : Nat) (flag : MapFlag) (s : Kernel) :
    ∃ k ≤ 3*pageCount length + 8, (memmap addr length prot flag s).2.pools =
      s.pools.draw k (flag.frames (pageCount length)) := by
  have hflush (r : Nat × Kernel) (p : Nat) : (tlbFlush p r.2).pools = r.2.pools :=
    tlbFlush_pools r.2 p
  simp only [memmap, hflush]
  cases flag with
  | accessedNotPresent =>
    obtain ⟨k, hk, h⟩ := mapUser_pools s (roundDown · pageSize) addr prot (pageCount length)
    exact ⟨k, by omega, h⟩
  | setCowRw =>
    obtain ⟨k, hk, h⟩ := mapUser_pools (getUserVirtAddr false s).2 (roundDown · pageSize)
      (getUserVirtAddr false s).1 prot 1
    rw [getUserVirtAddr_pools] at h
    exact ⟨k, by omega, h⟩
  | rwToCow =>
    obtain ⟨k, hk, h⟩ := changePages_pools s addr prot (intRounds (pageCount length))
    have hle : intRounds (pageCount length) ≤ pageCount length := by
      unfold intRounds
      split_ifs <;> omega
    exact ⟨k, by omega, h⟩
  | newPage =>
    rw [mapPagesFor]
    split_ifs
    · obtain ⟨k, hk, h⟩ := mapUser_pools (incrementPml (getUserVirtAddr false s).2).2 id
        (add64 (getUserVirtAddr false s).1 (incrementPml (getUserVirtAddr false s).2).1)
        usrPermBits (pageCount length)
      rw [incrementPml_pools, getUserVirtAddr_pools] at h
      exact ⟨k, by omega, h⟩
    · obtain ⟨k, hk, h⟩ := mapUser_pools (getUserVirtAddr false s).2 id
        (getUserVirtAddr false s).1 usrPermBits (pageCount length)
      rw [getUserVirtAddr_pools] at h
      exact ⟨k, by omega, h⟩
  | contextSwitch => exact ⟨8, by omega, newContext_pools s _⟩
  | growsDown =>
    obtain ⟨k, hk, h⟩ := mapUser_pools (getUserVirtAddr false s).2 (sub64 · pageSize)
      (getUserVirtAddr false s).1 usrPermBits (pageCount length)
    rw [getUserVirtAddr_pools] at h
    exact ⟨k, by omega, h⟩

theorem memmap_within (addr prot : Nat) (flag : MapFlag) (s : Kernel) :
    s.pools.Within 11 (memmap addr pageSize prot flag s).2.pools := by
  obtain ⟨k, hk, h⟩ := memmap_pools addr pageSize prot flag s
  exact ⟨k, hk, _, h⟩

theorem Booted.pools {m : Mem} {pf : Nat} {s : Kernel} (h : Booted m pf s) :
    s.pools.cursor = pool pf + 4096*99 ∧ s.pools.pages = [] := by
  have hearly (t : Nat) : pagesIn (earlyLog pf t) = [] := by
    induction t with
    | zero => rfl
    | succ t ih => exact ih
  rw [Kernel.pools]
  refine ⟨booted_cursor h, ?_⟩
  rw [h.log, hearly]

end SBUnix
