import SBUnix.Paging.BootWords

namespace SBUnix

open ByteMemory Word

/-- What `t` calls of `get_page` leave in the history. -/
def earlyLog (pf : Nat) : Nat → List Event
  | 0 => []
  | t+1 => .slot t :: .early (pool pf + 4096*t) :: earlyLog pf t

/-- `get_page` has given out the first `t` pages; `G` is what the pool holds. -/
structure Early (pf : Nat) (B : Nat → Nat) (t : Nat) (G : Nat → Nat → Nat) (s : Kernel) :
    Prop where
  words : Words (pool pf) s.mem B G
  pdesc : s.pdesc = pool pf + 4096*t
  counter : s.counter = t
  freelist : s.freelist = pool pf
  chain : ∀ k, t ≤ k → k+1 < 24576 → G k 1 = pool pf + 4096*(k+1)
  log : s.log = earlyLog pf t

theorem Early.congr {pf : Nat} {B : Nat → Nat} {t : Nat} {G G' : Nat → Nat → Nat} {s : Kernel}
    (h : Early pf B t G s) (he : ∀ k i, i < 512 → G k i = G' k i) : Early pf B t G' s :=
  ⟨h.words.congr he, h.pdesc, h.counter, h.freelist,
    fun k hk hN => (he k 1 (by omega)).symm.trans (h.chain k hk hN), h.log⟩

theorem Early.ptShared {pf : Nat} {B : Nat → Nat} {t : Nat} {G : Nat → Nat → Nat} {s : Kernel}
    (h : Early pf B t G s) (q : Nat) : Early pf B t G { s with ptShared := q } :=
  ⟨h.words, h.pdesc, h.counter, h.freelist, h.chain, h.log⟩

def takeStep (G : Nat → Nat → Nat) (t : Nat) : Nat → Nat → Nat :=
  halve (put G t 0 (G t 0 / 2 * 2 + 1)) t

theorem getPage_early {pf : Nat} {B : Nat → Nat} {t : Nat} {G : Nat → Nat → Nat} {s : Kernel}
    (h : Early pf B t G s) (ht : t < 1024) :
    (getPage s).1 = pool pf + 4096*t ∧ Early pf B (t+1) (takeStep G t) (getPage s).2 := by
  have w1 := h.words.setPdFree t inUse (by decide)
  have w2 := w1.halve t ht
  have hnext := w1.grid t 1 (by omega)
  rw [put_apply, if_neg (by omega), h.chain t (le_refl t) (by omega)] at hnext
  refine ⟨h.pdesc, ?_, ?_, ?_, h.freelist, ?_, ?_⟩
  · simp only [getPage, h.pdesc, h.counter, h.freelist]
    exact w2
  · simpa only [getPage, h.pdesc] using hnext
  · simp only [getPage, h.counter]
  · intro k hk hN
    rw [takeStep, halve, put_apply, if_neg (by omega), put_apply, if_neg (by omega)]
    exact h.chain k (by omega) hN
  · simp only [getPage, h.counter, h.pdesc, h.log, earlyLog]

/-- The pool after `t` calls of `get_page` and nothing else: the in-use bits, and the
words of the first page that `freelist[counter++] = 0` has cleared. -/
def taken (G : Nat → Nat → Nat) (t : Nat) : Nat → Nat → Nat := fun k i =>
  if k = 0 then
    if 2*i+1 < t then 0 else if 2*i < t then high32 (G 0 i) else G 0 i
  else if k < t ∧ i = 0 then G k 0 / 2 * 2 + 1
  else G k i

theorem takeStep_taken (G : Nat → Nat → Nat) (t k i : Nat) :
    takeStep (taken G t) t k i = taken G (t+1) k i := by
  by_cases hk : k = 0
  · subst hk
    by_cases hi : i = t/2
    · subst hi
      rcases Nat.eq_zero_or_pos t with ht | ht
      · subst ht
        simp [takeStep, halve, put, taken, high32_bit]
      · have hn : ¬2*(t/2)+1 < t := by omega
        rcases Nat.mod_two_eq_zero_or_one t with he | ho
        · have h1 : ¬2*(t/2) < t := by omega
          have h2 : ¬2*(t/2)+1 < t+1 := by omega
          have h3 : 2*(t/2) < t+1 := by omega
          simp [takeStep, halve, put, taken, ht.ne, he, hn, h1, h2, h3]
        · have h1 : 2*(t/2) < t := by omega
          have h2 : 2*(t/2)+1 < t+1 := by omega
          simp [takeStep, halve, put, taken, ht.ne, ho, hn, h1, h2, low32_high32]
    · have h1 : 2*i+1 < t ↔ 2*i+1 < t+1 := by omega
      have h2 : 2*i < t ↔ 2*i < t+1 := by omega
      have h3 : ¬(0 = t ∧ i = 0) := by omega
      simp only [takeStep, halve, put, taken, hi, h3, and_false, if_true, if_false, h1, h2]
  · by_cases hkt : k = t
    · subst hkt
      by_cases hi : i = 0
      · subst hi
        simp [takeStep, halve, put, taken, hk]
      · simp [takeStep, halve, put, taken, hk, hi]
    · have hlt : k < t+1 ↔ k < t := by omega
      simp [takeStep, halve, put, taken, hk, hkt, hlt]

/-- The entries written once set_initial_addr and `c` calls of set_end_addr are done:
page 0 is the PML4, 1 the PDP, 2 the PD, 4 the table of the first 2 MiB and 5, 6, ..
the tables above the kernel's own. -/
def linked (pf c k i : Nat) : Option Nat :=
  if k = 0 ∧ i = 511 then some (pool pf + 4096*1 + 3)
  else if k = 1 ∧ i = 510 then some (pool pf + 4096*2 + 3)
  else if k = 2 ∧ i = 0 then some (pool pf + 4096*4 + 3)
  else if k = 2 ∧ 2 ≤ i ∧ i < 2+c then some (pool pf + 4096*(3+i) + 3)
  else if k = 4 then some (4096*i + 3)
  else if 5 ≤ k ∧ k < 5+c then some (0x400000 + 0x200000*(k-5) + 4096*i + 3)
  else none

theorem linked_none (pf c k i : Nat) (hk : 5+c ≤ k) : linked pf c k i = none := by
  rw [linked, if_neg (by omega), if_neg (by omega), if_neg (by omega), if_neg (by omega),
    if_neg (by omega), if_neg (by omega)]

theorem linked_first (pf c i : Nat) (hi : i ≠ 511) : linked pf c 0 i = none := by
  simp [linked, hi]

def stage (pf : Nat) (G : Nat → Nat → Nat) (c : Nat) : Nat → Nat → Nat :=
  fun k i => (linked pf c k i).getD (taken G (52+c) k i)

/-- `get_page` only touches its own page and one word of the first, so entries written
elsewhere stay. -/
theorem takeStep_getD (O : Nat → Nat → Option Nat) (T : Nat → Nat → Nat) (t k i : Nat)
    (ht : O t 0 = none) (h0 : O 0 (t/2) = none) :
    takeStep (fun k i => (O k i).getD (T k i)) t k i = (O k i).getD (takeStep T t k i) := by
  simp only [takeStep, halve, put, ht, Option.getD_none]
  by_cases h1 : k = 0 ∧ i = t/2
  · obtain ⟨rfl, rfl⟩ := h1
    simp only [h0, Option.getD_none]
  · by_cases h2 : k = t ∧ i = 0
    · obtain ⟨rfl, rfl⟩ := h2
      simp [h1, ht]
    · simp [h1, h2]

theorem stage_zero (pf : Nat) (G : Nat → Nat → Nat) (k i : Nat) (hi : i < 512) :
    put (put (put (filled (taken G 52) 4 0 512 0) 2 0 (pool pf + 4096*4 + 3))
      1 510 (pool pf + 4096*2 + 3)) 0 511 (pool pf + 4096*1 + 3) k i = stage pf G 0 k i := by
  simp only [put_apply, filled, stage, linked]
  by_cases h0 : k = 0
  · by_cases h : i = 511 <;> simp [h0, h]
  by_cases h1 : k = 1
  · by_cases h : i = 510 <;> simp [h1, h]
  by_cases h2 : k = 2
  · have hn : ¬(2 ≤ i ∧ i < 2+0) := by omega
    by_cases h : i = 0 <;> simp only [h2, h, hn] <;> simp
  by_cases h4 : k = 4
  · simp [h4, hi]
  · have hn : ¬(5 ≤ k ∧ k < 5) := by omega
    simp [h0, h1, h2, h4, hn]

theorem linked_succ (pf c : Nat) (T : Nat → Nat → Nat) (k i : Nat) (hi : i < 512) :
    put (put (put (filled (fun k i => (linked pf c k i).getD (T k i)) (5+c) 0 512
        (0x400000 + 0x200000*c)) 2 (2+c) (pool pf + 4096*(5+c) + 3))
      1 510 (pool pf + 4096*2 + 3)) 0 511 (pool pf + 4096*1 + 3) k i =
      (linked pf (c+1) k i).getD (T k i) := by
  simp only [put_apply, filled, linked]
  by_cases h0 : k = 0
  · have hn : ¬0 = 5+c := by omega
    by_cases h : i = 511 <;> simp [h0, h, hn]
  by_cases h1 : k = 1
  · have hn : ¬1 = 5+c := by omega
    by_cases h : i = 510 <;> simp [h1, h, hn]
  by_cases h2 : k = 2
  · have hn : ¬2 = 5+c := by omega
    by_cases hz : i = 0
    · have hc : ¬0 = 2+c := by omega
      simp [h2, hz, hc, hn]
    by_cases hc : i = 2+c
    · have hl : 2+c < 2+(c+1) := by omega
      have he : 3+(2+c) = 5+c := by omega
      simp [h2, hc, hl, he]
    · have hl : i < 2+(c+1) ↔ i < 2+c := by omega
      simp [h2, hz, hc, hn, hl]
  by_cases h4 : k = 4
  · have hn : ¬4 = 5+c := by omega
    simp [h4, hn]
  by_cases h5 : k = 5+c
  · have hr : 5 ≤ k ∧ k < 5+(c+1) := by omega
    have hs : k-5 = c := by omega
    simp [h0, h1, h2, h4, eq_true h5, hr, hs, hi]
  · have hl : k < 5+(c+1) ↔ k < 5+c := by omega
    simp [h0, h1, h2, h4, h5, hl]

section Steps

variable {pf : Nat} {B : Nat → Nat} {G : Nat → Nat → Nat} {s : Kernel}

theorem getPage_taken {t : Nat} (h : Early pf B t (taken G t) s) (ht : t < 1024) :
    (getPage s).1 = pool pf + 4096*t ∧ Early pf B (t+1) (taken G (t+1)) (getPage s).2 := by
  obtain ⟨h1, h2⟩ := getPage_early h ht
  exact ⟨h1, h2.congr fun k i _ => takeStep_taken G t k i⟩

theorem getPages_taken (n : Nat) {t : Nat} (h : Early pf B t (taken G t) s)
    (ht : t + n ≤ 1024) :
    (getPages n s).1 = (List.range n).map (fun j => pool pf + 4096*(t+j)) ∧
    Early pf B (t+n) (taken G (t+n)) (getPages n s).2 := by
  induction n generalizing t s with
  | zero => exact ⟨rfl, h⟩
  | succ n ih =>
    obtain ⟨h1, h2⟩ := getPage_taken h (by omega)
    obtain ⟨h3, h4⟩ := ih h2 (by omega)
    rw [show t+1+n = t+(n+1) by omega] at h4
    refine ⟨?_, h4⟩
    simp only [getPages, h1, h3, List.range_succ_eq_map, List.map_cons, List.map_map,
      Nat.add_zero]
    congr 1
    apply List.map_congr_left
    intro j _
    simp only [Function.comp_apply]
    congr 2
    omega

/-- Between the calls of set_end_addr: `c` of them are done. -/
structure Linking (pf : Nat) (B : Nat → Nat) (G : Nat → Nat → Nat) (c : Nat) (s : Kernel) :
    Prop where
  early : Early pf B (52+c) (stage pf G c) s
  pml4 : s.globalPml4 = pool pf + 4096*0
  pdp : s.globalPdp = pool pf + 4096*1
  pd : s.globalPd = pool pf + 4096*2
  virt : s.initVirtBase = virtBase
  addr : (if s.flag then s.endBaseAddr else s.endAddr) = 0x400000 + 0x200000*c

/-- The window base has PML4 slot 511 and PDP slot 510, and slot `k` of the PD maps its
`k`-th 2 MiB. -/
theorem window_slots (k : Nat) (hk : k < 512) :
    (virtBase + 0x200000*k) / 2^21 % 512 = k ∧ (virtBase + 0x200000*k) / 2^30 % 512 = 510 ∧
    (virtBase + 0x200000*k) / 2^39 % 512 = 511 ∧ (virtBase + 0x200000*k) / 4096 % 512 = 0 := by
  simp only [virtBase]
  omega

/-- set_end_addr with the latch on `flag` resolved. -/
theorem setEndAddr_eq (pt e : Nat) (s : Kernel)
    (he : (if s.flag then s.endBaseAddr else s.endAddr) = e) :
    let virt := add64 s.initVirtBase e
    let r := mapPages tableSize s.mem pt virt e
    let g := getPage { s with
      mem := linkKern r.1 s.globalPml4 s.globalPdp s.globalPd pt virt, endBaseAddr := r.2,
      flag := true, pml4Shared := s.globalPml4, pdpShared := s.globalPdp,
      pdShared := s.globalPd }
    setEndAddr pt s = { g.2 with ptShared := g.1 } := by
  subst he
  cases hf : s.flag with
  | false => simp [setEndAddr, hf]
  | true =>
    obtain ⟨⟩ := s
    simp only at hf
    subst hf
    simp [setEndAddr]

theorem setEndAddr_linking {c : Nat} (h : Linking pf B G c s) (hc : c < 47)
    (hb : pool pf % 4096 = 0) (hlt : pool pf < 2^53) :
    Linking pf B G (c+1) (setEndAddr (pool pf + 4096*(5+c)) s) := by
  obtain ⟨he, h4, h3, h2, hv, ha⟩ := h
  obtain ⟨hs2, hs3, hs4, hs1⟩ := window_slots (2+c) (by omega)
  have hvirt : add64 virtBase (0x400000 + 0x200000*c) = virtBase + 0x200000*(2+c) := by
    rw [add64_of_lt _ _ (by simp only [virtBase]; omega)]
    ring
  obtain ⟨w1, hend⟩ := he.words.mapPages 512 (5+c) 0 (virtBase + 0x200000*(2+c))
    (0x400000 + 0x200000*c) hs1 (by omega) (by simp only [virtBase]; omega) (by omega) (by omega)
  have w2 := w1.linkKern 0 1 2 (5+c) (virtBase + 0x200000*(2+c)) hb (by omega)
  rw [hs2, hs3, hs4] at w2
  have w3 := w2.congr (linked_succ pf c (taken G (52+c)))
  rw [setEndAddr_eq _ _ s ha, hv, hvirt, h4, h3, h2, tableSize, hend]
  -- the page tables are in place; what is left is the spare page it takes
  have key (u : Kernel) (hm : Words (pool pf) u.mem B
      fun k i => (linked pf (c+1) k i).getD (taken G (52+c) k i))
      (hp : u.pdesc = s.pdesc) (hcnt : u.counter = s.counter) (hf : u.freelist = s.freelist)
      (hl : u.log = s.log) : Early pf B (52+(c+1)) (stage pf G (c+1)) (getPage u).2 := by
    have hE : Early pf B (52+c)
        (fun k i => (linked pf (c+1) k i).getD (taken G (52+c) k i)) u := by
      refine ⟨hm, hp.trans he.pdesc, hcnt.trans he.counter, hf.trans he.freelist, ?_,
        hl.trans he.log⟩
      intro k hk hN
      have hk1 := he.chain k hk hN
      rw [stage, linked_none pf c k 1 (by omega)] at hk1
      rw [linked_none pf (c+1) k 1 (by omega)]
      exact hk1
    apply (getPage_early hE (by omega)).2.congr
    intro k i _
    rw [takeStep_getD _ _ _ _ _ (linked_none pf (c+1) _ _ (by omega))
      (linked_first pf (c+1) _ (by omega)), takeStep_taken]
    rfl
  refine ⟨(key _ ?_ (by rfl) (by rfl) (by rfl) (by rfl)).ptShared _, rfl, rfl, rfl, rfl, ?_⟩
  · exact w3
  · simp only [getPage, if_true]
    ring

theorem setEndAddrs_linking (n : Nat) (h : Linking pf B G 0 s) (hn : n ≤ 47)
    (hb : pool pf % 4096 = 0) (hlt : pool pf < 2^53) :
    Linking pf B G n (((List.range n).map fun j => pool pf + 4096*(5+j)).foldl
      (fun s pt => setEndAddr pt s) s) := by
  induction n with
  | zero => exact h
  | succ n ih =>
    rw [List.range_succ, List.map_append, List.foldl_append]
    exact setEndAddr_linking (ih (by omega)) (by omega) hb hlt

/-- The globals that building the tables never assigns. -/
def Kernel.config (s : Kernel) : List Nat :=
  [s.physbase, s.physfree, s.pdescPhys, s.virtToPhyFlag.toNat, s.initVirtBase,
    s.virtBaseForUser, s.usrPhysAddr, s.userAddr, s.difCtxt, s.pmlSameCtxt]

theorem getPages_config (n : Nat) (s : Kernel) :
    (getPages n s).2.config = s.config ∧ (getPages n s).2.flag = s.flag := by
  induction n generalizing s with
  | zero => exact ⟨rfl, rfl⟩
  | succ n ih => exact ih (getPage s).2

theorem setEndAddrs_config (pts : List Nat) (s : Kernel) :
    (pts.foldl (fun s pt => setEndAddr pt s) s).config = s.config ∧
    (pts.foldl (fun s pt => setEndAddr pt s) s).kpt = s.kpt := by
  induction pts generalizing s with
  | nil => exact ⟨rfl, rfl⟩
  | cons pt pts ih =>
    have he := setEndAddr_eq pt _ s rfl
    obtain ⟨h1, h2⟩ := ih (setEndAddr pt s)
    rw [List.foldl_cons, h1, h2, he]
    exact ⟨rfl, rfl⟩

theorem setInitialAddr_linking (h : Early pf B 52 (taken G 52) s)
    (h4 : s.globalPml4 = pool pf + 4096*0) (h3 : s.globalPdp = pool pf + 4096*1)
    (h2 : s.globalPd = pool pf + 4096*2) (hv : s.initVirtBase = virtBase)
    (hp : s.physbase = 0x200000) (hb : pool pf % 4096 = 0) (hlt : pool pf < 2^53) :
    Early pf B 52 (stage pf G 0) (setInitialAddr (pool pf + 4096*4) s) := by
  obtain ⟨hs2, hs3, hs4, hs1⟩ := window_slots 0 (by omega)
  rw [Nat.mul_zero, Nat.add_zero] at hs1 hs2 hs3 hs4
  have hm : mapInitial 0x1FF000 s.mem (pool pf + 4096*4) virtBase 0 =
      (mapPages 512 s.mem (pool pf + 4096*4) virtBase 0).1 :=
    mapInitial_eq 512 _ _ _ _ _ (by norm_num) (by norm_num)
  obtain ⟨w1, _⟩ := h.words.mapPages 512 4 0 virtBase 0 hs1 (by omega)
    (by simp only [virtBase]; omega) (by omega) (by omega)
  have w2 := w1.linkKern 0 1 2 4 virtBase hb (by omega)
  rw [hs2, hs3, hs4] at w2
  refine ⟨?_, h.pdesc, h.counter, h.freelist, ?_, h.log⟩
  · simp only [setInitialAddr, h4, h3, h2, hv, hp, baseAddr]
    rw [show sub64 0x200000 pageSize = 0x1FF000 by decide, hm]
    exact w2.congr (stage_zero pf G)
  · intro k hk hN
    rw [stage, linked_none pf 0 k 1 (by omega)]
    exact h.chain k hk hN

end Steps

/-- What set_pages makes of a pool that held `w`. -/
def listed (pf : Nat) (w : Nat → Nat → Nat) : Nat → Nat → Nat := fun k i =>
  if k+1 < 24576 then
    if i = 0 then w k 0 / 2 * 2 else if i = 1 then pool pf + 4096*(k+1) else w k i
  else if k+1 = 24576 ∧ i = 1 then 0 else w k i

/-- The pool after boot, slot by slot, from what it held before. -/
def image (pf : Nat) (w : Nat → Nat → Nat) (k i : Nat) : Nat :=
  if k = 0 then
    if i = 511 then pool pf + 4096*1 + 3
    else if i < 49 then 0 else if i = 49 then high32 (w 0 49) else w 0 i
  else if k = 1 then
    if i = 510 then pool pf + 4096*2 + 3
    else if i = 0 then w 1 0 / 2 * 2 + 1 else if i = 1 then pool pf + 4096*2 else w 1 i
  else if k = 2 then
    if i = 0 then pool pf + 4096*4 + 3 else if i = 1 then pool pf + 4096*3 + 3
    else if i < 49 then pool pf + 4096*(3+i) + 3 else w 2 i
  else if k = 3 then 0x200000 + 4096*i + 3
  else if k = 4 then 4096*i + 3
  else if k < 52 then 0x400000 + 0x200000*(k-5) + 4096*i + 3
  else if k < 99 ∧ i = 0 then w k 0 / 2 * 2 + 1
  else listed pf w k i

theorem image_eq (pf : Nat) (w : Nat → Nat → Nat) (k i : Nat) (hi : i < 512) :
    put (put (put (filled (stage pf (listed pf w) 47) 3 0 512 0x200000) 2 1
      (pool pf + 4096*3 + 3)) 1 510 (pool pf + 4096*2 + 3)) 0 511 (pool pf + 4096*1 + 3) k i =
      image pf w k i := by
  simp only [put_apply, filled, stage, linked, image, taken, listed]
  by_cases h0 : k = 0
  · by_cases h1 : i = 511
    · simp [h0, h1]
    by_cases h2 : i < 49
    · have hl : 2*i+1 < 52+47 := by omega
      simp only [h0, h1, h2, hl]
      simp
    by_cases h3 : i = 49
    · simp [h0, h3]
    · have hl : ¬2*i+1 < 52+47 := by omega
      have hl' : ¬2*i < 52+47 := by omega
      have hz : ¬i = 0 := by omega
      have ho : ¬i = 1 := by omega
      simp only [h0, h1, h2, h3, hl, hl', hz, ho]
      simp
  by_cases h1 : k = 1
  · by_cases h510 : i = 510
    · simp [h1, h510]
    by_cases hz : i = 0
    · simp [h1, hz]
    by_cases ho : i = 1
    · simp [h1, ho]
    · simp [h1, h510, hz, ho]
  by_cases h2 : k = 2
  · by_cases hz : i = 0
    · simp [h2, hz]
    by_cases ho : i = 1
    · simp [h2, ho]
    by_cases hl : i < 49
    · have hr : 2 ≤ i ∧ i < 2+47 := by omega
      simp only [h2, hz, ho, hl, hr]
      simp
    · simp only [h2, hz, ho, hl]
      simp
  by_cases h3 : k = 3
  · simp [h3, hi]
  by_cases h4 : k = 4
  · simp [h4]
  by_cases h5 : k < 52
  · have hr : 5 ≤ k ∧ k < 5+47 := by omega
    simp only [h0, h1, h2, h3, h4, h5, hr]
    simp
  · have hk : k < 52+47 ↔ k < 99 := by omega
    by_cases ht : k < 99 ∧ i = 0
    · have hN : k+1 < 24576 := by omega
      simp [h0, h1, h2, h3, h4, h5, ht, hN]
    · simp only [h0, h1, h2, h3, h4, h5, hk, ht]
      simp

end SBUnix
