import SBUnix.Paging.BootImage

namespace SBUnix

open ByteMemory Word

/-- What the pool pages hold before boot. -/
def gridOf (m : Mem) (pf : Nat) : Nat → Nat → Nat := fun k i => load64 m (pool pf + 4096*k + 8*i)

/-- The words below the pool after boot: the freelist array, and RAM as it was. -/
def belowOf (m : Mem) (pf a : Nat) : Nat := if pf ≤ a then 0x100000001 else load64 m a

/-- The state in which set_free_list leaves the machine. -/
structure Booted (m : Mem) (pf : Nat) (s : Kernel) : Prop where
  words : Words (pool pf) s.mem (belowOf m pf) (image pf (gridOf m pf))
  pdesc : s.pdesc = pool pf + 4096*99
  counter : s.counter = 99
  freelist : s.freelist = add64 virtBase pf
  cr3 : s.cr3 = pool pf
  pml4Shared : s.pml4Shared = add64 (pool pf) virtBase
  log : s.log = earlyLog pf 99
  config : s.config =
    [0x200000, pf, 0, 0, virtBase, virtBase, startPaddrForUsrs, startVaddrForUsrs, 1, 0]

theorem listed_early (m : Mem) (pf : Nat) (hp : pf % 4096 = 0) (hf : pf < 2^52) (s : Kernel)
    (hm : s.mem = (fillFreelist numberOfPages m pf).1) :
    Words (pool pf) (setPages (pool pf) s).mem (belowOf m pf) (listed pf (gridOf m pf)) := by
  have w0 : Words (pool pf) s.mem (belowOf m pf) (gridOf m pf) := by
    constructor
    · intro a ha hb
      rw [hm, belowOf]
      split_ifs with h
      · exact fillFreelist_word _ _ _ _ (by omega) (by decide) ha h
          (by simp only [pool, numberOfPages] at hb ⊢; omega)
      · apply load_congr
        intro x _ _
        exact fillFreelist_outside _ _ _ _ (by omega)
    · intro k i _
      rw [hm, gridOf]
      apply load_congr
      intro x hx _
      exact fillFreelist_outside _ _ _ _ (by simp only [pool, numberOfPages] at hx ⊢; omega)
  have w1 := w0.setPagesLoop numberOfPages 0 24576 (by decide) (by simp only [pool]; omega)
  rw [Nat.mul_zero, Nat.add_zero] at w1
  simp only [setPages]
  apply w1.congr
  intro k i _
  simp only [listed, numberOfPages, Nat.zero_le, true_and, Nat.zero_add]

/-- set_kpage_tables once its pages are taken: the first 2 MiB, the 47 tables above the
kernel, then the kernel's own. -/
theorem fillTables_spec (pf : Nat) (B : Nat → Nat) (w : Nat → Nat → Nat) (s : Kernel)
    (hb : pool pf % 4096 = 0) (hlt : pool pf < 2^53)
    (h : Early pf B 52 (taken (listed pf w) 52) s) (h4 : s.globalPml4 = pool pf + 4096*0)
    (h3 : s.globalPdp = pool pf + 4096*1) (h2 : s.globalPd = pool pf + 4096*2)
    (hk : s.kpt = pool pf + 4096*3) (hbase : s.physbase = 0x200000)
    (hi : s.initVirtBase = virtBase) (hflag : s.flag = false) :
    ∃ v, setEndAddrs ((List.range 47).map fun j => pool pf + 4096*(5+j))
      (setInitialAddr (pool pf + 4096*4) s) = v ∧
    Words (pool pf) (linkKern (mapPages tableSize v.mem (pool pf + 4096*3)
        (virtBase + 0x200000*1) 0x200000).1 (pool pf + 4096*0) (pool pf + 4096*1)
        (pool pf + 4096*2) v.kpt (virtBase + 0x200000*1)) B (image pf w) ∧
    v.pdesc = pool pf + 4096*99 ∧ v.counter = 99 ∧ v.log = earlyLog pf 99 ∧
    v.config = s.config := by
  obtain ⟨v, hdef⟩ : ∃ v, setEndAddrs ((List.range 47).map fun j => pool pf + 4096*(5+j))
    (setInitialAddr (pool pf + 4096*4) s) = v := ⟨_, rfl⟩
  have hu := setInitialAddr_linking h h4 h3 h2 hi hbase hb hlt
  have hv : Linking pf B (listed pf w) 47 v := by
    rw [← hdef]
    apply setEndAddrs_linking 47 _ (le_refl 47) hb hlt
    refine ⟨⟨hu.words, hu.pdesc, hu.counter, hu.freelist, hu.chain, hu.log⟩, h4, h3, h2, hi, ?_⟩
    change (if s.flag then s.endBaseAddr else add64 s.physbase (tableSize * pageSize)) = _
    rw [hflag, hbase, if_neg Bool.false_ne_true]
    decide
  obtain ⟨hcfg, hkv⟩ : v.config = s.config ∧ v.kpt = s.kpt := by
    rw [← hdef]
    exact setEndAddrs_config _ _
  obtain ⟨hs2, hs3, hs4, hs1⟩ := window_slots 1 (by omega)
  have w1 := (hv.early.words.mapPages 512 3 0 (virtBase + 0x200000*1) 0x200000 hs1
    (by norm_num) (by norm_num [virtBase]) (by norm_num) (by norm_num)).1
  have w2 := w1.linkKern 0 1 2 3 (virtBase + 0x200000*1) hb (by omega)
  rw [hs2, hs3, hs4] at w2
  refine ⟨v, hdef, ?_, hv.early.pdesc, hv.early.counter, hv.early.log, hcfg⟩
  rw [hkv, hk]
  exact w2.congr (image_eq pf w)

theorem setKpageTables_eq (pml4 : Nat) {pdp pd pt ptInit : Nat} {ptMax : List Nat}
    {s s1 s2 s3 s4 s5 v : Kernel} (h1 : getPage s = (pdp, s1)) (h2 : getPage s1 = (pd, s2))
    (h3 : getPage s2 = (pt, s3)) (h4 : getPage s3 = (ptInit, s4))
    (h5 : getPages numPt s4 = (ptMax, s5))
    (h6 : setEndAddrs ptMax (setInitialAddr ptInit (s5.setGlobals pml4 pdp pd pt)) = v) :
    setKpageTables pml4 s = (pml4, v.setMem (linkKern (mapPages tableSize v.mem pt
      s.virtBase s.physbase).1 pml4 pdp pd v.kpt s.virtBase)) := by
  simp only [setKpageTables, h1, h2, h3, h4, h5, h6]

theorem getPage_eq {pf n : Nat} (n' : Nat) {B : Nat → Nat} {G : Nat → Nat → Nat} {s : Kernel}
    (h : Early pf B n (taken G n) s) (hn : n < 1024) (hs : n+1 = n') :
    ∃ t, getPage s = (pool pf + 4096*n, t) ∧ Early pf B n' (taken G n') t ∧
      t.config = s.config ∧ t.flag = s.flag ∧ t.virtBase = s.virtBase := by
  subst hs
  obtain ⟨hp, he⟩ := getPage_taken h hn
  exact ⟨(getPage s).2, Prod.ext hp rfl, he, rfl, rfl, rfl⟩

theorem setKpageTables_spec (pf : Nat) (B : Nat → Nat) (w : Nat → Nat → Nat) (s : Kernel)
    (hb : pool pf % 4096 = 0) (hlt : pool pf < 2^53)
    (h : Early pf B 1 (taken (listed pf w) 1) s) (hbase : s.physbase = 0x200000)
    (hv : s.virtBase = virtBase + 0x200000*1) (hi : s.initVirtBase = virtBase)
    (hflag : s.flag = false) :
    ∃ t, setKpageTables (pool pf + 4096*0) s = (pool pf + 4096*0, t) ∧
      Words (pool pf) t.mem B (image pf w) ∧ t.pdesc = pool pf + 4096*99 ∧
      t.counter = 99 ∧ t.log = earlyLog pf 99 ∧ t.config = s.config := by
  obtain ⟨s1, p1, e1, c1, f1, -⟩ := getPage_eq 2 h (by omega) rfl
  obtain ⟨s2, p2, e2, c2, f2, -⟩ := getPage_eq 3 e1 (by omega) rfl
  obtain ⟨s3, p3, e3, c3, f3, -⟩ := getPage_eq 4 e2 (by omega) rfl
  obtain ⟨s4, p4, e4, c4, f4, -⟩ := getPage_eq 5 e3 (by omega) rfl
  obtain ⟨ps, e5⟩ := getPages_taken 47 e4 (by omega)
  obtain ⟨c5, f5⟩ := getPages_config 47 s4
  have hcfg := c5.trans (c4.trans (c3.trans (c2.trans c1)))
  have hf := f5.trans (f4.trans (f3.trans (f2.trans f1)))
  have h5 : getPages numPt s4 =
      ((List.range 47).map fun j => pool pf + 4096*(5+j), (getPages 47 s4).2) := by
    rw [← ps, numPt]
  generalize (getPages 47 s4).2 = s5 at e5 hcfg hf h5
  have hbase5 : s5.physbase = 0x200000 := (congrArg (·.getD 0 0) hcfg).trans hbase
  have hi5 : s5.initVirtBase = virtBase := (congrArg (·.getD 4 0) hcfg).trans hi
  obtain ⟨v, hdef, hw, hp, hc, hl, hcfg6⟩ := fillTables_spec pf B w
    (s5.setGlobals (pool pf + 4096*0) (pool pf + 4096*1) (pool pf + 4096*2) (pool pf + 4096*3))
    hb hlt ⟨e5.words, e5.pdesc, e5.counter, e5.freelist, e5.chain, e5.log⟩ rfl rfl rfl rfl
    hbase5 hi5 (hf.trans hflag)
  have heq := setKpageTables_eq (pool pf + 4096*0) p1 p2 p3 p4 h5 hdef
  rw [hv, hbase] at heq
  exact ⟨_, heq, hw, hp, hc, hl, hcfg6.trans hcfg⟩

theorem setPml4_eq {pml4 : Nat} {s s0 t : Kernel} (h0 : getPage s = (pml4, s0))
    (h1 : setKpageTables pml4 s0.raiseVirtBase = (pml4, t)) : setPml4 s = loadCr3 pml4 t := by
  simp only [setPml4, setKernelPages, h0, h1]

theorem setFreeList_eq {s t : Kernel} {m : Mem} {fl : Nat}
    (h1 : fillFreelist numberOfPages s.mem s.physfree = (m, fl))
    (h2 : setPml4 (setPages fl { s with mem := m, freelist := fl }) = t) :
    setFreeList s = t.goVirtual s.physfree := by
  simp only [setFreeList, h1, h2]

theorem listed_start (m : Mem) (pf : Nat) (hp : pf % 4096 = 0) (hf : pf < 2^52) (s : Kernel)
    (hm : s.mem = (fillFreelist numberOfPages m pf).1) (hc : s.counter = 0) (hl : s.log = [])
    (hfl : s.freelist = pool pf) :
    Early pf (belowOf m pf) 0 (taken (listed pf (gridOf m pf)) 0) (setPages (pool pf) s) := by
  refine ⟨(listed_early m pf hp hf s hm).congr ?_, ?_, ?_, ?_, ?_, ?_⟩
  · intro k i _
    by_cases hk : k = 0 <;> simp [taken, hk]
  · rw [setPages, Nat.mul_zero, Nat.add_zero]
  · rw [setPages, hc]
  · rw [setPages, hfl]
  · intro k _ hk
    by_cases hz : k = 0 <;> simp [taken, listed, hz, hk]
  · rw [setPages, hl, earlyLog]

/-- set_pml4 on the freshly threaded pool. -/
theorem setPml4_spec (pf : Nat) (B : Nat → Nat) (w : Nat → Nat → Nat) (s : Kernel)
    (hb : pool pf % 4096 = 0) (hlt : pool pf < 2^53)
    (h : Early pf B 0 (taken (listed pf w) 0) s) (hbase : s.physbase = 0x200000)
    (hv : s.virtBase = virtBase) (hi : s.initVirtBase = virtBase) (hflag : s.flag = false) :
    ∃ t, setPml4 s = t ∧ Words (pool pf) t.mem B (image pf w) ∧ t.pdesc = pool pf + 4096*99 ∧
      t.counter = 99 ∧ t.log = earlyLog pf 99 ∧ t.config = s.config ∧
      t.cr3 = pool pf ∧ t.pml4Shared = pool pf := by
  obtain ⟨s0, p0, e0, c0, f0, b0⟩ := getPage_eq 1 h (by omega) rfl
  have hs0 : s0.physbase = 0x200000 := (congrArg (·.getD 0 0) c0).trans hbase
  have hi0 : s0.initVirtBase = virtBase := (congrArg (·.getD 4 0) c0).trans hi
  have hraise : add64 s0.virtBase s0.physbase = virtBase + 0x200000*1 := by
    rw [b0, hv, hs0]
    decide
  obtain ⟨t, ht, tw, tp, tc, tl, tcfg⟩ := setKpageTables_spec pf B w
    s0.raiseVirtBase hb hlt ⟨e0.words, e0.pdesc, e0.counter, e0.freelist, e0.chain, e0.log⟩
    hs0 hraise hi0 (f0.trans hflag)
  have h0 : pool pf + 4096*0 = pool pf := by omega
  exact ⟨_, setPml4_eq p0 ht, tw, tp, tc, tl, tcfg.trans c0, h0, h0⟩

/-- Boot: the freelist array, the page list threaded through the pool, and the kernel's
tables built on its first 52 pages. -/
theorem booted_spec (m : Mem) (pf : Nat) (hp : pf % 4096 = 0) (hf : pf < 2^52) :
    Booted m pf (booted m pf) := by
  have hb := pool_aligned hp
  have hlt : pool pf < 2^53 := by unfold pool; omega
  have hfl : (fillFreelist numberOfPages m pf).2 = pool pf := fillFreelist_snd _ _ _
  obtain ⟨u, hu⟩ : ∃ u, u = { Kernel.init m 0x200000 pf with
    mem := (fillFreelist numberOfPages m pf).1, freelist := pool pf } := ⟨_, rfl⟩
  have h0 := listed_start m pf hp hf u (by rw [hu]) (by rw [hu, Kernel.init])
    (by rw [hu, Kernel.init]) (by rw [hu])
  have hcfg : (setPages (pool pf) u).config =
      [0x200000, pf, 0, 0, virtBase, virtBase, startPaddrForUsrs, startVaddrForUsrs, 1, 0] := by
    rw [hu]
    rfl
  obtain ⟨t, ht, tw, tp, tc, tl, tcfg, t3, t4⟩ := setPml4_spec pf (belowOf m pf) (gridOf m pf)
    (setPages (pool pf) u) hb hlt h0 (congrArg (·.getD 0 0) hcfg) (by rw [hu]; rfl)
    (congrArg (·.getD 4 0) hcfg) (by rw [hu]; rfl)
  rw [hcfg] at tcfg
  have hinit : t.initVirtBase = virtBase := congrArg (·.getD 4 0) tcfg
  have hlist : fillFreelist numberOfPages m pf =
      ((fillFreelist numberOfPages m pf).1, pool pf) := by rw [← hfl]
  have hbt : booted m pf = t.goVirtual pf := by
    rw [hu] at ht
    exact setFreeList_eq hlist ht
  rw [hbt]
  refine ⟨tw, tp, tc, ?_, t3, ?_, tl, tcfg⟩
  · rw [Kernel.goVirtual, hinit]
  · rw [Kernel.goVirtual, t4]

end SBUnix
