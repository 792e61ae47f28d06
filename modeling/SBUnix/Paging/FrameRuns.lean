import SBUnix.Paging.PageRange

namespace SBUnix

open ByteMemory Word

/-- The page that the call maps and the one it looks the tables up for lie in the user half; a
stack page also shares the page table of user_addr. -/
def MapsUserPage (s : Kernel) (addr : Nat) : MapFlag → Prop
  | .accessedNotPresent => addr < 2^47
  | .setCowRw => s.userAddr < 2^47
  | .newPage => s.vaCursor.newPage < 2^47
  | .growsDown => s.userAddr < 2^47 ∧ 4096 ≤ s.userAddr % 2^21
  | .rwToCow | .contextSwitch => False

/-- A call of memmap(addr, PAGE_SIZE, prot, flag) that can be served. -/
structure UserCall (s : Kernel) (addr prot : Nat) (flag : MapFlag) : Prop where
  page : MapsUserPage s addr flag
  prot : prot = cowPermBits ∨ prot = usrPermBits
  left : PagesLeft s

/-- `n` calls of memmap. -/
inductive MapRun : Nat → Kernel → Kernel → Prop where
  | start (s : Kernel) : MapRun 0 s s
  | call {n : Nat} {s t : Kernel} (run : MapRun n s t) (addr prot : Nat) (flag : MapFlag)
      (hc : UserCall t addr prot flag) : MapRun (n+1) s (memmap addr pageSize prot flag t).2

/-- Different pages of the user half have different frames. -/
def FramesApart (s : Kernel) : Prop :=
  ∀ x y f, x < 2^47 → y < 2^47 → s.frameOf x = some f → s.frameOf y = some f → x/4096 = y/4096

/-- The frame that get_user_phys_addr hands out next is in no entry of the user half. -/
def NextFrameFree (s : Kernel) : Prop := ∀ x < 2^47, s.frameOf x ≠ some s.usrPhysAddr

/-- Boot leaves well-formed tables without a user page. -/
structure NoUserPages (s : Kernel) : Prop where
  wf : WellFormed s
  empty : ∀ x < 2^47, s.frameOf x = none

section Step

variable {s t : Kernel} {n : Nat}

theorem UserCall.installed {addr prot : Nat} {flag : MapFlag} (hw : WellFormed s)
    (h : UserCall s addr prot flag) : ∃ virt perm n page,
      Installed s (memmap addr pageSize prot flag s).2 virt s.usrPhysAddr perm n page := by
  obtain ⟨h1, hprot⟩ := prot_cases h.prot
  have hpage := h.page
  cases flag with
  | accessedNotPresent => exact ⟨_, _, accessed_installed hw h.left addr prot hpage h1 hprot⟩
  | setCowRw =>
    obtain ⟨a, he⟩ := setCowRw_eq addr prot s
    exact ⟨_, _, memmap_installed hw h.left he hpage (by rw [pathOf_roundDown]) h1 hprot⟩
  | newPage =>
    obtain ⟨a, p, he⟩ := newPage_eq addr prot s
    exact ⟨_, _, memmap_installed hw h.left he hpage rfl (by decide) (by decide)⟩
  | growsDown =>
    obtain ⟨a, he⟩ := growsDown_eq addr prot s
    obtain ⟨hlt, h21⟩ := hpage
    have hsub : sub64 s.userAddr pageSize = s.userAddr - 4096 :=
      sub64_of_le _ _ (by unfold pageSize; omega) (by omega)
    refine ⟨_, _, memmap_installed hw h.left he hlt ?_ (by decide) (by decide)⟩
    rw [hsub]
    apply pathOf_take_three
    omega
  | rwToCow => exact absurd hpage (by simp [MapsUserPage])
  | contextSwitch => exact absurd hpage (by simp [MapsUserPage])

/-- After `n` calls the user pages have some of the first `n` frames, each its own. -/
structure FramesUsed (g n : Nat) (s : Kernel) : Prop where
  wf : WellFormed s
  next : s.usrPhysAddr = nextFrame^[n] g
  used : ∀ x < 2^47, ∀ f, s.frameOf x = some f → ∃ i < n, f = nextFrame^[i] g
  apart : FramesApart s

variable {g : Nat}

theorem FramesUsed.free (hg : g % 4096 = 0) (hn : n < 4096) (h : FramesUsed g n s) :
    NextFrameFree s := by
  intro x hx he
  obtain ⟨i, hi, hf⟩ := h.used x hx _ he
  rw [h.next] at hf
  exact nextFrame_iterate_ne hg hn (by omega) (by omega) hf

theorem FramesUsed.step (hg : g % 4096 = 0) (hn : n < 4096) (h : FramesUsed g n s)
    {virt perm k : Nat} {page : Nat → Nat} (hm : Installed s t virt s.usrPhysAddr perm k page) :
    FramesUsed g (n+1) t := by
  have hfree := h.free hg hn
  constructor
  case wf => exact hm.wellFormed
  case next => rw [hm.usrPhysAddr, h.next, Function.iterate_succ_apply']
  case used =>
    intro x hx f hf
    by_cases hp : pathOf x = pathOf virt
    · rw [hm.frameOf_self hp, Option.some_inj] at hf
      exact ⟨n, by omega, by rw [← hf, h.next]⟩
    · rw [hm.frameOf_other hp] at hf
      obtain ⟨i, hi, he⟩ := h.used x hx f hf
      exact ⟨i, by omega, he⟩
  case apart =>
    intro x y f hx hy hfx hfy
    by_cases hpx : pathOf x = pathOf virt
    · by_cases hpy : pathOf y = pathOf virt
      · exact page_eq_of_pathOf (Or.inl hx) hy (hpx.trans hpy.symm)
      · rw [hm.frameOf_self hpx] at hfx
        rw [hm.frameOf_other hpy, ← hfx] at hfy
        exact absurd hfy (hfree y hy)
    · rw [hm.frameOf_other hpx] at hfx
      by_cases hpy : pathOf y = pathOf virt
      · rw [hm.frameOf_self hpy] at hfy
        rw [← hfy] at hfx
        exact absurd hfx (hfree x hx)
      · rw [hm.frameOf_other hpy] at hfy
        exact h.apart x y f hx hy hfx hfy

theorem MapRun.framesUsed (h : NoUserPages s) (hrun : MapRun n s t) (hn : n ≤ 4096) :
    FramesUsed s.usrPhysAddr n t := by
  induction hrun with
  | start =>
    refine ⟨h.wf, rfl, ?_, ?_⟩
    · intro x hx f hf
      rw [h.empty x hx] at hf
      cases hf
    · intro x y f hx _ hfx _
      rw [h.empty x hx] at hfx
      cases hfx
  | call _ addr prot flag hc ih =>
    have hu := ih h (by omega)
    obtain ⟨virt, perm, k, page, hm⟩ := hc.installed hu.wf
    exact hu.step h.wf.frame.1 (by omega) hm

end Step

/-- In every run of at most 4096 calls no two pages share a frame, and before each of them the
frame handed out is a free one. -/
theorem mapRun_framesApart {s t : Kernel} {n : Nat} (h : NoUserPages s) (hrun : MapRun n s t)
    (hn : n ≤ 4096) : FramesApart t ∧ (n < 4096 → NextFrameFree t) := by
  have hu := hrun.framesUsed h hn
  exact ⟨hu.apart, fun hlt => hu.free h.wf.frame.1 hlt⟩

theorem booted_noUserPages {pf : Nat} (hp : pf % 4096 = 0) (hlo : 4096 ≤ pf) (hf : pf < 2^52) :
    NoUserPages (booted (fun _ => 0) pf) :=
  ⟨booted_wellFormed hp hlo hf, fun _ hx => booted_frameOf_user hp hlo hf hx⟩

theorem booted_call {addr prot : Nat} (ha : addr < 2^47)
    (hp : prot = cowPermBits ∨ prot = usrPermBits) :
    UserCall (booted (fun _ => 0) 0x300000) addr prot .accessedNotPresent :=
  ⟨ha, hp, zeroBoot_pagesLeft⟩

section Around

variable {s t : Kernel} {n f : Nat}

/-- The page table that 0x400000 and 0x401000 share is there, and the first of them has a
frame. -/
structure TwoPages (f : Nat) (s : Kernel) : Prop where
  wf : WellFormed s
  left : PagesLeft s
  table : tableAt s ((pathOf 0x401000).take 3) ≠ none
  frame : s.frameOf 0x400000 = some f

theorem path_ne : pathOf 0x400000 ≠ pathOf 0x401000 :=
  fun h => absurd (page_eq_of_pathOf (Or.inl (by norm_num)) (by norm_num) h) (by norm_num)

/-- To map 0x401000 once more takes a frame and no table. -/
theorem TwoPages.again (h : TwoPages f s) :
    TwoPages f (memmap 0x401000 pageSize usrPermBits .accessedNotPresent s).2 ∧
    (memmap 0x401000 pageSize usrPermBits .accessedNotPresent s).2.usrPhysAddr =
      nextFrame s.usrPhysAddr ∧
    (memmap 0x401000 pageSize usrPermBits .accessedNotPresent s).2.frameOf 0x401000 =
      some s.usrPhysAddr := by
  obtain ⟨n, page, hm⟩ := accessed_installed h.wf h.left 0x401000 usrPermBits (by norm_num)
    (by decide) (by decide)
  have hpath := pathOf_roundDown 0x401000
  generalize (memmap 0x401000 pageSize usrPermBits .accessedNotPresent s).2 = t at hm ⊢
  generalize roundDown 0x401000 pageSize = virt at hm hpath
  have hn : n = 0 := by
    have := hm.few 3 (by omega) (by rw [hpath]; exact h.table)
    omega
  refine ⟨⟨hm.wellFormed, ⟨?_, ?_⟩, ?_, ?_⟩, hm.usrPhysAddr, hm.frameOf_self hpath.symm⟩
  · rw [hm.counter, hn]
    exact h.left.slots
  · rw [hm.cursor, hn]
    exact h.left.top
  · rw [← hpath, hm.tableAt_on (by omega)]
    simp
  · rw [hm.frameOf_other (by rw [hpath]; exact path_ne)]
    exact h.frame

theorem TwoPages.call (h : TwoPages f s) :
    UserCall s 0x401000 usrPermBits .accessedNotPresent :=
  ⟨show 0x401000 < 2^47 by norm_num, Or.inr rfl, h.left⟩

theorem TwoPages.many {s₀ : Kernel} (h : TwoPages f s) (hrun : MapRun n s₀ s) (k : Nat) :
    ∃ t, MapRun (n+k) s₀ t ∧ TwoPages f t ∧ t.usrPhysAddr = nextFrame^[k] s.usrPhysAddr := by
  induction k with
  | zero => exact ⟨s, hrun, h, rfl⟩
  | succ k ih =>
    obtain ⟨t, hrun', ht, hframe⟩ := ih
    obtain ⟨hnext, husr, -⟩ := ht.again
    refine ⟨_, .call hrun' _ _ _ ht.call, hnext, ?_⟩
    rw [husr, hframe, Function.iterate_succ_apply']

theorem first_twoPages {s : Kernel} (hw : WellFormed s) (hs : s.counter + 6 ≤ numberOfPages)
    (htop : s.cursor + 4096*6 ≤ 49*0x200000) :
    TwoPages s.usrPhysAddr (memmap 0x400000 pageSize usrPermBits .accessedNotPresent s).2 ∧
    (memmap 0x400000 pageSize usrPermBits .accessedNotPresent s).2.usrPhysAddr =
      nextFrame s.usrPhysAddr := by
  obtain ⟨n, page, hm⟩ := accessed_installed hw ⟨by omega, by omega⟩ 0x400000 usrPermBits
    (by norm_num) (by decide) (by decide)
  have hpath := pathOf_roundDown 0x400000
  generalize (memmap 0x400000 pageSize usrPermBits .accessedNotPresent s).2 = t at hm ⊢
  generalize roundDown 0x400000 pageSize = virt at hm hpath
  refine ⟨⟨hm.wellFormed, hm.pagesLeft hs htop, ?_, hm.frameOf_self hpath.symm⟩, hm.usrPhysAddr⟩
  have htake : (pathOf 0x401000).take 3 = (pathOf virt).take 3 := by
    rw [hpath]
    apply pathOf_take_three
    norm_num
  rw [htake, hm.tableAt_on (by omega)]
  simp

theorem nextFrame_round : nextFrame^[4096] startPaddrForUsrs = startPaddrForUsrs := by
  have h := nextFrame_iterate (r := 0) (by norm_num) (by norm_num) 4096
  rw [Nat.add_zero] at h
  exact h.trans (by norm_num)

end Around

/-- Two pages after boot. -/
theorem mapRun_framesApart_two :
    ∃ t, MapRun 2 (booted (fun _ => 0) 0x300000) t ∧ t.frameOf 0x400000 ≠ none ∧
      t.frameOf 0x401000 ≠ none ∧ FramesApart t := by
  have hw := zeroBoot_wellFormed
  have hroom := zeroBoot_room
  have hno : NoUserPages (booted (fun _ => 0) 0x300000) :=
    booted_noUserPages (by norm_num) (by norm_num) (by norm_num)
  have hfirst := MapRun.call (.start _) _ _ _
    (booted_call (show 0x400000 < 2^47 by norm_num) (Or.inr rfl))
  generalize booted (fun _ => 0) 0x300000 = k at hw hroom hno hfirst ⊢
  obtain ⟨htwo, -⟩ := first_twoPages hw hroom.1 hroom.2
  obtain ⟨hboth, -, hsecond⟩ := htwo.again
  have hrun := MapRun.call hfirst _ _ _ htwo.call
  refine ⟨_, hrun, ?_, ?_, (mapRun_framesApart hno hrun (by norm_num)).1⟩
  · rw [hboth.frame]
    simp
  · rw [hsecond]
    simp

/-- 0x400000 is mapped once and 0x401000 over and over: the 4097th call hands out the first frame
again. -/
theorem mapRun_sharesFrame :
    ∃ t, MapRun 4097 (booted (fun _ => 0) 0x300000) t ∧ ¬ FramesApart t := by
  have hw := zeroBoot_wellFormed
  have hroom := zeroBoot_room
  have husr := (booted_spec (fun _ => 0) 0x300000 (by norm_num) (by norm_num)).usrPhysAddr
  have hfirst := MapRun.call (.start _) _ _ _
    (booted_call (show 0x400000 < 2^47 by norm_num) (Or.inr rfl))
  generalize booted (fun _ => 0) 0x300000 = k at hw hroom husr hfirst ⊢
  obtain ⟨htwo, hnext⟩ := first_twoPages hw hroom.1 hroom.2
  obtain ⟨t, hrun, ht, hframe⟩ := htwo.many hfirst 4095
  rw [hnext, ← Function.iterate_succ_apply, husr, nextFrame_round] at hframe
  obtain ⟨hlast, -, hsecond⟩ := ht.again
  refine ⟨_, .call hrun _ _ _ ht.call, ?_⟩
  intro hapart
  rw [hframe] at hsecond
  have hpage := hapart 0x400000 0x401000 _ (by norm_num) (by norm_num)
    (by rw [hlast.frame, husr]) hsecond
  norm_num at hpage

end SBUnix
