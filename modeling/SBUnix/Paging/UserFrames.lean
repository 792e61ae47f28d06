import SBUnix.Paging.Pools

namespace SBUnix

open ByteMemory Word BumpAllocator

/-- A call that takes from one of the allocators or from both. -/
inductive MemCall where
  | alloc (c : AllocCall)
  | memmap (addr length prot : Nat) (flag : MapFlag)
  deriving DecidableEq, Repr

def MemCall.run : MemCall → Kernel → Kernel
  | .alloc c, s => (c.run s).2
  | .memmap addr length prot flag, s => (SBUnix.memmap addr length prot flag s).2

def runCalls (calls : List MemCall) (s : Kernel) : Kernel := calls.foldl (fun s c => c.run s) s

theorem runCalls_snoc (calls : List MemCall) (c : MemCall) (s : Kernel) :
    runCalls (calls++[c]) s = c.run (runCalls calls s) := by
  rw [runCalls, List.foldl_append]
  rfl

theorem MemCall.run_within (c : MemCall) (s : Kernel) : s.pools.Within (2^34) (c.run s).pools := by
  cases c with
  | alloc c =>
    cases c with
    | pageAlloc => exact ⟨1, by norm_num, 0, pageAlloc_pools s⟩
    | kmalloc sz => exact (kmalloc_within s sz).mono (by norm_num)
  | memmap addr length prot flag =>
    obtain ⟨k, hk, h⟩ := memmap_pools addr length prot flag s
    have hn : pageCount length < 2^32 := Nat.mod_lt _ (by norm_num)
    exact ⟨k, by omega, _, h⟩

/-- The kernel's pages lie below the user frames. -/
structure Separate (p : Pools) : Prop where
  pages : ∀ x ∈ p.pages, ∃ c < startPaddrForUsrs, x = add64 c virtBase
  frame : startPaddrForUsrs ≤ p.frame ∧ p.frame < endPaddrForUsrs
  frames : ∀ f ∈ p.frames, startPaddrForUsrs ≤ f ∧ f < endPaddrForUsrs

theorem nextFrame_cases (f : Nat) :
    nextFrame f = add64 f pageSize ∧ add64 f pageSize < endPaddrForUsrs ∨
    nextFrame f = startPaddrForUsrs := by
  unfold nextFrame
  split
  next h => exact Or.inl ⟨rfl, h⟩
  next => exact Or.inr rfl

theorem nextFrame_step (f : Nat) (h : startPaddrForUsrs ≤ f ∧ f < endPaddrForUsrs) :
    startPaddrForUsrs ≤ nextFrame f ∧ nextFrame f < endPaddrForUsrs := by
  have hend : endPaddrForUsrs < 2^63 := by norm_num [endPaddrForUsrs]
  have hadd : add64 f pageSize = f + pageSize :=
    add64_of_lt f pageSize (by unfold pageSize; omega)
  rcases nextFrame_cases f with ⟨he, hlt⟩ | he
  · exact ⟨by omega, by omega⟩
  · exact ⟨by omega, by omega⟩

theorem nextFrame_range (n f : Nat) (h : startPaddrForUsrs ≤ f ∧ f < endPaddrForUsrs) :
    startPaddrForUsrs ≤ nextFrame^[n] f ∧ nextFrame^[n] f < endPaddrForUsrs := by
  induction n generalizing f with
  | zero => rwa [Function.iterate_zero_apply]
  | succ n ih =>
    rw [Function.iterate_succ_apply]
    exact ih (nextFrame f) (nextFrame_step f h)

/-- One call keeps them apart when it leaves the kernel's pointer below the frames. -/
theorem Separate.step {p q : Pools} (h : Separate p) (hw : p.Within (2^34) q)
    (hp : p.cursor ≤ startPaddrForUsrs) (hq : q.cursor ≤ startPaddrForUsrs) : Separate q := by
  obtain ⟨n, hn, m, rfl⟩ := hw
  have hp' : p.cursor ≤ 0x5000000 := hp
  have hat (j : Nat) (hj : j ≤ n) : nextPage^[j] p.cursor = p.cursor + 4096*j :=
    nextPage_iterate j p.cursor (by omega)
  have hq' : p.cursor + 4096*n ≤ startPaddrForUsrs := by
    rw [← hat n le_rfl]
    exact hq
  refine ⟨?_, nextFrame_range m p.frame h.frame, ?_⟩
  · intro x hx
    rcases List.mem_append.mp hx with hx | hx
    · obtain ⟨c, hc, rfl⟩ := List.mem_map.mp hx
      obtain ⟨j, hj, rfl⟩ := (mem_draws _ _ _ _).mp hc
      refine ⟨_, ?_, rfl⟩
      rw [hat j hj.le]
      omega
    · exact h.pages x hx
  · intro f hf
    rcases List.mem_append.mp hf with hf | hf
    · obtain ⟨j, -, rfl⟩ := (mem_draws _ _ _ _).mp hf
      exact nextFrame_range j p.frame h.frame
    · exact h.frames f hf

theorem Booted.usrPhysAddr {m : Mem} {pf : Nat} {s : Kernel} (h : Booted m pf s) :
    s.usrPhysAddr = startPaddrForUsrs :=
  congrArg (·.getD 6 0) h.config

theorem Booted.separate {m : Mem} {pf : Nat} {s : Kernel} (h : Booted m pf s) :
    Separate s.pools := by
  have hframe := h.usrPhysAddr
  have hearly (t : Nat) : framesIn (earlyLog pf t) = [] := by
    induction t with
    | zero => rfl
    | succ t ih => exact ih
  have hframes : s.pools.frames = [] := by
    rw [Kernel.pools]
    dsimp only
    rw [h.log, hearly]
  refine ⟨?_, ?_, ?_⟩
  · rw [h.pools.2]
    simp
  · rw [show s.pools.frame = _ from hframe]
    decide
  · rw [hframes]
    simp

theorem runCalls_separate (m : Mem) (pf : Nat) (hp : pf % 4096 = 0) (hf : pf < 2^52)
    (calls : List MemCall)
    (hc : ∀ xs, xs <+: calls → (runCalls xs (booted m pf)).cursor ≤ startPaddrForUsrs) :
    Separate (runCalls calls (booted m pf)).pools := by
  induction calls using List.reverseRecOn with
  | nil => exact (booted_spec m pf hp hf).separate
  | append_singleton calls c ih =>
    have hsep := ih fun xs hxs => hc xs (hxs.trans (List.prefix_append _ _))
    rw [runCalls_snoc]
    refine hsep.step (c.run_within _) (hc calls (List.prefix_append _ _)) ?_
    have hlast := hc (calls++[c]) List.prefix_rfl
    rwa [runCalls_snoc] at hlast

/-- The two allocators in any order: as long as page_alloc's pointer has not passed the first
user frame, no page of the kernel is ever handed out as a frame. -/
theorem runCalls_pages_frames (m : Mem) (pf : Nat) (hp : pf % 4096 = 0) (hf : pf < 2^52)
    (calls : List MemCall)
    (hc : ∀ xs, xs <+: calls → (runCalls xs (booted m pf)).cursor ≤ startPaddrForUsrs) :
    ∀ p ∈ pagesIn (runCalls calls (booted m pf)).log,
      ∀ f ∈ framesIn (runCalls calls (booted m pf)).log, p ≠ add64 f virtBase := by
  have h := runCalls_separate m pf hp hf calls hc
  generalize runCalls calls (booted m pf) = s at h ⊢
  intro p hpg f hfr he
  obtain ⟨c, hlt, hx⟩ := h.pages p hpg
  have hrange := h.frames f hfr
  rw [hx] at he
  unfold add64 virtBase startPaddrForUsrs endPaddrForUsrs at *
  omega

theorem runCalls_within (N : Nat) (calls : List MemCall) (s : Kernel)
    (h : ∀ c ∈ calls, ∀ t : Kernel, t.pools.Within N (c.run t).pools) :
    s.pools.Within (N*calls.length) (runCalls calls s).pools := by
  induction calls using List.reverseRecOn with
  | nil => exact ⟨0, by omega, 0, rfl⟩
  | append_singleton calls c ih =>
    have hcalls := ih fun d hd => h d (List.mem_append_left _ hd)
    have hc := h c (by simp) (runCalls calls s)
    rw [runCalls_snoc]
    exact (hcalls.trans hc).mono (by simp [Nat.mul_add])

/-- A process page after a kernel allocation. -/
theorem runCalls_pages_frames_first :
    0x300000 % 4096 = 0 ∧ ∀ p ∈ pagesIn (runCalls [.alloc .pageAlloc, .memmap 0x400000 pageSize usrPermBits
        .accessedNotPresent] (booted (fun _ => 0) 0x300000)).log,
      ∀ f ∈ framesIn (runCalls [.alloc .pageAlloc, .memmap 0x400000 pageSize usrPermBits
        .accessedNotPresent] (booted (fun _ => 0) 0x300000)).log, p ≠ add64 f virtBase := by
  have hb := (booted_spec (fun _ => 0) 0x300000 (by norm_num) (by norm_num)).pools.1
  refine ⟨by norm_num,
    runCalls_pages_frames (fun _ => 0) 0x300000 (by norm_num) (by norm_num) _ ?_⟩
  intro xs hxs
  have hlen : xs.length ≤ 2 := hxs.length_le
  have hw := runCalls_within 11 xs (booted (fun _ => 0) 0x300000) (by
    intro c hc t
    have hc := hxs.subset hc
    simp only [List.mem_cons, List.not_mem_nil, or_false] at hc
    rcases hc with hc | hc
    · rw [hc]
      exact ⟨1, by norm_num, 0, pageAlloc_pools t⟩
    · rw [hc]
      exact memmap_within _ _ _ t)
  have hle := hw.cursor_le (by rw [hb]; unfold pool; omega)
  rw [hb] at hle
  refine le_trans hle ?_
  unfold pool startPaddrForUsrs
  omega

/-- kmalloc of 80 MiB reaches the first user frame, and the next process page is that frame. -/
theorem runCalls_share_frame :
    add64 startPaddrForUsrs virtBase ∈ pagesIn (runCalls [.alloc (.kmalloc 0x5000000),
      .memmap 0x400000 pageSize usrPermBits .accessedNotPresent]
      (booted (fun _ => 0) 0x300000)).log ∧
    startPaddrForUsrs ∈ framesIn (runCalls [.alloc (.kmalloc 0x5000000),
      .memmap 0x400000 pageSize usrPermBits .accessedNotPresent]
      (booted (fun _ => 0) 0x300000)).log := by
  have hboot := booted_spec (fun _ => 0) 0x300000 (by norm_num) (by norm_num)
  have hcur := hboot.pools.1
  have hframe := hboot.usrPhysAddr
  generalize booted (fun _ => 0) 0x300000 = s at hcur hframe ⊢
  have hk := kmalloc_pools_exact s 0x5000000 (by norm_num) (by norm_num)
  obtain ⟨k, -, hm⟩ := memmap_pools 0x400000 pageSize usrPermBits .accessedNotPresent
    (kmalloc 0x5000000 s).2
  rw [hk, Pools.draw_draw] at hm
  simp only [runCalls, List.foldl_cons, List.foldl_nil, MemCall.run, AllocCall.run]
  generalize (memmap 0x400000 pageSize usrPermBits .accessedNotPresent
    (kmalloc 0x5000000 s).2).2 = t at hm ⊢
  constructor
  · have hat : nextPage^[19589] s.pools.cursor = startPaddrForUsrs := by
      rw [nextPage_iterate _ _ (by rw [hcur]; unfold pool; omega), hcur]
      rfl
    have hpages : pagesIn t.log = _ := congrArg Pools.pages hm
    rw [hpages]
    refine List.mem_append_left _ (List.mem_map.mpr ⟨_, ?_, rfl⟩)
    exact (mem_draws _ _ _ _).mpr ⟨19589, by omega, hat⟩
  · have hframes : framesIn t.log = _ := congrArg Pools.frames hm
    rw [hframes]
    refine List.mem_append_left _ ((mem_draws _ _ _ _).mpr ⟨0, ?_, hframe⟩)
    decide

end SBUnix
