import SBUnix.Paging.PageFault

namespace SBUnix

open ByteMemory Word

/-- No address of the kernel's last 2 GiB has the user bit at all four levels. -/
def KernelPrivate (s : Kernel) : Prop :=
  ∀ va, virtBase ≤ va → va < 2^64 → ¬ Permits s va false

/-- The kernel's addresses walk as set_free_list has left them. -/
def HasKernelMap (m : Mem) (pf : Nat) (s : Kernel) : Prop :=
  ∀ va, virtBase ≤ va → va < 2^64 → s.lookup va = (booted m pf).lookup va

/-- A fault of code 4, 6 or 7 at an address that does not shut the kernel down. -/
structure Faults (s : Kernel) (f : UserFault) (addr : Nat) : Prop where
  code : f ≠ .readDenied
  outside : ¬(add64 virtBase s.physbase ≤ addr ∧ addr < add64 virtBase s.physfree)

/-- The fault is in the user half, and so is the page that code 7 takes in its place; page_alloc
has the pages left that memmap may need. -/
structure UserHalf (s : Kernel) (f : UserFault) (addr : Nat) : Prop where
  addr : addr < 2^47
  cow : f = .writeDenied → s.userAddr < 2^47
  left : PagesLeft s

/-- page_fault_handler has served one fault of the user half. -/
inductive FaultStep : Kernel → Kernel → Prop where
  | serve (s : Kernel) (f : UserFault) (addr : Nat) (hf : Faults s f addr)
      (hu : UserHalf s f addr) : FaultStep s (pageFaultHandler f addr s).2

section Step

variable {s t : Kernel} {m : Mem} {pf : Nat}

theorem VaCursor.step_limit (c : VaCursor) (flag : MapFlag) : (c.step flag).limit = c.limit := by
  cases flag with
  | newPage =>
    rw [VaCursor.step]
    split_ifs <;> rfl
  | _ => rfl

/-- One served fault is one page of the user half installed. -/
theorem FaultStep.installed (h : InForce s) (hs : FaultStep s t) :
    InForce t ∧ ∃ virt prot n page, Installed s t virt s.usrPhysAddr prot n page := by
  have hstep (addr la prot : Nat) (flag : MapFlag) (hm : ∃ n page, Installed s
      (memmap addr pageSize prot flag s).2 (roundDown la pageSize) s.usrPhysAddr prot n page) :
      InForce (memmap addr pageSize prot flag s).2 ∧ ∃ virt prot' n page,
        Installed s (memmap addr pageSize prot flag s).2 virt s.usrPhysAddr prot' n page := by
    obtain ⟨n, page, hm⟩ := hm
    refine ⟨⟨hm.wellFormed, memmap_cr3 _ _ _ _ _, ?_⟩, _, _, n, page, hm⟩
    rw [memmap_vaCursor, VaCursor.step_limit]
    exact h.limit
  cases hs with
  | serve f addr hf hu =>
    rw [handler_user f h hu.addr]
    cases f with
    | readAbsent =>
      apply hstep addr addr
      exact accessed_installed h.wf hu.left addr _ hu.addr (by decide) (by decide)
    | readDenied => exact absurd rfl hf.code
    | writeAbsent =>
      apply hstep addr addr
      exact accessed_installed h.wf hu.left addr _ hu.addr (by decide) (by decide)
    | writeDenied =>
      apply hstep addr s.userAddr
      exact cow_installed ⟨h, hu.left, hu.cow rfl⟩ addr _ (by decide) (by decide)

theorem Installed.hasKernelMap {virt frame perm n : Nat} {page : Nat → Nat}
    (hm : Installed s t virt frame perm n page) (hk : HasKernelMap m pf s) :
    HasKernelMap m pf t := by
  intro va hlo hhi
  have htop : slotOf virt 0 < 256 := hm.user.2 _ (by simp [slotOf, pathOf])
  have hne : slotOf va 0 ≠ slotOf virt 0 := by
    rw [slotOf_kernel hlo hhi]
    omega
  rw [hm.lookup_of_top hne, hk va hlo hhi]

theorem faultRun_kernelMap (h : InForce s) (hk : HasKernelMap m pf s)
    (hrun : Relation.ReflTransGen FaultStep s t) : InForce t ∧ HasKernelMap m pf t := by
  induction hrun with
  | refl => exact ⟨h, hk⟩
  | tail _ hs ih =>
    obtain ⟨hforce, virt, prot, n, page, hm⟩ := hs.installed ih.1
    exact ⟨hforce, hm.hasKernelMap ih.2⟩

end Step

section Boot

variable {m : Mem} {pf : Nat}

/-- The last slot of the PML4: the PDP, for the kernel alone. -/
theorem booted_kernelSlot (hp : pf % 4096 = 0) (hf : pf < 2^52) :
    entry (booted m pf).mem (pool pf) 511 = pool pf + 4096*1 + 3 := by
  have hal := pool_aligned hp
  have hpage := afterBoot_pool m pf 0 511
  rw [Nat.mul_zero, Nat.add_zero] at hpage
  rw [(booted_spec m pf hp hf).entry_eq hal _ 511 hal (by norm_num), hpage]
  rfl

theorem booted_lastSlot (hp : pf % 4096 = 0) (hf : pf < 2^52) :
    entry (booted (fun _ => 0) pf).mem (pool pf + 4096*1) 511 = 0 := by
  have hal := pool_aligned hp
  rw [(booted_spec _ pf hp hf).entry_eq hal _ 511 (by omega) (by norm_num), afterBoot_pool]
  exact leftover_zero pf 1 511 (Or.inr (Or.inl ⟨rfl, by norm_num, by norm_num, by norm_num⟩))
    (by norm_num)

theorem Booted.physfree {s : Kernel} (h : Booted m pf s) : s.physfree = pf :=
  congrArg (·.getD 1 0) h.config

theorem HasKernelMap.kernelPrivate {s : Kernel} (hp : pf % 4096 = 0) (hf : pf < 2^52)
    (hcr3 : s.cr3 = s.root) (hk : HasKernelMap m pf s) : KernelPrivate s := by
  intro va hlo hhi
  rintro ⟨es, hes, huser, -⟩
  have hslot : getPml4Offset va = 511 := slotOf_kernel hlo hhi
  have hal := pool_aligned hp
  have hlook : s.lookup va = some es := by rw [Kernel.lookup, ← hcr3, hes]
  rw [hk va hlo hhi, Kernel.lookup, walk, booted_root m hp hf, pathOf, hslot, RadixTable.walk,
    booted_kernelSlot hp hf] at hlook
  obtain ⟨q, -, hq⟩ := Option.bind_eq_some_iff.mp hlook
  obtain ⟨fs, -, rfl⟩ := Option.map_eq_some_iff.mp hq
  rw [List.all_cons, Bool.and_eq_true] at huser
  have hbit : (pool pf + 4096*1 + 3) / 4 % 2 = 1 := of_decide_eq_true huser.1
  omega

end Boot

/-- In every run of faults of the user half the kernel stays private. -/
theorem faultRun_kernelPrivate {m : Mem} {pf : Nat} (hp : pf % 4096 = 0) (hf : pf < 2^52)
    {s t : Kernel} (h : InForce s) (hk : HasKernelMap m pf s)
    (hrun : Relation.ReflTransGen FaultStep s t) : KernelPrivate t := by
  obtain ⟨hforce, hmap⟩ := faultRun_kernelMap h hk hrun
  exact hmap.kernelPrivate hp hf hforce.cr3

theorem booted_hasKernelMap (m : Mem) (pf : Nat) : HasKernelMap m pf (booted m pf) :=
  fun _ _ _ => rfl

/-- A first write right after boot. -/
theorem faultRun_kernelPrivate_first :
    0x300000 % 4096 = 0 ∧
    KernelPrivate (pageFaultHandler .writeAbsent 0x400123 (booted (fun _ => 0) 0x300000)).2 := by
  have h := booted_serving
  have hout := h.toInForce.outside (show 0x400123 < virtBase by norm_num [virtBase])
  have hstep := FaultStep.serve _ .writeAbsent 0x400123 ⟨by decide, hout⟩
    ⟨by norm_num, fun _ => h.userAddr, h.left⟩
  exact ⟨by norm_num, faultRun_kernelPrivate (by norm_num : 0x300000 % 4096 = 0) (by norm_num)
    h.toInForce (booted_hasKernelMap _ _) (.single hstep)⟩

/-- The last slot of boot's PDP is free: the tables for the last GiB can be taken. -/
theorem passable_last {s : Kernel} {b : Nat} (hb : b % 4096 = 0) (hroot : s.root = b)
    (hpml4 : entry s.mem b 511 = b + 4096*1 + 3) (hpdp : entry s.mem (b + 4096*1) 511 = 0) :
    tableAt s [511, 511] = none ∧ Passable s [511, 511, 0, 0] := by
  have h1 : tableAt s [511] = some (b + 4096*1) := by
    rw [← List.nil_append [511], tableAt_snoc, tableAt_nil, hroot, Option.bind_some, hpml4]
    exact next_add _ 3 (by omega) (by norm_num) rfl
  have h2 : tableAt s [511, 511] = none := by
    rw [show [511, 511] = [511]++[511] from rfl, tableAt_snoc, h1, Option.bind_some, hpdp]
    exact next_of_even 0 rfl
  have h3 : tableAt s [511, 511, 0] = none := by
    rw [show [511, 511, 0] = [511, 511]++[0] from rfl, tableAt_snoc, h2, Option.bind_none]
  have hold (ρ : List Nat) (hρ : ρ <+: [511, 511, 0, 0]) (hlen : ρ.length ≤ 3) (p : Nat)
      (hp : tableAt s ρ = some p) : ρ = [] ∧ p = b ∨ ρ = [511] ∧ p = b + 4096*1 := by
    have htake := List.prefix_iff_eq_take.mp hρ
    generalize ρ.length = k at hlen htake
    subst htake
    interval_cases k
    · rw [List.take_zero, tableAt_nil, hroot] at hp
      exact Or.inl ⟨rfl, (Option.some.inj hp).symm⟩
    · exact Or.inr ⟨rfl, Option.some.inj (hp.symm.trans h1)⟩
    · exact absurd (hp.symm.trans h2) (by simp)
    · exact absurd (hp.symm.trans h3) (by simp)
  refine ⟨h2, by simp [Slots], ?_, ?_⟩
  · intro ρ i p hi hlen hp
    have hρ := (List.prefix_append ρ [i]).trans hi
    rcases hold ρ hρ (by omega) p hp with ⟨rfl, rfl⟩ | ⟨rfl, rfl⟩
    · have h511 : i = 511 := by simpa using hi
      rw [h511, hpml4]
      omega
    · have h511 : i = 511 := by simpa using hi
      exact Or.inl (by rw [h511, hpdp])
  · intro ρ σ p hρ hσ hρ3 hσ3 hne hp hq
    rcases hold ρ hρ hρ3 p hp with ⟨rfl, rfl⟩ | ⟨rfl, rfl⟩
    · rcases hold σ hσ hσ3 _ hq with ⟨rfl, -⟩ | ⟨-, h⟩
      · exact hne rfl
      · omega
    · rcases hold σ hσ hσ3 _ hq with ⟨-, h⟩ | ⟨rfl, -⟩
      · omega
      · exact hne rfl

/-- An absent page of the last GiB: memmap maps it for the user like any other. -/
theorem write_last {s : Kernel} {b : Nat} (h : Serving s) (hb : b % 4096 = 0) (hroot : s.root = b)
    (hpml4 : entry s.mem b 511 = b + 4096*1 + 3) (hpdp : entry s.mem (b + 4096*1) 511 = 0)
    (hfree : add64 virtBase s.physfree ≤ 0xFFFFFFFFC0000000) :
    Raises s 0xFFFFFFFFC0000000 .writeAbsent ∧ Faults s .writeAbsent 0xFFFFFFFFC0000000 ∧
      Permits (pageFaultHandler .writeAbsent 0xFFFFFFFFC0000000 s).2 0xFFFFFFFFC0000000 false := by
  have hpath : pathOf 0xFFFFFFFFC0000000 = [511, 511, 0, 0] := by
    simp [pathOf, getPml4Offset_eq, getPdpOffset_eq, getPdOffset_eq, getPtOffset_eq]
  obtain ⟨hnone, hpass⟩ := passable_last hb hroot hpml4 hpdp
  have hout : ¬(add64 virtBase s.physbase ≤ 0xFFFFFFFFC0000000 ∧
      0xFFFFFFFFC0000000 < add64 virtBase s.physfree) := by
    intro hin
    omega
  refine ⟨?_, ⟨by decide, hout⟩, ?_⟩
  · rw [Raises, h.cr3, walk, hpath, show [511, 511, 0, 0] = [511, 511]++[0, 0] from rfl,
      RadixTable.walk_append]
    have htab : RadixTable.table next (entry s.mem) s.root [511, 511] = none := hnone
    rw [htab]
    cases RadixTable.walk next (entry s.mem) s.root [511, 511] with
    | none => rfl
    | some es => rfl
  · rw [pageFaultHandler, if_neg hout, if_neg (fun h => by cases h.2), handleCode]
    rw [← hpath] at hpass
    have hm := memmap_mapped h.wf h.left (accessed_eq 0xFFFFFFFFC0000000 usrPermBits s) hpass
      (by rw [pathOf_roundDown]) (by decide)
    obtain ⟨n, page, hm⟩ := hm
    have hself := hm.lookup_self h.wf h.wf.frame.1 (by decide) (by decide)
      (pathOf_roundDown 0xFFFFFFFFC0000000).symm
    refine (permits_iff (memmap_cr3 _ _ _ _ _) _ _).mpr ⟨rights [usrPermBits], ?_, by decide, by simp⟩
    rw [Kernel.rightsOf, hself, Option.map_some, rights_link (by omega)]
    intro k hk
    rw [link]
    split_ifs
    · exact h.wf.frame.1
    · exact hm.aligned h.wf (by omega)

/-- A write to the last GiB right after boot. -/
theorem faultRun_exposes :
    ∃ s, Serving s ∧ HasKernelMap (fun _ => 0) 0x300000 s ∧
      Raises s 0xFFFFFFFFC0000000 .writeAbsent ∧ Faults s .writeAbsent 0xFFFFFFFFC0000000 ∧
      KernelPrivate s ∧ ¬ KernelPrivate (pageFaultHandler .writeAbsent 0xFFFFFFFFC0000000 s).2 := by
  have h := booted_serving
  have hmap := booted_hasKernelMap (fun _ => 0) 0x300000
  have hb := booted_spec (fun _ => 0) 0x300000 (by norm_num) (by norm_num)
  have hal := pool_aligned (show 0x300000 % 4096 = 0 by norm_num)
  have hroot := booted_root (fun _ => 0) (show 0x300000 % 4096 = 0 by norm_num) (by norm_num)
  have hpml4 : entry (booted (fun _ => 0) 0x300000).mem (pool 0x300000) 511 = _ :=
    booted_kernelSlot (by norm_num) (by norm_num)
  have hpdp := booted_lastSlot (show 0x300000 % 4096 = 0 by norm_num) (by norm_num)
  have hfree := hb.physfree
  have hprivate := hmap.kernelPrivate (by norm_num) (by norm_num) h.cr3
  refine ⟨_, h, hmap, ?_⟩
  generalize booted (fun _ => 0) 0x300000 = k at h hroot hpml4 hpdp hprivate hfree ⊢
  obtain ⟨hraise, hfault, hperm⟩ := write_last h hal hroot hpml4 hpdp (by rw [hfree]; decide)
  exact ⟨hraise, hfault, hprivate, fun hpriv => hpriv _ (by decide) (by norm_num) hperm⟩

end SBUnix
