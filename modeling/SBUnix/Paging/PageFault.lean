import SBUnix.Paging.Rights
import SBUnix.Paging.VaRuns

namespace SBUnix

open ByteMemory Word

/-- The error codes of an access in user mode: 0b100 to 0b111. -/
inductive UserFault where
  | readAbsent
  | readDenied
  | writeAbsent
  | writeDenied
  deriving DecidableEq, Repr

def UserFault.isWrite : UserFault → Bool
  | readAbsent | readDenied => false
  | writeAbsent | writeDenied => true

/-- Whether page_fault_handler goes back to the access, or to kshutdown or exit_process. -/
inductive FaultEnd where
  | returns
  | shutdown
  | exits
  deriving DecidableEq, Repr

/-- The branches of page_fault_handler on the error code. -/
def handleCode (addr : Nat) (s : Kernel) : UserFault → FaultEnd × Kernel
  | .readAbsent => (.returns, (memmap addr pageSize cowPermBits .accessedNotPresent s).2)
  | .readDenied => (.exits, s)
  | .writeAbsent => (.returns, (memmap addr pageSize usrPermBits .accessedNotPresent s).2)
  | .writeDenied => (.returns, (memmap addr pageSize usrPermBits .setCowRw s).2)

/-- page_fault_handler for a fault in user mode at `addr`. -/
def pageFaultHandler (f : UserFault) (addr : Nat) (s : Kernel) : FaultEnd × Kernel :=
  if add64 virtBase s.physbase ≤ addr ∧ addr < add64 virtBase s.physfree then (.shutdown, s)
  else if virtBase < addr ∧ f = .writeDenied then
    handleCode addr (setKernelPageUser (roundDown addr pageSize) s) f
  else handleCode addr s f

/-- The processor lets a user access to `addr` through. -/
def Permits (s : Kernel) (addr : Nat) (write : Bool) : Prop :=
  ∃ es, walk s.mem s.cr3 addr = some es ∧ es.all userAccess = true ∧
    (write = true → es.all writable = true)

/-- The processor's walk is one that raises `f`. -/
def Raises (s : Kernel) (addr : Nat) : UserFault → Prop
  | .readAbsent | .writeAbsent => walk s.mem s.cr3 addr = none
  | .readDenied => walk s.mem s.cr3 addr ≠ none ∧ ¬ Permits s addr false
  | .writeDenied => walk s.mem s.cr3 addr ≠ none ∧ ¬ Permits s addr true

/-- The handler returns, and the access that was refused is let through. -/
def Resolves (f : UserFault) (addr : Nat) (s : Kernel) : Prop :=
  (pageFaultHandler f addr s).1 = .returns ∧ Permits (pageFaultHandler f addr s).2 addr f.isWrite

/-- Well-formed tables that are in force, with the kernel in the last 2 GiB. -/
structure InForce (s : Kernel) : Prop where
  wf : WellFormed s
  cr3 : s.cr3 = s.root
  limit : virtBase ≤ s.vaCursor.limit

/-- There are pages left for more tables, and user_addr is in the user half. -/
structure Serving (s : Kernel) : Prop extends InForce s where
  left : PagesLeft s
  userAddr : s.userAddr < 2^47

/-- What SET_COW_RW does for `addr`: it maps the page of user_addr, or at least rewrites all the
entries on the way to `addr` that refused the access. -/
def CowHelps (s : Kernel) (addr : Nat) : Prop :=
  addr / 4096 = s.userAddr / 4096 ∨
    ∀ es, s.lookup addr = some es →
      rights (es.drop (RadixTable.common (pathOf addr) (pathOf s.userAddr))) = (true, true)

section Handler

variable {s t : Kernel} {addr virt frame perm n : Nat} {page : Nat → Nat}

theorem permits_iff (h : s.cr3 = s.root) (addr : Nat) (w : Bool) :
    Permits s addr w ↔ ∃ r, s.rightsOf addr = some r ∧ r.2 = true ∧ (w = true → r.1 = true) := by
  rw [Permits, h]
  constructor
  · rintro ⟨es, hes, hu, hw⟩
    exact ⟨rights es, by rw [Kernel.rightsOf, Kernel.lookup, hes, Option.map_some], hu, hw⟩
  · rintro ⟨r, hr, hu, hw⟩
    obtain ⟨es, hes, rfl⟩ := Option.map_eq_some_iff.mp hr
    exact ⟨es, hes, hu, hw⟩

/-- The page that is mapped allows what its permission bits say. -/
theorem Installed.rightsOf_self (hm : Installed s t virt frame perm n page) {va : Nat}
    (hva : pathOf va = pathOf virt) : t.rightsOf va = some (rights [perm]) := by
  rw [Kernel.rightsOf, hm.lookup_self hva, Option.map_some,
    rights_link (by omega) fun k hk => hm.link_aligned hk]

theorem InForce.outside (h : InForce s) (ha : addr < virtBase) :
    ¬(add64 virtBase s.physbase ≤ addr ∧ addr < add64 virtBase s.physfree) := by
  have hl := h.limit
  rw [Kernel.vaCursor, h.wf.base] at hl
  have hbase : virtBase ≤ add64 virtBase s.physbase := by rwa [add64, Nat.add_comm]
  intro hin
  omega

theorem handler_user (f : UserFault) (h : InForce s) (ha : addr < 2^47) :
    pageFaultHandler f addr s = handleCode addr s f := by
  have hlow : addr < virtBase := lt_trans ha (by norm_num [virtBase])
  rw [pageFaultHandler, if_neg (h.outside hlow), if_neg (fun h => by omega)]

theorem cow_installed (h : Serving s) (addr prot : Nat) (h1 : prot % 2 = 1) (hprot : prot < 4096) :
    ∃ n page, Installed s (memmap addr pageSize prot .setCowRw s).2
      (roundDown s.userAddr pageSize) s.usrPhysAddr prot n page := by
  obtain ⟨a, he⟩ := setCowRw_eq addr prot s
  have hm := memmap_installed h.wf h.left he h.userAddr (by rw [pathOf_roundDown]) h1 hprot
  exact hm

/-- Codes 4 and 6 map the page itself, with the user bit and, for a write, the write bit. -/
theorem absent_permits (h : Serving s) (ha : addr < 2^47) (prot : Nat) (w : Bool)
    (hp : prot = cowPermBits ∨ prot = usrPermBits) (hw : w = true → prot = usrPermBits) :
    Permits (memmap addr pageSize prot .accessedNotPresent s).2 addr w := by
  obtain ⟨h1, hprot⟩ := prot_cases hp
  obtain ⟨n, page, hm⟩ := accessed_installed h.wf h.left addr prot ha h1 hprot
  refine (permits_iff (memmap_cr3 _ _ _ _ _) addr w).mpr
    ⟨_, hm.rightsOf_self (pathOf_roundDown addr).symm, ?_, ?_⟩
  · rcases hp with rfl | rfl
    · decide
    · decide
  · intro hwt
    rw [hw hwt]
    decide

/-- Code 7 maps the page of user_addr instead. -/
theorem denied_permits_iff (h : Serving s) (ha : addr < 2^47) (hr : Raises s addr .writeDenied) :
    Permits (memmap addr pageSize usrPermBits .setCowRw s).2 addr true ↔ CowHelps s addr := by
  obtain ⟨n, page, hm⟩ := cow_installed h addr usrPermBits (by decide) (by decide)
  have hpath := pathOf_roundDown s.userAddr
  rw [permits_iff (memmap_cr3 _ _ _ _ _)]
  by_cases hpage : addr / 4096 = s.userAddr / 4096
  · refine iff_of_true ⟨_, hm.rightsOf_self ?_, by decide, fun _ => by decide⟩ (Or.inl hpage)
    rw [hpath, pathOf_congr hpage]
  · have hne : pathOf addr ≠ pathOf (roundDown s.userAddr pageSize) := by
      rw [hpath]
      exact fun he => hpage (page_eq_of_pathOf (Or.inl ha) h.userAddr he)
    obtain ⟨hsome, -⟩ := hr
    rw [h.cr3] at hsome
    obtain ⟨es, hes⟩ := Option.ne_none_iff_exists'.mp hsome
    have hes' : s.lookup addr = some es := hes
    rw [hm.rightsOf_other hne hes', hpath, CowHelps]
    generalize RadixTable.common (pathOf addr) (pathOf s.userAddr) = j
    -- the entries it shares with user_addr now allow everything, so the others decide
    have hrest : (if j = 0 then rights es else bothAllow (rights [usrPermBits]) (rights (es.drop j)))
        = rights (es.drop j) := by
      split_ifs with h0
      · rw [h0, List.drop_zero]
      · simp [bothAllow, rights, writable, userAccess, usrPermBits]
    rw [hrest]
    constructor
    · rintro ⟨r, hr, hu, hw⟩
      refine Or.inr fun es' hes'' => ?_
      rw [hes', Option.some_inj] at hes''
      rw [← hes'', Option.some_inj.mp hr]
      exact Prod.ext (hw rfl) hu
    · intro hc
      have hall := (hc.resolve_left hpage) es hes'
      exact ⟨_, rfl, by rw [hall], fun _ => by rw [hall]⟩

end Handler

/-- After page_fault_handler the access is let through exactly if the page was absent, or if
SET_COW_RW happens to help. -/
theorem pageFault_resolves_iff {s : Kernel} (h : Serving s) {addr : Nat} (ha : addr < 2^47)
    {f : UserFault} (hf : f ≠ .readDenied) (hr : Raises s addr f) :
    Resolves f addr s ↔ (f = .writeDenied → CowHelps s addr) := by
  rw [Resolves, handler_user f h.toInForce ha]
  cases f with
  | readAbsent =>
    exact iff_of_true ⟨rfl, absent_permits h ha _ _ (Or.inl rfl) (by simp [UserFault.isWrite])⟩
      (by simp)
  | readDenied => exact absurd rfl hf
  | writeAbsent => exact iff_of_true ⟨rfl, absent_permits h ha _ _ (Or.inr rfl) fun _ => rfl⟩ (by simp)
  | writeDenied =>
    have hiff := denied_permits_iff h ha hr
    exact ⟨fun hres _ => hiff.mp hres.2, fun hc => ⟨rfl, hiff.mpr (hc rfl)⟩⟩

theorem booted_serving : Serving (booted (fun _ => 0) 0x300000) := by
  have hb := booted_spec (fun _ => 0) 0x300000 (by norm_num) (by norm_num)
  have hw := zeroBoot_wellFormed
  have hroot := booted_root (fun _ => 0) (show 0x300000 % 4096 = 0 by norm_num) (by norm_num)
  have hva := hb.vaCursor
  generalize booted (fun _ => 0) 0x300000 = k at hb hw hroot hva
  refine ⟨⟨hw, by rw [hb.cr3, hroot], ?_⟩, hb.pagesLeft (by norm_num [pool]), ?_⟩
  · rw [hva]
    decide
  · have hu : k.vaCursor.userAddr < 2^47 := by
      rw [hva]
      decide
    exact hu

/-- A first write to a page that is absent, right after boot. -/
theorem pageFault_resolves_first :
    0x300000 % 4096 = 0 ∧ Resolves .writeAbsent 0x400123 (booted (fun _ => 0) 0x300000) := by
  have h := booted_serving
  have hnone : Raises (booted (fun _ => 0) 0x300000) 0x400123 .writeAbsent := by
    rw [Raises, h.cr3]
    exact booted_lookup_none (by norm_num) (by norm_num) (by norm_num)
      (by simp [slotOf, pathOf, getPml4Offset_eq])
  exact ⟨by norm_num, (pageFault_resolves_iff h (by norm_num) (by decide) hnone).mpr (by simp)⟩

theorem accessed_userAddr (addr length prot : Nat) (s : Kernel) :
    (memmap addr length prot .accessedNotPresent s).2.userAddr = s.userAddr := by
  have hva := memmap_vaCursor addr length prot .accessedNotPresent s
  generalize (memmap addr length prot .accessedNotPresent s).2 = t at hva ⊢
  exact congrArg VaCursor.userAddr hva

/-- A read fault leaves a state that serves the next one. -/
theorem Serving.accessed {s : Kernel} (h : Serving s) {addr prot : Nat} (ha : addr < 2^47)
    (hp : prot = cowPermBits ∨ prot = usrPermBits) (hs : s.counter + 6 ≤ numberOfPages)
    (htop : s.cursor + 4096*6 ≤ 49*0x200000) :
    Serving (memmap addr pageSize prot .accessedNotPresent s).2 := by
  obtain ⟨h1, hprot⟩ := prot_cases hp
  obtain ⟨n, page, hm⟩ := accessed_installed h.wf h.left addr prot ha h1 hprot
  have hva := memmap_vaCursor addr pageSize prot .accessedNotPresent s
  refine ⟨⟨hm.wellFormed, memmap_cr3 _ _ _ _ _, by rw [hva]; exact h.limit⟩, hm.pagesLeft hs htop, ?_⟩
  rw [accessed_userAddr]
  exact h.userAddr

/-- A page is read and then written: the write is refused for good, since SET_COW_RW maps the page
at user_addr. -/
theorem pageFault_repeats :
    ∃ s, Serving s ∧ Raises s 0x400000 .writeDenied ∧ ¬ Resolves .writeDenied 0x400000 s := by
  have h := booted_serving
  have hroom := zeroBoot_room
  have hva := (booted_spec (fun _ => 0) 0x300000 (by norm_num) (by norm_num)).vaCursor
  generalize booted (fun _ => 0) 0x300000 = k at h hroom hva
  obtain ⟨n, page, hm⟩ := accessed_installed h.wf h.left 0x400000 cowPermBits (by norm_num)
    (by decide) (by decide)
  have h1 : Serving (memmap 0x400000 pageSize cowPermBits .accessedNotPresent k).2 :=
    h.accessed (by norm_num) (Or.inl rfl) hroom.1 hroom.2
  have huser : (memmap 0x400000 pageSize cowPermBits .accessedNotPresent k).2.userAddr =
      startVaddrForUsrs := by
    rw [accessed_userAddr]
    exact congrArg VaCursor.userAddr hva
  have hself := hm.lookup_self (pathOf_roundDown 0x400000).symm
  have hmod (i : Nat) (hi : i < 4) : (link page k.usrPhysAddr i + cowPermBits) % 4096 = cowPermBits :=
    mod_of_aligned (hm.link_aligned hi) (by decide)
  have hright := hm.rightsOf_self (pathOf_roundDown 0x400000).symm
  generalize (memmap 0x400000 pageSize cowPermBits .accessedNotPresent k).2 = s at h1 huser hself hright
  have hraise : Raises s 0x400000 .writeDenied := by
    constructor
    · rw [h1.cr3]
      exact fun hn => Option.some_ne_none _ (hself.symm.trans hn)
    · rw [permits_iff h1.cr3, hright]
      rintro ⟨r, hr, -, hw⟩
      rw [← Option.some_inj.mp hr] at hw
      exact absurd (hw rfl) (by decide)
  refine ⟨s, h1, hraise, ?_⟩
  rw [Resolves, handler_user _ h1.toInForce (by norm_num)]
  rintro ⟨-, hperm⟩
  rcases (denied_permits_iff h1 (by norm_num) hraise).mp hperm with hpage | hrest
  · rw [huser] at hpage
    norm_num [startVaddrForUsrs] at hpage
  · have hcommon : RadixTable.common (pathOf 0x400000) (pathOf s.userAddr) = 1 := by
      rw [huser]
      simp [pathOf, RadixTable.common, getPml4Offset_eq, getPdpOffset_eq, startVaddrForUsrs]
    have hall := congrArg Prod.fst (hrest _ hself)
    rw [hcommon] at hall
    have hlast := List.all_eq_true.mp hall (link page k.usrPhysAddr 3 + cowPermBits)
      (by simp [List.range_succ])
    have hbit : (link page k.usrPhysAddr 3 + cowPermBits) / 2 % 2 = 1 := of_decide_eq_true hlast
    have hlow := hmod 3 (by norm_num)
    rw [cowPermBits] at hbit hlow
    omega

end SBUnix
