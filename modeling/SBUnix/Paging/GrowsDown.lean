import SBUnix.Paging.PageRange
import SBUnix.Paging.KernelUser

namespace SBUnix

open ByteMemory Word

/-- The page below user_addr. -/
def Kernel.stackPage (s : Kernel) : Nat := s.userAddr - 4096

/-- What GROWS_DOWN is for: that page gets the next frame, and no other page anything. -/
structure GrowsStack (s : Kernel) (addr : Nat) : Prop where
  returned : (memmap addr pageSize usrPermBits .growsDown s).1 = s.userAddr
  mapped : (memmap addr pageSize usrPermBits .growsDown s).2.frameOf s.stackPage =
    some s.usrPhysAddr
  others : ∀ x, Canonical x → x/4096 ≠ s.stackPage/4096 →
    (memmap addr pageSize usrPermBits .growsDown s).2.frameOf x = s.frameOf x

section Splice

variable {s : Kernel} {addr perm n : Nat} {r : Tables × Kernel} {page : Nat → Nat}

/-- The tables, and below them the frame. -/
def withFrame (page : Nat → Nat) (frame k : Nat) : Nat := if k = 4 then frame else page k

theorem withFrame_table {frame k : Nat} (hk : k < 4) : withFrame page frame k = page k := by
  rw [withFrame, if_neg (by omega)]

theorem withFrame_link {frame k : Nat} : withFrame page frame (k+1) = link page frame k := by
  simp only [withFrame, link, Nat.reduceEqDiff]

theorem Found.apart (hw : WellFormed s) (hu : UserPath (pathOf addr))
    (hf : Found s (pathOf addr) r n page) {k : Nat} (hk : k < 4) {ρ : List Nat} (hρ : Short ρ)
    (h : tableAt s ρ = some (page k)) : ρ = (pathOf addr).take k := by
  rcases hf.depth k hk with hd | ⟨-, hd, -⟩
  · have htake := hu.initial (List.take_prefix k (pathOf addr))
    exact (hw.tree _ ρ (page k) (take_short hk).1 htake hρ hd h).symm
  · have := hw.below ρ _ hρ h
    omega

/-- add_user_page in the tables that were looked up for another address. -/
theorem addUserPage_splice (hw : WellFormed s) (hr : PagesLeft s) (hu : UserPath (pathOf addr))
    (hf : Found s (pathOf addr) r n page) (virt : Nat) (h1 : perm % 2 = 1) (hperm : perm < 4096) :
    RadixTable.Splice next (entry s.mem)
      (entry (addUserPage virt r.1.pdp r.1.pd r.1.pt perm (r.2.setUser r.1)).mem) s.root (· < 512)
      (pathOf addr) (slotOf virt) (withFrame page s.usrPhysAddr) := by
  have hp := hf.fourTables hw hr
  have hlen := pathOf_length addr
  have hold {ρ : List Nat} {p i : Nat} (hρ : Short ρ) (hp : tableAt s ρ = some p) (hi : i < 512) :
      entry r.2.mem p i = entry s.mem p i :=
    hw.entry_taken hr hf.taken hf.le hρ hp hi
  rw [hf.addUserPage_mem hw]
  constructor
  case zero => exact (withFrame_table (by omega)).trans hf.root
  case index => exact pathOf_lt addr
  case apart =>
    intro k ρ hk hI hl h
    rw [withFrame_table (by omega)] at h
    exact hf.apart hw hu (by omega) ⟨by omega, hI⟩ h
  case old =>
    intro k hk
    rw [withFrame_table (by omega)]
    rcases hf.depth k (by omega) with h | h
    · exact Or.inl h
    · exact Or.inr h.1
  case written =>
    intro k hk
    have hal : link page s.usrPhysAddr k % 4096 = 0 := by
      unfold link
      split_ifs
      · exact hw.frame.1
      · exact hp.aligned _ (by omega)
    rw [withFrame_table (by omega), withFrame_link,
      linkPage_entry _ hp.lt hp.aligned hp.inj hw.frame.1 hw.frame.2 hperm k (by omega)]
    exact next_add _ _ hal hperm h1
  case kept =>
    intro k hk i hi hne h
    rw [withFrame_table (by omega)] at h ⊢
    rw [linkPage_entry_ne hp _ _ _ _ _ _ (by omega) hi hne, hold (take_short (by omega)) h hi]
  case blank =>
    intro k hk i hi hne h
    rw [withFrame_table (by omega), linkPage_entry_ne hp _ _ _ _ _ _ (by omega) hi hne]
    change tableAt s ((pathOf addr).take k) = none at h
    obtain ⟨-, hlo, hhi, -⟩ := (hf.depth k (by omega)).resolve_left (by rw [h]; simp)
    have hzero : entry r.2.mem (page k) i = 0 :=
      load_zero _ _ _ fun x hx hx' => hf.taken.fresh x (by omega) (by omega)
    rw [hzero]
    exact next_of_even 0 rfl
  case frame =>
    intro ρ p i hI hi hl h hne
    have hρ : Short ρ := ⟨by omega, hI⟩
    have hal := tableAt_aligned hw.aligned h
    rw [← hold hρ h hi]
    refine congrArg next (load_congr _ _ _ _ fun x hx hx' => linkPage_outside _ hp.lt x ?_)
    intro k hk
    have hk' := hp.aligned k hk
    have hslot := slotOf_lt virt hk
    have hpk : p ≠ page k := by
      have := hne k (by omega)
      rwa [withFrame_table hk] at this
    omega

end Splice

section Paths

theorem getElem?_pathOf (va : Nat) {k : Nat} (hk : k < 4) : (pathOf va)[k]? = some (slotOf va k) := by
  rw [slotOf, List.getD_eq_getElem?_getD, List.getElem?_eq_getElem (by simpa [pathOf] using hk)]
  rfl

theorem slotOf_two (va : Nat) : slotOf va 2 = getPdOffset va := rfl

/-- Every path of four indices is that of an address. -/
theorem exists_address {τ : List Nat} (hlen : τ.length = 4) (h : ∀ i ∈ τ, i < 512) :
    ∃ x, Canonical x ∧ pathOf x = τ := by
  obtain ⟨a, υ, rfl⟩ := List.exists_cons_of_length_eq_add_one hlen
  obtain ⟨b, c, d, rfl⟩ := List.length_eq_three.mp (by simpa using hlen)
  simp only [List.mem_cons, List.not_mem_nil, or_false, forall_eq_or_imp, forall_eq] at h
  obtain ⟨ha, hb, hc, hd⟩ := h
  exact ⟨vaOf a b c d, canonical_vaOf a b c d ha hb hc hd, pathOf_vaOf a b c d ha hb hc hd⟩

end Paths

/-- Where an address leads once the four entries of the page below user_addr have been written
in the tables of user_addr itself. -/
def rewired (s : Kernel) (x : Nat) : Option Nat :=
  RadixTable.spliced next (entry s.mem) s.root (pathOf s.userAddr) (slotOf s.stackPage)
    s.usrPhysAddr 0 (pathOf x)

/-- The level on which the ways to user_addr and to the page below it part. -/
def parting (s : Kernel) : Nat := RadixTable.common (pathOf s.userAddr) (pathOf s.stackPage)

/-- The region of user_addr on that level has no table yet, and of the region below it no other
page is mapped. -/
structure RegionsClear (s : Kernel) : Prop where
  absent : tableAt s ((pathOf s.userAddr).take (parting s + 1)) = none
  empty : ∀ x, Canonical x → x/4096 ≠ s.stackPage/4096 →
    (pathOf x).take (parting s + 1) = (pathOf s.stackPage).take (parting s + 1) →
    s.frameOf x = none

section Rewired

variable {s : Kernel}

theorem stackPage_add (hpos : 4096 ≤ s.userAddr) : s.stackPage + 4096 = s.userAddr := by
  unfold Kernel.stackPage
  omega

theorem sub64_userAddr (hpos : 4096 ≤ s.userAddr) (hlt : s.userAddr < 2^47) :
    sub64 s.userAddr pageSize = s.stackPage := by
  have hadd := stackPage_add hpos
  unfold sub64 pageSize
  omega

theorem stackPage_slots (s : Kernel) : ∀ l < (pathOf s.stackPage).length,
    (pathOf s.stackPage)[l]? = some (slotOf s.stackPage l) := fun _ hl => getElem?_pathOf _ hl

theorem pathOf_length_eq (x y : Nat) : (pathOf x).length = (pathOf y).length :=
  (pathOf_length x).trans (pathOf_length y).symm

theorem pathOf_ne (hpos : 4096 ≤ s.userAddr) (hlt : s.userAddr < 2^47) {x : Nat}
    (hx : Canonical x) (hne : x/4096 ≠ s.stackPage/4096) : pathOf x ≠ pathOf s.stackPage := by
  have hadd := stackPage_add hpos
  intro h
  exact hne (page_eq_of_pathOf hx (by omega) h)

theorem rewired_stackPage : rewired s s.stackPage = some s.usrPhysAddr :=
  RadixTable.spliced_self (stackPage_slots s)

theorem parting_spec (hpos : 4096 ≤ s.userAddr) (hal : s.userAddr % 2^21 = 0) :
    parting s + 1 < 4 ∧ (pathOf s.userAddr).take (parting s) = (pathOf s.stackPage).take (parting s) ∧
    slotOf s.userAddr (parting s) ≠ slotOf s.stackPage (parting s) := by
  -- the PD indices already differ
  have hslot : slotOf s.userAddr 2 ≠ slotOf s.stackPage 2 := by
    have hadd := stackPage_add hpos
    rw [slotOf_two, slotOf_two, getPdOffset_eq, getPdOffset_eq]
    omega
  have hne : pathOf s.userAddr ≠ pathOf s.stackPage := by
    intro h
    apply hslot
    rw [slotOf, h, slotOf]
  rw [parting]
  obtain ⟨hj, htake, hturn⟩ := RadixTable.common_spec (pathOf_length_eq _ _) hne
  generalize RadixTable.common (pathOf s.userAddr) (pathOf s.stackPage) = j at hj htake hturn
  rw [pathOf_length] at hj
  rw [getElem?_pathOf _ hj, getElem?_pathOf _ hj] at hturn
  refine ⟨?_, htake, fun h => hturn (congrArg some h)⟩
  by_contra h3
  obtain rfl : j = 3 := by omega
  exact hslot (slotOf_of_take htake (by omega))

/-- The lower half of the PML4 is that of the user. -/
theorem slotOf_zero_lt_iff {x : Nat} (hx : Canonical x) : slotOf x 0 < 256 ↔ x < 2^47 := by
  simp only [slotOf, pathOf, List.getD_cons_zero, getPml4Offset_eq]
  rcases hx with hx | hx <;> omega

/-- Where user_addr's region has a table, the last page of that region gets the frame as well. -/
theorem rewired_alias (hpos : 4096 ≤ s.userAddr) (hlt : s.userAddr < 2^47)
    (hal : s.userAddr % 2^21 = 0)
    (h : tableAt s ((pathOf s.userAddr).take (parting s + 1)) ≠ none) :
    ∃ x < 2^47, x/4096 ≠ s.stackPage/4096 ∧ rewired s x = some s.usrPhysAddr := by
  obtain ⟨hj, htake, hturn⟩ := parting_spec hpos hal
  have hleaf : RadixTable.spliced next (entry s.mem) s.root (pathOf s.userAddr) (slotOf s.stackPage)
      s.usrPhysAddr 0 ((pathOf s.userAddr).take (parting s + 1) ++
        (pathOf s.stackPage).drop (parting s + 1)) = some s.usrPhysAddr :=
    RadixTable.spliced_present (stackPage_slots s) (pathOf_length_eq _ _) htake hj
      (Option.isSome_iff_ne_none.mpr h)
  have hlen : ((pathOf s.userAddr).take (parting s + 1) ++
      (pathOf s.stackPage).drop (parting s + 1)).length = 4 := by
    rw [List.length_append, List.length_take, List.length_drop, pathOf_length, pathOf_length]
    omega
  obtain ⟨x, hx, hpath⟩ := exists_address hlen (by
    intro i hi
    rcases List.mem_append.mp hi with h | h
    · exact pathOf_lt _ i (List.mem_of_mem_take h)
    · exact pathOf_lt _ i (List.mem_of_mem_drop h))
  have hhead : slotOf x 0 = slotOf s.userAddr 0 := by
    rw [slotOf, hpath]
    rfl
  have hlow : slotOf x 0 < 256 := hhead ▸ (slotOf_zero_lt_iff (Or.inl hlt)).mpr hlt
  refine ⟨x, (slotOf_zero_lt_iff hx).mp hlow, ?_, by rw [rewired, hpath, hleaf]⟩
  intro he
  apply hturn
  have hsame := hpath.symm.trans (pathOf_congr he)
  have hslot := congrArg (fun l => l[parting s]?) hsame
  simp only [List.getElem?_append, List.length_take, pathOf_length, List.getElem?_take] at hslot
  rw [if_pos (by omega), if_pos (by omega), getElem?_pathOf _ (by omega),
    getElem?_pathOf _ (by omega)] at hslot
  exact Option.some.inj hslot

theorem rewired_of_absent
    (htake : (pathOf s.userAddr).take (parting s) = (pathOf s.stackPage).take (parting s))
    (habs : tableAt s ((pathOf s.userAddr).take (parting s + 1)) = none) (x : Nat) :
    rewired s x = if pathOf x = pathOf s.stackPage then some s.usrPhysAddr
      else if (pathOf x).take (parting s + 1) = (pathOf s.stackPage).take (parting s + 1) then none
      else s.frameOf x := by
  have hlen : 0 + (pathOf x).length = (pathOf s.stackPage).length :=
    (Nat.zero_add _).trans (pathOf_length_eq _ _)
  rw [rewired, RadixTable.spliced_absent (stackPage_slots s) (pathOf_length_eq _ _) htake habs _ 0
    hlen, frameOf_eq_tableAt]
  simp only [List.drop_zero, List.take_zero, List.nil_append]
  rfl

theorem RegionsClear.rewired_eq (h : RegionsClear s) (hpos : 4096 ≤ s.userAddr)
    (hlt : s.userAddr < 2^47) (hal : s.userAddr % 2^21 = 0) {x : Nat} (hx : Canonical x)
    (hne : x/4096 ≠ s.stackPage/4096) : rewired s x = s.frameOf x := by
  rw [rewired_of_absent (parting_spec hpos hal).2.1 h.absent, if_neg (pathOf_ne hpos hlt hx hne)]
  split_ifs with hshare
  · exact (h.empty x hx hne hshare).symm
  · rfl

end Rewired

section GrowsDown

variable {s : Kernel} (hw : WellFormed s) (hr : PagesLeft s) (hpos : 4096 ≤ s.userAddr)
  (hlt : s.userAddr < 2^47)
include hw hr hpos hlt

theorem growsDown_frameOf (addr prot x : Nat) :
    (memmap addr pageSize prot .growsDown s).2.frameOf x = rewired s x := by
  obtain ⟨a, he⟩ := growsDown_eq addr prot s
  have hsub := sub64_userAddr hpos hlt
  have hu := userPath_pathOf hlt
  have hw' := (setCursor_tablesKept hw a s.pmlSameCtxt).wellFormed hw
  have hr' := hr.setCursor a s.pmlSameCtxt
  obtain ⟨n, page, hf⟩ := findTables_spec hw' hr' (hw'.passable hu)
  have hsplice := (addUserPage_splice hw' hr' hu hf s.stackPage (by decide)
    (by decide : usrPermBits < 4096)).table_eq (pathOf x) (pathOf_lt x) rfl
  rw [memmap_snd, pageCount_one, he, tlbFlush_frameOf, mapUser_one_eq, hsub, frameOf_eq_tableAt,
    tableAt, Kernel.root, addUserPage_pml4Shared, findTables_pml4Shared]
  exact hsplice

/-- Within a 2 MiB region both addresses have the same tables. -/
theorem growsDown_others (hal : s.userAddr % 4096 = 0) (h : s.userAddr % 2^21 ≠ 0)
    (addr prot : Nat) {x : Nat} (hx : Canonical x) (hne : x/4096 ≠ s.stackPage/4096) :
    (memmap addr pageSize prot .growsDown s).2.frameOf x = s.frameOf x := by
  obtain ⟨a, he⟩ := growsDown_eq addr prot s
  have hsub := sub64_userAddr hpos hlt
  have htake : (pathOf (sub64 s.userAddr pageSize)).take 3 = (pathOf s.userAddr).take 3 := by
    apply pathOf_take_three
    have hadd := stackPage_add hpos
    rw [hsub]
    omega
  obtain ⟨n, page, hm⟩ := memmap_installed hw hr he hlt htake (by decide) (by decide)
  apply hm.frameOf_other
  rw [hsub]
  exact pathOf_ne hpos hlt hx hne

theorem growsStack_iff (addr : Nat) :
    GrowsStack s addr ↔
      ∀ x, Canonical x → x/4096 ≠ s.stackPage/4096 → rewired s x = s.frameOf x := by
  have hframe := growsDown_frameOf hw hr hpos hlt addr usrPermBits
  constructor
  · intro h x hx hne
    rw [← hframe x, h.others x hx hne]
  · intro h
    constructor
    case returned => exact (growsDown_result addr usrPermBits s).1
    case mapped => rw [hframe, rewired_stackPage]
    case others =>
      intro x hx hne
      rw [hframe, h x hx hne]

end GrowsDown

/-- GROWS_DOWN looks the tables up for user_addr and writes the entries of the page below. That is
right within a 2 MiB region, and on a boundary if the two regions that meet there are clear. Unless
the next frame is in use already, it is right in no other case. -/
theorem memmap_growsStack_iff (s : Kernel) (addr : Nat) (hw : WellFormed s) (hr : PagesLeft s)
    (hal : s.userAddr % 4096 = 0) (hpos : 0 < s.userAddr) (hlt : s.userAddr < 2^47) :
    (s.userAddr % 2^21 ≠ 0 ∨ RegionsClear s → GrowsStack s addr) ∧
    (FramesFree s 1 → (GrowsStack s addr ↔ s.userAddr % 2^21 ≠ 0 ∨ RegionsClear s)) := by
  have hpage : 4096 ≤ s.userAddr := by omega
  have hiff := growsStack_iff hw hr hpage hlt addr
  have hinside (h : s.userAddr % 2^21 ≠ 0) : GrowsStack s addr := by
    rw [hiff]
    intro x hx hne
    rw [← growsDown_frameOf hw hr hpage hlt addr usrPermBits,
      growsDown_others hw hr hpage hlt hal h addr usrPermBits hx hne]
  have hgrows (h : s.userAddr % 2^21 ≠ 0 ∨ RegionsClear s) : GrowsStack s addr := by
    by_cases hal' : s.userAddr % 2^21 = 0
    · have hclear := h.resolve_left (not_not.mpr hal')
      exact hiff.mpr fun x hx hne => hclear.rewired_eq hpage hlt hal' hx hne
    · exact hinside hal'
  refine ⟨hgrows, fun hfree => ⟨?_, hgrows⟩⟩
  intro h
  rw [or_iff_not_imp_left, not_not]
  intro hal'
  have hsame := hiff.mp h
  have habs : tableAt s ((pathOf s.userAddr).take (parting s + 1)) = none := by
    by_contra hne
    obtain ⟨x, hx, hxp, hframe⟩ := rewired_alias hpage hlt hal' hne
    rw [hsame x (Or.inl hx) hxp] at hframe
    exact hfree x hx 0 (by omega) hframe
  refine ⟨habs, ?_⟩
  intro x hx hne hshare
  rw [← hsame x hx hne, rewired_of_absent (parting_spec hpage hal').2.1 habs,
    if_neg (pathOf_ne hpage hlt hx hne), if_pos hshare]

section Boundary

variable {s t : Kernel} {p : Nat}

/-- user_addr has come to 0x400000: the regions part at the PD. -/
theorem boundary_paths (haddr : t.userAddr = 0x400000) :
    pathOf t.userAddr = [0, 0, 2, 0] ∧ pathOf t.stackPage = [0, 0, 1, 511] ∧ parting t = 2 := by
  have hstack : t.stackPage = 0x3ff000 := by
    have := stackPage_add (s := t) (by omega)
    omega
  have hup : pathOf t.userAddr = [0, 0, 2, 0] := by
    rw [haddr]
    simp [pathOf, getPml4Offset_eq, getPdpOffset_eq, getPdOffset_eq, getPtOffset_eq]
  have hdown : pathOf t.stackPage = [0, 0, 1, 511] := by
    rw [hstack]
    simp [pathOf, getPml4Offset_eq, getPdpOffset_eq, getPdOffset_eq, getPtOffset_eq]
  refine ⟨hup, hdown, ?_⟩
  rw [parting, hup, hdown]
  rfl

/-- A page in the 2 MiB below 0x400000 is mapped, and no page above it yet. -/
theorem growsDown_drops (hw : WellFormed t) (hr : PagesLeft t) (haddr : t.userAddr = 0x400000)
    (hnone : tableAt t [0, 0, 2] = none) :
    (memmap 0 pageSize usrPermBits .growsDown t).2.frameOf 0x3fe000 = none := by
  obtain ⟨hup, hdown, hparting⟩ := boundary_paths haddr
  have hpage : pathOf 0x3fe000 = [0, 0, 1, 510] := by
    simp [pathOf, getPml4Offset_eq, getPdpOffset_eq, getPdOffset_eq, getPtOffset_eq]
  rw [growsDown_frameOf hw hr (by omega) (by omega), rewired_of_absent, hparting, hpage, hdown]
  · rfl
  · rw [hparting, hup, hdown]
    rfl
  · rw [hparting, hup]
    exact hnone

theorem setCursor_frameOf (a p x : Nat) (s : Kernel) : (s.setCursor a p).frameOf x = s.frameOf x := by
  simp only [Kernel.frameOf, Kernel.lookup, Kernel.setCursor, Kernel.root]

theorem FramesFree.setCursor {n : Nat} (h : FramesFree s n) (a p : Nat) :
    FramesFree (s.setCursor a p) n := by
  intro x hx j hj
  rw [setCursor_frameOf]
  exact h x hx j hj

/-- No page is mapped in the two regions. -/
theorem regionsClear_boundary (hw : WellFormed s) (hnone : tableAt s [0, 0, 2] = none)
    (huser : ∀ x < 2^47, s.frameOf x = none) (p : Nat) :
    RegionsClear (s.setCursor 0x400000 p) := by
  have hkept := setCursor_tablesKept hw 0x400000 p
  obtain ⟨hup, hdown, hparting⟩ := boundary_paths (t := s.setCursor 0x400000 p) rfl
  constructor
  case absent =>
    rw [hparting, hup]
    exact (hkept.tableAt_eq hw (by decide) (by simp [Slots])).trans hnone
  case empty =>
    intro x hx _ hshare
    rw [hparting, hdown] at hshare
    have hzero : slotOf x 0 = 0 := congrArg (·.getD 0 0) hshare
    rw [setCursor_frameOf]
    exact huser x ((slotOf_zero_lt_iff hx).mp (by omega))

theorem mapped_below (hw : WellFormed s) (hs : s.counter + 6 ≤ numberOfPages)
    (htop : s.cursor + 4096*6 ≤ 49*0x200000) (hnone : tableAt s [0, 0, 2] = none)
    (ht : (memmap 0x3fe000 pageSize usrPermBits .accessedNotPresent s).2 = t) :
    WellFormed t ∧ PagesLeft t ∧ t.frameOf 0x3fe000 = some s.usrPhysAddr ∧
    tableAt t [0, 0, 2] = none := by
  obtain ⟨n, page, hm⟩ := accessed_installed hw ⟨by omega, by omega⟩ 0x3fe000 usrPermBits
    (by norm_num) (by decide) (by decide)
  rw [ht] at hm
  have hshort : Short [0, 0, 2] := ⟨by decide, by simp [Slots]⟩
  have hoff : ¬[0, 0, 2] <+: pathOf (roundDown 0x3fe000 pageSize) := by
    rw [pathOf_roundDown]
    simp [pathOf, getPml4Offset_eq, getPdpOffset_eq, getPdOffset_eq, getPtOffset_eq]
  exact ⟨hm.wellFormed, hm.pagesLeft hs htop, hm.frameOf_self (pathOf_roundDown 0x3fe000).symm,
    (hm.tableAt_off hshort hoff).trans hnone⟩

end Boundary

/-- The first stack page, right below a 2 MiB boundary. -/
theorem memmap_growsStack_boundary :
    ((booted (fun _ => 0) 0x300000).setCursor 0x400000 0).userAddr % 2^21 = 0 ∧
    FramesFree ((booted (fun _ => 0) 0x300000).setCursor 0x400000 0) 1 ∧
    RegionsClear ((booted (fun _ => 0) 0x300000).setCursor 0x400000 0) ∧
    GrowsStack ((booted (fun _ => 0) 0x300000).setCursor 0x400000 0) 0 := by
  have hw := zeroBoot_wellFormed
  have hr := zeroBoot_pagesLeft
  have hfree := zeroBoot_framesFree 1
  have hclear : RegionsClear ((booted (fun _ => 0) 0x300000).setCursor 0x400000 0) :=
    regionsClear_boundary hw
      (booted_tableAt_none (by norm_num) (by norm_num) (by norm_num) (by norm_num) _)
      (fun x hx => booted_frameOf_user (by norm_num) (by norm_num) (by norm_num) hx) 0
  generalize booted (fun _ => 0) 0x300000 = k at hw hr hfree hclear ⊢
  have haddr : (k.setCursor 0x400000 0).userAddr = 0x400000 := rfl
  have hiff := memmap_growsStack_iff (k.setCursor 0x400000 0) 0
    ((setCursor_tablesKept hw _ _).wellFormed hw) (hr.setCursor _ _) (by omega) (by omega) (by omega)
  have hgrows := hiff.1 (Or.inr hclear)
  have hfree' := hfree.setCursor 0x400000 0
  exact ⟨by omega, hfree', ((hiff.2 hfree').mp hgrows).resolve_left (by omega), hgrows⟩

/-- The page 0x3fe000 loses its frame as the stack grows down from 0x400000. -/
theorem growsDown_wipes :
    ((memmap 0x3fe000 pageSize usrPermBits .accessedNotPresent
      (booted (fun _ => 0) 0x300000)).2.setCursor 0x400000 0).frameOf 0x3fe000 =
        some (booted (fun _ => 0) 0x300000).usrPhysAddr ∧
    (memmap 0 pageSize usrPermBits .growsDown
      ((memmap 0x3fe000 pageSize usrPermBits .accessedNotPresent
        (booted (fun _ => 0) 0x300000)).2.setCursor 0x400000 0)).2.frameOf 0x3fe000 = none := by
  obtain ⟨hs, htop⟩ := zeroBoot_room
  have hnone : tableAt (booted (fun _ => 0) 0x300000) [0, 0, 2] = none :=
    booted_tableAt_none (by norm_num) (by norm_num) (by norm_num) (by norm_num) _
  obtain ⟨u, hu⟩ : ∃ u, (memmap 0x3fe000 pageSize usrPermBits .accessedNotPresent
    (booted (fun _ => 0) 0x300000)).2 = u := ⟨_, rfl⟩
  obtain ⟨hwu, hru, hself, htable⟩ := mapped_below zeroBoot_wellFormed hs htop hnone hu
  rw [hu]
  have hkept := setCursor_tablesKept hwu 0x400000 0
  refine ⟨(setCursor_frameOf _ _ _ _).trans hself, ?_⟩
  apply growsDown_drops (hkept.wellFormed hwu) (hru.setCursor _ _) rfl
  rw [hkept.tableAt_eq hwu (by decide) (by simp [Slots]), htable]

end SBUnix
