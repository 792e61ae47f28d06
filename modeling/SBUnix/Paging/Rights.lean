import SBUnix.Paging.UserPages

namespace SBUnix

open ByteMemory Word

/-- The R/W and the U/S bit of an entry. -/
def writable (e : Nat) : Bool := e / 2 % 2 = 1
def userAccess (e : Nat) : Bool := e / 4 % 2 = 1

/-- What a walk allows: both bits, over all its levels. -/
def rights (es : List Nat) : Bool × Bool := (es.all writable, es.all userAccess)

def Kernel.rightsOf (s : Kernel) (va : Nat) : Option (Bool × Bool) := (s.lookup va).map rights

/-- Allowed by both. -/
def bothAllow (r r' : Bool × Bool) : Bool × Bool := (r.1 && r'.1, r.2 && r'.2)

theorem rights_append (es fs : List Nat) : rights (es++fs) = bothAllow (rights es) (rights fs) := by
  simp [rights, bothAllow]

theorem all_eq_of_forall {l : List Nat} {f : Nat → Bool} {c : Bool} (hne : l ≠ [])
    (h : ∀ x ∈ l, f x = c) : l.all f = c := by
  cases c with
  | true => simpa using h
  | false =>
    obtain ⟨x, hx⟩ := List.exists_mem_of_ne_nil l hne
    exact List.all_eq_false.mpr ⟨x, hx, by simp [h x hx]⟩

theorem rights_link {page : Nat → Nat} {frame perm j : Nat} (hj : 0 < j)
    (hal : ∀ k < j, link page frame k % 4096 = 0) :
    rights ((List.range j).map fun k => link page frame k + perm) = rights [perm] := by
  have hne : (List.range j).map (fun k => link page frame k + perm) ≠ [] := by
    simp
    omega
  have hbit (e : Nat) (he : e ∈ (List.range j).map fun k => link page frame k + perm) :
      writable e = writable perm ∧ userAccess e = userAccess perm := by
    obtain ⟨k, hk, rfl⟩ := List.mem_map.mp he
    have := hal k (List.mem_range.mp hk)
    simp only [writable, userAccess, decide_eq_decide]
    omega
  rw [rights, all_eq_of_forall hne fun e he => (hbit e he).1,
    all_eq_of_forall hne fun e he => (hbit e he).2]
  simp [rights]

/-- The rights of another page: those of the new entries on the levels it shares, and its own
below. -/
theorem Installed.rightsOf_other {s t : Kernel} {virt frame perm n : Nat} {page : Nat → Nat}
    (hm : Installed s t virt frame perm n page) {va : Nat}
    (hva : pathOf va ≠ pathOf virt) {es : List Nat} (hes : s.lookup va = some es) :
    t.rightsOf va = some (if RadixTable.common (pathOf va) (pathOf virt) = 0 then rights es
      else bothAllow (rights [perm])
        (rights (es.drop (RadixTable.common (pathOf va) (pathOf virt))))) := by
  obtain ⟨hj, hl⟩ := hm.lookup_other hva
  generalize RadixTable.common (pathOf va) (pathOf virt) = j at hj hl
  rw [Kernel.rightsOf, hl, hes, Option.map_some, Option.map_some, rights_append]
  split_ifs with h0
  · subst h0
    simp [rights, bothAllow]
  · rw [rights_link (by omega) fun k hk => hm.link_aligned (by omega)]

/-- Every other mapped page allows what it did. -/
def RightsKept (s t : Kernel) (addr : Nat) : Prop :=
  ∀ va, Canonical va → va / 4096 ≠ addr / 4096 → ∀ es, s.lookup va = some es →
    t.rightsOf va = s.rightsOf va

/-- The new permission in the levels a page shares with `addr` comes to the same as what stood
there. -/
def SharedAllow (s : Kernel) (addr prot : Nat) : Prop :=
  ∀ va, Canonical va → va / 4096 ≠ addr / 4096 → ∀ es, s.lookup va = some es →
    0 < RadixTable.common (pathOf va) (pathOf addr) →
    rights es = bothAllow (rights [prot])
      (rights (es.drop (RadixTable.common (pathOf va) (pathOf addr))))

theorem memmap_rightsKept_iff {s : Kernel} (hw : WellFormed s) (hr : PagesLeft s)
    {addr prot : Nat} (ha : addr < 2^47) (hp : prot = cowPermBits ∨ prot = usrPermBits) :
    RightsKept s (memmap addr pageSize prot .accessedNotPresent s).2 addr ↔
      SharedAllow s addr prot := by
  obtain ⟨h1, hprot⟩ := prot_cases hp
  obtain ⟨n, page, hm⟩ := accessed_installed hw hr addr prot ha h1 hprot
  have hpath := pathOf_roundDown addr
  have hother (va : Nat) (hc : Canonical va) (hne : va / 4096 ≠ addr / 4096) (es : List Nat)
      (hes : s.lookup va = some es) :
      (memmap addr pageSize prot .accessedNotPresent s).2.rightsOf va = s.rightsOf va ↔
      (0 < RadixTable.common (pathOf va) (pathOf addr) → rights es = bothAllow (rights [prot])
        (rights (es.drop (RadixTable.common (pathOf va) (pathOf addr))))) := by
    have hva : pathOf va ≠ pathOf (roundDown addr pageSize) := by
      rw [hpath]
      exact fun h => hne (page_eq_of_pathOf hc ha h)
    rw [hm.rightsOf_other hva hes, Kernel.rightsOf, hes,
      Option.map_some, Option.some.injEq, hpath]
    split_ifs with h0
    · simp [h0]
    · simp [Nat.pos_of_ne_zero h0, eq_comm]
  constructor
  · intro h va hc hne es hes
    exact (hother va hc hne es hes).mp (h va hc hne es hes)
  · intro h va hc hne es hes
    exact (hother va hc hne es hes).mpr (h va hc hne es hes)

/-- After boot nothing is mapped beside the kernel, which shares no level with a low address. -/
theorem zeroBoot_lookup_none {va : Nat}
    (hpos : 0 < RadixTable.common (pathOf va) (pathOf 0x401000)) :
    (booted (fun _ => 0) 0x300000).lookup va = none := by
  refine booted_lookup_none (by norm_num) (by norm_num) (by norm_num) ?_
  intro h
  simp only [slotOf, pathOf, List.getD_cons_zero] at h
  simp [RadixTable.common, pathOf, h, getPml4Offset_eq] at hpos

theorem common_neighbours : RadixTable.common (pathOf 0x400000) (pathOf 0x401000) = 3 := by
  simp [pathOf, RadixTable.common, getPml4Offset_eq, getPdpOffset_eq, getPdOffset_eq,
    getPtOffset_eq]

/-- A page behind a writable one, with the same permission. -/
theorem usr_neighbour {s : Kernel} (hw : WellFormed s) (hr : PagesLeft s)
    (hnone : ∀ va, 0 < RadixTable.common (pathOf va) (pathOf 0x401000) → s.lookup va = none) :
    SharedAllow (memmap 0x400000 pageSize usrPermBits .accessedNotPresent s).2 0x401000
      usrPermBits := by
  obtain ⟨n, page, hm⟩ := accessed_installed hw hr 0x400000 usrPermBits (by norm_num) (by decide)
    (by decide)
  have hpath := pathOf_roundDown 0x400000
  intro va hc hne es hes hpos
  by_cases hva : pathOf va = pathOf 0x400000
  · rw [hm.lookup_self (hva.trans hpath.symm), Option.some.injEq] at hes
    have hsplit : rights es = bothAllow (rights (es.take 3)) (rights (es.drop 3)) := by
      rw [← rights_append, List.take_append_drop]
    have htake : es.take 3 =
        (List.range 3).map fun k => link page s.usrPhysAddr k + usrPermBits := by
      rw [← hes]
      rfl
    rw [hva, common_neighbours, hsplit, htake,
      rights_link (by omega) fun k hk => hm.link_aligned (by omega)]
  · rw [← hpath] at hva
    obtain ⟨-, hother⟩ := hm.lookup_other hva
    rw [hother, hnone va hpos] at hes
    cases hes

theorem memmap_rightsKept_neighbour :
    ∃ s, s.lookup 0x400000 ≠ none ∧
      RightsKept s (memmap 0x401000 pageSize usrPermBits .accessedNotPresent s).2 0x401000 := by
  have hw := zeroBoot_wellFormed
  have hr := zeroBoot_pagesLeft
  obtain ⟨hs, htop⟩ := zeroBoot_room
  have hnone : ∀ va, 0 < RadixTable.common (pathOf va) (pathOf 0x401000) →
      (booted (fun _ => 0) 0x300000).lookup va = none := fun _ => zeroBoot_lookup_none
  generalize booted (fun _ => 0) 0x300000 = s at hw hr hs htop hnone
  obtain ⟨n, page, hm⟩ := accessed_installed hw hr 0x400000 usrPermBits (by norm_num) (by decide)
    (by decide)
  refine ⟨_, ?_, (memmap_rightsKept_iff hm.wellFormed (hm.pagesLeft hs htop) (by norm_num)
    (Or.inr rfl)).mpr (usr_neighbour hw hr hnone)⟩
  rw [hm.lookup_self (pathOf_roundDown 0x400000).symm]
  simp

/-- A read fault in the page behind a writable one. -/
theorem cow_neighbour {s : Kernel} (hw : WellFormed s) (hs : s.counter + 6 ≤ numberOfPages)
    (htop : s.cursor + 4096*6 ≤ 49*0x200000) :
    ¬ RightsKept (memmap 0x400000 pageSize usrPermBits .accessedNotPresent s).2
      (memmap 0x401000 pageSize cowPermBits .accessedNotPresent
        (memmap 0x400000 pageSize usrPermBits .accessedNotPresent s).2).2 0x401000 := by
  obtain ⟨n, page, hm⟩ := accessed_installed hw ⟨by omega, by omega⟩ 0x400000 usrPermBits
    (by norm_num) (by decide) (by decide)
  have hpath := pathOf_roundDown 0x400000
  have hself := hm.lookup_self hpath.symm
  have hw1 := hm.wellFormed
  have hr1 := hm.pagesLeft hs htop
  have hal : ∀ k < 4, link page s.usrPhysAddr k % 4096 = 0 :=
    fun k hk => hm.link_aligned hk
  generalize (memmap 0x400000 pageSize usrPermBits .accessedNotPresent s).2 = s1 at *
  obtain ⟨n', page', hm'⟩ := accessed_installed hw1 hr1 0x401000 cowPermBits (by norm_num)
    (by decide) (by decide)
  have hpath' := pathOf_roundDown 0x401000
  have hne : pathOf 0x400000 ≠ pathOf (roundDown 0x401000 pageSize) := by
    rw [hpath']
    simp [pathOf, getPtOffset_eq]
  have hcommon : RadixTable.common (pathOf 0x400000) (pathOf (roundDown 0x401000 pageSize)) = 3 := by
    rw [hpath', common_neighbours]
  have hafter := hm'.rightsOf_other hne hself
  intro h
  have hsame := h 0x400000 (Or.inl (by norm_num)) (by norm_num) _ hself
  rw [hafter, hcommon, if_neg (by omega), Kernel.rightsOf, hself, Option.map_some,
    Option.some.injEq, rights_link (by omega) hal] at hsame
  have := congrArg Prod.fst hsame
  simp [bothAllow, rights, writable, usrPermBits, cowPermBits] at this

theorem memmap_cow_neighbour :
    0x300000 % 4096 = 0 ∧
    WellFormed (memmap 0x400000 pageSize usrPermBits .accessedNotPresent
      (booted (fun _ => 0) 0x300000)).2 ∧
    ¬ RightsKept (memmap 0x400000 pageSize usrPermBits .accessedNotPresent
        (booted (fun _ => 0) 0x300000)).2
      (memmap 0x401000 pageSize cowPermBits .accessedNotPresent
        (memmap 0x400000 pageSize usrPermBits .accessedNotPresent
          (booted (fun _ => 0) 0x300000)).2).2 0x401000 := by
  have hw := zeroBoot_wellFormed
  obtain ⟨hs, htop⟩ := zeroBoot_room
  obtain ⟨n, page, hm⟩ :=
    accessed_installed hw zeroBoot_pagesLeft 0x400000 usrPermBits (by norm_num) (by decide)
    (by decide)
  exact ⟨by norm_num, hm.wellFormed, cow_neighbour hw hs htop⟩

end SBUnix
