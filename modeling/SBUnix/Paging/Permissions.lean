import SBUnix.Paging.PageRange
import SBUnix.Paging.Rights

namespace SBUnix

open ByteMemory Word

/-- What RW_TO_COW is for: read-only pages in the same frames, nothing else touched, and the way
back by the same call. -/
structure ProtectsRange (s : Kernel) (addr length : Nat) : Prop where
  frame : ∀ x, InRange addr length x →
    (memmap addr length cowPermBits .rwToCow s).2.frameOf x = s.frameOf x
  readOnly : ∀ x, InRange addr length x →
    (memmap addr length cowPermBits .rwToCow s).2.rightsOf x = some (false, true)
  others : ∀ x, Canonical x → ¬InRange addr length x →
    (memmap addr length cowPermBits .rwToCow s).2.frameOf x = s.frameOf x ∧
    (memmap addr length cowPermBits .rwToCow s).2.rightsOf x = s.rightsOf x
  restored : ∀ x, Canonical x →
    (memmap addr length usrPermBits .rwToCow
      (memmap addr length cowPermBits .rwToCow s).2).2.rightsOf x = s.rightsOf x

section Rounds

variable {s : Kernel} {va : Nat}

theorem changePermissions_fixed (va perm : Nat) (s : Kernel) :
    (changePermissions va perm s).pml4Shared = s.pml4Shared ∧
    (changePermissions va perm s).virtBaseForUser = s.virtBaseForUser := by
  unfold changePermissions Kernel.setUser
  exact ⟨findTables_pml4Shared s va, findTables_virtBaseForUser s va⟩

theorem slotOf_zero (va : Nat) : slotOf va 0 = getPml4Offset va := rfl

theorem sub64_roundDown_even (a : Nat) : sub64 (roundDown a pageSize) virtBase % 2 = 0 := by
  rw [roundDown_page_eq, sub64, virtBase]
  omega

/-- The PML4 slot gets the table back without the present bit. -/
theorem changePermissions_top (hbase : s.virtBaseForUser = virtBase) (perm : Nat) :
    entry (changePermissions va perm s).mem s.root (slotOf va 0) % 2 = 0 := by
  have hb : (findTables va s).2.virtBaseForUser = virtBase :=
    (findTables_virtBaseForUser s va).trans hbase
  have hpdp : ∃ a, (findTables va s).1.pdp = roundDown a pageSize := by
    unfold findTables
    exact ⟨_, rfl⟩
  obtain ⟨a, ha⟩ := hpdp
  have hlt : sub64 (roundDown a pageSize) virtBase < 2^64 := Nat.mod_lt _ (by norm_num)
  have heven := sub64_roundDown_even a
  unfold changePermissions
  dsimp only
  rw [hb, ha]
  generalize sub64 (roundDown a pageSize) virtBase = v at hlt heven
  rw [entry, slotOf_zero, Kernel.root, load64_store64_same _ _ v hlt]
  exact heven

theorem frameOf_of_top {t : Kernel} {x : Nat} (h : entry t.mem t.root (slotOf x 0) % 2 = 0) :
    t.frameOf x = none := by
  rw [frameOf_eq_tableAt, tableAt]
  have hpath : pathOf x = slotOf x 0 :: (pathOf x).tail := rfl
  rw [hpath, RadixTable.table_cons, next_of_even _ h, Option.bind_none]

/-- One round takes the page, and the 512 GiB around it, out of the address space. -/
theorem changePermissions_unmaps (hbase : s.virtBaseForUser = virtBase) (perm : Nat) {x : Nat}
    (hx : slotOf x 0 = slotOf va 0) : (changePermissions va perm s).frameOf x = none := by
  apply frameOf_of_top
  rw [Kernel.root, (changePermissions_fixed va perm s).1, hx]
  exact changePermissions_top hbase perm

theorem changePages_fst (addr perm n : Nat) (s : Kernel) :
    ((changeAndAdvance addr perm)^[n] (0, s)).1 = n := by
  induction n with
  | zero => rfl
  | succ n ih => rw [Function.iterate_succ_apply', changeAndAdvance, ih]

theorem changePages_succ (addr perm n : Nat) (s : Kernel) :
    changePages addr perm (n+1) s =
      changePermissions (roundDown (add64 addr (n*pageSize)) pageSize) perm
        (changePages addr perm n s) := by
  rw [changePages, Function.iterate_succ_apply', changeAndAdvance, changePages_fst, changePages]

theorem changePages_base (addr perm n : Nat) (s : Kernel) :
    (changePages addr perm n s).virtBaseForUser = s.virtBaseForUser := by
  induction n with
  | zero => rfl
  | succ n ih => rw [changePages_succ, (changePermissions_fixed _ _ _).2, ih]

/-- Of all rounds the last one decides. -/
theorem changePages_unmaps (hbase : s.virtBaseForUser = virtBase) (addr perm n : Nat) :
    (changePages addr perm (n+1) s).frameOf (roundDown (add64 addr (n*pageSize)) pageSize) =
      none := by
  rw [changePages_succ]
  exact changePermissions_unmaps ((changePages_base addr perm n s).trans hbase) perm rfl

end Rounds

section Protects

variable {s : Kernel}

theorem tlbFlush_rightsOf (p x : Nat) (t : Kernel) : (tlbFlush p t).rightsOf x = t.rightsOf x := by
  simp only [Kernel.rightsOf, Kernel.lookup, tlbFlush, Kernel.root]

theorem intRounds_le (length : Nat) : intRounds (pageCount length) ≤ wholePages length := by
  have hle : pageCount length ≤ wholePages length := by
    have h : pageCount length ≤ length / 4096 + if length % 4096 = 0 then 0 else 1 :=
      Nat.mod_le _ _
    refine le_trans h ?_
    unfold wholePages
    split_ifs <;> omega
  rw [intRounds]
  split_ifs
  · exact hle
  · exact Nat.zero_le _

/-- Without a round nothing happens. -/
theorem memmap_rwToCow_idle {length : Nat} (addr prot : Nat)
    (h : intRounds (pageCount length) = 0) (s : Kernel) (x : Nat) :
    (memmap addr length prot .rwToCow s).2.frameOf x = s.frameOf x ∧
    (memmap addr length prot .rwToCow s).2.rightsOf x = s.rightsOf x := by
  rw [memmap_snd, tlbFlush_frameOf, tlbFlush_rightsOf, mapPagesFor, h]
  exact ⟨rfl, rfl⟩

/-- With one, the last page is no longer mapped. -/
theorem memmap_rwToCow_unmaps (hw : WellFormed s) {addr length : Nat}
    (hfit : addr + length ≤ 2^47) (prot : Nat) (h : intRounds (pageCount length) ≠ 0) :
    ∃ x, InRange addr length x ∧ (memmap addr length prot .rwToCow s).2.frameOf x = none := by
  obtain ⟨n, hn⟩ := Nat.exists_eq_succ_of_ne_zero h
  have hle := intRounds_le length
  refine ⟨roundDown (add64 addr (n*pageSize)) pageSize, ?_, ?_⟩
  · have hlen : n*4096 < length := by
      rw [hn, wholePages] at hle
      omega
    rw [InRange, roundDown_page_eq, add64, pageSize, Nat.mod_eq_of_lt (by omega)]
    omega
  · rw [memmap_snd, tlbFlush_frameOf, mapPagesFor, hn]
    exact changePages_unmaps hw.base addr prot n

/-- RW_TO_COW does what it is for only where it does nothing. -/
theorem memmap_protectsRange_iff (s : Kernel) (addr length : Nat) (hw : WellFormed s)
    (hfit : addr + length ≤ 2^47) (hmapped : ∀ x, InRange addr length x → s.frameOf x ≠ none) :
    ProtectsRange s addr length ↔
      intRounds (pageCount length) = 0 ∧
      ∀ x, InRange addr length x → s.rightsOf x = some (false, true) := by
  constructor
  · intro h
    have hidle : intRounds (pageCount length) = 0 := by
      by_contra hne
      obtain ⟨x, hx, hnone⟩ := memmap_rwToCow_unmaps hw hfit cowPermBits hne
      rw [h.frame x hx] at hnone
      exact hmapped x hx hnone
    refine ⟨hidle, ?_⟩
    intro x hx
    rw [← (memmap_rwToCow_idle addr cowPermBits hidle s x).2]
    exact h.readOnly x hx
  · intro h
    have hidle := memmap_rwToCow_idle addr cowPermBits h.1 s
    constructor
    case frame => exact fun x _ => (hidle x).1
    case readOnly => exact fun x hx => (hidle x).2.trans (h.2 x hx)
    case others => exact fun x _ _ => hidle x
    case restored => exact fun x _ => (memmap_rwToCow_idle addr _ h.1 _ x).2.trans (hidle x).2

end Protects

section Counterexample

variable {s : Kernel}

/-- A page of its own, just mapped. -/
theorem mapped_page (hw : WellFormed s) (hr : PagesLeft s) :
    WellFormed (memmap 0x400000 pageSize usrPermBits .accessedNotPresent s).2 ∧
    (memmap 0x400000 pageSize usrPermBits .accessedNotPresent s).2.frameOf 0x400000 =
      some s.usrPhysAddr := by
  obtain ⟨n, page, hm⟩ := accessed_installed hw hr 0x400000 usrPermBits (by norm_num) (by decide)
    (by decide)
  exact ⟨hm.wellFormed, hm.frameOf_self (pathOf_roundDown 0x400000).symm⟩

theorem inRange_page {x : Nat} (h : InRange 0x400000 pageSize x) : pathOf x = pathOf 0x400000 := by
  apply pathOf_congr
  rw [InRange, pageSize] at h
  omega

end Counterexample

theorem memmap_protectsRange_page :
    0x300000 % 4096 = 0 ∧
    ¬ProtectsRange (memmap 0x400000 pageSize usrPermBits .accessedNotPresent
      (booted (fun _ => 0) 0x300000)).2 0x400000 pageSize := by
  have hw := zeroBoot_wellFormed
  have hr := zeroBoot_pagesLeft
  obtain ⟨hw', hframe⟩ := mapped_page hw hr
  generalize (memmap 0x400000 pageSize usrPermBits .accessedNotPresent
    (booted (fun _ => 0) 0x300000)).2 = t at hw' hframe
  have hmapped (x : Nat) (hx : InRange 0x400000 pageSize x) : t.frameOf x ≠ none := by
    rw [frameOf_eq_tableAt, inRange_page hx, ← frameOf_eq_tableAt, hframe]
    simp
  have hround : intRounds (pageCount pageSize) ≠ 0 := by decide
  have h := memmap_protectsRange_iff t 0x400000 pageSize hw' (by norm_num [pageSize]) hmapped
  exact ⟨by norm_num, fun hp => hround (h.mp hp).1⟩

/-- One page, mapped and made read-only: it is gone. -/
theorem memmap_rwToCow_drops :
    (memmap 0x400000 pageSize usrPermBits .accessedNotPresent
      (booted (fun _ => 0) 0x300000)).2.frameOf 0x400000 =
        some (booted (fun _ => 0) 0x300000).usrPhysAddr ∧
    (memmap 0x400000 pageSize cowPermBits .rwToCow
      (memmap 0x400000 pageSize usrPermBits .accessedNotPresent
        (booted (fun _ => 0) 0x300000)).2).2.frameOf 0x400000 = none := by
  have hw := zeroBoot_wellFormed
  have hr := zeroBoot_pagesLeft
  obtain ⟨hw', hframe⟩ := mapped_page hw hr
  refine ⟨hframe, ?_⟩
  have hfit : 0x400000 + pageSize ≤ 2^47 := by norm_num [pageSize]
  have hround : intRounds (pageCount pageSize) ≠ 0 := by decide
  obtain ⟨x, hx, hnone⟩ := memmap_rwToCow_unmaps hw' hfit cowPermBits hround
  rw [frameOf_eq_tableAt, ← inRange_page hx, ← frameOf_eq_tableAt, hnone]

end SBUnix
