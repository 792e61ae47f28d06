import SBUnix.Paging.UserPaging

namespace SBUnix

open ByteMemory Word

/-- The globals from which memmap makes up virtual addresses. -/
@[ext] structure VaCursor where
  userAddr : Nat
  pml : Nat
  difCtxt : Nat
  /-- `physbase + virt_base_for_user`, where user_addr starts over. -/
  limit : Nat

def Kernel.vaCursor (s : Kernel) : VaCursor :=
  ⟨s.userAddr, s.pmlSameCtxt, s.difCtxt, add64 s.physbase s.virtBaseForUser⟩

/-- The cursor after get_user_virt_addr(0). -/
def VaCursor.next (c : VaCursor) : VaCursor :=
  { c with userAddr := nextUserAddr c.limit c.userAddr }

/-- The cursor after increment_pml. -/
def VaCursor.bump (c : VaCursor) : VaCursor := { c with pml := nextPml c.pml }

/-- The pages add_user_page has been given, newest first. -/
def ptesIn (log : List Event) : List Nat :=
  log.filterMap fun
    | .pte v => some v
    | _ => none

section Frames

variable (s : Kernel)

theorem pageAlloc_vaCursor : (pageAlloc s).2.vaCursor = s.vaCursor := by
  simp only [pageAlloc, Kernel.vaCursor]

theorem pageAlloc_others : (pageAlloc s).2.others = s.others := by
  unfold pageAlloc
  exact others_update s _ _ _ _ _ _

theorem pageAlloc_ptes : ptesIn (pageAlloc s).2.log = ptesIn s.log := by
  simp only [pageAlloc, ptesIn, List.filterMap_cons]

theorem getTable_cases (lookup off : Nat) :
    getTable lookup off s = (add64 (load64 s.mem (direct lookup + 8*off)) virtBase, s) ∨
    getTable lookup off s = pageAlloc s := by
  unfold getTable
  dsimp only
  split_ifs
  · exact Or.inl rfl
  · exact Or.inr rfl

theorem getTable_vaCursor (lookup off : Nat) :
    (getTable lookup off s).2.vaCursor = s.vaCursor := by
  rcases getTable_cases s lookup off with h | h
  · rw [h]
  · rw [h, pageAlloc_vaCursor]

theorem getTable_others (lookup off : Nat) : (getTable lookup off s).2.others = s.others := by
  rcases getTable_cases s lookup off with h | h
  · rw [h]
  · rw [h, pageAlloc_others]

theorem getTable_ptes (lookup off : Nat) :
    ptesIn (getTable lookup off s).2.log = ptesIn s.log := by
  rcases getTable_cases s lookup off with h | h
  · rw [h]
  · rw [h, pageAlloc_ptes]

theorem findTables_vaCursor (addr : Nat) : (findTables addr s).2.vaCursor = s.vaCursor := by
  simp only [findTables, getPt, getPd, getPdp, getTable_vaCursor]

theorem findTables_others (addr : Nat) : (findTables addr s).2.others = s.others := by
  simp only [findTables, getPt, getPd, getPdp, getTable_others]

theorem findTables_pml4Shared (addr : Nat) : (findTables addr s).2.pml4Shared = s.pml4Shared :=
  congrArg (·.pml4Shared) (findTables_others s addr)

theorem findTables_virtBaseForUser (addr : Nat) :
    (findTables addr s).2.virtBaseForUser = s.virtBaseForUser :=
  congrArg (·.virtBaseForUser) (findTables_others s addr)

theorem findTables_ptes (addr : Nat) : ptesIn (findTables addr s).2.log = ptesIn s.log := by
  simp only [findTables, getPt, getPd, getPdp, getTable_ptes]

theorem addUserPage_vaCursor (virt pdp pd ptu perm : Nat) :
    (addUserPage virt pdp pd ptu perm s).vaCursor = s.vaCursor := by
  simp only [addUserPage, getUserPhysAddr, Bool.false_eq_true, if_false, Kernel.vaCursor]

theorem addUserPage_ptes (virt pdp pd ptu perm : Nat) :
    ptesIn (addUserPage virt pdp pd ptu perm s).log = virt :: ptesIn s.log := by
  simp only [addUserPage, getUserPhysAddr, Bool.false_eq_true, if_false, ptesIn,
    List.filterMap_cons]

theorem addUserPages_vaCursor (page : Nat → Nat) (pdp pd ptu perm n addr : Nat) :
    (addUserPages page pdp pd ptu perm n addr s).2.vaCursor = s.vaCursor := by
  have hloop (k : Nat) (r : Nat × Kernel) :
      ((addAndAdvance page pdp pd ptu perm)^[k] r).2.vaCursor = r.2.vaCursor := by
    induction k generalizing r with
    | zero => rw [Function.iterate_zero_apply]
    | succ k ih => rw [Function.iterate_succ_apply, ih, addAndAdvance, addUserPage_vaCursor]
  rw [addUserPages]
  split_ifs
  · rfl
  · rw [addUserPage_vaCursor, hloop]

theorem setUser_vaCursor (t : Tables) : (s.setUser t).vaCursor = s.vaCursor := by
  simp only [Kernel.setUser, Kernel.vaCursor]

theorem setUser_log (t : Tables) : (s.setUser t).log = s.log := by
  simp only [Kernel.setUser]

theorem mapUser_vaCursor (page : Nat → Nat) (addr perm n : Nat) :
    (mapUser page addr perm n s).2.vaCursor = s.vaCursor := by
  rw [mapUser, addUserPages_vaCursor, setUser_vaCursor, findTables_vaCursor]

theorem mapUser_one_eq (page : Nat → Nat) (addr perm : Nat) :
    mapUser page addr perm 1 s = (addr, addUserPage (page addr) (findTables addr s).1.pdp
      (findTables addr s).1.pd (findTables addr s).1.pt perm
      ((findTables addr s).2.setUser (findTables addr s).1)) := by
  rw [mapUser, addUserPages, if_neg Nat.one_ne_zero, Nat.sub_self, Function.iterate_zero_apply]

/-- One page: memmap returns the address it looked the tables up for. -/
theorem mapUser_one (page : Nat → Nat) (addr perm : Nat) :
    (mapUser page addr perm 1 s).1 = addr ∧
    ptesIn (mapUser page addr perm 1 s).2.log = page addr :: ptesIn s.log := by
  have hone := mapUser_one_eq s page addr perm
  refine ⟨congrArg Prod.fst hone, ?_⟩
  rw [hone, addUserPage_ptes, setUser_log, findTables_ptes]

theorem getUserVirtAddr_fst : (getUserVirtAddr false s).1 = s.vaCursor.userAddr := by
  cases s
  rfl

theorem getUserVirtAddr_vaCursor : (getUserVirtAddr false s).2.vaCursor = s.vaCursor.next := by
  cases s
  rfl

theorem getUserVirtAddr_log : (getUserVirtAddr false s).2.log = s.log := by
  cases s
  rfl

theorem incrementPml_fst : (incrementPml s).1 = s.vaCursor.bump.pml := by
  cases s
  rfl

theorem incrementPml_vaCursor : (incrementPml s).2.vaCursor = s.vaCursor.bump := by
  cases s
  rfl

theorem incrementPml_log : (incrementPml s).2.log = s.log := by
  cases s
  rfl

theorem tlbFlush_vaCursor (p : Nat) : (tlbFlush p s).vaCursor = s.vaCursor := by
  simp only [tlbFlush, Kernel.vaCursor]

theorem setNewKpts_vaCursor (ptk virt pdp pd pml phys : Nat) :
    (setNewKpts ptk virt pdp pd pml phys s).vaCursor = s.vaCursor := by
  simp only [setNewKpts, Kernel.vaCursor]

theorem changePermissions_vaCursor (addr perm : Nat) :
    (changePermissions addr perm s).vaCursor = s.vaCursor := by
  have h := findTables_vaCursor s addr
  simp only [Kernel.vaCursor] at h
  simp only [changePermissions, Kernel.setUser, Kernel.vaCursor, h]

theorem changePages_vaCursor (addr perm n : Nat) :
    (changePages addr perm n s).vaCursor = s.vaCursor := by
  have hloop (r : Nat × Kernel) :
      ((changeAndAdvance addr perm)^[n] r).2.vaCursor = r.2.vaCursor := by
    induction n generalizing r with
    | zero => rw [Function.iterate_zero_apply]
    | succ n ih =>
      rw [Function.iterate_succ_apply, ih, changeAndAdvance, changePermissions_vaCursor]
  exact hloop (0, s)

theorem newContext_vaCursor (n : Nat) : (newContext n s).2.vaCursor = s.vaCursor.next := by
  simp only [newContext, addUserPages_vaCursor, setNewKpts_vaCursor, getUserVirtAddr_vaCursor,
    pageAlloc_vaCursor]

end Frames

/-- What a call of memmap does to the cursor. -/
def VaCursor.step (c : VaCursor) : MapFlag → VaCursor
  | .accessedNotPresent | .rwToCow => c
  | .newPage => if c.difCtxt = 0 then c.next.bump else c.next
  | .setCowRw | .growsDown | .contextSwitch => c.next

theorem memmap_vaCursor (addr length prot : Nat) (flag : MapFlag) (s : Kernel) :
    (memmap addr length prot flag s).2.vaCursor = s.vaCursor.step flag := by
  have hd : s.vaCursor.difCtxt = s.difCtxt := by rw [Kernel.vaCursor]
  rw [memmap, tlbFlush_vaCursor]
  cases flag with
  | accessedNotPresent => rw [mapPagesFor, mapUser_vaCursor, VaCursor.step]
  | setCowRw => rw [mapPagesFor, mapUser_vaCursor, getUserVirtAddr_vaCursor, VaCursor.step]
  | rwToCow => rw [mapPagesFor, changePages_vaCursor, VaCursor.step]
  | newPage =>
    rw [mapPagesFor, VaCursor.step, hd]
    split_ifs
    · rw [mapUser_vaCursor, incrementPml_vaCursor, getUserVirtAddr_vaCursor]
    · rw [mapUser_vaCursor, getUserVirtAddr_vaCursor]
  | contextSwitch => rw [mapPagesFor, newContext_vaCursor, VaCursor.step]
  | growsDown => rw [mapPagesFor, mapUser_vaCursor, getUserVirtAddr_vaCursor, VaCursor.step]

/-- memmap of one page comes to one round of mapUser and a reload of cr3. -/
theorem memmap_one {addr prot : Nat} {flag : MapFlag} {s t : Kernel} {page : Nat → Nat}
    {a perm : Nat} (h : mapPagesFor addr 1 prot flag s = mapUser page a perm 1 t) :
    (memmap addr pageSize prot flag s).1 = a ∧
    ptesIn (memmap addr pageSize prot flag s).2.log = page a :: ptesIn t.log := by
  have hone : pageCount pageSize = 1 := by decide
  have hlog (u : Kernel) (p : Nat) : (tlbFlush p u).log = u.log := by rw [tlbFlush]
  obtain ⟨h1, h2⟩ := mapUser_one t page a perm
  rw [memmap, hone, h, hlog]
  exact ⟨h1, h2⟩

/-- The address a NEW_PAGE call makes up. -/
def VaCursor.newPage (c : VaCursor) : Nat :=
  if c.difCtxt = 0 then add64 c.userAddr c.bump.pml else c.userAddr

theorem VaCursor.next_bump_pml (c : VaCursor) : c.next.bump.pml = c.bump.pml := by
  cases c
  rfl

/-- The page a call maps and the address it returns. -/
theorem newPage_result (addr prot : Nat) (s : Kernel) :
    (memmap addr pageSize prot .newPage s).1 = s.vaCursor.newPage ∧
    ptesIn (memmap addr pageSize prot .newPage s).2.log = s.vaCursor.newPage :: ptesIn s.log := by
  have hd : s.vaCursor.difCtxt = s.difCtxt := by rw [Kernel.vaCursor]
  by_cases h : s.difCtxt = 0
  · have he : mapPagesFor addr 1 prot .newPage s = mapUser id s.vaCursor.newPage usrPermBits 1
        (incrementPml (getUserVirtAddr false s).2).2 := by
      rw [mapPagesFor, if_pos h]
      dsimp only
      rw [getUserVirtAddr_fst, incrementPml_fst, getUserVirtAddr_vaCursor,
        VaCursor.next_bump_pml, VaCursor.newPage, hd, if_pos h]
    have hr := memmap_one he
    rwa [incrementPml_log, getUserVirtAddr_log] at hr
  · have he : mapPagesFor addr 1 prot .newPage s = mapUser id s.vaCursor.newPage usrPermBits 1
        (getUserVirtAddr false s).2 := by
      rw [mapPagesFor, if_neg h]
      dsimp only
      rw [getUserVirtAddr_fst, VaCursor.newPage, hd, if_neg h]
    have hr := memmap_one he
    rwa [getUserVirtAddr_log] at hr

theorem setCowRw_result (addr prot : Nat) (s : Kernel) :
    (memmap addr pageSize prot .setCowRw s).1 = s.vaCursor.userAddr ∧
    ptesIn (memmap addr pageSize prot .setCowRw s).2.log =
      roundDown s.vaCursor.userAddr pageSize :: ptesIn s.log := by
  have he : mapPagesFor addr 1 prot .setCowRw s = mapUser (roundDown · pageSize)
      s.vaCursor.userAddr prot 1 (getUserVirtAddr false s).2 := by
    rw [mapPagesFor, getUserVirtAddr_fst]
  have hr := memmap_one he
  rwa [getUserVirtAddr_log] at hr

theorem growsDown_result (addr prot : Nat) (s : Kernel) :
    (memmap addr pageSize prot .growsDown s).1 = s.vaCursor.userAddr ∧
    ptesIn (memmap addr pageSize prot .growsDown s).2.log =
      sub64 s.vaCursor.userAddr pageSize :: ptesIn s.log := by
  have he : mapPagesFor addr 1 prot .growsDown s = mapUser (sub64 · pageSize)
      s.vaCursor.userAddr usrPermBits 1 (getUserVirtAddr false s).2 := by
    rw [mapPagesFor, getUserVirtAddr_fst]
  have hr := memmap_one he
  rwa [getUserVirtAddr_log] at hr

end SBUnix
