import SBUnix.Paging.TableTree
import SBUnix.Paging.UserFrames

namespace SBUnix

open ByteMemory Word

section Entries

theorem setEntry_outside (m : Mem) (p a perm x : Nat) (h : x < p ∨ p+8 ≤ x) :
    setEntry m p a perm x = m x := by
  rw [setEntry, store64, store64, store_outside _ _ _ _ _ h, store_outside _ _ _ _ _ h]

theorem entry_setEntry_same (m : Mem) (p i a perm : Nat) (ha : a % 4096 = 0) (hlt : a < 2^64)
    (hperm : perm < 4096) : entry (setEntry m (p+8*i) a perm) p i = a + perm := by
  have hor : a ||| perm = a + perm := or_of_aligned 12 a perm ha hperm
  rw [entry, setEntry, load64_store64_same _ _ a hlt, hor]
  exact load64_store64_same _ _ _ (by omega)

theorem entry_setEntry_ne (m : Mem) {p q i j : Nat} (a perm : Nat) (hp : p % 4096 = 0)
    (hq : q % 4096 = 0) (hi : i < 512) (hj : j < 512) (h : ¬(p = q ∧ i = j)) :
    entry (setEntry m (q+8*j) a perm) p i = entry m p i := by
  refine load_congr _ _ _ _ fun x hx hx' => setEntry_outside _ _ _ _ _ ?_
  omega

/-- What add_user_page stores at depth `k`: the next table, and in the last the frame. -/
def link (page : Nat → Nat) (frame k : Nat) : Nat := if k = 3 then frame else page (k+1)

variable {page : Nat → Nat} {virt frame perm : Nat}

/-- The four tables' kernel addresses as linkUser takes them. -/
def linkPage (m : Mem) (virt frame perm : Nat) (page : Nat → Nat) : Mem :=
  linkUser m virtBase virt frame (add64 (page 0) virtBase) (add64 (page 1) virtBase)
    (add64 (page 2) virtBase) (add64 (page 3) virtBase) perm

/-- The index of an address at depth `k`. -/
def slotOf (virt k : Nat) : Nat := (pathOf virt).getD k 0

theorem slotOf_lt (virt : Nat) {k : Nat} (hk : k < 4) : slotOf virt k < 512 := by
  apply pathOf_lt virt
  interval_cases k <;> simp [slotOf, pathOf]

theorem linkPage_eq (m : Mem) (hlt : ∀ k < 4, page k < 2^52) :
    linkPage m virt frame perm page =
      setEntry (setEntry (setEntry (setEntry m (page 3 + 8*slotOf virt 3) frame perm)
        (page 2 + 8*slotOf virt 2) (page 3) perm) (page 1 + 8*slotOf virt 1) (page 2) perm)
        (page 0 + 8*slotOf virt 0) (page 1) perm := by
  have hd (k : Nat) (hk : k < 4) : direct (add64 (page k) virtBase) = page k :=
    direct_add64 _ (by have := hlt k hk; omega)
  have hs (k : Nat) (hk : k < 4) : sub64 (add64 (page k) virtBase) virtBase = page k := hd k hk
  unfold linkPage linkUser
  dsimp only
  rw [hd 0 (by omega), hd 1 (by omega), hd 2 (by omega), hd 3 (by omega), hs 1 (by omega),
    hs 2 (by omega), hs 3 (by omega)]
  rfl

/-- Outside the four entries nothing is written. -/
theorem linkPage_outside (m : Mem) (hlt : ∀ k < 4, page k < 2^52) (x : Nat)
    (hx : ∀ k < 4, x < page k + 8*slotOf virt k ∨ page k + 8*slotOf virt k + 8 ≤ x) :
    linkPage m virt frame perm page x = m x := by
  rw [linkPage_eq m hlt, setEntry_outside _ _ _ _ _ (hx 0 (by omega)),
    setEntry_outside _ _ _ _ _ (hx 1 (by omega)), setEntry_outside _ _ _ _ _ (hx 2 (by omega)),
    setEntry_outside _ _ _ _ _ (hx 3 (by omega))]

theorem linkPage_entry (m : Mem) (hlt : ∀ k < 4, page k < 2^52) (hal : ∀ k < 4, page k % 4096 = 0)
    (hinj : ∀ j k, j < 4 → k < 4 → page j = page k → j = k) (hf : frame % 4096 = 0)
    (hf' : frame < 2^64) (hperm : perm < 4096) (k : Nat) (hk : k < 4) :
    entry (linkPage m virt frame perm page) (page k) (slotOf virt k) =
      link page frame k + perm := by
  have hpage (k : Nat) (hk : k < 4) : page k < 2^64 := by
    have := hlt k hk
    omega
  -- a later store goes to another table
  have hpass (m : Mem) (a j k : Nat) (hj : j < 4) (hk : k < 4) (hne : j ≠ k) :
      entry (setEntry m (page j + 8*slotOf virt j) a perm) (page k)
        (slotOf virt k) = entry m (page k) (slotOf virt k) :=
    entry_setEntry_ne m a perm (hal k hk) (hal j hj) (slotOf_lt virt hk) (slotOf_lt virt hj)
      fun h => hne (hinj j k hj hk h.1.symm)
  rw [linkPage_eq m hlt]
  interval_cases k
  · exact entry_setEntry_same _ _ _ _ _ (hal 1 (by omega)) (hpage 1 (by omega)) hperm
  · rw [hpass _ _ 0 1 (by omega) (by omega) (by omega)]
    exact entry_setEntry_same _ _ _ _ _ (hal 2 (by omega)) (hpage 2 (by omega)) hperm
  · rw [hpass _ _ 0 2 (by omega) (by omega) (by omega),
      hpass _ _ 1 2 (by omega) (by omega) (by omega)]
    exact entry_setEntry_same _ _ _ _ _ (hal 3 (by omega)) (hpage 3 (by omega)) hperm
  · rw [hpass _ _ 0 3 (by omega) (by omega) (by omega),
      hpass _ _ 1 3 (by omega) (by omega) (by omega),
      hpass _ _ 2 3 (by omega) (by omega) (by omega)]
    exact entry_setEntry_same _ _ _ _ _ hf hf' hperm

end Entries

/-- One page of a process has been mapped: `n` tables were taken for it, the four entries on its
way name the tables `page` and the frame, and nothing else of memory has changed but the
freelist. -/
structure Mapped (s t : Kernel) (virt frame perm n : Nat) (page : Nat → Nat) : Prop where
  root : page 0 = s.root
  le : n ≤ 3
  pml4 : t.pml4Shared = s.pml4Shared
  base : t.virtBaseForUser = s.virtBaseForUser
  freelist : t.freelist = s.freelist
  usrPhysAddr : t.usrPhysAddr = nextFrame s.usrPhysAddr
  cursor : t.cursor = s.cursor + 4096*n
  counter : t.counter = s.counter + n
  pages : pagesIn t.log = pagesIn (takenLog s.cursor s.counter n) ++ pagesIn s.log
  depth : ∀ k < 4, tableAt s ((pathOf virt).take k) = some (page k) ∨
    tableAt s ((pathOf virt).take k) = none ∧
    s.cursor ≤ page k ∧ page k + 4096 ≤ s.cursor + 4096*n ∧ page k % 4096 = 0
  inj : ∀ j k, j < 4 → k < 4 → page j = page k → j = k
  few : ∀ k < 4, tableAt s ((pathOf virt).take k) ≠ none → n + k ≤ 3
  written : ∀ k < 4, entry t.mem (page k) (slotOf virt k) = link page frame k + perm
  kept : ∀ x, x < s.cursor ∨ s.cursor + 4096*n ≤ x →
    x < direct s.freelist + 4*s.counter ∨ direct s.freelist + 4*(s.counter+n) ≤ x →
    (∀ k < 4, x < page k + 8*slotOf virt k ∨ page k + 8*slotOf virt k + 8 ≤ x) →
    t.mem x = s.mem x
  fresh : ∀ x, s.cursor ≤ x → x < s.cursor + 4096*n →
    (∀ k < 4, x < page k + 8*slotOf virt k ∨ page k + 8*slotOf virt k + 8 ≤ x) → t.mem x = 0

section AddUserPage

variable (virt perm : Nat) (s : Kernel) (q : Tables)

theorem addUserPage_mem : (addUserPage virt q.pdp q.pd q.pt perm (s.setUser q)).mem =
    linkUser s.mem s.virtBaseForUser virt s.usrPhysAddr s.pml4Shared q.pdp q.pd q.pt perm := by
  unfold addUserPage
  rfl

theorem addUserPage_cursor :
    (addUserPage virt q.pdp q.pd q.pt perm (s.setUser q)).cursor = s.cursor := by
  simp only [addUserPage, Kernel.cursor, getUserPhysAddr, Kernel.setUser, Bool.false_eq_true, if_false]

theorem addUserPage_pages :
    pagesIn (addUserPage virt q.pdp q.pd q.pt perm (s.setUser q)).log = pagesIn s.log := by
  simp only [addUserPage, pagesIn, List.filterMap_cons, getUserPhysAddr, Kernel.setUser,
    Bool.false_eq_true, if_false]

theorem addUserPage_counter :
    (addUserPage virt q.pdp q.pd q.pt perm (s.setUser q)).counter = s.counter := by
  simp only [addUserPage, getUserPhysAddr, Kernel.setUser, Bool.false_eq_true, if_false]

theorem addUserPage_pml4Shared :
    (addUserPage virt q.pdp q.pd q.pt perm (s.setUser q)).pml4Shared = s.pml4Shared := by
  simp only [addUserPage, getUserPhysAddr, Kernel.setUser, Bool.false_eq_true, if_false]

theorem addUserPage_virtBaseForUser :
    (addUserPage virt q.pdp q.pd q.pt perm (s.setUser q)).virtBaseForUser = s.virtBaseForUser := by
  simp only [addUserPage, getUserPhysAddr, Kernel.setUser, Bool.false_eq_true, if_false]

theorem addUserPage_freelist :
    (addUserPage virt q.pdp q.pd q.pt perm (s.setUser q)).freelist = s.freelist := by
  simp only [addUserPage, getUserPhysAddr, Kernel.setUser, Bool.false_eq_true, if_false]

theorem addUserPage_usrPhysAddr :
    (addUserPage virt q.pdp q.pd q.pt perm (s.setUser q)).usrPhysAddr =
      nextFrame s.usrPhysAddr := by
  simp only [addUserPage, getUserPhysAddr, Kernel.setUser, Bool.false_eq_true, if_false]

end AddUserPage

section Depth

variable {s : Kernel} {ρ : List Nat} {n p : Nat}

/-- A table on the way is a page below the end of the pool, old or new. -/
theorem depth_aligned (hw : WellFormed s) (h : tableAt s ρ = some p ∨ tableAt s ρ = none ∧
    s.cursor ≤ p ∧ p + 4096 ≤ s.cursor + 4096*n ∧ p % 4096 = 0) : p % 4096 = 0 := by
  rcases h with h | ⟨-, -, -, h⟩
  · exact tableAt_aligned hw.aligned h
  · exact h

theorem depth_le (hw : WellFormed s) (hρ : Short ρ) (h : tableAt s ρ = some p ∨
    tableAt s ρ = none ∧ s.cursor ≤ p ∧ p + 4096 ≤ s.cursor + 4096*n ∧ p % 4096 = 0) :
    p + 4096 ≤ s.cursor + 4096*n := by
  rcases h with h | ⟨-, -, h, -⟩
  · have := hw.below ρ p hρ h
    omega
  · exact h

end Depth

theorem take_short {virt k : Nat} (hk : k < 4) : Short ((pathOf virt).take k) := by
  refine ⟨by simp only [List.length_take]; omega, ?_⟩
  intro i hi
  exact pathOf_lt virt i (List.mem_of_mem_take hi)

/-- In the tables that were found, the four entries and nothing else. -/
theorem Found.addUserPage_mem {s : Kernel} (hw : WellFormed s) {π : List Nat}
    {r : Tables × Kernel} {n : Nat} {page : Nat → Nat} (hf : Found s π r n page) (virt perm : Nat) :
    (addUserPage virt r.1.pdp r.1.pd r.1.pt perm (r.2.setUser r.1)).mem =
      linkPage r.2.mem virt s.usrPhysAddr perm page := by
  rw [SBUnix.addUserPage_mem, hf.taken.virtBaseForUser, hf.taken.pml4Shared, hf.taken.usrPhysAddr,
    hw.base, hw.pml4, hf.pdp, hf.pd, hf.pt, ← hf.root, linkPage]

/-- add_user_page in the tables that were looked up, for an address that shares them. -/
theorem addUserPage_mapped {s : Kernel} (hw : WellFormed s) {addr virt perm n : Nat}
    (htop : s.cursor + 4096*n < 2^52) {r : Tables × Kernel} {page : Nat → Nat}
    (hf : Found s (pathOf addr) r n page)
    (hpath : (pathOf virt).take 3 = (pathOf addr).take 3) (hperm : perm < 4096) :
    Mapped s (addUserPage virt r.1.pdp r.1.pd r.1.pt perm (r.2.setUser r.1)) virt s.usrPhysAddr
      perm n page := by
  have hle := hf.le
  have htake (k : Nat) (hk : k < 4) : (pathOf virt).take k = (pathOf addr).take k := by
    have := congrArg (List.take k) hpath
    rwa [List.take_take, List.take_take, Nat.min_eq_left (by omega)] at this
  have hdepth : ∀ k < 4, tableAt s ((pathOf virt).take k) = some (page k) ∨
      tableAt s ((pathOf virt).take k) = none ∧
      s.cursor ≤ page k ∧ page k + 4096 ≤ s.cursor + 4096*n ∧ page k % 4096 = 0 := by
    intro k hk
    rw [htake k hk]
    exact hf.depth k hk
  have hlt : ∀ k < 4, page k < 2^52 := by
    intro k hk
    have := depth_le hw (take_short hk) (hdepth k hk)
    omega
  have hal : ∀ k < 4, page k % 4096 = 0 := fun k hk => depth_aligned hw (hdepth k hk)
  have hmem := hf.addUserPage_mem hw virt perm
  constructor
  case root => exact hf.root
  case le => exact hle
  case pml4 => rw [addUserPage_pml4Shared, hf.taken.pml4Shared]
  case base => rw [addUserPage_virtBaseForUser, hf.taken.virtBaseForUser]
  case freelist => rw [addUserPage_freelist, hf.taken.freelist]
  case usrPhysAddr => rw [addUserPage_usrPhysAddr, hf.taken.usrPhysAddr]
  case cursor => rw [addUserPage_cursor, hf.taken.cursor]
  case counter => rw [addUserPage_counter, hf.taken.counter]
  case pages => rw [addUserPage_pages, hf.taken.log, pagesIn_append]
  case depth => exact hdepth
  case inj => exact hf.inj
  case few =>
    intro k hk
    rw [htake k hk]
    exact hf.few k hk
  case written =>
    rw [hmem]
    exact linkPage_entry r.2.mem hlt hal hf.inj hw.frame.1 hw.frame.2 hperm
  case kept =>
    intro x hc hl hx
    rw [hmem, linkPage_outside _ hlt x hx]
    exact hf.taken.kept x hc hl
  case fresh =>
    intro x hc hc' hx
    rw [hmem, linkPage_outside _ hlt x hx]
    exact hf.taken.fresh x hc hc'

theorem get_pathOf (virt : Nat) {k : Nat} (h : k < (pathOf virt).length) :
    (pathOf virt).get ⟨k,h⟩ = slotOf virt k := by
  simp [slotOf, List.getD_eq_getElem?_getD, List.getElem?_eq_getElem h]

theorem pathOf_length (virt : Nat) : (pathOf virt).length = 4 := rfl

/-- A user page mapped, and present, in well-formed tables. -/
structure Installed (s t : Kernel) (virt frame perm n : Nat) (page : Nat → Nat) : Prop
    extends Mapped s t virt frame perm n page where
  wf : WellFormed s
  slots : s.counter + n ≤ numberOfPages
  user : UserPath (pathOf virt)
  frameAligned : frame % 4096 = 0
  present : perm % 2 = 1
  small : perm < 4096

section Graft

variable {s t : Kernel} {virt frame perm n : Nat} {page : Nat → Nat}

theorem Mapped.root_eq (hm : Mapped s t virt frame perm n page) : t.root = s.root := by
  rw [Kernel.root, hm.pml4, Kernel.root]

theorem Mapped.aligned (hm : Mapped s t virt frame perm n page) (hw : WellFormed s) {k : Nat}
    (hk : k < 4) : page k % 4096 = 0 :=
  depth_aligned hw (hm.depth k hk)

theorem Mapped.next_link (hm : Mapped s t virt frame perm n page) (hw : WellFormed s)
    (hf : frame % 4096 = 0) (h1 : perm % 2 = 1) (hperm : perm < 4096) {k : Nat} (hk : k < 4) :
    next (link page frame k + perm) = some (link page frame k) := by
  apply next_add _ _ _ hperm h1
  unfold link
  split_ifs
  · exact hf
  · exact hm.aligned hw (by omega)

/-- The page that was mapped, in whichever half it lies. -/
theorem Mapped.lookup_self (hm : Mapped s t virt frame perm n page) (hw : WellFormed s)
    (hf : frame % 4096 = 0) (h1 : perm % 2 = 1) (hperm : perm < 4096) {va : Nat}
    (hva : pathOf va = pathOf virt) :
    t.lookup va = some ((List.range 4).map fun k => link page frame k + perm) := by
  have hstep (k : Nat) (hk : k < 4) :
      next (entry t.mem (page k) (slotOf virt k)) = some (link page frame k) := by
    rw [hm.written k hk]
    exact hm.next_link hw hf h1 hperm hk
  have hslots : pathOf virt = [slotOf virt 0, slotOf virt 1, slotOf virt 2, slotOf virt 3] := rfl
  rw [Kernel.lookup, walk, hm.root_eq, hva, ← hm.root, hslots,
    RadixTable.walk_cons_some _ _ _ (hstep 0 (by omega)), link, if_neg (by omega),
    RadixTable.walk_cons_some _ _ _ (hstep 1 (by omega)), link, if_neg (by omega),
    RadixTable.walk_cons_some _ _ _ (hstep 2 (by omega)), link, if_neg (by omega),
    RadixTable.walk_cons_some _ _ _ (hstep 3 (by omega)), RadixTable.walk, hm.written 0 (by omega),
    hm.written 1 (by omega), hm.written 2 (by omega), hm.written 3 (by omega)]
  rfl

variable (hm : Installed s t virt frame perm n page)
include hm

theorem Installed.aligned {k : Nat} (hk : k < 4) : page k % 4096 = 0 :=
  hm.toMapped.aligned hm.wf hk

/-- A table of the state before keeps its entries off the path. -/
theorem Installed.entry_kept {ρ : List Nat} {p i : Nat} (hρ : Short ρ)
    (hp : tableAt s ρ = some p) (hi : i < 512) (hne : ∀ k < 4, p = page k → i ≠ slotOf virt k) :
    entry t.mem p i = entry s.mem p i := by
  have hb := hm.wf.below ρ p hρ hp
  have hf := hm.wf.freelist ρ p hρ hp
  have hs := hm.slots
  have hal := tableAt_aligned hm.wf.aligned hp
  refine load_congr _ _ _ _ fun x hx hx' => hm.kept x (Or.inl (by omega)) (by omega) ?_
  intro k hk
  have hk' := hm.aligned hk
  have hslot := slotOf_lt virt hk
  by_cases he : p = page k
  · have := hne k hk he
    omega
  · omega

theorem Installed.entry_fresh {k i : Nat} (hk : k < 4)
    (hnone : tableAt s ((pathOf virt).take k) = none) (hi : i < 512)
    (hne : i ≠ slotOf virt k) : entry t.mem (page k) i = 0 := by
  obtain ⟨-, hc, hc', hal⟩ : tableAt s ((pathOf virt).take k) = none ∧ s.cursor ≤ page k ∧
      page k + 4096 ≤ s.cursor + 4096*n ∧ page k % 4096 = 0 := by
    rcases hm.depth k hk with h | h
    · rw [hnone] at h
      cases h
    · exact h
  refine load_zero _ _ _ fun x hx hx' => hm.fresh x (by omega) (by omega) ?_
  intro j hj
  have hj' := hm.aligned hj
  have hslot := slotOf_lt virt hj
  by_cases he : j = k
  · subst he
    omega
  · have : page j ≠ page k := fun h => he (hm.inj j k hj hk h)
    omega

/-- The tables on the path are reached by nothing else. -/
theorem Installed.apart {k : Nat} (hk : k < 4) {ρ : List Nat} (hρ : Short ρ)
    (h : tableAt s ρ = some (page k)) : ρ = (pathOf virt).take k := by
  rcases hm.depth k hk with hd | ⟨-, hd, -⟩
  · have htake := hm.user.initial (List.take_prefix k (pathOf virt))
    exact (hm.wf.tree _ ρ (page k) (take_short hk).1 htake hρ hd h).symm
  · have := hm.wf.below ρ _ hρ h
    omega

theorem Installed.graft :
    RadixTable.Graft next (entry s.mem) (entry t.mem) s.root Slots (pathOf virt) page
      (fun k => link page frame k + perm) := by
  have hlen := pathOf_length virt
  have hslots {ρ : List Nat} {i : Nat} (h : Slots (ρ++[i])) : i < 512 := h i (by simp)
  constructor
  case zero => exact hm.root
  case apart =>
    intro k ρ hk hS hl h
    exact hm.apart (by omega) ⟨by omega, hS⟩ h
  case old =>
    intro k hk
    rcases hm.depth k (by omega) with h | h
    · exact Or.inl h
    · exact Or.inr h.1
  case written =>
    intro k hk
    rw [get_pathOf]
    exact hm.written k (by omega)
  case linked =>
    intro k hk
    have h := hm.toMapped.next_link hm.wf hm.frameAligned hm.present hm.small (k := k) (by omega)
    rw [h, link, if_neg (by omega)]
  case kept =>
    intro k hk i hS hi h
    rw [get_pathOf] at hi
    refine hm.entry_kept (take_short (by omega)) h (hslots hS) ?_
    intro j hj he
    rwa [hm.inj j k hj (by omega) he.symm]
  case blank =>
    intro k hk i hS hi h
    rw [get_pathOf] at hi
    rw [hm.entry_fresh (by omega) h (hslots hS) hi]
    exact next_of_even 0 rfl
  case frame =>
    intro ρ p i hS hl hp hne
    refine hm.entry_kept ⟨by omega, (slots_append.mp hS).1⟩ hp (hslots hS) ?_
    intro k hk he
    exact absurd he (hne k (by omega))

end Graft

theorem nextFrame_aligned {f : Nat} (h : f % 4096 = 0) :
    nextFrame f % 4096 = 0 ∧ nextFrame f < 2^64 := by
  rcases nextFrame_cases f with ⟨he, -⟩ | he
  · rw [he]
    refine ⟨?_, add64_lt f pageSize⟩
    unfold add64 pageSize
    omega
  · rw [he]
    norm_num [startPaddrForUsrs]

theorem slots_initial (a b : List Nat) (h : Slots (a++b)) : Slots a := (slots_append.mp h).1

section Effect

variable {s t : Kernel} {virt frame perm n : Nat} {page : Nat → Nat}
  (hm : Installed s t virt frame perm n page)
include hm

/-- The page itself. -/
theorem Installed.lookup_self {va : Nat} (hva : pathOf va = pathOf virt) :
    t.lookup va = some ((List.range 4).map fun k => link page frame k + perm) :=
  hm.toMapped.lookup_self hm.wf hm.frameAligned hm.present hm.small hva

/-- Every other page keeps its entries from where its path turns off, and has the new ones
before that. -/
theorem Installed.lookup_other {va : Nat} (hva : pathOf va ≠ pathOf virt) :
    RadixTable.common (pathOf va) (pathOf virt) < 4 ∧
    t.lookup va = (s.lookup va).map fun es =>
      (List.range (RadixTable.common (pathOf va) (pathOf virt))).map
        (fun k => link page frame k + perm) ++
      es.drop (RadixTable.common (pathOf va) (pathOf virt)) := by
  have hnp : ¬pathOf va <+: pathOf virt := fun h => hva (h.eq_of_length rfl)
  obtain ⟨σ, i, τ, hl, he, hp, hi⟩ := RadixTable.exists_turn _ _ (le_refl 4) hnp
  have hslots : Slots (σ++i::τ) := by
    rw [← he]
    exact pathOf_lt va
  have hlen : (σ++i::τ).length ≤ (pathOf virt).length := by rw [← he]; exact le_refl 4
  have hg := (hm.graft).walk_diverge slots_initial σ τ i hl hp hi hslots hlen
  have hcommon : RadixTable.common (pathOf va) (pathOf virt) = σ.length := by
    have hsplit : pathOf virt = σ ++ (pathOf virt).get ⟨σ.length,hl⟩ ::
        (pathOf virt).drop (σ.length+1) := by
      conv_lhs => rw [← List.take_append_drop σ.length (pathOf virt)]
      rw [← List.prefix_iff_eq_take.mp hp, List.drop_eq_getElem_cons hl, List.get_eq_getElem]
    have hturn := RadixTable.common_turn σ hi τ ((pathOf virt).drop (σ.length+1))
    rwa [← hsplit, ← he] at hturn
  rw [hcommon]
  refine ⟨hl, ?_⟩
  rw [Kernel.lookup, Kernel.lookup, walk, walk, hm.root_eq, he]
  exact hg

theorem Installed.tableAt_on {k : Nat} (hk : k < 4) :
    tableAt t ((pathOf virt).take k) = some (page k) := by
  rw [tableAt, hm.root_eq]
  exact (hm.graft).table_take k hk

theorem Installed.tableAt_off {ρ : List Nat} (hρ : Short ρ) (hnp : ¬ρ <+: pathOf virt) :
    tableAt t ρ = tableAt s ρ := by
  have hl4 := pathOf_length virt
  have hl3 := hρ.1
  obtain ⟨σ, i, τ, hl, he, hp, hi⟩ := RadixTable.exists_turn ρ (pathOf virt) (by omega) hnp
  rw [tableAt, tableAt, hm.root_eq, he]
  exact (hm.graft).table_diverge slots_initial σ τ i hl hp hi (he ▸ hρ.2)
    (by rw [← he]; omega)

/-- The tables after the call: those on the path, and the old ones. -/
theorem Installed.tableAt_cases {ρ : List Nat} {p : Nat} (hρ : Short ρ) (hp : tableAt t ρ = some p) :
    (∃ k < 4, ρ = (pathOf virt).take k ∧ p = page k) ∨
    ¬ρ <+: pathOf virt ∧ tableAt s ρ = some p ∧ ∀ k < 4, p ≠ page k := by
  by_cases hpre : ρ <+: pathOf virt
  · left
    have htake := List.prefix_iff_eq_take.mp hpre
    have hlen := hρ.1
    have hon := hm.tableAt_on (k := ρ.length) (by omega)
    rw [← htake, hp] at hon
    exact ⟨ρ.length, by omega, htake, Option.some.inj hon⟩
  · right
    rw [hm.tableAt_off hρ hpre] at hp
    refine ⟨hpre, hp, ?_⟩
    rintro k hk rfl
    apply hpre
    rw [hm.apart hk hρ hp]
    exact List.take_prefix k _

theorem Installed.below {ρ : List Nat} {p : Nat} (hρ : Short ρ) (hp : tableAt t ρ = some p) :
    p + 4096 ≤ t.cursor := by
  rw [hm.cursor]
  rcases hm.tableAt_cases hρ hp with ⟨k, hk, -, rfl⟩ | ⟨-, hp, -⟩
  · exact depth_le hm.wf (take_short hk) (hm.depth k hk)
  · have := hm.wf.below ρ p hρ hp
    omega

theorem Installed.freelist_apart {ρ : List Nat} {p : Nat} (hρ : Short ρ) (hp : tableAt t ρ = some p) :
    direct t.freelist + 4*numberOfPages ≤ p ∨ p + 4096 ≤ direct t.freelist := by
  rw [hm.freelist]
  rcases hm.tableAt_cases hρ hp with ⟨k, hk, -, rfl⟩ | ⟨-, hp, -⟩
  · rcases hm.depth k hk with hd | ⟨-, hd, -⟩
    · exact hm.wf.freelist _ _ (take_short hk) hd
    · have := hm.wf.listBelow
      exact Or.inl (by omega)
  · exact hm.wf.freelist ρ p hρ hp

theorem Installed.tree {ρ σ : List Nat} {p : Nat} (hlen : ρ.length ≤ 3) (hρ : UserPath ρ)
    (hσ : Short σ) (hp : tableAt t ρ = some p) (hq : tableAt t σ = some p) : ρ = σ := by
  rcases hm.tableAt_cases (hρ.short hlen) hp with
    ⟨j, hj, rfl, rfl⟩ | ⟨-, hp, hne⟩
  · rcases hm.tableAt_cases hσ hq with ⟨k, hk, rfl, he⟩ | ⟨-, -, hne⟩
    · rw [hm.inj j k hj hk he]
    · exact absurd rfl (hne j hj)
  · rcases hm.tableAt_cases hσ hq with ⟨k, hk, -, he⟩ | ⟨-, hq, -⟩
    · exact absurd he (hne k hk)
    · exact hm.wf.tree ρ σ p hlen hρ hσ hp hq

theorem Installed.upper {ρ : List Nat} {p i : Nat} (hlen : ρ.length ≤ 2) (hρ : UserPath (ρ++[i]))
    (hp : tableAt t ρ = some p) : entry t.mem p i = 0 ∨ entry t.mem p i % 2 = 1 := by
  have hi : i < 512 := hρ.1 i (by simp)
  have hshort : Short ρ := ⟨by omega, (slots_append.mp hρ.1).1⟩
  rcases hm.tableAt_cases hshort hp with ⟨k, hk, rfl, rfl⟩ | ⟨-, hp, hne⟩
  · by_cases hslot : i = slotOf virt k
    · -- the entry on the path names the next table
      right
      have hk2 : k ≤ 2 := by
        have hl4 := pathOf_length virt
        rw [List.length_take] at hlen
        omega
      have hal := hm.aligned (k := k+1) (by omega)
      have hodd := hm.present
      rw [hslot, hm.written k hk, link, if_neg (by omega)]
      omega
    · rcases hm.depth k hk with hd | hd
      · rw [hm.entry_kept hshort hd hi
          (fun j hj he => by rwa [hm.inj j k hj hk he.symm])]
        exact hm.wf.upper _ _ i hlen hρ hd
      · exact Or.inl (hm.entry_fresh hk hd.1 hi hslot)
  · rw [hm.entry_kept hshort hp hi (fun k hk he => absurd he (hne k hk))]
    exact hm.wf.upper ρ p i hlen hρ hp

theorem Installed.given {ρ : List Nat} {p : Nat} (hne : ρ ≠ []) (hlen : ρ.length ≤ 3)
    (hρ : UserPath ρ) (hp : tableAt t ρ = some p) : add64 p virtBase ∈ pagesIn t.log := by
  rw [hm.pages, List.mem_append]
  rcases hm.tableAt_cases (hρ.short hlen) hp with
    ⟨k, hk, rfl, rfl⟩ | ⟨-, hp, -⟩
  · rcases hm.depth k hk with hd | ⟨-, hlo, hhi, hal⟩
    · exact Or.inr (hm.wf.given _ _ hne hlen hρ hd)
    · left
      have hc := hm.wf.cursor
      obtain ⟨j, hj⟩ : ∃ j, page k = s.cursor + 4096*j := ⟨(page k - s.cursor) / 4096, by omega⟩
      refine List.mem_filterMap.mpr ⟨.page (add64 (page k) virtBase), ?_, rfl⟩
      exact (mem_takenLog _ _ _ _).mpr ⟨j, by omega, Or.inl (by rw [hj])⟩
  · exact Or.inr (hm.wf.given ρ p hne hlen hρ hp)

theorem Installed.wellFormed : WellFormed t := by
  have hroot := hm.root_eq
  constructor
  case base => rw [hm.base, hm.wf.base]
  case pml4 => rw [hm.pml4, hroot, hm.wf.pml4]
  case aligned => rw [hroot, hm.wf.aligned]
  case cursor =>
    have := hm.wf.cursor
    rw [hm.cursor]
    omega
  case frame =>
    rw [hm.usrPhysAddr]
    exact nextFrame_aligned hm.wf.frame.1
  case given => exact fun ρ p hne hlen hρ hp => hm.given hne hlen hρ hp
  case below => exact fun ρ p hρ hp => hm.below hρ hp
  case tree => exact fun ρ σ p hlen hρ hσ hp hq => hm.tree hlen hρ hσ hp hq
  case upper => exact fun ρ p i hlen hρ hp => hm.upper hlen hρ hp
  case freelist => exact fun ρ p hρ hp => hm.freelist_apart hρ hp
  case listBelow =>
    have := hm.wf.listBelow
    rw [hm.freelist, hm.cursor]
    omega

end Effect

theorem pageCount_one : pageCount pageSize = 1 := by decide

/-- Reloading cr3 does not touch a table. -/
theorem Mapped.tlbFlush {s t : Kernel} {virt frame perm n : Nat} {page : Nat → Nat}
    (hm : Mapped s t virt frame perm n page) (c : Nat) :
    Mapped s (tlbFlush c t) virt frame perm n page :=
  ⟨hm.root, hm.le, hm.pml4, hm.base, hm.freelist, hm.usrPhysAddr, hm.cursor, hm.counter, hm.pages,
    hm.depth, hm.inj, hm.few, hm.written, hm.kept, hm.fresh⟩

/-- One page through mapUser, in tables the page shares with the address they are looked up
for. -/
theorem mapUser_mapped {s : Kernel} (hw : WellFormed s) (hr : PagesLeft s) (page : Nat → Nat)
    {addr perm : Nat} (hpass : Passable s (pathOf addr))
    (hpath : (pathOf (page addr)).take 3 = (pathOf addr).take 3) (hperm : perm < 4096) :
    ∃ n tables, Mapped s (mapUser page addr perm 1 s).2 (page addr) s.usrPhysAddr perm n tables := by
  obtain ⟨n, tables, hf⟩ := findTables_spec hw hr hpass
  refine ⟨n, tables, ?_⟩
  rw [mapUser_one_eq]
  have hle := hf.le
  have htop := hr.top
  exact addUserPage_mapped hw (by omega) hf hpath hperm

/-- An address that shares the three tables is in the user half too. -/
theorem userPath_of_take {virt addr : Nat} (hu : UserPath (pathOf addr))
    (hpath : (pathOf virt).take 3 = (pathOf addr).take 3) : UserPath (pathOf virt) := by
  refine ⟨pathOf_lt virt, ?_⟩
  intro i hi
  apply hu.2 i
  have hhead := congrArg List.head? hpath
  rw [pathOf, List.take_succ_cons, List.head?_cons, pathOf, List.take_succ_cons,
    List.head?_cons] at hhead
  exact hhead.symm.trans hi

end SBUnix
