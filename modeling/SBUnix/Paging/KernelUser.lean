import SBUnix.Paging.UserPages

namespace SBUnix

open ByteMemory Word

/-- Every address that was mapped leads to the frame it led to, and no other has become mapped. -/
def SameTranslation (s t : Kernel) : Prop := ∀ x, Canonical x → t.frameOf x = s.frameOf x

/-- The slots of all tables lead where they did. -/
def SameLinks (m m' : Mem) : Prop :=
  ∀ p i, p % 4096 = 0 → i < 512 → next (entry m' p i) = next (entry m p i)

section Entries

variable {m m' : Mem} {p q i : Nat}

theorem SameLinks.trans {m'' : Mem} (h : SameLinks m m') (h' : SameLinks m' m'') :
    SameLinks m m'' :=
  fun p i hp hi => (h' p i hp hi).trans (h p i hp hi)

theorem odd_of_next {e : Nat} (h : next e = some q) : e % 2 = 1 := by
  by_contra h0
  rw [next_of_even e (by omega)] at h
  cases h

theorem lt_of_next {e : Nat} (he : e < 2^64) (h : next e = some q) : q < 2^64 := by
  rw [← pageOf_of_next h, pageOf_eq]
  omega

/-- More permission bits lead nowhere else. -/
theorem next_or_user {e : Nat} (h : next e = some q) : next (e ||| usrPermBits) = some q := by
  have hbit : (e ||| usrPermBits) % 2 = 1 := by
    rw [Nat.or_mod_two_eq_one]
    exact Or.inl (odd_of_next h)
  have hpage : pageOf (e ||| usrPermBits) = pageOf e := by
    rw [pageOf, pageOf, Nat.shiftRight_or_distrib]
    simp [usrPermBits]
  rw [next, if_pos hbit, hpage, pageOf_of_next h]

theorem setUserEntry_outside (m : Mem) (p a x : Nat) (h : x < p ∨ p+8 ≤ x) :
    setUserEntry m p a x = m x := by
  rw [setUserEntry, store64, store64, store64, store_outside _ _ _ _ _ h,
    store_outside _ _ _ _ _ h, store_outside _ _ _ _ _ h]

/-- The entry names `a` once its low bits have been cut off and the permission put in. -/
theorem entry_setUserEntry_same (m : Mem) (p i : Nat) {a : Nat} (ha : a % 4096 = 0)
    (hlt : a < 2^64) : entry (setUserEntry m (p+8*i) a) p i = a + usrPermBits := by
  have hpage : pageOf a = a := by
    rw [pageOf_eq]
    omega
  have hor : a ||| usrPermBits = a + usrPermBits := or_of_aligned 12 a _ ha (by decide)
  rw [entry, setUserEntry, load64_store64_same _ _ a hlt, hpage, load64_store64_same _ _ a hlt, hor]
  apply load64_store64_same
  rw [usrPermBits]
  omega

theorem entry_setUserEntry_ne (m : Mem) {p q i j : Nat} (a : Nat) (hp : p % 4096 = 0)
    (hq : q % 4096 = 0) (hi : i < 512) (hj : j < 512) (h : ¬(p = q ∧ i = j)) :
    entry (setUserEntry m (q+8*j) a) p i = entry m p i := by
  refine load_congr _ _ _ _ fun x hx hx' => setUserEntry_outside _ _ _ _ ?_
  omega

theorem next_setUserEntry (m : Mem) (p i : Nat) {a : Nat} (ha : a % 4096 = 0) (hlt : a < 2^64) :
    next (entry (setUserEntry m (p+8*i) a) p i) = some a := by
  rw [entry_setUserEntry_same m p i ha hlt]
  exact next_add a _ ha (by decide) rfl

/-- A slot written again with the table it already leads to. -/
theorem sameLinks_setUserEntry (hp : p % 4096 = 0) (hi : i < 512)
    (h : next (entry m p i) = some q) : SameLinks m (setUserEntry m (p+8*i) q) := by
  intro p' i' hp' hi'
  by_cases he : p' = p ∧ i' = i
  · rw [he.1, he.2, h]
    exact next_setUserEntry m p i (next_aligned h) (lt_of_next (entry_lt m p i) h)
  · rw [entry_setUserEntry_ne m q hp' hp hi' hi he]

/-- A slot written again with its own entry. -/
theorem sameLinks_setEntry (hp : p % 4096 = 0) (hi : i < 512) (h : next (entry m p i) = some q) :
    SameLinks m (setEntry m (p+8*i) (entry m p i) usrPermBits) := by
  intro p' i' hp' hi'
  by_cases he : p' = p ∧ i' = i
  · have hlt := entry_lt m p i
    have hor : entry m p i ||| usrPermBits < 2^64 := Nat.or_lt_two_pow hlt (by decide)
    have hself : entry (setEntry m (p+8*i) (entry m p i) usrPermBits) p i =
        entry m p i ||| usrPermBits := by
      generalize entry m p i = e at hlt hor
      rw [entry, setEntry, load64_store64_same _ _ e hlt]
      exact load64_store64_same _ _ _ hor
    rw [he.1, he.2, hself, h, next_or_user h]
  · rw [entry_setEntry_ne m _ _ hp' hp hi' hi he]

end Entries

section Present

variable {s : Kernel} {va p1 p2 p3 f : Nat}

theorem getTable_present {p i q : Nat} (hp : p < 2^64) (h : next (entry s.mem p i) = some q) :
    getTable (add64 p virtBase) i s = (add64 (entry s.mem p i) virtBase, s) := by
  have hread : load64 s.mem (direct (add64 p virtBase) + 8*i) = entry s.mem p i := by
    rw [direct_add64 p hp, entry]
  have hodd := odd_of_next h
  unfold getTable
  dsimp only
  rw [hread, if_pos (by omega)]

/-- The way of an address that is mapped. -/
structure Leads (s : Kernel) (va p1 p2 p3 f : Nat) : Prop where
  pdp : next (entry s.mem s.root (slotOf va 0)) = some p1
  pd : next (entry s.mem p1 (slotOf va 1)) = some p2
  pt : next (entry s.mem p2 (slotOf va 2)) = some p3
  leaf : next (entry s.mem p3 (slotOf va 3)) = some f

theorem exists_leads (h : s.frameOf va ≠ none) : ∃ p1 p2 p3 f, Leads s va p1 p2 p3 f := by
  obtain ⟨f, hf⟩ := Option.ne_none_iff_exists'.mp h
  have hpath : pathOf va = [slotOf va 0, slotOf va 1, slotOf va 2, slotOf va 3] := rfl
  rw [frameOf_eq_tableAt, tableAt, hpath] at hf
  simp only [RadixTable.table_cons, RadixTable.table_nil, Option.bind_eq_some_iff] at hf
  obtain ⟨p1, h1, p2, h2, p3, h3, q, h4, -⟩ := hf
  exact ⟨p1, p2, p3, q, h1, h2, h3, h4⟩

theorem findTables_leads (hpml : s.pml4Shared = add64 s.root virtBase)
    (h : Leads s va p1 p2 p3 f) :
    findTables va s = (⟨add64 p1 virtBase, add64 p2 virtBase, add64 p3 virtBase⟩, s) := by
  have hroot : s.root < 2^64 := by
    rw [Kernel.root, direct, sub64]
    exact Nat.mod_lt _ (by norm_num)
  have hp1 := lt_of_next (entry_lt _ _ _) h.pdp
  have hp2 := lt_of_next (entry_lt _ _ _) h.pd
  have e1 : getTable s.pml4Shared (getPml4Offset va) s =
      (add64 (entry s.mem s.root (slotOf va 0)) virtBase, s) := by
    rw [hpml]
    exact getTable_present hroot h.pdp
  have e2 : getTable (add64 p1 virtBase) (getPdpOffset va) s =
      (add64 (entry s.mem p1 (slotOf va 1)) virtBase, s) := getTable_present hp1 h.pd
  have e3 : getTable (add64 p2 virtBase) (getPdOffset va) s =
      (add64 (entry s.mem p2 (slotOf va 2)) virtBase, s) := getTable_present hp2 h.pt
  unfold findTables getPdp getPd getPt
  dsimp only
  rw [e1, roundDown_entry, pageOf_of_next h.pdp, e2, roundDown_entry, pageOf_of_next h.pd, e3,
    roundDown_entry, pageOf_of_next h.pt]

end Present

section SetKernelPageUser

variable {s : Kernel} {addr p1 p2 p3 f : Nat}

theorem pathOf_pageOf (va : Nat) : pathOf (pageOf va) = pathOf va := by
  apply pathOf_congr
  rw [pageOf_eq, Nat.mul_div_cancel _ (by norm_num)]

/-- The four entries are written again with what they name, but for the first, which gets the
PML4. -/
theorem setKernelPageUser_mem (hw : WellFormed s) (h : Leads s addr p1 p2 p3 f) :
    (setKernelPageUser addr s).mem =
      setUserEntry (setUserEntry (setUserEntry (setEntry s.mem (p3 + 8*slotOf addr 3)
        (entry s.mem p3 (slotOf addr 3)) usrPermBits) (p2 + 8*slotOf addr 2) p3)
        (p1 + 8*slotOf addr 1) p2) (s.root + 8*slotOf addr 0) s.root := by
  have hslot (k : Nat) : slotOf (pageOf addr) k = slotOf addr k := by
    rw [slotOf, pathOf_pageOf, slotOf]
  have h' : Leads s (pageOf addr) p1 p2 p3 f := by
    constructor <;> rw [hslot]
    · exact h.pdp
    · exact h.pd
    · exact h.pt
    · exact h.leaf
  have hd1 := direct_add64 p1 (lt_of_next (entry_lt _ _ _) h.pdp)
  have hd2 := direct_add64 p2 (lt_of_next (entry_lt _ _ _) h.pd)
  have hd3 := direct_add64 p3 (lt_of_next (entry_lt _ _ _) h.pt)
  have hb2 : sub64 (add64 p2 virtBase) virtBase = p2 := hd2
  have hb3 : sub64 (add64 p3 virtBase) virtBase = p3 := hd3
  have hb : sub64 s.pml4Shared virtBase = s.root := rfl
  have hoff : getPml4Offset (pageOf addr) = slotOf addr 0 ∧
      getPdpOffset (pageOf addr) = slotOf addr 1 ∧ getPdOffset (pageOf addr) = slotOf addr 2 ∧
      getPtOffset (pageOf addr) = slotOf addr 3 := ⟨hslot 0, hslot 1, hslot 2, hslot 3⟩
  rw [setKernelPageUser, tlbFlush, findTables_leads hw.pml4 h']
  dsimp only
  rw [hw.base, hd1, hd2, hd3, hb2, hb3, hb, hoff.1, hoff.2.1, hoff.2.2.1, hoff.2.2.2, entry]
  rfl

theorem setKernelPageUser_root (addr : Nat) (s : Kernel) :
    (setKernelPageUser addr s).root = s.root := by
  rw [Kernel.root, setKernelPageUser, tlbFlush]
  dsimp only
  rw [findTables_pml4Shared, Kernel.root]

/-- Where the slots lead after the call: the one of the PML4 to the PML4 itself. -/
theorem setKernelPageUser_links (hw : WellFormed s) (h : Leads s addr p1 p2 p3 f) :
    next (entry (setKernelPageUser addr s).mem s.root (slotOf addr 0)) = some s.root ∧
    ∀ p i, p % 4096 = 0 → i < 512 → ¬(p = s.root ∧ i = slotOf addr 0) →
      next (entry (setKernelPageUser addr s).mem p i) = next (entry s.mem p i) := by
  have hroot : s.root < 2^64 := by
    rw [Kernel.root, direct, sub64]
    exact Nat.mod_lt _ (by norm_num)
  have hal1 := next_aligned h.pdp
  have hal2 := next_aligned h.pd
  have hal3 := next_aligned h.pt
  have hs0 := slotOf_lt addr (k := 0) (by omega)
  have hs1 := slotOf_lt addr (k := 1) (by omega)
  have hs2 := slotOf_lt addr (k := 2) (by omega)
  have hs3 := slotOf_lt addr (k := 3) (by omega)
  rw [setKernelPageUser_mem hw h]
  have hm1 := sameLinks_setEntry hal3 hs3 h.leaf
  have hm2 := hm1.trans (sameLinks_setUserEntry hal2 hs2 ((hm1 _ _ hal2 hs2).trans h.pt))
  have hm3 := hm2.trans (sameLinks_setUserEntry hal1 hs1 ((hm2 _ _ hal1 hs1).trans h.pd))
  refine ⟨next_setUserEntry _ _ _ hw.aligned hroot, ?_⟩
  intro p i hp hi hne
  rw [entry_setUserEntry_ne _ _ hp hw.aligned hi hs0 hne]
  exact hm3 p i hp hi

/-- Every address leads where its indices lead from the PML4 once the leading 511s are dropped. -/
theorem setKernelPageUser_frameOf (hw : WellFormed s) (htop : slotOf addr 0 = 511)
    (hmapped : s.frameOf addr ≠ none) (x : Nat) :
    (setKernelPageUser addr s).frameOf x = tableAt s ((pathOf x).dropWhile (· = 511)) := by
  obtain ⟨p1, p2, p3, f, h⟩ := exists_leads hmapped
  obtain ⟨hself, hothers⟩ := setKernelPageUser_links hw h
  rw [htop] at hself hothers
  rw [frameOf_eq_tableAt, tableAt, setKernelPageUser_root]
  refine RadixTable.table_loop next _ _ _ (I := (· < 512)) (n := 4) hself ?_ _ (pathOf_lt x)
    (le_refl 4)
  intro ρ i p hI hlen hne hp
  have hρ : Short ρ := ⟨by omega, fun j hj => hI j (List.mem_append_left _ hj)⟩
  refine hothers p i (tableAt_aligned hw.aligned hp) (hI i (by simp)) ?_
  intro he
  -- no other path leads to the PML4
  exact hne (hw.tree [] ρ p (by simp) userPath_nil hρ (congrArg some he.1.symm) hp).symm he.2

end SetKernelPageUser

/-- Every address leads where its indices lead once the leading 511s are dropped: the first 511
goes round to the PML4. -/
def Looped (s : Kernel) : Prop :=
  ∀ x, Canonical x → s.frameOf x = tableAt s ((pathOf x).dropWhile (· = 511))

/-- The page at the very end of the address space, whose indices are all 511. -/
def lastPage : Nat := 0xFFFFFFFFFFFFF000

theorem pathOf_lastPage : pathOf lastPage = [511, 511, 511, 511] := by
  simp [pathOf, lastPage, getPml4Offset_eq, getPdpOffset_eq, getPdOffset_eq, getPtOffset_eq]

/-- A looped PML4 maps the last page, to itself. -/
theorem Looped.lastPage_mapped {s : Kernel} (h : Looped s) : s.frameOf lastPage = some s.root := by
  have hlast : Canonical lastPage := Or.inr (by decide)
  rw [h lastPage hlast, pathOf_lastPage]
  rfl

section Boot

variable {pf : Nat}

theorem booted_lookup (m : Mem) (va : Nat) (hp : pf % 4096 = 0) (hf : pf < 2^52) :
    (booted m pf).lookup va =
      RadixTable.walk next (afterBoot m pf) (pool pf + 4096*0) (pathOf va) := by
  have h := booted_walk m pf va hp hf
  rw [(booted_spec m pf hp hf).cr3] at h
  rw [Kernel.lookup, booted_root m hp hf, h]

theorem booted_frameOf_window (m : Mem) {x : Nat} (hp : pf % 4096 = 0) (hf : pf < 2^52)
    (hx : x < 49*0x200000) : (booted m pf).frameOf (virtBase + x) = some (x/4096*4096) := by
  rw [Kernel.frameOf, booted_lookup m _ hp hf, (afterBoot_kernelMap m pf).walk_window (pool_aligned hp) hx]
  simp only [Option.map_some, List.getLastD_cons, List.getLastD_nil, pageOf_eq, Option.some.injEq]
  omega

theorem booted_frameOf_lastPage (hp : pf % 4096 = 0) (hlo : 4096 ≤ pf) (hf : pf < 2^52) :
    (booted (fun _ => 0) pf).frameOf lastPage = none := by
  have hend : Leftover 1 511 := Or.inr (Or.inl ⟨rfl, by decide⟩)
  have hdead := (walk_leftover_iff _ pf 1 511).mpr (deadEnd_zero pf 1 511 hlo hend)
  rw [Kernel.frameOf, booted_lookup _ _ hp hf, pathOf_lastPage, walk_pml4 _ pf _ (pool_aligned hp),
    hdead [511, 511] rfl (by decide)]
  rfl

theorem booted_tableAt_none (hp : pf % 4096 = 0) (hlo : 4096 ≤ pf) (hf : pf < 2^52) {i : Nat}
    (hi : i < 511) (ρ : List Nat) : tableAt (booted (fun _ => 0) pf) (i::ρ) = none := by
  rw [tableAt, booted_root _ hp hf, RadixTable.table_cons]
  cases hn : next (entry (booted (fun _ => 0) pf).mem (pool pf) i) with
  | none => rfl
  | some q =>
    have h := (booted_next hp hlo hf (by omega)).1 hn
    omega

end Boot

/-- set_kernel_page_user moves translations unless the tables already looped; with the last page
unmapped, as it is in the kernel's map, they did not. -/
theorem setKernelPageUser_sameTranslation_iff (s : Kernel) (addr : Nat) (hw : WellFormed s)
    (hkernel : virtBase < addr) (hlt : addr < 2^64) (hmapped : s.frameOf addr ≠ none) :
    (SameTranslation s (setKernelPageUser addr s) ↔ Looped s) ∧
    (s.frameOf lastPage = none → ¬SameTranslation s (setKernelPageUser addr s)) := by
  have hframe := setKernelPageUser_frameOf hw (slotOf_kernel hkernel.le hlt) hmapped
  have hiff : SameTranslation s (setKernelPageUser addr s) ↔ Looped s := by
    constructor
    · intro h x hx
      rw [← hframe x, h x hx]
    · intro h x hx
      rw [hframe x, h x hx]
  refine ⟨hiff, ?_⟩
  intro hnone h
  rw [(hiff.mp h).lastPage_mapped] at hnone
  cases hnone

theorem setKernelPageUser_sameTranslation_iff_booted :
    (booted (fun _ => 0) 0x300000).frameOf (virtBase + 0x200000) ≠ none ∧
    ¬SameTranslation (booted (fun _ => 0) 0x300000)
      (setKernelPageUser (virtBase + 0x200000) (booted (fun _ => 0) 0x300000)) := by
  have hw := zeroBoot_wellFormed
  have hmapped : (booted (fun _ => 0) 0x300000).frameOf (virtBase + 0x200000) ≠ none := by
    rw [booted_frameOf_window _ (by norm_num) (by norm_num) (by norm_num)]
    simp
  have hlast : (booted (fun _ => 0) 0x300000).frameOf lastPage = none :=
    booted_frameOf_lastPage (by norm_num) (by norm_num) (by norm_num)
  have hlt : virtBase + 0x200000 < 2^64 := by
    rw [virtBase]
    norm_num
  have h := setKernelPageUser_sameTranslation_iff _ _ hw (Nat.lt_add_of_pos_right (by norm_num)) hlt
    hmapped
  exact ⟨hmapped, h.2 hlast⟩

/-- The page that was to be opened to the user is gone. -/
theorem setKernelPageUser_unmaps :
    (booted (fun _ => 0) 0x300000).frameOf (virtBase + 0x200000) = some 0x200000 ∧
    (setKernelPageUser (virtBase + 0x200000) (booted (fun _ => 0) 0x300000)).frameOf
      (virtBase + 0x200000) = none := by
  have hw := zeroBoot_wellFormed
  have hmapped : (booted (fun _ => 0) 0x300000).frameOf (virtBase + 0x200000) = some 0x200000 :=
    booted_frameOf_window _ (by norm_num) (by norm_num) (by norm_num)
  refine ⟨hmapped, ?_⟩
  have htop : slotOf (virtBase + 0x200000) 0 = 511 :=
    slotOf_kernel (Nat.le_add_right _ _) (by rw [virtBase]; norm_num)
  rw [setKernelPageUser_frameOf hw htop (by rw [hmapped]; simp), pathOf_window _ (by norm_num),
    List.dropWhile_cons_of_pos (by simp), List.dropWhile_cons_of_neg (by simp)]
  exact booted_tableAt_none (by norm_num) (by norm_num) (by norm_num) (by norm_num) _

end SBUnix
