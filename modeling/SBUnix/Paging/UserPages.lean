import SBUnix.Paging.BootWalk
import SBUnix.Paging.MapPage

namespace SBUnix

open ByteMemory Word

/-- The frame an address leads to. -/
def Kernel.frameOf (s : Kernel) (va : Nat) : Option Nat :=
  (s.lookup va).map fun es => pageOf (es.getLastD 0)

theorem pageOf_of_next {e q : Nat} (h : next e = some q) : pageOf e = q := by
  rw [next] at h
  split_ifs at h
  exact Option.some.inj h

theorem frameOf_eq_tableAt (s : Kernel) (va : Nat) : s.frameOf va = tableAt s (pathOf va) := by
  rw [Kernel.frameOf, Kernel.lookup, walk, tableAt, pathOf]
  exact RadixTable.walk_map_last next (entry s.mem) s.root pageOf (fun _ _ => pageOf_of_next) 0 _ _

theorem roundDown_page_eq (a : Nat) : roundDown a pageSize = a/4096*4096 := roundDown_eq a 4096

section Paths

variable {x y : Nat}

theorem pathOf_congr (h : x / 4096 = y / 4096) : pathOf x = pathOf y := by
  simp only [pathOf, getPml4Offset_eq, getPdpOffset_eq, getPdOffset_eq, getPtOffset_eq,
    List.cons.injEq, and_true]
  omega

theorem pathOf_roundDown (va : Nat) : pathOf (roundDown va pageSize) = pathOf va := by
  apply pathOf_congr
  rw [roundDown_page_eq, Nat.mul_div_cancel _ (by norm_num)]

theorem pathOf_take_three (h : x / 2^21 = y / 2^21) : (pathOf x).take 3 = (pathOf y).take 3 := by
  have h30 (x : Nat) : x / 2^30 = x / 2^21 / 2^9 := by
    rw [Nat.div_div_eq_div_mul, ← Nat.pow_add]
  have h39 (x : Nat) : x / 2^39 = x / 2^21 / 2^18 := by
    rw [Nat.div_div_eq_div_mul, ← Nat.pow_add]
  simp only [pathOf, List.take_succ_cons, List.take_zero, getPml4Offset_eq, getPdpOffset_eq,
    getPdOffset_eq, h30, h39, h]

theorem pathOf_take_two (h : x / 2^30 = y / 2^30) : (pathOf x).take 2 = (pathOf y).take 2 := by
  have h39 (x : Nat) : x / 2^39 = x / 2^30 / 2^9 := by
    rw [Nat.div_div_eq_div_mul, ← Nat.pow_add]
  simp only [pathOf, List.take_succ_cons, List.take_zero, getPml4Offset_eq, getPdpOffset_eq, h39, h]

theorem pathOf_take_one (h : x / 2^39 = y / 2^39) : (pathOf x).take 1 = (pathOf y).take 1 := by
  simp only [pathOf, List.take_succ_cons, List.take_zero, getPml4Offset_eq, h]

end Paths

theorem slotOf_kernel {va : Nat} (hlo : virtBase ≤ va) (hhi : va < 2^64) : slotOf va 0 = 511 := by
  rw [virtBase] at hlo
  simp only [slotOf, pathOf, List.getD_cons_zero, getPml4Offset_eq]
  omega

/-- Two canonical addresses with the same indices are in the same page. -/
theorem page_eq_of_pathOf {va addr : Nat} (hc : Canonical va) (ha : addr < 2^47)
    (h : pathOf va = pathOf addr) : va / 4096 = addr / 4096 := by
  simp only [pathOf, getPml4Offset_eq, getPdpOffset_eq, getPdOffset_eq, getPtOffset_eq,
    List.cons.injEq, and_true] at h
  rw [Canonical] at hc
  omega

theorem lookup_length {s : Kernel} {va : Nat} {es : List Nat} (h : s.lookup va = some es) :
    es.length = 4 := RadixTable.walk_length next (entry s.mem) s.root (pathOf va) es h

/-- What memmap has done for a page that was not present. -/
structure MapsPage (s t : Kernel) (addr prot : Nat) : Prop where
  loaded : t.cr3 = t.root ∧ t.root = s.root
  frame : t.frameOf addr = some s.usrPhysAddr
  bits : (t.lookup addr).map (List.map (· % 4096)) = some [prot, prot, prot, prot]
  others : ∀ va, Canonical va → va / 4096 ≠ addr / 4096 → t.frameOf va = s.frameOf va
  kernelWalk : ∀ va, Canonical va → 2^47 ≤ va → t.lookup va = s.lookup va
  kernelHalf : ∀ ρ p i, Short ρ → i < 512 → 256 ≤ (ρ++[i]).headD 0 → tableAt s ρ = some p →
    tableAt t ρ = some p ∧ entry t.mem p i = entry s.mem p i
  wellFormed : WellFormed t

theorem mod_of_aligned {a p : Nat} (ha : a % 4096 = 0) (hp : p < 4096) : (a+p) % 4096 = p := by
  omega

section Effect

variable {s t : Kernel} {virt frame perm n : Nat} {page : Nat → Nat}

variable (hm : Installed s t virt frame perm n page)
include hm

theorem Installed.link_aligned {k : Nat} (hk : k < 4) : link page frame k % 4096 = 0 := by
  unfold link
  split_ifs
  · exact hm.frameAligned
  · exact hm.aligned (by omega)

theorem Installed.frameOf_self {va : Nat} (hva : pathOf va = pathOf virt) :
    t.frameOf va = some frame := by
  rw [Kernel.frameOf, hm.lookup_self hva, Option.map_some]
  simp only [List.range_succ, List.range_zero, List.nil_append, List.map_append, List.map_cons,
    List.map_nil, List.getLastD_concat, link, if_true, pageOf_eq]
  have hf := hm.frameAligned
  have hperm := hm.small
  congr 1
  omega

theorem Installed.frameOf_other {va : Nat} (hva : pathOf va ≠ pathOf virt) :
    t.frameOf va = s.frameOf va := by
  obtain ⟨hj, hl⟩ := hm.lookup_other hva
  generalize RadixTable.common (pathOf va) (pathOf virt) = j at hj hl
  rw [Kernel.frameOf, hl, Kernel.frameOf, Option.map_map]
  cases hs : s.lookup va with
  | none => rfl
  | some es =>
    have hlen := lookup_length hs
    have hne : es.drop j ≠ [] := by
      intro h
      have := congrArg List.length h
      rw [List.length_drop, List.length_nil] at this
      omega
    have hlast : (es.drop j).getLast? = es.getLast? := by
      rw [List.getLast?_drop, if_neg (by omega)]
    simp only [Option.map_some, Function.comp_apply, List.getLastD_eq_getLast?,
      List.getLast?_append_of_ne_nil _ hne, hlast]

theorem Installed.bits {va : Nat} (hva : pathOf va = pathOf virt) :
    (t.lookup va).map (List.map (· % 4096)) = some [perm, perm, perm, perm] := by
  have hmod (k : Nat) (hk : k < 4) : (link page frame k + perm) % 4096 = perm :=
    mod_of_aligned (hm.link_aligned hk) hm.small
  rw [hm.lookup_self hva, Option.map_some, List.map_map]
  simp [List.range_succ, hmod]

/-- An address whose first index differs meets none of the new entries. -/
theorem Installed.lookup_of_top {va : Nat} (hva : slotOf va 0 ≠ slotOf virt 0) :
    t.lookup va = s.lookup va := by
  have hne : pathOf va ≠ pathOf virt := by
    intro h
    exact hva (by rw [slotOf, slotOf, h])
  have hzero : RadixTable.common (pathOf va) (pathOf virt) = 0 := by
    simp only [slotOf, pathOf, List.getD_cons_zero] at hva
    simp [RadixTable.common, pathOf, hva]
  have hl := (hm.lookup_other hne).2
  rw [hzero] at hl
  simpa using hl

theorem Installed.kernelHalf {ρ : List Nat} {p i : Nat} (hρ : Short ρ) (hi : i < 512)
    (hk : 256 ≤ (ρ++[i]).headD 0) (hp : tableAt s ρ = some p) :
    tableAt t ρ = some p ∧ entry t.mem p i = entry s.mem p i := by
  have htop : slotOf virt 0 < 256 := hm.user.2 _ (by simp [slotOf, pathOf])
  cases ρ with
  | nil =>
    rw [tableAt_nil] at hp ⊢
    have hroot : s.root = p := Option.some.inj hp
    subst hroot
    refine ⟨by rw [hm.root_eq], hm.entry_kept hρ rfl hi ?_⟩
    intro k hk4 he
    have h0 : k = 0 := hm.inj k 0 hk4 (by omega) (by rw [← he, hm.root])
    subst h0
    simp only [List.nil_append, List.headD_cons] at hk
    omega
  | cons a ρ =>
    simp only [List.cons_append, List.headD_cons] at hk
    -- the first index tells it apart from every table on the path
    have hne (k : Nat) (h : a::ρ = (pathOf virt).take k) : False := by
      cases k with
      | zero => simp at h
      | succ k =>
        have := congrArg (fun l => l.getD 0 0) h
        simp only [pathOf, List.take_succ_cons, List.getD_cons_zero] at this
        simp only [slotOf, pathOf, List.getD_cons_zero] at htop
        omega
    refine ⟨?_, hm.entry_kept hρ hp hi ?_⟩
    · rw [hm.tableAt_off hρ fun h => hne _ (List.prefix_iff_eq_take.mp h), hp]
    · intro k hk4 he
      subst he
      exact (hne k (hm.apart hk4 hρ hp)).elim

end Effect

theorem prot_cases {prot : Nat} (hp : prot = cowPermBits ∨ prot = usrPermBits) :
    prot % 2 = 1 ∧ prot < 4096 := by
  obtain rfl | rfl := hp
  · decide
  · decide

theorem memmap_snd (addr length prot : Nat) (flag : MapFlag) (s : Kernel) :
    (memmap addr length prot flag s).2 =
      tlbFlush (sub64 (mapPagesFor addr (pageCount length) prot flag s).2.pml4Shared virtBase)
        (mapPagesFor addr (pageCount length) prot flag s).2 := by
  rw [memmap]

/-- The state in which the address to map has been made up. -/
def Kernel.setCursor (s : Kernel) (a p : Nat) : Kernel := { s with userAddr := a, pmlSameCtxt := p }

theorem setCursor_tablesKept {s : Kernel} (hw : WellFormed s) (a p : Nat) :
    TablesKept s (s.setCursor a p) where
  mem _ _ _ := rfl
  pml4 := rfl
  base := rfl
  freelist := rfl
  usrPhysAddr := rfl
  cursor := ⟨le_refl s.cursor, hw.cursor⟩
  pages _ hp := hp

theorem PagesLeft.setCursor {s : Kernel} (hr : PagesLeft s) (a p : Nat) :
    PagesLeft (s.setCursor a p) := ⟨hr.slots, hr.top⟩

theorem Mapped.of_setCursor {s t : Kernel} {a p virt frame perm n : Nat} {page : Nat → Nat}
    (hm : Mapped (s.setCursor a p) t virt frame perm n page) : Mapped s t virt frame perm n page :=
  ⟨hm.root, hm.le, hm.pml4, hm.base, hm.freelist, hm.usrPhysAddr, hm.cursor, hm.counter, hm.pages,
    hm.depth, hm.inj, hm.few, hm.written, hm.kept, hm.fresh⟩

section OnePage

variable {s : Kernel} (hw : WellFormed s) (hr : PagesLeft s) {addr prot : Nat} {flag : MapFlag}
  {page : Nat → Nat} {la perm a p : Nat}
  (he : mapPagesFor addr 1 prot flag s = mapUser page la perm 1 (s.setCursor a p))
include hw hr he

/-- A call of memmap for one page, by whichever flag: the tables are looked up for `la`, and
`page la` is mapped. -/
theorem memmap_mapped (hpass : Passable s (pathOf la))
    (hpath : (pathOf (page la)).take 3 = (pathOf la).take 3) (hperm : perm < 4096) :
    ∃ n tables, Mapped s (memmap addr pageSize prot flag s).2 (page la) s.usrPhysAddr perm n
      tables := by
  have hw' := (setCursor_tablesKept hw a p).wellFormed hw
  have hpass' : Passable (s.setCursor a p) (pathOf la) := ⟨hpass.slots, hpass.upper, hpass.tree⟩
  obtain ⟨n, tables, hm⟩ := mapUser_mapped hw' (hr.setCursor a p) page hpass' hpath hperm
  refine ⟨n, tables, ?_⟩
  rw [memmap_snd, pageCount_one, he]
  exact hm.of_setCursor.tlbFlush _

theorem memmap_installed (hla : la < 2^47) (hpath : (pathOf (page la)).take 3 = (pathOf la).take 3)
    (h1 : perm % 2 = 1) (hperm : perm < 4096) :
    ∃ n tables, Installed s (memmap addr pageSize prot flag s).2 (page la) s.usrPhysAddr perm n
      tables := by
  have hu := userPath_pathOf hla
  obtain ⟨n, tables, hm⟩ := memmap_mapped hw hr he (hw.passable hu) hpath hperm
  have hle := hm.le
  have hslots := hr.slots
  exact ⟨n, tables, hm, hw, by omega, userPath_of_take hu hpath, hw.frame.1, h1, hperm⟩

end OnePage

theorem accessed_eq (addr prot : Nat) (s : Kernel) :
    mapPagesFor addr 1 prot .accessedNotPresent s = mapUser (roundDown · pageSize) addr prot 1
      (s.setCursor s.userAddr s.pmlSameCtxt) := by
  rw [mapPagesFor, Kernel.setCursor]

theorem setCowRw_eq (addr prot : Nat) (s : Kernel) :
    ∃ a, mapPagesFor addr 1 prot .setCowRw s = mapUser (roundDown · pageSize) s.userAddr prot 1
      (s.setCursor a s.pmlSameCtxt) := by
  refine ⟨nextUserAddr (add64 s.physbase s.virtBaseForUser) s.userAddr, ?_⟩
  simp only [mapPagesFor, getUserVirtAddr, Bool.false_eq_true, if_false, Kernel.setCursor]

theorem growsDown_eq (addr prot : Nat) (s : Kernel) :
    ∃ a, mapPagesFor addr 1 prot .growsDown s = mapUser (sub64 · pageSize) s.userAddr usrPermBits 1
      (s.setCursor a s.pmlSameCtxt) := by
  refine ⟨nextUserAddr (add64 s.physbase s.virtBaseForUser) s.userAddr, ?_⟩
  simp only [mapPagesFor, getUserVirtAddr, Bool.false_eq_true, if_false, Kernel.setCursor]

theorem newPage_eq (addr prot : Nat) (s : Kernel) :
    ∃ a p, mapPagesFor addr 1 prot .newPage s = mapUser id s.vaCursor.newPage usrPermBits 1
      (s.setCursor a p) := by
  by_cases h : s.difCtxt = 0
  · refine ⟨nextUserAddr (add64 s.physbase s.virtBaseForUser) s.userAddr, nextPml s.pmlSameCtxt, ?_⟩
    simp only [mapPagesFor, getUserVirtAddr, incrementPml, Bool.false_eq_true, if_false, h, if_true,
      Kernel.setCursor, VaCursor.newPage, VaCursor.bump, Kernel.vaCursor]
  · refine ⟨nextUserAddr (add64 s.physbase s.virtBaseForUser) s.userAddr, s.pmlSameCtxt, ?_⟩
    simp only [mapPagesFor, getUserVirtAddr, Bool.false_eq_true, if_false, h,
      Kernel.setCursor, VaCursor.newPage, Kernel.vaCursor]

theorem accessed_installed {s : Kernel} (hw : WellFormed s) (hr : PagesLeft s) (addr prot : Nat)
    (ha : addr < 2^47) (h1 : prot % 2 = 1) (hprot : prot < 4096) :
    ∃ n page, Installed s (memmap addr pageSize prot .accessedNotPresent s).2
      (roundDown addr pageSize) s.usrPhysAddr prot n page := by
  have h := memmap_installed hw hr (accessed_eq addr prot s) ha (by rw [pathOf_roundDown]) h1 hprot
  exact h

theorem tlbFlush_root (t : Kernel) :
    (tlbFlush (sub64 t.pml4Shared virtBase) t).cr3 =
      (tlbFlush (sub64 t.pml4Shared virtBase) t).root := by
  rw [Kernel.root, tlbFlush, direct]

theorem memmap_cr3 (addr length prot : Nat) (flag : MapFlag) (s : Kernel) :
    (memmap addr length prot flag s).2.cr3 = (memmap addr length prot flag s).2.root := by
  rw [memmap_snd, tlbFlush_root]

theorem memmap_mapsPage {s : Kernel} (hw : WellFormed s) (hr : PagesLeft s) {addr prot : Nat}
    (ha : addr < 2^47) (hp : prot = cowPermBits ∨ prot = usrPermBits) :
    MapsPage s (memmap addr pageSize prot .accessedNotPresent s).2 addr prot := by
  obtain ⟨h1, hprot⟩ := prot_cases hp
  obtain ⟨n, page, hm⟩ := accessed_installed hw hr addr prot ha h1 hprot
  have hpath := pathOf_roundDown addr
  constructor
  case loaded => exact ⟨memmap_cr3 _ _ _ _ _, hm.root_eq⟩
  case frame => exact hm.frameOf_self hpath.symm
  case bits => exact hm.bits hpath.symm
  case others =>
    intro va hc hne
    refine hm.frameOf_other ?_
    rw [hpath]
    exact fun h => hne (page_eq_of_pathOf hc ha h)
  case kernelWalk =>
    intro va hc hk
    refine hm.lookup_of_top ?_
    rw [slotOf, slotOf, hpath]
    simp only [pathOf, List.getD_cons_zero, getPml4Offset_eq]
    rw [Canonical] at hc
    omega
  case kernelHalf =>
    intro ρ p i hρ hi hk h
    exact hm.kernelHalf hρ hi hk h
  case wellFormed => exact hm.wellFormed

section Boot

variable {pf : Nat}

/-- On zeroed RAM the tables boot leaves behind are its own pages and, by way of the PDP's first
slot, page 0. -/
theorem booted_next (hp : pf % 4096 = 0) (hlo : 4096 ≤ pf) (hf : pf < 2^52) {i q : Nat}
    (hi : i < 512) :
    (next (entry (booted (fun _ => 0) pf).mem (pool pf) i) = some q →
      i = 511 ∧ q = pool pf + 4096*1) ∧
    (next (entry (booted (fun _ => 0) pf).mem (pool pf + 4096*1) i) = some q →
      q = pool pf + 4096*2 ∨ q = 0) ∧
    (next (entry (booted (fun _ => 0) pf).mem (pool pf + 4096*2) i) = some q →
      ∃ k, 1 ≤ k ∧ k < 52 ∧ q = pool pf + 4096*k) ∧
    next (entry (booted (fun _ => 0) pf).mem 0 i) = none := by
  have hb := booted_spec (fun _ => 0) pf hp hf
  have hal := pool_aligned hp
  have hent (k : Nat) : entry (booted (fun _ => 0) pf).mem (pool pf + 4096*k) i =
      image pf (gridOf (fun _ => 0) pf) k i := by
    rw [hb.entry_eq hal _ i (by omega) hi, afterBoot_pool]
  have hstep (k : Nat) : next (pool pf + 4096*k + 3) = some (pool pf + 4096*k) :=
    next_add _ 3 (by omega) (by norm_num) rfl
  refine ⟨?_, ?_, ?_, ?_⟩
  · intro h
    have h0 := hent 0
    rw [Nat.mul_zero, Nat.add_zero] at h0
    by_cases h511 : i = 511
    · rw [h0, h511, show image pf (gridOf (fun _ => 0) pf) 0 511 = pool pf + 4096*1 + 3 from rfl,
        hstep 1] at h
      exact ⟨h511, (Option.some.inj h).symm⟩
    · have hz : image pf (gridOf (fun _ => 0) pf) 0 i = 0 := by
        by_cases h49 : i < 49
        · simp [image, h511, h49]
        · exact leftover_zero pf 0 i (Or.inl ⟨rfl, by omega, by omega⟩) (by omega)
      rw [h0, hz, next_of_even 0 rfl] at h
      cases h
  · intro h
    rw [hent 1] at h
    by_cases h510 : i = 510
    · rw [h510, show image pf (gridOf (fun _ => 0) pf) 1 510 = pool pf + 4096*2 + 3 from rfl,
        hstep 2] at h
      exact Or.inl (Option.some.inj h).symm
    · by_cases h1 : i = 1
      · rw [h1, show image pf (gridOf (fun _ => 0) pf) 1 1 = pool pf + 4096*2 from rfl,
          next_of_even _ (by omega)] at h
        cases h
      · by_cases h0 : i = 0
        · have hone : image pf (gridOf (fun _ => 0) pf) 1 0 = 0 + 1 := by simp [image, gridOf_zero]
          rw [h0, hone, next_add 0 1 rfl (by norm_num) rfl] at h
          exact Or.inr (Option.some.inj h).symm
        · rw [leftover_zero pf 1 i (Or.inr (Or.inl ⟨rfl, h1, h510, hi⟩)) (by omega),
            next_of_even 0 rfl] at h
          cases h
  · intro h
    rw [hent 2] at h
    by_cases h49 : i < 49
    · rw [image_pd pf _ i h49, hstep] at h
      refine ⟨tablePage i, ?_, ?_, (Option.some.inj h).symm⟩
      · unfold tablePage
        split_ifs <;> omega
      · unfold tablePage
        split_ifs <;> omega
    · rw [leftover_zero pf 2 i (Or.inr (Or.inr ⟨rfl, by omega, hi⟩)) (by omega),
        next_of_even 0 rfl] at h
      cases h
  · rw [hb.entry_eq hal 0 i rfl hi, afterBoot, if_pos (by unfold pool; omega), belowOf,
      if_neg (by omega)]
    exact next_of_even _ (by rw [load64, load_zero _ _ _ fun _ _ _ => rfl])

theorem booted_root (m : Mem) (hp : pf % 4096 = 0) (hf : pf < 2^52) :
    (booted m pf).root = pool pf := by
  rw [Kernel.root, (booted_spec m pf hp hf).pml4Shared]
  exact direct_add64 _ (by unfold pool; omega)

/-- The tables behind a PML4 of which only the last slot leads on, to a PDP that leads to a PD
and to a page of dead ends. -/
theorem table_window {read : Nat → Nat → Nat} {b p : Nat}
    (h0 : ∀ i q, i < 512 → next (read b i) = some q → i = 511 ∧ q = b + 4096*1)
    (h1 : ∀ i q, i < 512 → next (read (b + 4096*1) i) = some q → q = b + 4096*2 ∨ q = 0)
    (h2 : ∀ i q, i < 512 → next (read (b + 4096*2) i) = some q →
      ∃ k, 1 ≤ k ∧ k < 52 ∧ q = b + 4096*k)
    (h3 : ∀ i, i < 512 → next (read 0 i) = none) {ρ : List Nat} (hρ : Short ρ)
    (h : RadixTable.table next read b ρ = some p) :
    ρ = [] ∧ p = b ∨
    ρ.head? = some 511 ∧ (p = 0 ∨ ∃ k, 1 ≤ k ∧ k < 52 ∧ p = b + 4096*k) := by
  obtain ⟨hlen, hslots⟩ := hρ
  cases ρ with
  | nil => exact Or.inl ⟨rfl, (Option.some.inj h).symm⟩
  | cons x ρ =>
    right
    rw [RadixTable.table_cons] at h
    obtain ⟨q, hq, h⟩ := Option.bind_eq_some_iff.mp h
    obtain ⟨rfl, rfl⟩ := h0 x q (hslots x (by simp)) hq
    refine ⟨rfl, ?_⟩
    cases ρ with
    | nil => exact Or.inr ⟨1, by omega, by omega, (Option.some.inj h).symm⟩
    | cons y ρ =>
      rw [RadixTable.table_cons] at h
      obtain ⟨r, hr, h⟩ := Option.bind_eq_some_iff.mp h
      have hr := h1 y r (hslots y (by simp)) hr
      cases ρ with
      | nil =>
        have hpr : r = p := Option.some.inj h
        obtain hr | hr := hr
        · exact Or.inr ⟨2, by omega, by omega, hpr.symm.trans hr⟩
        · exact Or.inl (hpr.symm.trans hr)
      | cons z ρ =>
        have hnil : ρ = [] := List.eq_nil_of_length_eq_zero (by simp at hlen; omega)
        subst hnil
        rw [RadixTable.table_cons] at h
        obtain ⟨u, hu, h⟩ := Option.bind_eq_some_iff.mp h
        have hpu : u = p := Option.some.inj h
        have hz : z < 512 := hslots z (by simp)
        obtain rfl | rfl := hr
        · obtain ⟨k, hk1, hk2, rfl⟩ := h2 z u hz hu
          exact Or.inr ⟨k, hk1, hk2, hpu.symm⟩
        · rw [h3 z hz] at hu
          cases hu

theorem booted_tables (hp : pf % 4096 = 0) (hlo : 4096 ≤ pf) (hf : pf < 2^52) {ρ : List Nat}
    {p : Nat} (hρ : Short ρ) (h : tableAt (booted (fun _ => 0) pf) ρ = some p) :
    ρ = [] ∧ p = pool pf ∨
    ρ.head? = some 511 ∧ (p = 0 ∨ ∃ k, 1 ≤ k ∧ k < 52 ∧ p = pool pf + 4096*k) := by
  have hstep (i q : Nat) (hi : i < 512) := booted_next hp hlo hf (q := q) hi
  rw [tableAt, booted_root _ hp hf] at h
  exact table_window (fun i q hi => (hstep i q hi).1) (fun i q hi => (hstep i q hi).2.1)
    (fun i q hi => (hstep i q hi).2.2.1) (fun i hi => (hstep i 0 hi).2.2.2) hρ h

/-- Over any state: with the booted one in its place, comparing fields would run boot. -/
theorem Booted.wellFormed {s : Kernel} (h : Booted (fun _ => 0) pf s) (hp : pf % 4096 = 0)
    (hlo : 4096 ≤ pf) (hf : pf < 2^52) (hroot : s.root = pool pf)
    (htab : ∀ ρ p, Short ρ → tableAt s ρ = some p → ρ = [] ∧ p = pool pf ∨
      ρ.head? = some 511 ∧ (p = 0 ∨ ∃ k, 1 ≤ k ∧ k < 52 ∧ p = pool pf + 4096*k))
    (hzero : ∀ i < 256, entry s.mem (pool pf) i = 0) : WellFormed s := by
  have hcur := booted_cursor h
  have hal := pool_aligned hp
  have hpool : pool pf = pf + 98304 := rfl
  have hlist : direct s.freelist = pf := by
    rw [h.freelist, add64, Nat.add_comm]
    exact direct_add64 pf (by omega)
  -- the user half has no table but the PML4
  have huser (ρ : List Nat) (p : Nat) (hlen : ρ.length ≤ 3) (hu : UserPath ρ)
      (hρ : tableAt s ρ = some p) : ρ = [] ∧ p = pool pf := by
    rcases htab ρ p (hu.short hlen) hρ with h | ⟨h, -⟩
    · exact h
    · exact absurd (hu.2 511 h) (by norm_num)
  have hrange (ρ : List Nat) (p : Nat) (hρ : Short ρ) (h : tableAt s ρ = some p) :
      p = 0 ∨ ∃ k < 52, p = pool pf + 4096*k := by
    rcases htab ρ p hρ h with ⟨-, h⟩ | ⟨-, h | ⟨k, -, hk, h⟩⟩
    · exact Or.inr ⟨0, by omega, by omega⟩
    · exact Or.inl h
    · exact Or.inr ⟨k, hk, h⟩
  constructor
  case base => exact congrArg (·.getD 5 0) h.config
  case pml4 => rw [hroot, h.pml4Shared]
  case aligned => rw [hroot, hal]
  case cursor => omega
  case frame =>
    rw [h.usrPhysAddr]
    norm_num [startPaddrForUsrs]
  case given =>
    intro ρ p hne hlen hu hρ
    exact absurd (huser ρ p hlen hu hρ).1 hne
  case below =>
    intro ρ p hρ h
    rcases hrange ρ p hρ h with h | ⟨k, hk, h⟩
    · omega
    · omega
  case tree =>
    intro ρ σ p hlen hu hσ hρp hσp
    obtain ⟨rfl, rfl⟩ := huser ρ p hlen hu hρp
    rcases htab σ _ hσ hσp with ⟨h, -⟩ | ⟨-, h | ⟨k, hk, -, h⟩⟩
    · exact h.symm
    · omega
    · omega
  case upper =>
    intro ρ p i hlen hu hρ
    obtain ⟨rfl, rfl⟩ := huser ρ p (by omega) (hu.initial (List.prefix_append ρ [i])) hρ
    exact Or.inl (hzero i (hu.2 i (by simp)))
  case freelist =>
    intro ρ p hρ h
    rw [hlist, numberOfPages]
    rcases hrange ρ p hρ h with h | ⟨k, hk, h⟩
    · exact Or.inr (by omega)
    · exact Or.inl (by omega)
  case listBelow =>
    rw [hlist, numberOfPages]
    omega

theorem booted_wellFormed (hp : pf % 4096 = 0) (hlo : 4096 ≤ pf) (hf : pf < 2^52) :
    WellFormed (booted (fun _ => 0) pf) := by
  have hb := booted_spec (fun _ => 0) pf hp hf
  refine hb.wellFormed hp hlo hf (booted_root _ hp hf) (fun _ _ => booted_tables hp hlo hf) ?_
  intro i hi
  have hal := pool_aligned hp
  have he := hb.entry_eq hal (pool pf + 4096*0) i (by omega) (by omega)
  rw [afterBoot_pool, Nat.mul_zero, Nat.add_zero] at he
  rw [he]
  by_cases h49 : i < 49
  · have h511 : ¬i = 511 := by omega
    simp [image, h511, h49]
  · exact leftover_zero pf 0 i (Or.inl ⟨rfl, by omega, by omega⟩) (by omega)

theorem Booted.pagesLeft {m : Mem} {s : Kernel} (h : Booted m pf s)
    (hf : pool pf + 4096*99 + 4096*3 ≤ 49*0x200000) : PagesLeft s := by
  constructor
  case slots =>
    rw [h.counter, numberOfPages]
    norm_num
  case top =>
    rw [booted_cursor h]
    exact hf

/-- An image that ends at 3 MiB, booted over zeros. -/
theorem zeroBoot_wellFormed : WellFormed (booted (fun _ => 0) 0x300000) :=
  booted_wellFormed (by norm_num) (by norm_num) (by norm_num)

theorem zeroBoot_pagesLeft : PagesLeft (booted (fun _ => 0) 0x300000) :=
  (booted_spec _ _ (by norm_num) (by norm_num)).pagesLeft (by norm_num [pool])

theorem zeroBoot_room : (booted (fun _ => 0) 0x300000).counter + 6 ≤ numberOfPages ∧
    (booted (fun _ => 0) 0x300000).cursor + 4096*6 ≤ 49*0x200000 := by
  have hb := booted_spec (fun _ => 0) 0x300000 (by norm_num) (by norm_num)
  constructor
  · rw [hb.counter, numberOfPages]
    norm_num
  · rw [booted_cursor hb]
    norm_num [pool]

end Boot

/-- Room for a call of memmap after another. -/
theorem Mapped.pagesLeft {s t : Kernel} {virt frame perm n : Nat} {page : Nat → Nat}
    (hm : Mapped s t virt frame perm n page) (hs : s.counter + 6 ≤ numberOfPages)
    (htop : s.cursor + 4096*6 ≤ 49*0x200000) : PagesLeft t := by
  have hle := hm.le
  constructor
  case slots =>
    rw [hm.counter]
    omega
  case top =>
    rw [hm.cursor]
    omega

theorem booted_lookup_none {pf va : Nat} (hp : pf % 4096 = 0) (hlo : 4096 ≤ pf) (hf : pf < 2^52)
    (hva : slotOf va 0 ≠ 511) : (booted (fun _ => 0) pf).lookup va = none := by
  rw [Kernel.lookup, walk, booted_root _ hp hf, pathOf]
  apply RadixTable.walk_cons_none
  cases hn : next (entry (booted (fun _ => 0) pf).mem (pool pf) (getPml4Offset va)) with
  | none => rfl
  | some q =>
    have h := (booted_next hp hlo hf (slotOf_lt va (k := 0) (by omega))).1 hn
    exact absurd h.1 hva

/-- Over zeros boot maps nothing in the user half. -/
theorem booted_frameOf_user {pf x : Nat} (hp : pf % 4096 = 0) (hlo : 4096 ≤ pf) (hf : pf < 2^52)
    (hx : x < 2^47) : (booted (fun _ => 0) pf).frameOf x = none := by
  have hslot : slotOf x 0 ≠ 511 := by
    simp only [slotOf, pathOf, List.getD_cons_zero, getPml4Offset_eq]
    omega
  rw [Kernel.frameOf, booted_lookup_none hp hlo hf hslot, Option.map_none]

theorem memmap_mapsPage_first :
    0x300000 % 4096 = 0 ∧
    MapsPage (booted (fun _ => 0) 0x300000)
      (memmap 0x400123 pageSize cowPermBits .accessedNotPresent (booted (fun _ => 0) 0x300000)).2
      0x400123 cowPermBits :=
  ⟨by norm_num, memmap_mapsPage zeroBoot_wellFormed zeroBoot_pagesLeft (by norm_num) (Or.inl rfl)⟩

end SBUnix
