import SBUnix.Paging.Pools

namespace SBUnix

open ByteMemory Word

/-- The physical page of the current PML4. -/
def Kernel.root (s : Kernel) : Nat := direct s.pml4Shared

def tableAt (s : Kernel) (ρ : List Nat) : Option Nat :=
  RadixTable.table next (entry s.mem) s.root ρ

/-- Indices into tables. -/
def Slots (ρ : List Nat) : Prop := ∀ i ∈ ρ, i < 512

/-- A path to a table, not to a page of a process. -/
def Short (ρ : List Nat) : Prop := ρ.length ≤ 3 ∧ Slots ρ

/-- A path into the lower half of the address space. -/
def UserPath (ρ : List Nat) : Prop := Slots ρ ∧ ∀ i ∈ ρ.head?, i < 256

/-- The tables of the user half below pml4_shared form a tree: each is a page that page_alloc
has returned, no other path leads to it, one of the kernel half neither, and an entry of its
upper three levels that is not present is zero. Every table has been given out and lies apart
from the freelist. -/
structure WellFormed (s : Kernel) : Prop where
  base : s.virtBaseForUser = virtBase
  pml4 : s.pml4Shared = add64 s.root virtBase
  aligned : s.root % 4096 = 0
  cursor : s.cursor % 4096 = 0
  frame : s.usrPhysAddr % 4096 = 0 ∧ s.usrPhysAddr < 2^64
  given : ∀ ρ p, ρ ≠ [] → ρ.length ≤ 3 → UserPath ρ → tableAt s ρ = some p →
    add64 p virtBase ∈ pagesIn s.log
  below : ∀ ρ p, Short ρ → tableAt s ρ = some p → p + 4096 ≤ s.cursor
  tree : ∀ ρ σ p, ρ.length ≤ 3 → UserPath ρ → Short σ → tableAt s ρ = some p →
    tableAt s σ = some p → ρ = σ
  upper : ∀ ρ p i, ρ.length ≤ 2 → UserPath (ρ++[i]) → tableAt s ρ = some p →
    entry s.mem p i = 0 ∨ entry s.mem p i % 2 = 1
  freelist : ∀ ρ p, Short ρ → tableAt s ρ = some p →
    direct s.freelist + 4*numberOfPages ≤ p ∨ p + 4096 ≤ direct s.freelist
  listBelow : direct s.freelist + 4*numberOfPages ≤ s.cursor

/-- page_alloc has the three pages left that a call of memmap may need, below the end of what boot
has mapped. -/
structure PagesLeft (s : Kernel) : Prop where
  slots : s.counter + 3 ≤ numberOfPages
  top : s.cursor + 4096*3 ≤ 49*0x200000

theorem slots_append {ρ σ : List Nat} : Slots (ρ++σ) ↔ Slots ρ ∧ Slots σ := by
  simp [Slots, or_imp, forall_and]

theorem slots_singleton {i : Nat} : Slots [i] ↔ i < 512 := by
  simp [Slots]

theorem UserPath.initial {ρ σ : List Nat} (h : UserPath σ) (hp : ρ <+: σ) : UserPath ρ := by
  obtain ⟨τ, rfl⟩ := hp
  refine ⟨(slots_append.mp h.1).1, ?_⟩
  intro i hi
  apply h.2 i
  cases ρ with
  | nil => simp at hi
  | cons a ρ => simpa using hi

theorem UserPath.short {ρ : List Nat} (h : UserPath ρ) (hl : ρ.length ≤ 3) : Short ρ := ⟨hl, h.1⟩

theorem userPath_nil : UserPath [] := ⟨by simp [Slots], by simp⟩

theorem tableAt_snoc (s : Kernel) (ρ : List Nat) (i : Nat) :
    tableAt s (ρ++[i]) = (tableAt s ρ).bind fun p => next (entry s.mem p i) :=
  RadixTable.table_snoc next (entry s.mem) s.root ρ i

theorem tableAt_nil (s : Kernel) : tableAt s [] = some s.root := rfl

theorem tableAt_aligned {s : Kernel} (ha : s.root % 4096 = 0) {ρ : List Nat} {p : Nat}
    (h : tableAt s ρ = some p) : p % 4096 = 0 := by
  induction ρ using List.reverseRecOn with
  | nil =>
    have he : s.root = p := Option.some.inj h
    exact he ▸ ha
  | append_singleton ρ i _ =>
    rw [tableAt_snoc] at h
    obtain ⟨q, -, hq⟩ := Option.bind_eq_some_iff.mp h
    exact next_aligned hq

theorem entry_lt (m : Mem) (p i : Nat) : entry m p i < 2^64 := load64_lt m _

/-- A kernel pointer with flag bits in it, rounded down to the table it names. -/
theorem roundDown_entry (e : Nat) :
    roundDown (add64 e virtBase) pageSize = add64 (pageOf e) virtBase := by
  rw [pageOf_eq]
  unfold roundDown add64 virtBase pageSize
  omega

theorem roundDown_page (p : Nat) (h : p % 4096 = 0) :
    roundDown (add64 p virtBase) pageSize = add64 p virtBase := by
  unfold roundDown add64 virtBase pageSize
  omega

section Lookup

variable {s t : Kernel} {n : Nat} {ρ : List Nat} {p i : Nat}

/-- Taking pages does not touch a table. -/
theorem WellFormed.entry_taken (h : WellFormed s) (hr : PagesLeft s) (ht : Taken n s t) (hn : n ≤ 3)
    (hρ : Short ρ)
    (hp : tableAt s ρ = some p) (hi : i < 512) : entry t.mem p i = entry s.mem p i := by
  have hb := h.below ρ p hρ hp
  have hf := h.freelist ρ p hρ hp
  have hs := hr.slots
  refine load_congr _ _ _ _ fun x hx hx' => ht.kept x (Or.inl (by omega)) ?_
  omega

/-- Where the search for a table has got to: `n` pages have been taken since `s`, and the table
at `ρ` is an old one, or it is the page taken last. -/
structure Looked (s t : Kernel) (n : Nat) (ρ : List Nat) (p : Nat) : Prop where
  taken : Taken n s t
  page : n = 0 ∧ tableAt s ρ = some p ∨
    0 < n ∧ tableAt s ρ = none ∧ p = s.cursor + 4096*(n-1)

theorem Looked.aligned (hw : WellFormed s) (h : Looked s t n ρ p) : p % 4096 = 0 := by
  have hc := hw.cursor
  rcases h.page with ⟨-, hp⟩ | ⟨-, -, hp⟩
  · exact tableAt_aligned hw.aligned hp
  · omega

theorem Looked.lt (hw : WellFormed s) (h : Looked s t n ρ p) (hn : n ≤ 3) (hρ : Short ρ) :
    p + 4096 ≤ s.cursor + 4096*n := by
  rcases h.page with ⟨-, hp⟩ | ⟨hpos, -, hp⟩
  · have := hw.below ρ p hρ hp
    omega
  · omega

/-- One level: get_pdp, get_pd or get_pt at the table found so far. -/
theorem Looked.step (hw : WellFormed s) (hr : PagesLeft s) (h : Looked s t n ρ p) (hn : n ≤ 2)
    (hlen : ρ.length ≤ 2) (hs : Slots (ρ++[i]))
    (hup : ∀ q, tableAt s ρ = some q → entry s.mem q i = 0 ∨ entry s.mem q i % 2 = 1) :
    ∃ k q, roundDown (getTable (add64 p virtBase) i t).1 pageSize = add64 q virtBase ∧
      Looked s (getTable (add64 p virtBase) i t).2 k (ρ++[i]) q ∧
      n ≤ k ∧ k ≤ n+1 ∧ (0 < n → k = n+1) := by
  have htop := hr.top
  have hi : i < 512 := hs i (by simp)
  have hρ : Slots ρ := (slots_append.mp hs).1
  have hcur := h.taken.cursor
  have hplt := h.lt hw (by omega) ⟨by omega, hρ⟩
  have hdirect : direct (add64 p virtBase) = p := direct_add64 p (by omega)
  have hread : load64 t.mem (direct (add64 p virtBase) + 8*i) = entry t.mem p i := by
    rw [hdirect, entry]
  -- an absent table: the next page of the pool is taken
  have hfresh (he : entry t.mem p i = 0) (hnone : tableAt s (ρ++[i]) = none) :
      ∃ k q, roundDown (getTable (add64 p virtBase) i t).1 pageSize = add64 q virtBase ∧
        Looked s (getTable (add64 p virtBase) i t).2 k (ρ++[i]) q ∧
        n ≤ k ∧ k ≤ n+1 ∧ (0 < n → k = n+1) := by
    obtain ⟨v, hv, hv1⟩ := pageAlloc_taken t (by omega)
    have hget : getTable (add64 p virtBase) i t = pageAlloc t := by
      unfold getTable
      dsimp only
      rw [hread, if_neg (by omega)]
    rw [hget, hv]
    refine ⟨n+1, t.cursor, roundDown_page _ ?_, ⟨h.taken.trans hv1, Or.inr ⟨?_, hnone, ?_⟩⟩, ?_⟩
    · have := hw.cursor
      omega
    · omega
    · omega
    · omega
  rcases h.page with ⟨hn0, hp⟩ | ⟨hpos, hnone, hp⟩
  · have he := hw.entry_taken hr h.taken (by omega) ⟨by omega, hρ⟩ hp hi
    have htab : tableAt s (ρ++[i]) = next (entry s.mem p i) := by
      rw [tableAt_snoc, hp, Option.bind_some]
    rcases hup p hp with h0 | h1
    · exact hfresh (he.trans h0) (by rw [htab, h0]; exact next_of_even 0 rfl)
    · have hget : getTable (add64 p virtBase) i t = (add64 (entry s.mem p i) virtBase, t) := by
        unfold getTable
        dsimp only
        rw [hread, he, if_pos (by omega)]
      rw [hget]
      refine ⟨n, pageOf (entry s.mem p i), roundDown_entry _, ⟨h.taken, Or.inl ⟨hn0, ?_⟩⟩, ?_⟩
      · rw [htab, next, if_pos h1]
      · omega
  · refine hfresh ?_ (by rw [tableAt_snoc, hnone, Option.bind_none])
    refine load_zero _ _ _ fun x hx hx' => h.taken.fresh x ?_ ?_
    · omega
    · omega

theorem Looked.start (s : Kernel) : Looked s s 0 [] s.root :=
  ⟨Taken.refl s, Or.inl ⟨rfl, rfl⟩⟩

end Lookup

/-- The four entries of the walk of an address in the current tables. -/
def Kernel.lookup (s : Kernel) (va : Nat) : Option (List Nat) := walk s.mem s.root va

/-- A step that stays clear of the tables: below the pool's pointer it writes nothing but the
freelist, and that pointer only moves up. -/
structure TablesKept (s t : Kernel) : Prop where
  mem : ∀ x < s.cursor,
    x < direct s.freelist ∨ direct s.freelist + 4*numberOfPages ≤ x → t.mem x = s.mem x
  pml4 : t.pml4Shared = s.pml4Shared
  base : t.virtBaseForUser = s.virtBaseForUser
  freelist : t.freelist = s.freelist
  usrPhysAddr : t.usrPhysAddr = s.usrPhysAddr
  cursor : s.cursor ≤ t.cursor ∧ t.cursor % 4096 = 0
  pages : ∀ p ∈ pagesIn s.log, p ∈ pagesIn t.log

section TablesKept

variable {s t : Kernel}

theorem TablesKept.root_eq (h : TablesKept s t) : t.root = s.root := by
  rw [Kernel.root, h.pml4, Kernel.root]

theorem TablesKept.entry (hw : WellFormed s) (h : TablesKept s t) {ρ : List Nat} {p i : Nat}
    (hρ : Short ρ) (hp : tableAt s ρ = some p) (hi : i < 512) :
    entry t.mem p i = entry s.mem p i := by
  have hb := hw.below ρ p hρ hp
  have hf := hw.freelist ρ p hρ hp
  exact load_congr _ _ _ _ fun x hx hx' => h.mem x (by omega) (by omega)

theorem TablesKept.slot (hw : WellFormed s) (h : TablesKept s t) {path : List Nat}
    (hlen : path.length ≤ 4) (hs : Slots path) (ρ : List Nat) (i : Nat) (hp : ρ++[i] <+: path)
    (p : Nat) (ht : RadixTable.table next (SBUnix.entry s.mem) s.root ρ = some p) :
    SBUnix.entry t.mem p i = SBUnix.entry s.mem p i := by
  obtain ⟨τ, rfl⟩ := hp
  have hρ := (slots_append.mp hs).1
  simp only [List.length_append, List.length_cons, List.length_nil] at hlen
  exact h.entry hw ⟨by omega, (slots_append.mp hρ).1⟩ ht
    (slots_singleton.mp (slots_append.mp hρ).2)

theorem TablesKept.tableAt_eq (hw : WellFormed s) (h : TablesKept s t) {ρ : List Nat}
    (hlen : ρ.length ≤ 4) (hs : Slots ρ) : tableAt t ρ = tableAt s ρ := by
  rw [tableAt, tableAt, h.root_eq]
  exact RadixTable.table_congr_table next _ _ _ ρ fun σ i hp q hq =>
    congrArg next (h.slot hw hlen hs σ i hp q hq)

theorem TablesKept.lookup_eq (hw : WellFormed s) (h : TablesKept s t) (va : Nat) :
    t.lookup va = s.lookup va := by
  rw [Kernel.lookup, Kernel.lookup, walk, walk, h.root_eq]
  exact RadixTable.walk_congr_table next _ _ _ _ (h.slot hw (le_refl 4) (pathOf_lt va))

theorem TablesKept.wellFormed (hw : WellFormed s) (h : TablesKept s t) : WellFormed t := by
  have hroot := h.root_eq
  have hcur := h.cursor
  have htab {ρ : List Nat} (hρ : Short ρ) : tableAt t ρ = tableAt s ρ :=
    h.tableAt_eq hw (by have := hρ.1; omega) hρ.2
  constructor
  case base => rw [h.base, hw.base]
  case pml4 => rw [h.pml4, hroot, hw.pml4]
  case aligned => rw [hroot, hw.aligned]
  case cursor => exact hcur.2
  case frame => rw [h.usrPhysAddr]; exact hw.frame
  case given =>
    intro ρ p hne hlen hu hp
    rw [htab (hu.short hlen)] at hp
    exact h.pages _ (hw.given ρ p hne hlen hu hp)
  case below =>
    intro ρ p hρ hp
    rw [htab hρ] at hp
    have := hw.below ρ p hρ hp
    omega
  case tree =>
    intro ρ σ p hlen hu hσ hp hq
    rw [htab (hu.short hlen)] at hp
    rw [htab hσ] at hq
    exact hw.tree ρ σ p hlen hu hσ hp hq
  case upper =>
    intro ρ p i hlen hu hp
    have hρ : Short ρ := ⟨by omega, (slots_append.mp hu.1).1⟩
    rw [htab hρ] at hp
    rw [h.entry hw hρ hp (hu.1 i (by simp))]
    exact hw.upper ρ p i hlen hu hp
  case freelist =>
    intro ρ p hρ hp
    rw [htab hρ] at hp
    rw [h.freelist]
    exact hw.freelist ρ p hρ hp
  case listBelow =>
    have := hw.listBelow
    rw [h.freelist]
    omega

end TablesKept

theorem Taken.tablesKept {n : Nat} {s t : Kernel} (hw : WellFormed s) (h : Taken n s t)
    (hn : s.counter + n ≤ numberOfPages) : TablesKept s t := by
  have hcur := h.cursor
  have hal := hw.cursor
  constructor
  case mem => exact fun x hx hl => h.kept x (Or.inl hx) (by omega)
  case pml4 => exact h.pml4Shared
  case base => exact h.virtBaseForUser
  case freelist => exact h.freelist
  case usrPhysAddr => exact h.usrPhysAddr
  case cursor => exact ⟨by omega, by omega⟩
  case pages =>
    intro p hp
    rw [h.log, pagesIn_append]
    exact List.mem_append_right _ hp

theorem userPath_pathOf {va : Nat} (h : va < 2^47) : UserPath (pathOf va) := by
  refine ⟨pathOf_lt va, ?_⟩
  intro i hi
  simp only [pathOf, List.head?_cons, Option.mem_def, Option.some.injEq, getPml4Offset_eq] at hi
  omega

/-- The four tables on the way to an address once findTables has come back: `page k` is the one
at depth `k`, an old one or one of the `n` pages taken. -/
structure Found (s : Kernel) (π : List Nat) (r : Tables × Kernel) (n : Nat) (page : Nat → Nat) :
    Prop where
  taken : Taken n s r.2
  le : n ≤ 3
  root : page 0 = s.root
  pdp : r.1.pdp = add64 (page 1) virtBase
  pd : r.1.pd = add64 (page 2) virtBase
  pt : r.1.pt = add64 (page 3) virtBase
  depth : ∀ k < 4, tableAt s (π.take k) = some (page k) ∨ tableAt s (π.take k) = none ∧
    s.cursor ≤ page k ∧ page k + 4096 ≤ s.cursor + 4096*n ∧ page k % 4096 = 0
  inj : ∀ j k, j < 4 → k < 4 → page j = page k → j = k
  few : ∀ k < 4, tableAt s (π.take k) ≠ none → n + k ≤ 3

/-- Depth by depth: old tables first, then fresh ones in the order in which they are taken. -/
theorem Looked.pages_ne {s t u : Kernel} (hw : WellFormed s) {ρ σ : List Nat} {n k p q : Nat}
    (h : Looked s t n ρ p) (g : Looked s u k σ q) (hρ : Short ρ)
    (hne : tableAt s ρ = some p → tableAt s σ ≠ some p) (hle : n ≤ k) (hlt : 0 < n → n < k) :
    p ≠ q := by
  rintro rfl
  rcases g.page with ⟨hk, hq⟩ | ⟨hk, -, hq⟩
  · rcases h.page with ⟨-, hp⟩ | ⟨hn, -⟩
    · exact hne hp hq
    · omega
  · rcases h.page with ⟨-, hp⟩ | ⟨hn, -, hp⟩
    · have := hw.below ρ p hρ hp
      omega
    · have := hlt hn
      omega

/-- An old table: no page has been taken before it. -/
theorem Looked.none_taken {s t : Kernel} {ρ : List Nat} {n p : Nat} (h : Looked s t n ρ p)
    (hne : tableAt s ρ ≠ none) : n = 0 := by
  rcases h.page with ⟨hn, -⟩ | ⟨-, hnone, -⟩
  · exact hn
  · exact absurd hnone hne

theorem Looked.found {s t : Kernel} (hw : WellFormed s) {ρ : List Nat} {n N p : Nat}
    (h : Looked s t n ρ p) (hN : n ≤ N) : tableAt s ρ = some p ∨ tableAt s ρ = none ∧
      s.cursor ≤ p ∧ p + 4096 ≤ s.cursor + 4096*N ∧ p % 4096 = 0 := by
  have hal := h.aligned hw
  rcases h.page with ⟨-, hp⟩ | ⟨hpos, hnone, hp⟩
  · exact Or.inl hp
  · exact Or.inr ⟨hnone, by omega, by omega, hal⟩

/-- Stated over any values: with a table's address among them, comparing the two sides would
evaluate it. -/
theorem exists_family (a b c d : Nat) :
    ∃ f : Nat → Nat, f 0 = a ∧ f 1 = b ∧ f 2 = c ∧ f 3 = d :=
  ⟨fun k => [a, b, c, d].getD k 0, rfl, rfl, rfl, rfl⟩

/-- The tables on the way to an address may be gone through: no entry is set without being
present, and no table comes twice. -/
structure Passable (s : Kernel) (π : List Nat) : Prop where
  slots : Slots π
  upper : ∀ ρ i p, ρ++[i] <+: π → ρ.length ≤ 2 → tableAt s ρ = some p →
    entry s.mem p i = 0 ∨ entry s.mem p i % 2 = 1
  tree : ∀ ρ σ p, ρ <+: π → σ <+: π → ρ.length ≤ 3 → σ.length ≤ 3 → ρ ≠ σ →
    tableAt s ρ = some p → tableAt s σ ≠ some p

theorem Passable.slots_initial {s : Kernel} {ρ π : List Nat} (h : Passable s π) (hp : ρ <+: π) :
    Slots ρ := by
  obtain ⟨τ, rfl⟩ := hp
  exact (slots_append.mp h.slots).1

theorem WellFormed.passable {s : Kernel} (hw : WellFormed s) {π : List Nat} (hu : UserPath π) :
    Passable s π where
  slots := hu.1
  upper ρ i p hi hlen hp := hw.upper ρ p i hlen (hu.initial hi) hp
  tree ρ σ p hρ hσ hρ3 hσ3 hne hp hq :=
    hne (hw.tree ρ σ p hρ3 (hu.initial hρ) ((hu.initial hσ).short hσ3) hp hq)

theorem findTables_spec {s : Kernel} (hw : WellFormed s) (hr : PagesLeft s) {va : Nat}
    (hva : Passable s (pathOf va)) :
    ∃ n page, Found s (pathOf va) (findTables va s) n page := by
  have hi0 : [] <+: pathOf va := by simp
  have hi1 : [getPml4Offset va] <+: pathOf va := by simp [pathOf]
  have hi2 : [getPml4Offset va, getPdpOffset va] <+: pathOf va := by simp [pathOf]
  have hi3 : [getPml4Offset va, getPdpOffset va, getPdOffset va] <+: pathOf va := by
    simp [pathOf]
  have hshort0 : Short [] := ⟨by simp, hva.slots_initial hi0⟩
  have hshort1 : Short [_] := ⟨by simp, hva.slots_initial hi1⟩
  have hshort2 : Short [_, _] := ⟨by simp, hva.slots_initial hi2⟩
  obtain ⟨n1, p1, e1, l1, -, hn1, -⟩ :=
    (Looked.start s).step hw hr (i := getPml4Offset va) (by omega) (by simp)
      (hva.slots_initial hi1) (hva.upper [] _ · hi1 (by simp))
  rw [← hw.pml4] at e1 l1
  obtain ⟨n2, p2, e2, l2, hle2, hn2, hs2⟩ :=
    l1.step hw hr (i := getPdpOffset va) (by omega) (by simp)
      (hva.slots_initial hi2) (hva.upper [_] _ · hi2 (by simp))
  obtain ⟨n3, p3, e3, l3, hle3, hn3, hs3⟩ :=
    l2.step hw hr (i := getPdOffset va) (by omega) (by simp)
      (hva.slots_initial hi3) (hva.upper [_, _] _ · hi3 (by simp))
  have hfind : findTables va s = (⟨add64 p1 virtBase, add64 p2 virtBase, add64 p3 virtBase⟩,
      (getTable (add64 p2 virtBase) (getPdOffset va) (getTable (add64 p1 virtBase)
        (getPdpOffset va) (getTable s.pml4Shared (getPml4Offset va) s).2).2).2) := by
    unfold findTables getPdp getPd getPt
    dsimp only
    rw [e1, e2, e3]
  obtain ⟨page, hp0, rfl, rfl, rfl⟩ := exists_family s.root p1 p2 p3
  have l0 := Looked.start s
  rw [← hp0] at l0
  have hne := hva.tree
  have h01 := l0.pages_ne hw l1 hshort0
    (hne _ _ _ hi0 hi1 (by simp) (by simp) (by simp)) (by omega) (by omega)
  have h02 := l0.pages_ne hw l2 hshort0
    (hne _ _ _ hi0 hi2 (by simp) (by simp) (by simp)) (by omega) (by omega)
  have h03 := l0.pages_ne hw l3 hshort0
    (hne _ _ _ hi0 hi3 (by simp) (by simp) (by simp)) (by omega) (by omega)
  have h12 := l1.pages_ne hw l2 hshort1
    (hne _ _ _ hi1 hi2 (by simp) (by simp) (by simp)) (by omega) (by omega)
  have h13 := l1.pages_ne hw l3 hshort1
    (hne _ _ _ hi1 hi3 (by simp) (by simp) (by simp)) (by omega) (by omega)
  have h23 := l2.pages_ne hw l3 hshort2
    (hne _ _ _ hi2 hi3 (by simp) (by simp) (by simp)) (by omega) (by omega)
  refine ⟨n3, page, ?_⟩
  constructor
  case taken =>
    rw [hfind]
    exact l3.taken
  case le => omega
  case root => exact hp0
  case pdp => rw [hfind]
  case pd => rw [hfind]
  case pt => rw [hfind]
  case depth =>
    intro k hk
    interval_cases k
    · exact l0.found hw (by omega)
    · exact l1.found hw (by omega)
    · exact l2.found hw (by omega)
    · exact l3.found hw (by omega)
  case inj =>
    intro j k hj hk h
    interval_cases j <;> interval_cases k <;> first | rfl | exact absurd h (by assumption) |
      exact absurd h.symm (by assumption)
  case few =>
    intro k hk hne
    interval_cases k
    · omega
    · have := l1.none_taken hne
      omega
    · have := l2.none_taken hne
      omega
    · have := l3.none_taken hne
      omega

end SBUnix
