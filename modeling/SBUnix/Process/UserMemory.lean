import SBUnix.Paging.UserPages
import SBUnix.Process.LoadSegment

namespace SBUnix

open ByteMemory CString Word

/-- The byte the processor finds at a virtual address. -/
def peek (k : Kernel) (va : Nat) : Option UInt8 := (translate k va).map k.mem

/-- kmemcpy from one user address to another. -/
def userCopy : Nat → Nat → Nat → Kernel → Option Kernel
  | 0, _, _, k => some k
  | n+1, dst, src, k =>
    (peek k src).bind fun b =>
      (userStores [b] dst k).bind (userCopy n (add64 dst 1) (add64 src 1))

/-- The user half as it is in force: `F` gives the frame of each page that is mapped. Frames lie
where get_user_phys_addr takes them from, and none serves two pages. -/
structure Space (k : Kernel) (F : Nat → Option Nat) : Prop where
  wf : WellFormed k
  cr3 : k.cr3 = k.root
  frames : ∀ va < 2^47, k.frameOf va = F va
  high : ∀ va f, va < 2^47 → F va = some f → startPaddrForUsrs ≤ f
  inj : ∀ x y f, x < 2^47 → y < 2^47 → F x = some f → F y = some f → x / 4096 = y / 4096

/-- page_alloc has `n` pages left, all of them below the frames. -/
structure Budget (k : Kernel) (n : Nat) : Prop where
  slots : k.counter + n ≤ numberOfPages
  top : k.cursor + 4096*n ≤ startPaddrForUsrs

theorem Budget.mono {k : Kernel} {n m : Nat} (h : Budget k n) (hm : m ≤ n) : Budget k m := by
  have h1 := h.slots
  have h2 := h.top
  exact ⟨by omega, by omega⟩

theorem Budget.pagesLeft {k : Kernel} (h : Budget k 3) : PagesLeft k := by
  have h1 := h.slots
  have h2 := h.top
  unfold startPaddrForUsrs at h2
  exact ⟨h1, by omega⟩

theorem frameOf_aligned {k : Kernel} {va f : Nat} (h : k.frameOf va = some f) : f % 4096 = 0 := by
  obtain ⟨es, -, rfl⟩ := Option.map_eq_some_iff.mp h
  rw [pageOf_eq, Nat.mul_mod_left]

theorem translate_eq {k : Kernel} (h : k.cr3 = k.root) (va : Nat) :
    translate k va = (k.frameOf va).map (· + va % 4096) := by
  rw [translate, Kernel.frameOf, Option.map_map, h, Kernel.lookup]
  rfl

section Space

variable {k t : Kernel} {F : Nat → Option Nat}

theorem Space.translate (h : Space k F) {va : Nat} (hva : va < 2^47) :
    translate k va = (F va).map (· + va % 4096) := by
  rw [translate_eq h.cr3, h.frames va hva]

theorem Space.peek_eq (h : Space k F) {va : Nat} (hva : va < 2^47) :
    peek k va = (F va).map fun f => k.mem (f + va % 4096) := by
  rw [peek, h.translate hva, Option.map_map]
  rfl

theorem Space.aligned (h : Space k F) {va f : Nat} (hva : va < 2^47) (hf : F va = some f) :
    f % 4096 = 0 := by
  rw [← h.frames va hva] at hf
  exact frameOf_aligned hf

theorem Space.kept (h : Space k F) (hk : TablesKept k t) (hcr3 : t.cr3 = k.cr3) : Space t F where
  wf := hk.wellFormed h.wf
  cr3 := by rw [hcr3, h.cr3, hk.root_eq]
  frames va hva := by rw [← h.frames va hva, Kernel.frameOf, hk.lookup_eq h.wf, Kernel.frameOf]
  high := h.high
  inj := h.inj

/-- Memory above the pool's pointer is not a table. -/
theorem tablesKept_setMem (hw : WellFormed k) {m : Mem} (hm : ∀ x < k.cursor, m x = k.mem x) :
    TablesKept k { k with mem := m } where
  mem x hx _ := hm x hx
  pml4 := rfl
  base := rfl
  freelist := rfl
  usrPhysAddr := rfl
  cursor := ⟨le_refl k.cursor, hw.cursor⟩
  pages _ hp := hp

/-- Storing one byte through the tables. -/
theorem Space.storeByte (h : Space k F) (hb : k.cursor ≤ startPaddrForUsrs) {va f : Nat}
    (hva : va < 2^47) (hf : F va = some f) (b : UInt8) :
    Space { k with mem := store k.mem 1 (f + va % 4096) b.toNat } F ∧
    ∀ x < 2^47, peek { k with mem := store k.mem 1 (f + va % 4096) b.toNat } x =
      if x = va then some b else peek k x := by
  have hhigh := h.high va f hva hf
  have hbelow : ∀ x < k.cursor, store k.mem 1 (f + va % 4096) b.toNat x = k.mem x := by
    intro x hx
    exact store_outside _ _ _ _ _ (by omega)
  have hspace := h.kept (tablesKept_setMem h.wf hbelow) rfl
  refine ⟨hspace, ?_⟩
  intro x hx
  rw [hspace.peek_eq hx, h.peek_eq hx]
  by_cases hxa : x = va
  · subst hxa
    rw [if_pos rfl, hf, Option.map_some]
    simp [store]
  · rw [if_neg hxa]
    cases hfx : F x with
    | none => rfl
    | some g =>
      -- another byte of the same frame, or of another one
      have hg := h.aligned hx hfx
      have hf' := h.aligned hva hf
      have hne : g + x % 4096 ≠ f + va % 4096 := by
        intro he
        have hgf : g = f := by omega
        subst hgf
        have := h.inj x va g hx hva hfx hf
        omega
      rw [Option.map_some, Option.map_some]
      exact congrArg some (store_outside _ _ _ _ _ (by omega))

theorem Space.userStores (h : Space k F) (hb : k.cursor ≤ startPaddrForUsrs) {bs : Bytes} {va : Nat}
    (hva : va + bs.length ≤ 2^47) (ht : userStores bs va k = some t) :
    Space t F ∧ (∃ m, t = { k with mem := m }) ∧
    ∀ x < 2^47, peek t x =
      if va ≤ x ∧ x < va + bs.length then bs[x-va]? else peek k x := by
  induction bs generalizing va k with
  | nil =>
    have he : k = t := Option.some.inj ht
    subst he
    refine ⟨h, ⟨k.mem, rfl⟩, ?_⟩
    intro x hx
    rw [if_neg (by simp only [List.length_nil]; omega)]
  | cons b bs ih =>
    simp only [List.length_cons] at hva
    obtain ⟨p, hp, ht⟩ := Option.bind_eq_some_iff.mp ht
    rw [h.translate (by omega)] at hp
    obtain ⟨f, hf, rfl⟩ := Option.map_eq_some_iff.mp hp
    obtain ⟨h1, hpeek⟩ := h.storeByte hb (by omega) hf b
    have hnext : add64 va 1 = va+1 := add64_of_lt va 1 (by omega)
    rw [hnext] at ht
    obtain ⟨h2, ⟨m, hm⟩, hrest⟩ := ih h1 hb (by omega) ht
    refine ⟨h2, ⟨m, hm⟩, ?_⟩
    intro x hx
    rw [hrest x hx, hpeek x hx, List.length_cons]
    by_cases hxa : x = va
    · have hout : ¬(va+1 ≤ x ∧ x < va+1+bs.length) := by omega
      have hin : va ≤ x ∧ x < va + (bs.length+1) := by omega
      rw [if_neg hout, if_pos hxa, if_pos hin, hxa, Nat.sub_self, List.getElem?_cons_zero]
    · rw [if_neg hxa]
      by_cases hin : va+1 ≤ x ∧ x < va+1+bs.length
      · have hj : x - va = x - (va+1) + 1 := by omega
        rw [if_pos hin, if_pos (by omega), hj, List.getElem?_cons_succ]
      · rw [if_neg hin, if_neg (by omega)]

theorem Space.userCopy (h : Space k F) (hb : k.cursor ≤ startPaddrForUsrs) {n dst src : Nat}
    (hdst : dst + n ≤ 2^47) (ht : userCopy n dst src k = some t) :
    Space t F ∧ (∃ m, t = { k with mem := m }) ∧
    ∀ x < 2^47, x < dst ∨ dst + n ≤ x → peek t x = peek k x := by
  induction n generalizing dst src k with
  | zero =>
    have he : k = t := Option.some.inj ht
    subst he
    exact ⟨h, ⟨k.mem, rfl⟩, fun _ _ _ => rfl⟩
  | succ n ih =>
    obtain ⟨b, -, ht⟩ := Option.bind_eq_some_iff.mp ht
    obtain ⟨u, hu, ht⟩ := Option.bind_eq_some_iff.mp ht
    obtain ⟨h1, ⟨m, rfl⟩, hpeek⟩ := h.userStores hb (by simp only [List.length_singleton]; omega) hu
    have hnext : add64 dst 1 = dst+1 := add64_of_lt dst 1 (by omega)
    rw [hnext] at ht
    obtain ⟨h2, ⟨m', hm'⟩, hrest⟩ := ih h1 hb (by omega) ht
    refine ⟨h2, ⟨m', hm'⟩, ?_⟩
    intro x hx hout
    rw [hrest x hx (by omega), hpeek x hx, if_neg (by simp only [List.length_singleton]; omega)]

/-- Stores to mapped bytes do not fault. -/
theorem Space.userStores_returns (h : Space k F) (hb : k.cursor ≤ startPaddrForUsrs) {bs : Bytes}
    {va : Nat} (hva : va + bs.length ≤ 2^47)
    (hmap : ∀ x, va ≤ x → x < va + bs.length → F x ≠ none) :
    ∃ t, SBUnix.userStores bs va k = some t := by
  induction bs generalizing va k with
  | nil => exact ⟨k, rfl⟩
  | cons b bs ih =>
    simp only [List.length_cons] at hva hmap
    obtain ⟨f, hf⟩ := Option.ne_none_iff_exists'.mp (hmap va (by omega) (by omega))
    obtain ⟨h1, -⟩ := h.storeByte hb (by omega) hf b
    obtain ⟨t, ht⟩ := ih h1 hb (show va+1 + bs.length ≤ 2^47 by omega) fun x hx hlt =>
      hmap x (by omega) (by omega)
    have hnext : add64 va 1 = va+1 := add64_of_lt va 1 (by omega)
    refine ⟨t, ?_⟩
    rw [SBUnix.userStores, h.translate (by omega), hf, Option.map_some, Option.bind_some, hnext, ht]

theorem Space.userCopy_returns (h : Space k F) (hb : k.cursor ≤ startPaddrForUsrs)
    {n dst src : Nat} (hdst : dst + n ≤ 2^47) (hsrc : src + n ≤ 2^47)
    (hmap : ∀ i < n, F (dst+i) ≠ none ∧ F (src+i) ≠ none) :
    ∃ t, SBUnix.userCopy n dst src k = some t := by
  induction n generalizing dst src k with
  | zero => exact ⟨k, rfl⟩
  | succ n ih =>
    obtain ⟨hd, hs⟩ := hmap 0 (by omega)
    obtain ⟨f, hf⟩ := Option.ne_none_iff_exists'.mp hs
    have hpeek : peek k src = some (k.mem (f + src % 4096)) := by
      rw [h.peek_eq (by omega), show F src = some f from hf, Option.map_some]
    have hlen : dst + [k.mem (f + src % 4096)].length ≤ 2^47 := by
      rw [List.length_singleton]
      omega
    obtain ⟨u, hu⟩ := h.userStores_returns hb hlen fun x hx hlt => by
      rw [List.length_singleton] at hlt
      rwa [show x = dst by omega]
    obtain ⟨h1, ⟨m, rfl⟩, -⟩ := h.userStores hb hlen hu
    have hnext (a : Nat) (ha : a < 2^47) : add64 a 1 = a+1 := add64_of_lt a 1 (by omega)
    obtain ⟨t, ht⟩ := ih h1 hb (show dst+1+n ≤ 2^47 by omega) (show src+1+n ≤ 2^47 by omega)
      fun i hi => by
      rw [Nat.add_assoc, Nat.add_assoc, Nat.add_comm 1 i]
      exact hmap (i+1) (by omega)
    refine ⟨t, ?_⟩
    rw [SBUnix.userCopy, hpeek, Option.bind_some, hu, Option.bind_some, hnext _ (by omega),
      hnext _ (by omega), ht]

theorem Space.taken (h : Space k F) {n : Nat} (ht : Taken n k t) (hb : Budget k n) :
    Space t F ∧ ∀ x < 2^47, peek t x = peek k x := by
  have hs := h.kept (ht.tablesKept h.wf hb.slots) (congrArg (·.cr3) ht.others)
  refine ⟨hs, ?_⟩
  intro x hx
  rw [hs.peek_eq hx, h.peek_eq hx]
  cases hf : F x with
  | none => rfl
  | some f =>
    have hhigh := h.high x f hx hf
    have htop := hb.top
    have hslots := hb.slots
    have hlist := h.wf.listBelow
    exact congrArg some (ht.kept _ (Or.inr (by omega)) (Or.inr (by omega)))

/-- `F` with one page mapped anew. -/
def place (F : Nat → Option Nat) (virt f : Nat) : Nat → Option Nat :=
  fun va => if va / 4096 = virt / 4096 then some f else F va

/-- A page mapped by add_user_page, in a frame that serves no other page. -/
theorem Space.installed (h : Space k F) (hb : Budget k 3) {virt perm n : Nat} {page : Nat → Nat}
    (hm : Installed k t virt k.usrPhysAddr perm n page) (hcr3 : t.cr3 = t.root)
    (hvirt : virt < 2^47) (hhigh : startPaddrForUsrs ≤ k.usrPhysAddr)
    (hfresh : ∀ x < 2^47, F x ≠ some k.usrPhysAddr) :
    Space t (place F virt k.usrPhysAddr) ∧
    ∀ x < 2^47, x / 4096 ≠ virt / 4096 → peek t x = peek k x := by
  have hother {x : Nat} (hx : x < 2^47) (hne : x / 4096 ≠ virt / 4096) :
      t.frameOf x = k.frameOf x :=
    hm.frameOf_other fun hp => hne (page_eq_of_pathOf (Or.inl hx) hvirt hp)
  have hs : Space t (place F virt k.usrPhysAddr) := by
    constructor
    case wf => exact hm.wellFormed
    case cr3 => exact hcr3
    case frames =>
      intro va hva
      unfold place
      split_ifs with he
      · exact hm.frameOf_self (pathOf_congr he)
      · rw [hother hva he, h.frames va hva]
    case high =>
      intro va f hva hf
      unfold place at hf
      split_ifs at hf
      · rwa [← Option.some.inj hf]
      · exact h.high va f hva hf
    case inj =>
      intro x y f hx hy hfx hfy
      unfold place at hfx hfy
      split_ifs at hfx hfy with ex ey ey
      · rw [ex, ey]
      · rw [← Option.some.inj hfx] at hfy
        exact absurd hfy (hfresh y hy)
      · rw [← Option.some.inj hfy] at hfx
        exact absurd hfx (hfresh x hx)
      · exact h.inj x y f hx hy hfx hfy
  refine ⟨hs, ?_⟩
  intro x hx hne
  have hplace : place F virt k.usrPhysAddr x = F x := if_neg hne
  rw [hs.peek_eq hx, h.peek_eq hx, hplace]
  cases hfx : F x with
  | none => rfl
  | some f =>
    have hfhigh := h.high x f hx hfx
    have htop := hb.top
    have hslots := hb.slots
    have hlist := h.wf.listBelow
    have hle := hm.le
    refine congrArg some (hm.kept _ (Or.inr (by omega)) (Or.inr (by omega)) ?_)
    intro j hj
    have hpage := depth_le h.wf (take_short hj) (hm.depth j hj)
    have hslot := slotOf_lt virt hj
    exact Or.inr (by omega)

end Space

end SBUnix
