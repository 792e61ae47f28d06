import SBUnix.Paging.BootMap

namespace SBUnix

open ByteMemory Word

/-- Slot `i` of the table in physical page `p` once boot is over, from RAM as it was
before. -/
def afterBoot (m : Mem) (pf p i : Nat) : Nat :=
  if p < pool pf then belowOf m pf (p + 8*i)
  else image pf (gridOf m pf) ((p - pool pf) / 4096) i

theorem afterBoot_pool (m : Mem) (pf k i : Nat) :
    afterBoot m pf (pool pf + 4096*k) i = image pf (gridOf m pf) k i := by
  rw [afterBoot, if_neg (by omega), Nat.add_sub_cancel_left,
    Nat.mul_div_cancel_left k (by norm_num)]

theorem Booted.entry_eq {m : Mem} {pf : Nat} {s : Kernel} (h : Booted m pf s)
    (hb : pool pf % 4096 = 0) (p i : Nat) (hp : p % 4096 = 0) (hi : i < 512) :
    entry s.mem p i = afterBoot m pf p i := by
  rw [entry, afterBoot]
  split_ifs with hlt
  · exact h.words.below _ (by omega) (by omega)
  · obtain ⟨k, rfl⟩ : ∃ k, p = pool pf + 4096*k := ⟨(p - pool pf) / 4096, by omega⟩
    rw [Nat.add_sub_cancel_left, Nat.mul_div_cancel_left k (by norm_num)]
    exact h.words.grid k i hi

theorem booted_walk (m : Mem) (pf va : Nat) (hp : pf % 4096 = 0) (hf : pf < 2^52) :
    walk (booted m pf).mem (booted m pf).cr3 va =
      RadixTable.walk next (afterBoot m pf) (pool pf + 4096*0) (pathOf va) := by
  have h := booted_spec m pf hp hf
  have hb := pool_aligned hp
  rw [walk, h.cr3, Nat.mul_zero, Nat.add_zero]
  exact RadixTable.walk_congr next _ _ (pool pf) (· % 4096 = 0) (· < 512)
    (fun _ _ => next_aligned) (h.entry_eq hb) (pathOf va) hb (pathOf_lt va)

/-- The page of the table that slot `d` of the kernel's directory names. -/
def tablePage (d : Nat) : Nat := if d = 0 then 4 else if d = 1 then 3 else 3+d

theorem image_pd (pf : Nat) (w : Nat → Nat → Nat) (d : Nat) (hd : d < 49) :
    image pf w 2 d = pool pf + 4096*tablePage d + 3 := by
  rcases Nat.lt_or_ge d 2 with h | h
  · interval_cases d <;> rfl
  · have h0 : ¬d = 0 := by omega
    have h1 : ¬d = 1 := by omega
    simp [image, tablePage, h0, h1, hd]

theorem image_pt (pf : Nat) (w : Nat → Nat → Nat) (d i : Nat) (hd : d < 49) :
    image pf w (tablePage d) i = 0x200000*d + 4096*i + 3 := by
  rcases Nat.lt_or_ge d 2 with h | h
  · interval_cases d <;> simp [image, tablePage]
  · have ht : tablePage d = 3+d := by
      rw [tablePage, if_neg (by omega), if_neg (by omega)]
    rw [ht, image, if_neg (by omega), if_neg (by omega), if_neg (by omega), if_neg (by omega),
      if_neg (by omega), if_pos (by omega)]
    omega

theorem pathOf_window (x : Nat) (hx : x < 49*0x200000) :
    pathOf (virtBase + x) = [511, 510, x / 2^21, x / 2^12 % 512] := by
  simp only [pathOf, getPml4Offset_eq, getPdpOffset_eq, getPdOffset_eq, getPtOffset_eq, virtBase]
  rw [show (0xFFFFFFFF80000000 + x) / 2^39 % 512 = 511 by omega,
    show (0xFFFFFFFF80000000 + x) / 2^30 % 512 = 510 by omega,
    show (0xFFFFFFFF80000000 + x) / 2^21 % 512 = x / 2^21 by omega,
    show (0xFFFFFFFF80000000 + x) / 2^12 % 512 = x / 2^12 % 512 by omega]

theorem walk_linked {read : Nat → Nat → Nat} {p q i : Nat} (is : List Nat) (hq : q % 4096 = 0)
    (h : read p i = q+3) :
    RadixTable.walk next read p (i::is) = (RadixTable.walk next read q is).map ((q+3) :: ·) := by
  rw [RadixTable.walk_cons_some _ _ _ (h ▸ next_add _ 3 hq (by norm_num) rfl), h]

/-- The kernel's tables read so, on the ways into the window. -/
structure KernelMap (pf : Nat) (read : Nat → Nat → Nat) : Prop where
  pml4 : read (pool pf + 4096*0) 511 = pool pf + 4096*1 + 3
  pdp : read (pool pf + 4096*1) 510 = pool pf + 4096*2 + 3
  pd : ∀ d < 49, read (pool pf + 4096*2) d = pool pf + 4096*tablePage d + 3
  pt : ∀ d i, d < 49 → i < 512 →
    read (pool pf + 4096*tablePage d) i = 0x200000*d + 4096*i + 3

theorem tablePage_bounds {d : Nat} (hd : d < 49) : 1 ≤ tablePage d ∧ tablePage d < 52 := by
  unfold tablePage
  split_ifs <;> omega

/-- Of the PML4 only the last entry counts. -/
theorem kernelMap_of_image {pf : Nat} {read w : Nat → Nat → Nat}
    (h : ∀ k i, k < 52 → i < 512 → 1 ≤ k ∨ i = 511 →
      read (pool pf + 4096*k) i = image pf w k i) : KernelMap pf read where
  pml4 := (h 0 511 (by omega) (by omega) (Or.inr rfl)).trans (by simp [image])
  pdp := (h 1 510 (by omega) (by omega) (Or.inl le_rfl)).trans (by simp [image])
  pd d hd := (h 2 d (by omega) (by omega) (Or.inl (by omega))).trans (image_pd pf w d hd)
  pt d i hd hi :=
    (h _ i (tablePage_bounds hd).2 hi (Or.inl (tablePage_bounds hd).1)).trans (image_pt pf w d i hd)

theorem KernelMap.walk_window {pf x : Nat} {read : Nat → Nat → Nat} (h : KernelMap pf read)
    (hb : pool pf % 4096 = 0) (hx : x < 49*0x200000) :
    RadixTable.walk next read (pool pf + 4096*0) (pathOf (virtBase + x)) =
      some [pool pf + 4096*1 + 3, pool pf + 4096*2 + 3, pool pf + 4096*tablePage (x / 2^21) + 3,
        0x200000 * (x / 2^21) + 4096 * (x / 2^12 % 512) + 3] := by
  rw [pathOf_window x hx, walk_linked _ (by omega) h.pml4, walk_linked _ (by omega) h.pdp,
    walk_linked _ (by omega) (h.pd _ (by omega)),
    walk_linked _ (by omega) (h.pt _ _ (by omega) (Nat.mod_lt _ (by norm_num))), RadixTable.walk]
  rfl

theorem afterBoot_kernelMap (m : Mem) (pf : Nat) : KernelMap pf (afterBoot m pf) :=
  kernelMap_of_image fun k i _ _ _ => afterBoot_pool m pf k i

theorem walk_pml4 (m : Mem) (pf : Nat) (is : List Nat) (hb : pool pf % 4096 = 0) :
    RadixTable.walk next (afterBoot m pf) (pool pf + 4096*0) (511::is) =
      (RadixTable.walk next (afterBoot m pf) (pool pf + 4096*1) is).map
        ((pool pf + 4096*1 + 3) :: ·) :=
  walk_linked is (by omega) (afterBoot_kernelMap m pf).pml4

theorem walk_pdp (m : Mem) (pf : Nat) (is : List Nat) (hb : pool pf % 4096 = 0) :
    RadixTable.walk next (afterBoot m pf) (pool pf + 4096*1) (510::is) =
      (RadixTable.walk next (afterBoot m pf) (pool pf + 4096*2) is).map
        ((pool pf + 4096*2 + 3) :: ·) :=
  walk_linked is (by omega) (afterBoot_kernelMap m pf).pdp

theorem kern_set (a : Nat) (ha : a % 4096 = 0) : (a+3) &&& kernPermBits = kernPermBits := by
  rw [kernPermBits, show (3 : Nat) = 2^2 - 1 by norm_num, and_low]
  omega

/-- set_free_list maps the first 49 chunks of 2 MiB at `VIRT_BASE`, whatever RAM held. -/
theorem booted_window_mapped (m : Mem) (pf va : Nat) (hp : pf % 4096 = 0) (hf : pf < 2^52)
    (hlo : virtBase ≤ va) (hhi : va < virtBase + 49*0x200000) :
    ∃ es, walk (booted m pf).mem (booted m pf).cr3 va = some es ∧ es.length = 4 ∧
      (∀ e ∈ es, e &&& kernPermBits = kernPermBits) ∧
      es.getLast?.map pageOf = some (roundDown (va - virtBase) pageSize) := by
  obtain ⟨x, rfl⟩ := Nat.exists_eq_add_of_le hlo
  have hx : x < 49*0x200000 := by omega
  have hb := pool_aligned hp
  refine ⟨_, (booted_walk m pf _ hp hf).trans ((afterBoot_kernelMap m pf).walk_window hb hx), rfl, ?_, ?_⟩
  · simp only [List.mem_cons, List.not_mem_nil, or_false, forall_eq_or_imp, forall_eq]
    exact ⟨kern_set _ (by omega), kern_set _ (by omega), kern_set _ (by omega),
      kern_set _ (by omega)⟩
  · simp only [List.getLast?_cons_cons, List.getLast?_singleton, Option.map_some, pageOf_eq,
      Nat.add_sub_cancel_left, roundDown_eq, pageSize, Option.some.injEq]
    omega

theorem booted_window_mapped_physbase :
    ∃ es, walk (booted (fun _ => 0) 0x300000).mem (booted (fun _ => 0) 0x300000).cr3
        (virtBase + 0x200000) = some es ∧ es.length = 4 ∧
      (∀ e ∈ es, e &&& kernPermBits = kernPermBits) ∧
      es.getLast?.map pageOf = some (roundDown (virtBase + 0x200000 - virtBase) pageSize) :=
  booted_window_mapped (fun _ => 0) 0x300000 (virtBase + 0x200000) (by norm_num) (by norm_num)
    (Nat.le_add_right _ _) (Nat.add_lt_add_left (by norm_num) _)

/-- The entries of the three upper tables that boot leaves as it found them: slots 49 to 510
of the PML4, all but 1 and 510 of the PDP, and 49 upwards of the PD. Of the first, `freelist`
has cleared the low half; the second's slot 0 carries the in-use bit. -/
def Leftover (k i : Nat) : Prop :=
  k = 0 ∧ 49 ≤ i ∧ i < 511 ∨ k = 1 ∧ i ≠ 1 ∧ i ≠ 510 ∧ i < 512 ∨ k = 2 ∧ 49 ≤ i ∧ i < 512

/-- A leftover entry leads nowhere: every way on from it through RAM meets an entry with
the present bit clear. -/
def DeadEnd (m : Mem) (pf k i : Nat) : Prop :=
  ∀ q, next (image pf (gridOf m pf) k i) = some q →
    ∀ is : List Nat, is.length = 3-k → (∀ j ∈ is, j < 512) →
      RadixTable.walk next (afterBoot m pf) q is = none

/-- The address with these four indices, sign-extended. -/
def vaOf (a b c d : Nat) : Nat :=
  (if a < 256 then 0 else 2^64 - 2^48) + a*2^39 + b*2^30 + c*2^21 + d*2^12

theorem pathOf_vaOf (a b c d : Nat) (ha : a < 512) (hb : b < 512) (hc : c < 512) (hd : d < 512) :
    pathOf (vaOf a b c d) = [a, b, c, d] := by
  obtain ⟨z, hz, hv⟩ : ∃ z, z % 2^48 = 0 ∧
      vaOf a b c d = z + a*2^39 + b*2^30 + c*2^21 + d*2^12 := ⟨_, by split_ifs <;> rfl, rfl⟩
  simp only [pathOf, getPml4Offset_eq, getPdpOffset_eq, getPdOffset_eq, getPtOffset_eq, hv]
  simp only [List.cons.injEq, and_true]
  omega

theorem canonical_vaOf (a b c d : Nat) (ha : a < 512) (hb : b < 512) (hc : c < 512)
    (hd : d < 512) : Canonical (vaOf a b c d) := by
  rw [Canonical, vaOf]
  split_ifs with h
  · left
    omega
  · right
    omega

/-- The window is one run of slots of the kernel's directory. -/
theorem window_iff (va : Nat) (h : Canonical va) :
    virtBase ≤ va ∧ va < virtBase + 49*0x200000 ↔
      getPml4Offset va = 511 ∧ getPdpOffset va = 510 ∧ getPdOffset va < 49 := by
  rw [getPml4Offset_eq, getPdpOffset_eq, getPdOffset_eq, virtBase]
  rw [Canonical] at h
  constructor
  · intro hw
    omega
  · intro hs
    omega

theorem walk_leftover_iff (m : Mem) (pf k i : Nat) :
    (∀ is : List Nat, is.length = 3-k → (∀ j ∈ is, j < 512) →
      RadixTable.walk next (afterBoot m pf) (pool pf + 4096*k) (i::is) = none) ↔
    DeadEnd m pf k i := by
  have he := afterBoot_pool m pf k i
  constructor
  · intro h q hq is hl hj
    have hw := h is hl hj
    rw [RadixTable.walk_cons_some _ _ _ (he ▸ hq)] at hw
    exact Option.map_eq_none_iff.mp hw
  · intro h is hl hj
    cases hn : next (image pf (gridOf m pf) k i) with
    | none => exact RadixTable.walk_cons_none _ _ _ (he ▸ hn)
    | some q =>
      rw [RadixTable.walk_cons_some _ _ _ (he ▸ hn), h q hn is hl hj]
      rfl

/-- What boot leaves mapped beside the window is what RAM happened to hold: get_page gives
out table pages without clearing them. -/
theorem booted_window_only_iff (m : Mem) (pf : Nat) (hp : pf % 4096 = 0) (hf : pf < 2^52) :
    (∀ va, Canonical va → ¬(virtBase ≤ va ∧ va < virtBase + 49*0x200000) →
      walk (booted m pf).mem (booted m pf).cr3 va = none) ↔
    ∀ k i, Leftover k i → DeadEnd m pf k i := by
  have hb := pool_aligned hp
  constructor
  · intro h k i hl
    have hva (a b c d : Nat) (ha : a < 512) (hb' : b < 512) (hc : c < 512) (hd : d < 512)
        (hn : ¬(a = 511 ∧ b = 510 ∧ c < 49)) :
        RadixTable.walk next (afterBoot m pf) (pool pf + 4096*0) [a, b, c, d] = none := by
      have hpath := pathOf_vaOf a b c d ha hb' hc hd
      have hcan := canonical_vaOf a b c d ha hb' hc hd
      rw [← hpath, ← booted_walk m pf _ hp hf]
      apply h _ hcan
      simp only [pathOf, List.cons.injEq, and_true] at hpath
      rw [window_iff _ hcan, hpath.1, hpath.2.1, hpath.2.2.1]
      exact hn
    rw [← walk_leftover_iff]
    intro is hlen hj
    obtain ⟨rfl, h1, h2⟩ | ⟨rfl, h1, h2, h3⟩ | ⟨rfl, h1, h2⟩ := hl
    · obtain ⟨b, c, d, rfl⟩ := List.length_eq_three.mp hlen
      simp only [List.mem_cons, List.not_mem_nil, or_false, forall_eq_or_imp, forall_eq] at hj
      exact hva i b c d (by omega) hj.1 hj.2.1 hj.2.2 (by omega)
    · obtain ⟨c, d, rfl⟩ := List.length_eq_two.mp hlen
      simp only [List.mem_cons, List.not_mem_nil, or_false, forall_eq_or_imp, forall_eq] at hj
      have hw := hva 511 i c d (by omega) h3 hj.1 hj.2 (by omega)
      rw [walk_pml4 m pf _ hb] at hw
      exact Option.map_eq_none_iff.mp hw
    · obtain ⟨d, rfl⟩ := List.length_eq_one_iff.mp hlen
      have hw := hva 511 510 i d (by omega) (by omega) h2 (hj d (by simp)) (by omega)
      rw [walk_pml4 m pf _ hb, walk_pdp m pf _ hb] at hw
      exact Option.map_eq_none_iff.mp (Option.map_eq_none_iff.mp hw)
  · intro h va hcan hw
    rw [booted_walk m pf va hp hf, pathOf]
    rw [window_iff va hcan] at hw
    have hlt := pathOf_lt va
    simp only [pathOf, List.mem_cons, List.not_mem_nil, or_false, forall_eq_or_imp,
      forall_eq] at hlt
    obtain ⟨ha, hb', hc, hd⟩ := hlt
    have dead (k i : Nat) (hl : Leftover k i) := (walk_leftover_iff m pf k i).mpr (h k i hl)
    by_cases h4 : getPml4Offset va = 511
    · rw [h4, walk_pml4 m pf _ hb, Option.map_eq_none_iff]
      by_cases h3 : getPdpOffset va = 510
      · rw [h3, walk_pdp m pf _ hb, Option.map_eq_none_iff]
        exact dead 2 _ (Or.inr (Or.inr ⟨rfl, by omega, hc⟩)) _ rfl (by simp [hd])
      · by_cases h1 : getPdpOffset va = 1
        · apply RadixTable.walk_cons_none
          rw [h1, afterBoot_pool]
          exact next_of_even _ (by simp [image]; omega)
        · exact dead 1 _ (Or.inr (Or.inl ⟨rfl, h1, h3, hb'⟩)) _ rfl (by simp [hc, hd])
    · by_cases h49 : 49 ≤ getPml4Offset va
      · exact dead 0 _ (Or.inl ⟨rfl, h49, by omega⟩) _ rfl (by simp [hb', hc, hd])
      · apply RadixTable.walk_cons_none
        rw [afterBoot_pool]
        rw [image, if_pos rfl, if_neg h4, if_pos (by omega)]
        exact next_of_even 0 rfl

theorem gridOf_zero (pf k i : Nat) : gridOf (fun _ => 0) pf k i = 0 :=
  load_zero _ _ _ fun _ _ _ => rfl

theorem leftover_zero (pf k i : Nat) (h : Leftover k i) (h0 : ¬(k = 1 ∧ i = 0)) :
    image pf (gridOf (fun _ => 0) pf) k i = 0 := by
  obtain ⟨rfl, h1, h2⟩ | ⟨rfl, h1, h2, h3⟩ | ⟨rfl, h1, h2⟩ := h
  · rw [image, if_pos rfl, if_neg (by omega), if_neg (by omega), gridOf_zero, gridOf_zero,
      high32_zero, ite_self]
  · simp only [true_and] at h0
    simp [image, h0, h1, h2, gridOf_zero]
  · have ha : ¬i = 0 := by omega
    have hb : ¬i = 1 := by omega
    have hc : ¬i < 49 := by omega
    simp [image, ha, hb, hc, gridOf_zero]

/-- On zeroed RAM the one leftover entry with its present bit set is slot 0 of the PDP, and
it names page 0. -/
theorem deadEnd_zero (pf k i : Nat) (hpf : 4096 ≤ pf) (h : Leftover k i) :
    DeadEnd (fun _ => 0) pf k i := by
  intro q hq is hlen hj
  by_cases h0 : k = 1 ∧ i = 0
  · obtain ⟨rfl, rfl⟩ := h0
    have he : image pf (gridOf (fun _ => 0) pf) 1 0 = 0 + 1 := by simp [image, gridOf_zero]
    rw [he, next_add 0 1 rfl (by norm_num) rfl] at hq
    cases hq
    obtain ⟨c, d, rfl⟩ := List.length_eq_two.mp hlen
    have hc : c < 512 := hj c (by simp)
    apply RadixTable.walk_cons_none
    rw [afterBoot, if_pos (by unfold pool; omega), belowOf, if_neg (by omega)]
    exact next_of_even _ (by rw [load64, load_zero _ _ _ fun _ _ _ => rfl])
  · rw [leftover_zero pf k i h h0] at hq
    cases hq

theorem booted_window_only_clean :
    0x300000 % 4096 = 0 ∧
    ∀ va, Canonical va → ¬(virtBase ≤ va ∧ va < virtBase + 49*0x200000) →
      walk (booted (fun _ => 0) 0x300000).mem (booted (fun _ => 0) 0x300000).cr3 va = none :=
  ⟨by norm_num, (booted_window_only_iff (fun _ => 0) 0x300000 (by norm_num) (by norm_num)).mpr
    fun k i => deadEnd_zero 0x300000 k i (by norm_num)⟩

/-- RAM that is zero but for one word, left where the directory's slot 49 will be. -/
def strayRam : Mem :=
  store64 (fun _ => 0) (pool 0x300000 + 4096*2 + 8*49) (pool 0x300000 + 4096*4 + 3)

theorem booted_stray_mapped :
    Canonical (virtBase + 49*0x200000) ∧
    ¬(virtBase ≤ virtBase + 49*0x200000 ∧ virtBase + 49*0x200000 < virtBase + 49*0x200000) ∧
    walk (booted strayRam 0x300000).mem (booted strayRam 0x300000).cr3
      (virtBase + 49*0x200000) =
        some [pool 0x300000 + 4096*1 + 3, pool 0x300000 + 4096*2 + 3, pool 0x300000 + 4096*4 + 3,
          3] := by
  have hb : pool 0x300000 % 4096 = 0 := pool_aligned (by norm_num)
  have hv : virtBase + 49*0x200000 = vaOf 511 510 49 0 := by norm_num [virtBase, vaOf]
  have hstray : image 0x300000 (gridOf strayRam 0x300000) 2 49 = pool 0x300000 + 4096*4 + 3 := by
    simp only [image, gridOf]
    exact load64_store64_same _ _ _ (by norm_num [pool])
  have h1 := (afterBoot_pool strayRam 0x300000 4 0).trans (image_pt 0x300000 _ 0 0 (by norm_num))
  refine ⟨?_, fun h => lt_irrefl _ h.2, ?_⟩
  · rw [hv]
    exact canonical_vaOf 511 510 49 0 (by norm_num) (by norm_num) (by norm_num) (by norm_num)
  · rw [booted_walk _ _ _ (by norm_num) (by norm_num), hv,
      pathOf_vaOf 511 510 49 0 (by norm_num) (by norm_num) (by norm_num) (by norm_num),
      walk_pml4 _ _ _ hb, walk_pdp _ _ _ hb,
      walk_linked _ (by norm_num [pool]) ((afterBoot_pool _ _ _ _).trans hstray),
      RadixTable.walk_cons_some _ _ _ (h1 ▸ next_add _ 3 (by norm_num) (by norm_num) rfl), h1,
      RadixTable.walk]
    rfl

end SBUnix
