import SBUnix.Paging.Boot

namespace SBUnix

open ByteMemory Word

/-- Physical address of the first page of the pool, right above the freelist array. -/
def pool (pf : Nat) : Nat := pf + 0x18000

theorem pool_aligned {pf : Nat} (h : pf % 4096 = 0) : pool pf % 4096 = 0 := by
  unfold pool
  omega

/-- Memory as words: `B` at the aligned addresses below `base`, and from there on a grid
of pages with 512 slots each. -/
structure Words (base : Nat) (m : Mem) (B : Nat → Nat) (G : Nat → Nat → Nat) : Prop where
  below : ∀ a, a % 8 = 0 → a + 8 ≤ base → load64 m a = B a
  grid : ∀ k i, i < 512 → load64 m (base + 4096*k + 8*i) = G k i

def put (G : Nat → Nat → Nat) (k i v : Nat) : Nat → Nat → Nat :=
  fun k' i' => if k' = k ∧ i' = i then v else G k' i'

theorem put_apply (G : Nat → Nat → Nat) (k i v k' i' : Nat) :
    put G k i v k' i' = if k' = k ∧ i' = i then v else G k' i' := rfl

section Words

variable {base : Nat} {m : Mem} {B : Nat → Nat} {G : Nat → Nat → Nat}

theorem Words.congr {G' : Nat → Nat → Nat} (w : Words base m B G)
    (h : ∀ k i, i < 512 → G k i = G' k i) : Words base m B G' :=
  ⟨w.below, fun k i hi => (w.grid k i hi).trans (h k i hi)⟩

/-- Any store that touches only slot `i` of page `k`. -/
theorem Words.update (w : Words base m B G) (m' : Mem) (k i v : Nat)
    (hsame : load64 m' (base + 4096*k + 8*i) = v) (hi : i < 512)
    (hkeep : ∀ a, a+8 ≤ base + 4096*k + 8*i ∨ base + 4096*k + 8*i + 8 ≤ a →
      load64 m' a = load64 m a) : Words base m' B (put G k i v) := by
  constructor
  · intro a ha hb
    rw [hkeep a (by omega), w.below a ha hb]
  · intro k' i' hi'
    rw [put_apply]
    split_ifs with h
    · rw [h.1, h.2, hsame]
    · rw [hkeep _ (by omega), w.grid k' i' hi']

theorem Words.setEntry (w : Words base m B G) (k i a perm : Nat) (hi : i < 512)
    (ha : a % 4096 = 0) (hp : perm < 4096) (hlt : a < 2^63) :
    Words base (setEntry m (base + 4096*k + 8*i) a perm) B (put G k i (a+perm)) := by
  apply w.update _ k i _ _ hi
  · intro b hb
    rw [SBUnix.setEntry, load64_store64_apart _ _ _ _ hb, load64_store64_apart _ _ _ _ hb]
  · have hor : a ||| perm = a + perm := or_of_aligned 12 a perm ha hp
    rw [SBUnix.setEntry, load64_store64_same _ _ a (by omega), hor,
      load64_store64_same _ _ _ (by omega)]

theorem Words.setPdFree (w : Words base m B G) (k v : Nat) (hv : v < 2) :
    Words base (setPdFree m (base + 4096*k) v) B (put G k 0 (G k 0 / 2 * 2 + v)) := by
  have h0 := w.grid k 0 (by omega)
  rw [Nat.mul_zero, Nat.add_zero] at h0
  have hb : load m 1 (base + 4096*k) = G k 0 % 256 := by
    rw [load_low m 1 7, ← h0, load64]
    norm_num
  apply w.update _ k 0 _ _ (by omega)
  · intro a ha
    exact load_store_apart _ _ _ _ _ _ (by omega)
  · rw [Nat.mul_zero, Nat.add_zero, SBUnix.setPdFree, hb, load64_store8 _ _ _ (by omega), h0]
    omega

def high32 (g : Nat) : Nat := g / 2^32 * 2^32
def low32 (g : Nat) : Nat := g % 2^32

theorem high32_zero : high32 0 = 0 := by simp [high32]
theorem low32_high32 (g : Nat) : low32 (high32 g) = 0 := by unfold low32 high32; omega
theorem high32_bit (g : Nat) : high32 (g/2*2+1) = high32 g := by unfold high32; omega

/-- `freelist[t] = 0` while `freelist` still points at the first pool page. -/
def halve (G : Nat → Nat → Nat) (t : Nat) : Nat → Nat → Nat :=
  put G 0 (t/2) (if t % 2 = 0 then high32 (G 0 (t/2)) else low32 (G 0 (t/2)))

theorem Words.halve (w : Words base m B G) (t : Nat) (ht : t < 1024) :
    Words base (store32 m (base + 4*t) 0) B (halve G t) := by
  have h0 := w.grid 0 (t/2) (by omega)
  apply w.update _ 0 (t/2) _ _ (by omega)
  · intro a ha
    exact load_store_apart _ _ _ _ _ _ (by omega)
  · rcases Nat.mod_two_eq_zero_or_one t with he | ho
    · rw [if_pos he, show base + 4*t = base + 4096*0 + 8*(t/2) by omega,
        load64_store32_low _ _ _ (by norm_num), h0, high32, Nat.zero_add, Nat.mul_comm]
    · rw [if_neg (by omega), show base + 4*t = base + 4096*0 + 8*(t/2) + 4 by omega,
        load64_store32_high _ _ _ (by norm_num), h0, low32, Nat.mul_zero, Nat.add_zero]

/-- A run of PTEs: slots `j` to `j+n-1` of page `k` map consecutive pages from `addr`. -/
def filled (G : Nat → Nat → Nat) (k j n addr : Nat) : Nat → Nat → Nat :=
  fun k' i => if k' = k ∧ j ≤ i ∧ i < j+n then addr + 4096*(i-j) + 3 else G k' i

theorem Words.mapPages (n : Nat) (w : Words base m B G) (k j virt addr : Nat)
    (hj : virt / 4096 % 512 = j) (hn : j + n ≤ 512) (hv : virt + n*4096 < 2^64)
    (ha : addr % 4096 = 0) (hlt : addr + n*4096 < 2^63) :
    Words base (mapPages n m (base + 4096*k) virt addr).1 B (filled G k j n addr) ∧
    (SBUnix.mapPages n m (base + 4096*k) virt addr).2 = addr + n*4096 := by
  induction n generalizing m G virt addr j with
  | zero =>
    refine ⟨w.congr ?_, by simp [SBUnix.mapPages]⟩
    intro k' i _
    rw [filled, if_neg (by omega)]
  | succ n ih =>
    have hoff : getPtOffset virt = j := by rw [getPtOffset_eq]; exact hj
    have hw := w.setEntry k j addr kernPermBits (by omega) ha (by decide) (by omega)
    rw [SBUnix.mapPages, hoff, add64_pageSize virt (by omega), add64_pageSize addr (by omega)]
    by_cases hlast : n = 0
    · subst hlast
      refine ⟨hw.congr ?_, by simp [SBUnix.mapPages]⟩
      intro k' i _
      simp only [put, filled, kernPermBits]
      split_ifs <;> omega
    · obtain ⟨h1, h2⟩ := ih hw (j+1) (virt+4096) (addr+4096) (by omega) (by omega) (by omega)
        (by omega) (by omega)
      refine ⟨h1.congr ?_, by rw [h2]; ring⟩
      intro k' i _
      simp only [put, filled, kernPermBits]
      split_ifs <;> omega

theorem mapInitial_eq (n : Nat) (limit pt virt addr : Nat) (m : Mem)
    (h : addr + n*4096 = limit + 4096) (hl : limit + 8192 < 2^64) :
    mapInitial limit m pt virt addr = (mapPages n m pt virt addr).1 := by
  induction n generalizing m virt addr with
  | zero =>
    rw [mapInitial, if_neg (by omega)]
    rfl
  | succ n ih =>
    rw [mapInitial, if_pos (by omega), mapPages]
    rw [add64_pageSize addr (by omega), show addr + pageSize = addr + 4096 by rfl]
    exact ih _ _ _ (by omega)

theorem Words.linkKern (w : Words base m B G) (km kp kd kt virt : Nat)
    (hb : base % 4096 = 0) (hlt : base + 4096*(kp+kd+kt) < 2^63) :
    Words base (linkKern m (base + 4096*km) (base + 4096*kp) (base + 4096*kd)
        (base + 4096*kt) virt) B
      (put (put (put G kd (virt / 2^21 % 512) (base + 4096*kt + 3))
        kp (virt / 2^30 % 512) (base + 4096*kd + 3))
        km (virt / 2^39 % 512) (base + 4096*kp + 3)) := by
  have h1 := w.setEntry kd (virt / 2^21 % 512) (base + 4096*kt) kernPermBits
    (by omega) (by omega) (by decide) (by omega)
  have h2 := h1.setEntry kp (virt / 2^30 % 512) (base + 4096*kd) kernPermBits
    (by omega) (by omega) (by decide) (by omega)
  have h3 := h2.setEntry km (virt / 2^39 % 512) (base + 4096*kp) kernPermBits
    (by omega) (by omega) (by decide) (by omega)
  rw [SBUnix.linkKern, getPdOffset_eq, getPdpOffset_eq, getPml4Offset_eq]
  exact h3

theorem Words.setPagesLoop (left : Nat) (w : Words base m B G) (j e : Nat)
    (he : j+left ≤ e) (hb : base + 4096*e < 2^64) :
    Words base (setPagesLoop left m (base + 4096*j)) B (fun k i =>
      if j ≤ k ∧ k+1 < j+left then
        if i = 0 then G k 0 / 2 * 2 else if i = 1 then base + 4096*(k+1) else G k i
      else if j ≤ k ∧ k+1 = j+left ∧ i = 1 then 0 else G k i) := by
  induction left generalizing m G j with
  | zero =>
    apply w.congr
    intro k i _
    rw [if_neg (by omega), if_neg (by omega)]
  | succ left ih =>
    cases left with
    | zero =>
      have hs := w.update (store64 m (base + 4096*j + 8) 0) j 1 0
        (load64_store64_same _ _ _ (by norm_num)) (by omega)
        (fun a ha => load64_store64_apart _ _ _ _ ha)
      apply hs.congr
      intro k i _
      rw [put_apply]
      split_ifs <;> omega
    | succ left =>
      have h1 := w.update (store64 m (base + 4096*j + 8) (base + 4096*(j+1))) j 1 _
        (load64_store64_same _ _ _ (by omega)) (by omega)
        (fun a ha => load64_store64_apart _ _ _ _ ha)
      have h2 := h1.setPdFree j free (by decide)
      have hn := h2.grid j 1 (by omega)
      rw [put_apply, if_neg (by omega), put_apply, if_pos ⟨rfl,rfl⟩, Nat.mul_one] at hn
      rw [SBUnix.setPagesLoop]
      simp only [pageDescSize, pdescPgInc]
      rw [show base + 4096*j + 4096 = base + 4096*(j+1) by ring, hn]
      apply (ih h2 (j+1) (by omega)).congr
      intro k i _
      by_cases hk : k = j
      · subst hk
        have h1 : ¬k+1 ≤ k := by omega
        have h2 : k+1 < k+(left+1+1) := by omega
        by_cases h0 : i = 0
        · simp [put_apply, free, h0, h1, h2]
        · simp [put_apply, h0, h1, h2]
      · simp only [put_apply, hk, false_and, if_false]
        split_ifs <;> omega

theorem fillFreelist_snd (n : Nat) (m : Mem) (p : Nat) : (fillFreelist n m p).2 = p + 4*n := by
  induction n generalizing m p with
  | zero => rfl
  | succ n ih => rw [fillFreelist, ih]; ring

theorem fillFreelist_outside (n : Nat) (m : Mem) (p x : Nat) (h : x < p ∨ p + 4*n ≤ x) :
    (fillFreelist n m p).1 x = m x := by
  induction n generalizing m p with
  | zero => rfl
  | succ n ih =>
    rw [fillFreelist, ih _ _ (by omega)]
    exact store_outside _ _ _ _ _ (by omega)

theorem fillFreelist_inside (n : Nat) (m : Mem) (p j : Nat) (h : j < n) :
    load32 (fillFreelist n m p).1 (p + 4*j) = 1 := by
  induction n generalizing m p j with
  | zero => omega
  | succ n ih =>
    rw [fillFreelist]
    cases j with
    | zero =>
      have hk : load32 (fillFreelist n (store32 m p 1) (p+4)).1 p = load32 (store32 m p 1) p := by
        apply load_congr
        intro x hl hu
        exact fillFreelist_outside _ _ _ _ (by omega)
      rw [Nat.mul_zero, Nat.add_zero p, hk]
      exact load_store_same m 4 p 1
    | succ j =>
      rw [show p + 4*(j+1) = p + 4 + 4*j by ring]
      exact ih _ _ _ (by omega)

/-- Two neighbouring `unsigned` cells of the fresh freelist, read as one word. -/
theorem fillFreelist_word (n : Nat) (m : Mem) (p a : Nat) (hp : p % 8 = 0) (hn : n % 2 = 0)
    (ha : a % 8 = 0) (hl : p ≤ a) (hu : a < p + 4*n) :
    load64 (fillFreelist n m p).1 a = 0x100000001 := by
  have h1 := fillFreelist_inside n m p ((a-p)/4) (by omega)
  have h2 := fillFreelist_inside n m p ((a-p)/4+1) (by omega)
  rw [show p + 4*((a-p)/4) = a by omega] at h1
  rw [show p + 4*((a-p)/4+1) = a + 4 by omega] at h2
  rw [load32] at h1 h2
  rw [load64, load_add _ 4 4, h1, h2]
  norm_num

end Words

end SBUnix
