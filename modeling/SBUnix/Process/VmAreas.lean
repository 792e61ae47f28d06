import SBUnix.Process.LoadSegment

namespace SBUnix

open CString Word BumpAllocator

/-- The nodes from `p` to the end of the list. -/
inductive Chain (vma : Nat → VmArea) : Option Nat → List Nat → Prop where
  | nil : Chain vma none []
  | cons {a : Nat} {nodes : List Nat} (h : Chain vma (vma a).vmNext nodes) :
      Chain vma (some a) (a::nodes)

theorem Chain.unique {vma : Nat → VmArea} {p : Option Nat} {xs ys : List Nat}
    (hx : Chain vma p xs) (hy : Chain vma p ys) : xs = ys := by
  induction hx generalizing ys with
  | nil =>
    cases hy with
    | nil => rfl
  | cons _ ih =>
    cases hy with
    | cons h => rw [ih h]

/-- Two areas share no address. -/
def Segment.Apart (x y : Segment) : Prop := x.vmEnd ≤ y.vmStart ∨ y.vmEnd ≤ x.vmStart

instance (x y : Segment) : Decidable (x.Apart y) := inferInstanceAs (Decidable (_ ∨ _))

/-- The areas of an mm: their ranges do not meet, their nodes are in the page the list begins
with, and `count` counts each loaded segment once. -/
structure VmSound (s : Loader) (a : Nat) (nodes : List Nat) : Prop where
  chain : Chain s.vma (s.mm a).mmap nodes
  apart : (nodes.map fun n => (s.vma n).seg).Pairwise Segment.Apart
  inside : ∀ head, (s.mm a).mmap = some head → ∀ n ∈ nodes, head ≤ n ∧ n + vmaSize ≤ head + pageSize
  count : (s.mm a).count = (nodes.map fun n => (s.vma n).seg).dedup.length

/-- What a list may hold: 56 nodes are what fits into a page. -/
structure Fit (segs : List Segment) : Prop where
  room : segs.length ≤ pageSize / vmaSize
  apart : segs.Pairwise Segment.Apart
  distinct : segs.Nodup

/-- The list at `base` holds exactly these areas, each node right behind the one before. -/
structure Holds (s : Loader) (a base : Nat) (segs : List Segment) : Prop where
  count : (s.mm a).count = segs.length
  head : (s.mm a).mmap = if segs = [] then none else some base
  node : ∀ i (h : i < segs.length), s.vma (base + vmaSize*i) =
    ⟨segs.get ⟨i, h⟩, if i+1 < segs.length then some (base + vmaSize*(i+1)) else none⟩

theorem Holds.lastVma {s : Loader} {a base : Nat} {segs : List Segment}
    (h : Holds s a base segs) (n i : Nat) (hi : i < segs.length) (hn : segs.length ≤ n+i) :
    SBUnix.lastVma s.vma n (base + vmaSize*i) = some (base + vmaSize*(segs.length-1)) := by
  induction n generalizing i with
  | zero => omega
  | succ n ih =>
    rw [SBUnix.lastVma, h.node i hi]
    by_cases hl : i+1 < segs.length
    · simp only [if_pos hl]
      exact ih (i+1) hl (by omega)
    · have he : i = segs.length-1 := by omega
      simp only [if_neg hl]
      rw [he]

/-- The head as the node a loop over the list begins with. -/
theorem Holds.head_node {s : Loader} {a base : Nat} {segs : List Segment}
    (h : Holds s a base segs) :
    (s.mm a).mmap = if 0 < segs.length then some (base + vmaSize*0) else none := by
  rw [h.head]
  cases segs <;> simp

theorem Holds.chain_from {s : Loader} {a base : Nat} {segs : List Segment}
    (h : Holds s a base segs) (k i : Nat) (hk : i + k = segs.length) :
    Chain s.vma (if i < segs.length then some (base + vmaSize*i) else none)
      ((List.range' i k).map fun j => base + vmaSize*j) := by
  induction k generalizing i with
  | zero =>
    rw [if_neg (by omega)]
    exact Chain.nil
  | succ k ih =>
    rw [if_pos (by omega), List.range'_succ, List.map_cons]
    refine Chain.cons ?_
    rw [h.node i (by omega)]
    exact ih (i+1) (by omega)

/-- The nodes of a list of `n` areas. -/
def nodesAt (base n : Nat) : List Nat := (List.range' 0 n).map fun j => base + vmaSize*j

theorem Holds.chain {s : Loader} {a base : Nat} {segs : List Segment}
    (h : Holds s a base segs) : Chain s.vma (s.mm a).mmap (nodesAt base segs.length) := by
  have hc := h.chain_from segs.length 0 (by omega)
  rw [h.head]
  cases segs with
  | nil => exact hc
  | cons x xs =>
    rw [if_pos (by simp), Nat.mul_zero, Nat.add_zero] at hc
    rw [if_neg (by simp)]
    exact hc

theorem Holds.segs_eq {s : Loader} {a base : Nat} {segs : List Segment}
    (h : Holds s a base segs) :
    (nodesAt base segs.length).map (fun n => (s.vma n).seg) = segs := by
  apply List.ext_get
  · simp [nodesAt]
  · intro i h1 h2
    simp [nodesAt, h.node i h2]

theorem Holds.sound {s : Loader} {a base : Nat} {segs : List Segment}
    (h : Holds s a base segs) (hf : Fit segs) : VmSound s a (nodesAt base segs.length) := by
  refine ⟨h.chain, ?_, ?_, ?_⟩
  · rw [h.segs_eq]
    exact hf.apart
  · intro head hh n hn
    have hroom : segs.length ≤ 56 := hf.room
    obtain ⟨i, hi, rfl⟩ := List.mem_map.mp hn
    have hi := (List.mem_range'_1.mp hi).2
    have hne : segs ≠ [] := by
      intro hnil
      simp [hnil] at hi
    rw [h.head, if_neg hne] at hh
    cases hh
    unfold vmaSize pageSize
    omega
  · rw [h.segs_eq, hf.distinct.dedup, h.count]

theorem Holds.congr {s t : Loader} {a base : Nat} {segs : List Segment} (h : Holds s a base segs)
    (hm : t.mm a = s.mm a)
    (hv : ∀ i < segs.length, t.vma (base + vmaSize*i) = s.vma (base + vmaSize*i)) :
    Holds t a base segs :=
  ⟨by rw [hm, h.count], by rw [hm, h.head], fun i hi => by rw [hv i hi, h.node i hi]⟩

theorem int32_succ (n : Nat) (h : n < 56) : int32 ((n : Int) + 1) = (n+1 : Nat) := by
  rw [← int32_of_lt (show n+1 < 2^31 by omega), Nat.cast_succ]

/-- The first area of an mm: a page for the list. -/
theorem addArea_first {s : Loader} {a base : Nat} (h : Holds s a base []) (seg : Segment) :
    ∃ t, addArea a seg s = some t ∧ t.kern = (kmalloc vmaSize s.kern).2 ∧
      Holds t a (kmalloc vmaSize s.kern).1 [seg] ∧ (∀ b, b ≠ a → t.mm b = s.mm b) ∧
      ∀ x, x ≠ (kmalloc vmaSize s.kern).1 → t.vma x = s.vma x := by
  have hc : int32 ((s.mm a).count + 1) = 1 := by
    rw [h.count]
    exact int32_succ 0 (by omega)
  refine ⟨_, by rw [addArea, mallocVma, h.head]; rfl, rfl, ⟨?_, ?_, ?_⟩, ?_, ?_⟩
  · simp [hc]
  · simp
  · intro i hi
    obtain rfl : i = 0 := by simpa using hi
    simp
  · intro b hb
    simp [hb]
  · intro x hx
    simp [hx]

/-- Any other one: the 72 bytes behind the last. -/
theorem addArea_next {s : Loader} {a base : Nat} {segs : List Segment} (h : Holds s a base segs)
    (hne : segs ≠ []) (hlen : segs.length < 56) (hb : base + pageSize ≤ 2^64) (seg : Segment) :
    ∃ t, addArea a seg s = some t ∧ t.kern = s.kern ∧
      Holds t a base (segs++[seg]) ∧ (∀ b, b ≠ a → t.mm b = s.mm b) ∧
      ∀ x, (∀ i ≤ segs.length, x ≠ base + vmaSize*i) → t.vma x = s.vma x := by
  have hpos : 0 < segs.length := List.length_pos_iff.mpr hne
  have hc : int32 ((s.mm a).count + 1) = (segs.length+1 : Nat) := by
    rw [h.count, int32_succ _ hlen]
  have hlast : lastVma s.vma ((s.mm a).count.toNat + 1) base =
      some (base + vmaSize*(segs.length-1)) := by
    have hl := h.lastVma (segs.length+1) 0 hpos (by omega)
    rw [h.count, Int.toNat_natCast]
    simpa using hl
  have hnew : add64 (base + vmaSize*(segs.length-1)) vmaSize = base + vmaSize*segs.length := by
    unfold vmaSize pageSize at *
    rw [add64_of_lt _ _ (by omega)]
    omega
  have hadd : addArea a seg s = some { s with
      vma := Function.update (Function.update s.vma (base + vmaSize*(segs.length-1))
        { s.vma (base + vmaSize*(segs.length-1)) with
          vmNext := some (base + vmaSize*segs.length) })
        (base + vmaSize*segs.length) ⟨seg, none⟩
      mm := Function.update s.mm a ⟨some base, int32 ((s.mm a).count + 1)⟩ } := by
    rw [addArea, mallocVma, h.head, if_neg hne]
    simp only [hlast, hnew, Option.map_some]
  refine ⟨_, hadd, rfl, ⟨?_, ?_, ?_⟩, ?_, ?_⟩
  · simp [hc]
  · simp
  · intro i hi
    have hi' : i < segs.length+1 := by simpa using hi
    have hstep (j k : Nat) (hjk : j ≠ k) : base + vmaSize*j ≠ base + vmaSize*k := by
      unfold vmaSize
      omega
    dsimp only
    -- the new node, the one that was last, and those before it
    rcases Nat.lt_succ_iff_lt_or_eq.mp hi' with hlt | rfl
    · rw [Function.update_of_ne (hstep i segs.length (by omega))]
      have hin : i+1 < (segs++[seg]).length := by
        rw [List.length_append, List.length_singleton]
        omega
      have hget : (segs++[seg]).get ⟨i, hi⟩ = segs.get ⟨i, hlt⟩ := List.getElem_append_left hlt
      rw [hget, if_pos hin]
      by_cases hl : i = segs.length-1
      · have hend : i+1 = segs.length := by omega
        rw [← hl, Function.update_self, h.node i hlt, hend]
      · rw [Function.update_of_ne (hstep i (segs.length-1) hl), h.node i hlt, if_pos (by omega)]
    · simp
  · intro b hb'
    simp [hb']
  · intro x hx
    have h1 := hx segs.length (by omega)
    have h2 := hx (segs.length-1) (by omega)
    simp [h1, h2]

/-- Every mm with its list: the list's page is the mm's own. -/
structure Areas (s : Loader) (mms : List Nat) (base : Nat → Nat) (segs : Nat → List Segment) :
    Prop where
  holds : ∀ a ∈ mms, Holds s a (base a) (segs a)
  room : ∀ a ∈ mms, (segs a).length ≤ 56
  page : ∀ a ∈ mms, segs a ≠ [] →
    base a ∈ s.kern.pools.pages ∧ base a % pageSize = 0 ∧ base a < 2^64
  apart : ∀ a ∈ mms, ∀ b ∈ mms, a ≠ b → segs a ≠ [] → segs b ≠ [] → base a ≠ base b
  mapped : ∀ a ∈ mms, a ∈ s.kern.pools.pages
  cursor : s.kern.pools.cursor % pageSize = 0

section Step

variable {s t : Loader} {mms : List Nat} {base : Nat → Nat} {segs : Nat → List Segment} {a : Nat}

/-- Steps that leave the lists alone. -/
theorem Areas.later (h : Areas s mms base segs) (hl : s.kern.pools.Later t.kern.pools)
    (hv : t.vma = s.vma) (hm : t.mm = s.mm) : Areas t mms base segs where
  holds b hb := (h.holds b hb).congr (by rw [hm]) (fun i _ => by rw [hv])
  room := h.room
  page b hb hne := ⟨hl.pages_subset (h.page b hb hne).1, (h.page b hb hne).2⟩
  apart := h.apart
  mapped b hb := hl.pages_subset (h.mapped b hb)
  cursor := hl.aligned h.cursor

/-- Nodes in different pages are different. -/
theorem node_ne {p q i j : Nat} (hp : p % pageSize = 0) (hq : q % pageSize = 0) (hne : p ≠ q)
    (hi : i < 56) (hj : j < 56) : p + vmaSize*i ≠ q + vmaSize*j := by
  unfold pageSize vmaSize at *
  omega

theorem page_end {p : Nat} (hp : p % pageSize = 0) (hlt : p < 2^64) : p + pageSize ≤ 2^64 := by
  unfold pageSize at *
  omega

/-- Where the list of `a` is after one more area. -/
theorem Areas.add_base (h : Areas s mms base segs) (ha : a ∈ mms) (hlen : (segs a).length < 56)
    {seg : Segment} (ht : addArea a seg s = some t) (hn : t.kern.pools.pages.Nodup) :
    ∃ p, Holds t a p (segs a ++ [seg]) ∧ (p ∈ t.kern.pools.pages ∧ p % pageSize = 0 ∧ p < 2^64) ∧
      (∀ b ∈ mms, b ≠ a → segs b ≠ [] → base b ≠ p) ∧ (∀ b, b ≠ a → t.mm b = s.mm b) ∧
      ∀ x, (∀ i ≤ (segs a).length, x ≠ p + vmaSize*i) → t.vma x = s.vma x := by
  by_cases hne : segs a = []
  · have hh := h.holds a ha
    rw [hne] at hh ⊢
    obtain ⟨u, hu, hk, hu1, hu2, hu3⟩ := addArea_first hh seg
    obtain rfl : u = t := Option.some.inj (hu.symm.trans ht)
    rw [hk] at hn ⊢
    obtain ⟨hin, hnew⟩ := kmalloc_fresh s.kern vmaSize hn
    refine ⟨_, hu1, ⟨hin, ?_, ?_⟩, ?_, hu2, fun x hx => hu3 x (by simpa using hx)⟩
    · have hc : s.kern.cursor % pageSize = 0 := h.cursor
      rw [kmalloc_fst]
      unfold add64 virtBase pageSize at *
      omega
    · rw [kmalloc_fst]
      exact add64_lt _ _
    · intro b hb _ hbne he
      rw [← he] at hnew
      exact hnew (h.page b hb hbne).1
  · obtain ⟨hp, hal, hlt⟩ := h.page a ha hne
    obtain ⟨u, hu, hk, hu1, hu2, hu3⟩ :=
      addArea_next (h.holds a ha) hne hlen (page_end hal hlt) seg
    obtain rfl : u = t := Option.some.inj (hu.symm.trans ht)
    rw [hk]
    exact ⟨base a, hu1, ⟨hp, hal, hlt⟩, fun b hb hba hbne => h.apart b hb a ha hba hbne hne,
      hu2, hu3⟩

/-- One more area for `a`, and every other list as it was. -/
theorem Areas.add (h : Areas s mms base segs) (ha : a ∈ mms) (hlen : (segs a).length < 56)
    {seg : Segment} (ht : addArea a seg s = some t) (hn : t.kern.pools.pages.Nodup) :
    ∃ p, Areas t mms (Function.update base a p) (Function.update segs a (segs a ++ [seg])) := by
  obtain ⟨p, hp, hpage, hap, hmm, hvma⟩ := h.add_base ha hlen ht hn
  have hl := addArea_later ht
  refine ⟨p, ?_, ?_, ?_, ?_, fun b hb => hl.pages_subset (h.mapped b hb),
    hl.aligned h.cursor⟩
  · intro b hb
    by_cases hba : b = a
    · subst hba
      simpa using hp
    · rw [Function.update_of_ne hba, Function.update_of_ne hba]
      refine (h.holds b hb).congr (hmm b hba) fun i hi => hvma _ fun j hj => ?_
      have hbne : segs b ≠ [] := List.ne_nil_of_length_pos (by omega)
      have hroom := h.room b hb
      exact node_ne (h.page b hb hbne).2.1 hpage.2.1 (hap b hb hba hbne) (by omega) (by omega)
  · intro b hb
    by_cases hba : b = a
    · subst hba
      simpa using hlen
    · rw [Function.update_of_ne hba]
      exact h.room b hb
  · intro b hb hbne
    by_cases hba : b = a
    · subst hba
      rwa [Function.update_self]
    · rw [Function.update_of_ne hba] at hbne ⊢
      exact ⟨hl.pages_subset (h.page b hb hbne).1, (h.page b hb hbne).2⟩
  · intro b hb c hc hbc hbne hcne
    by_cases hba : b = a
    · subst hba
      rw [Function.update_of_ne hbc.symm] at hcne ⊢
      rw [Function.update_self]
      exact (hap c hc hbc.symm hcne).symm
    · rw [Function.update_of_ne hba] at hbne ⊢
      by_cases hca : c = a
      · subst hca
        rw [Function.update_self]
        exact hap b hb hba hbne
      · rw [Function.update_of_ne hca] at hcne ⊢
        exact h.apart b hb c hc hbc hbne hcne

variable {start : Nat} {img : Bytes}

theorem Areas.loadProgram (h : Areas s mms base segs) (ha : a ∈ mms)
    (hlen : (segs a).length < 56) {elf : Nat} {ph : ProgramHeader}
    (ht : SBUnix.loadProgram start img elf a ph s = some t) (hn : t.kern.pools.pages.Nodup) :
    ∃ base', Areas t mms base' (Function.update segs a (segs a ++ [ph.segment elf])) := by
  obtain ⟨k, hk, ht⟩ := Option.bind_eq_some_iff.mp ht
  have hl : s.kern.pools.Later k.pools := by
    rw [fillSegment_pools hk]
    exact allocateRegions_later _ _ _
  have hs : Areas { s with kern := k } mms base segs := h.later hl rfl rfl
  obtain ⟨p, hp⟩ := hs.add ha hlen ht hn
  exact ⟨_, hp⟩

/-- The loop over the headers adds one area for each header it acts on, in their order. -/
theorem Areas.loadHeaders (h : Areas s mms base segs) (ha : a ∈ mms) {elf phoff n i : Nat}
    {phs : List ProgramHeader} (hphs : loadedHeaders start img elf phoff n i = some phs)
    (hlen : (segs a).length + phs.length ≤ 56)
    (ht : SBUnix.loadHeaders start img elf phoff a n i s = some t)
    (hn : t.kern.pools.pages.Nodup) :
    ∃ base', Areas t mms base'
      (Function.update segs a (segs a ++ phs.map (·.segment elf))) := by
  induction n generalizing s i base segs phs with
  | zero =>
    cases ht
    cases hphs
    refine ⟨base, ?_⟩
    simpa using h
  | succ n ih =>
    obtain ⟨ph, hph, ht⟩ := Option.bind_eq_some_iff.mp ht
    rw [loadedHeaders, hph, Option.bind_some] at hphs
    obtain ⟨rest, hrest, rfl⟩ := Option.map_eq_some_iff.mp hphs
    by_cases hty : ph.pType = elfProgLoad
    · rw [if_pos hty] at ht hlen ⊢
      rw [List.length_cons] at hlen
      obtain ⟨u, hu, ht⟩ := Option.bind_eq_some_iff.mp ht
      obtain ⟨base₁, h1⟩ := h.loadProgram ha (by omega) hu ((loadHeaders_later ht).nodup hn)
      obtain ⟨base₂, h2⟩ := ih h1 hrest (by simp; omega) ht
      refine ⟨base₂, ?_⟩
      simpa using h2
    · rw [if_neg hty] at ht hlen ⊢
      exact ih h hrest hlen ht

/-- load_segment on the task with this mm. -/
theorem Areas.loadSegment (h : Areas s mms base segs) {task : TaskImage} (ha : task.mm ∈ mms)
    {n : Nat} {file : Bytes} {r : TaskImage × Loader}
    (hr : SBUnix.loadSegment start img n task file s = some r)
    (hlen : ∀ new, fileSegments start img n file = some new →
      (segs task.mm).length + new.length ≤ 56)
    (hn : r.2.kern.pools.pages.Nodup) :
    ∃ new base', fileSegments start img n file = some new ∧
      Areas r.2 mms base' (Function.update segs task.mm (segs task.mm ++ new)) := by
  rcases loadSegment_cases hr with ⟨hnew, rfl⟩ | ⟨elf, entry, phoff, phnum, phs, u, hnew, hphs,
    hu, hset⟩
  · refine ⟨[], base, hnew, ?_⟩
    simpa using h
  · have hlen := hlen _ hnew
    rw [List.length_map] at hlen
    obtain ⟨hl, hv, hm⟩ := setHeap_frame hset
    obtain ⟨base', h'⟩ := h.loadHeaders ha hphs hlen hu (hl.later.nodup hn)
    exact ⟨_, base', hnew, h'.later hl.later hv hm⟩

/-- A round of the loop of fork_process, at node `i` of the parent, when the child has the first
`i` areas. -/
theorem Areas.copyStep (h : Areas s mms base segs) {parent child i : Nat} (hp : parent ∈ mms)
    (hc : child ∈ mms) (hne : parent ≠ child) (hlt : i < (segs parent).length)
    (htake : segs child = (segs parent).take i)
    (ht : addArea child (s.vma (base parent + vmaSize*i)).seg s = some t)
    (hn : t.kern.pools.pages.Nodup) :
    ∃ base', base' parent = base parent ∧
      Areas t mms base' (Function.update segs child ((segs parent).take (i+1))) ∧
      t.vma (base parent + vmaSize*i) = ⟨(segs parent).get ⟨i, hlt⟩,
        if i+1 < (segs parent).length then some (base parent + vmaSize*(i+1)) else none⟩ := by
  have hroom := h.room parent hp
  rw [(h.holds parent hp).node i hlt] at ht
  obtain ⟨p, h1⟩ := h.add hc (by rw [htake, List.length_take]; omega) ht hn
  have hholds := h1.holds parent hp
  rw [Function.update_of_ne hne, Function.update_of_ne hne] at hholds
  refine ⟨_, Function.update_of_ne hne p base, ?_, hholds.node i hlt⟩
  have hnext : segs child ++ [(segs parent).get ⟨i, hlt⟩] = (segs parent).take (i+1) := by
    rw [htake]
    exact List.take_concat_get' _ i hlt
  dsimp only at h1
  rwa [hnext] at h1

/-- A round of the loop, and the call that is left. -/
theorem Areas.copyRound (h : Areas s mms base segs) {parent child n i : Nat} (hp : parent ∈ mms)
    (hc : child ∈ mms) (hne : parent ≠ child) (hlt : i < (segs parent).length)
    (htake : segs child = (segs parent).take i)
    (ht : copyAreas start img child (n+1) (some (base parent + vmaSize*i)) s = some t)
    (hn : t.kern.pools.pages.Nodup) :
    ∃ u k base', addArea child (s.vma (base parent + vmaSize*i)).seg s = some u ∧
      copyWords start img ((segs parent).get ⟨i, hlt⟩) ((segs parent).get ⟨i, hlt⟩).vmMmsz 0
        u.kern = some k ∧
      Areas { u with kern := k } mms base'
        (Function.update segs child ((segs parent).take (i+1))) ∧
      copyAreas start img child n (if i+1 < (segs parent).length then
        some (base' parent + vmaSize*(i+1)) else none) { u with kern := k } = some t := by
  obtain ⟨u, hu, ht⟩ := Option.bind_eq_some_iff.mp ht
  obtain ⟨k, hk, ht⟩ := Option.bind_eq_some_iff.mp ht
  have hpools := copyWords_pools hk
  have hlater := copyAreas_later ht
  rw [hpools] at hlater
  obtain ⟨base', hbase, h1, hnode⟩ := h.copyStep hp hc hne hlt htake hu (hlater.nodup hn)
  have hkern : u.kern.pools.Later k.pools := by
    rw [hpools]
    exact Pools.Later.refl _
  rw [hnode] at hk ht
  rw [← hbase] at ht
  exact ⟨u, k, base', hu, hk, h1.later hkern rfl rfl, ht⟩

/-- The loop from node `i` on. -/
theorem Areas.copyFrom (h : Areas s mms base segs) {parent child : Nat} (hp : parent ∈ mms)
    (hc : child ∈ mms) (hne : parent ≠ child) {n i : Nat} (hi : i ≤ (segs parent).length)
    (htake : segs child = (segs parent).take i)
    (ht : copyAreas start img child n
      (if i < (segs parent).length then some (base parent + vmaSize*i) else none) s = some t)
    (hn : t.kern.pools.pages.Nodup) :
    ∃ base', Areas t mms base' (Function.update segs child (segs parent)) := by
  induction n generalizing s i base segs with
  | zero =>
    split_ifs at ht
    · cases ht
    · cases ht
      rw [List.take_of_length_le (by omega)] at htake
      exact ⟨base, by rwa [← htake, Function.update_eq_self]⟩
  | succ n ih =>
    split_ifs at ht with hlt
    · obtain ⟨u, k, base1, -, -, h2, ht⟩ := h.copyRound hp hc hne hlt htake ht hn
      obtain ⟨base', h3⟩ := ih (i := i+1) h2
        (by rwa [Function.update_of_ne hne])
        (by rw [Function.update_self, Function.update_of_ne hne])
        (by rwa [Function.update_of_ne hne])
      rw [Function.update_of_ne hne, Function.update_idem] at h3
      exact ⟨base', h3⟩
    · cases ht
      rw [List.take_of_length_le (by omega)] at htake
      exact ⟨base, by rwa [← htake, Function.update_eq_self]⟩

theorem Areas.newMm (h : Areas s mms base segs) (sz : Nat)
    (hn : (kmalloc sz s.kern).2.pools.pages.Nodup) :
    Areas { s with
      kern := (kmalloc sz s.kern).2
      mm := Function.update s.mm (kmalloc sz s.kern).1 ⟨none, 0⟩ }
      ((kmalloc sz s.kern).1 :: mms) base (Function.update segs (kmalloc sz s.kern).1 []) := by
  obtain ⟨hin, hnew⟩ := kmalloc_fresh s.kern sz hn
  have hl := kmalloc_later s.kern sz
  have hne (b : Nat) (hb : b ∈ mms) : b ≠ (kmalloc sz s.kern).1 := by
    rintro rfl
    exact hnew (h.mapped _ hb)
  generalize kmalloc sz s.kern = r at hin hnew hl hne ⊢
  refine ⟨?_, ?_, ?_, ?_, ?_, hl.aligned h.cursor⟩
  · intro b hb
    rcases List.mem_cons.mp hb with rfl | hb
    · rw [Function.update_self]
      exact ⟨by simp, by simp, fun i hi => absurd hi (by simp)⟩
    · rw [Function.update_of_ne (hne b hb)]
      exact (h.holds b hb).congr (by simp [hne b hb]) (fun i _ => rfl)
  · intro b hb
    rcases List.mem_cons.mp hb with rfl | hb
    · simp
    · rw [Function.update_of_ne (hne b hb)]
      exact h.room b hb
  · intro b hb hbne
    rcases List.mem_cons.mp hb with rfl | hb
    · simp at hbne
    · rw [Function.update_of_ne (hne b hb)] at hbne
      exact ⟨hl.pages_subset (h.page b hb hbne).1, (h.page b hb hbne).2⟩
  · intro b hb c hc hbc hbne hcne
    rcases List.mem_cons.mp hb with rfl | hb
    · simp at hbne
    · rcases List.mem_cons.mp hc with rfl | hc
      · simp at hcne
      · rw [Function.update_of_ne (hne b hb)] at hbne
        rw [Function.update_of_ne (hne c hc)] at hcne
        exact h.apart b hb c hc hbc hbne hcne
  · intro b hb
    rcases List.mem_cons.mp hb with rfl | hb
    · exact hin
    · exact hl.pages_subset (h.mapped b hb)

end Step

/-- Runs of the kernel as far as they concern the lists of areas, with the mm_structs there are.
`ok` is asked of every call of load_segment. -/
inductive LoaderRun (start : Nat) (img : Bytes) (ok : Loader → Nat → List Segment → Prop) :
    Loader → List Nat → Prop where
  | boot (s : Loader) (hc : s.kern.cursor % pageSize = 0) : LoaderRun start img ok s []
  /-- `mm = kmalloc(..)` of init_usr_pcb and fork_process. -/
  | newMm {s : Loader} {mms : List Nat} (h : LoaderRun start img ok s mms) (sz : Nat) :
      LoaderRun start img ok { s with
        kern := (kmalloc sz s.kern).2
        mm := Function.update s.mm (kmalloc sz s.kern).1 ⟨none, 0⟩ }
        ((kmalloc sz s.kern).1 :: mms)
  /-- load_segment, called by init_usr_pcb, exec, usr_schedule and yield. -/
  | load {s : Loader} {mms : List Nat} (h : LoaderRun start img ok s mms) (n : Nat)
      (task : TaskImage) (file : Bytes) (ha : task.mm ∈ mms)
      (hok : ∀ new, fileSegments start img n file = some new → ok s task.mm new)
      {r : TaskImage × Loader} (hr : loadSegment start img n task file s = some r) :
      LoaderRun start img ok r.2 mms
  /-- The loop of fork_process. -/
  | fork {s t : Loader} {mms : List Nat} (h : LoaderRun start img ok s mms)
      {parent child : Nat} (hp : parent ∈ mms) (hc : child ∈ mms)
      (hempty : (s.mm child).mmap = none) {n : Nat}
      (ht : copyAreas start img child n (s.mm parent).mmap s = some t) :
      LoaderRun start img ok t mms
  /-- Whatever else the kernel does, it takes its pages from the allocators. -/
  | other {s : Loader} {mms : List Nat} (h : LoaderRun start img ok s mms) (k : Kernel)
      (hk : s.kern.pools.Later k.pools) : LoaderRun start img ok { s with kern := k } mms

/-- The areas in the list and those of the file together fit. -/
def Fits (s : Loader) (a : Nat) (new : List Segment) : Prop :=
  ∀ nodes, Chain s.vma (s.mm a).mmap nodes → Fit ((nodes.map fun n => (s.vma n).seg) ++ new)

theorem Holds.fits {s : Loader} {a base : Nat} {segs new : List Segment}
    (h : Holds s a base segs) (hf : Fits s a new) : Fit (segs ++ new) := by
  have hfit := hf _ h.chain
  rwa [h.segs_eq] at hfit

theorem fit_nil : Fit [] := ⟨by simp, List.Pairwise.nil, List.nodup_nil⟩

theorem Holds.eq_nil {s : Loader} {a base : Nat} {segs : List Segment} (h : Holds s a base segs)
    (hm : (s.mm a).mmap = none) : segs = [] := by
  by_contra hne
  rw [h.head, if_neg hne] at hm
  cases hm

theorem Fit.update {mms : List Nat} {segs : Nat → List Segment} {a : Nat} {l : List Segment}
    (h : ∀ b ∈ mms, Fit (segs b)) (hl : Fit l) :
    ∀ b ∈ mms, Fit (Function.update segs a l b) := by
  intro b hb
  by_cases hba : b = a
  · subst hba
    rwa [Function.update_self]
  · rw [Function.update_of_ne hba]
    exact h b hb

theorem LoaderRun.areas {start : Nat} {img : Bytes} {s : Loader} {mms : List Nat}
    (h : LoaderRun start img Fits s mms) (hn : s.kern.pools.pages.Nodup) :
    ∃ base segs, Areas s mms base segs ∧ ∀ a ∈ mms, Fit (segs a) := by
  induction h with
  | boot s hc =>
    refine ⟨fun _ => 0, fun _ => [], ⟨?_, ?_, ?_, ?_, ?_, hc⟩, ?_⟩ <;>
      exact fun a ha => absurd ha (List.not_mem_nil)
  | @newMm s mms h sz ih =>
    dsimp only at hn
    obtain ⟨base, segs, hA, hF⟩ := ih ((kmalloc_later s.kern sz).nodup hn)
    refine ⟨base, _, hA.newMm sz hn, fun b hb => ?_⟩
    rcases List.mem_cons.mp hb with rfl | hb
    · rw [Function.update_self]
      exact fit_nil
    · exact Fit.update hF fit_nil b hb
  | @load s mms h n task file ha hok r hr ih =>
    obtain ⟨base, segs, hA, hF⟩ := ih ((loadSegment_later hr).nodup hn)
    have hfit (new : List Segment) (hnew : fileSegments start img n file = some new) :
        Fit (segs task.mm ++ new) := (hA.holds _ ha).fits (hok new hnew)
    obtain ⟨new, base', hnew, hA'⟩ := hA.loadSegment ha hr (fun new hnew => by
      have hroom : (segs task.mm ++ new).length ≤ 56 := (hfit new hnew).room
      rwa [List.length_append] at hroom) hn
    exact ⟨base', _, hA', Fit.update hF (hfit new hnew)⟩
  | @fork s t mms h parent child hp hc hempty n ht ih =>
    obtain ⟨base, segs, hA, hF⟩ := ih ((copyAreas_later ht).nodup hn)
    have hnil := (hA.holds _ hc).eq_nil hempty
    by_cases hne : parent = child
    · subst hne
      rw [hempty, copyAreas] at ht
      cases ht
      exact ⟨base, segs, hA, hF⟩
    · rw [(hA.holds _ hp).head_node] at ht
      obtain ⟨base', hA'⟩ := hA.copyFrom hp hc hne (i := 0) (by omega)
        (by rw [hnil, List.take_zero]) ht hn
      exact ⟨base', _, hA', Fit.update hF (hF _ hp)⟩
  | other h k hk ih =>
    obtain ⟨base, segs, hA, hF⟩ := ih (hk.nodup hn)
    exact ⟨base, segs, hA.later hk rfl rfl, hF⟩

/-- Processes created, forked and rescheduled in any order. Where every load_segment brings areas
that fit beside those in the list, and page_alloc has not come round, every list is sound. -/
theorem loaderRun_sound (start : Nat) (img : Bytes) (s : Loader) (mms : List Nat)
    (h : LoaderRun start img Fits s mms) (hn : s.kern.pools.pages.Nodup) :
    ∀ a ∈ mms, ∃ nodes, VmSound s a nodes := by
  intro a ha
  obtain ⟨base, segs, hA, hF⟩ := h.areas hn
  exact ⟨_, (hA.holds a ha).sound (hF a ha)⟩

/-- An image with one PT_LOAD header, at 64, for an empty segment at `0x10000*page`. -/
def emptyElf (page : UInt8) : Bytes :=
  List.replicate 26 0 ++ [page] ++ List.replicate 5 0 ++ [64] ++ List.replicate 23 0 ++ [1] ++
    List.replicate 7 0 ++ [1, 0, 0, 0, 5, 0, 0, 0] ++ List.replicate 10 0 ++ [page] ++
    List.replicate 37 0

/-- `bin/a` and `bin/b` -/
inductive EmptyFile where
  | a
  | b

def EmptyFile.path : EmptyFile → Bytes
  | .a => [98, 105, 110, 47, 97, 0]
  | .b => [98, 105, 110, 47, 98, 0]

def binA : Member :=
  .zeroed [98, 105, 110, 47, 97] .file (emptyElf 0x40) (by decide) (by decide) (by decide)
    (by decide) (by decide)

def binB : Member :=
  .zeroed [98, 105, 110, 47, 98] .file (emptyElf 0x50) (by decide) (by decide) (by decide)
    (by decide) (by decide)

def elfRamdisk : Archive := .linked [binDir, binA, binB] (by
  simp only [List.flatMap_cons, List.flatMap_nil, List.length_append, Member.bytes_length]
  decide)

/-- Where the image lies. -/
def EmptyFile.elf : EmptyFile → Nat
  | .a => 0x200400
  | .b => 0x200800

def EmptyFile.vaddr : EmptyFile → Nat
  | .a => 0x400000
  | .b => 0x500000

/-- The area of its segment. -/
def EmptyFile.segment (f : EmptyFile) : Segment := ⟨f.vaddr, f.vaddr, 0, 5, f.elf, 0⟩

theorem emptyFile_segments (f : EmptyFile) :
    fileSegments 0x200000 elfRamdisk.bytes 2 f.path = some [f.segment] := by
  cases f <;> decide +kernel

/-- An empty segment takes no page and no byte: all that is left of the loop is its area. -/
theorem loadHeaders_emptyFile (f : EmptyFile) (a : Nat) (s : Loader) :
    loadHeaders 0x200000 elfRamdisk.bytes f.elf 64 a 1 0 s = addArea a f.segment s := by
  have hph : (archiveAt 0x200000 elfRamdisk.bytes (add64 (add64 f.elf 64) 0)).bind programHeader =
      some ⟨1, 5, 0, f.vaddr, 0, 0⟩ := by cases f <;> decide +kernel
  have hsrc : (archiveAt 0x200000 elfRamdisk.bytes (add64 f.elf 0)).isSome := by
    cases f <;> decide +kernel
  obtain ⟨src, hsrc⟩ := Option.isSome_iff_exists.mp hsrc
  have hregion (k : Kernel) : allocateRegions f.vaddr 0 k = k := by cases f <;> rfl
  have hfill (k : Kernel) : fillSegment 0x200000 elfRamdisk.bytes f.elf
      ⟨1, 5, 0, f.vaddr, 0, 0⟩ k = some k := by
    simp [fillSegment, hsrc, userStores]
  have hload : loadProgram 0x200000 elfRamdisk.bytes f.elf a ⟨1, 5, 0, f.vaddr, 0, 0⟩ s =
      addArea a f.segment s := by
    rw [loadProgram, hregion, hfill]
    cases f <;> rfl
  rw [loadHeaders, hph, Option.bind_some, if_pos (show 1 = elfProgLoad from rfl), hload]
  exact Option.bind_fun_some _

theorem loadSegment_emptyFile (f : EmptyFile) (task : TaskImage) (s : Loader) :
    loadSegment 0x200000 elfRamdisk.bytes 2 task f.path s =
      (addArea task.mm f.segment s).bind (setHeap task f.vaddr) := by
  have hfound : fileExists elfRamdisk.bytes f.path 2 = some ((f.elf : Int) - 0x200000) := by
    cases f <;> decide +kernel
  have hsome : ¬((f.elf : Int) - 0x200000 = 0 ∨ (f.elf : Int) - 0x200000 = 999) := by
    cases f <;> decide
  have hfields : ∃ ehdr, archiveAt 0x200000 elfRamdisk.bytes f.elf = some ehdr ∧
      readLe 8 (ehdr.drop 24) = some f.vaddr ∧ readLe 8 (ehdr.drop 32) = some 64 ∧
      readLe 2 (ehdr.drop 56) = some 1 := by
    cases f <;> exact ⟨_, rfl, by decide +kernel, by decide +kernel, by decide +kernel⟩
  have hat : add64 0x200000 ((f.elf : Int) - 0x200000).toNat = f.elf := by cases f <;> rfl
  obtain ⟨ehdr, he, hentry, hphoff, hphnum⟩ := hfields
  rw [loadSegment, hfound, Option.bind_some, if_neg hsome]
  dsimp only
  rw [hat, he, Option.bind_some, hentry, Option.bind_some, hphoff, Option.bind_some, hphnum,
    Option.bind_some, loadHeaders_emptyFile]

/-- Each call adds the area once more. -/
theorem Holds.load_emptyFile (f : EmptyFile) (task : TaskImage) {s : Loader} {base : Nat}
    {segs : List Segment} (h : Holds s task.mm base segs) (hlen : segs.length < 56)
    (hb : segs ≠ [] → base + pageSize ≤ 2^64) (hc : s.kern.cursor % pageSize = 0) :
    ∃ r p, loadSegment 0x200000 elfRamdisk.bytes 2 task f.path s = some r ∧
      Holds r.2 task.mm p (segs ++ [f.segment]) ∧ p + pageSize ≤ 2^64 ∧
      s.kern.pools.Within (2^33) r.2.kern.pools := by
  have hadd : ∃ t p, addArea task.mm f.segment s = some t ∧
      Holds t task.mm p (segs ++ [f.segment]) ∧ p + pageSize ≤ 2^64 ∧
      s.kern.pools.Within (2^32) t.kern.pools := by
    by_cases hne : segs = []
    · rw [hne] at h ⊢
      obtain ⟨t, ht, hk, h', -, -⟩ := addArea_first h f.segment
      refine ⟨t, _, ht, h', ?_, by rw [hk]; exact kmalloc_within s.kern vmaSize⟩
      rw [kmalloc_fst]
      unfold add64 virtBase pageSize at *
      omega
    · obtain ⟨t, ht, hk, h', -, -⟩ := addArea_next h hne hlen (hb hne) f.segment
      exact ⟨t, base, ht, h', hb hne, by rw [hk]; exact ⟨0, by omega, 0, rfl⟩⟩
  obtain ⟨t, p, ht, hh, hp, hw⟩ := hadd
  have hlast := hh.lastVma (segs.length+2) 0 (by simp) (by simp)
  have hheap : ∃ r, setHeap task f.vaddr t = some r := by
    rw [setHeap, hh.head, if_neg (by simp), hh.count]
    dsimp only
    rw [Option.bind_some]
    simp only [Nat.mul_zero, Nat.add_zero] at hlast
    simp [hlast]
  obtain ⟨r, hr⟩ := hheap
  obtain ⟨hl, hv, hm⟩ := setHeap_frame hr
  refine ⟨r, p, ?_, hh.congr (by rw [hm]) (fun i _ => by rw [hv]), hp,
    (hw.trans hl).mono (by norm_num)⟩
  rw [loadSegment_emptyFile, ht, Option.bind_some, hr]

/-- The lists before the first process. -/
def bootLoader (k : Kernel) : Loader where
  kern := k
  vma := fun _ => emptyArea
  heap := fun _ => emptyArea.seg
  mm := fun _ => ⟨none, 0⟩

/-- A first mm_struct. -/
theorem exists_created (ok : Loader → Nat → List Segment → Prop) (k : Kernel)
    (hc : k.pools.cursor % pageSize = 0) :
    ∃ s a, LoaderRun 0x200000 elfRamdisk.bytes ok s [a] ∧ Holds s a 0 [] ∧
      s.kern.cursor % pageSize = 0 ∧ k.pools.Within (2^32) s.kern.pools := by
  have hw := kmalloc_within k mmSize
  refine ⟨_, _, .newMm (.boot (bootLoader k) hc) mmSize, ⟨?_, ?_, ?_⟩, ?_, hw⟩
  · simp
  · simp
  · intro i hi
    simp at hi
  · exact hw.later.aligned hc

/-- The areas of the file beside those in the list, as `Fits` has it. -/
theorem Holds.fits_of {s : Loader} {a base : Nat} {segs : List Segment} (h : Holds s a base segs)
    {f : EmptyFile} (hfit : Fit (segs ++ [f.segment])) (new : List Segment)
    (hnew : fileSegments 0x200000 elfRamdisk.bytes 2 f.path = some new) : Fits s a new := by
  obtain rfl : [f.segment] = new := Option.some.inj ((emptyFile_segments f).symm.trans hnew)
  intro nodes hchain
  rw [hchain.unique h.chain, h.segs_eq]
  exact hfit

/-- A process that is loaded with one file and then with another. -/
theorem loaderRun_sound_two :
    ∃ s a, LoaderRun 0x200000 elfRamdisk.bytes Fits s [a] ∧ s.kern.pools.pages.Nodup ∧
      (s.mm a).count = 2 ∧ ∃ nodes, VmSound s a nodes := by
  obtain ⟨hcur, hpages⟩ := (booted_spec (fun _ => 0) 0x300000 (by norm_num) (by norm_num)).pools
  obtain ⟨s, a, hrun, hh, hc, hw⟩ := exists_created Fits (booted (fun _ => 0) 0x300000)
    (by rw [hcur]; rfl)
  obtain ⟨r, p, hr, hh1, hp, hw1⟩ := Holds.load_emptyFile .a ⟨a, 0, 0⟩ hh (by simp)
    (fun h => absurd rfl h) hc
  obtain ⟨q, p', hq, hh2, -, hw2⟩ := Holds.load_emptyFile .b ⟨a, 0, 0⟩ hh1 (by simp)
    (fun _ => hp) (hw1.later.aligned hc)
  have hrun1 := hrun.load 2 ⟨a, 0, 0⟩ _ (by simp)
    (hh.fits_of ⟨by decide, by decide, by decide⟩) hr
  have hrun2 := hrun1.load 2 ⟨a, 0, 0⟩ _ (by simp)
    (hh1.fits_of ⟨by decide, by decide, by decide⟩) hq
  have hn : q.2.kern.pools.pages.Nodup := ((hw.trans hw1).trans hw2).nodup hpages (by
    rw [hcur]
    norm_num [pool])
  exact ⟨q.2, a, hrun2, hn, hh2.count, loaderRun_sound _ _ _ _ hrun2 hn a (by simp)⟩

/-- A process that is loaded and then rescheduled: the same area twice. -/
theorem loaderRun_doubles :
    ∃ s a, LoaderRun 0x200000 elfRamdisk.bytes (fun _ _ _ => True) s [a] ∧
      s.kern.pools.pages.Nodup ∧ (s.mm a).count = 2 ∧ ¬∃ nodes, VmSound s a nodes := by
  obtain ⟨hcur, hpages⟩ := (booted_spec (fun _ => 0) 0x300000 (by norm_num) (by norm_num)).pools
  obtain ⟨s, a, hrun, hh, hc, hw⟩ := exists_created (fun _ _ _ => True)
    (booted (fun _ => 0) 0x300000) (by rw [hcur]; rfl)
  obtain ⟨r, p, hr, hh1, hp, hw1⟩ := Holds.load_emptyFile .a ⟨a, 0, 0⟩ hh (by simp)
    (fun h => absurd rfl h) hc
  obtain ⟨q, p', hq, hh2, -, hw2⟩ := Holds.load_emptyFile .a ⟨a, 0, 0⟩ hh1 (by simp)
    (fun _ => hp) (hw1.later.aligned hc)
  have hrun1 := hrun.load 2 ⟨a, 0, 0⟩ _ (by simp) (fun _ _ => trivial) hr
  have hrun2 := hrun1.load 2 ⟨a, 0, 0⟩ _ (by simp) (fun _ _ => trivial) hq
  have hn : q.2.kern.pools.pages.Nodup := ((hw.trans hw1).trans hw2).nodup hpages (by
    rw [hcur]
    norm_num [pool])
  refine ⟨q.2, a, hrun2, hn, hh2.count, ?_⟩
  rintro ⟨nodes, hs⟩
  have hcount := hs.count
  rw [hs.chain.unique hh2.chain, hh2.segs_eq, hh2.count] at hcount
  revert hcount
  decide

end SBUnix
