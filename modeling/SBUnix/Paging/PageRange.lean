import SBUnix.Paging.UserPages

namespace SBUnix

open ByteMemory Word

/-- The page of `x` has a byte in common with the request. -/
def InRange (addr length x : Nat) : Prop :=
  0 < length ∧ x/4096*4096 < addr+length ∧ addr < x/4096*4096 + 4096

/-- How many pages the request has a byte of. -/
def pagesTouched (addr length : Nat) : Nat :=
  if length = 0 then 0 else (addr+length-1)/4096 - addr/4096 + 1

/-- What memmap is asked for. -/
structure MapsRange (s t : Kernel) (addr length : Nat) : Prop where
  mapped : ∀ x, InRange addr length x → t.frameOf x ≠ none
  distinct : pagesTouched addr length ≤ 4096 → ∀ x y, InRange addr length x → InRange addr length y →
    x/4096 ≠ y/4096 → t.frameOf x ≠ t.frameOf y
  others : ∀ x, Canonical x → ¬InRange addr length x → t.frameOf x = s.frameOf x

/-- `length` in whole pages. -/
def wholePages (length : Nat) : Nat := (length+4095)/4096

/-- As many pages from the one of `addr` on are mapped by one page table. -/
def OneTable (addr length : Nat) : Prop :=
  (addr/4096 + wholePages length - 1) / 512 = addr/4096/512

/-- The request ends in the last of these pages; or there is one more, and it has a frame that
is not going to be used for them. -/
def Covered (s : Kernel) (addr length : Nat) : Prop :=
  addr%4096 + length ≤ 4096*wholePages length ∨
  ∃ g, s.frameOf (addr + 4096*wholePages length) = some g ∧
    ∀ j < wholePages length, nextFrame^[j] s.usrPhysAddr ≠ g

/-- The next `n` frames serve no page of the user half yet. -/
def FramesFree (s : Kernel) (n : Nat) : Prop :=
  ∀ x < 2^47, ∀ j < n, s.frameOf x ≠ some (nextFrame^[j] s.usrPhysAddr)

def RangeFits (s : Kernel) (addr length : Nat) : Prop :=
  length = 0 ∨ OneTable addr length ∧ Covered s addr length

section Frames

theorem nextFrame_pool {r : Nat} (hr : r < 2^24) (hal : r % 4096 = 0) :
    nextFrame (startPaddrForUsrs + r) = startPaddrForUsrs + (r + 4096) % 2^24 := by
  have hend : endPaddrForUsrs = startPaddrForUsrs + 2^24 := rfl
  have hstart : startPaddrForUsrs < 2^32 := by decide
  have hadd := add64_pageSize (startPaddrForUsrs + r) (by omega)
  unfold nextFrame
  split
  next hin =>
    have hlt : r + 4096 < 2^24 := by omega
    rw [hadd, Nat.mod_eq_of_lt hlt, Nat.add_assoc]
  next hout =>
    have hlast : r + 4096 = 2^24 := by omega
    rw [hlast, Nat.mod_self, Nat.add_zero]

/-- From inside the pool the cursor goes round in it. -/
theorem nextFrame_iterate {r : Nat} (hr : r < 2^24) (hal : r % 4096 = 0) (d : Nat) :
    nextFrame^[d] (startPaddrForUsrs + r) = startPaddrForUsrs + (r + 4096*d) % 2^24 := by
  induction d with
  | zero => rw [Function.iterate_zero_apply, Nat.mul_zero, Nat.add_zero, Nat.mod_eq_of_lt hr]
  | succ d ih =>
    have hstep : ((r + 4096*d) % 2^24 + 4096) % 2^24 = (r + 4096*(d+1)) % 2^24 := by
      rw [Nat.mod_add_mod, Nat.mul_succ, Nat.add_assoc]
    have hlt : (r + 4096*d) % 2^24 < 2^24 := Nat.mod_lt _ (by norm_num)
    have haligned : (r + 4096*d) % 2^24 % 4096 = 0 := by
      clear ih
      omega
    rw [Function.iterate_succ_apply', ih, nextFrame_pool hlt haligned, hstep]

theorem nextFrame_iterate_ne_self {g d : Nat} (hal : g % 4096 = 0) (hd : 0 < d) (hlt : d < 4096) :
    nextFrame^[d] g ≠ g := by
  have hend : endPaddrForUsrs = startPaddrForUsrs + 2^24 := rfl
  have hstart : startPaddrForUsrs < 2^32 := by decide
  have hsal : startPaddrForUsrs % 4096 = 0 := by decide
  by_cases hpool : startPaddrForUsrs ≤ g ∧ g < endPaddrForUsrs
  · obtain ⟨r, rfl⟩ := Nat.exists_eq_add_of_le hpool.1
    have hr : r < 2^24 := by omega
    have hral : r % 4096 = 0 := by omega
    rw [nextFrame_iterate hr hral]
    intro he
    have hround : (r + 4096*d) % 2^24 = r := Nat.add_left_cancel he
    omega
  · -- one step leads above `g`, or to the start of memory or of the pool, and never back
    have hstep (h : Nat) (hh : g < startPaddrForUsrs → g ≤ h ∧ h < endPaddrForUsrs) :
        nextFrame h < endPaddrForUsrs ∧ (g < startPaddrForUsrs → g < nextFrame h) := by
      rcases nextFrame_cases h with ⟨he, hlt⟩ | he
      · refine ⟨he ▸ hlt, ?_⟩
        intro hg
        obtain ⟨hle, hin⟩ := hh hg
        have hadd := add64_pageSize h (by omega)
        omega
      · refine ⟨by omega, ?_⟩
        intro hg
        rwa [he]
    have hall (n : Nat) : nextFrame^[n+1] g < endPaddrForUsrs ∧
        (g < startPaddrForUsrs → g < nextFrame^[n+1] g) := by
      induction n with
      | zero => exact hstep g fun hg => ⟨le_refl g, by omega⟩
      | succ n ih =>
        rw [Function.iterate_succ_apply']
        exact hstep _ fun hg => ⟨(ih.2 hg).le, ih.1⟩
    obtain ⟨n, rfl⟩ : ∃ n, d = n+1 := ⟨d-1, by omega⟩
    intro he
    have h := hall n
    rw [he] at h
    omega

theorem nextFrame_iterate_aligned {f : Nat} (hf : f % 4096 = 0) (j : Nat) :
    nextFrame^[j] f % 4096 = 0 := by
  induction j with
  | zero => exact hf
  | succ j ih =>
    rw [Function.iterate_succ_apply']
    exact (nextFrame_aligned ih).1

/-- 4096 frames in a row are different. -/
theorem nextFrame_iterate_ne {f : Nat} (hf : f % 4096 = 0) {i j : Nat} (hi : i < 4096)
    (hj : j < 4096) (hne : i ≠ j) : nextFrame^[i] f ≠ nextFrame^[j] f := by
  have hlt {i j : Nat} (hij : i < j) (hj : j < 4096) : nextFrame^[i] f ≠ nextFrame^[j] f := by
    have hsplit : nextFrame^[j] f = nextFrame^[j-i] (nextFrame^[i] f) := by
      rw [← Function.iterate_add_apply]
      congr 1
      omega
    rw [hsplit]
    exact (nextFrame_iterate_ne_self (nextFrame_iterate_aligned hf i) (by omega) (by omega)).symm
  rcases Nat.lt_or_gt_of_ne hne with h | h
  · exact hlt h hj
  · exact (hlt h hi).symm

end Frames

section Rounds

variable {s t u : Kernel} {q : Tables} {addr perm : Nat} {page : Nat → Nat}

/-- The pages of a request one after the other, each by add_user_page in the tables `q`. -/
def addPages (page : Nat → Nat) (q : Tables) (perm addr n : Nat) (s : Kernel) : Kernel :=
  (List.range n).foldl (fun k i => addUserPage (page (addr + 4096*i)) q.pdp q.pd q.pt perm k) s

theorem addPages_succ (page : Nat → Nat) (q : Tables) (perm addr n : Nat) (s : Kernel) :
    addPages page q perm addr (n+1) s = addUserPage (page (addr + 4096*n)) q.pdp q.pd q.pt perm
      (addPages page q perm addr n s) := by
  rw [addPages, List.range_succ, List.foldl_append]
  rfl

theorem addAndAdvance_iterate (page : Nat → Nat) (q : Tables) (perm addr n : Nat) (s : Kernel)
    (h : addr + 4096*n < 2^64) :
    (addAndAdvance page q.pdp q.pd q.pt perm)^[n] (addr, s) =
      (addr + 4096*n, addPages page q perm addr n s) := by
  induction n with
  | zero => rfl
  | succ n ih =>
    have hnext : addr + 4096*(n+1) = addr + 4096*n + 4096 := by rw [Nat.mul_succ, Nat.add_assoc]
    rw [hnext] at h ⊢
    rw [Function.iterate_succ_apply', ih (Nat.lt_of_add_right_lt h), addPages_succ,
      ← add64_pageSize _ h]
    rfl

theorem addUserPages_snd (page : Nat → Nat) (q : Tables) (perm addr n : Nat) (s : Kernel)
    (h : addr + 4096*n < 2^64) :
    (addUserPages page q.pdp q.pd q.pt perm n addr s).2 = addPages page q perm addr n s := by
  cases n with
  | zero => rfl
  | succ n =>
    rw [addUserPages, if_neg (Nat.succ_ne_zero n), Nat.add_sub_cancel,
      addAndAdvance_iterate page q perm addr n s (by omega), addPages_succ]

/-- add_user_page overwrites what was noted of the tables before. -/
theorem addUserPage_setUser (virt : Nat) :
    addUserPage virt q.pdp q.pd q.pt perm (s.setUser q) =
      addUserPage virt q.pdp q.pd q.pt perm s := by
  simp only [addUserPage, getUserPhysAddr, Kernel.setUser, Bool.false_eq_true, if_false]

/-- `i` pages from the one of `addr` on have the next `i` frames, and nothing else has
changed. -/
structure RunTo (s t : Kernel) (addr i : Nat) : Prop where
  frame : t.usrPhysAddr = nextFrame^[i] s.usrPhysAddr
  mapped : ∀ j x, j < i → x/4096 = addr/4096 + j → t.frameOf x = some (nextFrame^[j] s.usrPhysAddr)
  others : ∀ x, Canonical x → x/4096 < addr/4096 ∨ addr/4096 + i ≤ x/4096 →
    t.frameOf x = s.frameOf x

theorem RunTo.start (s : Kernel) (addr : Nat) : RunTo s s addr 0 where
  frame := rfl
  mapped _ _ h := by omega
  others _ _ _ := rfl

theorem RunTo.step {i virt n : Nat} (h : RunTo s u addr i)
    (hm : Installed u t virt u.usrPhysAddr perm n page) (hvirt : virt < 2^47)
    (hpage : virt/4096 = addr/4096 + i) : RunTo s t addr (i+1) := by
  have hother {x : Nat} (hc : Canonical x) (hx : x/4096 ≠ addr/4096 + i) :
      t.frameOf x = u.frameOf x := by
    apply hm.frameOf_other
    intro he
    exact hx ((page_eq_of_pathOf hc hvirt he).trans hpage)
  constructor
  case frame => rw [hm.usrPhysAddr, h.frame, Function.iterate_succ_apply']
  case mapped =>
    intro j x hj hx
    by_cases hji : j = i
    · rw [hm.frameOf_self (pathOf_congr (by omega)), h.frame, hji]
    · rw [hother (Or.inl (by omega)) (by omega)]
      exact h.mapped j x (by omega) hx
  case others =>
    intro x hc hx
    rw [hother hc (by omega)]
    exact h.others x hc (by omega)

/-- The tables are in place and there is no need for another one. -/
structure InPlace (t : Kernel) (q : Tables) (addr : Nat) (page : Nat → Nat) : Prop where
  wf : WellFormed t
  slots : t.counter ≤ numberOfPages
  top : t.cursor < 2^52
  tables : ∀ k < 4, tableAt t ((pathOf addr).take k) = some (page k)
  inj : ∀ j k, j < 4 → k < 4 → page j = page k → j = k
  pdp : q.pdp = add64 (page 1) virtBase
  pd : q.pd = add64 (page 2) virtBase
  pt : q.pt = add64 (page 3) virtBase

theorem InPlace.found (h : InPlace t q addr page) : Found t (pathOf addr) (q, t) 0 page where
  taken := Taken.refl t
  le := by omega
  root := (Option.some.inj (h.tables 0 (by omega))).symm
  pdp := h.pdp
  pd := h.pd
  pt := h.pt
  depth k hk := Or.inl (h.tables k hk)
  inj := h.inj
  few k hk _ := by omega

theorem installed_of_found {virt n : Nat} (hw : WellFormed s)
    (hslots : s.counter + n ≤ numberOfPages) (htop : s.cursor + 4096*n < 2^52)
    (hf : Found s (pathOf addr) (q, t) n page) (hu : UserPath (pathOf addr))
    (hpath : (pathOf virt).take 3 = (pathOf addr).take 3) (h1 : perm % 2 = 1)
    (hperm : perm < 4096) :
    Installed s (addUserPage virt q.pdp q.pd q.pt perm t) virt s.usrPhysAddr perm n page := by
  refine ⟨?_, hw, hslots, userPath_of_take hu hpath, hw.frame.1, h1, hperm⟩
  rw [← addUserPage_setUser]
  exact addUserPage_mapped hw htop hf hpath hperm

theorem InPlace.of_installed {virt n : Nat}
    (hm : Installed s t virt s.usrPhysAddr perm n page) (htop : s.cursor + 4096*n < 2^52)
    (hpath : (pathOf virt).take 3 = (pathOf addr).take 3) (hpdp : q.pdp = add64 (page 1) virtBase)
    (hpd : q.pd = add64 (page 2) virtBase) (hpt : q.pt = add64 (page 3) virtBase) :
    InPlace t q addr page where
  wf := hm.wellFormed
  slots := hm.counter ▸ hm.slots
  top := hm.cursor ▸ htop
  tables k hk := by
    have htake : (pathOf addr).take k = (pathOf virt).take k := by
      have := congrArg (List.take k) hpath
      rw [List.take_take, List.take_take, Nat.min_eq_left (by omega)] at this
      exact this.symm
    rw [htake]
    exact hm.tableAt_on hk
  inj := hm.inj
  pdp := hpdp
  pd := hpd
  pt := hpt

/-- As long as the pages share the tables: by induction on their number, from the first one,
for which the tables were made. -/
theorem addPages_runTo {n : Nat} (hw : WellFormed s) (hslots : s.counter + n ≤ numberOfPages)
    (htop : s.cursor + 4096*n < 2^52) (hf : Found s (pathOf addr) (q, u) n page)
    (ha : addr < 2^47) (h1 : perm % 2 = 1) (hperm : perm < 4096) (i : Nat)
    (hone : (addr/4096 + i) / 512 = addr/4096/512) :
    RunTo s (addPages (roundDown · pageSize) q perm addr (i+1) u) addr (i+1) ∧
    InPlace (addPages (roundDown · pageSize) q perm addr (i+1) u) q addr page := by
  have hu := userPath_pathOf ha
  have hlt (j : Nat) (hj : j ≤ i) : addr + 4096*j < 2^47 := by omega
  have hpath (j : Nat) (hj : j ≤ i) :
      (pathOf (roundDown (addr + 4096*j) pageSize)).take 3 = (pathOf addr).take 3 := by
    rw [pathOf_roundDown]
    exact pathOf_take_three (by omega)
  have hpage (j : Nat) : roundDown (addr + 4096*j) pageSize / 4096 = addr/4096 + j := by
    rw [roundDown_page_eq]
    omega
  have hvirt (j : Nat) (hj : j ≤ i) : roundDown (addr + 4096*j) pageSize < 2^47 := by
    have := hlt j hj
    rw [roundDown_page_eq]
    omega
  induction i with
  | zero =>
    have hm := installed_of_found hw hslots htop hf hu (hpath 0 (by omega)) h1 hperm
    rw [addPages_succ]
    exact ⟨(RunTo.start s addr).step hm (hvirt 0 (by omega)) (hpage 0),
      .of_installed hm htop (hpath 0 (by omega)) hf.pdp hf.pd hf.pt⟩
  | succ i ih =>
    obtain ⟨hrun, hin⟩ := ih (by omega) (fun j hj => hlt j (by omega))
      (fun j hj => hpath j (by omega)) (fun j hj => hvirt j (by omega))
    rw [addPages_succ]
    generalize addPages (roundDown · pageSize) q perm addr (i+1) u = t at hrun hin ⊢
    have hm := installed_of_found hin.wf hin.slots hin.top hin.found hu (hpath (i+1) (le_refl _))
      h1 hperm
    exact ⟨hrun.step hm (hvirt (i+1) (le_refl _)) (hpage (i+1)),
      .of_installed hm hin.top (hpath (i+1) (le_refl _)) hin.pdp hin.pd hin.pt⟩

theorem addPages_setUser (page : Nat → Nat) (perm addr n : Nat) (s : Kernel) :
    addPages page q perm addr (n+1) (s.setUser q) = addPages page q perm addr (n+1) s := by
  induction n with
  | zero =>
    rw [addPages_succ, addPages_succ]
    exact addUserPage_setUser _
  | succ n ih => rw [addPages_succ, ih, ← addPages_succ]

end Rounds

section Request

variable {s : Kernel} {addr length perm : Nat}

theorem tlbFlush_frameOf (p x : Nat) (t : Kernel) : (tlbFlush p t).frameOf x = t.frameOf x := by
  simp only [Kernel.frameOf, Kernel.lookup, tlbFlush, Kernel.root]

theorem setUser_frameOf (q : Tables) (x : Nat) (t : Kernel) :
    (t.setUser q).frameOf x = t.frameOf x := by
  simp only [Kernel.frameOf, Kernel.lookup, Kernel.setUser, Kernel.root]

theorem frameOf_congr (t : Kernel) {x y : Nat} (h : x/4096 = y/4096) :
    t.frameOf x = t.frameOf y := by
  rw [Kernel.frameOf, Kernel.frameOf, Kernel.lookup, Kernel.lookup, walk, walk, pathOf_congr h]

theorem memmap_frameOf (s : Kernel) (h : addr + 4096*pageCount length < 2^64) (x : Nat) :
    (memmap addr length perm .accessedNotPresent s).2.frameOf x =
      (addPages (roundDown · pageSize) (findTables addr s).1 perm addr (pageCount length)
        ((findTables addr s).2.setUser (findTables addr s).1)).frameOf x := by
  rw [memmap_snd, tlbFlush_frameOf, mapPagesFor, mapUser,
    addUserPages_snd _ _ _ _ _ _ h]

theorem pageCount_eq (h : wholePages length < 2^32) : pageCount length = wholePages length := by
  have he : length / 4096 + (if length % 4096 = 0 then 0 else 1) = wholePages length := by
    unfold wholePages
    split_ifs <;> omega
  have hc : pageCount length = (length / 4096 + if length % 4096 = 0 then 0 else 1) % 2^32 := rfl
  rw [hc, he, Nat.mod_eq_of_lt h]

/-- A request within one page table. -/
theorem memmap_runTo (hw : WellFormed s) (hr : PagesLeft s) (ha : addr < 2^47)
    (h1 : perm % 2 = 1) (hperm : perm < 4096) (hpos : 0 < length) (hone : OneTable addr length) :
    ∃ t, RunTo s t addr (wholePages length) ∧
      ∀ x, (memmap addr length perm .accessedNotPresent s).2.frameOf x = t.frameOf x := by
  obtain ⟨n, page, hf⟩ := findTables_spec hw hr (hw.passable (userPath_pathOf ha))
  have hle := hf.le
  have hslots := hr.slots
  have htop := hr.top
  obtain ⟨i, hi⟩ : ∃ i, wholePages length = i+1 := by
    refine ⟨wholePages length - 1, ?_⟩
    unfold wholePages
    omega
  unfold OneTable at hone
  rw [hi] at hone
  have hcount : pageCount length = i+1 := by
    rw [pageCount_eq (by omega), hi]
  have hrun := (addPages_runTo hw (by omega) (by omega) hf ha h1 hperm i (by omega)).1
  rw [hi]
  refine ⟨_, hrun, ?_⟩
  intro x
  rw [memmap_frameOf s (by omega), hcount, addPages_setUser]

theorem memmap_zero (hw : WellFormed s) (hr : PagesLeft s) (ha : addr < 2^47) (x : Nat) :
    (memmap addr 0 perm .accessedNotPresent s).2.frameOf x = s.frameOf x := by
  obtain ⟨n, page, hf⟩ := findTables_spec hw hr (hw.passable (userPath_pathOf ha))
  have hkept := hf.taken.tablesKept hw (by have := hf.le; have := hr.slots; omega)
  have hcount : pageCount 0 = 0 := rfl
  rw [memmap_frameOf s (by omega), hcount]
  exact (setUser_frameOf _ x _).trans (by rw [Kernel.frameOf, hkept.lookup_eq hw, Kernel.frameOf])

/-- The pages of a request: those that get a frame, and perhaps one more. -/
theorem InRange.cases {x : Nat} (h : InRange addr length x) :
    (∃ j < wholePages length, x/4096 = addr/4096 + j) ∨
    x/4096 = addr/4096 + wholePages length ∧
      4096*wholePages length < addr%4096 + length := by
  obtain ⟨hpos, hlt, hge⟩ := h
  have hwhole : length ≤ 4096*wholePages length := by
    unfold wholePages
    omega
  by_cases hj : x/4096 < addr/4096 + wholePages length
  · exact Or.inl ⟨x/4096 - addr/4096, by omega, by omega⟩
  · exact Or.inr ⟨by omega, by omega⟩

theorem inRange_of_page {x j : Nat} (hj : j < wholePages length) (hx : x/4096 = addr/4096 + j) :
    InRange addr length x := by
  unfold wholePages at hj
  exact ⟨by omega, by omega, by omega⟩

theorem RunTo.mapsRange {t : Kernel} (hw : WellFormed s) (hpos : 0 < length)
    (hone : OneTable addr length) (hend : addr+length ≤ 2^47) (hc : Covered s addr length)
    (h : RunTo s t addr (wholePages length)) : MapsRange s t addr length := by
  have hfew : wholePages length ≤ 512 := by
    unfold OneTable at hone
    omega
  -- the frame of a page of the request
  have hframe {x : Nat} (hx : InRange addr length x) :
      (∃ j < wholePages length, x/4096 = addr/4096 + j ∧
        t.frameOf x = some (nextFrame^[j] s.usrPhysAddr)) ∨
      x/4096 = addr/4096 + wholePages length ∧ ∃ g, t.frameOf x = some g ∧
        ∀ j < wholePages length, nextFrame^[j] s.usrPhysAddr ≠ g := by
    rcases hx.cases with ⟨j, hj, hxj⟩ | ⟨hlast, hmore⟩
    · exact Or.inl ⟨j, hj, hxj, h.mapped j x hj hxj⟩
    · right
      rcases hc with hc | ⟨g, hg, hfree⟩
      · omega
      · have hlt := hx.2.1
        refine ⟨hlast, g, ?_, hfree⟩
        rw [h.others x (Or.inl (by omega)) (by omega), ← hg]
        exact frameOf_congr s (by omega)
  constructor
  case mapped =>
    intro x hx
    rcases hframe hx with ⟨j, -, -, hf⟩ | ⟨-, g, hf, -⟩
    · rw [hf]
      exact Option.some_ne_none _
    · rw [hf]
      exact Option.some_ne_none _
  case distinct =>
    intro _ x y hx hy hne
    rcases hframe hx with ⟨i, hi, hxi, hfx⟩ | ⟨hxl, g, hfx, hfree⟩
    · rcases hframe hy with ⟨j, hj, hyj, hfy⟩ | ⟨hyl, g, hfy, hfree⟩
      · rw [hfx, hfy]
        intro he
        exact nextFrame_iterate_ne hw.frame.1 (by omega) (by omega) (by omega) (Option.some.inj he)
      · rw [hfx, hfy]
        intro he
        exact hfree i hi (Option.some.inj he)
    · rcases hframe hy with ⟨j, hj, hyj, hfy⟩ | ⟨hyl, -⟩
      · rw [hfx, hfy]
        intro he
        exact hfree j hj (Option.some.inj he).symm
      · omega
  case others =>
    intro x hcan hx
    apply h.others x hcan
    by_contra hin
    exact hx (inRange_of_page (j := x/4096 - addr/4096) (by omega) (by omega))

theorem MapsRange.congr {t u : Kernel} (h : MapsRange s t addr length)
    (hu : ∀ x, u.frameOf x = t.frameOf x) : MapsRange s u addr length where
  mapped x hx := by
    rw [hu]
    exact h.mapped x hx
  distinct hn x y hx hy hne := by
    rw [hu, hu]
    exact h.distinct hn x y hx hy hne
  others x hc hx := by
    rw [hu]
    exact h.others x hc hx

theorem mapsRange_of_fits (hw : WellFormed s) (hr : PagesLeft s) (ha : addr < 2^47)
    (hend : addr+length ≤ 2^47) (hfits : RangeFits s addr length) :
    MapsRange s (memmap addr length usrPermBits .accessedNotPresent s).2 addr length := by
  rcases Nat.eq_zero_or_pos length with hzero | hpos
  · subst hzero
    have hnone {x : Nat} (hx : InRange addr 0 x) : False := absurd hx.1 (lt_irrefl 0)
    exact ⟨fun x hx => (hnone hx).elim, fun _ x y hx _ _ => (hnone hx).elim,
      fun x _ _ => memmap_zero hw hr ha x⟩
  · obtain ⟨hone, hc⟩ := hfits.resolve_left (by omega)
    have h1 : usrPermBits % 2 = 1 := by decide
    obtain ⟨t, hrun, ht⟩ := memmap_runTo hw hr ha h1 (by decide) hpos hone
    exact (hrun.mapsRange hw hpos hone hend hc).congr ht

end Request

section Crossing

variable {s t : Kernel} {q : Tables} {page : Nat → Nat} {perm addr : Nat}

/-- Four pages of memory. -/
structure FourTables (page : Nat → Nat) : Prop where
  lt : ∀ k < 4, page k < 2^52
  aligned : ∀ k < 4, page k % 4096 = 0
  inj : ∀ j k, j < 4 → k < 4 → page j = page k → j = k

theorem Found.fourTables {r : Tables × Kernel} {n : Nat} (hw : WellFormed s) (hr : PagesLeft s)
    (hf : Found s (pathOf addr) r n page) : FourTables page where
  lt k hk := by
    have hle := hf.le
    have htop := hr.top
    have := depth_le hw (take_short hk) (hf.depth k hk)
    omega
  aligned k hk := depth_aligned hw (hf.depth k hk)
  inj := hf.inj

theorem linkPage_entry_ne (hp : FourTables page) (m : Mem) (virt frame perm k i : Nat)
    (hk : k < 4) (hi : i < 512) (hne : i ≠ slotOf virt k) :
    entry (linkPage m virt frame perm page) (page k) i = entry m (page k) i := by
  refine load_congr _ _ _ _ fun x hx hx' => linkPage_outside m hp.lt x ?_
  intro j hj
  have hslot := slotOf_lt virt hj
  have halj := hp.aligned j hj
  have halk := hp.aligned k hk
  by_cases he : page j = page k
  · have := hp.inj j k hj hk he
    subst this
    omega
  · omega

theorem slotOf_roundDown (x k : Nat) : slotOf (roundDown x pageSize) k = slotOf x k := by
  rw [slotOf, pathOf_roundDown, slotOf]

/-- Whether or not the pages share the tables: the entries for each of the first `i` name the
four tables, and one of the next `i` frames. -/
structure Chained (s t : Kernel) (page : Nat → Nat) (perm addr i : Nat) : Prop where
  pml4 : t.pml4Shared = add64 (page 0) virtBase
  base : t.virtBaseForUser = virtBase
  frame : t.usrPhysAddr = nextFrame^[i] s.usrPhysAddr
  upper : ∀ j k, j < i → k < 3 → entry t.mem (page k) (slotOf (addr + 4096*j) k) = page (k+1) + perm
  leaf : ∀ j < i, ∃ l < i,
    entry t.mem (page 3) (slotOf (addr + 4096*j) 3) = nextFrame^[l] s.usrPhysAddr + perm

theorem Chained.step (hw : WellFormed s) (hp : FourTables page) {i : Nat}
    (h : Chained s t page perm addr i) (hpdp : q.pdp = add64 (page 1) virtBase)
    (hpd : q.pd = add64 (page 2) virtBase) (hpt : q.pt = add64 (page 3) virtBase)
    (hperm : perm < 4096) :
    Chained s (addUserPage (roundDown (addr + 4096*i) pageSize) q.pdp q.pd q.pt perm t) page perm
      addr (i+1) := by
  have hal := nextFrame_iterate_aligned hw.frame.1 i
  have hlt : nextFrame^[i] s.usrPhysAddr < 2^64 := by
    cases i with
    | zero => exact hw.frame.2
    | succ i =>
      rw [Function.iterate_succ_apply']
      exact (nextFrame_aligned (nextFrame_iterate_aligned hw.frame.1 i)).2
  have hmem : (addUserPage (roundDown (addr + 4096*i) pageSize) q.pdp q.pd q.pt perm t).mem =
      linkPage t.mem (roundDown (addr + 4096*i) pageSize) (nextFrame^[i] s.usrPhysAddr) perm
        page := by
    rw [← addUserPage_setUser, addUserPage_mem, h.base, h.pml4, h.frame, hpdp, hpd, hpt, linkPage]
  generalize hv : roundDown (addr + 4096*i) pageSize = v at hmem ⊢
  have hslot (k : Nat) : slotOf v k = slotOf (addr + 4096*i) k := by rw [← hv, slotOf_roundDown]
  have hself (k : Nat) (hk : k < 4) :
      entry (linkPage t.mem v (nextFrame^[i] s.usrPhysAddr) perm page) (page k) (slotOf v k) =
        link page (nextFrame^[i] s.usrPhysAddr) k + perm :=
    linkPage_entry t.mem hp.lt hp.aligned hp.inj hal hlt hperm k hk
  have hother := linkPage_entry_ne hp t.mem v (nextFrame^[i] s.usrPhysAddr) perm
  simp only [hslot] at hself hother
  constructor
  case pml4 => rw [← addUserPage_setUser, addUserPage_pml4Shared, h.pml4]
  case base => rw [← addUserPage_setUser, addUserPage_virtBaseForUser, h.base]
  case frame =>
    rw [← addUserPage_setUser, addUserPage_usrPhysAddr, h.frame, Function.iterate_succ_apply']
  case upper =>
    intro j k hj hk
    rw [hmem]
    by_cases he : slotOf (addr + 4096*j) k = slotOf (addr + 4096*i) k
    · rw [he, hself k (by omega), link, if_neg (by omega)]
    · rw [hother k _ (by omega) (slotOf_lt _ (by omega)) he]
      refine h.upper j k ?_ hk
      by_contra hji
      exact he (by rw [show j = i by omega])
  case leaf =>
    intro j hj
    rw [hmem]
    by_cases he : slotOf (addr + 4096*j) 3 = slotOf (addr + 4096*i) 3
    · exact ⟨i, by omega, by rw [he, hself 3 (by omega), link, if_pos rfl]⟩
    · have hji : j < i := by
        by_contra hji
        exact he (by rw [show j = i by omega])
      obtain ⟨l, hl, hleaf⟩ := h.leaf j hji
      exact ⟨l, by omega, by rw [hother 3 _ (by omega) (slotOf_lt _ (by omega)) he, hleaf]⟩

theorem addPages_chained (hw : WellFormed s) (hp : FourTables page) {u : Kernel} {n : Nat}
    (hf : Found s (pathOf addr) (q, u) n page) (hperm : perm < 4096) (i : Nat) :
    Chained s (addPages (roundDown · pageSize) q perm addr i u) page perm addr i := by
  induction i with
  | zero =>
    constructor
    case pml4 => exact hf.taken.pml4Shared.trans (by rw [hw.pml4, hf.root])
    case base => exact hf.taken.virtBaseForUser.trans hw.base
    case frame => exact hf.taken.usrPhysAddr
    case upper => exact fun j k hj => absurd hj (Nat.not_lt_zero j)
    case leaf => exact fun j hj => absurd hj (Nat.not_lt_zero j)
  | succ i ih =>
    rw [addPages_succ]
    exact ih.step hw hp hf.pdp hf.pd hf.pt hperm

/-- A walk through the four tables. -/
theorem frameOf_of_entries (hp : FourTables page) (hroot : t.root = page 0) {va g : Nat}
    (hup : ∀ k < 3, entry t.mem (page k) (slotOf va k) = page (k+1) + perm)
    (hleaf : entry t.mem (page 3) (slotOf va 3) = g + perm) (hg : g % 4096 = 0)
    (h1 : perm % 2 = 1) (hperm : perm < 4096) : t.frameOf va = some g := by
  have hpath : pathOf va = [slotOf va 0, slotOf va 1, slotOf va 2, slotOf va 3] := rfl
  have hnext (k : Nat) (hk : k < 3) :
      next (entry t.mem (page k) (slotOf va k)) = some (page (k+1)) := by
    rw [hup k hk]
    exact next_add _ _ (hp.aligned (k+1) (by omega)) hperm h1
  have hlast : next (entry t.mem (page 3) (slotOf va 3)) = some g := by
    rw [hleaf]
    exact next_add _ _ hg hperm h1
  rw [Kernel.frameOf, Kernel.lookup, walk, hroot, hpath,
    RadixTable.walk_cons_some _ _ _ (hnext 0 (by omega)),
    RadixTable.walk_cons_some _ _ _ (hnext 1 (by omega)),
    RadixTable.walk_cons_some _ _ _ (hnext 2 (by omega)),
    RadixTable.walk_cons_some _ _ _ hlast]
  simp only [RadixTable.walk, Option.map_some, List.getLastD_cons, List.getLastD_nil, hleaf,
    pageOf_eq, Option.some.injEq]
  omega

theorem slotOf_of_take {x y k : Nat} (h : (pathOf x).take 3 = (pathOf y).take 3) (hk : k < 3) :
    slotOf x k = slotOf y k := by
  have hget (z : Nat) : slotOf z k = ((pathOf z).take 3).getD k 0 := by
    rw [slotOf, List.getD_eq_getElem?_getD, List.getD_eq_getElem?_getD, List.getElem?_take,
      if_pos hk]
  rw [hget, hget, h]

/-- A request that goes on behind the last page of its table: the first page of that table and
the first page of the next 2 MiB have the same entry, and so the same new frame. -/
theorem memmap_alias {length : Nat} (hw : WellFormed s) (hr : PagesLeft s) (ha : addr < 2^47)
    (hn : wholePages length < 2^32) (hpos : 0 < length) (hcross : ¬OneTable addr length)
    (h1 : perm % 2 = 1) (hperm : perm < 4096) :
    ∃ l < wholePages length, ∀ x, x = addr/2^21*2^21 ∨ x = addr/2^21*2^21 + 2^21 →
      (memmap addr length perm .accessedNotPresent s).2.frameOf x =
        some (nextFrame^[l] s.usrPhysAddr) := by
  obtain ⟨n, page, hf⟩ := findTables_spec hw hr (hw.passable (userPath_pathOf ha))
  have hp := hf.fourTables hw hr
  obtain ⟨i, hi⟩ : ∃ i, wholePages length = i+1 := by
    refine ⟨wholePages length - 1, ?_⟩
    unfold wholePages
    omega
  have hcount : pageCount length = i+1 := by rw [pageCount_eq hn, hi]
  have hchain := addPages_chained hw hp hf hperm (i+1)
  have hframe (x : Nat) : (memmap addr length perm .accessedNotPresent s).2.frameOf x =
      (addPages (roundDown · pageSize) (findTables addr s).1 perm addr (i+1)
        (findTables addr s).2).frameOf x := by
    rw [memmap_frameOf s (by omega), hcount, addPages_setUser]
  generalize addPages (roundDown · pageSize) (findTables addr s).1 perm addr (i+1)
    (findTables addr s).2 = t at hchain hframe
  have hroot : t.root = page 0 := by
    have := hp.lt 0 (by omega)
    rw [Kernel.root, hchain.pml4]
    exact direct_add64 _ (by omega)
  -- the page that begins the next 2 MiB is the one with number `j`
  obtain ⟨j, hj, hpage⟩ : ∃ j < i+1, (addr + 4096*j)/4096 = (addr/2^21*2^21 + 2^21)/4096 := by
    unfold OneTable at hcross
    exact ⟨(addr/2^21*2^21 + 2^21)/4096 - addr/4096, by omega, by omega⟩
  have hslot (k : Nat) : slotOf (addr + 4096*j) k = slotOf (addr/2^21*2^21 + 2^21) k := by
    rw [slotOf, slotOf, pathOf_congr hpage]
  have hzero : slotOf (addr/2^21*2^21) 3 = slotOf (addr/2^21*2^21 + 2^21) 3 := by
    simp only [slotOf, pathOf, List.getD_cons_succ, List.getD_cons_zero, getPtOffset_eq]
    omega
  obtain ⟨l, hl, hleaf⟩ := hchain.leaf j hj
  rw [hslot] at hleaf
  have hg := nextFrame_iterate_aligned hw.frame.1 l
  refine ⟨l, by omega, ?_⟩
  intro x hx
  rw [hframe]
  rcases hx with hx | hx
  · subst hx
    refine frameOf_of_entries hp hroot ?_ (by rw [hzero, hleaf]) hg h1 hperm
    intro k hk
    have hfirst : slotOf (addr/2^21*2^21) k = slotOf (addr + 4096*0) k :=
      slotOf_of_take (pathOf_take_three (by omega)) hk
    rw [hfirst]
    exact hchain.upper 0 k (by omega) hk
  · subst hx
    refine frameOf_of_entries hp hroot ?_ hleaf hg h1 hperm
    intro k hk
    rw [← hslot]
    exact hchain.upper j k hj hk

end Crossing

section Request

variable {s : Kernel} {addr length : Nat}

theorem wholePages_le (addr length : Nat) : wholePages length ≤ pagesTouched addr length := by
  unfold wholePages pagesTouched
  split_ifs <;> omega

theorem not_mapsRange_of_crossing (hw : WellFormed s) (hr : PagesLeft s) (ha : addr < 2^47)
    (hn : pagesTouched addr length ≤ 4096) (hfree : FramesFree s (wholePages length)) (hpos : 0 < length)
    (hcross : ¬OneTable addr length) :
    ¬MapsRange s (memmap addr length usrPermBits .accessedNotPresent s).2 addr length := by
  have hwhole := wholePages_le addr length
  have h1 : usrPermBits % 2 = 1 := by decide
  obtain ⟨l, hl, halias⟩ := memmap_alias hw hr ha (by omega) hpos hcross h1 (by decide)
  have hfirst := halias _ (Or.inl rfl)
  have hnext := halias _ (Or.inr rfl)
  have hin : InRange addr length (addr/2^21*2^21 + 2^21) := by
    unfold OneTable wholePages at hcross
    exact ⟨hpos, by omega, by omega⟩
  intro h
  by_cases hx : InRange addr length (addr/2^21*2^21)
  · exact h.distinct hn _ _ hx hin (by omega) (hfirst.trans hnext.symm)
  · rw [h.others _ (Or.inl (by omega)) hx] at hfirst
    exact hfree _ (by omega) l hl hfirst

theorem covered_of_mapsRange (hw : WellFormed s) (hr : PagesLeft s) (ha : addr < 2^47)
    (hend : addr+length ≤ 2^47) (hfree : FramesFree s (wholePages length)) (hpos : 0 < length)
    (hone : OneTable addr length)
    (h : MapsRange s (memmap addr length usrPermBits .accessedNotPresent s).2 addr length) :
    Covered s addr length := by
  have h1 : usrPermBits % 2 = 1 := by decide
  obtain ⟨t, hrun, ht⟩ := memmap_runTo hw hr ha h1 (by decide) hpos hone
  by_cases hlast : addr%4096 + length ≤ 4096*wholePages length
  · exact Or.inl hlast
  · right
    have hin : InRange addr length (addr + 4096*wholePages length) := ⟨hpos, by omega, by omega⟩
    have hlow : addr + 4096*wholePages length < 2^47 := by
      have := hin.2.1
      omega
    have hsame := hrun.others _ (Or.inl hlow) (Or.inr (by omega))
    have hmapped := h.mapped _ hin
    rw [ht, hsame] at hmapped
    obtain ⟨g, hg⟩ := Option.ne_none_iff_exists'.mp hmapped
    refine ⟨g, hg, ?_⟩
    intro j hj he
    exact hfree _ hlow j hj (by rw [hg, he])

end Request

/-- A request that fits one page table and ends in its last whole page, or in a page that is
mapped already, does what memmap is asked for. While the next frames are free, a request of at
most 4096 pages does so in no other case. -/
theorem memmap_mapsRange_iff {s : Kernel} (hw : WellFormed s) (hr : PagesLeft s)
    {addr length : Nat} (ha : addr < 2^47) (hend : addr+length ≤ 2^47) :
    (RangeFits s addr length →
      MapsRange s (memmap addr length usrPermBits .accessedNotPresent s).2 addr length) ∧
    (pagesTouched addr length ≤ 4096 → FramesFree s (wholePages length) →
      (MapsRange s (memmap addr length usrPermBits .accessedNotPresent s).2 addr length ↔
        RangeFits s addr length)) := by
  have hfits := mapsRange_of_fits hw hr ha hend
  refine ⟨hfits, ?_⟩
  intro hn hfree
  refine ⟨?_, hfits⟩
  intro h
  rcases Nat.eq_zero_or_pos length with hzero | hpos
  · exact Or.inl hzero
  · right
    by_cases hone : OneTable addr length
    · exact ⟨hone, covered_of_mapsRange hw hr ha hend hfree hpos hone h⟩
    · exact absurd h (not_mapsRange_of_crossing hw hr ha hn hfree hpos hone)

/-- Two pages on both sides of a 2 MiB boundary: the first page of the lower 2 MiB is mapped as
well. -/
theorem memmap_maps_outside :
    0x300000 % 4096 = 0 ∧
    ¬MapsRange (booted (fun _ => 0) 0x300000)
      (memmap 0x5ff000 0x2000 usrPermBits .accessedNotPresent (booted (fun _ => 0) 0x300000)).2
      0x5ff000 0x2000 := by
  have hw := zeroBoot_wellFormed
  have hr := zeroBoot_pagesLeft
  have hcross : ¬OneTable 0x5ff000 0x2000 := by
    unfold OneTable wholePages
    norm_num
  have h1 : usrPermBits % 2 = 1 := by decide
  obtain ⟨l, -, halias⟩ := memmap_alias hw hr (by norm_num) (by norm_num [wholePages])
    (by norm_num) hcross h1 (by decide)
  refine ⟨by norm_num, ?_⟩
  intro h
  have hfirst := halias 0x400000 (Or.inl (by norm_num))
  have hout : ¬InRange 0x5ff000 0x2000 0x400000 := by
    intro hin
    exact absurd hin.2.2 (by norm_num)
  have htop : slotOf 0x400000 0 ≠ 511 := by simp [slotOf, pathOf, getPml4Offset_eq]
  rw [h.others 0x400000 (Or.inl (by norm_num)) hout, Kernel.frameOf,
    booted_lookup_none (by norm_num) (by norm_num) (by norm_num) htop] at hfirst
  cases hfirst

/-- After boot every frame is free. -/
theorem zeroBoot_framesFree (n : Nat) : FramesFree (booted (fun _ => 0) 0x300000) n := by
  intro x hx j _
  rw [booted_frameOf_user (by norm_num) (by norm_num) (by norm_num) hx]
  exact (Option.some_ne_none _).symm

/-- Two pages within a region, and two on both sides of a boundary. -/
theorem memmap_mapsRange_two :
    MapsRange (booted (fun _ => 0) 0x300000)
      (memmap 0x400000 0x2000 usrPermBits .accessedNotPresent (booted (fun _ => 0) 0x300000)).2
      0x400000 0x2000 ∧
    FramesFree (booted (fun _ => 0) 0x300000) 2 ∧
    ¬MapsRange (booted (fun _ => 0) 0x300000)
      (memmap 0x7ff000 0x2000 usrPermBits .accessedNotPresent (booted (fun _ => 0) 0x300000)).2
      0x7ff000 0x2000 := by
  have hw := zeroBoot_wellFormed
  have hr := zeroBoot_pagesLeft
  refine ⟨(memmap_mapsRange_iff hw hr (by norm_num) (by norm_num)).1 (Or.inr ⟨?_, ?_⟩),
    zeroBoot_framesFree 2, ?_⟩
  · unfold OneTable wholePages
    norm_num
  · left
    norm_num [wholePages]
  · have hiff := (memmap_mapsRange_iff hw hr (show 0x7ff000 < 2^47 by norm_num)
      (show 0x7ff000 + 0x2000 ≤ 2^47 by norm_num)).2 (by norm_num [pagesTouched])
      (zeroBoot_framesFree _)
    rw [hiff]
    rintro (h | ⟨h, -⟩)
    · norm_num at h
    · norm_num [OneTable, wholePages] at h

end SBUnix
