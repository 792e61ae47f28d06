import SBUnix.Paging.UserAddresses

namespace SBUnix

open ByteMemory Word

/-- The steps of a run that move the globals NEW_PAGE addresses come from: any call of memmap,
and `dif_ctxt = 0` of init_usr_pcb. -/
inductive VaStep where
  | memmap (addr length prot : Nat) (flag : MapFlag)
  | clearDifCtxt
  deriving DecidableEq, Repr

def VaStep.run : VaStep → Kernel → Kernel
  | .memmap addr length prot flag, s => (SBUnix.memmap addr length prot flag s).2
  | .clearDifCtxt, s => { s with difCtxt := 0 }

def runSteps (steps : List VaStep) (s : Kernel) : Kernel := steps.foldl (fun s c => c.run s) s

/-- dif_ctxt, how often get_user_virt_addr(0) has been called, and how often increment_pml. -/
@[ext] structure Tally where
  difCtxt : Nat
  addrs : Nat
  pmls : Nat
  deriving DecidableEq, Repr

def Tally.step (t : Tally) : VaStep → Tally
  | .clearDifCtxt => { t with difCtxt := 0 }
  | .memmap _ _ _ flag =>
    match flag with
    | .accessedNotPresent | .rwToCow => t
    | .newPage => { t with
        addrs := t.addrs+1, pmls := if t.difCtxt = 0 then t.pmls+1 else t.pmls }
    | .setCowRw | .growsDown | .contextSwitch => { t with addrs := t.addrs+1 }

def tally (steps : List VaStep) : Tally := steps.foldl Tally.step ⟨1, 0, 0⟩

/-- physbase is 0x200000. -/
def userLimit : Nat := add64 0x200000 virtBase

/-- How many addresses get_user_virt_addr goes through before it starts over. -/
def userRound : Nat := (userLimit - startVaddrForUsrs) / 4096

/-- How many offsets increment_pml goes through. -/
def pmlRound : Nat := 511

def Tally.cursor (t : Tally) : VaCursor where
  userAddr := startVaddrForUsrs + 4096 * (t.addrs % userRound)
  pml := pmlInc * (t.pmls % pmlRound)
  difCtxt := t.difCtxt
  limit := userLimit

theorem succ_mod_cases (k n : Nat) (hn : 0 < n) :
    (k+1) % n = k % n + 1 ∧ k % n + 1 < n ∨ (k+1) % n = 0 ∧ k % n + 1 = n := by
  have hlt := Nat.mod_lt k hn
  rw [← Nat.mod_add_mod]
  rcases Nat.lt_or_ge (k % n + 1) n with h | h
  · exact Or.inl ⟨Nat.mod_eq_of_lt h, h⟩
  · have he : k % n + 1 = n := by omega
    exact Or.inr ⟨by rw [he, Nat.mod_self], he⟩

theorem nextUserAddr_round (k : Nat) :
    nextUserAddr userLimit (startVaddrForUsrs + 4096 * (k % userRound)) =
      startVaddrForUsrs + 4096 * ((k+1) % userRound) := by
  have hround : startVaddrForUsrs + 4096*userRound = userLimit := by decide
  have hlimit : userLimit < 2^64 := by decide
  have hpos : 0 < userRound := by decide
  have hsum (j : Nat) (hj : j < userRound) :
      add64 (startVaddrForUsrs + 4096*j) pageSize = startVaddrForUsrs + 4096*(j+1) := by
    rw [add64_pageSize _ (by omega)]
    ring
  rw [nextUserAddr, hsum _ (Nat.mod_lt k hpos)]
  rcases succ_mod_cases k userRound hpos with ⟨he, hlt⟩ | ⟨he, hlt⟩
  · rw [if_pos (by omega), he]
  · rw [if_neg (by omega), he, Nat.mul_zero, Nat.add_zero]

theorem nextPml_of_eq {p : Nat} (h : add64 p pmlInc = pmlMaxInc) : nextPml p = 0 := by
  unfold nextPml
  exact if_pos h

theorem nextPml_of_ne {p : Nat} (h : add64 p pmlInc ≠ pmlMaxInc) :
    nextPml p = add64 p pmlInc := by
  unfold nextPml
  exact if_neg h

theorem nextPml_round (k : Nat) :
    nextPml (pmlInc * (k % pmlRound)) = pmlInc * ((k+1) % pmlRound) := by
  have hmod : k % pmlRound < 511 := Nat.mod_lt k (by decide)
  have hsum : add64 (pmlInc * (k % pmlRound)) pmlInc = pmlInc * (k % pmlRound + 1) := by
    have hlt : pmlInc * (k % pmlRound) + pmlInc < 2^64 := by
      unfold pmlInc
      omega
    rw [add64_of_lt _ _ hlt, Nat.mul_succ]
  have hmax : pmlMaxInc = pmlInc * pmlRound := by decide
  have hpos : 0 < pmlInc := by decide
  rcases succ_mod_cases k pmlRound (by decide) with ⟨he, hlt⟩ | ⟨he, hlt⟩
  · have hne : add64 (pmlInc * (k % pmlRound)) pmlInc ≠ pmlMaxInc := by
      rw [hsum, hmax]
      exact (Nat.mul_lt_mul_of_pos_left hlt hpos).ne
    rw [nextPml_of_ne hne, hsum, he]
  · have heq : add64 (pmlInc * (k % pmlRound)) pmlInc = pmlMaxInc := by rw [hsum, hlt, hmax]
    rw [nextPml_of_eq heq, he, Nat.mul_zero]

theorem Tally.cursor_next (t : Tally) :
    t.cursor.next = ({ t with addrs := t.addrs+1 } : Tally).cursor := by
  ext1
  · exact nextUserAddr_round t.addrs
  all_goals rfl

theorem Tally.cursor_bump (t : Tally) :
    t.cursor.bump = ({ t with pmls := t.pmls+1 } : Tally).cursor := by
  ext1
  · rfl
  · exact nextPml_round t.pmls
  all_goals rfl

theorem VaStep.run_cursor (c : VaStep) (s : Kernel) (t : Tally) (h : s.vaCursor = t.cursor) :
    (c.run s).vaCursor = (t.step c).cursor := by
  cases c with
  | clearDifCtxt =>
    have hs : (VaStep.run .clearDifCtxt s).vaCursor = { s.vaCursor with difCtxt := 0 } := rfl
    rw [hs, h]
    rfl
  | memmap addr length prot flag =>
    rw [VaStep.run, memmap_vaCursor, h]
    cases flag with
    | accessedNotPresent => rfl
    | rwToCow => rfl
    | newPage =>
      rw [VaCursor.step, Tally.step, show t.cursor.difCtxt = t.difCtxt from rfl, t.cursor_next]
      split_ifs
      · rw [Tally.cursor_bump]
      · rfl
    | setCowRw => exact t.cursor_next
    | growsDown => exact t.cursor_next
    | contextSwitch => exact t.cursor_next

theorem Booted.vaCursor {m : Mem} {pf : Nat} {s : Kernel} (h : Booted m pf s) :
    s.vaCursor = (⟨1, 0, 0⟩ : Tally).cursor := by
  have hbase : s.physbase = 0x200000 := congrArg (·.getD 0 0) h.config
  have hvirt : s.virtBaseForUser = virtBase := congrArg (·.getD 5 0) h.config
  have haddr : s.userAddr = startVaddrForUsrs := congrArg (·.getD 7 0) h.config
  have hdif : s.difCtxt = 1 := congrArg (·.getD 8 0) h.config
  have hpml : s.pmlSameCtxt = 0 := congrArg (·.getD 9 0) h.config
  rw [Kernel.vaCursor, hbase, hvirt, haddr, hdif, hpml]
  rfl

theorem runSteps_cursor (m : Mem) (pf : Nat) (hp : pf % 4096 = 0) (hf : pf < 2^52)
    (steps : List VaStep) :
    (runSteps steps (booted m pf)).vaCursor = (tally steps).cursor := by
  induction steps using List.reverseRecOn with
  | nil => exact (booted_spec m pf hp hf).vaCursor
  | append_singleton steps c ih =>
    rw [runSteps, tally, List.foldl_append, List.foldl_append]
    exact c.run_cursor _ _ ih

/-- The address of the next NEW_PAGE call. -/
def Tally.newPage (t : Tally) : Nat :=
  add64 (startVaddrForUsrs + 4096 * (t.addrs % userRound))
    (if t.difCtxt = 0 then pmlInc * ((t.pmls+1) % pmlRound) else 0)

theorem Tally.cursor_newPage (t : Tally) : t.cursor.newPage = t.newPage := by
  have hlt : startVaddrForUsrs + 4096 * (t.addrs % userRound) < 2^64 := by
    have hround : startVaddrForUsrs + 4096*userRound < 2^64 := by decide
    have hmod := Nat.mod_lt t.addrs (show 0 < userRound by decide)
    omega
  rw [VaCursor.newPage, t.cursor_bump, Tally.newPage, show t.cursor.difCtxt = t.difCtxt from rfl]
  split_ifs
  · rfl
  · exact (add64_of_lt _ 0 hlt).symm

/-- A step takes one address at most. -/
theorem tally_addrs_le (steps : List VaStep) : (tally steps).addrs ≤ steps.length := by
  induction steps using List.reverseRecOn with
  | nil => exact Nat.le_refl 0
  | append_singleton steps c ih =>
    have hstep : (Tally.step (tally steps) c).addrs ≤ (tally steps).addrs + 1 := by
      cases c with
      | clearDifCtxt => exact Nat.le_succ _
      | memmap addr length prot flag => cases flag <;> simp [Tally.step]
    rw [tally, List.foldl_append, List.length_append]
    exact hstep.trans (Nat.succ_le_succ ih)

/-- In the first 2^26 steps user_addr stays below the 2^39 that pml_same_ctxt counts. -/
theorem tally_newPage_lt_iff {steps : List VaStep} (hlen : steps.length < 2^26)
    (hdif : (tally steps).difCtxt = 0) :
    (tally steps).newPage < 2^47 ↔ ((tally steps).pmls+1) % pmlRound ≤ 255 := by
  have haddrs := (tally_addrs_le steps).trans_lt hlen
  have hmod := (Nat.mod_le (tally steps).addrs userRound).trans_lt haddrs
  have hround := Nat.mod_lt ((tally steps).pmls+1) (show 0 < pmlRound by decide)
  have hpml : pmlRound = 511 := rfl
  rw [hpml] at hround
  rw [Tally.newPage, if_pos hdif, hpml, pmlInc, startVaddrForUsrs]
  generalize (tally steps).addrs % userRound = a at hmod
  generalize ((tally steps).pmls+1) % 511 = b at hround
  rw [add64_of_lt _ _ (by omega)]
  omega

/-- After any run from boot, NEW_PAGE returns a user-half address exactly when the round of
user_addr and that of pml_same_ctxt add up to one. Up to 2^26 calls it is the latter that
decides. -/
theorem newPage_canonical_iff (m : Mem) (pf : Nat) (hp : pf % 4096 = 0) (hf : pf < 2^52)
    (steps : List VaStep) :
    ((memmap 0 pageSize usrPermBits .newPage (runSteps steps (booted m pf))).1 < 2^47 ↔
      (tally steps).newPage < 2^47) ∧
    (steps.length < 2^26 → (tally steps).difCtxt = 0 →
      ((tally steps).newPage < 2^47 ↔ ((tally steps).pmls+1) % pmlRound ≤ 255)) := by
  constructor
  · rw [(newPage_result 0 usrPermBits _).1, runSteps_cursor m pf hp hf, Tally.cursor_newPage]
  · exact tally_newPage_lt_iff

theorem newPage_canonical_first :
    (memmap 0 pageSize usrPermBits .newPage
      (runSteps [.clearDifCtxt] (booted (fun _ => 0) 0x300000))).1 < 2^47 := by
  obtain ⟨hiff, hfew⟩ := newPage_canonical_iff (fun _ => 0) 0x300000 (by norm_num) (by norm_num)
    [.clearDifCtxt]
  exact hiff.mpr ((hfew (by norm_num) rfl).mpr (by decide))

/-- The 256th process: its heap descriptor is at 2^47 and above. -/
theorem newPage_leaves_half :
    2^47 ≤ (memmap 0 pageSize usrPermBits .newPage
      (runSteps (.clearDifCtxt :: List.replicate 255 (.memmap 0 pageSize usrPermBits .newPage))
        (booted (fun _ => 0) 0x300000))).1 := by
  rw [(newPage_result 0 usrPermBits _).1,
    runSteps_cursor (fun _ => 0) 0x300000 (by norm_num) (by norm_num), Tally.cursor_newPage]
  decide +kernel

/-- The flags for which memmap makes up the address. -/
inductive PageFlag where
  | newPage
  | growsDown
  | setCowRw
  deriving DecidableEq, Repr

def PageFlag.flag : PageFlag → MapFlag
  | .newPage => .newPage
  | .growsDown => .growsDown
  | .setCowRw => .setCowRw

/-- memmap(addr, PAGE_SIZE, prot, flag) -/
structure PageCall where
  addr : Nat
  prot : Nat
  flag : PageFlag
  deriving DecidableEq, Repr

def mapSeq (calls : List PageCall) (s : Kernel) : Kernel :=
  calls.foldl (fun s c => (memmap c.addr pageSize c.prot c.flag.flag s).2) s

/-- The pages the calls install, newest first: one a call. -/
def installed (calls : List PageCall) (s : Kernel) : List Nat :=
  (ptesIn (mapSeq calls s).log).take calls.length

def VaCursor.page (c : VaCursor) : PageFlag → Nat
  | .newPage => c.newPage
  | .growsDown => sub64 c.userAddr pageSize
  | .setCowRw => roundDown c.userAddr pageSize

def Tally.call (t : Tally) (f : PageFlag) : Tally :=
  t.step (.memmap 0 pageSize usrPermBits f.flag)

/-- The pages of a sequence, oldest first. -/
def pagesOf (t : Tally) : List PageFlag → List Nat
  | [] => []
  | f::fs => t.cursor.page f :: pagesOf (t.call f) fs

theorem memmap_page (c : PageCall) (s : Kernel) :
    ptesIn (memmap c.addr pageSize c.prot c.flag.flag s).2.log =
      s.vaCursor.page c.flag :: ptesIn s.log := by
  obtain ⟨addr, prot, flag⟩ := c
  cases flag with
  | newPage => exact (newPage_result addr prot s).2
  | growsDown => exact (growsDown_result addr prot s).2
  | setCowRw => exact (setCowRw_result addr prot s).2

theorem mapSeq_ptes (calls : List PageCall) (s : Kernel) (t : Tally)
    (h : s.vaCursor = t.cursor) :
    ptesIn (mapSeq calls s).log =
      (pagesOf t (calls.map PageCall.flag)).reverse ++ ptesIn s.log := by
  induction calls generalizing s t with
  | nil => rfl
  | cons c calls ih =>
    have hc := VaStep.run_cursor (.memmap c.addr pageSize c.prot c.flag.flag) s t h
    have hstep := ih _ _ hc
    rw [List.map_cons, pagesOf, List.reverse_cons, List.append_assoc, List.singleton_append, ← h,
      ← memmap_page]
    exact hstep

theorem pagesOf_length (t : Tally) (fs : List PageFlag) : (pagesOf t fs).length = fs.length := by
  induction fs generalizing t with
  | nil => rfl
  | cons f fs ih => rw [pagesOf, List.length_cons, List.length_cons, ih]

theorem installed_eq (calls : List PageCall) (s : Kernel) (t : Tally)
    (h : s.vaCursor = t.cursor) :
    installed calls s = (pagesOf t (calls.map PageCall.flag)).reverse := by
  rw [installed, mapSeq_ptes calls s t h]
  apply List.take_left'
  rw [List.length_reverse, pagesOf_length, List.length_map]

/-- user_addr as the next call finds it. -/
def Tally.addr (t : Tally) : Nat := startVaddrForUsrs + 4096 * (t.addrs % userRound)

/-- What the next NEW_PAGE call adds to it. -/
def Tally.offset (t : Tally) : Nat :=
  if t.difCtxt = 0 then pmlInc * ((t.pmls+1) % pmlRound) else 0

/-- The call maps the page at user_addr itself. -/
def Tally.mapsOwn (t : Tally) : PageFlag → Bool
  | .newPage => t.offset = 0
  | .growsDown => false
  | .setCowRw => true

/-- No GROWS_DOWN right after a call that mapped the page at its own user_addr; `own` says so of
the call before. -/
def Spaced (t : Tally) (own : Bool) : List PageFlag → Prop
  | [] => True
  | f::fs => (f = .growsDown → own = false) ∧ Spaced (t.call f) (t.mapsOwn f) fs

theorem Tally.call_addr (t : Tally) (f : PageFlag) (h : t.addr + 4096 < 2^63) :
    (t.call f).addr = t.addr + 4096 := by
  have hround : 2^63 < startVaddrForUsrs + 4096*userRound := by decide
  have haddrs : (t.call f).addrs = t.addrs+1 := by
    cases f <;> rfl
  rw [Tally.addr] at h
  rw [Tally.addr, Tally.addr, haddrs]
  rcases succ_mod_cases t.addrs userRound (by decide) with ⟨he, hlt⟩ | ⟨he, hlt⟩ <;> omega

theorem Tally.offset_mod (t : Tally) : t.offset % 2^39 = 0 ∧ t.offset < 2^48 := by
  have hmod : (t.pmls+1) % pmlRound < 511 := Nat.mod_lt _ (by decide)
  rw [Tally.offset]
  unfold pmlInc
  split_ifs
  · omega
  · exact ⟨rfl, by norm_num⟩

theorem Tally.addr_aligned (t : Tally) : t.addr % 4096 = 0 ∧ 4096 ≤ t.addr := by
  rw [Tally.addr]
  unfold startVaddrForUsrs
  omega

/-- The page of one call. -/
theorem Tally.page_eq (t : Tally) (f : PageFlag) (h : t.addr < 2^63) :
    t.cursor.page f = match f with
      | .newPage => t.addr + t.offset
      | .growsDown => t.addr - 4096
      | .setCowRw => t.addr := by
  have hal := t.addr_aligned
  cases f with
  | newPage =>
    have hoff := t.offset_mod
    exact t.cursor_newPage.trans (add64_of_lt t.addr t.offset (by omega))
  | growsDown => exact sub64_of_le t.addr pageSize hal.2 (by omega)
  | setCowRw =>
    show t.addr - t.addr % 4096 = t.addr
    omega

/-- Up to the offsets, a sequence's pages lie at its user addresses; only a first GROWS_DOWN
comes before them. -/
theorem mem_pagesOf (t : Tally) (fs : List PageFlag) (hend : t.addr + 4096*fs.length < 2^63)
    (v : Nat) (hv : v ∈ pagesOf t fs) :
    v % 4096 = 0 ∧ ((∃ j < fs.length, v % 2^39 = (t.addr + 4096*j) % 2^39) ∨
      v = t.addr - 4096 ∧ fs.head? = some .growsDown) := by
  induction fs generalizing t with
  | nil => simp [pagesOf] at hv
  | cons f fs ih =>
    have hal := t.addr_aligned
    rw [List.length_cons] at hend ⊢
    rw [pagesOf, List.mem_cons] at hv
    rcases hv with rfl | hv
    · rw [t.page_eq f (by omega)]
      cases f with
      | newPage =>
        have hoff := t.offset_mod
        exact ⟨by dsimp only; omega, Or.inl ⟨0, by omega, by dsimp only; omega⟩⟩
      | growsDown => exact ⟨by dsimp only; omega, Or.inr ⟨rfl, rfl⟩⟩
      | setCowRw => exact ⟨hal.1, Or.inl ⟨0, by omega, rfl⟩⟩
    · have hlt : t.addr + 4096 < 2^63 := lt_of_le_of_lt (by omega) hend
      have hnext := t.call_addr f hlt
      obtain ⟨h4, ⟨j, hj, hm⟩ | ⟨he, -⟩⟩ := ih (t.call f) (by rw [hnext]; omega) hv
      · refine ⟨h4, Or.inl ⟨j+1, by omega, ?_⟩⟩
        rw [hm, hnext, Nat.add_assoc, Nat.mul_succ, Nat.add_comm 4096]
      · refine ⟨h4, Or.inl ⟨0, by omega, ?_⟩⟩
        rw [he, hnext, Nat.add_sub_cancel, Nat.mul_zero, Nat.add_zero]

theorem pagesOf_nodup (t : Tally) (own : Bool) (fs : List PageFlag) (hlen : fs.length < 2^27)
    (hend : t.addr + 4096*fs.length < 2^63) (hs : Spaced t own fs) : (pagesOf t fs).Nodup := by
  induction fs generalizing t own with
  | nil => exact List.nodup_nil
  | cons f fs ih =>
    have hal := t.addr_aligned
    rw [List.length_cons] at hlen hend
    obtain ⟨-, hrest⟩ := hs
    have hlt : t.addr + 4096 < 2^63 := lt_of_le_of_lt (by omega) hend
    have hnext := t.call_addr f hlt
    have hend' : (t.call f).addr + 4096*fs.length < 2^63 := by omega
    rw [pagesOf, List.nodup_cons]
    refine ⟨fun hmem => ?_, ih (t.call f) (t.mapsOwn f) (by omega) hend' hrest⟩
    have hpage := t.page_eq f (by omega)
    obtain ⟨-, ⟨j, hj, hm⟩ | ⟨he, hhead⟩⟩ := mem_pagesOf (t.call f) fs hend' _ hmem
    · rw [hpage, hnext] at hm
      cases f with
      | newPage =>
        have hoff := t.offset_mod
        dsimp only at hm
        omega
      | growsDown =>
        dsimp only at hm
        omega
      | setCowRw =>
        dsimp only at hm
        omega
    · rw [hpage, hnext, Nat.add_sub_cancel] at he
      have hown : t.mapsOwn f = false := by
        cases fs with
        | nil => cases hhead
        | cons g gs => exact hrest.1 (Option.some.inj hhead)
      cases f with
      | newPage =>
        have hz : t.offset = 0 := by
          dsimp only at he
          omega
        simp [Tally.mapsOwn, hz] at hown
      | growsDown =>
        dsimp only at he
        omega
      | setCowRw => cases hown

theorem Tally.page_of_mapsOwn {t : Tally} {f : PageFlag} (h : t.addr < 2^63)
    (hown : t.mapsOwn f = true) : t.cursor.page f = t.addr := by
  rw [t.page_eq f h]
  cases f with
  | newPage =>
    have hz : t.offset = 0 := by simpa [Tally.mapsOwn] using hown
    exact congrArg (t.addr + ·) hz
  | growsDown => cases hown
  | setCowRw => rfl

/-- The other direction. -/
theorem spaced_of_nodup (t : Tally) (own : Bool) (fs : List PageFlag)
    (hend : t.addr + 4096*fs.length < 2^63)
    (hprev : own = true → t.addr - 4096 ∉ pagesOf t fs) (hn : (pagesOf t fs).Nodup) :
    Spaced t own fs := by
  induction fs generalizing t own with
  | nil => trivial
  | cons f fs ih =>
    rw [List.length_cons] at hend
    have hlt : t.addr + 4096 < 2^63 := lt_of_le_of_lt (by omega) hend
    have hnext := t.call_addr f hlt
    obtain ⟨hnot, hrest⟩ := List.nodup_cons.mp hn
    refine ⟨fun hf => ?_, ih (t.call f) (t.mapsOwn f) (by omega) (fun hown => ?_) hrest⟩
    · subst hf
      by_contra hown
      apply hprev (by simpa using hown)
      rw [pagesOf, t.page_eq .growsDown (by omega)]
      exact List.mem_cons_self
    · rwa [hnext, Nat.add_sub_cancel, ← Tally.page_of_mapsOwn (by omega) hown]

/-- Sequences of NEW_PAGE, GROWS_DOWN and SET_COW_RW from any point of a run: two calls map the
same page exactly when a GROWS_DOWN follows a call that mapped the page at its own address. -/
theorem installed_nodup_iff (s : Kernel) (t : Tally) (h : s.vaCursor = t.cursor)
    (calls : List PageCall) (hlen : calls.length < 2^27)
    (hend : t.addr + 4096*calls.length < 2^63) :
    ((installed calls s).map (· / pageSize)).Nodup ↔
      Spaced t false (calls.map PageCall.flag) := by
  rw [← List.length_map PageCall.flag] at hlen hend
  rw [installed_eq calls s t h, List.map_reverse, List.nodup_reverse]
  constructor
  · intro hn
    exact spaced_of_nodup t false _ hend (fun h => absurd h Bool.false_ne_true) (hn.of_map _)
  · intro hs
    refine List.Nodup.map_on (fun x hx y hy hxy => ?_) (pagesOf_nodup t false _ hlen hend hs)
    have hx4 := (mem_pagesOf t _ hend x hx).1
    have hy4 := (mem_pagesOf t _ hend y hy).1
    unfold pageSize at hxy
    omega

/-- A stack, a heap descriptor and a copied page after boot. -/
theorem installed_nodup_three :
    ((installed [⟨0, usrPermBits, .growsDown⟩, ⟨0, usrPermBits, .newPage⟩,
      ⟨0, usrPermBits, .setCowRw⟩] (booted (fun _ => 0) 0x300000)).map (· / pageSize)).Nodup :=
  (installed_nodup_iff _ ⟨1, 0, 0⟩
    (booted_spec (fun _ => 0) 0x300000 (by norm_num) (by norm_num)).vaCursor _ (by decide)
    (by decide)).mpr ⟨fun _ => rfl, nofun, nofun, trivial⟩

/-- The stack after a copied page takes that page. -/
theorem installed_stack_overlaps :
    ¬((installed [⟨0, usrPermBits, .setCowRw⟩, ⟨0, usrPermBits, .growsDown⟩]
      (booted (fun _ => 0) 0x300000)).map (· / pageSize)).Nodup := by
  rw [installed_eq _ _ ⟨1, 0, 0⟩
    (booted_spec (fun _ => 0) 0x300000 (by norm_num) (by norm_num)).vaCursor]
  decide +kernel

end SBUnix
