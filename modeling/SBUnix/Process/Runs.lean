import SBUnix.Process.Wait

namespace SBUnix

/-- The process operations a run is made of; a segmentation fault is `exit 1`. -/
inductive ProcOp where
  | fork
  | exec
  | exit (status : Int)
  | kill (pid : Nat)
  deriving DecidableEq, Repr

def ProcOp.step : ProcOp → Procs → Option Procs
  | .fork, s => some (forkProcess s)
  | .exec, s => SBUnix.exec s
  | .exit status, s => some (exitProcess status s)
  | .kill pid, s => some (killProcess pid s)

/-- The shell alone, after boot. -/
def bootProcs : Procs := initUsrPcb .init

/-- The states of the runs from boot whose steps all meet `ok` where they are taken. -/
inductive Reached (ok : ProcOp → Procs → Prop) : Procs → Prop where
  | boot : Reached ok bootProcs
  | step {s t : Procs} (op : ProcOp) : Reached ok s → ok op s → op.step s = some t → Reached ok t

theorem Reached.induction {ok : ProcOp → Procs → Prop} {inv : Procs → Prop}
    (boot : inv bootProcs)
    (step : ∀ op s t, inv s → ok op s → op.step s = some t → inv t) {s : Procs}
    (h : Reached ok s) : inv s := by
  induction h with
  | boot => exact boot
  | step op _ hok hstep ih => exact step op _ _ ih hok hstep

section Steps

variable {s : Procs}

theorem exec_eq {k : Nat} (hk : s.globalChild = some k) (hc : s.processCount < 2^16 - 1) :
    exec s = some { s with
      processCount := s.processCount+1
      ready := Function.update s.ready s.processCount (s.heap k)
      curr := .heap k
      log := .store (.ready s.processCount) :: s.log } := by
  have hi : inc16 s.processCount = s.processCount+1 := Nat.mod_eq_of_lt (by omega)
  have hx : (s.processCount + 1 + (2^64-1)) % 2^64 = s.processCount := by omega
  simp only [exec, hk, Option.map_some, addToReadyListUser, hi, hx, Procs.note]
  split_ifs <;> rfl

/-- An exec that comes to an end has run the last child of fork, from the next slot of the
queue. -/
theorem exec_inv {t : Procs} (hc : s.processCount < numProcs) (ht : exec s = some t) :
    ∃ k, s.globalChild = some k ∧ t = { s with
      processCount := s.processCount+1
      ready := Function.update s.ready s.processCount (s.heap k)
      curr := .heap k
      log := .store (.ready s.processCount) :: s.log } := by
  obtain ⟨k, hk⟩ : ∃ k, s.globalChild = some k := by
    cases hg : s.globalChild with
    | none =>
      simp only [exec, hg] at ht
      cases ht
    | some k => exact ⟨k, rfl⟩
  have he := exec_eq hk (by unfold numProcs at hc; omega)
  exact ⟨k, hk, Option.some.inj (ht.symm.trans he)⟩

/-- The state in which kill_process calls exit_process. -/
def Procs.killing (s : Procs) (pid : Nat) : Procs :=
  { s.note [.load (.zombie pid)] with curr := .zombie pid }

/-- kill_process comes to nothing, to a look at the zombie queue, or to an exit in the place
of the zombie. -/
theorem killProcess_cases (pid : Nat) (s : Procs) :
    pid = 0 ∧ killProcess pid s = s ∨
    killProcess pid s = s.note [.load (.zombie pid)] ∨
    pid ≠ 0 ∧ (s.zombie pid).pid = pid ∧
      killProcess pid s = { exitProcess 1 (s.killing pid) with curr := s.curr } := by
  by_cases h0 : pid = 0
  · exact Or.inl ⟨h0, if_pos h0⟩
  · by_cases hz : (s.zombie pid).pid = pid
    · refine Or.inr (Or.inr ⟨h0, hz, ?_⟩)
      exact (if_neg h0).trans (if_pos hz)
    · refine Or.inr (Or.inl ?_)
      exact (if_neg h0).trans (if_neg hz)

end Steps

/-- What keeps the queue in order: a fork that does not wrap the pid counter, an exec of a
child that is not queued and has not exited, and an exit with another status than 1 of a process
that is not in slot 0 unless it is the last. -/
def Orderly : ProcOp → Procs → Prop
  | .fork, s => s.upid + 1 < 2^16
  | .exec, s => ∀ k, s.globalChild = some k →
      (∀ i < s.processCount, (s.ready i).pid ≠ (s.heap k).pid) ∧
      .exited (s.heap k).pid ∉ s.log
  | .exit status, s => status ≠ 1 ∧ 1 ≤ s.processCount ∧
      (s.processCount = 1 ∨ (s.ready 0).pid ≠ s.current.pid)
  | .kill _, _ => True

/-- The bounds under which a step stores inside the arrays. -/
def StoreSafe : ProcOp → Procs → Prop
  | .fork, _ => True
  | .exec, s => s.processCount < numProcs
  | .exit status, s => s.current.pid < numProcs ∧ zombieIndex status s < numProcs
  | .kill pid, s => pid < numProcs ∧
      (pid ≠ 0 → (s.zombie pid).pid = pid → s.zomCount < numProcs)

/-- An orderly step within these bounds. -/
def OrderlyInside (op : ProcOp) (s : Procs) : Prop := Orderly op s ∧ StoreSafe op s

structure QueueInv (s : Procs) : Prop where
  window : Window s
  alive : ∀ i < s.processCount, .exited (s.ready i).pid ∉ s.log
  zombie : ∀ k, (s.zombie k).pid = 0 ∨ .exited (s.zombie k).pid ∈ s.log
  child : ∀ k, s.globalChild = some k → (s.heap k).pid ≠ 0
  small : s.processCount ≤ numProcs

section Queue

variable {s : Procs}

theorem queueInv_boot : QueueInv bootProcs where
  window :=
    { nonzero := fun i hi => by
        have hi : i < 1 := hi
        obtain rfl : i = 0 := by omega
        decide
      distinct := fun i hi j hj _ => by
        have hi : i < 1 := hi
        have hj : j < 1 := hj
        omega }
  alive i hi := by
    have hi : i < 1 := hi
    obtain rfl : i = 0 := by omega
    decide
  zombie _ := Or.inl rfl
  child := nofun
  small := by decide

theorem QueueInv.fork (h : QueueInv s) (hu : s.upid + 1 < 2^16) : QueueInv (forkProcess s) where
  window := ⟨h.window.nonzero, h.window.distinct⟩
  alive i hi hm := by
    rcases List.mem_cons.mp hm with he | he
    · cases he
    · exact h.alive i hi he
  zombie k := (h.zombie k).imp_right (List.mem_cons_of_mem _)
  child k hk := by
    obtain rfl : s.heapNext = k := Option.some.inj hk
    have hp : inc16 s.upid = s.upid+1 := Nat.mod_eq_of_lt hu
    simp [forkProcess, Procs.alloc, Procs.note, hp]
  small := h.small

theorem QueueInv.exec {t : Procs} (h : QueueInv s) (ho : OrderlyInside .exec s)
    (ht : ProcOp.exec.step s = some t) : QueueInv t := by
  obtain ⟨hfresh, hlt⟩ := ho
  obtain ⟨k, hk, rfl⟩ := exec_inv hlt ht
  obtain ⟨hnew, hlive⟩ := hfresh k hk
  -- slot process_count now has the child, the slots below it are as they were
  have hold (i : Nat) (hi : i < s.processCount) :
      Function.update s.ready s.processCount (s.heap k) i = s.ready i :=
    Function.update_of_ne hi.ne _ _
  have hself : Function.update s.ready s.processCount (s.heap k) s.processCount = s.heap k :=
    Function.update_self _ _ _
  have hcase (i : Nat) (hi : i < s.processCount + 1) : i < s.processCount ∨ i = s.processCount :=
    Nat.lt_succ_iff_lt_or_eq.mp hi
  constructor
  case window =>
    constructor
    case nonzero =>
      intro i hi
      dsimp only
      rcases hcase i hi with hi | rfl
      · rw [hold i hi]
        exact h.window.nonzero i hi
      · rw [hself]
        exact h.child k hk
    case distinct =>
      intro i hi j hj hp
      dsimp only at hp
      rcases hcase i hi with hi | rfl <;> rcases hcase j hj with hj | rfl
      · rw [hold i hi, hold j hj] at hp
        exact h.window.distinct i hi j hj hp
      · rw [hold i hi, hself] at hp
        exact absurd hp (hnew i hi)
      · rw [hold j hj, hself] at hp
        exact absurd hp.symm (hnew j hj)
      · rfl
  case alive =>
    intro i hi hm
    dsimp only at hm
    have hm := (List.mem_cons.mp hm).resolve_left nofun
    rcases hcase i hi with hi | rfl
    · rw [hold i hi] at hm
      exact h.alive i hi hm
    · rw [hself] at hm
      exact hlive hm
  case zombie => exact fun k => (h.zombie k).imp_right (List.mem_cons_of_mem _)
  case child => exact h.child
  case small => exact hlt

/-- The only process an exit adds to those that have exited is the current one. -/
theorem exited_mem_exitProcess {status : Int} (hc : status ≠ 1 → 1 ≤ s.processCount) (p : Nat) :
    .exited p ∈ (exitProcess status s).log ↔ p = s.current.pid ∨ .exited p ∈ s.log := by
  obtain ⟨es, hlog, hes⟩ := exitProcess_log status s hc
  have hno : .exited p ∉ es := by
    intro hm
    rcases hes _ hm with ⟨x, -, he⟩ | ⟨x, -, he⟩ | ⟨-, z, -, he | he | he | he⟩ <;> cases he
  rw [hlog]
  simp [hno]

/-- Slot `j` of the queue after an exit comes from this slot of the one before. -/
def exitSource (s : Procs) (j : Nat) : Nat :=
  if exitSlot s ≤ j ∧ j < s.processCount then j+1 else j

theorem exitProcess_ready_pid (status : Int) (s : Procs) (j : Nat) :
    ((exitProcess status s).ready j).pid = (s.ready (exitSource s j)).pid := by
  rw [exitProcess_ready, exitSource]
  split_ifs <;> exact recordZombie_ready_pid status s _

/-- A slot that stays in the window is not the one of the process that leaves. -/
theorem exitSource_ne (hw : Window s) (h0 : s.processCount = 1 ∨ (s.ready 0).pid ≠ s.current.pid)
    (j : Nat) (hj : j + 1 < s.processCount) :
    exitSource s j < s.processCount ∧ (s.ready (exitSource s j)).pid ≠ s.current.pid := by
  have hlt : exitSource s j < s.processCount := by
    unfold exitSource
    split_ifs <;> omega
  refine ⟨hlt, ?_⟩
  intro hp
  unfold exitSource at hlt hp
  rcases searchReady_spec s s.current.pid with ⟨h1, h2, h3, h4⟩ | ⟨h1, h2⟩
  · rw [← exitSlot] at h1 h2 h3 h4
    split_ifs at hlt hp with h
    · have := hw.distinct _ hlt (exitSlot s) (by omega) (hp.trans h3.symm)
      omega
    · rcases Nat.eq_zero_or_pos j with rfl | hpos
      · exact h0.elim (by omega) (fun h => h hp)
      · exact h4 j hpos (by omega) hp
  · rw [← exitSlot] at h1
    rw [if_neg (by omega)] at hp
    rcases Nat.eq_zero_or_pos j with rfl | hpos
    · exact h0.elim (by omega) (fun h => h hp)
    · exact h2 j hpos (by omega) hp

theorem QueueInv.exit {status : Int} (h : QueueInv s) (hs : status ≠ 1)
    (hc : 1 ≤ s.processCount) (h0 : s.processCount = 1 ∨ (s.ready 0).pid ≠ s.current.pid) :
    QueueInv (exitProcess status s) := by
  have hsmall := h.small
  obtain ⟨hcount, hzom, -, -⟩ := exitProcess_leave s hs
  have hdec : (exitProcess status s).processCount + 1 = s.processCount := by
    rw [hcount]
    unfold dec16 numProcs at *
    omega
  have hsrc (j : Nat) (hj : j < (exitProcess status s).processCount) :=
    exitSource_ne h.window h0 j (by omega)
  have hsame := exitProcess_sameChild status s
  constructor
  case window =>
    constructor
    case nonzero =>
      intro j hj
      rw [exitProcess_ready_pid]
      exact h.window.nonzero _ (hsrc j hj).1
    case distinct =>
      intro i hi j hj hp
      rw [exitProcess_ready_pid, exitProcess_ready_pid] at hp
      have := h.window.distinct _ (hsrc i hi).1 _ (hsrc j hj).1 hp
      unfold exitSource at this
      split_ifs at this <;> omega
  case alive =>
    intro j hj hm
    rw [exitProcess_ready_pid, exited_mem_exitProcess (fun _ => hc)] at hm
    exact hm.elim (hsrc j hj).2 (h.alive _ (hsrc j hj).1)
  case zombie =>
    intro k
    rw [hzom, recordZombie_zombie_pid, exited_mem_exitProcess (fun _ => hc)]
    split_ifs
    · exact Or.inr (Or.inl rfl)
    · exact (h.zombie k).imp_right Or.inr
  case child =>
    intro k hk
    rw [hsame.heap]
    exact h.child k (hsame.child.symm.trans hk)
  case small => omega

/-- Killing a zombie leaves the queue alone: the zombie is not in it. -/
theorem QueueInv.kill (h : QueueInv s) (pid : Nat) : QueueInv (killProcess pid s) := by
  rcases killProcess_cases pid s with ⟨-, he⟩ | he | ⟨h0, hz, he⟩
  · rw [he]
    exact h
  · rw [he]
    refine ⟨⟨h.window.nonzero, h.window.distinct⟩, ?_,
      fun k => (h.zombie k).imp_right (List.mem_cons_of_mem _), h.child, h.small⟩
    intro i hi hm
    exact h.alive i hi ((List.mem_cons.mp hm).resolve_left nofun)
  · rw [he]
    have hpid : (s.killing pid).current.pid = pid := hz
    have hexited : .exited pid ∈ s.log := by
      rcases h.zombie pid with hzero | hm
      · exact absurd (hz.symm.trans hzero) h0
      · rwa [hz] at hm
    have hout (i : Nat) (hi : i < s.processCount) : (s.ready i).pid ≠ pid :=
      fun hp => h.alive i hi (hp ▸ hexited)
    have hslot : s.processCount ≤ exitSlot (s.killing pid) := by
      unfold exitSlot
      rw [hpid]
      rcases searchReady_spec (s.killing pid) pid with ⟨-, -, h3, -⟩ | ⟨h1, -⟩
      · by_contra hlt
        exact hout _ (not_le.mp hlt) h3
      · exact (Nat.le_succ _).trans h1.ge
    have hready (j : Nat) : (exitProcess 1 (s.killing pid)).ready j = s.ready j := by
      rw [exitProcess_ready, if_neg (fun hj => absurd (hslot.trans hj.1) (not_le.mpr hj.2)),
        recordZombie_ready 1 (s.killing pid) j nofun]
      rfl
    obtain ⟨q, es, hx, hq, -⟩ := exitProcess_reap (s.killing pid)
    have hcount : (exitProcess 1 (s.killing pid)).processCount = s.processCount := by
      rw [hx, unqueue_eq]
      exact recordZombie_processCount 1 (s.killing pid)
    have hlog (p : Nat) :
        .exited p ∈ (exitProcess 1 (s.killing pid)).log ↔ p = pid ∨ .exited p ∈ s.log := by
      rw [exited_mem_exitProcess (fun h => absurd rfl h), hpid]
      refine or_congr_right ?_
      exact ⟨fun hm => (List.mem_cons.mp hm).resolve_left nofun, List.mem_cons_of_mem _⟩
    have hsame := exitProcess_sameChild 1 (s.killing pid)
    constructor
    case window =>
      refine ⟨?_, ?_⟩
      · intro i hi
        dsimp only at hi ⊢
        rw [hready]
        exact h.window.nonzero i (hcount ▸ hi)
      · intro i hi j hj hp
        dsimp only at hi hj hp
        rw [hready, hready] at hp
        exact h.window.distinct i (hcount ▸ hi) j (hcount ▸ hj) hp
    case alive =>
      intro i hi hm
      dsimp only at hi hm
      rw [hready, hlog] at hm
      exact hm.elim (hout i (hcount ▸ hi)) (h.alive i (hcount ▸ hi))
    case zombie =>
      intro k
      dsimp only
      have hk : (exitProcess 1 (s.killing pid)).zombie k = q k := by rw [hx]
      obtain ⟨k', hk'⟩ := hq k
      rw [hk, hlog, hk', recordZombie_zombie_pid, hpid]
      split_ifs
      · exact Or.inr (Or.inl rfl)
      · exact (h.zombie k').imp_right Or.inr
    case child =>
      intro k hk
      dsimp only at hk ⊢
      rw [hsame.child] at hk
      rw [hsame.heap]
      exact h.child k hk
    case small =>
      dsimp only
      rw [hcount]
      exact h.small

theorem QueueInv.step {t : Procs} {op : ProcOp} (h : QueueInv s) (hok : OrderlyInside op s)
    (ht : op.step s = some t) : QueueInv t := by
  cases op with
  | fork =>
    obtain rfl := Option.some.inj ht
    exact h.fork hok.1
  | exec => exact h.exec hok ht
  | exit status =>
    obtain rfl := Option.some.inj ht
    exact h.exit hok.1.1 hok.1.2.1 hok.1.2.2
  | kill pid =>
    obtain rfl := Option.some.inj ht
    exact h.kill pid

end Queue

/-- Every store of the run so far went inside the arrays. -/
def StoredInside (s : Procs) : Prop := ∀ x, .store x ∈ s.log → x.index < numProcs

/-- The pids that are recorded are indices as well: the reaping loop stores where they point. -/
structure StoreInv (s : Procs) : Prop where
  stored : StoredInside s
  zombies : ∀ z, s.zombies z < numProcs

section Store

variable {s t : Procs}

theorem storesInside_of_log (h : t.log = s.log) : StoresInside s t := ⟨[], h, by simp⟩

theorem forkProcess_storesInside (h : t.log = (forkProcess s).log) : StoresInside s t :=
  ⟨[.created (inc16 s.upid)], h, by simp⟩

theorem StoredInside.trans (h : StoredInside s) (hs : StoresInside s t) : StoredInside t := by
  obtain ⟨es, hlog, hes⟩ := hs
  intro x hx
  rw [hlog, List.mem_append] at hx
  exact hx.elim (hes x) (h x)

theorem bootProcs_storedInside : StoredInside bootProcs := by
  have hlog : bootProcs.log = [.store (.ready 0), .created 1] := by decide
  intro x hx
  rw [hlog] at hx
  obtain rfl : x = .ready 0 := by simpa using hx
  decide

theorem exitProcess_zombies (status : Int) (s : Procs) : (exitProcess status s).zombies =
    Function.update s.zombies (zombieIndex status s) s.current.pid := by
  rw [← recordZombie_zombies]
  by_cases hs : status = 1
  · subst hs
    obtain ⟨q, es, he, -⟩ := exitProcess_reap s
    rw [he, unqueue_eq]
  · obtain ⟨c, n, he, -⟩ := exitProcess_resume s hs
    rw [he, unqueue_eq]

/-- What an exit stores besides recording the zombie. -/
theorem StoreInv.exitEvent {status : Int} (h : StoreInv s) (hc : s.processCount ≤ numProcs)
    (hp : s.current.pid < numProcs) {x : Slot} (he : ExitEvent status s (.store x)) :
    x.index < numProcs := by
  rcases he with ⟨y, -, hx⟩ | ⟨y, hy, hx⟩ | ⟨-, z, -, hx | hx | hx | hx⟩
  · cases hx
  · cases hx
    exact hy.trans_le hc
  · cases hx
  · cases hx
  · cases hx
  · cases hx
    change (recordZombie 1 s).zombies z < numProcs
    rw [recordZombie_zombies, Function.update_apply]
    split_ifs
    · exact hp
    · exact h.zombies z

theorem StoreInv.exit {status : Int} (h : StoreInv s) (hsmall : s.processCount ≤ numProcs)
    (hc : status ≠ 1 → 1 ≤ s.processCount) (hp : s.current.pid < numProcs)
    (hz : zombieIndex status s < numProcs) : StoreInv (exitProcess status s) := by
  constructor
  case stored =>
    obtain ⟨es, hlog, hes⟩ := exitProcess_log status s hc
    refine h.stored.trans ⟨_, hlog, ?_⟩
    intro x hx
    rcases List.mem_append.mp hx with hx | hx
    · exact h.exitEvent hsmall hp (hes _ hx)
    · simp only [List.mem_cons, reduceCtorEq, ProcEvent.store.injEq, List.not_mem_nil, or_false,
        false_or] at hx
      rcases hx with rfl | rfl
      · exact hp
      · exact hz
  case zombies =>
    intro z
    rw [exitProcess_zombies, Function.update_apply]
    split_ifs
    · exact hp
    · exact h.zombies z

theorem StoreInv.setCurr (h : StoreInv s) (c : TaskPtr) : StoreInv { s with curr := c } :=
  ⟨h.stored, h.zombies⟩

theorem StoreInv.kill {pid : Nat} (h : StoreInv s) (hsmall : s.processCount ≤ numProcs)
    (hk : StoreSafe (.kill pid) s) : StoreInv (killProcess pid s) := by
  obtain ⟨hp, hz⟩ := hk
  have hlook : StoreInv (s.note [.load (.zombie pid)]) :=
    ⟨h.stored.trans ⟨[.load (.zombie pid)], rfl, by simp⟩, h.zombies⟩
  rcases killProcess_cases pid s with ⟨-, he⟩ | he | ⟨h0, hhit, he⟩
  · rwa [he]
  · rwa [he]
  · have hkill : StoreInv (s.killing pid) := hlook.setCurr (.zombie pid)
    have hcur : (s.killing pid).current.pid < numProcs := hhit.trans_lt hp
    have hslot : zombieIndex 1 (s.killing pid) < numProcs := hz h0 hhit
    rw [he]
    exact (hkill.exit hsmall (fun h => absurd rfl h) hcur hslot).setCurr s.curr

theorem StoreInv.step {op : ProcOp} (h : StoreInv s) (hq : QueueInv s) (hok : OrderlyInside op s)
    (ht : op.step s = some t) : StoreInv t := by
  cases op with
  | fork =>
    obtain rfl := Option.some.inj ht
    exact ⟨h.stored.trans (forkProcess_storesInside rfl), h.zombies⟩
  | exec =>
    obtain ⟨k, -, rfl⟩ := exec_inv hok.2 ht
    refine ⟨h.stored.trans ⟨[.store (.ready s.processCount)], rfl, ?_⟩, h.zombies⟩
    intro x hx
    obtain rfl := ProcEvent.store.inj (List.mem_singleton.mp hx)
    exact hok.2
  | exit status =>
    obtain rfl := Option.some.inj ht
    exact h.exit hq.small (fun _ => hok.1.2.1) hok.2.1 hok.2.2
  | kill pid =>
    obtain rfl := Option.some.inj ht
    exact h.kill hq.small hok.2

end Store

/-- In a run of orderly steps the window holds distinct live processes throughout, and nothing is
stored outside the arrays. -/
theorem orderly_runs_window (s : Procs) (h : Reached OrderlyInside s) :
    (Window s ∧ ∀ i < s.processCount, .exited (s.ready i).pid ∉ s.log) ∧ StoredInside s := by
  have hinv : QueueInv s ∧ StoreInv s := by
    induction h with
    | boot => exact ⟨queueInv_boot, bootProcs_storedInside, fun _ => (by decide : 0 < numProcs)⟩
    | step op _ hok ht ih => exact ⟨ih.1.step hok ht, ih.2.step ih.1 hok ht⟩
  exact ⟨⟨hinv.1.window, hinv.1.alive⟩, hinv.2.stored⟩

theorem orderlyInside_exec_child : OrderlyInside .exec (forkProcess bootProcs) := by
  refine ⟨?_, (by decide : (1 : Nat) < numProcs)⟩
  intro k hk
  obtain rfl : 1 = k := Option.some.inj hk
  refine ⟨?_, by decide⟩
  intro i hi
  have hi : i < 1 := hi
  obtain rfl : i = 0 := by omega
  decide

/-- The shell forks a child, which runs a program. -/
theorem orderly_runs_child : ∃ s, s.processCount = 2 ∧
    (Window s ∧ ∀ i < s.processCount, .exited (s.ready i).pid ∉ s.log) ∧ StoredInside s := by
  refine ⟨_, ?_, orderly_runs_window _ (.step .exec (.step .fork .boot ?_ rfl) ?_ rfl)⟩
  · rfl
  · exact ⟨(by decide : bootProcs.upid + 1 < 2^16), trivial⟩
  · exact orderlyInside_exec_child

/-- A child that dies of a segmentation fault leaves an empty entry in the window. -/
theorem segfault_breaks_window : ∃ s, Reached (fun _ _ => True) s ∧ s.processCount = 2 ∧
    (s.ready 1).pid = 0 := by
  refine ⟨_, .step (.exit 1) (.step .exec (.step .fork .boot trivial rfl) trivial rfl) trivial rfl,
    ?_, ?_⟩
  · decide
  · decide

/-- The index of an access is below NUM_PROCS. -/
def ProcEvent.Inside : ProcEvent → Prop
  | .load a | .store a => a.index < numProcs
  | _ => True

/-- Every index used so far is below NUM_PROCS. -/
def IndicesInside (s : Procs) : Prop := ∀ e ∈ s.log, e.Inside

def ProcEvent.createdPid : ProcEvent → Option Nat
  | .created pid => some pid
  | _ => none

def createdPids (s : Procs) : List Nat := s.log.filterMap ProcEvent.createdPid

/-- exit_process stays inside the arrays. -/
structure ExitInside (status : Int) (s : Procs) : Prop where
  pid : s.current.pid < numProcs
  recorded : zombieIndex status s < numProcs
  count : s.processCount < numProcs
  nonempty : status ≠ 1 → 1 ≤ s.processCount
  reaped : status = 1 → s.current.pid + 1 < numProcs ∧ ∀ z < s.zomCount, s.zombies z + 1 < numProcs

def IndexSafe : ProcOp → Procs → Prop
  | .fork, s => s.upid + 1 < 2^16
  | .exec, s => s.processCount < numProcs
  | .exit status, s => ExitInside status s
  | .kill pid, s => pid < numProcs ∧
      (pid ≠ 0 → (s.zombie pid).pid = pid → ExitInside 1 (s.killing pid))

structure IndexInv (s : Procs) : Prop where
  inside : IndicesInside s
  nodup : (createdPids s).Nodup
  bound : ∀ p ∈ createdPids s, p ≤ s.upid

section Index

variable {s t : Procs}

/-- New events keep the invariant when they create nothing and stay inside the arrays. -/
theorem IndexInv.extend (h : IndexInv s) (es : List ProcEvent) (hlog : t.log = es ++ s.log)
    (hupid : t.upid = s.upid) (hes : ∀ e ∈ es, e.createdPid = none ∧ e.Inside) :
    IndexInv t := by
  have hpids : createdPids t = createdPids s := by
    unfold createdPids
    rw [hlog, List.filterMap_append,
      List.filterMap_eq_nil_iff.mpr (fun e he => (hes e he).1), List.nil_append]
  constructor
  case inside =>
    intro e he
    rw [hlog] at he
    rcases List.mem_append.mp he with he | he
    · exact (hes e he).2
    · exact h.inside e he
  case nodup => exact hpids ▸ h.nodup
  case bound =>
    intro p hp
    rw [hupid]
    exact h.bound p (hpids ▸ hp)

theorem indexInv_boot : IndexInv bootProcs := by
  have hlog : bootProcs.log = [.store (.ready 0), .created 1] := by decide
  have hpids : createdPids bootProcs = [1] := by decide
  constructor
  case inside =>
    intro e he
    rw [hlog, List.mem_cons, List.mem_singleton] at he
    rcases he with rfl | rfl
    · change 0 < numProcs
      decide
    · trivial
  case nodup =>
    rw [hpids]
    decide
  case bound =>
    intro p hp
    rw [hpids, List.mem_singleton] at hp
    rw [hp]
    decide

theorem IndexInv.fork (h : IndexInv s) (hu : s.upid + 1 < 2^16) : IndexInv (forkProcess s) := by
  have hinc : inc16 s.upid = s.upid+1 := Nat.mod_eq_of_lt hu
  have hpids : createdPids (forkProcess s) = (s.upid+1) :: createdPids s := by
    rw [← hinc]
    rfl
  constructor
  case inside =>
    intro e he
    rcases List.mem_cons.mp he with rfl | he
    · trivial
    · exact h.inside e he
  case nodup =>
    rw [hpids, List.nodup_cons]
    refine ⟨?_, h.nodup⟩
    intro hm
    have := h.bound _ hm
    omega
  case bound =>
    intro p hp
    rw [hpids] at hp
    change p ≤ inc16 s.upid
    rw [hinc]
    rcases List.mem_cons.mp hp with rfl | hp
    · exact le_refl _
    · exact (h.bound p hp).trans (Nat.le_succ _)

theorem IndexInv.exec (h : IndexInv s) (hc : s.processCount < numProcs)
    (ht : ProcOp.exec.step s = some t) : IndexInv t := by
  obtain ⟨k, -, rfl⟩ := exec_inv hc ht
  refine h.extend [.store (.ready s.processCount)] rfl rfl ?_
  intro e he
  rw [List.mem_singleton.mp he]
  exact ⟨rfl, hc⟩

theorem ExitInside.event {status : Int} (h : ExitInside status s) (e : ProcEvent)
    (he : ExitEvent status s e) : e.createdPid = none ∧ e.Inside := by
  have hc := h.count
  rcases he with ⟨x, hx, rfl⟩ | ⟨x, hx, rfl⟩ | ⟨rfl, z, hz, he⟩
  · exact ⟨rfl, hx.trans_lt hc⟩
  · exact ⟨rfl, hx.trans hc⟩
  · have hz : z ≤ s.zomCount := hz.trans_eq (recordZombie_zomCount 1 s)
    have hz' : (recordZombie 1 s).zombies z =
        if z = s.zomCount then s.current.pid else s.zombies z := by
      rw [recordZombie_zombies, Function.update_apply]
      rfl
    have hrec : s.zomCount < numProcs := h.recorded
    obtain ⟨hp, hall⟩ := h.reaped rfl
    have hk : (recordZombie 1 s).zombies z + 1 < numProcs := by
      rw [hz']
      split_ifs with hlast
      · exact hp
      · exact hall z (lt_of_le_of_ne hz hlast)
    rcases he with rfl | rfl | rfl | rfl
    · exact ⟨rfl, hz.trans_lt hrec⟩
    · exact ⟨rfl, (Nat.lt_succ_self _).trans hk⟩
    · exact ⟨rfl, hk⟩
    · exact ⟨rfl, (Nat.lt_succ_self _).trans hk⟩

theorem IndexInv.exit {status : Int} (h : IndexInv s) (hs : ExitInside status s) :
    IndexInv (exitProcess status s) := by
  obtain ⟨es, hlog, hes⟩ := exitProcess_log status s hs.nonempty
  refine h.extend _ hlog (exitProcess_sameChild status s).upid ?_
  intro e he
  rcases List.mem_append.mp he with he | he
  · exact hs.event e (hes e he)
  · simp only [List.mem_cons, List.not_mem_nil, or_false] at he
    rcases he with rfl | rfl | rfl
    · exact ⟨rfl, trivial⟩
    · exact ⟨rfl, hs.pid⟩
    · exact ⟨rfl, hs.recorded⟩

theorem IndexInv.setCurr (h : IndexInv s) (c : TaskPtr) : IndexInv { s with curr := c } :=
  ⟨h.inside, h.nodup, h.bound⟩

theorem IndexInv.kill (h : IndexInv s) (pid : Nat) (hp : pid < numProcs)
    (hs : pid ≠ 0 → (s.zombie pid).pid = pid → ExitInside 1 (s.killing pid)) :
    IndexInv (killProcess pid s) := by
  have hlook : IndexInv (s.note [.load (.zombie pid)]) := by
    refine h.extend [.load (.zombie pid)] rfl rfl ?_
    intro e he
    rw [List.mem_singleton.mp he]
    exact ⟨rfl, hp⟩
  rcases killProcess_cases pid s with ⟨-, he⟩ | he | ⟨h0, hz, he⟩
  · rw [he]
    exact h
  · rw [he]
    exact hlook
  · have hkill : IndexInv (s.killing pid) := hlook.setCurr (.zombie pid)
    rw [he]
    exact (hkill.exit (hs h0 hz)).setCurr s.curr

end Index

/-- In a run whose steps meet the bounds, every index is inside the arrays and no pid is given
out twice. -/
theorem safe_runs_indices (s : Procs) (h : Reached IndexSafe s) :
    IndicesInside s ∧ (createdPids s).Nodup := by
  have hinv : IndexInv s := by
    refine h.induction indexInv_boot ?_
    intro op s t hs hok ht
    cases op with
    | fork =>
      obtain rfl := Option.some.inj ht
      exact hs.fork hok
    | exec => exact hs.exec hok ht
    | exit status =>
      obtain rfl := Option.some.inj ht
      exact hs.exit hok
    | kill pid =>
      obtain rfl := Option.some.inj ht
      exact hs.kill pid hok.1 hok.2
  exact ⟨hinv.inside, hinv.nodup⟩

theorem safe_runs_child : ∃ s, createdPids s = [2, 1] ∧ IndicesInside s ∧
    (createdPids s).Nodup := by
  refine ⟨_, ?_, safe_runs_indices _ (.step .exec (.step .fork .boot ?_ rfl) ?_ rfl)⟩
  · decide
  · change 1 + 1 < 2^16
    decide
  · change 1 < numProcs
    decide

/-- kill with a pid the shell makes up: the kernel reads behind the zombie queue. -/
theorem kill_leaves_array : ∃ s, Reached (fun _ _ => True) s ∧ .load (.zombie 64) ∈ s.log := by
  refine ⟨_, .step (.kill 64) .boot trivial rfl, ?_⟩
  decide

end SBUnix
