import SBUnix.Process.Exit

namespace SBUnix

/-- The queue after an exit with any status. -/
theorem exitProcess_ready (status : Int) (s : Procs) (j : Nat) :
    (exitProcess status s).ready j =
      if exitSlot s ≤ j ∧ j < s.processCount then (recordZombie status s).ready (j+1)
      else (recordZombie status s).ready j := by
  by_cases hs : status = 1
  · subst hs
    obtain ⟨q, es, he, -⟩ := exitProcess_reap s
    have hr := unqueue_ready (recordZombie 1 s) j
    rw [recordZombie_exitSlot, recordZombie_processCount] at hr
    rw [he]
    exact hr
  · exact (exitProcess_leave s hs).2.2.1 j

theorem exitProcess_processCount_le (status : Int) (s : Procs) (h : 1 ≤ s.processCount) :
    (exitProcess status s).processCount ≤ s.processCount := by
  by_cases hs : status = 1
  · subst hs
    obtain ⟨q, es, he, -⟩ := exitProcess_reap s
    rw [he, unqueue_eq]
    exact (recordZombie_processCount 1 s).le
  · rw [(exitProcess_leave s hs).1, dec16]
    omega

/-- The copy in the zombie queue has the status the task had, not the one it exits with. -/
theorem recordZombie_status (status : Int) (s : Procs) :
    ((recordZombie status s).zombie s.current.pid).exitStatus =
      if s.curr = .zombie s.current.pid then status else s.current.exitStatus := by
  obtain ⟨c, hc⟩ : ∃ c, s.curr = c := ⟨_, rfl⟩
  cases c with
  | ready i => simp [recordZombie, Procs.current, Procs.get, Procs.set, Procs.note, hc]
  | heap k => simp [recordZombie, Procs.current, Procs.get, Procs.set, Procs.note, hc]
  | zombie i =>
    simp only [recordZombie, Procs.current, Procs.get, Procs.set, Procs.note, hc,
      Function.update_self, TaskPtr.zombie.injEq]
    by_cases h : i = (s.zombie i).pid
    · rw [if_pos h, ← h, Function.update_self, Function.update_self]
    · rw [if_neg h, Function.update_of_ne h, Function.update_self]

/-- A parent in slot `a` and its running child in slot `b`, each in the queue once. -/
structure Family (s : Procs) (a b : Nat) : Prop where
  parent_lt : a < s.processCount
  child_lt : b < s.processCount
  ne : a ≠ b
  link : (s.ready b).ppid = (s.ready a).pid
  running : s.current.pid = (s.ready b).pid
  child_small : (s.ready b).pid < numProcs
  parent_once : ∀ j ≤ s.processCount, (s.ready j).pid = (s.ready a).pid → j = a
  child_once : ∀ j ≤ s.processCount, (s.ready j).pid = (s.ready b).pid → j = b

/-- The status is recorded, a later wait of the parent returns it, and a parent that was
already waiting is READY again. -/
def StatusArrives (status : Int) (s : Procs) (a b : Nat) : Prop :=
  let t := exitProcess status s
  let pid := (s.ready b).pid
  (t.zombie pid).exitStatus = status ∧
  (∀ q, (t.get q).pid = (s.ready a).pid →
    (syswaitpid pid { t with curr := q }).1 = .returns status) ∧
  ((s.ready a).state = .wait → (s.ready a).waitPid = pid →
    ∃ j < t.processCount, (t.ready j).pid = (s.ready a).pid ∧ (t.ready j).state = .ready)

section Family

variable {s : Procs} {a b : Nat} (hf : Family s a b) (status : Int)
include hf

theorem Family.exitSlot_eq : exitSlot s = if b = 0 then s.processCount+1 else b := by
  unfold exitSlot
  rw [hf.running]
  split_ifs with hb
  · rcases searchReady_spec s (s.ready b).pid with ⟨h1, h2, h3, _⟩ | ⟨h, _⟩
    · have := hf.child_once _ h2 h3
      omega
    · exact h
  · refine searchReady_eq (by omega) hf.child_lt.le rfl ?_
    intro j _ hj he
    have hlt := hf.child_lt
    exact hj.ne (hf.child_once j (by omega) he)

/-- Each slot of the queue after the exit comes from a slot of the old one, and not from the
child's unless that was slot 0. -/
theorem Family.ready_from (j : Nat) (hj : j ≤ s.processCount) :
    ∃ i ≤ s.processCount, (exitProcess status s).ready j = (recordZombie status s).ready i ∧
      (1 ≤ j → i ≠ b) := by
  have hb := hf.child_lt
  rw [exitProcess_ready, hf.exitSlot_eq]
  by_cases h0 : b = 0
  · rw [if_pos h0, if_neg (by omega)]
    exact ⟨j, hj, rfl, by omega⟩
  · rw [if_neg h0]
    split_ifs with h
    · exact ⟨j+1, by omega, rfl, by omega⟩
    · exact ⟨j, hj, rfl, by omega⟩

/-- After the exit the search of syswaitpid no longer finds the child. -/
theorem Family.not_found (q : TaskPtr) :
    (syswaitpid (s.ready b).pid { exitProcess status s with curr := q }).1 = .returns 0 := by
  have hle := exitProcess_processCount_le status s (by have := hf.child_lt; omega)
  have hnone : (List.range' 1 (exitProcess status s).processCount).find?
      (fun i => ((exitProcess status s).ready i).pid = (s.ready b).pid) = none := by
    rw [List.find?_eq_none]
    intro j hj
    obtain ⟨h1, h2⟩ := List.mem_range'_1.mp hj
    obtain ⟨i, hi, he, hne⟩ := hf.ready_from status j (by omega)
    have : (s.ready i).pid ≠ (s.ready b).pid := fun h => hne h1 (hf.child_once i hi h)
    simpa [he, recordZombie_ready_pid] using this
  have hneg : ¬((s.ready b).pid : Int) < 0 := by omega
  simp only [syswaitpid, if_neg hneg, Int.toNat_natCast, waitFor, hnone]

/-- The parent's entry is still there, unchanged. -/
theorem Family.parent_kept : (recordZombie status s).ready a = s.ready a := by
  refine recordZombie_ready status s a ?_
  intro hc
  have hcur : s.current.pid = (s.ready a).pid := by rw [Procs.current, hc, Procs.get]
  exact hf.ne (hf.child_once a hf.parent_lt.le (hcur.symm.trans hf.running))

theorem Family.parent_found : ∃ q, ((exitProcess status s).get q).pid = (s.ready a).pid := by
  have hslot := hf.exitSlot_eq
  have hb := hf.child_lt
  have ha := hf.parent_lt
  have hne := hf.ne
  by_cases h : exitSlot s ≤ a
  · -- the parent was behind the child and has moved down by one
    refine ⟨.ready (a-1), ?_⟩
    have hb0 : b ≠ 0 := by
      rintro rfl
      rw [if_pos rfl] at hslot
      omega
    rw [if_neg hb0] at hslot
    rw [Procs.get, exitProcess_ready, if_pos (by omega), recordZombie_ready_pid,
      Nat.sub_add_cancel (by omega)]
  · refine ⟨.ready a, ?_⟩
    rw [Procs.get, exitProcess_ready, if_neg (by omega), recordZombie_ready_pid]

/-- exit_process wakes nobody. -/
theorem Family.still_waiting (hw : (s.ready a).state = .wait) (j : Nat)
    (hj : j < (exitProcess status s).processCount)
    (hp : ((exitProcess status s).ready j).pid = (s.ready a).pid) :
    ((exitProcess status s).ready j).state = .wait := by
  have hle := exitProcess_processCount_le status s (by have := hf.child_lt; omega)
  obtain ⟨i, hi, he, -⟩ := hf.ready_from status j (by omega)
  rw [he, recordZombie_ready_pid] at hp
  obtain rfl := hf.parent_once i hi hp
  rw [he, hf.parent_kept status, hw]

end Family

/-- The status that arrives is always 0: exit_process copies the task over the status it has
just stored, syswaitpid looks for the child where it no longer is, and nobody is woken. -/
theorem exitProcess_status_iff (status : Int) (s : Procs) (a b : Nat) (hf : Family s a b) :
    StatusArrives status s a b ↔
      status = 0 ∧ (s.curr = .zombie (s.ready b).pid ∨ s.current.exitStatus = 0) ∧
      ¬((s.ready a).state = .wait ∧ (s.ready a).waitPid = (s.ready b).pid) := by
  have hrec := recordZombie_status status s
  rw [hf.running] at hrec
  have hzom (h : status = 0) : (exitProcess status s).zombie = (recordZombie status s).zombie :=
    (exitProcess_leave s (by rw [h]; decide)).2.1
  constructor
  · rintro ⟨h1, h2, h3⟩
    obtain ⟨q, hq⟩ := hf.parent_found status
    have h0 : status = 0 :=
      (WaitResult.returns.inj ((hf.not_found status q).symm.trans (h2 q hq))).symm
    refine ⟨h0, ?_, ?_⟩
    · rw [hzom h0, hrec] at h1
      split_ifs at h1 with hc
      · exact Or.inl hc
      · exact Or.inr (h1.trans h0)
    · rintro ⟨hw, hp⟩
      obtain ⟨j, hj, hpid, hst⟩ := h3 hw hp
      have := hf.still_waiting status hw j hj hpid
      rw [hst] at this
      cases this
  · rintro ⟨h0, hst, hnw⟩
    refine ⟨?_, ?_, ?_⟩
    · rw [hzom h0, hrec]
      split_ifs with hc
      · rfl
      · exact (hst.resolve_left hc).trans h0.symm
    · intro q _
      rw [hf.not_found status q, h0]
    · intro hw hp
      exact absurd ⟨hw, hp⟩ hnw

theorem shellAndChild_family : Family (shellAndChild (.ready 1)) 0 1 where
  parent_lt := by decide
  child_lt := by decide
  ne := by decide
  link := rfl
  running := rfl
  child_small := by decide
  parent_once j hj h := by
    have hj : j ≤ 2 := hj
    interval_cases j <;> first | rfl | simp [shellAndChild, Task.zero] at h
  child_once j hj h := by
    have hj : j ≤ 2 := hj
    interval_cases j <;> first | rfl | simp [shellAndChild, Task.zero] at h

theorem exitProcess_status_zero : StatusArrives 0 (shellAndChild (.ready 1)) 0 1 :=
  (exitProcess_status_iff 0 (shellAndChild (.ready 1)) 0 1 shellAndChild_family).mpr
    ⟨rfl, Or.inr rfl, by decide⟩

/-- A child that exits with 5 is recorded with 0, and its parent's wait returns 0. -/
theorem exitProcess_status_lost :
    ((exitProcess 5 (shellAndChild (.ready 1))).zombie 2).exitStatus = 0 ∧
    (syswaitpid 2 { exitProcess 5 (shellAndChild (.ready 1)) with curr := .ready 0 }).1 =
      .returns 0 := by
  decide

end SBUnix
