import SBUnix.Process.Runs
import SBUnix.Process.Schedule
import SBUnix.Process.Zombies
import SBUnix.Switch.Yield

namespace SBUnix

/-- The queue holds the shell, then these programs as its children, and nothing behind them. -/
structure Queued (ps : List Nat) (s : Procs) : Prop where
  count : s.processCount = ps.length + 1
  shell : (s.ready 0).pid = 1 ∧ (s.ready 0).ppid = 0
  programs : ∀ i (h : i < ps.length), (s.ready (i+1)).pid = ps[i] ∧ (s.ready (i+1)).ppid = 1
  free : ∀ i, ps.length < i → s.ready i = .zero

section Queue

variable {ps : List Nat} {s t : Procs}

theorem Queued.congr (h : Queued ps s) (hr : t.ready = s.ready)
    (hc : t.processCount = s.processCount) : Queued ps t :=
  ⟨hc.trans h.count, hr ▸ h.shell, hr ▸ h.programs, hr ▸ h.free⟩

/-- The fields of the shell other than its pids are of no account. -/
theorem Queued.setShell (h : Queued ps s) (u : Task) (hp : u.pid = 1) (hpp : u.ppid = 0) :
    Queued ps (s.set (.ready 0) u) where
  count := h.count
  shell := by simp [Procs.set, hp, hpp]
  programs i hi := by simpa [Procs.set] using h.programs i hi
  free i hi := by
    have hne : i ≠ 0 := by omega
    simpa [Procs.set, hne] using h.free i hi

theorem Queued.pid_ne (h : Queued ps s) {p : Nat} (hp : p ∉ ps) (h0 : p ≠ 0) (i : Nat)
    (hi : 1 ≤ i) : (s.ready i).pid ≠ p := by
  obtain ⟨j, rfl⟩ := Nat.exists_eq_add_of_le' hi
  rcases Nat.lt_or_ge j ps.length with hj | hj
  · rw [(h.programs j hj).1]
    exact fun he => hp (he ▸ List.getElem_mem hj)
  · rw [h.free (j+1) (by omega)]
    exact h0.symm

/-- A pid that is not queued is not waited for. -/
theorem Queued.waitFor (h : Queued ps s) {p : Nat} (hp : p ∉ ps) (h0 : p ≠ 0) :
    syswaitpid p s = (.returns 0, s.set s.curr { s.current with waitPid := 0, state := .ready }) := by
  have hnone : (List.range' 1 s.processCount).find? (fun i => (s.ready i).pid = p) = none := by
    rw [List.find?_eq_none]
    intro i hi
    simpa using h.pid_ne hp h0 i (List.mem_range'_1.mp hi).1
  have hneg : ¬((p : Int) < 0) := by omega
  rw [syswaitpid, if_neg hneg, Int.toNat_natCast, SBUnix.waitFor, hnone]

theorem Queued.exec (h : Queued ps s) (u : Task) (p : Nat) (hp : u.pid = p) (hpp : u.ppid = 1) :
    Queued (ps++[p]) { s with
      processCount := s.processCount+1, ready := Function.update s.ready s.processCount u } where
  count := by simp [h.count]
  shell := by simpa [h.count] using h.shell
  programs i hi := by
    rw [h.count]
    rw [List.length_append, List.length_singleton] at hi
    rcases Nat.lt_or_ge i ps.length with hlt | hge
    · have hne : i+1 ≠ ps.length+1 := by omega
      simpa [hlt, hlt.ne, List.getElem_append_left hlt] using h.programs i hlt
    · obtain rfl : i = ps.length := by omega
      simp [hp, hpp]
  free i hi := by
    rw [List.length_append, List.length_singleton] at hi
    rw [h.count]
    have hne : i ≠ ps.length+1 := by omega
    simpa [hne] using h.free i (by omega)

end Queue

section Schedule

variable {ps : List Nat} {s : Procs}

theorem Queued.nonzero (h : Queued ps s) (hps : ∀ p ∈ ps, 1 < p) (i : Nat)
    (hi : i < s.processCount) : (s.ready i).pid ≠ 0 := by
  rw [h.count] at hi
  cases i with
  | zero => simp [h.shell.1]
  | succ i =>
    have hlt : i < ps.length := by omega
    rw [(h.programs i hlt).1]
    exact (Nat.zero_lt_one.trans (hps _ (List.getElem_mem hlt))).ne'

/-- No two slots have the pid of the same process. -/
theorem Queued.pid_inj (h : Queued ps s) (hnd : ps.Nodup) (hps : ∀ p ∈ ps, 1 < p) {i j : Nat}
    (hi : i < s.processCount) (he : (s.ready j).pid = (s.ready i).pid) : j = i := by
  have h0 := h.nonzero hps i hi
  have hone : 1 ∉ ps := fun hm => (hps 1 hm).false
  rw [h.count] at hi
  cases i with
  | zero =>
    by_contra hj
    rw [h.shell.1] at he
    exact h.pid_ne hone (by simp) j (by omega) he
  | succ i =>
    have hlt : i < ps.length := by omega
    cases j with
    | zero =>
      rw [h.shell.1, (h.programs i hlt).1] at he
      exact absurd (he ▸ List.getElem_mem hlt) hone
    | succ j =>
      rcases Nat.lt_or_ge j ps.length with hj | hj
      · rw [(h.programs j hj).1, (h.programs i hlt).1] at he
        exact congrArg Nat.succ (hnd.getElem_inj_iff.mp he)
      · rw [h.free (j+1) (by omega)] at he
        exact absurd he.symm h0

/-- The first loop of usr_schedule has ended after as many rounds as there are processes. -/
theorem Queued.parentLoop (h : Queued ps s) (hne : ps ≠ []) (hlen : ps.length + 1 < 2^16) :
    parentLoop s (s.processCount+1) s.processCount = some (parentSlot s + 1) := by
  have hpos := List.length_pos_of_ne_nil hne
  have hc := h.count
  exact (parentLoop_eq (by omega) (by omega) _).resolve_right (fun h => by omega)

/-- From a program the timer goes to the shell. -/
theorem Queued.usrSchedule_program (h : Queued ps s) (hne : ps ≠ []) (hps : ∀ p ∈ ps, 1 < p)
    (hlen : ps.length + 1 < 2^16) (hcur : s.current.ppid = 1) :
    usrSchedule (s.processCount+1) s = some (.switch 0) := by
  have hpos := List.length_pos_of_ne_nil hne
  have hc := h.count
  have hc2 : 2 ≤ s.processCount := by omega
  have hslot : parentSlot s = 0 := by
    rcases parentSlot_cases hc2 (h.nonzero hps) with hp | ⟨-, hno⟩
    · by_contra h0
      have hlt := parentSlot_lt hc2
      obtain ⟨j, hj⟩ := Nat.exists_eq_add_one_of_ne_zero h0
      rw [hj] at hp hlt
      rw [(h.programs j (by omega)).1, hcur] at hp
      exact absurd hp (hps _ (List.getElem_mem _)).ne'
    · exact absurd (h.shell.1.trans hcur.symm) (hno 0 (by omega))
  have hshell : s.current.ppid = (s.ready (parentSlot s)).pid := by
    rw [hslot, hcur, h.shell.1]
  rw [usrSchedule_after hc2 (by omega) _ (h.parentLoop hne hlen)]
  simp only [if_pos hshell]
  -- the second loop runs only when the shell is the last slot but one
  obtain ⟨j, hj, hst, hfirst⟩ := exists_stopsChild s.processCount (s := s)
    (by rw [h.free _ (by omega)]; rfl)
  rw [childLoop_complete j (by omega) hst hfirst _ 0 (Nat.zero_le _) (by omega), hslot]
  split_ifs <;> rfl

/-- From the shell the timer goes to the first program. -/
theorem Queued.usrSchedule_shell (h : Queued ps s) (hne : ps ≠ []) (hps : ∀ p ∈ ps, 1 < p)
    (hlen : ps.length + 1 < 2^16) (hcur : s.curr = .ready 0) :
    usrSchedule (s.processCount+1) s = some (.switch 1) := by
  have hpos := List.length_pos_of_ne_nil hne
  have hc := h.count
  have hc2 : 2 ≤ s.processCount := by omega
  have hpid : s.current.pid = 1 := by rw [Procs.current, hcur, Procs.get, h.shell.1]
  have hppid : s.current.ppid = 0 := by rw [Procs.current, hcur, Procs.get, h.shell.2]
  have hnz := h.nonzero hps
  have hend : parentSlot s = s.processCount-2 := by
    rcases parentSlot_cases hc2 hnz with hp | ⟨hend, -⟩
    · exact absurd (hp.trans hppid) (hnz _ (parentSlot_lt hc2))
    · exact hend
  have hno : ¬s.current.ppid = (s.ready (parentSlot s)).pid := by
    rw [hppid]
    exact (hnz _ (parentSlot_lt hc2)).symm
  have hfirst : childLoop s (s.processCount+1) 0 = some 1 := by
    refine childLoop_complete 1 (by norm_num) ?_ ?_ _ 0 (Nat.zero_le _) (by omega)
    · exact Or.inl ((h.programs 0 hpos).2.trans hpid.symm)
    · intro k hk
      obtain rfl : k = 0 := by omega
      rintro (hp | hp)
      · rw [h.shell.2, hpid] at hp
        cases hp
      · exact hnz 0 (by omega) hp
  have hchild : s.current.pid = (s.ready 1).ppid := hpid.trans (h.programs 0 hpos).2.symm
  rw [usrSchedule_after hc2 (by omega) _ (h.parentLoop hne hlen), if_pos hend, hfirst,
    Option.bind_some, if_neg hno, if_pos hchild]

end Schedule

section Exit

variable {ps : List Nat} {s : Procs} {status : Int}

theorem Queued.exitSlot (h : Queued ps s) (hnd : ps.Nodup) {i : Nat} (hi : i < ps.length)
    (hp : s.current.pid = ps[i]) : exitSlot s = i+1 := by
  refine searchReady_eq (by omega) (by rw [h.count]; omega) ((h.programs i hi).1.trans hp.symm) ?_
  intro j h1 hj he
  obtain ⟨x, rfl⟩ := Nat.exists_eq_add_of_le' h1
  have hx : x < ps.length := by omega
  rw [(h.programs x hx).1, hp] at he
  have : x = i := hnd.getElem_inj_iff.mp he
  omega

/-- An exit takes the program out of the list; the slots behind move up by one. -/
theorem Queued.exit (h : Queued ps s) (hnd : ps.Nodup) (hlen : ps.length < 2^16)
    (hs : status ≠ 1) {i : Nat} (hi : i < ps.length) (hp : s.current.pid = ps[i])
    (hcur : ∀ j, s.curr = .ready j → j = i+1) :
    Queued (ps.eraseIdx i) (exitProcess status s) := by
  obtain ⟨hcount, -, hready, -⟩ := exitProcess_leave s hs
  have hc := h.count
  have hl : (ps.eraseIdx i).length + 1 = ps.length := by
    rw [List.length_eraseIdx_of_lt hi]
    omega
  have hrec (j : Nat) (hj : j ≠ i+1) : (recordZombie status s).ready j = s.ready j :=
    recordZombie_ready status s j (fun he => hj (hcur j he))
  simp only [h.exitSlot hnd hi hp] at hready
  constructor
  case count =>
    rw [hcount, hc, dec16]
    omega
  case shell =>
    rw [hready, if_neg (by omega), hrec 0 (by omega)]
    exact h.shell
  case programs =>
    intro j hj
    rw [hready, List.getElem_eraseIdx]
    by_cases hij : j < i
    · rw [if_neg (by omega), hrec _ (by omega), dif_pos hij]
      exact h.programs j (by omega)
    · rw [if_pos (by omega), hrec _ (by omega), dif_neg hij]
      exact h.programs (j+1) (by omega)
  case free =>
    intro j hj
    rw [hready]
    split_ifs
    · rw [hrec _ (by omega)]
      exact h.free _ (by omega)
    · rw [hrec _ (by omega)]
      exact h.free _ (by omega)

theorem resumeParent_ready (s : Procs) : (resumeParent s).ready = s.ready := by
  obtain ⟨c, n, he, -⟩ := resumeParent_spec s
  rw [he]

/-- The search for the parent goes on from the first slot. -/
theorem resumeParent_curr_shell (s : Procs) (hc : 0 < s.processCount)
    (hp : (s.ready 0).pid = s.current.ppid) : (resumeParent s).curr = .ready 0 := by
  have hfind : (List.range s.processCount).find? (fun j => (s.ready j).pid = s.current.ppid) =
      some 0 := by
    rw [List.find?_range_eq_some]
    exact ⟨decide_eq_true hp, List.mem_range.mpr hc, nofun⟩
  rw [resumeParent, hfind]
  rfl

theorem resumeParent_curr_none (s : Procs)
    (hp : ∀ j < s.processCount, (s.ready j).pid ≠ s.current.ppid) :
    (resumeParent s).curr = s.curr := by
  have hfind : (List.range s.processCount).find? (fun j => (s.ready j).pid = s.current.ppid) =
      none := by
    rw [List.find?_eq_none]
    intro j hj
    simpa using hp j (List.mem_range.mp hj)
  rw [resumeParent, hfind]
  rfl

/-- exit_process up to its search for the parent. -/
def leaving (status : Int) (s : Procs) : Procs :=
  let t := unqueue (recordZombie status s)
  { t with processCount := dec16 t.processCount }

theorem exitProcess_leaving (hs : status ≠ 1) :
    exitProcess status s = resumeParent (leaving status s) := if_neg hs

theorem recordZombie_curr (status : Int) (s : Procs) : (recordZombie status s).curr = s.curr := by
  obtain ⟨c, hc⟩ : ∃ c, s.curr = c := ⟨_, rfl⟩
  cases c <;> simp [recordZombie, Procs.set, Procs.note, hc]

theorem leaving_curr (status : Int) (s : Procs) : (leaving status s).curr = s.curr := by
  simp only [leaving, unqueue_eq]
  exact recordZombie_curr status s

theorem leaving_heap_ppid (status : Int) (s : Procs) (k : Nat) :
    ((leaving status s).heap k).ppid = (s.heap k).ppid := by
  simp only [leaving, unqueue_eq]
  obtain ⟨c, hc⟩ : ∃ c, s.curr = c := ⟨_, rfl⟩
  cases c with
  | ready i => simp [recordZombie, Procs.set, Procs.note, hc]
  | zombie i => simp [recordZombie, Procs.set, Procs.note, hc]
  | heap i =>
    simp only [recordZombie, Procs.set, Procs.note, Procs.current, Procs.get, hc]
    by_cases h : k = i
    · rw [h, Function.update_self]
    · rw [Function.update_of_ne h]

theorem leaving_processCount (hs : status ≠ 1) :
    (leaving status s).processCount = (exitProcess status s).processCount := by
  obtain ⟨c, n, he, -⟩ := resumeParent_spec (leaving status s)
  rw [exitProcess_leaving hs, he]

theorem leaving_ready (hs : status ≠ 1) :
    (leaving status s).ready = (exitProcess status s).ready := by
  rw [exitProcess_leaving hs, resumeParent_ready]

/-- A program that runs as the structure of its fork leaves the processor to the shell. -/
theorem Queued.exit_curr_heap {qs : List Nat} (h : Queued qs (exitProcess status s))
    (hs : status ≠ 1) {k : Nat} (hcur : s.curr = .heap k) (hpp : (s.heap k).ppid = 1) :
    (exitProcess status s).curr = .ready 0 := by
  have hc := h.count
  have hp := h.shell.1
  rw [← leaving_processCount hs] at hc
  rw [← leaving_ready hs] at hp
  rw [exitProcess_leaving hs]
  apply resumeParent_curr_shell
  · omega
  · rw [hp, Procs.current, leaving_curr, hcur, Procs.get, leaving_heap_ppid, hpp]

/-- `curr_upcb` is a slot of the queue, and the next program has moved into it. -/
theorem Queued.exit_curr_next {q : Nat} {qs : List Nat} (h : Queued (q::qs) (exitProcess status s))
    (hs : status ≠ 1) (hcur : s.curr = .ready 1) : (exitProcess status s).curr = .ready 0 := by
  have hc := h.count
  have hp := h.shell.1
  have hq := (h.programs 0 (by simp)).2
  rw [← leaving_processCount hs] at hc
  rw [← leaving_ready hs] at hp hq
  rw [exitProcess_leaving hs]
  apply resumeParent_curr_shell
  · omega
  · rw [hp, Procs.current, leaving_curr, hcur, Procs.get, hq]

/-- With no program behind it the slot is empty, and the search looks for pid 0. -/
theorem Queued.exit_curr_last (h : Queued [] (exitProcess status s)) (hs : status ≠ 1)
    (hcur : s.curr = .ready 1) : (exitProcess status s).curr = .ready 1 := by
  have hc := h.count
  have hp := h.shell.1
  have hz := h.free 1 (by simp)
  rw [← leaving_processCount hs] at hc
  rw [← leaving_ready hs] at hp hz
  rw [exitProcess_leaving hs, resumeParent_curr_none, leaving_curr, hcur]
  intro j hj
  obtain rfl : j = 0 := by simpa [hc] using hj
  rw [hp, Procs.current, leaving_curr, hcur, Procs.get, hz]
  decide

end Exit

theorem forkProcess_eq {s : Procs} (hu : s.upid + 1 < 2^16) : forkProcess s = { s with
    upid := s.upid+1
    heap := Function.update s.heap s.heapNext ⟨s.upid+1, s.current.pid, .ready, 0, 0⟩
    heapNext := s.heapNext+1
    globalChild := some s.heapNext
    log := .created (s.upid+1) :: s.log } := by
  simp only [forkProcess, Procs.alloc, Procs.note, inc16_eq hu]
  rfl

section Kill

variable {s : Procs} {pid : Nat}

/-- The records of an exit in the place of a zombie. -/
theorem recordZombie_killing (hz : (s.zombie pid).pid = pid) :
    ∃ q, recordZombie 1 (s.killing pid) = { s.killing pid with
      zombie := q
      zombies := Function.update s.zombies s.zomCount pid
      log := [.exited pid, .store (.zombie pid), .store (.zombies s.zomCount)] ++
        (s.killing pid).log } := by
  have hcur : (s.killing pid).current.pid = pid := hz
  have hidx : zombieIndex 1 (s.killing pid) = s.zomCount := rfl
  have hlog := recordZombie_log 1 (s.killing pid)
  have hrec := recordZombie_zombies 1 (s.killing pid)
  rw [hcur, hidx] at hlog hrec
  refine ⟨(recordZombie 1 (s.killing pid)).zombie, ?_⟩
  rw [← hlog]
  refine Eq.trans ?_ (congrArg (fun r => { s.killing pid with
    zombie := (recordZombie 1 (s.killing pid)).zombie
    zombies := r
    log := (recordZombie 1 (s.killing pid)).log }) hrec)
  rfl

/-- Killing a zombie that is not in the queue changes the records of zombies and nothing else. -/
theorem killProcess_zombie (h0 : pid ≠ 0) (hz : (s.zombie pid).pid = pid)
    (hout : ∀ i, 1 ≤ i → (s.ready i).pid ≠ pid) :
    ∃ q es, killProcess pid s = { s with
      zombie := q
      zomCount := dec16 s.zomCount
      zombies := Function.update s.zombies s.zomCount pid
      log := es ++ s.log } ∧
    (∀ x, ∃ y, (q x).pid = (s.zombie y).pid) ∧
    ∀ a, .store a ∈ es → a = .zombies s.zomCount ∨
      ∃ z ≤ s.zomCount, a = .zombie (Function.update s.zombies s.zomCount pid z) := by
  have hcur : (s.killing pid).current.pid = pid := hz
  obtain ⟨r, hr⟩ := recordZombie_killing hz
  have hkill : killProcess pid s = { exitProcess 1 (s.killing pid) with curr := s.curr } :=
    (if_neg h0).trans (if_pos hz)
  have hslot : exitSlot (recordZombie 1 (s.killing pid)) = s.processCount+1 := by
    rw [recordZombie_exitSlot, exitSlot, hcur]
    rcases searchReady_spec (s.killing pid) pid with ⟨h1, -, h3, -⟩ | ⟨h1, -⟩
    · exact absurd h3 (hout _ h1)
    · exact h1
  have hcount := recordZombie_processCount 1 (s.killing pid)
  have hno : ¬exitSlot (recordZombie 1 (s.killing pid)) <
      (recordZombie 1 (s.killing pid)).processCount := by
    rw [hslot, hcount]
    exact Nat.not_lt.mpr (Nat.le_succ _)
  obtain ⟨q, es, he, hq, hes⟩ := exitProcess_reap (s.killing pid)
  obtain ⟨log, hlog⟩ : ∃ log, log = es ++ (unqueueLog (recordZombie 1 (s.killing pid)) ++
    [.exited pid, .store (.zombie pid), .store (.zombies s.zomCount), .load (.zombie pid)]) :=
    ⟨_, rfl⟩
  refine ⟨q, log, ?_, ?_, ?_⟩
  · rw [hkill, he, unqueue_eq, if_neg hno, hlog]
    simp only [hr]
    simp [Procs.killing, Procs.note]
  · intro x
    obtain ⟨y, hy⟩ := hq x
    rw [hy, recordZombie_zombie_pid, hcur]
    split_ifs
    · exact ⟨pid, hz.symm⟩
    · exact ⟨y, rfl⟩
  · intro a ha
    rw [hlog, List.mem_append, List.mem_append] at ha
    rcases ha with ha | ha | ha
    · obtain ⟨z, hle, hev⟩ := hes _ ha
      rw [recordZombie_zomCount] at hle
      rw [recordZombie_zombies, hcur] at hev
      rcases hev with hev | hev | hev | hev
      · cases hev
      · cases hev
      · cases hev
      · exact Or.inr ⟨z, hle, ProcEvent.store.inj hev⟩
    · obtain ⟨x, h1, h2, -⟩ := (store_mem_unqueueLog _ a).mp ha
      exact absurd (h1.trans_lt h2) hno
    · simp only [List.mem_cons, reduceCtorEq, ProcEvent.store.injEq, List.not_mem_nil, or_false,
        false_or] at ha
      rcases ha with rfl | rfl
      · exact Or.inr ⟨s.zomCount, le_rfl, by rw [Function.update_self]⟩
      · exact Or.inl rfl

end Kill

end SBUnix
