import SBUnix.System.Refinement

namespace SBUnix

open Simulation

/-- The program that has the processor. -/
def Session.running (a : Session) : Option Nat :=
  match a.turn with
  | .started => a.programs.getLast?
  | .resumed => a.programs.head?
  | .shell | .child | .parent | .lost => none

section Running

variable {k : KernelThreads} {a : Session} {m : Machine}

theorem Depicts.current_pid (h : Depicts k a m) {p : Nat} (hp : p ∈ a.programs) :
    m.procs.current.pid = p ↔ a.running = some p := by
  have hp1 := (h.valid.pids p hp).1
  cases ht : a.turn with
  | shell | child | parent =>
    rw [(h.current_shell (by rw [ht]; rfl)).1]
    simp [Session.running, ht, hp1.ne]
  | started =>
    obtain ⟨-, x, -, hcurr, hlast, -⟩ := h.started_of ht
    rw [Procs.current, hcurr, Procs.get]
    simp [Session.running, ht, hlast]
  | resumed =>
    have hpos := List.length_pos_of_mem hp
    rw [Procs.current, (h.resumed_of ht).2, Procs.get, (h.queue.programs 0 hpos).1]
    simp [Session.running, ht, List.head?_eq_getElem?, List.getElem?_eq_getElem hpos]
  | lost =>
    rw [h.valid.alone ht] at hp
    cases hp

/-- The pids in the slots of the queue behind the shell are those of the programs. -/
theorem Queued.mem_iff {ps : List Nat} {s : Procs} (h : Queued ps s) (p : Nat) :
    p ∈ ps ↔ ∃ i, 1 ≤ i ∧ i < s.processCount ∧ (s.ready i).pid = p := by
  rw [List.mem_iff_getElem, h.count]
  constructor
  · rintro ⟨i, hi, rfl⟩
    exact ⟨i+1, by omega, by omega, (h.programs i hi).1⟩
  · rintro ⟨i, h1, hi, rfl⟩
    obtain ⟨j, rfl⟩ := Nat.exists_eq_add_of_le' h1
    have hj : j < ps.length := by omega
    exact ⟨j, hj, (h.programs j hj).1.symm⟩

end Running

section Waiting

/-- The program is in the queue and does not have the processor. -/
def Session.Waits (p : Nat) (a : Session) : Prop := p ∈ a.programs ∧ a.running ≠ some p

/-- A waiting program goes on waiting until it is the first. -/
theorem SessionStep.waits {op : MachineOp} {a b : Session} {p : Nat} (hs : SessionStep op a b)
    (hv : a.Valid) (hw : a.Waits p) : b.Waits p ∨ a.programs.head? = some p := by
  obtain ⟨hm, hne⟩ := hw
  cases hs with
  | dropped ht => exact Or.inl ⟨hm, by simp [Session.running]⟩
  | waited ht => exact Or.inl ⟨hm, by simp [Session.running]⟩
  | forked ht => exact Or.inl ⟨hm, by simp [Session.running]⟩
  | forkedInside ht => exact Or.inl ⟨hm, hne⟩
  | started ht =>
    refine Or.inl ⟨List.mem_append_left _ hm, ?_⟩
    have hlt := hv.forked (by rw [ht]; rfl) p hm
    simp [Session.running, hlt.ne']
  | @endedStarted _ ps q _ _ hp ht =>
    refine Or.inl ⟨?_, by simp [Session.running]⟩
    rw [hp, List.mem_append, List.mem_singleton] at hm
    refine hm.resolve_right ?_
    rintro rfl
    simp [Session.running, ht, hp] at hne
  | @endedResumed _ ps q _ _ hp _ ht =>
    rw [hp, List.mem_cons] at hm
    rcases hm with rfl | hm
    · exact Or.inr (by simp [hp])
    · exact Or.inl ⟨hm, by simp [Session.running]⟩
  | endedSole hp ht =>
    rw [hp, List.mem_singleton] at hm
    exact Or.inr (by simp [hp, hm])
  | killed ht => exact Or.inl ⟨hm, hne⟩
  | ticked => exact Or.inl ⟨hm, hne⟩
  | preempted ht => exact Or.inl ⟨hm, by simp [Session.running]⟩
  | resumed _ _ =>
    by_cases hh : a.programs.head? = some p
    · exact Or.inr hh
    · exact Or.inl ⟨hm, by simpa [Session.running] using hh⟩

/-- A program that is in the queue without running gets the processor again only after it has
come to the first place behind the shell: usr_schedule never looks further. -/
theorem resumed_only_from_front (k : KernelThreads) (sp tick limit : Nat) (hl : limit ≤ 2^16)
    (h1 : 1 < limit) (before after : List MachineOp) (b m n : Machine)
    (hboot : Machine.boot k sp tick = some b) (hm : Run (MachineStep k limit) b before m)
    (hn : Run (MachineStep k limit) m after n) (p : Nat)
    (hq : ∃ i, 1 ≤ i ∧ i < m.procs.processCount ∧ (m.procs.ready i).pid = p)
    (hne : m.procs.current.pid ≠ p) (hcur : n.procs.current.pid = p) :
    ∃ ks c rs, after = ks++rs ∧ Run (MachineStep k limit) m ks c ∧
      Run (MachineStep k limit) c rs n ∧ (c.procs.ready 1).pid = p := by
  obtain ⟨a, -, ha, hu, -⟩ := depicts_of_run hl h1 hboot hm
  have hp := (ha.queue.mem_iff p).mpr hq
  have hw : a.Waits p := ⟨hp, fun he => hne ((ha.current_pid hp).mpr he)⟩
  have huntil := hn.until (fun c => ∃ a, Depicts k a c ∧ a.lastPid < limit ∧ a.Waits p)
    (fun c => ∃ a, Depicts k a c ∧ a.programs.head? = some p) ?_ ⟨a, ha, hu, hw⟩
  · rcases huntil with ⟨e, he, -, hwe⟩ | ⟨ks, c, rs, hsplit, hks, hrs, e, he, hhead⟩
    · exact absurd ((he.current_pid hwe.1).mp hcur) hwe.2
    · refine ⟨ks, c, rs, hsplit, hks, hrs, ?_⟩
      obtain ⟨ps, hps⟩ := List.head?_eq_some_iff.mp hhead
      have hpos : 0 < e.programs.length := by simp [hps]
      rw [(he.queue.programs 0 hpos).1]
      simp [hps]
  · rintro op s t ⟨d, hd, hdu, hdw⟩ hstep
    obtain ⟨e, hde, he, heu, -⟩ := hd.step hl hdu hstep
    rcases hde.waits hd.valid hdw with hwe | hhead
    · exact Or.inl ⟨e, he, heu, hwe⟩
    · exact Or.inr ⟨d, hd, hhead⟩

end Waiting

section Dropped

/-- The pid that decides is the new one, which is not 0. -/
theorem executeCommand_code {m c : Machine} (h : m.executeCommand = some c)
    (hu : (forkProcess m.procs).upid ≠ 0) : c.code = .child ↔ m.tick % 120 ≠ 0 := by
  rw [Machine.executeCommand] at h
  split_ifs at h with h0
  obtain rfl := Option.some.inj h
  by_cases ht : m.tick % 120 ≠ 0 <;> simp [ht, hu]

variable {k : KernelThreads} {limit : Nat}

theorem Depicts.current_queued {a : Session} {m : Machine} (h : Depicts k a m) :
    m.procs.current.pid ≤ 1 ∨ m.procs.current.pid ∈ a.programs := by
  rcases a.turn.cases with ht | ht | ht
  · exact Or.inl (h.current_shell ht).1.le
  · exact Or.inr (h.program_current ht).1
  · have hrun := h.turn
    simp only [RunsAt, ht] at hrun
    rw [Procs.current, hrun.2, Procs.get, h.queue.free 1 (by simp [h.valid.alone ht])]
    exact Or.inl (Nat.zero_le 1)

theorem Depicts.not_queued {a : Session} {m : Machine} {p : Nat} (h : Depicts k a m)
    (hd : a.Dropped p) :
    (∀ i < m.procs.processCount, (m.procs.ready i).pid ≠ p) ∧ m.procs.current.pid ≠ p := by
  obtain ⟨hm, hp, -, -⟩ := hd
  constructor
  · intro i hi he
    rcases Nat.eq_zero_or_pos i with rfl | hpos
    · rw [h.queue.shell.1] at he
      omega
    · exact hm ((h.queue.mem_iff p).mpr ⟨i, hpos, hi, he⟩)
  · intro he
    rcases h.current_queued with hc | hc
    · omega
    · exact hm (he ▸ hc)

/-- Whether a command of the shell is run is decided by the tick at its fork: at a multiple of 120
its process is never queued and never runs, whatever happens later. -/
theorem command_runs_iff_tick (k : KernelThreads) (sp tick limit : Nat) (hl : limit ≤ 2^16)
    (h1 : 1 < limit) (before after : List MachineOp) (b m c n : Machine)
    (hboot : Machine.boot k sp tick = some b) (hm : Run (MachineStep k limit) b before m)
    (hshell : m.code = .shell) (hc : MachineStep k limit .fork m c)
    (hn : Run (MachineStep k limit) c after n) :
    (c.code = .child ↔ m.tick % 120 ≠ 0) ∧
    (m.tick % 120 = 0 → (∀ i < n.procs.processCount, (n.procs.ready i).pid ≠ c.procs.upid) ∧
      n.procs.current.pid ≠ c.procs.upid) := by
  obtain ⟨a, -, ha, hu, -⟩ := depicts_of_run hl h1 hboot hm
  have hlt : m.procs.upid + 1 < limit := hc.1
  have hup : (forkProcess m.procs).upid = m.procs.upid + 1 := by
    rw [forkProcess_eq (by omega)]
  have hexec : m.executeCommand = some c := by
    have := hc.2
    rwa [Machine.step, hshell] at this
  have hcode := executeCommand_code hexec (by rw [hup]; exact Nat.succ_ne_zero _)
  refine ⟨hcode, ?_⟩
  intro ht
  obtain ⟨d, hstep, hd, hdu, -⟩ := ha.step hl hu hc
  have hdrop : d.Dropped d.lastPid := by
    cases hstep with
    | dropped hturn =>
      refine ⟨fun hx => ?_, Nat.succ_lt_succ ha.valid.counted.1, le_rfl, by simp⟩
      have := (ha.valid.pids _ hx).2
      dsimp only at this
      omega
    | forked hturn => exact absurd ht (hcode.mp hd.turn.1)
    | forkedInside hturn =>
      have := ha.program_code hturn
      rw [hshell] at this
      cases this
  obtain ⟨e, -, he, -, hde⟩ := hn.simulates
    (fun e x => Depicts k e x ∧ e.lastPid < limit ∧ e.Dropped d.lastPid) SessionStep
    (fun op e x y hx hxy => by
      obtain ⟨f, hef, hf, hfu, -⟩ := hx.1.step hl hx.2.1 hxy
      exact ⟨f, hef, hf, hfu, hef.dropped_keeps hx.2.2⟩) ⟨hd, hdu, hdrop⟩
  rw [hd.upid]
  exact he.not_queued hde

end Dropped

section Lost

variable {k : KernelThreads} {limit : Nat}

/-- The shell without a process of its own makes no call, and the timer has nothing to switch
to. -/
theorem Depicts.lost_run {a : Session} {m n : Machine} {ops : List MachineOp} (h : Depicts k a m)
    (ht : a.turn = .lost) (hn : Run (MachineStep k limit) m ops n) :
    (∀ op ∈ ops, ∃ sp, op = .timer sp) ∧ n.procs = m.procs ∧ n.code = m.code := by
  induction hn with
  | nil m => exact ⟨by simp, rfl, rfl⟩
  | @cons m x n op ops hstep hrest ih =>
    cases op with
    | timer sp =>
      have hdue : ¬m.Due := fun hd => h.due_programs hd (h.valid.alone ht)
      obtain ⟨hx, hd⟩ := h.tick hdue sp
      obtain rfl : m.ticked = x := Option.some.inj (hx.symm.trans hstep.2)
      obtain ⟨hall, hprocs, hcode⟩ := ih hd
      exact ⟨by simpa using hall, hprocs, hcode⟩
    | fork | waitpid | exec | exit _ _ | kill _ =>
      rw [MachineStep, h.refuses hstep.1 (by rw [ht]; rfl)] at hstep
      cases hstep.2

/-- When the only program ends after the timer has gone back to it, `curr_upcb` is left at its
emptied slot: the shell is started anew on a task_struct of zeros and makes no further call. -/
theorem sole_program_end_hangs (k : KernelThreads) (sp tick limit : Nat) (hl : limit ≤ 2^16)
    (h1 : 1 < limit) (before after : List MachineOp) (b m c n : Machine)
    (hboot : Machine.boot k sp tick = some b) (hm : Run (MachineStep k limit) b before m)
    (hcount : m.procs.processCount = 2) (hcurr : m.procs.curr = .ready 1) (status : Int)
    (sp' : Nat)
    (hc : MachineStep k limit (.exit status sp') m c) (hn : Run (MachineStep k limit) c after n) :
    (∀ op ∈ after, ∃ sp, op = .timer sp) ∧ n.code = .shell ∧ n.procs.current = .zero := by
  obtain ⟨a, -, ha, hu, -⟩ := depicts_of_run hl h1 hboot hm
  obtain ⟨d, hstep, hd, -, -⟩ := ha.step hl hu hc
  have hlen : a.programs.length = 1 := by
    have := ha.queue.count
    omega
  have hlost : d.turn = .lost := by
    cases hstep with
    | endedStarted _ ht =>
      obtain ⟨-, x, -, hx, -⟩ := ha.started_of ht
      rw [hcurr] at hx
      cases hx
    | endedResumed hp hne _ =>
      rw [hp, List.length_cons] at hlen
      exact absurd (List.eq_nil_of_length_eq_zero (by omega)) hne
    | endedSole _ _ => rfl
  obtain ⟨hall, hprocs, hsame⟩ := hd.lost_run hlost hn
  have hrun := hd.turn
  simp only [RunsAt, hlost] at hrun
  refine ⟨hall, hsame.trans hrun.1, ?_⟩
  rw [hprocs, Procs.current, hrun.2]
  exact hd.queue.free 1 (by simp [hd.valid.alone hlost])

end Lost

section Rotation

variable {k : KernelThreads} {limit : Nat}

/-- Who has the processor after usr_schedule. -/
def Turn.swap : Turn → Turn
  | .shell | .child | .parent => .resumed
  | .started | .resumed => .shell
  | .lost => .lost

theorem Turn.swap_shell {t : Turn} (h : t.isShell) : t.swap = .resumed := by
  rcases Turn.of_isShell h with rfl | rfl | rfl <;> rfl

theorem Turn.swap_program {t : Turn} (h : t.isProgram) : t.swap = .shell := by
  rcases Turn.of_isProgram h with rfl | rfl <;> rfl

theorem swap_iterate_shell (d : Nat) :
    Turn.swap^[d] .shell = (if d % 2 = 0 then .shell else .resumed) ∧
    Turn.swap^[d] .resumed = (if d % 2 = 0 then .resumed else .shell) := by
  induction d with
  | zero => exact ⟨rfl, rfl⟩
  | succ d ih =>
    rw [Function.iterate_succ, Function.comp, Function.comp]
    simp only [Turn.swap, ih.1, ih.2]
    constructor <;> split_ifs <;> first | rfl | omega

theorem Depicts.timer_turn {a : Session} {m n : Machine} (h : Depicts k a m) (hu : a.lastPid < 2^16)
    (hne : a.programs ≠ []) (hw : m.tick + 1 < 2^32) {sp : Nat}
    (hn : m.step k (.timer sp) = some n) :
    Depicts k { a with turn := if (m.tick+1) % 160 = 0 then a.turn.swap else a.turn } n ∧
      n.tick = m.tick + 1 := by
  have htick : m.ticked.tick = m.tick+1 := Nat.mod_eq_of_lt hw
  have hcount := h.queue.count
  have hpos := List.length_pos_of_ne_nil hne
  by_cases h160 : (m.tick+1) % 160 = 0
  · have hdue : m.Due := ⟨by rw [htick]; exact h160, by omega⟩
    rw [if_pos h160]
    rcases a.turn.cases with ht | ht | ht
    · obtain ⟨-, x, hx, hd, -, htx⟩ := h.resume hu hdue ht sp
      obtain rfl : x = n := Option.some.inj (hx.symm.trans hn)
      rw [Turn.swap_shell ht]
      exact ⟨hd, htx.trans htick⟩
    · obtain ⟨-, x, hx, hd, -, htx⟩ := h.preempt hu hdue ht sp
      obtain rfl : x = n := Option.some.inj (hx.symm.trans hn)
      rw [Turn.swap_program ht]
      exact ⟨hd, htx.trans htick⟩
    · exact absurd (h.valid.alone ht) hne
  · have hdue : ¬m.Due := fun hd => h160 (by rw [← htick]; exact hd.1)
    obtain ⟨hx, hd⟩ := h.tick hdue sp
    obtain rfl : m.ticked = n := Option.some.inj (hx.symm.trans hn)
    rw [if_neg h160]
    exact ⟨hd, htick⟩

/-- After any number of ticks: one swap for each multiple of 160 among them. -/
theorem Depicts.timers {a : Session} {m n : Machine} (sps : List Nat) (h : Depicts k a m)
    (hu : a.lastPid < 2^16) (hne : a.programs ≠ []) (hw : m.tick + sps.length < 2^32)
    (hn : Run (MachineStep k limit) m (sps.map .timer) n) :
    Depicts k { a with
      turn := Turn.swap^[(m.tick + sps.length)/160 - m.tick/160] a.turn } n ∧
    n.tick = m.tick + sps.length := by
  induction sps generalizing a m with
  | nil =>
    cases hn
    exact ⟨by simpa using h, rfl⟩
  | cons sp sps ih =>
    rw [List.length_cons] at hw ⊢
    obtain - | @⟨_, x, _, _, _, hstep, hrest⟩ := hn
    obtain ⟨hd, htick⟩ := h.timer_turn hu hne (by omega) hstep.2
    obtain ⟨hrun, hlast⟩ := ih hd hu hne (by omega) hrest
    have hsum : m.tick + 1 + sps.length = m.tick + (sps.length+1) := by omega
    rw [htick, hsum] at hrun hlast
    refine ⟨?_, hlast⟩
    by_cases h160 : (m.tick+1) % 160 = 0
    · have hd1 : (m.tick + (sps.length+1))/160 - m.tick/160 =
          (m.tick + (sps.length+1))/160 - (m.tick+1)/160 + 1 := by omega
      rw [hd1, Function.iterate_succ, Function.comp]
      simpa only [if_pos h160] using hrun
    · have hd0 : (m.tick + (sps.length+1))/160 - m.tick/160 =
          (m.tick + (sps.length+1))/160 - (m.tick+1)/160 := by omega
      rw [hd0]
      simpa only [if_neg h160] using hrun

/-- Left to the timer, the processor goes to and fro between the shell and the first program
behind it, once at every multiple of 160 ticks; the programs behind that one get no turn. -/
theorem timer_alternates (k : KernelThreads) (sp tick limit : Nat) (hl : limit ≤ 2^16)
    (h1 : 1 < limit) (before : List MachineOp) (b m n : Machine)
    (hboot : Machine.boot k sp tick = some b) (hm : Run (MachineStep k limit) b before m)
    (hcount : 1 < m.procs.processCount) (sps : List Nat) (hw : m.tick + sps.length < 2^32)
    (hn : Run (MachineStep k limit) m (sps.map .timer) n) (d : Nat) (hd0 : 1 ≤ d)
    (hd : d = (m.tick + sps.length)/160 - m.tick/160) :
    n.procs.curr = if m.code = .program ↔ d % 2 = 1 then .ready 0 else .ready 1 := by
  obtain ⟨a, -, ha, hu, -⟩ := depicts_of_run hl h1 hboot hm
  have hne : a.programs ≠ [] := by
    intro he
    rw [ha.queue.count, he] at hcount
    exact absurd hcount (by simp)
  have hrun := (ha.timers sps (by omega) hne hw hn).1
  obtain ⟨e, rfl⟩ := Nat.exists_eq_add_of_le' hd0
  rw [← hd, Function.iterate_succ, Function.comp] at hrun
  -- one swap leads to the shell or the first program, from where the others alternate
  rcases a.turn.cases with hp | hp | hp
  · have hcode : ¬m.code = .program := by
      have hturn := ha.turn
      rcases Turn.of_isShell hp with ht | ht | ht
      all_goals
        simp only [RunsAt, ht] at hturn
        simp [hturn.1]
    rw [Turn.swap_shell hp, (swap_iterate_shell e).2] at hrun
    rcases Nat.mod_two_eq_zero_or_one e with h2 | h2
    · rw [if_neg (fun h => hcode (h.mpr (by omega)))]
      rw [if_pos h2] at hrun
      exact hrun.turn.2
    · rw [if_pos (iff_of_false hcode (by omega))]
      rw [if_neg (by omega)] at hrun
      exact hrun.turn.2
  · rw [Turn.swap_program hp, (swap_iterate_shell e).1] at hrun
    rcases Nat.mod_two_eq_zero_or_one e with h2 | h2
    · rw [if_pos (iff_of_true (ha.program_code hp) (by omega))]
      rw [if_pos h2] at hrun
      exact hrun.turn.2
    · rw [if_neg (fun h => by have := h.mp (ha.program_code hp); omega)]
      rw [if_neg (by omega)] at hrun
      exact hrun.turn.2
  · exact absurd (ha.valid.alone hp) hne

end Rotation

section ShellExit

variable {k : KernelThreads} {a : Session} {m : Machine}

/-- A pid that is yet to be given out is in no slot. -/
theorem Queued.pid_ne_fresh {s : Procs} (h : Queued a.programs s) (hv : a.Valid) {p : Nat}
    (hp : a.lastPid < p) (i : Nat) : (s.ready i).pid ≠ p := by
  have hone := hv.counted.1
  rcases Nat.eq_zero_or_pos i with rfl | hi
  · rw [h.shell.1]
    omega
  · apply h.pid_ne _ (by omega) i hi
    intro hm
    have := (hv.pids p hm).2
    omega

theorem Depicts.shell_of_code (h : Depicts k a m) (hc : m.code = .shell)
    (hz : m.procs.current ≠ .zero) : a.turn = .shell := by
  have hrun := h.turn
  cases ht : a.turn with
  | shell => rfl
  | lost =>
    simp only [RunsAt, ht] at hrun
    rw [Procs.current, hrun.2] at hz
    exact absurd (h.queue.free 1 (by simp [h.valid.alone ht])) hz
  | child | parent | started | resumed =>
    simp only [RunsAt, ht, hc] at hrun
    cases hrun.1

/-- The search of exit_process misses slot 0, so it is the last entry that leaves the window. -/
theorem Depicts.shell_exitSlot (h : Depicts k a m) (ht : a.turn.isShell) :
    exitSlot m.procs = m.procs.processCount+1 := by
  have hone : 1 ∉ a.programs := fun hm => (h.valid.pids 1 hm).1.false
  rw [exitSlot, (h.current_shell ht).1]
  rcases searchReady_spec m.procs 1 with ⟨h1, -, h3, -⟩ | ⟨h1, -⟩
  · exact absurd h3 (h.queue.pid_ne hone (by simp) _ h1)
  · exact h1

/-- What the `exit` of the shell does to the queue. -/
theorem Depicts.shell_exit (h : Depicts k a m) (ht : a.turn.isShell) (hu : a.lastPid < 2^16)
    {status : Int} (hs : status ≠ 1) :
    (exitProcess status m.procs).processCount = a.programs.length ∧
    (exitProcess status m.procs).curr = .ready 0 ∧
    (∀ i, ((exitProcess status m.procs).ready i).pid = (m.procs.ready i).pid) ∧
    ((exitProcess status m.procs).ready 0).state = .zombie := by
  obtain ⟨hcount, -, hready, -⟩ := exitProcess_leave m.procs hs
  have hc := h.queue.count
  have hlen := h.length_lt hu
  have hcurr := h.shell_curr ht
  have hsame (i : Nat) : (exitProcess status m.procs).ready i =
      (recordZombie status m.procs).ready i := by
    rw [hready, h.shell_exitSlot ht, if_neg (by omega)]
  have hpids (i : Nat) : ((exitProcess status m.procs).ready i).pid = (m.procs.ready i).pid := by
    rw [hsame, recordZombie_ready_pid]
  have hzero : (recordZombie status m.procs).ready 0 =
      { m.procs.ready 0 with state := .zombie } := by
    simp [recordZombie, Procs.set, Procs.note, Procs.current, Procs.get, hcurr]
  have hcount' : (exitProcess status m.procs).processCount = a.programs.length := by
    rw [hcount, hc, dec16]
    omega
  refine ⟨hcount', ?_, hpids, by rw [hsame, hzero]⟩
  rw [exitProcess_leaving hs, resumeParent_curr_none, leaving_curr, hcurr]
  -- the parent it looks for has pid 0, and no process in the window has
  intro j hj
  rw [leaving_processCount hs, hcount'] at hj
  have hpp : (leaving status m.procs).current.ppid = 0 := by
    rw [Procs.current, leaving_curr, hcurr, Procs.get, leaving_ready hs, hsame, hzero]
    exact h.queue.shell.2
  rw [hpp, leaving_ready hs, hpids]
  exact h.queue.nonzero (fun p hp => (h.valid.pids p hp).1) j (by omega)

/-- The call as a whole. -/
theorem Depicts.shell_exit_step (h : Depicts k a m) (ht : a.turn = .shell) (hu : a.lastPid < 2^16)
    (sp : Nat) :
    ∃ t, m.step k (.exit (-1) sp) = some { m with procs := t, code := .shell } ∧
      t.processCount = a.programs.length ∧ t.curr = .ready 0 ∧ t.upid = m.procs.upid ∧
      (∀ i, (t.ready i).pid = (m.procs.ready i).pid) ∧ (t.ready 0).state = .zombie := by
  have hpid := (h.current_shell (by rw [ht]; rfl)).1
  have hne : ¬(m.procs.current = .zero ∨ (-1 : Int) ≠ -1) := by
    rintro (he | he)
    · rw [he] at hpid
      cases hpid
    · exact he rfl
  have hturn := h.turn
  simp only [RunsAt, ht] at hturn
  have hstep : m.step k (.exit (-1) sp) = m.shellExit k (-1) sp := by
    simp only [Machine.step, hturn.1]
  obtain ⟨hcount, hcurr, hpids, hstate⟩ := h.shell_exit (by rw [ht]; rfl) hu
    (by decide : (-1 : Int) ≠ 1)
  refine ⟨_, ?_, hcount, hcurr, (exitProcess_sameChild _ m.procs).upid, hpids, hstate⟩
  rw [hstep, Machine.shellExit, if_neg hne, h.loadKrsp]

/-- A command that is run, from whatever table the shell has left. -/
theorem command_started {n : Machine} (hcode : n.code = .shell)
    (hne : n.procs.current ≠ .zero) (htick : n.tick % 120 ≠ 0) (hu : n.procs.upid + 1 < 2^16)
    (hcount : n.procs.processCount < 2^16 - 1) :
    ∃ c d, n.step k .fork = some c ∧ c.step k .exec = some d ∧
      d.procs.processCount = n.procs.processCount + 1 ∧
      d.procs.ready = Function.update n.procs.ready n.procs.processCount
        ⟨n.procs.upid+1, n.procs.current.pid, .ready, 0, 0⟩ := by
  have hf := forkProcess_eq hu
  have hfork : n.step k .fork = some { n with procs := forkProcess n.procs, code := .child } := by
    simp [Machine.step, hcode, Machine.executeCommand, hne, forkCall, htick]
  have he := exec_eq (s := forkProcess n.procs) (by rw [hf]) (by rw [hf]; exact hcount)
  refine ⟨_, _, hfork, by rw [Machine.step, he]; rfl, ?_⟩
  simp [hf]

/-- `exit` does not end the shell: wherever it has the processor, it is started anew as a zombie,
and the newest process of the queue leaves the window in its place. -/
theorem shell_exit_restarts (k : KernelThreads) (sp tick limit : Nat) (hl : limit ≤ 2^16)
    (h1 : 1 < limit) (before : List MachineOp) (b m : Machine)
    (hboot : Machine.boot k sp tick = some b) (hm : Run (MachineStep k limit) b before m)
    (hshell : m.code = .shell) (hcur : m.procs.current ≠ .zero) (sp' : Nat) :
    ∃ n, m.step k (.exit (-1) sp') = some n ∧ n.code = .shell ∧ n.procs.current.pid = 1 ∧
      n.procs.current.state = .zombie ∧ n.procs.processCount + 1 = m.procs.processCount ∧
      ∀ i, (n.procs.ready i).pid = (m.procs.ready i).pid := by
  obtain ⟨a, -, ha, hu, -⟩ := depicts_of_run hl h1 hboot hm
  obtain ⟨t, hstep, hcount, hcurr, -, hpids, hstate⟩ :=
    ha.shell_exit_step (ha.shell_of_code hshell hcur) (by omega) sp'
  refine ⟨_, hstep, rfl, ?_, ?_, ?_, hpids⟩
  · rw [Procs.current, hcurr, Procs.get, hpids]
    exact ha.queue.shell.1
  · rw [Procs.current, hcurr, Procs.get]
    exact hstate
  · rw [hcount, ha.queue.count]

/-- The command that is typed right after `exit` is put into the slot of the process that has left
the window, so that the queue holds it nowhere: the newest program, or the shell if there was
none. -/
theorem command_after_exit (k : KernelThreads) (sp tick limit : Nat) (hl : limit ≤ 2^16)
    (h1 : 1 < limit) (before : List MachineOp) (b m : Machine)
    (hboot : Machine.boot k sp tick = some b) (hm : Run (MachineStep k limit) b before m)
    (hshell : m.code = .shell) (hcur : m.procs.current ≠ .zero) (sp' : Nat)
    (hlt : m.procs.upid + 1 < limit) (htick : m.tick % 120 ≠ 0) :
    ∃ n c d, m.step k (.exit (-1) sp') = some n ∧ n.step k .fork = some c ∧
      c.step k .exec = some d ∧ d.procs.processCount = m.procs.processCount ∧
      (d.procs.ready n.procs.processCount).pid = m.procs.upid + 1 ∧
      ∀ i, (d.procs.ready i).pid ≠ (m.procs.ready n.procs.processCount).pid := by
  obtain ⟨a, -, ha, hu, -⟩ := depicts_of_run hl h1 hboot hm
  obtain ⟨t, hstep, hcount, hcurr, hup, hpids, -⟩ :=
    ha.shell_exit_step (ha.shell_of_code hshell hcur) (by omega) sp'
  have hne : t.current ≠ .zero := by
    intro he
    have hpid := hpids 0
    rw [Procs.current, hcurr, Procs.get] at he
    rw [he, ha.queue.shell.1] at hpid
    cases hpid
  have hlen := ha.length_lt (by omega)
  have hmc := ha.queue.count
  obtain ⟨c, d, hc, hd, hdc, hdr⟩ := command_started (k := k) (n := ⟨t, m.threads, m.tick, .shell⟩)
    rfl hne htick (by rw [hup]; omega) (by rw [hcount]; omega)
  dsimp only at hdc hdr
  refine ⟨_, c, d, hstep, hc, hd, ?_, ?_, ?_⟩
  · rw [hdc, hcount, hmc]
  · rw [hdr, Function.update_self, hup]
  · intro i hi
    have hnd : a.programs.Nodup := ha.valid.sorted.imp ne_of_lt
    have hpos (p : Nat) (hp : p ∈ a.programs) : 1 < p := (ha.valid.pids p hp).1
    rw [hdr, hcount] at hi
    by_cases hit : i = a.programs.length
    · rw [hit, Function.update_self, hup, ha.upid] at hi
      exact ha.queue.pid_ne_fresh ha.valid (Nat.lt_succ_self _) _ hi.symm
    · rw [Function.update_of_ne hit, hpids] at hi
      exact hit (ha.queue.pid_inj hnd hpos (by omega) hi)

end ShellExit

section Examples

/-- The timer can always come. -/
theorem Depicts.timers_run (limit : Nat) {k : KernelThreads} {a : Session} {m : Machine}
    (sps : List Nat) (h : Depicts k a m) (hu : a.lastPid < 2^16) :
    ∃ n, Run (MachineStep k limit) m (sps.map .timer) n := by
  induction sps generalizing a m with
  | nil => exact ⟨m, .nil m⟩
  | cons sp sps ih =>
    obtain ⟨x, b, hx, hb, hd, -⟩ := h.timer hu sp
    have hub : b.lastPid < 2^16 := by
      cases hb <;> exact hu
    obtain ⟨n, hn⟩ := ih hd hub
    exact ⟨n, .cons ⟨trivial, hx⟩ hn⟩

/-- This many ticks with one program in the queue. -/
theorem ticks_with_program {t : Turn} {m : Machine} (h : Depicts bootThreads ⟨[2], 2, t⟩ m) (j : Nat)
    (hj : m.tick + j < 1000) :
    ∃ n, Run (MachineStep bootThreads numProcs) m ((List.replicate j 0).map .timer) n ∧
      Depicts bootThreads ⟨[2], 2, Turn.swap^[(m.tick+j)/160 - m.tick/160] t⟩ n ∧
      n.tick = m.tick + j := by
  have hu : 2 < 2^16 := by norm_num
  obtain ⟨n, hn⟩ := h.timers_run numProcs (List.replicate j 0) hu
  have hturn := h.timers (List.replicate j 0) hu (by simp)
    (by rw [List.length_replicate]; omega) hn
  rw [List.length_replicate] at hturn
  exact ⟨n, hn, hturn⟩

/-- The first program is interrupted at tick 160 and goes on at tick 320. -/
theorem resumed_from_front_first :
    ∃ m n, m.procs.current.pid ≠ 2 ∧ n.procs.current.pid = 2 ∧
      ∃ ks c rs, (List.replicate 160 0).map .timer = ks++rs ∧
        Run (MachineStep bootThreads numProcs) m ks c ∧
        Run (MachineStep bootThreads numProcs) c rs n ∧ (c.procs.ready 1).pid = 2 := by
  obtain ⟨b, x, hb, hx, hd, ht⟩ := first_program_started
  obtain ⟨m, hxm, hm, htm⟩ := ticks_with_program hd 159 (by rw [ht]; decide)
  rw [ht] at hm htm
  obtain ⟨n, hmn, hn, -⟩ := ticks_with_program hm 160 (by rw [htm]; decide)
  rw [htm] at hn
  have hcm : m.procs.current.pid ≠ 2 := fun he => by
    have := (hm.current_pid (by simp)).mp he
    simp [Session.running, Turn.swap] at this
  have hcn : n.procs.current.pid = 2 := (hn.current_pid (by simp)).mpr rfl
  exact ⟨m, n, hcm, hcn, resumed_only_from_front bootThreads 0 1 numProcs (by decide) (by decide)
    _ _ b m n hb (hx.append hxm) hmn 2 ((hm.queue.mem_iff 2).mp (by simp)) hcm hcn⟩

/-- A command at tick 120. -/
theorem command_dropped_first :
    ∃ b c, Machine.boot bootThreads 0 120 = some b ∧
      MachineStep bootThreads numProcs .fork b c ∧ c.code ≠ .child ∧ c.procs.current.pid ≠ 2 := by
  obtain ⟨c, hc, hup⟩ : ∃ c, MachineStep bootThreads numProcs .fork
      ((Machine.boot bootThreads 0 120).get rfl) c ∧ c.procs.upid = 2 :=
    ⟨_, ⟨(by decide : 1+1 < 64), rfl⟩, rfl⟩
  obtain ⟨h1, h2⟩ := command_runs_iff_tick bootThreads 0 120 numProcs (by decide) (by decide) [] []
    _ _ c c rfl (.nil _) rfl hc (.nil c)
  refine ⟨_, c, rfl, hc, fun he => h1.mp he rfl, ?_⟩
  rw [← hup]
  exact (h2 rfl).2

/-- The first program ends after tick 320. -/
theorem sole_program_hangs_first :
    ∃ m c, MachineStep bootThreads numProcs (.exit 0 0) m c ∧ c.code = .shell ∧
      c.procs.current = .zero := by
  obtain ⟨b, x, hb, hx, hd, ht⟩ := first_program_started
  obtain ⟨m, hxm, hm, -⟩ := ticks_with_program hd 319 (by rw [ht]; decide)
  rw [ht] at hm
  obtain ⟨c, -, hc, -⟩ := hm.exit_resumed rfl (by decide) (by decide : (0 : Int) ≠ 1) 0
  have hstep : MachineStep bootThreads numProcs (.exit 0 0) m c := ⟨⟨by decide, (hm.resumed_of rfl).1⟩, hc⟩
  exact ⟨m, c, hstep, (sole_program_end_hangs bootThreads 0 1 numProcs (by decide) (by decide)
    _ [] b m c c hb (hx.append hxm) hm.queue.count (hm.resumed_of rfl).2 0 0 hstep (.nil c)).2⟩

/-- From tick 1 to tick 161, and from tick 1 to tick 321. -/
theorem timer_alternates_first :
    ∃ m n r, m.code = .program ∧
      Run (MachineStep bootThreads numProcs) m ((List.replicate 160 0).map .timer) n ∧
      Run (MachineStep bootThreads numProcs) m ((List.replicate 320 0).map .timer) r ∧
      n.procs.curr = .ready 0 ∧ r.procs.curr = .ready 1 := by
  obtain ⟨b, m, hb, hm, hd, ht⟩ := first_program_started
  have hcode := hd.program_code rfl
  obtain ⟨n, hn, -⟩ := ticks_with_program hd 160 (by rw [ht]; decide)
  obtain ⟨r, hr, -⟩ := ticks_with_program hd 320 (by rw [ht]; decide)
  have hcount : 1 < m.procs.processCount := by
    rw [hd.queue.count]
    decide
  refine ⟨m, n, r, hcode, hn, hr, ?_, ?_⟩
  · refine (timer_alternates bootThreads 0 1 numProcs (by decide) (by decide) _ b m n hb hm hcount _
      (by rw [ht, List.length_replicate]; decide) hn 1 le_rfl
      (by rw [ht, List.length_replicate])).trans ?_
    simp [hcode]
  · refine (timer_alternates bootThreads 0 1 numProcs (by decide) (by decide) _ b m r hb hm hcount _
      (by rw [ht, List.length_replicate]; decide) hr 2 (by decide)
      (by rw [ht, List.length_replicate])).trans ?_
    simp [hcode]

/-- The user types `exit` at once: the window is empty. -/
theorem shell_exit_restarts_booted :
    ∃ b n : Machine, Machine.boot bootThreads 0 1 = some b ∧
      b.step bootThreads (.exit (-1) 0) = some n ∧ n.code = .shell ∧
      n.procs.current.state = .zombie ∧ n.procs.processCount = 0 := by
  obtain ⟨n, hn, hcode, -, hstate, hcount, -⟩ := shell_exit_restarts bootThreads 0 1 numProcs
    (by decide) (by decide) [] _ _ rfl (.nil _) rfl (by decide) 0
  exact ⟨_, n, rfl, hn, hcode, hstate, Nat.succ.inj hcount⟩

/-- And then a command: the shell is no longer in the queue. -/
theorem command_after_exit_booted :
    ∃ b d : Machine, Machine.boot bootThreads 0 1 = some b ∧ (b.procs.ready 0).pid = 1 ∧
      d.procs.processCount = 1 ∧ ∀ i, (d.procs.ready i).pid ≠ 1 := by
  obtain ⟨n, c, d, hn, -, -, hcount, -, hlost⟩ := command_after_exit bootThreads 0 1 numProcs
    (by decide) (by decide) [] _ _ rfl (.nil _) rfl (by decide) 0 (by decide) (by decide)
  obtain rfl := Option.some.inj hn
  exact ⟨_, d, rfl, rfl, hcount, hlost⟩

end Examples

end SBUnix
