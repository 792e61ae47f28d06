import SBUnix.Framework.Simulation
import SBUnix.System.Queue
import SBUnix.System.Session

namespace SBUnix

open Simulation

/-- Where `curr_upcb` points and which code runs. A program runs as the structure that fork
allocated until the timer goes back to its copy in the queue. -/
def RunsAt (a : Session) (m : Machine) : Prop :=
  match a.turn with
  | .shell => m.code = .shell ∧ m.procs.curr = .ready 0
  | .child => m.code = .child ∧ m.procs.curr = .ready 0 ∧
      ∃ k < m.procs.heapNext, m.procs.globalChild = some k ∧
        (m.procs.heap k).pid = a.lastPid ∧ (m.procs.heap k).ppid = 1
  | .parent => m.code = .parent a.lastPid ∧ m.procs.curr = .ready 0
  | .started => m.code = .program ∧
      ∃ k < m.procs.heapNext, m.procs.curr = .heap k ∧
        a.programs.getLast? = some (m.procs.heap k).pid ∧ (m.procs.heap k).ppid = 1
  | .resumed => m.code = .program ∧ m.procs.curr = .ready 1
  | .lost => m.code = .shell ∧ m.procs.curr = .ready 1

/-- The pids that are given out and neither live nor on record as zombies. -/
def Session.spare (a : Session) : Nat := if a.turn.isForked then 2 else 1

/-- The records of zombies name processes that have ended, and leave room for those that have
not. -/
structure Records (a : Session) (s : Procs) : Prop where
  count : s.zomCount + a.programs.length + a.spare ≤ a.lastPid
  dead : ∀ x, (s.zombie x).pid = 0 ∨ a.Dropped (s.zombie x).pid
  listed : ∀ z, s.zombies z ≤ a.lastPid

/-- The machine is in this state of the session. -/
structure Depicts (k : KernelThreads) (a : Session) (m : Machine) : Prop where
  valid : a.Valid
  queue : Queued a.programs m.procs
  upid : m.procs.upid = a.lastPid
  turn : RunsAt a m
  threads : Handed k.idlePage k.initPage m.threads
  idle : (m.threads.pcb k.idlePage).rip = k.idle
  records : Records a m.procs

/-- The calls the code of this turn makes; the timer comes at any time. -/
def Turn.offers : Turn → MachineOp → Bool
  | .shell, .fork | .child, .exec | .parent, .waitpid => true
  | .started, .fork | .started, .exit _ _ | .started, .kill _ => true
  | .resumed, .fork | .resumed, .exit _ _ | .resumed, .kill _ => true
  | _, .timer _ => true
  | _, _ => false

/-- The machine takes the step, and the session takes it with the machine; as long as every pid
is below NUM_PROCS, nothing is stored outside the arrays. -/
def Follows (k : KernelThreads) (op : MachineOp) (a : Session) (m : Machine) : Prop :=
  ∃ n b, m.step k op = some n ∧ SessionStep op a b ∧ Depicts k b n ∧
    (a.lastPid < numProcs → StoresInside m.procs n.procs)

section Records

variable {a b : Session} {s t : Procs} {op : MachineOp}

/-- A step of the session that leaves the records of zombies alone. -/
theorem Records.step (h : Records a s) (hs : SessionStep op a b) (hz : t.zomCount = s.zomCount)
    (hq : t.zombie = s.zombie) (hr : t.zombies = s.zombies) (hl : a.lastPid ≤ b.lastPid)
    (hc : a.lastPid + b.programs.length + b.spare ≤ b.lastPid + a.programs.length + a.spare) :
    Records b t where
  count := by
    have := h.count
    omega
  dead x := by
    rw [hq]
    exact (h.dead x).imp_right hs.dropped_keeps
  listed z := by
    rw [hr]
    exact (h.listed z).trans hl

/-- The exit of a program that goes from `a` to `b`. -/
theorem Records.exit {status : Int} (h : Records a s) (hs : SessionStep op a b) (hst : status ≠ 1)
    (ha : a.spare = 1) (hb : b.spare = 1) (hl : b.lastPid = a.lastPid)
    (hlen : b.programs.length + 1 = a.programs.length) (hd : b.Dropped s.current.pid) :
    Records b (exitProcess status s) := by
  obtain ⟨hcount, hzombies⟩ := exitProcess_records status s hst
  have hidx : zombieIndex status s ≤ s.zomCount + 1 := by
    unfold zombieIndex
    split_ifs
    · exact Nat.le_succ _
    · exact Nat.mod_le _ _
  have hc := h.count
  constructor
  case count =>
    rw [hcount, hb]
    omega
  case dead =>
    intro x
    rw [(exitProcess_leave s hst).2.1, recordZombie_zombie_pid]
    split_ifs
    · exact Or.inr hd
    · exact (h.dead x).imp_right hs.dropped_keeps
  case listed =>
    intro z
    rw [hzombies, hl]
    by_cases hz : z = zombieIndex status s
    · rw [hz, Function.update_self, ← hl]
      exact hd.2.2.1
    · rw [Function.update_of_ne hz]
      exact h.listed z

end Records

section Step

variable {k : KernelThreads} {a : Session} {m : Machine}

theorem Depicts.shell_curr (h : Depicts k a m) (ht : a.turn.isShell) :
    m.procs.curr = .ready 0 := by
  have hrun := h.turn
  rcases Turn.of_isShell ht with he | he | he
  · simp only [RunsAt, he] at hrun
    exact hrun.2
  · simp only [RunsAt, he] at hrun
    exact hrun.2.1
  · simp only [RunsAt, he] at hrun
    exact hrun.2

theorem Depicts.current_shell (h : Depicts k a m) (ht : a.turn.isShell) :
    m.procs.current.pid = 1 ∧ m.procs.current.ppid = 0 := by
  rw [Procs.current, h.shell_curr ht]
  exact h.queue.shell

theorem Depicts.started_of (h : Depicts k a m) (ht : a.turn = .started) : m.code = .program ∧
    ∃ x < m.procs.heapNext, m.procs.curr = .heap x ∧
      a.programs.getLast? = some (m.procs.heap x).pid ∧ (m.procs.heap x).ppid = 1 := by
  have hrun := h.turn
  simp only [RunsAt, ht] at hrun
  exact hrun

theorem Depicts.resumed_of (h : Depicts k a m) (ht : a.turn = .resumed) :
    m.code = .program ∧ m.procs.curr = .ready 1 := by
  have hrun := h.turn
  simp only [RunsAt, ht] at hrun
  exact hrun

theorem Depicts.program_code (h : Depicts k a m) (ht : a.turn.isProgram) : m.code = .program := by
  rcases Turn.of_isProgram ht with he | he
  · exact (h.started_of he).1
  · exact (h.resumed_of he).1

/-- The program that runs is one of the queue, and the shell is its parent. -/
theorem Depicts.program_current (h : Depicts k a m) (ht : a.turn.isProgram) :
    m.procs.current.pid ∈ a.programs ∧ m.procs.current.ppid = 1 := by
  rcases Turn.of_isProgram ht with he | he
  · obtain ⟨-, x, -, hcurr, hlast, hpp⟩ := h.started_of he
    rw [Procs.current, hcurr]
    exact ⟨List.mem_of_getLast? hlast, hpp⟩
  · have hpos := List.length_pos_of_ne_nil (h.valid.runs ht)
    rw [Procs.current, (h.resumed_of he).2, Procs.get, (h.queue.programs 0 hpos).1]
    exact ⟨List.getElem_mem hpos, (h.queue.programs 0 hpos).2⟩

theorem Session.spare_program (ht : a.turn.isProgram) : a.spare = 1 := by
  rw [Session.spare, Turn.not_isForked ht]
  rfl

theorem Session.spare_bounds (a : Session) : 1 ≤ a.spare ∧ a.spare ≤ 2 := by
  unfold Session.spare
  split_ifs <;> omega

/-- A command of the shell: the tick decides which side of the fork it goes on with. -/
theorem Depicts.fork_shell (h : Depicts k a m) (ht : a.turn = .shell) (hu : a.lastPid + 1 < 2^16) :
    Follows k .fork a m := by
  have hshell : a.turn.isShell := by rw [ht]; rfl
  have hcurr := h.shell_curr hshell
  obtain ⟨hpid, hppid⟩ := h.current_shell hshell
  have hcode : m.code = .shell := by
    have hrun := h.turn
    simp only [RunsAt, ht] at hrun
    exact hrun.1
  have hne : ¬m.procs.current = .zero := by
    intro he
    rw [he] at hpid
    cases hpid
  have hspare : a.spare = 1 := by rw [Session.spare, ht]; rfl
  have hf := forkProcess_eq (s := m.procs) (by rw [h.upid]; exact hu)
  rw [h.upid] at hf
  have hq : Queued a.programs (forkProcess m.procs) :=
    h.queue.congr (by rw [hf]) (by rw [hf])
  have hrec {b : Session} (hs : SessionStep .fork a b)
      (hb : b = ⟨a.programs, a.lastPid+1, b.turn⟩) : Records b (forkProcess m.procs) := by
    have hspare' := b.spare_bounds
    refine h.records.step hs (by rw [hf]) (by rw [hf]) (by rw [hf]) ?_ ?_
    · rw [hb]
      exact Nat.le_succ _
    · rw [hb] at hspare' ⊢
      dsimp only
      omega
  have hstep : m.step k .fork = m.executeCommand := by simp only [Machine.step, hcode]
  by_cases htick : m.tick % 120 ≠ 0
  · have hs : SessionStep .fork a _ := .forked ht
    refine ⟨{ m with procs := forkProcess m.procs, code := .child }, _, ?_, hs, ?_,
      fun _ => forkProcess_storesInside rfl⟩
    · rw [hstep]
      simp [Machine.executeCommand, hne, forkCall, htick]
    · refine ⟨hs.valid h.valid, hq, by simp [hf], ?_, h.threads, h.idle, hrec hs rfl⟩
      refine ⟨rfl, ?_, m.procs.heapNext, ?_, ?_⟩
      · rw [hf]
        exact hcurr
      · simp [hf]
      · simp [hf, hpid]
  · have hs : SessionStep .fork a _ := .dropped ht
    refine ⟨{ m with procs := forkProcess m.procs, code := .parent (a.lastPid+1) }, _, ?_, hs, ?_,
      fun _ => forkProcess_storesInside rfl⟩
    · have hup : (forkProcess m.procs).upid = a.lastPid+1 := by rw [hf]
      rw [hstep]
      simp [Machine.executeCommand, hne, forkCall, htick, hup]
    · refine ⟨hs.valid h.valid, hq, by simp [hf], ⟨rfl, ?_⟩, h.threads, h.idle, hrec hs rfl⟩
      rw [hf]
      exact hcurr

/-- The process that was forked is not in the queue, so there is nothing to wait for. -/
theorem Depicts.waitpid (h : Depicts k a m) (ht : a.turn = .parent) : Follows k .waitpid a m := by
  have hrun := h.turn
  simp only [RunsAt, ht] at hrun
  obtain ⟨hcode, hcurr⟩ := hrun
  have hforked : a.turn.isForked := by rw [ht]; rfl
  have hfresh : a.lastPid ∉ a.programs := fun hm => (h.valid.forked hforked _ hm).false
  have hpos := h.valid.counted.1
  have hwait := h.queue.waitFor hfresh (by omega)
  have hcur : m.procs.current = m.procs.ready 0 := by rw [Procs.current, hcurr, Procs.get]
  rw [hcurr, hcur] at hwait
  have hs : SessionStep .waitpid a _ := .waited ht
  have hstep : m.step k .waitpid = m.waitpid a.lastPid := by simp only [Machine.step, hcode]
  refine ⟨{ m with
    procs := m.procs.set (.ready 0) { m.procs.ready 0 with waitPid := 0, state := .ready }
    code := .shell }, _, ?_, hs, ?_, fun _ => storesInside_of_log rfl⟩
  · rw [hstep, Machine.waitpid, hwait]
  · refine ⟨hs.valid h.valid, ?_, h.upid, ⟨rfl, hcurr⟩, h.threads, h.idle, ?_⟩
    · exact h.queue.setShell _ h.queue.shell.1 h.queue.shell.2
    · have hspare : a.spare = 2 := by rw [Session.spare, ht]; rfl
      refine h.records.step hs rfl rfl rfl le_rfl ?_
      rw [hspare]
      exact Nat.le_succ _

/-- A fork of a program leaves its child outside the queue. -/
theorem Depicts.fork_program (h : Depicts k a m) (ht : a.turn.isProgram)
    (hu : a.lastPid + 1 < 2^16) : Follows k .fork a m := by
  have hcode := h.program_code ht
  have hf := forkProcess_eq (s := m.procs) (by rw [h.upid]; exact hu)
  rw [h.upid] at hf
  have hs : SessionStep .fork a _ := .forkedInside ht
  refine ⟨{ m with procs := forkProcess m.procs }, _, ?_, hs, ?_,
    fun _ => forkProcess_storesInside rfl⟩
  · simp only [Machine.step, hcode, forkCall]
  · constructor
    case valid => exact hs.valid h.valid
    case queue => exact h.queue.congr (by rw [hf]) (by rw [hf])
    case upid => simp [hf]
    case turn =>
      rcases Turn.of_isProgram ht with he | he
      · obtain ⟨-, x, hx, hcurr, hlast, hpp⟩ := h.started_of he
        simp only [RunsAt, he]
        refine ⟨hcode, x, ?_, ?_, ?_, ?_⟩
        · rw [hf]
          exact hx.trans (Nat.lt_succ_self _)
        · rw [hf]
          exact hcurr
        · simpa [hf, hx.ne] using hlast
        · simpa [hf, hx.ne] using hpp
      · simp only [RunsAt, he]
        refine ⟨hcode, ?_⟩
        rw [hf]
        exact (h.resumed_of he).2
    case threads => exact h.threads
    case idle => exact h.idle
    case records =>
      refine h.records.step hs (by rw [hf]) (by rw [hf]) (by rw [hf]) (Nat.le_succ _) ?_
      simp only [Session.spare]
      omega

theorem Depicts.exec (h : Depicts k a m) (ht : a.turn = .child) (hu : a.lastPid < 2^16) :
    Follows k .exec a m := by
  have hrun := h.turn
  simp only [RunsAt, ht] at hrun
  obtain ⟨hcode, hcurr, x, hx, hchild, hpid, hppid⟩ := hrun
  have hspare : a.spare = 2 := by rw [Session.spare, ht]; rfl
  have hz := h.records.count
  have hc := h.queue.count
  have he := exec_eq hchild (by omega)
  have hstep : m.step k .exec =
      (SBUnix.exec m.procs).map fun t => { m with procs := t, code := .program } := by
    simp only [Machine.step, hcode]
  rw [he, Option.map_some] at hstep
  have hs : SessionStep .exec a _ := .started ht
  refine ⟨_, _, hstep, hs, ?_, fun hlt => ⟨[.store (.ready m.procs.processCount)], rfl, ?_⟩⟩
  · constructor
    case valid => exact hs.valid h.valid
    case queue => exact (h.queue.exec (m.procs.heap x) a.lastPid hpid hppid).congr rfl rfl
    case upid => exact h.upid
    case turn => exact ⟨rfl, x, hx, rfl, by simp [hpid], hppid⟩
    case threads => exact h.threads
    case idle => exact h.idle
    case records =>
      refine h.records.step hs rfl rfl rfl le_rfl ?_
      rw [hspare, List.length_append]
      exact le_rfl
  · intro x hx
    obtain rfl := ProcEvent.store.inj (List.mem_singleton.mp hx)
    change m.procs.processCount < numProcs
    omega

/-- The jump at the end of exit_process leads to a new start of the shell. -/
theorem Depicts.loadKrsp (h : Depicts k a m) (s : Procs) (sp : Nat) :
    ({ m with procs := s } : Machine).loadKrsp k sp = some { m with procs := s, code := .shell } := by
  simp [Machine.loadKrsp, Machine.idle, h.threads.head, h.idle, h.threads.yield sp]

theorem Depicts.exit_step (h : Depicts k a m) (ht : a.turn.isProgram) {status : Int}
    (hs : status ≠ 1) (sp : Nat) :
    m.step k (.exit status sp) =
      some { m with procs := exitProcess status m.procs, code := .shell } := by
  have hstep : m.step k (.exit status sp) = m.programExit k status sp := by
    simp only [Machine.step, h.program_code ht]
  rw [hstep, Machine.programExit, if_neg hs, h.loadKrsp]

theorem Depicts.exit_storesInside (h : Depicts k a m) (ht : a.turn.isProgram)
    (hu : a.lastPid < numProcs) {status : Int} (hs : status ≠ 1) :
    StoresInside m.procs (exitProcess status m.procs) := by
  have hz := h.records.count
  have hspare := Session.spare_program ht
  have hpid := (h.valid.pids _ (h.program_current ht).1).2
  have hpos := List.length_pos_of_ne_nil (h.valid.runs ht)
  have hc := h.queue.count
  have hidx : zombieIndex status m.procs ≤ m.procs.zomCount + 1 := by
    unfold zombieIndex
    split_ifs
    · exact Nat.le_succ _
    · exact Nat.mod_le _ _
  rw [exitProcess_stores hs]
  exact ⟨by omega, by omega, fun x _ hx => by omega⟩

/-- What an exit of the program in place `i` leaves, apart from who runs next. -/
theorem Depicts.exited (h : Depicts k a m) (ht : a.turn.isProgram) (hu : a.lastPid < 2^16)
    {status : Int} (hs : status ≠ 1) {i sp : Nat} (hi : i < a.programs.length)
    (hp : m.procs.current.pid = a.programs[i]) (hcur : ∀ j, m.procs.curr = .ready j → j = i+1)
    {b : Session} (hb : b = ⟨a.programs.eraseIdx i, a.lastPid, b.turn⟩)
    (hstep : SessionStep (.exit status sp) a b) (hbt : b.turn = .shell ∨ b.turn = .lost)
    (hrun : Queued b.programs (exitProcess status m.procs) →
      RunsAt b { m with procs := exitProcess status m.procs, code := .shell }) :
    Follows k (.exit status sp) a m := by
  have hz := h.records.count
  have hprogs : b.programs = a.programs.eraseIdx i := by rw [hb]
  have hlast : b.lastPid = a.lastPid := by rw [hb]
  have hnd : a.programs.Nodup := h.valid.sorted.imp ne_of_lt
  have hmem := (h.program_current ht).1
  have hpid := h.valid.pids _ hmem
  have hq : Queued b.programs (exitProcess status m.procs) := by
    rw [hprogs]
    exact h.queue.exit hnd (by omega) hs hi hp hcur
  have hl : b.programs.length + 1 = a.programs.length := by
    rw [hprogs, List.length_eraseIdx_of_lt hi]
    omega
  have hspare : b.spare = 1 := by
    rcases hbt with he | he <;> rw [Session.spare, he] <;> rfl
  have hdrop : b.Dropped m.procs.current.pid := by
    refine ⟨?_, hpid.1, hlast ▸ hpid.2, fun he => ?_⟩
    · rw [hprogs, hp, ← hnd.erase_getElem i hi]
      exact hnd.not_mem_erase
    · rcases hbt with ht | ht <;> rw [ht] at he <;> cases he
  refine ⟨_, b, h.exit_step ht hs sp, hstep, ?_, fun hlt => h.exit_storesInside ht hlt hs⟩
  refine ⟨hstep.valid h.valid, hq, ?_, hrun hq, h.threads, h.idle, ?_⟩
  · rw [hlast, ← h.upid, (exitProcess_sameChild status m.procs).upid]
  · exact h.records.exit hstep hs (Session.spare_program ht) hspare hlast hl hdrop

theorem Depicts.exit_started (h : Depicts k a m) (ht : a.turn = .started) (hu : a.lastPid < 2^16)
    {status : Int} (hs : status ≠ 1) (sp : Nat) : Follows k (.exit status sp) a m := by
  have hprog : a.turn.isProgram := by rw [ht]; rfl
  obtain ⟨-, x, -, hcurr, hlast, hpp⟩ := h.started_of ht
  obtain ⟨ps, hps⟩ := List.getLast?_eq_some_iff.mp hlast
  have hi : ps.length < a.programs.length := by simp [hps]
  have hpid : m.procs.current.pid = a.programs[ps.length] := by
    rw [Procs.current, hcurr, Procs.get]
    simp [hps]
  refine h.exited hprog hu hs hi hpid ?_ ?_ (.endedStarted hps ht) (Or.inl rfl) ?_
  · intro j hj
    rw [hcurr] at hj
    cases hj
  · rw [hps, List.eraseIdx_append_of_length_le le_rfl]
    simp
  · intro hq
    exact ⟨rfl, hq.exit_curr_heap hs hcurr hpp⟩

theorem Depicts.exit_resumed (h : Depicts k a m) (ht : a.turn = .resumed) (hu : a.lastPid < 2^16)
    {status : Int} (hs : status ≠ 1) (sp : Nat) : Follows k (.exit status sp) a m := by
  have hprog : a.turn.isProgram := by rw [ht]; rfl
  have hcurr := (h.resumed_of ht).2
  obtain ⟨p, ps, hps⟩ := List.exists_cons_of_ne_nil (h.valid.runs hprog)
  have hi : 0 < a.programs.length := by simp [hps]
  have hpid : m.procs.current.pid = a.programs[0] := by
    rw [Procs.current, hcurr, Procs.get]
    exact (h.queue.programs 0 hi).1
  have hj (j : Nat) (hj : m.procs.curr = .ready j) : j = 0+1 := by
    rw [hcurr] at hj
    exact (TaskPtr.ready.inj hj).symm
  cases ps with
  | nil =>
    refine h.exited hprog hu hs hi hpid hj ?_ (.endedSole hps ht) (Or.inr rfl) ?_
    · simp [hps]
    · intro hq
      exact ⟨rfl, hq.exit_curr_last hs hcurr⟩
  | cons q ps =>
    refine h.exited hprog hu hs hi hpid hj ?_ (.endedResumed hps (by simp) ht) (Or.inl rfl) ?_
    · simp [hps]
    · intro hq
      exact ⟨rfl, hq.exit_curr_next hs hcurr⟩

/-- What the history and the tick are is of no account. -/
theorem Depicts.congr (h : Depicts k a m) {n : Machine} (log : List ProcEvent) (tick : Nat)
    (hn : n = { m with procs := { m.procs with log := log }, tick := tick }) : Depicts k a n := by
  subst hn
  refine ⟨h.valid, h.queue.congr rfl rfl, h.upid, h.turn, h.threads, h.idle, ?_⟩
  exact ⟨h.records.count, h.records.dead, h.records.listed⟩

/-- A kill comes to nothing unless it is for a zombie, and then the queue stays as it is. -/
theorem Depicts.kill (h : Depicts k a m) (ht : a.turn.isProgram) {pid : Nat}
    (hok : pid ≠ 0 → (m.procs.zombie pid).pid = pid → 1 ≤ m.procs.zomCount) :
    Follows k (.kill pid) a m := by
  have hstep : m.step k (.kill pid) = some { m with procs := killProcess pid m.procs } := by
    simp only [Machine.step, h.program_code ht]
  rcases killProcess_cases pid m.procs with ⟨-, he⟩ | he | ⟨h0, hz, -⟩
  · rw [he] at hstep
    exact ⟨m, a, hstep, .killed ht, h, fun _ => storesInside_of_log rfl⟩
  · rw [he] at hstep
    refine ⟨_, a, hstep, .killed ht, h.congr (.load (.zombie pid) :: m.procs.log) m.tick rfl,
      fun _ => ⟨[.load (.zombie pid)], rfl, by simp⟩⟩
  · have hcount := hok h0 hz
    have hrec := h.records.count
    have hdrop : a.Dropped pid := by
      have := (h.records.dead pid).resolve_left (by rw [hz]; exact h0)
      rwa [hz] at this
    obtain ⟨q, es, he, hq, hes⟩ := killProcess_zombie h0 hz
      (fun i hi => h.queue.pid_ne hdrop.1 h0 i hi)
    have hlisted (z : Nat) : Function.update m.procs.zombies m.procs.zomCount pid z ≤ a.lastPid := by
      by_cases hz : z = m.procs.zomCount
      · rw [hz, Function.update_self]
        exact hdrop.2.2.1
      · rw [Function.update_of_ne hz]
        exact h.records.listed z
    rw [he] at hstep
    refine ⟨_, a, hstep, .killed ht, ?_, fun hlt => ⟨es, rfl, ?_⟩⟩
    · refine ⟨h.valid, h.queue.congr rfl rfl, h.upid, h.turn, h.threads, h.idle, ?_, ?_, hlisted⟩
      · change dec16 m.procs.zomCount + _ + _ ≤ _
        rw [dec16]
        omega
      · intro x
        obtain ⟨y, hy⟩ := hq x
        change (q x).pid = 0 ∨ a.Dropped (q x).pid
        rw [hy]
        exact h.records.dead y
    · intro x hx
      have hspare := a.spare_bounds
      rcases hes x hx with rfl | ⟨z, -, rfl⟩
      · change m.procs.zomCount < numProcs
        omega
      · exact (hlisted z).trans_lt hlt

/-- The state in which timer_callback looks at the new tick. -/
def Machine.ticked (m : Machine) : Machine := { m with tick := (m.tick+1) % 2^32 }

/-- timer_callback calls usr_schedule. -/
def Machine.Due (m : Machine) : Prop := m.ticked.tick % 160 = 0 ∧ 1 < m.procs.processCount

theorem timerCallback_quiet (h : ¬m.Due) (sp : Nat) : m.timerCallback sp = some m.ticked := by
  rw [Machine.timerCallback]
  exact if_neg h

theorem timerCallback_switch (h : m.Due) {i : Nat}
    (hs : usrSchedule (m.procs.processCount+1) m.procs = some (.switch i)) (sp : Nat) :
    m.timerCallback sp = some { m.ticked with
      procs := { m.procs with curr := .ready i }
      code := if (m.procs.ready i).pid = 1 then .shell else .program } := by
  rw [Machine.timerCallback]
  dsimp only
  refine (if_pos h).trans ?_
  rw [hs]
  rfl

/-- The process that usr_schedule has chosen runs from its slot of the queue. -/
theorem Depicts.switch (h : Depicts k a m) {t : Turn} {i sp : Nat} {code : UserCode}
    (ht : t.isForked = false) (hs : SessionStep (.timer sp) a { a with turn := t })
    (hrun : RunsAt { a with turn := t }
      { m.ticked with procs := { m.procs with curr := .ready i }, code := code }) :
    Depicts k { a with turn := t }
      { m.ticked with procs := { m.procs with curr := .ready i }, code := code } := by
  refine ⟨hs.valid h.valid, h.queue.congr rfl rfl, h.upid, hrun, h.threads, h.idle, ?_⟩
  refine h.records.step hs rfl rfl rfl le_rfl ?_
  have hspare := a.spare_bounds
  have hone : ({ a with turn := t } : Session).spare = 1 := by
    rw [Session.spare, ht]
    rfl
  rw [hone]
  dsimp only
  omega

section Due

variable (h : Depicts k a m) (hu : a.lastPid < 2^16) (hdue : m.Due)
include h

theorem Depicts.length_lt (hu : a.lastPid < 2^16) : a.programs.length + 1 < 2^16 := by
  have hz := h.records.count
  have hspare := a.spare_bounds
  omega

include hdue

theorem Depicts.due_programs : a.programs ≠ [] := by
  intro he
  have hc := h.queue.count
  have hlt := hdue.2
  rw [hc, he] at hlt
  exact absurd hlt (by simp)

include hu

theorem Depicts.preempt (ht : a.turn.isProgram) (sp : Nat) :
    SessionStep (.timer sp) a { a with turn := .shell } ∧
    ∃ n, m.step k (.timer sp) = some n ∧ Depicts k { a with turn := .shell } n ∧
      n.procs.log = m.procs.log ∧ n.tick = m.ticked.tick := by
  have hs := h.queue.usrSchedule_program (h.due_programs hdue)
    (fun p hp => (h.valid.pids p hp).1) (h.length_lt hu) (h.program_current ht).2
  have hstep : SessionStep (.timer sp) a { a with turn := .shell } := .preempted ht
  refine ⟨hstep, _, timerCallback_switch hdue hs sp, ?_, rfl, rfl⟩
  rw [if_pos h.queue.shell.1]
  exact h.switch rfl hstep ⟨rfl, rfl⟩

theorem Depicts.resume (ht : a.turn.isShell) (sp : Nat) :
    SessionStep (.timer sp) a { a with turn := .resumed } ∧
    ∃ n, m.step k (.timer sp) = some n ∧ Depicts k { a with turn := .resumed } n ∧
      n.procs.log = m.procs.log ∧ n.tick = m.ticked.tick := by
  have hne := h.due_programs hdue
  have hpos := List.length_pos_of_ne_nil hne
  have hpids (p : Nat) (hp : p ∈ a.programs) : 1 < p := (h.valid.pids p hp).1
  have hs := h.queue.usrSchedule_shell hne hpids (h.length_lt hu) (h.shell_curr ht)
  have hstep : SessionStep (.timer sp) a { a with turn := .resumed } := .resumed hne ht
  have hpid : ¬(m.procs.ready 1).pid = 1 := by
    rw [(h.queue.programs 0 hpos).1]
    exact (hpids _ (List.getElem_mem hpos)).ne'
  refine ⟨hstep, _, timerCallback_switch hdue hs sp, ?_, rfl, rfl⟩
  rw [if_neg hpid]
  exact h.switch rfl hstep ⟨rfl, rfl⟩

end Due

theorem Depicts.tick (h : Depicts k a m) (hdue : ¬m.Due) (sp : Nat) :
    m.step k (.timer sp) = some m.ticked ∧ Depicts k a m.ticked :=
  ⟨timerCallback_quiet hdue sp, h.congr m.procs.log _ rfl⟩

/-- Whose turn it can be. -/
theorem Turn.cases (t : Turn) : t.isShell ∨ t.isProgram ∨ t = .lost := by
  cases t <;> simp [Turn.isShell, Turn.isProgram]

/-- The timer goes from a program to the shell, and from the shell to the first program. -/
theorem Depicts.timer (h : Depicts k a m) (hu : a.lastPid < 2^16) (sp : Nat) :
    Follows k (.timer sp) a m := by
  by_cases hdue : m.Due
  · rcases a.turn.cases with ht | ht | ht
    · obtain ⟨hstep, n, hn, hd, hlog, -⟩ := h.resume hu hdue ht sp
      exact ⟨n, _, hn, hstep, hd, fun _ => storesInside_of_log hlog⟩
    · obtain ⟨hstep, n, hn, hd, hlog, -⟩ := h.preempt hu hdue ht sp
      exact ⟨n, _, hn, hstep, hd, fun _ => storesInside_of_log hlog⟩
    · exact absurd (h.valid.alone ht) (h.due_programs hdue)
  · obtain ⟨hn, hd⟩ := h.tick hdue sp
    exact ⟨_, a, hn, .ticked, hd, fun _ => storesInside_of_log rfl⟩

/-- Whatever the code of this turn calls, the call comes to an end and the session goes with
it. -/
theorem Depicts.follows {limit : Nat} (h : Depicts k a m) (hl : limit ≤ 2^16) (hu : a.lastPid < limit)
    {op : MachineOp} (hok : Allowed limit op m) (ho : a.turn.offers op) : Follows k op a m := by
  cases op with
  | fork =>
    have hlt : a.lastPid + 1 < limit := h.upid ▸ hok
    cases ht : a.turn with
    | shell => exact h.fork_shell ht (by omega)
    | started | resumed => exact h.fork_program (by rw [ht]; rfl) (by omega)
    | child | parent | lost => simp [ht, Turn.offers] at ho
  | waitpid =>
    cases ht : a.turn with
    | parent => exact h.waitpid ht
    | shell | child | started | resumed | lost => simp [ht, Turn.offers] at ho
  | exec =>
    cases ht : a.turn with
    | child => exact h.exec ht (by omega)
    | shell | parent | started | resumed | lost => simp [ht, Turn.offers] at ho
  | exit status sp =>
    cases ht : a.turn with
    | started => exact h.exit_started ht (by omega) hok.1 sp
    | resumed => exact h.exit_resumed ht (by omega) hok.1 sp
    | shell | child | parent | lost => simp [ht, Turn.offers] at ho
  | kill pid =>
    cases ht : a.turn with
    | started | resumed => exact h.kill (by rw [ht]; rfl) hok.2
    | shell | child | parent | lost => simp [ht, Turn.offers] at ho
  | timer sp => exact h.timer (by omega) sp

/-- What the code of this turn does not call is no step; without a process of its own the shell
comes to no call. -/
theorem Depicts.refuses {limit : Nat} (h : Depicts k a m) {op : MachineOp} (hok : Allowed limit op m)
    (ho : a.turn.offers op = false) : m.step k op = none := by
  have hrun := h.turn
  have hexit (hc : m.code ≠ .program) (status : Int) (sp : Nat) (he : op = .exit status sp) :
      False := hc (he ▸ hok).2
  cases ht : a.turn with
  | lost =>
    simp only [RunsAt, ht] at hrun
    have hzero : m.procs.current = .zero := by
      rw [Procs.current, hrun.2]
      exact h.queue.free 1 (by rw [h.valid.alone ht]; exact Nat.zero_lt_one)
    cases op with
    | fork => simp [Machine.step, hrun.1, Machine.executeCommand, hzero]
    | exit status sp => simp [Machine.step, hrun.1, Machine.shellExit, hzero]
    | waitpid | exec | kill pid => simp [Machine.step, hrun.1]
    | timer sp => simp [ht, Turn.offers] at ho
  | shell =>
    simp only [RunsAt, ht] at hrun
    cases op with
    | exit status sp => exact (hexit (by simp [hrun.1]) status sp rfl).elim
    | waitpid | exec | kill pid => simp [Machine.step, hrun.1]
    | fork | timer sp => simp [ht, Turn.offers] at ho
  | child =>
    simp only [RunsAt, ht] at hrun
    cases op with
    | fork | waitpid | exit status sp | kill pid => simp [Machine.step, hrun.1]
    | exec | timer sp => simp [ht, Turn.offers] at ho
  | parent =>
    simp only [RunsAt, ht] at hrun
    cases op with
    | fork | exec | exit status sp | kill pid => simp [Machine.step, hrun.1]
    | waitpid | timer sp => simp [ht, Turn.offers] at ho
  | started =>
    simp only [RunsAt, ht] at hrun
    cases op with
    | waitpid | exec => simp [Machine.step, hrun.1]
    | fork | exit status sp | kill pid | timer sp => simp [ht, Turn.offers] at ho
  | resumed =>
    simp only [RunsAt, ht] at hrun
    cases op with
    | waitpid | exec => simp [Machine.step, hrun.1]
    | fork | exit status sp | kill pid | timer sp => simp [ht, Turn.offers] at ho

/-- Boot leaves the threads as every later yield finds them. -/
theorem boot_threads (k : KernelThreads) (sp : Nat) :
    ∃ t u, createAll [(k.idle, k.idlePage), (k.initEntry, k.initPage)] noThreads = some t ∧
      yield sp t = some (.dispatches k.initPage, u) ∧ Handed k.idlePage k.initPage u ∧
      (u.pcb k.idlePage).rip = k.idle ∧ (u.pcb k.initPage).rip = k.initEntry := by
  obtain ⟨s, hs, hc⟩ := createPcb_first (s := noThreads) k.idle k.idlePage rfl rfl
  obtain ⟨t, ht, hd⟩ := hc.create k.initEntry k.initPage le_rfl (by norm_num) k.apart
  obtain ⟨u, hu, hh, -⟩ := hd.yield le_rfl k.apart sp
  refine ⟨t, u, ?_, hu, hh, ?_, ?_⟩
  · simp [createAll, hs, ht]
  · rw [yield_rip hu, createPcb_rip ht, if_neg k.apart.symm, createPcb_rip hs, if_pos rfl]
  · rw [yield_rip hu, createPcb_rip ht, if_pos rfl]

theorem bootProcs_ready (i : Nat) :
    bootProcs.ready i = if i = 0 then ⟨1, 0, .ready, 0, 0⟩ else .zero := by
  simp [bootProcs, initUsrPcb, addToReadyListUser, Procs.alloc, Procs.note, Procs.init, inc16,
    Function.update_apply]

/-- The shell is alone and about to read its first line. -/
theorem machine_boots (k : KernelThreads) (sp tick : Nat) :
    ∃ m, Machine.boot k sp tick = some m ∧ Depicts k .boot m ∧ m.procs = bootProcs := by
  obtain ⟨t, u, ht, hu, hh, hidle, hinit⟩ := boot_threads k sp
  refine ⟨⟨bootProcs, u, tick, .shell⟩, ?_,
    ⟨session_boot_valid, ?_, rfl, ⟨rfl, rfl⟩, hh, hidle, ?_⟩, rfl⟩
  · simp [Machine.boot, ht, hu, hinit, bootProcs]
  · refine ⟨rfl, ?_, by simp [Session.boot], ?_⟩
    · simp [bootProcs_ready]
    · intro i hi
      have hne : i ≠ 0 := Nat.ne_of_gt hi
      rw [bootProcs_ready, if_neg hne]
  · exact ⟨le_rfl, fun _ => Or.inl rfl, fun _ => Nat.zero_le _⟩

end Step

section Refinement

variable {k : KernelThreads} {limit : Nat}

/-- The step lemma of the refinement. -/
theorem Depicts.step {a : Session} {m n : Machine} (h : Depicts k a m) (hl : limit ≤ 2^16)
    (hu : a.lastPid < limit) {op : MachineOp} (hn : MachineStep k limit op m n) :
    ∃ b, SessionStep op a b ∧ Depicts k b n ∧ b.lastPid < limit ∧
      (a.lastPid < numProcs → StoresInside m.procs n.procs) := by
  obtain ⟨hok, hstep⟩ := hn
  cases ho : a.turn.offers op with
  | false =>
    rw [h.refuses hok ho] at hstep
    cases hstep
  | true =>
    obtain ⟨n', b, hn', hb, hd, hin⟩ := h.follows hl hu hok ho
    rw [hstep] at hn'
    cases hn'
    refine ⟨b, hb, hd, ?_, hin⟩
    cases hb with
    | dropped _ | forked _ | forkedInside _ =>
      have hlt : a.lastPid + 1 < limit := h.upid ▸ hok
      exact hlt
    | _ => exact hu

theorem Depicts.isSome_step {a : Session} {m : Machine} (h : Depicts k a m) (hl : limit ≤ 2^16)
    (hu : a.lastPid < limit) {op : MachineOp} (hok : Allowed limit op m) :
    (m.step k op).isSome ↔ a.turn.offers op := by
  cases ho : a.turn.offers op with
  | false => simp [h.refuses hok ho]
  | true =>
    obtain ⟨n, b, hn, -⟩ := h.follows hl hu hok ho
    simp [hn]

/-- A state reached from boot is a state of the session that the same calls lead to. -/
theorem depicts_of_run (hl : limit ≤ 2^16) (h1 : 1 < limit) {sp tick : Nat} {ops : List MachineOp}
    {m n : Machine} (hboot : Machine.boot k sp tick = some m)
    (hrun : Run (MachineStep k limit) m ops n) :
    ∃ a, Run SessionStep .boot ops a ∧ Depicts k a n ∧ a.lastPid < limit ∧
      (limit ≤ numProcs → StoredInside n.procs) := by
  obtain ⟨m', hm', hd, hprocs⟩ := machine_boots k sp tick
  obtain rfl : m' = m := Option.some.inj (hm'.symm.trans hboot)
  refine hrun.simulates (fun a n => Depicts k a n ∧ a.lastPid < limit ∧
    (limit ≤ numProcs → StoredInside n.procs)) SessionStep ?_ ⟨hd, h1, ?_⟩
  · intro op a s t ⟨hs, hu, hin⟩ hstep
    obtain ⟨b, hb, ht, hlt, hst⟩ := hs.step hl hu hstep
    exact ⟨b, hb, ht, hlt, fun hle => (hin hle).trans (hst (hu.trans_le hle))⟩
  · intro _
    rw [hprocs]
    exact bootProcs_storedInside

/-- Every interleaving of commands, system calls of the programs and timer interrupts is a run of
the session, and leaves the arrays alone outside their NUM_PROCS entries, as long as no pid reaches
NUM_PROCS. In each state exactly the calls of the code that runs can be made, and each of them
ends. -/
theorem machine_refines_session (k : KernelThreads) (sp tick : Nat) (ops : List MachineOp)
    (m n : Machine) (hboot : Machine.boot k sp tick = some m)
    (hrun : Run (MachineStep k numProcs) m ops n) :
    ∃ a, Run SessionStep .boot ops a ∧ Depicts k a n ∧ StoredInside n.procs ∧
      ∀ op, Allowed numProcs op n → ((n.step k op).isSome ↔ a.turn.offers op) := by
  have hl : numProcs ≤ 2^16 := by decide
  obtain ⟨a, ha, hd, hu, hin⟩ := depicts_of_run hl (by decide) hboot hrun
  exact ⟨a, ha, hd, hin le_rfl, fun op hok => hd.isSome_step hl hu hok⟩

end Refinement

theorem pages_apart : 0x2000 ≠ 0x1000 := by decide

/-- The two threads of boot with addresses of their own. -/
def bootThreads : KernelThreads := ⟨0x200000, 0x200100, 0x1000, 0x2000, pages_apart⟩

/-- The shell has started a first program at tick 1. -/
theorem first_program_started :
    ∃ b m, Machine.boot bootThreads 0 1 = some b ∧
      Run (MachineStep bootThreads numProcs) b [.fork, .exec] m ∧
      Depicts bootThreads ⟨[2], 2, .started⟩ m ∧ m.tick = 1 := by
  obtain ⟨m, hrun, htick⟩ : ∃ m, Run (MachineStep bootThreads numProcs)
      ((Machine.boot bootThreads 0 1).get rfl) [.fork, .exec] m ∧ m.tick = 1 :=
    ⟨_, .cons ⟨(by decide : 1+1 < 64), rfl⟩ (.cons ⟨trivial, rfl⟩ (.nil _)), rfl⟩
  refine ⟨_, m, rfl, hrun, ?_, htick⟩
  obtain ⟨a, ha, hd, -, -⟩ := depicts_of_run (by decide) (by decide) rfl hrun
  obtain - | ⟨hfork, hrest⟩ := ha
  obtain - | ⟨hexec, hnil⟩ := hrest
  cases hnil
  cases hexec with
  | started ht =>
    cases hfork with
    | dropped _ => cases ht
    | forked _ => exact hd
    | forkedInside h => cases h

theorem machine_refines_first :
    ∃ b m a, Machine.boot bootThreads 0 1 = some b ∧
      Run (MachineStep bootThreads numProcs) b [.fork, .exec] m ∧
      Run SessionStep .boot [.fork, .exec] a ∧ Depicts bootThreads a m ∧ StoredInside m.procs ∧
      ∀ op, Allowed numProcs op m → ((m.step bootThreads op).isSome ↔ a.turn.offers op) := by
  obtain ⟨b, m, hb, hm, -, -⟩ := first_program_started
  obtain ⟨a, ha⟩ := machine_refines_session bootThreads 0 1 [.fork, .exec] b m hb hm
  exact ⟨b, m, a, hb, hm, ha⟩

end SBUnix
