import SBUnix.Switch.Yield
import SBUnix.Process.Runs
import SBUnix.Process.Schedule

namespace SBUnix

/-- What the processor executes in user mode: the shell up to a fork, the shell where fork has
returned 0 or a pid, or a program that exec has loaded. -/
inductive UserCode where
  | shell
  | child
  | parent (pid : Nat)
  | program
  deriving DecidableEq, Repr

structure Machine where
  procs : Procs
  threads : Threads
  tick : Nat
  code : UserCode

/-- A system call of the code that runs, or the timer interrupt; `sp` is the depth of the kernel
stack where the call leads to a yield. -/
inductive MachineOp where
  | fork
  | waitpid
  | exec
  | exit (status : Int) (sp : Nat)
  | kill (pid : Nat)
  | timer (sp : Nat)
  deriving DecidableEq, Repr

/-- The two kernel threads of boot: their functions and the pages of their PCBs. -/
structure KernelThreads where
  idle : Nat
  initEntry : Nat
  idlePage : Nat
  initPage : Nat
  apart : initPage ≠ idlePage

/-- The fork system call: the tick alone decides whether the caller gets 0 or the pid. -/
def forkCall (tick : Nat) (s : Procs) : Nat × Procs :=
  let t := forkProcess s
  (if tick % 120 ≠ 0 then 0 else t.upid, t)

namespace Machine

variable (m : Machine)

/-- The idle loop. A dispatch of the thread of init_entry would go on in the kernel and is not
followed. -/
def idle (sp : Nat) : Option Machine := do
  let (y, t) ← yield sp m.threads
  match y with
  | .restartsShell => some { m with threads := t, code := .shell }
  | _ => none

/-- The end of exit_process: load_krsp takes the kernel stack of `processes`, and the word popped
from its top is the function of that thread. -/
def loadKrsp (k : KernelThreads) (sp : Nat) : Option Machine := do
  let p ← m.threads.processes
  if (m.threads.pcb p).rip = k.idle then m.idle sp else none

/-- A program ends. With status 1 exit_process returns, and the program goes on. -/
def programExit (k : KernelThreads) (status : Int) (sp : Nat) : Option Machine :=
  let m := { m with procs := exitProcess status m.procs }
  if status = 1 then some m else m.loadKrsp k sp

/-- The shell from its start to the fork of a command. Its first call is a malloc, which goes
through `curr_upcb->heap_vma`: NULL in a zeroed task_struct, and with nothing mapped there the read
in kernel mode faults again and again. -/
def executeCommand : Option Machine :=
  if m.procs.current = .zero then none
  else
    let (pid, t) := forkCall m.tick m.procs
    some { m with procs := t, code := if pid ≠ 0 then .parent pid else .child }

/-- The shell waits whatever the line says, since its background flag is the terminator of the
line. The yield of syswaitpid is an `int $0x81` without a gate. -/
def waitpid (pid : Nat) : Option Machine :=
  match syswaitpid pid m.procs with
  | (.returns _, t) => some { m with procs := t, code := .shell }
  | (.yields, _) => none

/-- The line is `exit`. -/
def shellExit (k : KernelThreads) (status : Int) (sp : Nat) : Option Machine :=
  if m.procs.current = .zero ∨ status ≠ -1 then none
  else { m with procs := exitProcess status m.procs }.loadKrsp k sp

/-- timer_callback after boot. A process is started anew from its entry; the one with pid 1 is
the shell. The two loops of usr_schedule get one round more than there are processes. -/
def timerCallback (sp : Nat) : Option Machine :=
  let m := { m with tick := (m.tick+1) % 2^32 }
  if m.tick % 160 = 0 ∧ 1 < m.procs.processCount then
    match usrSchedule (m.procs.processCount+1) m.procs with
    | some (.switch i) => some { m with
        procs := { m.procs with curr := .ready i }
        code := if (m.procs.ready i).pid = 1 then .shell else .program }
    | some .idle => m.idle sp
    | none => none
  else some m

/-- One step of the machine, `none` if the code that runs does not make this call. The programs
other than the shell fork at most (bin/test), with no exec behind it. Memory does not run out. -/
def step (k : KernelThreads) : MachineOp → Option Machine
  | .fork =>
    match m.code with
    | .shell => m.executeCommand
    | .program => some { m with procs := (forkCall m.tick m.procs).2 }
    | _ => none
  | .waitpid =>
    match m.code with
    | .parent pid => m.waitpid pid
    | _ => none
  | .exec =>
    match m.code with
    | .child => (SBUnix.exec m.procs).map fun t => { m with procs := t, code := .program }
    | _ => none
  | .exit status sp =>
    match m.code with
    | .program => m.programExit k status sp
    | .shell => m.shellExit k status sp
    | _ => none
  | .kill pid =>
    match m.code with
    | .program => some { m with procs := killProcess pid m.procs }
    | _ => none
  | .timer sp => m.timerCallback sp

/-- From create_pcb on: idle yields to init_entry, which makes the shell the first process. -/
def boot (k : KernelThreads) (sp tick : Nat) : Option Machine := do
  let t ← createAll [(k.idle, k.idlePage), (k.initEntry, k.initPage)] noThreads
  let (y, t) ← yield sp t
  match y with
  | .dispatches q =>
    if (t.pcb q).rip = k.initEntry then
      some { procs := initUsrPcb .init, threads := t, tick := tick, code := .shell }
    else none
  | _ => none

end Machine

/-- The steps considered: fewer than `limit` pids are given out, no program calls exit with status
1, the user does not type `exit`, and kill is not called for a zombie
while zom_count is 0, which would wrap. -/
def Allowed (limit : Nat) : MachineOp → Machine → Prop
  | .fork, m => m.procs.upid + 1 < limit
  | .exit status _, m => status ≠ 1 ∧ m.code = .program
  | .kill pid, m => pid < numProcs ∧ (pid ≠ 0 → (m.procs.zombie pid).pid = pid → 1 ≤ m.procs.zomCount)
  | _, _ => True

def MachineStep (k : KernelThreads) (limit : Nat) (op : MachineOp) (m n : Machine) : Prop :=
  Allowed limit op m ∧ m.step k op = some n

end SBUnix
