import Mathlib.Tactic

namespace SBUnix

def numProcs : Nat := 64

/-- `proc_state_t`; a zeroed task_struct is in the first. -/
inductive ProcState where
  | wait | sleeping | ready | running | dead | zombie
  deriving DecidableEq, Repr

/-- What the process operations read and write of a task_struct. -/
structure Task where
  pid : Nat
  ppid : Nat
  state : ProcState
  waitPid : Nat
  exitStatus : Int
  deriving DecidableEq, Repr

def Task.zero : Task := ⟨0, 0, .wait, 0, 0⟩

/-- Where a `struct task_struct *` points: into one of the two queues, or at a structure of
its own that kmalloc gave out. -/
inductive TaskPtr where
  | ready (i : Nat)
  | zombie (i : Nat)
  | heap (k : Nat)
  deriving DecidableEq, Repr

/-- An entry of one of the three arrays of NUM_PROCS entries. -/
inductive Slot where
  | ready (i : Nat)
  | zombie (i : Nat)
  | zombies (i : Nat)
  deriving DecidableEq, Repr

def Slot.index : Slot → Nat
  | .ready i | .zombie i | .zombies i => i

/-- An indexed access to one of the arrays, the pid of a new process, or the end of one.
History only: no modelled function reads it. -/
inductive ProcEvent where
  | load (a : Slot)
  | store (a : Slot)
  | created (pid : Nat)
  | exited (pid : Nat)
  deriving DecidableEq, Repr

/-- The globals of process.c. The queues are functions of any index; `log` has the indices
that were used. -/
structure Procs where
  ready : Nat → Task
  zombie : Nat → Task
  heap : Nat → Task
  heapNext : Nat
  zombies : Nat → Nat
  curr : TaskPtr
  globalChild : Option Nat
  processCount : Nat
  zomCount : Nat
  upid : Nat
  log : List ProcEvent

/-- After init_queues: everything zero. -/
def Procs.init : Procs where
  ready _ := .zero
  zombie _ := .zero
  heap _ := .zero
  heapNext := 0
  zombies _ := 0
  curr := .heap 0
  globalChild := none
  processCount := 0
  zomCount := 0
  upid := 0
  log := []

def Procs.get (s : Procs) : TaskPtr → Task
  | .ready i => s.ready i
  | .zombie i => s.zombie i
  | .heap k => s.heap k

def Procs.set (s : Procs) (p : TaskPtr) (t : Task) : Procs :=
  match p with
  | .ready i => { s with ready := Function.update s.ready i t }
  | .zombie i => { s with zombie := Function.update s.zombie i t }
  | .heap k => { s with heap := Function.update s.heap k t }

/-- `*curr_upcb` -/
def Procs.current (s : Procs) : Task := s.get s.curr

def Procs.note (s : Procs) (es : List ProcEvent) : Procs := { s with log := es ++ s.log }

/-- `uint16_t` arithmetic. -/
def inc16 (n : Nat) : Nat := (n+1) % 2^16
def dec16 (n : Nat) : Nat := (n + (2^16-1)) % 2^16

/-- The index `process_count - 1` is an int: a count of 0 gives -1, as an address 2^64-1. -/
def addToReadyListUser (p : Nat) (s : Procs) : Procs :=
  let i := (s.processCount + (2^64-1)) % 2^64
  let t := { s with ready := Function.update s.ready i (s.heap p) }.note [.store (.ready i)]
  if s.processCount = 1 then { t with curr := .ready i } else t

/-- A zeroed task_struct from kmalloc, filled in. -/
def Procs.alloc (s : Procs) (t : Task) : Procs :=
  { s with heap := Function.update s.heap s.heapNext t, heapNext := s.heapNext+1 }

/-- init_usr_pcb as far as the process table goes. -/
def initUsrPcb (s : Procs) : Procs :=
  let upid := if s.upid = 0 then 1 else s.upid
  let k := s.heapNext
  let s := ({ s with upid := upid }.alloc ⟨upid, upid-1, .ready, 0, 0⟩).note [.created upid]
  let s := { s with processCount := inc16 s.processCount }
  if upid = 1 then addToReadyListUser k s else s

/-- fork_process: the child is left in `global_child`, outside the queue. -/
def forkProcess (s : Procs) : Procs :=
  let pid := inc16 s.upid
  let t := ({ s with upid := pid }.alloc ⟨pid, s.current.pid, .ready, 0, 0⟩).note [.created pid]
  { t with globalChild := some s.heapNext }

/-- exec puts `global_child` into the queue and runs it; `none` is the NULL dereference when
nothing has been forked. -/
def exec (s : Procs) : Option Procs :=
  s.globalChild.map fun k =>
    let s := { s with processCount := inc16 s.processCount }
    { addToReadyListUser k s with curr := .heap k }

/-- `while (i <= process_count)`: the first slot from 1 on with this pid, or the one after
the last slot looked at. -/
def searchReady (s : Procs) (pid : Nat) : Nat :=
  ((List.range' 1 s.processCount).find? fun i => (s.ready i).pid = pid).getD (s.processCount+1)

/-- `ready_queue[i] = ready_queue[i+1]`, `n` times from `i` upwards. -/
def closeGap : Nat → Nat → (Nat → Task) → Nat → Task
  | 0, _, q => q
  | n+1, i, q => closeGap n (i+1) (Function.update q i (q (i+1)))

/-- `while (z <= zom_count)` of exit_process with status 1. -/
def reapZombies : Nat → Nat → Procs → Procs
  | 0, _, s => s
  | n+1, z, s =>
    if z ≤ s.zomCount then
      let k := s.zombies z
      let s := s.note [.load (.zombies z), .load (.zombie k)]
      if (s.zombie k).pid = s.current.pid then
        reapZombies n (z+2)
          ({ s with zombie := Function.update s.zombie k (s.zombie (k+1)) }.note
            [.load (.zombie (k+1)), .store (.zombie k)])
      else reapZombies n (z+1) s
    else s

/-- The start of exit_process: the process becomes a zombie and is copied over its slot of
the zombie queue, status and all; its pid goes into `zombies`. -/
def recordZombie (status : Int) (s : Procs) : Procs :=
  let s := s.set s.curr { s.current with state := .zombie }
  let pid := s.current.pid
  let s := { s with
    zombie := Function.update s.zombie pid { s.zombie pid with exitStatus := status } }
  let s := { s with zombie := Function.update s.zombie pid s.current }
  let z := if status ≠ 0 then s.zomCount else inc16 s.zomCount
  { s with zomCount := z, zombies := Function.update s.zombies z pid }.note
    [.exited pid, .store (.zombie pid), .store (.zombies z)]

/-- Search for the current process from slot 1 on, and close the gap it leaves. -/
def unqueue (s : Procs) : Procs :=
  let i := searchReady s s.current.pid
  let s := s.note ((List.range' 1 (min i s.processCount)).map (.load <| .ready ·))
  if i < s.processCount then
    { s with ready := closeGap (s.processCount - i) i s.ready }.note
      ((List.range' i (s.processCount - i)).flatMap fun x =>
        [.load (.ready (x+1)), .store (.ready x)])
  else s

/-- `while (j < process_count)`: run the parent next if it is in the window. -/
def resumeParent (s : Procs) : Procs :=
  match (List.range s.processCount).find? fun j => (s.ready j).pid = s.current.ppid with
  | some j => { s with curr := .ready j }.note ((List.range (j+1)).map (.load <| .ready ·))
  | none => s.note ((List.range s.processCount).map (.load <| .ready ·))

def exitProcess (status : Int) (s : Procs) : Procs :=
  let s := unqueue (recordZombie status s)
  if status = 1 then
    let s := reapZombies (s.zomCount+1) 0 s
    { s with zomCount := dec16 s.zomCount }
  else resumeParent { s with processCount := dec16 s.processCount }

/-- kill_process. Its loop counts an int up to `pid`, so it ends at `i == pid`; past 2^31-1 the
counter overflows, which C leaves undefined, and the model counts on. -/
def killProcess (pid : Nat) (s : Procs) : Procs :=
  if pid = 0 then s
  else
    let t := s.note [.load (.zombie pid)]
    if (t.zombie pid).pid = pid then
      { exitProcess 1 { t with curr := .zombie pid } with curr := s.curr }
    else t

/-- What a call of syswaitpid comes to: a value, or the yield that gives up the processor. -/
inductive WaitResult where
  | returns (status : Int)
  | yields
  deriving DecidableEq, Repr

/-- syswaitpid with a negative pid: the first child in the queue, from slot 1 on. -/
def waitAny (s : Procs) : WaitResult × Procs :=
  match (List.range' 1 s.processCount).find? fun i => (s.ready i).ppid = s.current.pid with
  | none => (.returns 0, s)
  | some i =>
    let child := (s.ready i).pid
    let s := s.set s.curr { s.current with waitPid := child }
    if (s.ready i).state = .zombie then (.returns (s.zombie child).exitStatus, s)
    else (.yields, s.set s.curr { s.current with state := .wait })

/-- syswaitpid with the pid of a process. -/
def waitFor (pid : Nat) (s : Procs) : WaitResult × Procs :=
  match (List.range' 1 s.processCount).find? fun i => (s.ready i).pid = pid with
  | none => (.returns 0, s.set s.curr { s.current with waitPid := 0, state := .ready })
  | some i =>
    let s := s.set s.curr { s.current with state := .wait, waitPid := pid }
    if (s.ready i).state = .zombie then
      (.returns (s.zombie pid).exitStatus,
        s.set s.curr { s.current with waitPid := 0, state := .ready })
    else (.yields, s)

def syswaitpid (pid : Int) (s : Procs) : WaitResult × Procs :=
  if pid < 0 then waitAny s else waitFor pid.toNat s

end SBUnix
