import SBUnix.Process.ForkEffect
import SBUnix.Process.Table

namespace SBUnix

open CString Word

/-- What exec reads and sets of a task_struct, but for what `Task` has of it. `pname` goes on
into the kstack behind its sixteen bytes, since a long path does. -/
structure TaskBody where
  pname : Bytes
  stack : Nat
  image : TaskImage

/-- The process table and what its entries point at. -/
structure ExecState where
  procs : Procs
  load : Loader
  body : TaskPtr → TaskBody

/-- How a system call ends: back in the caller, or in user mode at an entry point. -/
inductive ExecEnd where
  | returns (val : Nat)
  | enters (entry stack : Nat)
  deriving DecidableEq, Repr

/-- memset and kstrncpy on pname. -/
def setPname (pathname pname : Bytes) : Option Bytes :=
  (kstrlen pname).bind fun len =>
    let pname := List.replicate len 0 ++ pname.drop len
    (kstrlen pathname).bind fun n =>
      (kstrncpy n pathname).bind fun w =>
        if w.length ≤ pname.length then some (w ++ pname.drop w.length) else none

/-- `tmp_arg`. An argument is a pointer and the string there when exec is called. -/
def saveArg : Option (List (Nat × Bytes)) → Option Bytes
  | some ((_, arg)::_) => kstrcpy (List.replicate 24 0) arg
  | some [] | none => some (List.replicate 24 0)

/-- `kstrcpy(argv[0], tmp_arg)`; with argv[0] NULL the array it copies was never set. -/
def restoreArg (tmpArg : Bytes) : Option (List (Nat × Bytes)) → Kernel → Option Kernel
  | some ((p, _)::_), k => userStores (text tmpArg ++ [0]) p k
  | some [], _ => none
  | none, k => some k

/-- The words below the stack: argc, argv[0] and the first word of envp. -/
def writeArgs (stack : Nat) (argv : Option (List (Nat × Bytes))) (envp : Option Nat)
    (k : Kernel) : Option Kernel :=
  let index := match argv with
    | some (_::_) => 1
    | _ => 0
  (userStores (wordBytes index) (sub64 stack 0x8) k).bind fun k =>
    let i := 10
    (match argv with
      | some args =>
        (userStores (wordBytes (args.head?.elim 0 Prod.fst)) (sub64 stack (0x8*i)) k).map
          fun k => (k, i+1)
      | none => some (k, i)).bind fun r =>
        match envp with
        | some e => userStores (wordBytes e) (sub64 stack (0x8*r.2)) r.1
        | none => some r.1

/-- exec as a whole, with `n` rounds for the search in file_exists. It acts on global_child and
goes to user mode whatever load_segment has found. -/
def ExecState.exec (start : Nat) (img : Bytes) (n : Nat) (file : Bytes)
    (argv : Option (List (Nat × Bytes))) (envp : Option Nat) (s : ExecState) :
    Option (ExecEnd × ExecState) :=
  (kstrcpy (List.replicate 32 0) file).bind fun pathname =>
    (saveArg argv).bind fun tmpArg =>
      s.procs.globalChild.bind fun c =>
        let pcb := s.body (.heap c)
        (loadSegment start img n pcb.image pathname s.load).bind fun r =>
          (setPname pathname pcb.pname).bind fun pname =>
            (SBUnix.exec s.procs).bind fun procs =>
              let pcb := { pcb with pname := pname, image := r.1 }
              -- the queue gets a copy of the structure
              let body := Function.update (Function.update s.body (.heap c) pcb)
                (.ready ((procs.processCount + (2^64-1)) % 2^64)) pcb
              (restoreArg tmpArg argv r.2.kern).bind fun kern =>
                (writeArgs pcb.stack argv envp kern).map fun kern =>
                  (.enters pcb.image.entry pcb.stack, ⟨procs, { r.2 with kern := kern }, body⟩)

/-- ready_queue, process_count, curr_upcb, and name, entry and areas of every task_struct. -/
structure SameTable (s t : ExecState) : Prop where
  ready : t.procs.ready = s.procs.ready
  processCount : t.procs.processCount = s.procs.processCount
  curr : t.procs.curr = s.procs.curr
  pname : ∀ p, (t.body p).pname = (s.body p).pname
  entry : ∀ p, (t.body p).image.entry = (s.body p).image.entry
  mm : ∀ p, (t.body p).image.mm = (s.body p).image.mm
  areas : t.load.mm = s.load.mm ∧ t.load.vma = s.load.vma

/-- exec comes back with something other than the 0 of success, and nothing has happened. -/
def FailsCleanly (a : Archive) (file : Bytes) (argv : Option (List (Nat × Bytes)))
    (envp : Option Nat) (s : ExecState) : Prop :=
  ∃ n v t, s.exec a.start a.bytes n file argv envp = some (.returns v, t) ∧ v ≠ 0 ∧ SameTable s t

section Exec

variable {start n : Nat} {img file : Bytes} {argv : Option (List (Nat × Bytes))}
  {envp : Option Nat} {s t : ExecState} {e : ExecEnd}

theorem inc16_ne (n : Nat) : inc16 n ≠ n := by
  unfold inc16
  omega

theorem exec_processCount {p q : Procs} (h : exec p = some q) :
    q.processCount = inc16 p.processCount := by
  obtain ⟨c, -, rfl⟩ := Option.map_eq_some_iff.mp h
  unfold addToReadyListUser
  dsimp only
  split_ifs
  · rfl
  · rfl

theorem exec_returns {p : Procs} {c : Nat} (h : p.globalChild = some c) :
    ∃ q, exec p = some q ∧ q.curr = .heap c := by
  unfold exec
  rw [h, Option.map_some]
  exact ⟨_, rfl, rfl⟩

/-- Without arguments only argc is written. -/
theorem writeArgs_none (stack : Nat) (k : Kernel) :
    writeArgs stack none none k = userStores (wordBytes 0) (sub64 stack 0x8) k := by
  unfold writeArgs
  dsimp only
  exact Option.bind_fun_some _

/-- Every exec that gets to its end has counted a process and does not return. -/
theorem ExecState.exec_ends (h : s.exec start img n file argv envp = some (e, t)) :
    (∃ entry stack, e = .enters entry stack) ∧
      t.procs.processCount = inc16 s.procs.processCount := by
  obtain ⟨pathname, -, h⟩ := Option.bind_eq_some_iff.mp h
  obtain ⟨tmpArg, -, h⟩ := Option.bind_eq_some_iff.mp h
  obtain ⟨c, -, h⟩ := Option.bind_eq_some_iff.mp h
  obtain ⟨r, -, h⟩ := Option.bind_eq_some_iff.mp h
  obtain ⟨pname, -, h⟩ := Option.bind_eq_some_iff.mp h
  obtain ⟨procs, hprocs, h⟩ := Option.bind_eq_some_iff.mp h
  obtain ⟨kern, -, h⟩ := Option.bind_eq_some_iff.mp h
  obtain ⟨kern', -, h⟩ := Option.map_eq_some_iff.mp h
  obtain ⟨rfl, rfl⟩ := Prod.mk.inj h
  exact ⟨⟨_, _, rfl⟩, exec_processCount hprocs⟩

/-- A file that is not found leaves the task and its areas alone. -/
theorem loadSegment_missing (task : TaskImage) (l : Loader) (h : fileExists img file n = some 999) :
    loadSegment start img n task file l = some (task, l) := by
  rw [loadSegment, h, Option.bind_some, if_pos (Or.inr rfl)]

theorem setPname_spec {w pname : Bytes} (hw : 0 ∉ w) (hne : w ≠ []) (z : Bytes)
    (hnul : 0 ∈ pname) (hlen : w.length < pname.length) :
    ∃ r, setPname (w ++ 0::z) pname = some (w ++ 0::r) := by
  obtain ⟨len, hk⟩ : ∃ len, kstrlen pname = some len := ⟨_, kstrlen_text hnul⟩
  rw [setPname, hk, Option.bind_some]
  dsimp only
  rw [kstrlen_append_nul hw, if_neg hne, Option.bind_some, kstrncpy,
    strncpy_append_nul hw hne (Nat.le_succ _), Option.bind_some, if_pos]
  · exact ⟨_, by rw [List.append_assoc]; rfl⟩
  · simp only [List.length_append, List.length_replicate, List.length_drop, List.length_singleton]
    omega

/-- For a file that is not found the child goes to user mode as it is, at the entry point it
already had. -/
theorem ExecState.exec_missing {c : Nat} {w : Bytes} {kern : Kernel}
    (hc : s.procs.globalChild = some c) (hw : 0 ∉ w) (hne : w ≠ []) (hlen : w.length < 32)
    (z : Bytes) (hfind : fileExists img (nameArray 32 w) n = some 999)
    (hnul : 0 ∈ (s.body (.heap c)).pname) (hroom : w.length < (s.body (.heap c)).pname.length)
    (hstack : userStores (wordBytes 0) (sub64 (s.body (.heap c)).stack 0x8) s.load.kern =
      some kern) :
    ∃ t, s.exec start img n (w ++ 0::z) none none =
        some (.enters (s.body (.heap c)).image.entry (s.body (.heap c)).stack, t) ∧
      t.procs.processCount = inc16 s.procs.processCount ∧ t.procs.curr = .heap c ∧
      text (t.body (.heap c)).pname = w ∧ t.load.vma = s.load.vma := by
  obtain ⟨r, hname⟩ := setPname_spec hw hne (List.replicate (32-(w.length+1)) 0) hnul hroom
  obtain ⟨procs, hexec, hcurr⟩ := exec_returns hc
  rw [ExecState.exec, kstrcpy_zeroed hw z hlen, Option.bind_some, saveArg, Option.bind_some, hc,
    Option.bind_some]
  dsimp only
  rw [loadSegment_missing _ _ hfind, Option.bind_some, nameArray, hname, Option.bind_some, hexec,
    Option.bind_some]
  dsimp only
  rw [restoreArg, Option.bind_some, writeArgs_none, hstack, Option.map_some]
  refine ⟨_, rfl, exec_processCount hexec, hcurr, ?_, rfl⟩
  dsimp only
  rw [Function.update_of_ne (by simp), Function.update_self]
  exact text_append_nul hw r

end Exec

/-- exec never fails cleanly, whatever the path: it does not return, and wherever it gets to user
mode the process table has changed. -/
theorem exec_never_fails_cleanly (a : Archive) (file : Bytes)
    (argv : Option (List (Nat × Bytes))) (envp : Option Nat) (s : ExecState) :
    ¬ FailsCleanly a file argv envp s ∧
      ∀ n e t, s.exec a.start a.bytes n file argv envp = some (e, t) →
        (∃ entry stack, e = .enters entry stack) ∧ ¬ SameTable s t := by
  constructor
  · rintro ⟨n, v, t, h, -, -⟩
    obtain ⟨⟨entry, stack, he⟩, -⟩ := ExecState.exec_ends h
    cases he
  · intro n e t h
    obtain ⟨hend, hcount⟩ := ExecState.exec_ends h
    refine ⟨hend, fun hsame => ?_⟩
    exact inc16_ne _ (hcount.symm.trans hsame.processCount)

/-- After a fork of the first process, with a page for the child's stack. -/
def forkedState (k : Kernel) : ExecState where
  procs := forkProcess (initUsrPcb .init)
  load := bootLoader k
  body _ := ⟨List.replicate 4112 0, 0x401000, ⟨0, 0x400000, 0⟩⟩

/-- On the ramdisk of `bin/` and `bin/cat`, exec of `x` runs the child at the entry point of its
parent, as a second process with the name `x`. -/
theorem exec_missing_enters :
    firstNamed ramdisk.members [120] = none ∧
    ∃ k t, (forkedState k).procs.processCount = 1 ∧
      (forkedState k).exec ramdisk.start ramdisk.bytes 2 [120, 0] none none =
        some (.enters 0x400000 0x401000, t) ∧
      t.procs.processCount = 2 ∧ t.procs.curr = .heap 1 ∧ text (t.body (.heap 1)).pname = [120] ∧
      ¬ FailsCleanly ramdisk [120, 0] none none (forkedState k) := by
  refine ⟨by decide, ?_⟩
  obtain ⟨k, hg, -, -, -, hb, -⟩ := exists_firstPage
  have htop := hb.top
  have hlen : (wordBytes 0).length = 8 := by simp [wordBytes]
  obtain ⟨kern, hkern⟩ := hg.space.userStores_returns (by omega)
    (show 0x400ff8 + (wordBytes 0).length ≤ 2^47 by rw [hlen]; norm_num)
    (fun x hx hlt => place_page (by norm_num) (by omega) (by omega))
  have hms : ramdisk.members = [binDir, binCat] := rfl
  have hfind := fileExists_first_empty hms rfl (nul_mem_nameArray 32 [120])
  have hroom : 1 < (List.replicate 4112 (0 : UInt8)).length := by
    rw [List.length_replicate]
    norm_num
  have hstack : userStores (wordBytes 0) (sub64 ((forkedState k).body (.heap 1)).stack 0x8)
      (forkedState k).load.kern = some kern := by
    have htop : sub64 0x401000 0x8 = 0x400ff8 := by decide
    change userStores (wordBytes 0) (sub64 0x401000 0x8) k = some kern
    rw [htop]
    exact hkern
  obtain ⟨t, hrun, hcount, hcurr, hname, -⟩ := ExecState.exec_missing (s := forkedState k)
    (c := 1) (w := [120]) rfl (by decide) (by decide) (by decide) [] hfind
    (List.mem_replicate.mpr ⟨by norm_num, rfl⟩) hroom hstack
  refine ⟨k, t, rfl, hrun, hcount, hcurr, hname, ?_⟩
  rintro ⟨n, v, u, h, -, -⟩
  obtain ⟨⟨entry, stack, he⟩, -⟩ := ExecState.exec_ends h
  cases he

end SBUnix
