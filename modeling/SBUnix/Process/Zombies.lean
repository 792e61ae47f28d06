import SBUnix.Process.Exit

namespace SBUnix

/-- dp: the structures it prints a line for, in order. -/
def dp (s : Procs) : List Task :=
  (List.range s.processCount).map s.ready ++
    (List.range s.zomCount).map fun i => s.zombie (s.zombies i)

/-- The pids of `ready_queue[0 .. process_count-1]`. -/
def window (s : Procs) : List Nat := (List.range s.processCount).map fun i => (s.ready i).pid

section Records

variable (status : Int) (s : Procs)

/-- An exit with a status other than 1 leaves the record that recordZombie made. -/
theorem exitProcess_records (hs : status ≠ 1) :
    (exitProcess status s).zomCount = zombieIndex status s ∧
    (exitProcess status s).zombies =
      Function.update s.zombies (zombieIndex status s) s.current.pid := by
  obtain ⟨c, n, he, -⟩ := exitProcess_resume s hs
  rw [he, unqueue_eq]
  exact ⟨recordZombie_zomCount status s, recordZombie_zombies status s⟩

end Records

/-- A run of exits with statuses other than 1, and the pids of the processes that exited. Any
process may be the current one at the next exit. -/
inductive ExitRun (s : Procs) : List Nat → Procs → Prop
  | start : ExitRun s [] s
  | exit {ps : List Nat} {t : Procs} (c : TaskPtr) (status : Int) : ExitRun s ps t →
      (t.get c).pid ≠ 0 → status ≠ 1 →
      ExitRun s (ps ++ [(t.get c).pid]) (exitProcess status { t with curr := c })

/-- Before the first exit: nothing recorded, and no zombie in the slot an unset record names. -/
structure NoZombies (s : Procs) : Prop where
  count : s.zomCount = 0
  unset : s.zombies 0 = 0
  empty : (s.zombie 0).pid = 0

/-- What the records can have come to after the exits of `ps`. -/
structure Behind (ps : List Nat) (t : Procs) : Prop where
  nonzero : ∀ p ∈ ps, p ≠ 0
  count : t.zomCount ≤ ps.length
  /-- Only exits with status 0 move the count, and those leave the first record unset. -/
  unset : t.zomCount = ps.length → t.zombies 0 = 0
  empty : (t.zombie 0).pid = 0

theorem Behind.exit {ps : List Nat} {t : Procs} (h : Behind ps t) (status : Int)
    (hp : t.current.pid ≠ 0) (hs : status ≠ 1) :
    Behind (ps ++ [t.current.pid]) (exitProcess status t) := by
  obtain ⟨hcount, hzombies⟩ := exitProcess_records status t hs
  have hc := h.count
  have hlen : (ps ++ [t.current.pid]).length = ps.length + 1 := by simp
  constructor
  case nonzero =>
    intro p hm
    rcases List.mem_append.mp hm with hm | hm
    · exact h.nonzero p hm
    · rw [List.mem_singleton.mp hm]
      exact hp
  case count =>
    rw [hcount, hlen, zombieIndex, inc16]
    split_ifs
    · omega
    · exact (Nat.mod_le _ _).trans (by omega)
  case unset =>
    rw [hcount, hzombies, hlen, zombieIndex, inc16]
    intro he
    split_ifs at he ⊢ with h0
    · omega
    · have hle := Nat.mod_le (t.zomCount+1) (2^16)
      rw [Function.update_of_ne (by omega)]
      exact h.unset (by omega)
  case empty =>
    rw [(exitProcess_leave t hs).2.1, recordZombie_zombie_pid, if_neg (Ne.symm hp)]
    exact h.empty

theorem ExitRun.behind {s t : Procs} {ps : List Nat} (h0 : NoZombies s) (h : ExitRun s ps t) :
    Behind ps t := by
  induction h with
  | start => exact ⟨by simp, h0.count.le, fun _ => h0.unset, h0.empty⟩
  | @exit ps t c status _ hp hs ih =>
    have hc : Behind ps { t with curr := c } := ⟨ih.nonzero, ih.count, ih.unset, ih.empty⟩
    have hcur : ({ t with curr := c } : Procs).current.pid = (t.get c).pid := by
      cases c <;> rfl
    rw [← hcur] at hp ⊢
    exact hc.exit status hp hs

/-- dp starts at the record that no exit with status 0 fills and ends before the newest one, so
its listing is right only until the first exit. -/
theorem dp_lists_iff (s t : Procs) (ps : List Nat) (h0 : NoZombies s) (h : ExitRun s ps t) :
    ((dp t).map Task.pid).Perm (window t ++ ps) ↔ ps = [] := by
  have hb := h.behind h0
  have hsplit : (dp t).map Task.pid =
      window t ++ (List.range t.zomCount).map fun i => (t.zombie (t.zombies i)).pid := by
    simp [dp, window, Function.comp_def]
  rw [hsplit, List.perm_append_left_iff]
  constructor
  · intro hperm
    have hlen : t.zomCount = ps.length := by simpa using hperm.length_eq
    by_contra hne
    have hpos : 0 < t.zomCount := hlen ▸ List.length_pos_of_ne_nil hne
    -- the first line is about the unset record
    have hmem : (t.zombie (t.zombies 0)).pid ∈ ps :=
      hperm.subset (List.mem_map.mpr ⟨0, List.mem_range.mpr hpos, rfl⟩)
    rw [hb.unset hlen, hb.empty] at hmem
    exact hb.nonzero 0 hmem rfl
  · rintro rfl
    have hz : t.zomCount = 0 := Nat.le_zero.mp hb.count
    rw [hz]
    exact List.Perm.refl _

theorem dp_lists_shell :
    ((dp (shellAndChild (.ready 1))).map Task.pid).Perm
      (window (shellAndChild (.ready 1)) ++ []) :=
  (dp_lists_iff (shellAndChild (.ready 1)) (shellAndChild (.ready 1)) [] ⟨rfl, rfl, rfl⟩
    ExitRun.start).mpr rfl

/-- The child exits with status 0: dp prints the shell and an empty slot, not the child. -/
theorem dp_misses_child :
    let t := exitProcess 0 { shellAndChild (.ready 1) with curr := .ready 1 }
    ExitRun (shellAndChild (.ready 1)) [2] t ∧ (dp t).map Task.pid = [1, 0] :=
  ⟨ExitRun.exit (.ready 1) 0 ExitRun.start (by decide) (by decide), by decide⟩

end SBUnix
