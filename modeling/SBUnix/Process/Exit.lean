import SBUnix.Process.Table

namespace SBUnix

theorem closeGap_apply (n i : Nat) (q : Nat → Task) (j : Nat) :
    closeGap n i q j = if i ≤ j ∧ j < i+n then q (j+1) else q j := by
  induction n generalizing i q with
  | zero =>
    rw [closeGap, if_neg (by omega)]
  | succ n ih =>
    -- the round at i is done; the others read slots above i, which it has not written
    rw [closeGap, ih]
    by_cases h : i = j
    · subst h
      rw [if_neg (by omega), if_pos (by omega), Function.update_self]
    · have hj : Function.update q i (q (i+1)) j = q j := Function.update_of_ne (Ne.symm h) _ _
      by_cases hr : i+1 ≤ j ∧ j < i+1+n
      · rw [if_pos hr, if_pos (by omega), Function.update_of_ne (by omega)]
      · rw [if_neg hr, if_neg (by omega), hj]

/-- The search ends at the first match from slot 1 on, or behind the last slot. -/
theorem searchReady_spec (s : Procs) (pid : Nat) :
    (1 ≤ searchReady s pid ∧ searchReady s pid ≤ s.processCount ∧
      (s.ready (searchReady s pid)).pid = pid ∧
      ∀ j, 1 ≤ j → j < searchReady s pid → (s.ready j).pid ≠ pid) ∨
    (searchReady s pid = s.processCount+1 ∧
      ∀ j, 1 ≤ j → j ≤ s.processCount → (s.ready j).pid ≠ pid) := by
  unfold searchReady
  cases h : (List.range' 1 s.processCount).find? fun i => (s.ready i).pid = pid with
  | none =>
    refine Or.inr ⟨rfl, ?_⟩
    intro j h1 hj
    have := List.find?_eq_none.mp h j (List.mem_range'_1.mpr ⟨h1, by omega⟩)
    simpa using this
  | some i =>
    obtain ⟨hp, hm, hb⟩ := List.find?_range'_eq_some.mp h
    obtain ⟨h1, h2⟩ := List.mem_range'_1.mp hm
    refine Or.inl ⟨h1, ?_, by simpa using hp, ?_⟩
    · change i ≤ s.processCount
      omega
    · intro j hj hlt
      simpa using hb j hj hlt

theorem searchReady_eq {s : Procs} {pid k : Nat} (hk : 1 ≤ k) (hc : k ≤ s.processCount)
    (hp : (s.ready k).pid = pid) (hf : ∀ j, 1 ≤ j → j < k → (s.ready j).pid ≠ pid) :
    searchReady s pid = k := by
  rcases searchReady_spec s pid with ⟨h1, _, h3, h4⟩ | ⟨_, h⟩
  · rcases Nat.lt_trichotomy (searchReady s pid) k with hlt | heq | hgt
    · exact absurd h3 (hf _ h1 hlt)
    · exact heq
    · exact absurd hp (h4 k hk hgt)
  · exact absurd hp (h k hk hc)

section Record

variable (status : Int) (s : Procs)

/-- Where the exiting process is recorded in `zombies`. -/
def zombieIndex (status : Int) (s : Procs) : Nat :=
  if status ≠ 0 then s.zomCount else inc16 s.zomCount

theorem recordZombie_current_pid : (recordZombie status s).current.pid = s.current.pid := by
  obtain ⟨c, hc⟩ : ∃ c, s.curr = c := ⟨_, rfl⟩
  cases c with
  | ready i => simp [recordZombie, Procs.current, Procs.get, Procs.set, Procs.note, hc]
  | heap k => simp [recordZombie, Procs.current, Procs.get, Procs.set, Procs.note, hc]
  | zombie i =>
    simp only [recordZombie, Procs.current, Procs.get, Procs.set, Procs.note, hc,
      Function.update_self]
    by_cases h : i = (s.zombie i).pid
    · rw [← h, Function.update_self, Function.update_self, Function.update_self]
    · rw [Function.update_of_ne h, Function.update_of_ne h, Function.update_self]

theorem recordZombie_ready (j : Nat) (h : s.curr ≠ .ready j) :
    (recordZombie status s).ready j = s.ready j := by
  obtain ⟨c, hc⟩ : ∃ c, s.curr = c := ⟨_, rfl⟩
  cases c with
  | ready i =>
    have hj : j ≠ i := fun e => h (e ▸ hc)
    simp [recordZombie, Procs.set, Procs.note, hc, hj]
  | zombie i => simp [recordZombie, Procs.set, Procs.note, hc]
  | heap k => simp [recordZombie, Procs.set, Procs.note, hc]

theorem recordZombie_ready_pid (j : Nat) :
    ((recordZombie status s).ready j).pid = (s.ready j).pid := by
  by_cases h : s.curr = .ready j
  · simp [recordZombie, Procs.set, Procs.note, Procs.current, Procs.get, h]
  · rw [recordZombie_ready status s j h]

theorem recordZombie_processCount : (recordZombie status s).processCount = s.processCount := by
  obtain ⟨c, hc⟩ : ∃ c, s.curr = c := ⟨_, rfl⟩
  cases c <;> simp [recordZombie, Procs.set, Procs.note, hc]

theorem recordZombie_zomCount : (recordZombie status s).zomCount = zombieIndex status s := by
  obtain ⟨c, hc⟩ : ∃ c, s.curr = c := ⟨_, rfl⟩
  cases c <;> simp [recordZombie, Procs.set, Procs.note, zombieIndex, hc]

theorem recordZombie_zombies : (recordZombie status s).zombies =
    Function.update s.zombies (zombieIndex status s) s.current.pid := by
  obtain ⟨c, hc⟩ : ∃ c, s.curr = c := ⟨_, rfl⟩
  cases c <;>
    simp [recordZombie, Procs.set, Procs.note, Procs.current, Procs.get, zombieIndex, hc]

theorem recordZombie_log : (recordZombie status s).log =
    [.exited s.current.pid, .store (.zombie s.current.pid),
      .store (.zombies (zombieIndex status s))] ++ s.log := by
  obtain ⟨c, hc⟩ : ∃ c, s.curr = c := ⟨_, rfl⟩
  cases c <;>
    simp [recordZombie, Procs.set, Procs.note, Procs.current, Procs.get, zombieIndex, hc]

end Record

section Unqueue

/-- The slot the search of exit_process ends at. -/
def exitSlot (s : Procs) : Nat := searchReady s s.current.pid

/-- The accesses of the search and of the loop that closes the gap. -/
def unqueueLog (s : Procs) : List ProcEvent :=
  (if exitSlot s < s.processCount then
    (List.range' (exitSlot s) (s.processCount - exitSlot s)).flatMap fun x =>
      [.load (.ready (x+1)), .store (.ready x)]
  else []) ++
  (List.range' 1 (min (exitSlot s) s.processCount)).map (.load <| .ready ·)

theorem unqueue_eq (s : Procs) : unqueue s =
    { s with
      ready := if exitSlot s < s.processCount then
          closeGap (s.processCount - exitSlot s) (exitSlot s) s.ready
        else s.ready
      log := unqueueLog s ++ s.log } := by
  unfold unqueue unqueueLog exitSlot
  by_cases h : searchReady s s.current.pid < s.processCount
  · simp [Procs.note, h]
  · simp [Procs.note, h]

theorem unqueue_ready (s : Procs) (j : Nat) :
    (unqueue s).ready j =
      if exitSlot s ≤ j ∧ j < s.processCount then s.ready (j+1) else s.ready j := by
  rw [unqueue_eq]
  by_cases h : exitSlot s < s.processCount
  · simp only [if_pos h, closeGap_apply]
    rw [Nat.add_sub_cancel' h.le]
  · simp only [if_neg h]
    rw [if_neg (by omega)]

theorem recordZombie_exitSlot (status : Int) (s : Procs) :
    exitSlot (recordZombie status s) = exitSlot s := by
  unfold exitSlot searchReady
  simp only [recordZombie_current_pid, recordZombie_ready_pid, recordZombie_processCount]

end Unqueue

section Leave

variable {status : Int} (s : Procs)

/-- What resumeParent leaves alone, and that it only reads the queue. -/
theorem resumeParent_spec : ∃ c n, resumeParent s =
    { s with curr := c, log := (List.range n).map (.load <| .ready ·) ++ s.log } ∧
    n ≤ s.processCount := by
  unfold resumeParent
  cases h : (List.range s.processCount).find? fun j => (s.ready j).pid = s.current.ppid with
  | none => exact ⟨s.curr, s.processCount, rfl, le_refl _⟩
  | some j =>
    have hj := List.mem_range.mp (List.mem_of_find?_eq_some h)
    exact ⟨.ready j, j+1, rfl, hj⟩

theorem exitProcess_resume (hs : status ≠ 1) : ∃ c n, exitProcess status s =
    { unqueue (recordZombie status s) with
      processCount := dec16 (unqueue (recordZombie status s)).processCount, curr := c,
      log := (List.range n).map (.load <| .ready ·) ++ (unqueue (recordZombie status s)).log } ∧
    n ≤ dec16 (unqueue (recordZombie status s)).processCount := by
  rw [exitProcess, if_neg hs]
  exact resumeParent_spec _

/-- exit_process with a status other than 1: what it does to the queue and the arrays. -/
theorem exitProcess_leave (hs : status ≠ 1) :
    (exitProcess status s).processCount = dec16 s.processCount ∧
    (exitProcess status s).zombie = (recordZombie status s).zombie ∧
    (∀ j, (exitProcess status s).ready j =
      if exitSlot s ≤ j ∧ j < s.processCount then (recordZombie status s).ready (j+1)
      else (recordZombie status s).ready j) ∧
    ∃ n, n ≤ dec16 s.processCount ∧ (exitProcess status s).log =
      (List.range n).map (.load <| .ready ·) ++ unqueueLog (recordZombie status s) ++
        [.exited s.current.pid, .store (.zombie s.current.pid),
          .store (.zombies (zombieIndex status s))] ++ s.log := by
  have hr := unqueue_ready (recordZombie status s)
  simp only [recordZombie_exitSlot, recordZombie_processCount] at hr
  obtain ⟨c, n, he, hn⟩ := exitProcess_resume s hs
  rw [he]
  simp only [unqueue_eq, recordZombie_processCount] at hn ⊢
  refine ⟨trivial, trivial, ?_, n, hn, ?_⟩
  · intro j
    rw [← hr j, unqueue_eq]
    simp only [recordZombie_processCount]
  · rw [recordZombie_log]
    simp

end Leave

section Reap

/-- An access the reaping loop can make. -/
def ReapEvent (s : Procs) (e : ProcEvent) : Prop :=
  ∃ z ≤ s.zomCount, e = .load (.zombies z) ∨ e = .load (.zombie (s.zombies z)) ∨
    e = .load (.zombie (s.zombies z + 1)) ∨ e = .store (.zombie (s.zombies z))

/-- Reaping moves entries of the zombie queue around and changes nothing else. -/
theorem reapZombies_spec (n z : Nat) (s : Procs) : ∃ q es,
    reapZombies n z s = { s with zombie := q, log := es ++ s.log } ∧
    (∀ k, ∃ k', q k = s.zombie k') ∧ ∀ e ∈ es, ReapEvent s e := by
  induction n generalizing z s with
  | zero => exact ⟨s.zombie, [], rfl, fun k => ⟨k, rfl⟩, by simp⟩
  | succ n ih =>
    simp only [reapZombies]
    split_ifs with hz hm
    · obtain ⟨q, es, he, hq, hes⟩ := ih (z+2)
        ({ s.note [.load (.zombies z), .load (.zombie (s.zombies z))] with
          zombie := Function.update s.zombie (s.zombies z) (s.zombie (s.zombies z + 1)) }.note
            [.load (.zombie (s.zombies z + 1)), .store (.zombie (s.zombies z))])
      refine ⟨q, es ++ [.load (.zombie (s.zombies z + 1)), .store (.zombie (s.zombies z)),
        .load (.zombies z), .load (.zombie (s.zombies z))], ?_, ?_, ?_⟩
      · refine he.trans ?_
        simp [Procs.note]
      · intro k
        obtain ⟨k', hk'⟩ := hq k
        by_cases hk : k' = s.zombies z
        · refine ⟨s.zombies z + 1, ?_⟩
          rw [hk', hk]
          exact Function.update_self _ _ _
        · refine ⟨k', ?_⟩
          rw [hk']
          exact Function.update_of_ne hk _ _
      · intro e he
        simp only [List.mem_append, List.mem_cons, List.not_mem_nil, or_false] at he
        rcases he with he | he | he | he | he
        · exact hes e he
        all_goals exact ⟨z, hz, by simp [he]⟩
    · obtain ⟨q, es, he, hq, hes⟩ := ih (z+1)
        (s.note [.load (.zombies z), .load (.zombie (s.zombies z))])
      refine ⟨q, es ++ [.load (.zombies z), .load (.zombie (s.zombies z))], ?_, hq, ?_⟩
      · refine he.trans ?_
        simp [Procs.note]
      · intro e he
        simp only [List.mem_append, List.mem_cons, List.not_mem_nil, or_false] at he
        rcases he with he | he | he
        · exact hes e he
        all_goals exact ⟨z, hz, by simp [he]⟩
    · exact ⟨s.zombie, [], rfl, fun k => ⟨k, rfl⟩, by simp⟩

/-- exit_process with status 1: the count stays, and the zombie queue is reaped. -/
theorem exitProcess_reap (s : Procs) : ∃ q es,
    exitProcess 1 s = { unqueue (recordZombie 1 s) with
      zombie := q, zomCount := dec16 s.zomCount,
      log := es ++ (unqueue (recordZombie 1 s)).log } ∧
    (∀ k, ∃ k', q k = (recordZombie 1 s).zombie k') ∧
    ∀ e ∈ es, ReapEvent (recordZombie 1 s) e := by
  have hz : (recordZombie 1 s).zomCount = s.zomCount := recordZombie_zomCount 1 s
  obtain ⟨q, es, he, hq, hes⟩ := reapZombies_spec
    ((unqueue (recordZombie 1 s)).zomCount + 1) 0 (unqueue (recordZombie 1 s))
  refine ⟨q, es, ?_, ?_, ?_⟩
  · simp only [exitProcess, if_pos, he]
    simp only [unqueue_eq, hz]
  · intro k
    obtain ⟨k', hk'⟩ := hq k
    exact ⟨k', by rw [hk', unqueue_eq]⟩
  · intro e h
    have := hes e h
    rwa [unqueue_eq] at this

end Reap

section Events

/-- What an exit can access besides recording the zombie. -/
def ExitEvent (status : Int) (s : Procs) (e : ProcEvent) : Prop :=
  (∃ x ≤ s.processCount, e = .load (.ready x)) ∨
  (∃ x < s.processCount, e = .store (.ready x)) ∨
  status = 1 ∧ ReapEvent (recordZombie 1 s) e

theorem unqueueLog_event (status : Int) (s : Procs) (e : ProcEvent)
    (h : e ∈ unqueueLog (recordZombie status s)) : ExitEvent status s e := by
  unfold unqueueLog at h
  rw [recordZombie_exitSlot, recordZombie_processCount, List.mem_append] at h
  rcases h with h | h
  · split_ifs at h with hlt
    · simp only [List.mem_flatMap, List.mem_range'_1, List.mem_cons, List.not_mem_nil,
        or_false] at h
      obtain ⟨x, hx, rfl | rfl⟩ := h
      · exact Or.inl ⟨x+1, by omega, rfl⟩
      · exact Or.inr (Or.inl ⟨x, by omega, rfl⟩)
    · cases h
  · simp only [List.mem_map, List.mem_range'_1] at h
    obtain ⟨x, hx, rfl⟩ := h
    exact Or.inl ⟨x, by omega, rfl⟩

theorem exitProcess_log (status : Int) (s : Procs) (hc : status ≠ 1 → 1 ≤ s.processCount) :
    ∃ es, (exitProcess status s).log = es ++ [.exited s.current.pid,
      .store (.zombie s.current.pid), .store (.zombies (zombieIndex status s))] ++ s.log ∧
    ∀ e ∈ es, ExitEvent status s e := by
  by_cases hs : status = 1
  · subst hs
    obtain ⟨q, es, he, -, hes⟩ := exitProcess_reap s
    refine ⟨es ++ unqueueLog (recordZombie 1 s), ?_, ?_⟩
    · rw [he, unqueue_eq]
      simp only [recordZombie_log, List.append_assoc]
    · intro e h
      rcases List.mem_append.mp h with h | h
      · exact Or.inr (Or.inr ⟨rfl, hes e h⟩)
      · exact unqueueLog_event 1 s e h
  · obtain ⟨-, -, -, n, hn, hlog⟩ := exitProcess_leave s hs
    refine ⟨_, hlog, ?_⟩
    intro e h
    rcases List.mem_append.mp h with h | h
    · simp only [List.mem_map, List.mem_range] at h
      obtain ⟨x, hx, rfl⟩ := h
      have hpos := hc hs
      have hle : dec16 s.processCount ≤ s.processCount := by
        unfold dec16
        omega
      exact Or.inl ⟨x, by omega, rfl⟩
    · exact unqueueLog_event status s e h

/-- What an exit leaves alone: the pid counter, the forked child and every pid outside the
queues. -/
structure SameChild (s t : Procs) : Prop where
  upid : t.upid = s.upid
  child : t.globalChild = s.globalChild
  heap : ∀ k, (t.heap k).pid = (s.heap k).pid

theorem recordZombie_sameChild (status : Int) (s : Procs) :
    SameChild s (recordZombie status s) := by
  obtain ⟨c, hc⟩ : ∃ c, s.curr = c := ⟨_, rfl⟩
  cases c with
  | ready i => constructor <;> simp [recordZombie, Procs.set, Procs.note, hc]
  | zombie i => constructor <;> simp [recordZombie, Procs.set, Procs.note, hc]
  | heap i =>
    constructor
    case upid => simp [recordZombie, Procs.set, Procs.note, hc]
    case child => simp [recordZombie, Procs.set, Procs.note, hc]
    case heap =>
      intro k
      simp only [recordZombie, Procs.set, Procs.note, Procs.current, Procs.get, hc]
      by_cases h : k = i
      · rw [h, Function.update_self]
      · rw [Function.update_of_ne h]

theorem exitProcess_sameChild (status : Int) (s : Procs) :
    SameChild s (exitProcess status s) := by
  have h := recordZombie_sameChild status s
  by_cases hs : status = 1
  · subst hs
    obtain ⟨q, es, he, -⟩ := exitProcess_reap s
    rw [he, unqueue_eq]
    exact ⟨h.upid, h.child, h.heap⟩
  · obtain ⟨c, n, he, -⟩ := exitProcess_resume s hs
    rw [he, unqueue_eq]
    exact ⟨h.upid, h.child, h.heap⟩

/-- The entry of the exiting process is the only one of the zombie queue to get a new pid. -/
theorem recordZombie_zombie_pid (status : Int) (s : Procs) (k : Nat) :
    ((recordZombie status s).zombie k).pid =
      if k = s.current.pid then s.current.pid else (s.zombie k).pid := by
  have hcur := recordZombie_current_pid status s
  obtain ⟨c, hc⟩ : ∃ c, s.curr = c := ⟨_, rfl⟩
  cases c with
  | ready i =>
    by_cases h : k = s.current.pid <;>
      simp_all [recordZombie, Procs.set, Procs.note, Procs.current, Procs.get]
  | heap i =>
    by_cases h : k = s.current.pid <;>
      simp_all [recordZombie, Procs.set, Procs.note, Procs.current, Procs.get]
  | zombie i =>
    simp only [recordZombie, Procs.current, Procs.get, Procs.set, Procs.note, hc,
      Function.update_self]
    by_cases h : k = (s.zombie i).pid
    · rw [if_pos h, ← h, Function.update_self]
      by_cases hi : i = k
      · rw [hi, Function.update_self, Function.update_self, ← hi]
      · rw [Function.update_of_ne hi, Function.update_self, h]
    · rw [if_neg h, Function.update_of_ne h, Function.update_of_ne h]
      by_cases hi : k = i
      · rw [hi, Function.update_self]
      · rw [Function.update_of_ne hi]

end Events

/-- The slots in use hold non-zero, pairwise distinct pids. -/
structure Window (s : Procs) : Prop where
  nonzero : ∀ i < s.processCount, (s.ready i).pid ≠ 0
  distinct : ∀ i < s.processCount, ∀ j < s.processCount,
    (s.ready i).pid = (s.ready j).pid → i = j

section Remove

variable {s : Procs} {k : Nat}

theorem store_mem_unqueueLog (s : Procs) (a : Slot) :
    .store a ∈ unqueueLog s ↔ ∃ x, exitSlot s ≤ x ∧ x < s.processCount ∧ a = .ready x := by
  unfold unqueueLog
  by_cases h : exitSlot s < s.processCount
  · simp only [if_pos h, List.mem_append, List.mem_flatMap, List.mem_range'_1, List.mem_cons,
      List.mem_map, reduceCtorEq, ProcEvent.store.injEq, List.not_mem_nil, or_false, false_or,
      and_false, exists_false]
    constructor
    · rintro ⟨x, ⟨h1, h2⟩, rfl⟩
      exact ⟨x, h1, by omega, rfl⟩
    · rintro ⟨x, h1, h2, rfl⟩
      exact ⟨x, ⟨h1, by omega⟩, rfl⟩
  · simp only [if_neg h, List.nil_append, List.mem_map, reduceCtorEq, and_false, exists_false,
      false_iff]
    rintro ⟨x, h1, h2, -⟩
    omega

theorem exitSlot_of_pos (hw : Window s) (hk : k < s.processCount)
    (hp : (s.ready k).pid = s.current.pid) (h : 1 ≤ k) : exitSlot s = k := by
  refine searchReady_eq h hk.le hp ?_
  intro j _ hj he
  exact hj.ne (hw.distinct j (hj.trans hk) k hk (he.trans hp.symm))

/-- The search starts at slot 1, so it misses a process in slot 0. -/
theorem exitSlot_of_zero (hw : Window s) (hk : 0 < s.processCount)
    (hp : (s.ready 0).pid = s.current.pid) : s.processCount ≤ exitSlot s := by
  unfold exitSlot
  rcases searchReady_spec s s.current.pid with ⟨h1, _, h3, _⟩ | ⟨h, _⟩
  · by_contra hlt
    have := hw.distinct _ (not_le.mp hlt) 0 hk (h3.trans hp.symm)
    omega
  · omega

/-- The way from `s` to `t` stored nothing outside the arrays. -/
def StoresInside (s t : Procs) : Prop :=
  ∃ es, t.log = es ++ s.log ∧ ∀ a, .store a ∈ es → a.index < numProcs

/-- `t` is `s` with slot `k` taken out of the window. -/
def SlotRemoved (k : Nat) (s t : Procs) : Prop :=
  StoresInside s t ∧
  t.processCount + 1 = s.processCount ∧
  ∀ j < t.processCount, t.ready j = s.ready (if j < k then j else j+1)

/-- Only the slot of the exiting process itself is touched before the gap is closed. -/
theorem recordZombie_ready_window (status : Int) (hw : Window s) (hk : k < s.processCount)
    (hp : (s.ready k).pid = s.current.pid) (j : Nat) (hj : j < s.processCount) (hne : j ≠ k) :
    (recordZombie status s).ready j = s.ready j := by
  refine recordZombie_ready status s j ?_
  intro hc
  have hcur : s.current.pid = (s.ready j).pid := by rw [Procs.current, hc, Procs.get]
  exact hne (hw.distinct j hj k hk (hcur.symm.trans hp.symm))

/-- The accesses of an exit that are stores. -/
theorem exitProcess_stores {status : Int} (hs : status ≠ 1) :
    StoresInside s (exitProcess status s) ↔
    s.current.pid < numProcs ∧ zombieIndex status s < numProcs ∧
      ∀ x, exitSlot s ≤ x → x < s.processCount → x < numProcs := by
  obtain ⟨-, -, -, n, -, hlog⟩ := exitProcess_leave s hs
  have hmem (a : Slot) := store_mem_unqueueLog (recordZombie status s) a
  simp only [recordZombie_exitSlot, recordZombie_processCount] at hmem
  constructor
  · rintro ⟨es, he, h⟩
    obtain rfl := List.append_cancel_right (he.symm.trans hlog)
    refine ⟨h (.zombie s.current.pid) (by simp), h (.zombies (zombieIndex status s)) (by simp), ?_⟩
    intro x h1 h2
    refine h (.ready x) ?_
    simp only [List.mem_append, hmem]
    exact Or.inl (Or.inr ⟨x, h1, h2, rfl⟩)
  · rintro ⟨h1, h2, h3⟩
    refine ⟨_, hlog, ?_⟩
    intro a ha
    simp only [List.mem_append, hmem, List.mem_map, List.mem_cons, reduceCtorEq, and_false,
      exists_false, ProcEvent.store.injEq, List.not_mem_nil, or_false, false_or] at ha
    rcases ha with ⟨x, hx1, hx2, rfl⟩ | rfl | rfl
    · exact h3 x hx1 hx2
    · exact h1
    · exact h2

/-- exit_process takes its own slot out of the queue, except that it never finds slot 0: there
it drops the last entry instead, which is the same only when there is no other. -/
theorem exitProcess_removes_iff (status : Int) (s : Procs) (k : Nat) (hs : status ≠ 1)
    (hw : Window s) (hk : k < s.processCount) (hp : (s.ready k).pid = s.current.pid) :
    SlotRemoved k s (exitProcess status s) ↔
      s.current.pid < numProcs ∧ zombieIndex status s < numProcs ∧
      (k = 0 ∧ s.processCount = 1 ∨ 1 ≤ k ∧ s.processCount ≤ numProcs) := by
  obtain ⟨hcount, -, hready, -⟩ := exitProcess_leave s hs
  have hold := recordZombie_ready_window status hw hk hp
  unfold SlotRemoved
  rw [exitProcess_stores hs, hcount]
  rcases Nat.eq_zero_or_pos k with rfl | hpos
  · have hslot := exitSlot_of_zero hw hk hp
    constructor
    · rintro ⟨⟨h1, h2, -⟩, hc, hwin⟩
      refine ⟨h1, h2, Or.inl ⟨rfl, ?_⟩⟩
      by_contra hne
      -- slot 0 still has its pid, where slot 1 should have moved
      have h0 := hwin 0 (by omega)
      rw [hready, if_neg (by omega), if_neg (by omega)] at h0
      have hpid := (recordZombie_ready_pid status s 0).symm.trans (congrArg Task.pid h0)
      have := hw.distinct 0 hk 1 (by omega) hpid
      omega
    · rintro ⟨h1, h2, h | h⟩
      · have hdec : dec16 s.processCount = 0 := by rw [h.2]; rfl
        refine ⟨⟨h1, h2, fun x _ _ => ?_⟩, by omega, fun j hj => by omega⟩
        unfold numProcs
        omega
      · omega
  · have hslot := exitSlot_of_pos hw hk hp hpos
    constructor
    · rintro ⟨⟨h1, h2, h3⟩, -, -⟩
      refine ⟨h1, h2, Or.inr ⟨hpos, ?_⟩⟩
      have := h3 (s.processCount - 1) (by omega) (by omega)
      omega
    · rintro ⟨h1, h2, h | ⟨-, h⟩⟩
      · omega
      · have hdec : dec16 s.processCount + 1 = s.processCount := by
          unfold dec16 numProcs at *
          omega
        refine ⟨⟨h1, h2, fun x _ hx => hx.trans_le h⟩, hdec, ?_⟩
        intro j hj
        rw [hready, hslot]
        by_cases hjk : j < k
        · rw [if_neg (by omega), if_pos hjk, hold j (by omega) hjk.ne]
        · rw [if_pos (by omega), if_neg hjk, hold (j+1) (by omega) (by omega)]

/-- The shell in slot 0 and its child in slot 1. -/
def shellAndChild (curr : TaskPtr) : Procs :=
  { Procs.init with
    ready := fun i => if i = 0 then ⟨1, 0, .ready, 0, 0⟩
      else if i = 1 then ⟨2, 1, .ready, 0, 0⟩ else .zero
    processCount := 2
    curr := curr }

theorem shellAndChild_window (curr : TaskPtr) : Window (shellAndChild curr) where
  nonzero i hi := by
    have hi : i < 2 := hi
    interval_cases i <;> exact nofun
  distinct i hi j hj h := by
    have hi : i < 2 := hi
    have hj : j < 2 := hj
    interval_cases i <;> interval_cases j <;> first | rfl | simp [shellAndChild] at h

theorem exitProcess_removes_child :
    SlotRemoved 1 (shellAndChild (.ready 1)) (exitProcess 0 (shellAndChild (.ready 1))) :=
  (exitProcess_removes_iff 0 (shellAndChild (.ready 1)) 1 (by decide) (shellAndChild_window _)
    (by decide) rfl).mpr ⟨by decide, by decide, Or.inr ⟨le_refl 1, by decide⟩⟩

/-- When the shell exits, it is its child that leaves the queue. -/
theorem exitProcess_keeps_shell :
    (exitProcess 0 (shellAndChild (.ready 0))).processCount = 1 ∧
    ((exitProcess 0 (shellAndChild (.ready 0))).ready 0).pid = 1 ∧
    ((shellAndChild (.ready 0)).ready 1).pid = 2 := by
  decide

end Remove

end SBUnix
