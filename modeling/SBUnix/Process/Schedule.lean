import SBUnix.Process.Exit

namespace SBUnix

/-- What usr_schedule does in the end: run `ready_queue[i]`, or idle. -/
inductive Next where
  | switch (i : Nat)
  | idle
  deriving DecidableEq, Repr

/-- `n - 1` on a `uint32_t`. -/
def pred32 (n : Nat) : Nat := (n + (2^32-1)) % 2^32

/-- The first loop, for at most `n` rounds: `i` is one above the slot looked at. With a
process_count of 0 the remainder faults. -/
def parentLoop (s : Procs) : Nat → Nat → Option Nat
  | 0, _ => none
  | n+1, i =>
    if s.current.ppid ≠ (s.ready (pred32 i)).pid ∧ (s.ready (pred32 i)).pid ≠ 0 then
      if i = pred32 s.processCount then some i
      else if s.processCount = 0 then none
      else parentLoop s n (if i % s.processCount = 0 then 1 else i+1)
    else some i

/-- The second loop, which has no bound of its own. -/
def childLoop (s : Procs) : Nat → Nat → Option Nat
  | 0, _ => none
  | n+1, j =>
    if s.current.pid ≠ (s.ready j).ppid ∧ (s.ready j).pid ≠ 0 then
      childLoop s n ((j+1) % 2^32)
    else some j

/-- usr_schedule, `none` while a loop has not ended after `n` rounds. -/
def usrSchedule (n : Nat) (s : Procs) : Option Next := do
  let i ← parentLoop s n s.processCount
  let j ← if i = pred32 s.processCount then childLoop s n 0 else some 0
  let i := pred32 i
  if s.current.ppid = (s.ready i).pid then some (.switch i)
  else if s.current.pid = (s.ready j).ppid then some (.switch j)
  else some .idle

/-- The first loop stops at this slot. -/
def StopsParent (s : Procs) (x : Nat) : Prop :=
  (s.ready x).pid = s.current.ppid ∨ (s.ready x).pid = 0

instance (s : Procs) (x : Nat) : Decidable (StopsParent s x) :=
  inferInstanceAs (Decidable (_ ∨ _))

/-- The slot the first loop ends at: it looks at the last one, then at the others from 0 on,
and gives up at the last but one. -/
def parentSlot (s : Procs) : Nat :=
  (((s.processCount-1) :: List.range (s.processCount-1)).find? (StopsParent s ·)).getD
    (s.processCount-2)

/-- The second loop stops at this slot. -/
def StopsChild (s : Procs) (j : Nat) : Prop :=
  (s.ready j).ppid = s.current.pid ∨ (s.ready j).pid = 0

/-- The slot the second loop ends at; it runs only after the first has come to the last but
one. -/
def ChildSlot (s : Procs) (j : Nat) : Prop :=
  if parentSlot s = s.processCount-2 then
    j < 2^32 ∧ StopsChild s j ∧ ∀ k < j, ¬StopsChild s k
  else j = 0

/-- The process the links lead to, whatever the states. -/
def Target (s : Procs) (i : Nat) : Prop :=
  ∃ j, ChildSlot s j ∧
    if (s.ready (parentSlot s)).pid = s.current.ppid then i = parentSlot s
    else i = j ∧ (s.ready j).ppid = s.current.pid

section Loops

variable {s : Procs}

theorem pred32_pos {n : Nat} (h1 : 1 ≤ n) (h2 : n < 2^32) : pred32 n = n-1 := by
  unfold pred32
  omega

theorem stopsParent_iff (x : Nat) :
    StopsParent s x ↔ ¬(s.current.ppid ≠ (s.ready x).pid ∧ (s.ready x).pid ≠ 0) := by
  unfold StopsParent
  tauto

theorem stopsChild_iff (j : Nat) :
    StopsChild s j ↔ ¬(s.current.pid ≠ (s.ready j).ppid ∧ (s.ready j).pid ≠ 0) := by
  unfold StopsChild
  tauto

/-- From slot `x` upwards, with the last but one as the end. -/
theorem parentLoop_up (hc : 2 ≤ s.processCount) (hb : s.processCount < 2^16) (n x : Nat)
    (hx : x + 2 ≤ s.processCount) :
    parentLoop s n (x+1) =
      let r := ((List.range' x (s.processCount - 1 - x)).find? (StopsParent s ·)).getD
        (s.processCount-2)
      if r < x + n then some (r+1) else none := by
  induction n generalizing x with
  | zero =>
    have hr : x ≤ ((List.range' x (s.processCount - 1 - x)).find? (StopsParent s ·)).getD
        (s.processCount-2) := by
      cases h : (List.range' x (s.processCount - 1 - x)).find? (StopsParent s ·) with
      | none => exact Nat.le_sub_of_add_le hx
      | some r => exact (List.mem_range'_1.mp (List.mem_of_find?_eq_some h)).1
    simp only [parentLoop]
    rw [if_neg (by omega)]
  | succ n ih =>
    have hsplit : s.processCount - 1 - x = (s.processCount - 1 - (x+1)) + 1 := by omega
    have hp : pred32 (x+1) = x := pred32_pos (by omega) (by omega)
    have hl : pred32 s.processCount = s.processCount - 1 := pred32_pos (by omega) (by omega)
    rw [hsplit, List.range'_succ]
    simp only [parentLoop, hp, hl]
    by_cases hs : StopsParent s x
    · rw [if_neg ((stopsParent_iff x).mp hs), List.find?_cons_of_pos (by simpa using hs)]
      simp
    · rw [if_pos (not_not.mp (mt (stopsParent_iff x).mpr hs)),
        List.find?_cons_of_neg (by simpa using hs)]
      by_cases hlast : x + 2 = s.processCount
      · have hz : s.processCount - 1 - (x+1) = 0 := by omega
        have hi : x+1 = s.processCount - 1 := by omega
        have hr : s.processCount - 2 = x := by omega
        rw [if_pos hi, hz, List.range'_zero, List.find?_nil, Option.getD_none, hr]
        exact (if_pos (Nat.lt_add_of_pos_right n.succ_pos)).symm
      · have hmod : (x+1) % s.processCount = x+1 := Nat.mod_eq_of_lt (by omega)
        have hi : ¬x+1 = s.processCount - 1 := by omega
        have h0 : ¬s.processCount = 0 := by omega
        rw [if_neg hi, if_neg h0, hmod, if_neg x.succ_ne_zero, ih (x+1) (by omega),
          show x + (n+1) = x+1+n by omega]

/-- Given enough rounds the first loop ends, and always at `parentSlot`. -/
theorem parentLoop_eq (hc : 2 ≤ s.processCount) (hb : s.processCount < 2^16) (n : Nat) :
    parentLoop s n s.processCount = some (parentSlot s + 1) ∨
    parentLoop s n s.processCount = none ∧ n ≤ s.processCount := by
  cases n with
  | zero => exact Or.inr ⟨rfl, Nat.zero_le _⟩
  | succ n =>
    have hl : pred32 s.processCount = s.processCount - 1 := pred32_pos (by omega) (by omega)
    have h0 : ¬s.processCount = 0 := by omega
    have hi : ¬s.processCount = s.processCount - 1 := by omega
    simp only [parentLoop, parentSlot, hl]
    by_cases hs : StopsParent s (s.processCount - 1)
    · left
      rw [if_neg ((stopsParent_iff _).mp hs), List.find?_cons_of_pos (by simpa using hs),
        Option.getD_some, Nat.sub_add_cancel (by omega)]
    · have hup := parentLoop_up hc hb n 0 (by omega)
      rw [Nat.sub_zero, ← List.range_eq_range', Nat.zero_add, Nat.zero_add] at hup
      rw [if_pos (not_not.mp (mt (stopsParent_iff _).mpr hs)), if_neg hi, if_neg h0,
        Nat.mod_self, if_pos rfl, List.find?_cons_of_neg (by simpa using hs), hup]
      dsimp only
      split_ifs with hr
      · exact Or.inl rfl
      · refine Or.inr ⟨rfl, ?_⟩
        have hlt : ((List.range (s.processCount - 1)).find? (StopsParent s ·)).getD
            (s.processCount-2) < s.processCount := by
          cases h : (List.range (s.processCount - 1)).find? (StopsParent s ·) with
          | none => exact Nat.sub_lt (by omega) (by omega)
          | some r =>
            have := List.mem_range.mp (List.mem_of_find?_eq_some h)
            exact this.trans_le (Nat.sub_le _ _)
        omega

theorem parentSlot_lt (hc : 2 ≤ s.processCount) : parentSlot s < s.processCount := by
  unfold parentSlot
  cases h : ((s.processCount-1) :: List.range (s.processCount-1)).find? (StopsParent s ·) with
  | none => exact Nat.sub_lt (by omega) (by omega)
  | some r =>
    have hm := List.mem_of_find?_eq_some h
    simp only [List.mem_cons, List.mem_range] at hm
    change r < s.processCount
    omega

theorem childLoop_sound (n j r : Nat) (hj : j < 2^32) (hbefore : ∀ k < j, ¬StopsChild s k)
    (h : childLoop s n j = some r) :
    r < 2^32 ∧ StopsChild s r ∧ ∀ k < r, ¬StopsChild s k := by
  induction n generalizing j with
  | zero => cases h
  | succ n ih =>
    rw [childLoop] at h
    split_ifs at h with hs
    · refine ih _ (Nat.mod_lt _ (by norm_num)) ?_ h
      intro k hk
      have hle : (j+1) % 2^32 ≤ j+1 := Nat.mod_le _ _
      rcases Nat.lt_or_ge k j with hlt | hge
      · exact hbefore k hlt
      · obtain rfl : k = j := by omega
        exact fun hst => (stopsChild_iff k).mp hst hs
    · obtain rfl := Option.some.inj h
      exact ⟨hj, (stopsChild_iff j).mpr hs, hbefore⟩

theorem childLoop_complete (r : Nat) (hr : r < 2^32) (hst : StopsChild s r)
    (hbefore : ∀ k < r, ¬StopsChild s k) (n j : Nat) (hj : j ≤ r) (hn : r < j + n) :
    childLoop s n j = some r := by
  induction n generalizing j with
  | zero => omega
  | succ n ih =>
    rw [childLoop]
    rcases Nat.eq_or_lt_of_le hj with rfl | hlt
    · exact if_neg ((stopsChild_iff j).mp hst)
    · rw [if_pos (not_not.mp (mt (stopsChild_iff j).mpr (hbefore j hlt))),
        Nat.mod_eq_of_lt (by omega)]
      exact ih (j+1) hlt (by omega)

end Loops

section Pick

variable {s : Procs}

/-- usr_schedule once the first loop has ended. -/
theorem usrSchedule_after (hc : 2 ≤ s.processCount) (hb : s.processCount < 2^16) (n : Nat)
    (h : parentLoop s n s.processCount = some (parentSlot s + 1)) :
    usrSchedule n s =
      (if parentSlot s = s.processCount-2 then childLoop s n 0 else some 0).bind fun j =>
        if s.current.ppid = (s.ready (parentSlot s)).pid then some (.switch (parentSlot s))
        else if s.current.pid = (s.ready j).ppid then some (.switch j) else some .idle := by
  have hlt := parentSlot_lt hc
  have hl : pred32 s.processCount = s.processCount - 1 := pred32_pos (by omega) (by omega)
  have hp : pred32 (parentSlot s + 1) = parentSlot s := pred32_pos (by omega) (by omega)
  have hiff : (parentSlot s + 1 = s.processCount - 1) = (parentSlot s = s.processCount-2) :=
    propext ⟨fun _ => by omega, fun _ => by omega⟩
  simp only [usrSchedule, h, hl, hp, hiff, Option.bind_eq_bind, Option.bind_some]
  by_cases hx : parentSlot s = s.processCount-2
  · rw [if_pos hx, if_pos hx]
  · rw [if_neg hx, if_neg hx, Option.bind_some]

theorem target_of_switch (hc : 2 ≤ s.processCount) (hb : s.processCount < 2^16) (n i : Nat)
    (h : usrSchedule n s = some (.switch i)) : Target s i := by
  rcases parentLoop_eq hc hb n with hloop | ⟨hloop, -⟩
  · rw [usrSchedule_after hc hb n hloop, Option.bind_eq_some_iff] at h
    obtain ⟨j, hj, hpick⟩ := h
    refine ⟨j, ?_, ?_⟩
    · unfold ChildSlot
      split_ifs at hj ⊢ with hx
      · exact childLoop_sound n 0 j (by norm_num) (fun k hk => absurd hk k.not_lt_zero) hj
      · exact (Option.some.inj hj).symm
    · split_ifs at hpick with h1 h2
      · rw [if_pos h1.symm]
        exact (Next.switch.inj (Option.some.inj hpick)).symm
      · rw [if_neg (Ne.symm h1)]
        exact ⟨(Next.switch.inj (Option.some.inj hpick)).symm, h2.symm⟩
      · cases hpick
  · rw [usrSchedule, hloop] at h
    cases h

theorem switch_of_target (hc : 2 ≤ s.processCount) (hb : s.processCount < 2^16) (i : Nat)
    (h : Target s i) : ∃ n, usrSchedule n s = some (.switch i) := by
  obtain ⟨j, hj, hpick⟩ := h
  refine ⟨s.processCount + j + 1, ?_⟩
  have hloop := (parentLoop_eq hc hb (s.processCount + j + 1)).resolve_right
    (fun h => absurd h.2 (by omega))
  rw [usrSchedule_after hc hb _ hloop, Option.bind_eq_some_iff]
  refine ⟨j, ?_, ?_⟩
  · unfold ChildSlot at hj
    split_ifs at hj ⊢ with hx
    · exact childLoop_complete j hj.1 hj.2.1 hj.2.2 _ 0 (Nat.zero_le _) (by omega)
    · rw [hj]
  · split_ifs at hpick with h1
    · rw [if_pos h1.symm, hpick]
    · rw [if_neg (Ne.symm h1), if_pos hpick.2.symm, hpick.1]

/-- usr_schedule follows the parent and child links and looks at no state, so it keeps to READY
processes only where the links lead to one. -/
theorem usrSchedule_ready_iff (s : Procs) (hc : 2 ≤ s.processCount)
    (hb : s.processCount < 2^16) :
    (∀ n i, usrSchedule n s = some (.switch i) → (s.ready i).state = .ready) ↔
      ∀ i, Target s i → (s.ready i).state = .ready := by
  constructor
  · intro h i hi
    obtain ⟨n, hn⟩ := switch_of_target hc hb i hi
    exact h n i hn
  · intro h n i hn
    exact h i (target_of_switch hc hb n i hn)

theorem usrSchedule_ready_shell :
    (shellAndChild (.ready 1)).processCount = 2 ∧
    ∀ n i, usrSchedule n (shellAndChild (.ready 1)) = some (.switch i) →
      ((shellAndChild (.ready 1)).ready i).state = .ready := by
  refine ⟨rfl, (usrSchedule_ready_iff (shellAndChild (.ready 1)) (by decide) (by decide)).mpr ?_⟩
  rintro i ⟨j, -, hi⟩
  have hx : parentSlot (shellAndChild (.ready 1)) = 0 := by decide
  have hpid : ((shellAndChild (.ready 1)).ready 0).pid =
    (shellAndChild (.ready 1)).current.ppid := rfl
  rw [hx, if_pos hpid] at hi
  rw [hi]
  rfl

/-- The shell waits for its child; the timer interrupts the child and the shell is run. -/
theorem usrSchedule_runs_waiting :
    let s := { (syswaitpid 2 (shellAndChild (.ready 0))).2 with curr := .ready 1 }
    (s.ready 0).state = .wait ∧ (s.ready 0).waitPid = 2 ∧ usrSchedule 4 s = some (.switch 0) := by
  decide

end Pick

/-- The slots the first loop looks at, in order. -/
def parentReads (s : Procs) : Nat → Nat → List Nat
  | 0, _ => []
  | n+1, i =>
    pred32 i ::
      if s.current.ppid ≠ (s.ready (pred32 i)).pid ∧ (s.ready (pred32 i)).pid ≠ 0 then
        if i = pred32 s.processCount then []
        else if s.processCount = 0 then []
        else parentReads s n (if i % s.processCount = 0 then 1 else i+1)
      else []

/-- The slots the second loop looks at, in order. -/
def childReads (s : Procs) : Nat → Nat → List Nat
  | 0, _ => []
  | n+1, j =>
    j ::
      if s.current.pid ≠ (s.ready j).ppid ∧ (s.ready j).pid ≠ 0 then
        childReads s n ((j+1) % 2^32)
      else []

/-- The slots usr_schedule looks at in its loops and in the choice after them. -/
def scheduleReads (n : Nat) (s : Procs) : List Nat :=
  parentReads s n s.processCount ++
  match parentLoop s n s.processCount with
  | none => []
  | some i =>
    if i = pred32 s.processCount then
      childReads s n 0 ++ pred32 i :: (childLoop s n 0).toList
    else [pred32 i, 0]

section Search

variable {s : Procs}

theorem parentReads_up (hc : 2 ≤ s.processCount) (hb : s.processCount < 2^16) (n x : Nat)
    (hx : x + 2 ≤ s.processCount) : ∀ r ∈ parentReads s n (x+1), r < s.processCount := by
  induction n generalizing x with
  | zero => simp [parentReads]
  | succ n ih =>
    have hp : pred32 (x+1) = x := pred32_pos (by omega) (by omega)
    have hl : pred32 s.processCount = s.processCount - 1 := pred32_pos (by omega) (by omega)
    intro r hr
    simp only [parentReads, hp, hl, List.mem_cons] at hr
    rcases hr with rfl | hr
    · omega
    · split_ifs at hr with h1 h2 h3 h4
      · cases hr
      · omega
      · rw [Nat.mod_eq_of_lt (by omega)] at h4
        omega
      · exact ih (x+1) (by omega) r hr
      · cases hr

theorem parentReads_lt (hc : 2 ≤ s.processCount) (hb : s.processCount < 2^16) (n : Nat) :
    ∀ r ∈ parentReads s n s.processCount, r < s.processCount := by
  cases n with
  | zero => simp [parentReads]
  | succ n =>
    have hl : pred32 s.processCount = s.processCount - 1 := pred32_pos (by omega) (by omega)
    intro r hr
    simp only [parentReads, hl, List.mem_cons, Nat.mod_self, if_true] at hr
    rcases hr with rfl | hr
    · omega
    · split_ifs at hr
      · cases hr
      · omega
      · exact parentReads_up hc hb n 0 hc r hr
      · cases hr

/-- The second loop stops at a slot with pid 0 at the latest. -/
theorem childReads_le (e : Nat) (he : e < 2^32) (hz : (s.ready e).pid = 0) (n j : Nat)
    (hj : j ≤ e) : ∀ r ∈ childReads s n j, r ≤ e := by
  induction n generalizing j with
  | zero => simp [childReads]
  | succ n ih =>
    intro r hr
    simp only [childReads, List.mem_cons] at hr
    rcases hr with rfl | hr
    · exact hj
    · split_ifs at hr with hs
      · have hne : j ≠ e := fun h => hs.2 (h ▸ hz)
        rw [Nat.mod_eq_of_lt (by omega)] at hr
        exact ih (j+1) (by omega) r hr
      · cases hr

/-- In a window of processes the first loop ends at the parent or, with none there, at the
last slot but one. -/
theorem parentSlot_cases (hc : 2 ≤ s.processCount)
    (hw : ∀ i < s.processCount, (s.ready i).pid ≠ 0) :
    (s.ready (parentSlot s)).pid = s.current.ppid ∨
    parentSlot s = s.processCount-2 ∧ ∀ i < s.processCount, (s.ready i).pid ≠ s.current.ppid := by
  unfold parentSlot
  cases h : ((s.processCount-1) :: List.range (s.processCount-1)).find? (StopsParent s ·) with
  | some r =>
    have hst : StopsParent s r := by simpa using List.find?_some h
    have hm := List.mem_of_find?_eq_some h
    simp only [List.mem_cons, List.mem_range] at hm
    exact Or.inl (hst.resolve_right (hw r (by omega)))
  | none =>
    refine Or.inr ⟨rfl, ?_⟩
    intro i hi hp
    have hnot := List.find?_eq_none.mp h i (by
      simp only [List.mem_cons, List.mem_range]
      omega)
    exact hnot (decide_eq_true (Or.inl hp))

/-- The slot at which a search for a child from 0 on ends, when slot `e` has pid 0. -/
theorem exists_stopsChild (e : Nat) (hz : (s.ready e).pid = 0) :
    ∃ j ≤ e, StopsChild s j ∧ ∀ k < j, ¬StopsChild s k := by
  have hex : ∃ j, StopsChild s j := ⟨e, Or.inr hz⟩
  classical
  exact ⟨Nat.find hex, Nat.find_min' hex (Or.inr hz), Nat.find_spec hex,
    fun k hk => Nat.find_min hex hk⟩

/-- What the search of usr_schedule is for: the parent if it is in the window, else the first
child, else nothing. -/
def Chooses (s : Procs) (r : Next) : Prop :=
  if ∃ i < s.processCount, (s.ready i).pid = s.current.ppid then
    ∃ i < s.processCount, r = .switch i ∧ (s.ready i).pid = s.current.ppid
  else if ∃ i < s.processCount, (s.ready i).ppid = s.current.pid then
    ∃ i < s.processCount, r = .switch i ∧ (s.ready i).ppid = s.current.pid ∧
      ∀ k < i, (s.ready k).ppid ≠ s.current.pid
  else r = .idle

/-- Both loops end within `process_count + 1` rounds, look at no slot behind the first free one,
and lead to the parent, else the first child, else to idling. -/
theorem usrSchedule_chooses (s : Procs) (hc : 2 ≤ s.processCount) (hb : s.processCount < 2^16)
    (hw : ∀ i < s.processCount, (s.ready i).pid ≠ 0) (hz : s.ready s.processCount = .zero)
    (hp : s.current.pid ≠ 0) (n : Nat) (hn : s.processCount < n) :
    (∃ r, usrSchedule n s = some r ∧ Chooses s r) ∧
    ∀ x ∈ scheduleReads n s, x ≤ s.processCount := by
  have hzp : (s.ready s.processCount).pid = 0 := congrArg Task.pid hz
  have hzpp : (s.ready s.processCount).ppid = 0 := congrArg Task.ppid hz
  have hloop := (parentLoop_eq hc hb n).resolve_right (fun h => by omega)
  have hlt := parentSlot_lt hc
  obtain ⟨j, hj, hst, hfirst⟩ := exists_stopsChild (s.processCount) hzp
  have hchild := childLoop_complete j (by omega) hst hfirst n 0 (Nat.zero_le _) (by omega)
  constructor
  · rw [usrSchedule_after hc hb n hloop, hchild]
    rcases parentSlot_cases hc hw with hpar | ⟨hend, hnone⟩
    · refine ⟨.switch (parentSlot s), ?_, ?_⟩
      · split_ifs with h1 h2 h3
        all_goals first | rfl | exact absurd hpar.symm ‹_›
      · rw [Chooses, if_pos ⟨_, hlt, hpar⟩]
        exact ⟨_, hlt, rfl, hpar⟩
    · have hno : ¬∃ i < s.processCount, (s.ready i).pid = s.current.ppid := by
        rintro ⟨i, hi, he⟩
        exact hnone i hi he
      have hne : ¬s.current.ppid = (s.ready (parentSlot s)).pid := (hnone _ hlt).symm
      rw [if_pos hend, Option.bind_some, if_neg hne]
      rcases Nat.lt_or_ge j s.processCount with hjc | hjc
      · have hlink : (s.ready j).ppid = s.current.pid := hst.resolve_right (hw j hjc)
        refine ⟨.switch j, by rw [if_pos hlink.symm], ?_⟩
        rw [Chooses, if_neg hno, if_pos ⟨j, hjc, hlink⟩]
        exact ⟨j, hjc, rfl, hlink, fun k hk h => hfirst k hk (Or.inl h)⟩
      · obtain rfl : j = s.processCount := by omega
        refine ⟨.idle, ?_, ?_⟩
        · rw [if_neg (by rw [hzpp]; exact hp)]
        · rw [Chooses, if_neg hno, if_neg]
          rintro ⟨i, hi, he⟩
          exact hfirst i hi (Or.inl he)
  · have hl : pred32 (parentSlot s + 1) = parentSlot s := pred32_pos (by omega) (by omega)
    intro x hx
    rw [scheduleReads, hloop, hchild, List.mem_append] at hx
    rcases hx with hx | hx
    · exact (parentReads_lt hc hb n x hx).le
    · simp only [hl] at hx
      split_ifs at hx
      · simp only [List.mem_append, List.mem_cons, Option.toList_some, List.not_mem_nil,
          or_false] at hx
        rcases hx with hx | rfl | rfl
        · exact childReads_le _ (by omega) hzp n 0 (Nat.zero_le _) x hx
        · exact hlt.le
        · exact hj
      · simp only [List.mem_cons, List.not_mem_nil, or_false] at hx
        omega

theorem usrSchedule_chooses_parent :
    (shellAndChild (.ready 1)).processCount = 2 ∧
    ∃ r, usrSchedule 3 (shellAndChild (.ready 1)) = some r ∧
      Chooses (shellAndChild (.ready 1)) r :=
  ⟨rfl, (usrSchedule_chooses (shellAndChild (.ready 1)) (by decide) (by decide)
    (shellAndChild_window _).nonzero rfl (by decide) 3 (by decide)).1⟩

end Search

end SBUnix
