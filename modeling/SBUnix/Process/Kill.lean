import SBUnix.Process.Zombies

namespace SBUnix

/-- The zombies on record: the pids found through `zombies[0 .. zom_count]`. -/
def recorded (s : Procs) : List Nat :=
  ((List.range (s.zomCount+1)).map fun z => (s.zombie (s.zombies z)).pid).filter (· ≠ 0)

/-- A process in the ready window. -/
def Live (pid : Nat) (s : Procs) : Prop := pid ∈ window s

/-- One zombie is off the record, and each of the others is on it once. -/
def ZombieRemoved (pid : Nat) (s t : Procs) : Prop :=
  (recorded t).Nodup ∧ ∀ q, q ∈ recorded t ↔ q ∈ recorded s ∧ q ≠ pid

/-- The same table; only the history differs. -/
def Unchanged (s t : Procs) : Prop := { t with log := s.log } = s

/-- What a kill is for. -/
def KillRemoves (pid : Nat) (s : Procs) : Prop :=
  (killProcess pid s).curr = s.curr ∧
  (Live pid s → window (killProcess pid s) = (window s).erase pid) ∧
  (pid ∈ recorded s → ZombieRemoved pid s (killProcess pid s)) ∧
  (¬Live pid s → pid ∉ recorded s → Unchanged s (killProcess pid s))

/-- The reaping loop on the pids in the zombie queue: `p` is the slot that `curr_upcb` is
aliased to, so what is looked for changes when that slot is written. -/
def reapPids (records : Nat → Nat) (p n : Nat) : Nat → Nat → (Nat → Nat) → Nat → Nat
  | 0, _, q => q
  | k+1, z, q =>
    if z ≤ n then
      if q (records z) = q p then
        reapPids records p n k (z+2) (Function.update q (records z) (q (records z + 1)))
      else reapPids records p n k (z+1) q
    else q

theorem reapZombies_pids (p k z : Nat) (s : Procs) (hc : s.curr = .zombie p) (x : Nat) :
    ((reapZombies k z s).zombie x).pid =
      reapPids s.zombies p s.zomCount k z (fun x => (s.zombie x).pid) x := by
  induction k generalizing z s with
  | zero => rfl
  | succ k ih =>
    have hcur : s.current.pid = (s.zombie p).pid := by rw [Procs.current, hc, Procs.get]
    simp only [reapZombies, reapPids]
    split_ifs with h1 h2 h3 h3
    · refine (ih (z+2) _ ?_).trans ?_
      · exact hc
      simp only [Procs.note]
      congr 1
      funext y
      by_cases hy : y = s.zombies z
      · rw [hy, Function.update_self, Function.update_self]
      · rw [Function.update_of_ne hy, Function.update_of_ne hy]
    · exact absurd (h2.trans hcur) h3
    · exact absurd (h3.trans hcur.symm) h2
    · exact ih _ _ hc
    · rfl

section Reaping

variable {records : Nat → Nat} {p n k z : Nat} {q : Nat → Nat}

theorem reapPids_end (h : n < z) : reapPids records p n k z q = q := by
  cases k with
  | zero => rfl
  | succ k => rw [reapPids, if_neg (by omega)]

theorem reapPids_hit (hz : z ≤ n) (h : q (records z) = q p) :
    reapPids records p n (k+1) z q =
      reapPids records p n k (z+2) (Function.update q (records z) (q (records z + 1))) := by
  rw [reapPids, if_pos hz, if_pos h]

theorem reapPids_skip (m : Nat) (hz : z+m ≤ n+1)
    (h : ∀ x, z ≤ x → x < z+m → q (records x) ≠ q p) :
    reapPids records p n (m+k) z q = reapPids records p n k (z+m) q := by
  induction m generalizing z with
  | zero => rw [Nat.zero_add, Nat.add_zero]
  | succ m ih =>
    rw [Nat.add_right_comm, reapPids, if_pos (by omega), if_neg (h z le_rfl (by omega)),
      ih (by omega) (fun x h1 h2 => h x (by omega) (by omega)), Nat.add_assoc, Nat.add_comm 1]

/-- Every record names the slot of its own zombie, and no zombie is recorded twice; only the
first record may be unset. -/
structure OwnSlots (records pids : Nat → Nat) (n : Nat) : Prop where
  own : ∀ z ≤ n, pids (records z) = records z
  set : ∀ z ≤ n, 1 ≤ z → records z ≠ 0
  distinct : ∀ y ≤ n, ∀ z ≤ n, records y = records z → y = z

section Outcome

variable {R q : Nat → Nat} {n j : Nat}

theorem OwnSlots.ne (h : OwnSlots R q n) {x y : Nat} (hx : x ≤ n) (hy : y ≤ n) (hne : x ≠ y) :
    R x ≠ R y := fun he => hne (h.distinct x hx y hy he)

/-- The newest zombie: the loop comes to it last and takes it out. -/
theorem reapPids_newest (h : OwnSlots R q n) :
    reapPids (Function.update R n (R n)) (R n) n (n+1) 0 q =
      Function.update q (R n) (q (R n + 1)) := by
  have hpast : ∀ x, 0 ≤ x → x < 0+n → q (R x) ≠ q (R n) := by
    intro x _ hx
    rw [h.own x (by omega), h.own n le_rfl]
    exact h.ne (by omega) le_rfl (by omega)
  rw [Function.update_eq_self, reapPids_skip n (by omega) hpast, Nat.zero_add,
    reapPids_hit le_rfl rfl, reapPids_end (by omega)]

/-- The loop up to an older zombie, whose slot is overwritten by the one above. -/
theorem reapPids_older (h : OwnSlots R q n) (hj : j < n) :
    reapPids (Function.update R n (R j)) (R j) n (n+1) 0 q =
      reapPids (Function.update R n (R j)) (R j) n (n-j) (j+2)
        (Function.update q (R j) (q (R j + 1))) := by
  have hold (x : Nat) (hx : x ≤ j) : Function.update R n (R j) x = R x :=
    Function.update_of_ne (by omega) _ _
  have hpast : ∀ x, 0 ≤ x → x < 0+j → q (Function.update R n (R j) x) ≠ q (R j) := by
    intro x _ hx
    rw [hold x (by omega), h.own x (by omega), h.own j hj.le]
    exact h.ne (by omega) hj.le (by omega)
  have hfuel : n+1 = j + (n-j+1) := by omega
  rw [hfuel, reapPids_skip j (by omega) hpast, Nat.zero_add,
    reapPids_hit hj.le (by rw [hold j le_rfl]), hold j le_rfl]

/-- From `z` on the loop finds nothing until it comes to the last record, which names the slot
that is looked for. -/
theorem reapPids_rest (k z p : Nat) (q : Nat → Nat) (hk : n < z + k) 
    (h : ∀ x, z ≤ x → x < n → q (R x) ≠ q p) :
    reapPids (Function.update R n p) p n k z q =
      if z ≤ n then Function.update q p (q (p+1)) else q := by
  by_cases hz : z ≤ n
  · obtain ⟨m, rfl⟩ := Nat.exists_eq_add_of_le hz
    obtain ⟨l, rfl⟩ : ∃ l, k = m+(l+1) := ⟨k-m-1, by omega⟩
    have hpast : ∀ x, z ≤ x → x < z+m → q (Function.update R (z+m) p x) ≠ q p := by
      intro x h1 h2
      rw [Function.update_of_ne (by omega)]
      exact h x h1 h2
    have hlast : Function.update R (z+m) p (z+m) = p := Function.update_self _ _ _
    rw [if_pos hz, reapPids_skip m (by omega) hpast, reapPids_hit le_rfl (by rw [hlast]), hlast,
      reapPids_end (by omega)]
  · rw [if_neg hz, reapPids_end (by omega)]

/-- No later record is of the zombie above: its slot has been copied down, and that is all. -/
theorem reapPids_copied (h : OwnSlots R q n) (hj : j < n)
    (hno : ∀ x, j+2 ≤ x → x < n → R x ≠ q (R j + 1)) :
    reapPids (Function.update R n (R j)) (R j) n (n+1) 0 q =
      Function.update q (R j) (q (R j + 1)) := by
  rw [reapPids_older h hj, reapPids_rest _ _ _ _ (by omega)]
  · have hup : Function.update q (R j) (q (R j + 1)) (R j + 1) = q (R j + 1) :=
      Function.update_of_ne (by omega) _ _
    rw [hup, Function.update_idem, ite_self]
  · intro x h1 h2
    rw [Function.update_self, Function.update_of_ne (h.ne (by omega) hj.le (by omega)),
      h.own x (by omega)]
    exact hno x h1 h2

/-- A later record is of the zombie above, so that one is overwritten as well. -/
theorem reapPids_chained {z : Nat} (h : OwnSlots R q n) (hj : j+2 ≤ z) (hz : z < n)
    (hr : R z = q (R j + 1)) (x : Nat) (hx : x < n) :
    reapPids (Function.update R n (R j)) (R j) n (n+1) 0 q (R x) =
      if x = j then if z+1 < n ∧ R z = R j + 1 then q (R z + 1) else R z
      else if x = z then if R z + 1 = R j then R z else q (R z + 1)
      else R x := by
  have hne {y : Nat} (hy : y ≤ n) (hyj : y ≠ j) : R y ≠ R j := h.ne hy (by omega) hyj
  obtain ⟨q1, hq1⟩ : ∃ q1, q1 = Function.update q (R j) (R z) := ⟨_, rfl⟩
  have hq1j : q1 (R j) = R z := by rw [hq1, Function.update_self]
  have hq1x {y : Nat} (hy : y ≤ n) (hyj : y ≠ j) : q1 (R y) = R y := by
    rw [hq1, Function.update_of_ne (hne hy hyj), h.own y hy]
  obtain ⟨q2, hq2⟩ : ∃ q2, q2 = Function.update q1 (R z) (q1 (R z + 1)) := ⟨_, rfl⟩
  have hq2j : q2 (R j) = R z := by
    rw [hq2, Function.update_of_ne (hne hz.le (by omega)).symm, hq1j]
  have hq2x {y : Nat} (hy : y ≤ n) (hyj : y ≠ j) (hyz : y ≠ z) : q2 (R y) = R y := by
    rw [hq2, Function.update_of_ne (h.ne hy hz.le hyz), hq1x hy hyj]
  have hloop : reapPids (Function.update R n (R j)) (R j) n (n+1) 0 q =
      if z+2 ≤ n then Function.update q2 (R j) (q2 (R j + 1)) else q2 := by
    have hold : Function.update R n (R j) z = R z := Function.update_of_ne (by omega) _ _
    have hfuel : n-j = (z-(j+2)) + (n-z+1+1) := by omega
    have hpast : ∀ y, j+2 ≤ y → y < j+2+(z-(j+2)) →
        q1 (Function.update R n (R j) y) ≠ q1 (R j) := by
      intro y h1 h2
      rw [Function.update_of_ne (by omega), hq1x (by omega) (by omega), hq1j]
      exact h.ne (by omega) hz.le (by omega)
    rw [reapPids_older h (by omega), ← hr, ← hq1, hfuel,
      reapPids_skip _ (by omega) hpast, Nat.add_sub_cancel' hj,
      reapPids_hit hz.le (by rw [hold, hq1x hz.le (by omega), hq1j]), hold, ← hq2,
      reapPids_rest _ _ _ _ (by omega)]
    intro y h1 h2
    rw [hq2x (by omega) (by omega) (by omega), hq2j]
    exact h.ne (by omega) hz.le (by omega)
  rw [hloop]
  rcases eq_or_ne x j with rfl | hxj
  · -- the slot of the one that was killed
    rw [if_pos rfl]
    by_cases hn : z+2 ≤ n
    · rw [if_pos hn, Function.update_self, hq2]
      by_cases hs : R z = R x + 1
      · have hup : q1 (R z + 1) = q (R z + 1) := by
          rw [hq1, Function.update_of_ne (by omega)]
        rw [if_pos ⟨by omega, hs⟩, ← hs, Function.update_self, hup]
      · rw [if_neg (fun hc => hs hc.2), Function.update_of_ne (Ne.symm hs), hq1,
          Function.update_of_ne (by omega), hr]
    · rw [if_neg hn, if_neg (by omega), hq2j]
  · have hout : (if z+2 ≤ n then Function.update q2 (R j) (q2 (R j + 1)) else q2) (R x) =
        q2 (R x) := by
      split_ifs
      · exact Function.update_of_ne (hne hx.le hxj) _ _
      · rfl
    rw [hout, if_neg hxj]
    rcases eq_or_ne x z with rfl | hxz
    · rw [if_pos rfl, hq2, Function.update_self, hq1]
      by_cases hs : R x + 1 = R j
      · rw [if_pos hs, hs, Function.update_self]
      · rw [if_neg hs, Function.update_of_ne hs]
    · rw [if_neg hxz, hq2x hx.le hxj hxz]

end Outcome

end Reaping

section Kill

variable {pid : Nat} {s : Procs}

/-- The pids in the zombie queue after a kill of the zombie in slot `pid`. -/
def killedPids (pid : Nat) (s : Procs) : Nat → Nat :=
  reapPids (Function.update s.zombies s.zomCount pid) pid s.zomCount (s.zomCount+1) 0
    fun x => (s.zombie x).pid

theorem killProcess_missing (h : (s.zombie pid).pid ≠ pid) : Unchanged s (killProcess pid s) := by
  by_cases h0 : pid = 0
  · rw [killProcess, if_pos h0, Unchanged]
  · have hkill : killProcess pid s = s.note [.load (.zombie pid)] := by
      rw [killProcess, if_neg h0]
      exact if_neg h
    rw [hkill, Unchanged, Procs.note]

/-- exit_process runs on the zombie itself: the newest record is overwritten, then the loop goes
over the records. -/
theorem killProcess_found (h0 : pid ≠ 0) (h : (s.zombie pid).pid = pid) :
    (killProcess pid s).zombies = Function.update s.zombies s.zomCount pid ∧
    (killProcess pid s).zomCount = dec16 s.zomCount ∧
    ∀ x, ((killProcess pid s).zombie x).pid = killedPids pid s x := by
  obtain ⟨t, ht⟩ : ∃ t : Procs, t = { s.note [.load (.zombie pid)] with curr := .zombie pid } :=
    ⟨_, rfl⟩
  have hkill : killProcess pid s = { exitProcess 1 t with curr := s.curr } := by
    rw [ht, killProcess, if_neg h0]
    exact if_pos h
  have hcur : t.current.pid = pid := by
    rw [ht]
    exact h
  have hpids (x : Nat) : ((recordZombie 1 t).zombie x).pid = (s.zombie x).pid := by
    rw [recordZombie_zombie_pid, hcur]
    split_ifs with hx
    · rw [hx, h]
    · rw [ht]
      rfl
  have hcurr : (recordZombie 1 t).curr = .zombie pid := by
    rw [ht]
    rfl
  obtain ⟨u, hu⟩ : ∃ u, u = unqueue (recordZombie 1 t) := ⟨_, rfl⟩
  have hzombies : u.zombies = Function.update s.zombies s.zomCount pid := by
    rw [hu, unqueue_eq, recordZombie_zombies, hcur, ht]
    rfl
  have hcount : u.zomCount = s.zomCount := by
    rw [hu, unqueue_eq, recordZombie_zomCount, ht]
    rfl
  have hreap := reapZombies_pids pid (u.zomCount+1) 0 u (by rw [hu, unqueue_eq, hcurr])
  obtain ⟨q, es, he, -, -⟩ := reapZombies_spec (u.zomCount+1) 0 u
  rw [hkill]
  simp only [exitProcess, if_pos, ← hu]
  refine ⟨?_, ?_, ?_⟩
  · rw [he, hzombies]
  · rw [he, hcount]
  · intro x
    rw [hreap x, hzombies, hcount, killedPids]
    congr 1
    funext y
    rw [hu, unqueue_eq]
    exact hpids y

theorem killProcess_window (pid : Nat) (s : Procs) :
    (killProcess pid s).processCount = s.processCount ∧ (killProcess pid s).curr = s.curr := by
  unfold killProcess
  by_cases h0 : pid = 0
  · rw [if_pos h0]
    exact ⟨rfl, rfl⟩
  · rw [if_neg h0]
    dsimp only
    split_ifs
    · obtain ⟨q, es, he, -, -⟩ := exitProcess_reap
        { s.note [.load (.zombie pid)] with curr := .zombie pid }
      refine ⟨?_, rfl⟩
      rw [he, unqueue_eq]
      exact recordZombie_processCount 1 _
    · exact ⟨rfl, rfl⟩

/-- What is on record after the kill of the zombie in slot `pid`. -/
def leftOnRecord (pid : Nat) (s : Procs) : List Nat :=
  ((List.range (dec16 s.zomCount + 1)).map fun z =>
    killedPids pid s (Function.update s.zombies s.zomCount pid z)).filter (· ≠ 0)

theorem killProcess_recorded (h0 : pid ≠ 0) (h : (s.zombie pid).pid = pid) :
    recorded (killProcess pid s) = leftOnRecord pid s := by
  obtain ⟨hz, hc, hp⟩ := killProcess_found h0 h
  simp only [recorded, leftOnRecord, hz, hc, hp]

/-- The kill of the zombie in slot `pid` leaves each of the others on record once. -/
def Reaped (pid : Nat) (s : Procs) : Prop :=
  (leftOnRecord pid s).Nodup ∧ ∀ q, q ∈ leftOnRecord pid s ↔ q ∈ recorded s ∧ q ≠ pid

/-- The zombies of a table are on record, each under the slot of its own pid. -/
structure Recorded (s : Procs) : Prop where
  nonempty : 1 ≤ s.zomCount
  small : s.zomCount < 2^16
  slots : OwnSlots s.zombies (fun x => (s.zombie x).pid) s.zomCount

theorem filter_cons_of_ne (a : Nat) (X : Multiset Nat) (h : a ≠ 0) :
    (a ::ₘ X).filter (· ≠ 0) = a ::ₘ X.filter (· ≠ 0) := Multiset.filter_cons_of_pos X h

theorem filter_cons_eq_iff (a r : Nat) (X : Multiset Nat) (hr : r ≠ 0) :
    (a ::ₘ X).filter (· ≠ 0) = (r ::ₘ X).filter (· ≠ 0) ↔ a = r := by
  rw [filter_cons_of_ne r X hr]
  by_cases ha : a = 0
  · have hzero : (a ::ₘ X).filter (· ≠ 0) = X.filter (· ≠ 0) :=
      Multiset.filter_cons_of_neg X (not_not.mpr ha)
    rw [hzero]
    constructor
    · intro h
      have := congrArg Multiset.card h
      simp at this
    · rintro rfl
      exact absurd ha hr
  · rw [filter_cons_of_ne a X ha, Multiset.cons_inj_left]

/-- Where the kill of an older zombie still comes out right: the slot above holds the newest
zombie, whose record is lost, or one that makes room for it in turn. -/
def Replaced (j : Nat) (s : Procs) : Prop :=
  let above := (s.zombie (s.zombies j + 1)).pid
  above = s.zombies s.zomCount ∨
  ∃ z, j+2 ≤ z ∧ z < s.zomCount ∧ s.zombies z = above ∧
    (z+1 = s.zomCount ∨ s.zombies z ≠ s.zombies j + 1) ∧
    (s.zombie (s.zombies z + 1)).pid = s.zombies s.zomCount

section Table

variable {s : Procs} {j : Nat}

theorem Recorded.recorded_eq (h : Recorded s) :
    recorded s = ((List.range (s.zomCount+1)).map s.zombies).filter (· ≠ 0) := by
  have hmap : ((List.range (s.zomCount+1)).map fun z => (s.zombie (s.zombies z)).pid) =
      (List.range (s.zomCount+1)).map s.zombies := by
    apply List.map_congr_left
    intro z hz
    exact h.slots.own z (by rw [List.mem_range] at hz; omega)
  rw [recorded, hmap]

theorem Recorded.nodup (h : Recorded s) : (recorded s).Nodup := by
  rw [h.recorded_eq]
  apply List.Nodup.filter
  apply List.Nodup.map_on ?_ List.nodup_range
  intro x hx y hy he
  rw [List.mem_range] at hx hy
  exact h.slots.distinct x (by omega) y (by omega) he

theorem Recorded.dec_count (h : Recorded s) : dec16 s.zomCount + 1 = s.zomCount := by
  have hone := h.nonempty
  have hsmall := h.small
  unfold dec16
  omega

theorem range_split {j n : Nat} (hj : j < n) :
    ((List.range n : List Nat) : Multiset Nat) =
      j ::ₘ (((List.range n).erase j : List Nat) : Multiset Nat) := by
  rw [Multiset.cons_coe, Multiset.coe_eq_coe]
  exact List.perm_cons_erase (List.mem_range.mpr hj)

/-- The records but those of `j` and of the newest. -/
def otherRecords (j : Nat) (s : Procs) : Multiset Nat :=
  (((List.range s.zomCount).erase j : List Nat) : Multiset Nat).map s.zombies

theorem Recorded.erase_eq (h : Recorded s) (hj : j < s.zomCount) (hp : s.zombies j ≠ 0) :
    (((recorded s).erase (s.zombies j) : List Nat) : Multiset Nat) =
      (s.zombies s.zomCount ::ₘ otherRecords j s).filter (· ≠ 0) := by
  have hall : ((recorded s : List Nat) : Multiset Nat) =
      (s.zombies j ::ₘ s.zombies s.zomCount ::ₘ otherRecords j s).filter (· ≠ 0) := by
    rw [h.recorded_eq, ← Multiset.filter_coe, ← Multiset.map_coe, List.range_succ,
      ← Multiset.coe_add, Multiset.map_add, range_split hj, Multiset.map_cons, otherRecords,
      Multiset.coe_singleton, Multiset.map_singleton, Multiset.cons_add, Multiset.add_comm,
      Multiset.singleton_add]
  rw [← Multiset.coe_erase, hall, filter_cons_of_ne _ _ hp, Multiset.erase_cons_head]

/-- A kill is right when what is left is the records without that of the zombie. -/
theorem Recorded.removed_iff (h : Recorded s) (pid : Nat) (l : List Nat) :
    (l.Nodup ∧ ∀ q, q ∈ l ↔ q ∈ recorded s ∧ q ≠ pid) ↔
      (l : Multiset Nat) = ((recorded s).erase pid : List Nat) := by
  have hmem (q : Nat) : q ∈ (recorded s).erase pid ↔ q ∈ recorded s ∧ q ≠ pid := by
    rw [h.nodup.mem_erase_iff, and_comm]
  rw [Multiset.coe_eq_coe]
  constructor
  · rintro ⟨hn, hl⟩
    rw [List.perm_ext_iff_of_nodup hn (h.nodup.erase pid)]
    intro q
    rw [hl q, hmem q]
  · intro hperm
    refine ⟨hperm.nodup_iff.mpr (h.nodup.erase pid), ?_⟩
    intro q
    rw [hperm.mem_iff, hmem q]

/-- What is left on record, with the killed one's own record apart. -/
theorem Recorded.left_eq (h : Recorded s) (hj : j < s.zomCount) :
    ((leftOnRecord (s.zombies j) s : List Nat) : Multiset Nat) =
      (killedPids (s.zombies j) s (s.zombies j) ::ₘ
        (((List.range s.zomCount).erase j : List Nat) : Multiset Nat).map fun z =>
          killedPids (s.zombies j) s (s.zombies z)).filter (· ≠ 0) := by
  have hmap : ((List.range (dec16 s.zomCount + 1)).map fun z => killedPids (s.zombies j) s
        (Function.update s.zombies s.zomCount (s.zombies j) z)) =
      (List.range s.zomCount).map fun z => killedPids (s.zombies j) s (s.zombies z) := by
    rw [h.dec_count]
    apply List.map_congr_left
    intro z hz
    rw [List.mem_range] at hz
    rw [Function.update_of_ne hz.ne]
  rw [leftOnRecord, hmap, ← Multiset.filter_coe, ← Multiset.map_coe, range_split hj,
    Multiset.map_cons]

theorem mem_erase_range {j z n : Nat} (h : z ∈ (List.range n).erase j) : z < n ∧ z ≠ j := by
  rw [List.nodup_range.mem_erase_iff, List.mem_range] at h
  exact h.symm

/-- With no later record of the zombie above, that one takes the place of the newest. -/
theorem Recorded.copied_iff (h : Recorded s) (hj : j < s.zomCount) (hp : s.zombies j ≠ 0)
    (hno : ∀ x, j+2 ≤ x → x < s.zomCount → s.zombies x ≠ (s.zombie (s.zombies j + 1)).pid) :
    ((leftOnRecord (s.zombies j) s : List Nat) : Multiset Nat) =
        ((recorded s).erase (s.zombies j) : List Nat) ↔
      (s.zombie (s.zombies j + 1)).pid = s.zombies s.zomCount := by
  have hkill : killedPids (s.zombies j) s =
      Function.update (fun x => (s.zombie x).pid) (s.zombies j)
        (s.zombie (s.zombies j + 1)).pid := reapPids_copied h.slots hj hno
  have hrest : ((((List.range s.zomCount).erase j : List Nat) : Multiset Nat).map fun z =>
      killedPids (s.zombies j) s (s.zombies z)) = otherRecords j s := by
    apply Multiset.map_congr rfl
    intro z hz
    obtain ⟨hlt, hne⟩ := mem_erase_range (Multiset.mem_coe.mp hz)
    rw [hkill, Function.update_of_ne (h.slots.ne hlt.le hj.le hne)]
    exact h.slots.own z hlt.le
  have hlast : s.zombies s.zomCount ≠ 0 := h.slots.set _ le_rfl h.nonempty
  rw [h.left_eq hj, hrest, h.erase_eq hj hp, filter_cons_eq_iff _ _ _ hlast, hkill,
    Function.update_self]

/-- With a later record of the zombie above, that one's slot has to hold the newest. -/
theorem Recorded.chained_iff {z : Nat} (h : Recorded s) (hp : s.zombies j ≠ 0) (hjz : j+2 ≤ z)
    (hz : z < s.zomCount) (hr : s.zombies z = (s.zombie (s.zombies j + 1)).pid) :
    ((leftOnRecord (s.zombies j) s : List Nat) : Multiset Nat) =
        ((recorded s).erase (s.zombies j) : List Nat) ↔
      (z+1 = s.zomCount ∨ s.zombies z ≠ s.zombies j + 1) ∧
        (s.zombie (s.zombies z + 1)).pid = s.zombies s.zomCount := by
  have hj : j < s.zomCount := by omega
  have hchain (x : Nat) (hx : x < s.zomCount) := reapPids_chained h.slots hjz hz hr x hx
  have hlast : s.zombies s.zomCount ≠ 0 := h.slots.set _ le_rfl h.nonempty
  have hzne : s.zombies z ≠ 0 := h.slots.set z hz.le (by omega)
  have hzlast : s.zombies z ≠ s.zombies s.zomCount := h.slots.ne hz.le le_rfl hz.ne
  have hzmem : z ∈ (List.range s.zomCount).erase j := by
    rw [List.nodup_range.mem_erase_iff, List.mem_range]
    exact ⟨by omega, hz⟩
  obtain ⟨B, hB⟩ : ∃ B, B = ((List.range s.zomCount).erase j).erase z := ⟨_, rfl⟩
  have hsplit : (((List.range s.zomCount).erase j : List Nat) : Multiset Nat) =
      z ::ₘ (B : Multiset Nat) := by
    rw [hB, Multiset.cons_coe, Multiset.coe_eq_coe]
    exact List.perm_cons_erase hzmem
  have hBmem {x : Nat} (hx : x ∈ B) : x < s.zomCount ∧ x ≠ j ∧ x ≠ z := by
    rw [hB, (List.nodup_range.erase j).mem_erase_iff] at hx
    obtain ⟨h1, h2⟩ := mem_erase_range hx.2
    exact ⟨h1, h2, hx.1⟩
  have hrest : ((B : Multiset Nat).map fun x => killedPids (s.zombies j) s (s.zombies x)) =
      (B : Multiset Nat).map s.zombies := by
    apply Multiset.map_congr rfl
    intro x hx
    obtain ⟨h1, h2, h3⟩ := hBmem (Multiset.mem_coe.mp hx)
    exact (hchain x h1).trans (by rw [if_neg h2, if_neg h3])
  have hzslot : killedPids (s.zombies j) s (s.zombies z) =
      if s.zombies z + 1 = s.zombies j then s.zombies z
      else (s.zombie (s.zombies z + 1)).pid :=
    (hchain z hz).trans (by rw [if_neg (by omega), if_pos rfl])
  have hjslot : killedPids (s.zombies j) s (s.zombies j) =
      if z+1 < s.zomCount ∧ s.zombies z = s.zombies j + 1 then (s.zombie (s.zombies z + 1)).pid
      else s.zombies z :=
    (hchain j hj).trans (by rw [if_pos rfl])
  rw [h.left_eq hj, h.erase_eq hj hp, otherRecords, hsplit, Multiset.map_cons, Multiset.map_cons,
    hrest, hzslot, hjslot]
  by_cases hc : z+1 < s.zomCount ∧ s.zombies z = s.zombies j + 1
  · -- the slot above is overwritten before it is copied down once more
    have hnot : ¬s.zombies z + 1 = s.zombies j := by omega
    rw [if_pos hc, if_neg hnot]
    constructor
    · intro he
      have hzin : s.zombies z ∈ (s.zombies s.zomCount ::ₘ s.zombies z ::ₘ
          (B : Multiset Nat).map s.zombies).filter (· ≠ 0) :=
        Multiset.mem_filter.mpr ⟨by simp, hzne⟩
      have hlin : s.zombies s.zomCount ∈ (s.zombies s.zomCount ::ₘ s.zombies z ::ₘ
          (B : Multiset Nat).map s.zombies).filter (· ≠ 0) :=
        Multiset.mem_filter.mpr ⟨by simp, hlast⟩
      rw [← he, Multiset.mem_filter, Multiset.mem_cons, Multiset.mem_cons, Multiset.mem_map]
        at hzin hlin
      have h1 : s.zombies z = (s.zombie (s.zombies z + 1)).pid := by
        rcases hzin.1 with h | h | ⟨x, hx, hxe⟩
        · exact h
        · exact h
        · obtain ⟨hx1, -, hx3⟩ := hBmem (Multiset.mem_coe.mp hx)
          exact absurd hxe (h.slots.ne hx1.le hz.le hx3)
      have h2 : s.zombies s.zomCount = (s.zombie (s.zombies z + 1)).pid := by
        rcases hlin.1 with h | h | ⟨x, hx, hxe⟩
        · exact h
        · exact h
        · obtain ⟨hx1, -, -⟩ := hBmem (Multiset.mem_coe.mp hx)
          exact absurd hxe (h.slots.ne hx1.le le_rfl hx1.ne)
      exact absurd (h1.trans h2.symm) hzlast
    · rintro ⟨h1 | h1, -⟩
      · omega
      · exact absurd hc.2 h1
  · have hside : z+1 = s.zomCount ∨ s.zombies z ≠ s.zombies j + 1 := by
      by_cases he : z+1 = s.zomCount
      · exact Or.inl he
      · exact Or.inr fun hs => hc ⟨by omega, hs⟩
    rw [if_neg hc, Multiset.cons_swap (s.zombies s.zomCount), filter_cons_of_ne _ _ hzne,
      filter_cons_of_ne _ _ hzne, Multiset.cons_inj_right, filter_cons_eq_iff _ _ _ hlast]
    by_cases hs : s.zombies z + 1 = s.zombies j
    · have hown : (s.zombie (s.zombies z + 1)).pid = s.zombies j := by
        rw [hs]
        exact h.slots.own j hj.le
      have hjlast : s.zombies j ≠ s.zombies s.zomCount := h.slots.ne hj.le le_rfl hj.ne
      rw [if_pos hs, hown]
      exact ⟨fun he => absurd he hzlast, fun he => absurd he.2 hjlast⟩
    · rw [if_neg hs]
      exact ⟨fun he => ⟨hside, he⟩, fun he => he.2⟩

theorem Recorded.left_newest (h : Recorded s) :
    ((leftOnRecord (s.zombies s.zomCount) s : List Nat) : Multiset Nat) =
      ((recorded s).erase (s.zombies s.zomCount) : List Nat) := by
  have hlast : s.zombies s.zomCount ≠ 0 := h.slots.set _ le_rfl h.nonempty
  have hmap : ((List.range (dec16 s.zomCount + 1)).map fun z =>
      killedPids (s.zombies s.zomCount) s
        (Function.update s.zombies s.zomCount (s.zombies s.zomCount) z)) =
      (List.range s.zomCount).map s.zombies := by
    rw [h.dec_count]
    apply List.map_congr_left
    intro z hz
    rw [List.mem_range] at hz
    rw [Function.update_eq_self, killedPids, reapPids_newest h.slots,
      Function.update_of_ne (h.slots.ne hz.le le_rfl hz.ne)]
    exact h.slots.own z hz.le
  have hfilter : ((List.range (s.zomCount+1)).map s.zombies).filter (· ≠ 0) =
      ((List.range s.zomCount).map s.zombies).filter (· ≠ 0) ++ [s.zombies s.zomCount] := by
    simp [List.range_succ, hlast]
  have hperm := (List.perm_append_singleton (s.zombies s.zomCount)
    (((List.range s.zomCount).map s.zombies).filter (· ≠ 0))).erase (s.zombies s.zomCount)
  rw [List.erase_cons_head] at hperm
  rw [leftOnRecord, hmap, h.recorded_eq, hfilter, Multiset.coe_eq_coe]
  exact hperm.symm

end Table

/-- kill_process never takes a process off the ready window and looks only into the zombie slot
of the pid. Of the recorded zombies it takes off the newest; for an older one it drops the
newest record as well, and only what the slots above hold can make up for that. -/
theorem killProcess_removes_iff (pid : Nat) (s : Procs) (h0 : 0 < pid) :
    (KillRemoves pid s ↔ ¬Live pid s ∧
      if pid ∈ recorded s then (s.zombie pid).pid = pid ∧ Reaped pid s
      else (s.zombie pid).pid ≠ pid) ∧
    (Recorded s → ∀ j ≤ s.zomCount, s.zombies j = pid →
      (Reaped pid s ↔ j = s.zomCount ∨ j < s.zomCount ∧ Replaced j s)) := by
  have hwin := killProcess_window pid s
  have hne : pid ≠ 0 := by omega
  constructor
  · constructor
    · rintro ⟨-, hlive, hrec, hnone⟩
      have hnl : ¬Live pid s := by
        intro hl
        -- the window is as long as before
        have hlen := congrArg List.length (hlive hl)
        have hpos := List.length_pos_of_mem hl
        rw [List.length_erase_of_mem hl] at hlen
        simp only [window, List.length_map, List.length_range, hwin.1] at hlen hpos
        omega
      refine ⟨hnl, ?_⟩
      split_ifs with hr
      · have hz : (s.zombie pid).pid = pid := by
          by_contra hz
          have hsame : recorded (killProcess pid s) = recorded s := by
            have h := killProcess_missing hz
            unfold Unchanged at h
            have h := congrArg recorded h
            exact h
          have := ((hrec hr).2 pid).mp (hsame ▸ hr)
          exact this.2 rfl
        have hdone := hrec hr
        rw [ZombieRemoved, killProcess_recorded hne hz] at hdone
        exact ⟨hz, hdone⟩
      · intro hz
        have hcount := congrArg Procs.zomCount (hnone hnl hr)
        have hdec : (killProcess pid s).zomCount = dec16 s.zomCount :=
          (killProcess_found hne hz).2.1
        change (killProcess pid s).zomCount = s.zomCount at hcount
        rw [hdec, dec16] at hcount
        omega
    · rintro ⟨hnl, hcond⟩
      refine ⟨hwin.2, fun hl => absurd hl hnl, ?_, ?_⟩
      · intro hr
        rw [if_pos hr] at hcond
        rw [ZombieRemoved, killProcess_recorded hne hcond.1]
        exact hcond.2
      · intro _ hr
        rw [if_neg hr] at hcond
        exact killProcess_missing hcond
  · rintro hrec j hj rfl
    rw [Reaped, hrec.removed_iff]
    rcases Nat.eq_or_lt_of_le hj with rfl | hlt
    · exact ⟨fun _ => Or.inl rfl, fun _ => hrec.left_newest⟩
    · have hiff : (j = s.zomCount ∨ j < s.zomCount ∧ Replaced j s) ↔ Replaced j s :=
        ⟨fun h => (h.resolve_left hlt.ne).2, fun h => Or.inr ⟨hlt, h⟩⟩
      rw [hiff]
      by_cases hex : ∃ z, j+2 ≤ z ∧ z < s.zomCount ∧
          s.zombies z = (s.zombie (s.zombies j + 1)).pid
      · obtain ⟨z, hjz, hz, hr⟩ := hex
        rw [hrec.chained_iff hne hjz hz hr]
        constructor
        · rintro ⟨h1, h2⟩
          exact Or.inr ⟨z, hjz, hz, hr, h1, h2⟩
        · rintro (h1 | ⟨y, -, hy, hyr, h1, h2⟩)
          · exact absurd (hr.trans h1) (hrec.slots.ne hz.le le_rfl hz.ne)
          · obtain rfl := hrec.slots.distinct y hy.le z hz.le (hyr.trans hr.symm)
            exact ⟨h1, h2⟩
      · have hno : ∀ x, j+2 ≤ x → x < s.zomCount →
            s.zombies x ≠ (s.zombie (s.zombies j + 1)).pid :=
          fun x h1 h2 h3 => hex ⟨x, h1, h2, h3⟩
        rw [hrec.copied_iff hlt hne hno]
        constructor
        · exact Or.inl
        · rintro (h1 | ⟨y, hjy, hy, hyr, -⟩)
          · exact h1
          · exact absurd hyr (hno y hjy hy)

/-- The shell alone in the queue, and its children 2, 3 and 4 exited in this order with
status 0. -/
def threeZombies : Procs :=
  { Procs.init with
    ready := fun i => if i = 0 then ⟨1, 0, .ready, 0, 0⟩ else .zero
    zombie := fun k => if 2 ≤ k ∧ k ≤ 4 then ⟨k, 1, .zombie, 0, 0⟩ else .zero
    zombies := fun z => if 1 ≤ z ∧ z ≤ 3 then z+1 else 0
    processCount := 1
    zomCount := 3
    curr := .ready 0 }

theorem threeZombies_recorded : Recorded threeZombies where
  nonempty := by decide
  small := by decide
  slots := by
    constructor
    · intro z hz
      have hz : z ≤ 3 := hz
      interval_cases z <;> rfl
    · intro z hz h1
      have hz : z ≤ 3 := hz
      interval_cases z <;> decide
    · intro y hy z hz he
      have hy : y ≤ 3 := hy
      have hz : z ≤ 3 := hz
      interval_cases y <;> interval_cases z <;> first | rfl | simp [threeZombies] at he

theorem killProcess_removes_newest : 0 < 4 ∧ KillRemoves 4 threeZombies := by
  obtain ⟨hiff, hnewest⟩ := killProcess_removes_iff 4 threeZombies (by decide)
  refine ⟨by decide, hiff.mpr ⟨by unfold Live; decide, ?_⟩⟩
  rw [if_pos (by decide)]
  exact ⟨rfl, (hnewest threeZombies_recorded 3 le_rfl rfl).mpr (Or.inl rfl)⟩

/-- A live child stays in the window, and the kill of the oldest zombie loses the newest and
records the middle one twice. -/
theorem killProcess_misses :
    Live 2 (shellAndChild (.ready 0)) ∧
    window (killProcess 2 (shellAndChild (.ready 0))) = window (shellAndChild (.ready 0)) ∧
    recorded threeZombies = [2, 3, 4] ∧ recorded (killProcess 2 threeZombies) = [3, 3] := by
  unfold Live
  decide

end Kill

end SBUnix
