import SBUnix.Process.Table

namespace SBUnix

def stackSize : Nat := 256

/-- `struct PCB`; its kernel stack is the start of the page it lies in. -/
structure Pcb where
  rip : Nat
  rsp : Nat
  pid : Nat
  procState : ProcState
  exitStatus : Int
  next : Option Nat
  deriving DecidableEq, Repr

/-- The kernel threads: the PCBs by address, and the globals about them. -/
structure Threads where
  pcb : Nat → Pcb
  processes : Option Nat
  procCountInList : Nat
  readyProcs : Nat
  pId : Nat

/-- `p->next = n` -/
def Threads.link (s : Threads) (p : Nat) (n : Option Nat) : Threads :=
  { s with pcb := Function.update s.pcb p { s.pcb p with next := n } }

/-- `none` is a dereference of NULL. -/
def addToReadyList (p : Nat) (s : Threads) : Option Threads :=
  let s := { s with procCountInList := inc16 s.procCountInList }
  if s.procCountInList = 1 then some ({ s with processes := some p }.link p (some p))
  else s.processes.map fun h => s.link h (some p)

/-- init_pcb in the zeroed page that page_alloc returned. -/
def initPcb (t page : Nat) (s : Threads) : Threads := { s with
  pcb := Function.update s.pcb page
    ⟨t, page + 8*(stackSize-2), s.pId, .ready, 0, none⟩
  pId := inc16 s.pId }

def createPcb (t page : Nat) (s : Threads) : Option Threads :=
  let s := initPcb t page s
  addToReadyList page { s with readyProcs := inc16 s.readyProcs }

/-- The PCB reached after `k` times `->next` from processes. -/
def Threads.nth (s : Threads) : Nat → Option Nat
  | 0 => s.processes
  | k+1 => (s.nth k).bind fun p => (s.pcb p).next

/-- Following next from processes visits each PCB once and comes back. -/
def Ring (ps : List Nat) (s : Threads) : Prop :=
  ((List.range ps.length).map s.nth).Perm (ps.map some) ∧ s.nth ps.length = s.processes

instance (ps : List Nat) (s : Threads) : Decidable (Ring ps s) :=
  inferInstanceAs (Decidable (_ ∧ _))

def addAll (ps : List Nat) (s : Threads) : Option Threads :=
  ps.foldlM (fun s p => addToReadyList p s) s

section Add

variable {s : Threads} {p : Nat}

theorem link_pcb_self (s : Threads) (p : Nat) (n : Option Nat) :
    ((s.link p n).pcb p).next = n := by
  simp [Threads.link]

theorem link_pcb_of_ne {q : Nat} (h : q ≠ p) (s : Threads) (n : Option Nat) :
    (s.link p n).pcb q = s.pcb q := by
  simp [Threads.link, h]

theorem addToReadyList_first (h : inc16 s.procCountInList = 1) :
    addToReadyList p s = some ({ s with
      procCountInList := inc16 s.procCountInList, processes := some p }.link p (some p)) := by
  rw [addToReadyList]
  exact if_pos h

theorem addToReadyList_later (h : inc16 s.procCountInList ≠ 1) {q : Nat}
    (hq : s.processes = some q) :
    addToReadyList p s = some ({ s with procCountInList := inc16 s.procCountInList }.link q
      (some p)) := by
  rw [addToReadyList]
  simp only [if_neg h, hq, Option.map_some]

/-- What a call leaves behind once there is a head: the new PCB is the list on its own, or
hangs behind that head. -/
theorem addToReadyList_cases (p : Nat) {q : Nat} (hq : s.processes = some q) :
    ∃ t, addToReadyList p s = some t ∧
      (t.processes = some p ∧ (t.pcb p).next = some p ∧ (∀ r, r ≠ p → t.pcb r = s.pcb r) ∨
      t.processes = some q ∧ (t.pcb q).next = some p ∧ ∀ r, r ≠ q → t.pcb r = s.pcb r) := by
  by_cases h : inc16 s.procCountInList = 1
  · exact ⟨_, addToReadyList_first h, Or.inl ⟨rfl, link_pcb_self _ p _,
      fun r hr => link_pcb_of_ne hr _ _⟩⟩
  · exact ⟨_, addToReadyList_later h hq, Or.inr ⟨hq, link_pcb_self _ q _,
      fun r hr => link_pcb_of_ne hr _ _⟩⟩

end Add

/-- The calls so far were for the PCBs `used`: one of them is the head, and no other PCB has
been touched since `s`. -/
structure Listed (used : List Nat) (s t : Threads) : Prop where
  head : ∃ h ∈ used, t.processes = some h
  others : ∀ q, q ∉ used → t.pcb q = s.pcb q

theorem Listed.add {used : List Nat} {s t : Threads} (h : Listed used s t) (p : Nat) :
    ∃ u, addToReadyList p t = some u ∧ Listed (used++[p]) s u := by
  obtain ⟨q, hq, hproc⟩ := h.head
  obtain ⟨u, hu, hcases⟩ := addToReadyList_cases p hproc
  refine ⟨u, hu, ?_, ?_⟩
  · rcases hcases with ⟨hp, -⟩ | ⟨hp, -⟩
    · exact ⟨p, by simp, hp⟩
    · exact ⟨q, List.mem_append_left _ hq, hp⟩
  · intro r hr
    rw [List.mem_append, not_or, List.mem_singleton] at hr
    have hne : r ≠ q := fun e => hr.1 (e ▸ hq)
    rw [← h.others r hr.1]
    rcases hcases with ⟨-, -, hsame⟩ | ⟨-, -, hsame⟩
    · exact hsame r hr.2
    · exact hsame r hne

theorem addAll_cons (p : Nat) (ps : List Nat) (s : Threads) :
    addAll (p::ps) s = (addToReadyList p s).bind (addAll ps) := rfl

theorem addAll_append (ps qs : List Nat) (s : Threads) :
    addAll (ps++qs) s = (addAll ps s).bind (addAll qs) := by
  induction ps generalizing s with
  | nil => rfl
  | cons p ps ih =>
    rw [List.cons_append, addAll_cons, addAll_cons, Option.bind_assoc]
    exact congrArg _ (funext ih)

theorem Listed.addAll {used : List Nat} {s t : Threads} (h : Listed used s t) (ps : List Nat) :
    ∃ u, addAll ps t = some u ∧ Listed (used++ps) s u := by
  induction ps generalizing used t with
  | nil => exact ⟨t, rfl, by rwa [List.append_nil]⟩
  | cons p ps ih =>
    obtain ⟨u, hu, hl⟩ := h.add p
    obtain ⟨v, hv, hlv⟩ := ih hl
    refine ⟨v, by rw [addAll_cons, hu, Option.bind_some, hv], ?_⟩
    rwa [List.append_assoc, List.singleton_append] at hlv

/-- The first call makes a ring of one. -/
theorem addToReadyList_ring (s : Threads) (p : Nat) (h0 : s.procCountInList = 0) :
    ∃ t, addToReadyList p s = some t ∧ Ring [p] t ∧ Listed [p] s t := by
  have hone : inc16 s.procCountInList = 1 := by rw [h0]; rfl
  refine ⟨_, addToReadyList_first hone, ⟨?_, ?_⟩, ⟨p, List.mem_cons_self, rfl⟩, ?_⟩
  · exact List.Perm.refl _
  · change (some p).bind _ = some p
    exact link_pcb_self _ p _
  · intro q hq
    have hne : q ≠ p := by simpa using hq
    exact link_pcb_of_ne hne _ _

theorem nth_const {s : Threads} {p : Nat} (hp : s.processes = some p)
    (hn : (s.pcb p).next = some p) (k : Nat) : s.nth k = some p := by
  induction k with
  | zero => exact hp
  | succ k ih => rw [Threads.nth, ih, Option.bind_some, hn]

/-- The call for a second or later PCB never closes a ring: the PCB it adds has no next, or
is all there is. -/
theorem not_ring_of_add {used : List Nat} {s t u : Threads} {p : Nat} (hl : Listed used s t)
    (hnd : (used++[p]).Nodup) (hnull : (s.pcb p).next = none) (hu : addToReadyList p t = some u) :
    ¬Ring (used++[p]) u := by
  intro hring
  obtain ⟨q, hq, hproc⟩ := hl.head
  have hp : p ∉ used := by
    intro h
    exact (List.nodup_append.mp hnd).2.2 p h p List.mem_cons_self rfl
  obtain ⟨k, hk⟩ : ∃ k, (used++[p]).length = k+2 := by
    have := List.length_pos_of_mem hq
    exact ⟨used.length-1, by rw [List.length_append, List.length_singleton]; omega⟩
  obtain ⟨hperm, hback⟩ := hring
  rw [hk] at hperm hback
  obtain ⟨u', hu', hcases⟩ := addToReadyList_cases p hproc
  rw [hu] at hu'
  cases hu'
  rcases hcases with ⟨hhead, hnext, -⟩ | ⟨hhead, hnext, hsame⟩
  · -- a list of its own: position 0 and 1 are the same PCB
    have hdup : ((List.range (k+2)).map u.nth).Nodup :=
      hperm.symm.nodup (hnd.map (Option.some_injective _))
    rw [List.range_succ_eq_map, List.range_succ_eq_map] at hdup
    simp [nth_const hhead hnext] at hdup
  · have hqp : p ≠ q := fun e => hp (e ▸ hq)
    have h1 : u.nth 1 = some p := by
      rw [Threads.nth, Threads.nth, hhead, Option.bind_some, hnext]
    have h2 : u.nth 2 = none := by
      rw [Threads.nth, h1, Option.bind_some, hsame p hqp, hl.others p hp, hnull]
    cases k with
    | zero =>
      rw [h2, hhead] at hback
      cases hback
    | succ k =>
      have hmem : u.nth 2 ∈ (List.range (k+1+2)).map u.nth :=
        List.mem_map_of_mem (List.mem_range.mpr (by omega))
      have := hperm.subset hmem
      rw [h2] at this
      simp at this

/-- Any number of calls for distinct PCBs whose next is NULL: the list closes to a ring
through all of them exactly when there is one. -/
theorem addAll_ring_iff (s : Threads) (ps : List Nat) (hne : ps ≠ []) (hnd : ps.Nodup)
    (h0 : s.procCountInList = 0) (hnull : ∀ p ∈ ps, (s.pcb p).next = none) :
    ∃ t, addAll ps s = some t ∧ (Ring ps t ↔ ps.length = 1) := by
  obtain ⟨p, qs, rfl⟩ := List.exists_cons_of_ne_nil hne
  obtain ⟨t, ht, hring, hl⟩ := addToReadyList_ring s p h0
  rcases List.eq_nil_or_concat qs with rfl | ⟨rs, q, rfl⟩
  · exact ⟨t, by rw [addAll_cons, ht]; rfl, iff_of_true hring rfl⟩
  · rw [List.concat_eq_append] at hnd hnull ⊢
    obtain ⟨u, hu, hlu⟩ := hl.addAll rs
    obtain ⟨v, hv, -⟩ := hlu.add q
    refine ⟨v, ?_, iff_of_false ?_ (by simp)⟩
    · rw [addAll_cons, ht, Option.bind_some, addAll_append, hu, Option.bind_some, addAll_cons, hv]
      rfl
    · exact not_ring_of_add hlu hnd (hnull q (by simp)) hv

/-- All PCBs zeroed, no thread yet. -/
def noThreads : Threads := ⟨fun _ => ⟨0, 0, 0, .wait, 0, none⟩, none, 0, 0, 0⟩

theorem addAll_ring_single :
    [0x1000].Nodup ∧ ∃ t, addAll [0x1000] noThreads = some t ∧
      (Ring [0x1000] t ↔ [0x1000].length = 1) :=
  ⟨by decide, addAll_ring_iff noThreads [0x1000] (by decide) (by decide) rfl
    (fun _ _ => rfl)⟩

/-- The two threads of boot: the second has no next. -/
theorem createPcb_breaks_ring :
    ∃ t, (createPcb 7 0x1000 noThreads).bind (createPcb 8 0x2000) = some t ∧
      t.nth 1 = some 0x2000 ∧ t.nth 2 = none ∧ ¬Ring [0x1000, 0x2000] t :=
  ⟨_, rfl, rfl, rfl, by decide⟩

end SBUnix
