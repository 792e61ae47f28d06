import SBUnix.Process.Threads

namespace SBUnix

/-- What a call of yield comes to: another thread runs, the shell is started anew, or the call
returns. -/
inductive Yielded where
  | dispatches (next : Nat)
  | restartsShell
  | returns
  deriving DecidableEq, Repr

/-- `p->proc_state = st` -/
def Threads.setState (s : Threads) (p : Nat) (st : ProcState) : Threads :=
  { s with pcb := Function.update s.pcb p { s.pcb p with procState := st } }

/-- schedule, `none` where it returns 0. Its dispatch saves the stack pointer `sp` where the pid
of `curr` is. -/
def schedule (sp curr next : Nat) (s : Threads) : Option Threads :=
  if (s.pcb next).procState ≠ .ready then none
  else if next = curr then none
  else
    let s := (s.setState next .running).setState curr .ready
    some { s with pcb := Function.update s.pcb curr { s.pcb curr with pid := sp } }

/-- yield up to the dispatch, which returns only if another thread dispatches back; `none` is a
dereference of NULL. -/
def yield (sp : Nat) (s : Threads) : Option (Yielded × Threads) :=
  if 1 < s.readyProcs then do
    let p ← s.processes
    let q ← (s.pcb p).next
    match schedule sp p q s with
    | some t => some (.dispatches q, t)
    | none => some (.restartsShell, s)
  else some (.returns, s)

/-- Calls of yield one after the other, each at its own depth of the stack. -/
def yields : List Nat → Threads → Option (List Yielded × Threads)
  | [], s => some ([], s)
  | sp::sps, s => do
    let (y, t) ← yield sp s
    let (ys, u) ← yields sps t
    some (y::ys, u)

/-- create_pcb for each of these functions, in the page that page_alloc returned for it. -/
def createAll (ts : List (Nat × Nat)) (s : Threads) : Option Threads :=
  ts.foldlM (fun s t => createPcb t.1 t.2 s) s

/-- The threads after `n` calls of create_pcb: the first is the head and the newest hangs behind
it; all are READY. -/
structure Created (n first newest : Nat) (s : Threads) : Prop where
  head : s.processes = some first
  behind : (s.pcb first).next = some newest
  ready : (s.pcb newest).procState = .ready
  listed : s.procCountInList = n
  count : s.readyProcs = n

section Create

variable {s : Threads} {n first newest : Nat}

theorem inc16_eq {n : Nat} (h : n + 1 < 2^16) : inc16 n = n+1 := Nat.mod_eq_of_lt h

theorem link_rip (s : Threads) (p : Nat) (n : Option Nat) (q : Nat) :
    ((s.link p n).pcb q).rip = (s.pcb q).rip := by
  by_cases h : q = p
  · simp [Threads.link, h]
  · rw [link_pcb_of_ne h]

theorem addToReadyList_rip {p : Nat} {u : Threads} (h : addToReadyList p s = some u) (q : Nat) :
    (u.pcb q).rip = (s.pcb q).rip := by
  rw [addToReadyList] at h
  dsimp only at h
  split_ifs at h
  · obtain rfl := Option.some.inj h
    exact link_rip _ p _ q
  · obtain ⟨x, -, rfl⟩ := Option.map_eq_some_iff.mp h
    exact link_rip _ x _ q

/-- Each thread starts at the function it was created for. -/
theorem createPcb_rip {t page : Nat} {u : Threads} (h : createPcb t page s = some u) (q : Nat) :
    (u.pcb q).rip = if q = page then t else (s.pcb q).rip := by
  rw [addToReadyList_rip h q]
  by_cases hq : q = page <;> simp [initPcb, hq]

theorem createPcb_first (t page : Nat) (h : s.procCountInList = 0) (hr : s.readyProcs = 0) :
    ∃ u, createPcb t page s = some u ∧ Created 1 page page u := by
  have hone : inc16 (0 : Nat) = 1 := rfl
  rw [createPcb, addToReadyList_first]
  · refine ⟨_, rfl, rfl, link_pcb_self _ _ _, ?_, ?_, ?_⟩
    · simp [Threads.link, initPcb]
    · exact (congrArg inc16 h).trans hone
    · exact (congrArg inc16 hr).trans hone
  · exact (congrArg inc16 h).trans hone

theorem Created.create (h : Created n first newest s) (t page : Nat) (hn : 1 ≤ n)
    (hb : n + 1 < 2^16) (hne : page ≠ first) :
    ∃ u, createPcb t page s = some u ∧ Created (n+1) first page u := by
  have hl : inc16 s.procCountInList = n+1 := (congrArg inc16 h.listed).trans (inc16_eq hb)
  have hr : inc16 s.readyProcs = n+1 := (congrArg inc16 h.count).trans (inc16_eq hb)
  rw [createPcb, addToReadyList_later]
  · refine ⟨_, rfl, h.head, link_pcb_self _ first _, ?_, hl, hr⟩
    rw [link_pcb_of_ne hne]
    simp [initPcb]
  · change inc16 s.procCountInList ≠ 1
    rw [hl]
    omega
  · exact h.head

theorem Created.createAll (ts : List (Nat × Nat)) (h : Created n first newest s) (hn : 1 ≤ n)
    (hb : n + ts.length < 2^16) (hne : ∀ t ∈ ts, t.2 ≠ first) :
    ∃ u, createAll ts s = some u ∧
      Created (n + ts.length) first ((ts.getLast?.map Prod.snd).getD newest) u := by
  induction ts generalizing s n newest with
  | nil => exact ⟨s, rfl, h⟩
  | cons t ts ih =>
    rw [List.length_cons] at hb
    obtain ⟨u, hu, hc⟩ := h.create t.1 t.2 hn (by omega) (hne t List.mem_cons_self)
    obtain ⟨v, hv, hd⟩ := ih hc (by omega) (by omega)
      (fun x hx => hne x (List.mem_cons_of_mem _ hx))
    refine ⟨v, ?_, ?_⟩
    · change (createPcb t.1 t.2 s).bind _ = _
      rw [hu]
      exact hv
    · rw [List.length_cons, ← Nat.add_assoc, Nat.add_right_comm]
      cases ts with
      | nil => exact hd
      | cons x xs => simpa [List.getLast?_cons] using hd

end Create

/-- After the first dispatch: the thread behind the head runs, and there it stays. -/
structure Handed (first second : Nat) (s : Threads) : Prop where
  head : s.processes = some first
  behind : (s.pcb first).next = some second
  running : (s.pcb second).procState = .running
  count : 1 < s.readyProcs

/-- The list and its counters are as they were. -/
structure SameList (s t : Threads) : Prop where
  processes : t.processes = s.processes
  next : ∀ q, (t.pcb q).next = (s.pcb q).next
  listed : t.procCountInList = s.procCountInList
  count : t.readyProcs = s.readyProcs

section Yields

variable {s : Threads} {n first newest : Nat}

theorem Created.yield (h : Created n first newest s) (hn : 2 ≤ n) (hne : newest ≠ first)
    (sp : Nat) :
    ∃ t, yield sp s = some (.dispatches newest, t) ∧ Handed first newest t ∧ SameList s t := by
  have hcount : 1 < s.readyProcs := by
    rw [h.count]
    omega
  have hready : ¬(s.pcb newest).procState ≠ .ready := not_not.mpr h.ready
  simp only [SBUnix.yield, if_pos hcount, h.head, h.behind, Option.bind_eq_bind,
    Option.bind_some, schedule, if_neg hready, if_neg hne]
  refine ⟨_, rfl, ⟨h.head, ?_, ?_, hcount⟩, rfl, ?_, rfl, rfl⟩
  · simp [Threads.setState, Ne.symm hne, h.behind]
  · simp [Threads.setState, hne]
  · intro q
    by_cases h1 : q = first <;> by_cases h2 : q = newest <;> simp_all [Threads.setState]

theorem yield_rip {sp : Nat} {y : Yielded} {t : Threads} (h : SBUnix.yield sp s = some (y, t))
    (q : Nat) : (t.pcb q).rip = (s.pcb q).rip := by
  rw [SBUnix.yield] at h
  split_ifs at h with hr
  · simp only [Option.bind_eq_bind, Option.bind_eq_some_iff] at h
    obtain ⟨p, -, x, -, h⟩ := h
    cases hs : schedule sp p x s with
    | none =>
      rw [hs] at h
      cases h
      rfl
    | some u =>
      rw [hs] at h
      cases h
      rw [schedule] at hs
      split_ifs at hs
      obtain rfl := Option.some.inj hs
      by_cases h1 : q = p <;> by_cases h2 : q = x <;> simp_all [Threads.setState]
  · cases h
    rfl

/-- With the second thread RUNNING, schedule refuses it for good. -/
theorem Handed.yield {first second : Nat} (h : Handed first second s) (sp : Nat) :
    yield sp s = some (.restartsShell, s) := by
  have hstate : (s.pcb second).procState ≠ .ready := by
    rw [h.running]
    exact nofun
  simp only [SBUnix.yield, if_pos h.count, h.head, h.behind, Option.bind_eq_bind,
    Option.bind_some, schedule, if_pos hstate]

theorem Handed.yields {first second : Nat} (h : Handed first second s) (sps : List Nat) :
    yields sps s = some (List.replicate sps.length .restartsShell, s) := by
  induction sps with
  | nil => rfl
  | cons sp sps ih => simp [SBUnix.yields, h.yield sp, ih, List.replicate_succ]

/-- A thread on its own is never counted as more than one. -/
theorem Created.yields_alone (h : Created 1 first newest s) (sps : List Nat) :
    yields sps s = some (List.replicate sps.length .returns, s) := by
  have hyield (sp : Nat) : SBUnix.yield sp s = some (.returns, s) := by
    rw [SBUnix.yield, if_neg (by rw [h.count]; omega)]
  induction sps with
  | nil => rfl
  | cons sp sps ih => simp [yields, hyield, ih, List.replicate_succ]

/-- Of two or more threads, fewer than the counters can count, the first yield goes to the newest
and every later one starts the shell anew, with the list as it was created: the threads in between
never run, and none runs twice. A thread on its own gets every call back. -/
theorem yields_created (t page : Nat) (ts : List (Nat × Nat)) (s : Threads)
    (hlen : ts.length + 1 < 2^16) (hpages : ∀ x ∈ ts, x.2 ≠ page)
    (h0 : s.procCountInList = 0) (hr : s.readyProcs = 0) :
    ∃ u, createAll ((t, page)::ts) s = some u ∧
      (ts = [] → ∀ sps, yields sps u = some (List.replicate sps.length .returns, u)) ∧
      ∀ (hne : ts ≠ []) (sp : Nat) (sps : List Nat), ∃ v, SameList u v ∧
        yields (sp::sps) u =
          some (.dispatches (ts.getLast hne).2 :: List.replicate sps.length .restartsShell, v) := by
  obtain ⟨u, hu, hc⟩ := createPcb_first t page h0 hr
  obtain ⟨v, hv, hd⟩ := hc.createAll ts le_rfl (by omega) hpages
  refine ⟨v, ?_, ?_, ?_⟩
  · change (createPcb t page s).bind _ = _
    rw [hu]
    exact hv
  · rintro rfl
    exact hd.yields_alone
  · intro hne sp sps
    rw [List.getLast?_eq_some_getLast hne, Option.map_some, Option.getD_some] at hd
    have hlast : (ts.getLast hne).2 ≠ page := hpages _ (List.getLast_mem hne)
    have hpos := List.length_pos_of_ne_nil hne
    obtain ⟨w, hw, hh, hsame⟩ := hd.yield (by omega) hlast sp
    exact ⟨w, hsame, by simp [yields, hw, hh.yields sps]⟩

/-- Three threads, of which only the third is ever dispatched. -/
theorem yields_created_three :
    noThreads.procCountInList = 0 ∧
    ∃ u v, createAll [(7, 0x1000), (8, 0x2000), (9, 0x3000)] noThreads = some u ∧ SameList u v ∧
      yields [0xf00, 0xe00, 0xd00] u =
        some ([.dispatches 0x3000, .restartsShell, .restartsShell], v) := by
  obtain ⟨u, hu, -, hmany⟩ := yields_created 7 0x1000 [(8, 0x2000), (9, 0x3000)] noThreads
    (by decide) (by decide) rfl rfl
  obtain ⟨v, hsame, hv⟩ := hmany (by decide) 0xf00 [0xe00, 0xd00]
  exact ⟨rfl, u, v, hu, hsame, hv⟩

end Yields

end SBUnix
