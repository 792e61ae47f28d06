import SBUnix.System.Machine

namespace SBUnix

/-- Who has the processor: the shell before its fork or on either side of it, the program that was
started last, the first program of the queue after the timer has gone back to it, or the shell
without a process of its own. -/
inductive Turn where
  | shell
  | child
  | parent
  | started
  | resumed
  | lost
  deriving DecidableEq, Repr

/-- A session as its user sees it: the programs that have not ended, oldest first, the last pid
given out, and who has the processor. -/
structure Session where
  programs : List Nat
  lastPid : Nat
  turn : Turn

def Turn.isProgram : Turn → Bool
  | .started | .resumed => true
  | .shell | .child | .parent | .lost => false

/-- The shell, with a process of its own. -/
def Turn.isShell : Turn → Bool
  | .shell | .child | .parent => true
  | .started | .resumed | .lost => false

/-- Nothing has happened since the fork of the shell. -/
def Turn.isForked : Turn → Bool
  | .child | .parent => true
  | .shell | .started | .resumed | .lost => false

theorem Turn.of_isProgram {t : Turn} (h : t.isProgram) : t = .started ∨ t = .resumed := by
  cases t <;> simp_all [Turn.isProgram]

theorem Turn.of_isShell {t : Turn} (h : t.isShell) : t = .shell ∨ t = .child ∨ t = .parent := by
  cases t <;> simp_all [Turn.isShell]

theorem Turn.not_isForked {t : Turn} (h : t.isProgram) : t.isForked = false := by
  rcases Turn.of_isProgram h with rfl | rfl <;> rfl

inductive SessionStep : MachineOp → Session → Session → Prop where
  /-- A command for which fork returned the pid: nothing is run. -/
  | dropped {a : Session} : a.turn = .shell →
      SessionStep .fork a { a with lastPid := a.lastPid+1, turn := .parent }
  | waited {a : Session} : a.turn = .parent → SessionStep .waitpid a { a with turn := .shell }
  | forked {a : Session} : a.turn = .shell →
      SessionStep .fork a { a with lastPid := a.lastPid+1, turn := .child }
  | forkedInside {a : Session} : a.turn.isProgram →
      SessionStep .fork a { a with lastPid := a.lastPid+1 }
  | started {a : Session} : a.turn = .child →
      SessionStep .exec a { a with programs := a.programs ++ [a.lastPid], turn := .started }
  | endedStarted {a : Session} {ps : List Nat} {p : Nat} {status : Int} {sp : Nat} :
      a.programs = ps++[p] → a.turn = .started →
      SessionStep (.exit status sp) a { a with programs := ps, turn := .shell }
  | endedResumed {a : Session} {ps : List Nat} {p : Nat} {status : Int} {sp : Nat} :
      a.programs = p::ps → ps ≠ [] → a.turn = .resumed →
      SessionStep (.exit status sp) a { a with programs := ps, turn := .shell }
  /-- The only program ends after the timer has gone back to it. -/
  | endedSole {a : Session} {p : Nat} {status : Int} {sp : Nat} :
      a.programs = [p] → a.turn = .resumed →
      SessionStep (.exit status sp) a { a with programs := [], turn := .lost }
  | killed {a : Session} {pid : Nat} : a.turn.isProgram → SessionStep (.kill pid) a a
  | ticked {a : Session} {sp : Nat} : SessionStep (.timer sp) a a
  | preempted {a : Session} {sp : Nat} : a.turn.isProgram →
      SessionStep (.timer sp) a { a with turn := .shell }
  | resumed {a : Session} {sp : Nat} : a.programs ≠ [] → a.turn.isShell →
      SessionStep (.timer sp) a { a with turn := .resumed }

/-- The shell is alone. -/
def Session.boot : Session := ⟨[], 1, .shell⟩

/-- What holds of a session at any time. -/
structure Session.Valid (a : Session) : Prop where
  sorted : a.programs.Pairwise (· < ·)
  pids : ∀ p ∈ a.programs, 1 < p ∧ p ≤ a.lastPid
  forked : a.turn.isForked → ∀ p ∈ a.programs, p < a.lastPid
  counted : 1 ≤ a.lastPid ∧ (a.turn.isForked → 2 ≤ a.lastPid)
  runs : a.turn.isProgram → a.programs ≠ []
  alone : a.turn = .lost → a.programs = []

section Valid

variable {a b : Session} {op : MachineOp}

theorem Session.Valid.keep (h : a.Valid) (hp : b.programs = a.programs) (hl : a.lastPid ≤ b.lastPid)
    (hc : b.turn.isForked → a.lastPid < b.lastPid) (hr : b.turn.isProgram → a.programs ≠ [])
    (ho : b.turn = .lost → a.programs = []) : b.Valid where
  sorted := hp ▸ h.sorted
  pids p hm := by
    have := h.pids p (hp ▸ hm)
    omega
  forked ht p hm := (h.pids p (hp ▸ hm)).2.trans_lt (hc ht)
  counted := by
    have := h.counted.1
    exact ⟨by omega, fun ht => by have := hc ht; omega⟩
  runs ht := hp ▸ hr ht
  alone ht := hp ▸ ho ht

theorem Session.Valid.drop (h : a.Valid) {ps : List Nat} {t : Turn} (hp : ps.Sublist a.programs)
    (ht : t = .shell ∨ t = .lost ∧ ps = []) : ({ a with programs := ps, turn := t } : Session).Valid where
  sorted := h.sorted.sublist hp
  pids p hm := h.pids p (hp.subset hm)
  forked he := by
    rcases ht with rfl | ⟨rfl, -⟩ <;> cases he
  counted := by
    refine ⟨h.counted.1, fun he => ?_⟩
    rcases ht with rfl | ⟨rfl, -⟩ <;> cases he
  runs he := by
    rcases ht with rfl | ⟨rfl, -⟩ <;> cases he
  alone he := by
    rcases ht with rfl | ⟨-, hps⟩
    · cases he
    · exact hps

theorem SessionStep.valid (hs : SessionStep op a b) (h : a.Valid) : b.Valid := by
  cases hs with
  | dropped ht => exact h.keep rfl (Nat.le_succ _) (fun _ => Nat.lt_succ_self _) nofun nofun
  | waited ht => exact h.keep rfl le_rfl nofun nofun nofun
  | forked ht => exact h.keep rfl (Nat.le_succ _) (fun _ => Nat.lt_succ_self _) nofun nofun
  | forkedInside ht => exact h.keep rfl (Nat.le_succ _) (fun _ => Nat.lt_succ_self _) h.runs h.alone
  | started ht =>
    refine ⟨?_, ?_, nofun, ⟨h.counted.1, nofun⟩, fun _ => by simp, nofun⟩
    · rw [List.pairwise_append]
      refine ⟨h.sorted, List.pairwise_singleton _ _, ?_⟩
      intro p hp q hq
      rw [List.mem_singleton.mp hq]
      exact h.forked (by rw [ht]; rfl) p hp
    · intro p hp
      rcases List.mem_append.mp hp with hp | hp
      · exact h.pids p hp
      · rw [List.mem_singleton.mp hp]
        exact ⟨h.counted.2 (by rw [ht]; rfl), le_rfl⟩
  | endedStarted hp ht => exact h.drop (hp ▸ List.sublist_append_left _ _) (Or.inl rfl)
  | endedResumed hp hne ht => exact h.drop (hp ▸ List.sublist_cons_self _ _) (Or.inl rfl)
  | endedSole hp ht => exact h.drop (List.nil_sublist _) (Or.inr ⟨rfl, rfl⟩)
  | killed ht => exact h
  | ticked => exact h
  | preempted ht => exact h.keep rfl le_rfl nofun nofun nofun
  | resumed hne ht => exact h.keep rfl le_rfl nofun (fun _ => hne) nofun

theorem session_boot_valid : Session.boot.Valid :=
  ⟨List.Pairwise.nil, by simp [Session.boot], nofun, ⟨le_rfl, nofun⟩,
    nofun, nofun⟩

end Valid

section Dropped

/-- The pid was given out, and no exec can queue it any more. -/
def Session.Dropped (p : Nat) (a : Session) : Prop :=
  p ∉ a.programs ∧ 1 < p ∧ p ≤ a.lastPid ∧ (a.turn = .child → p < a.lastPid)

theorem SessionStep.dropped_keeps {op : MachineOp} {a b : Session} {p : Nat}
    (hs : SessionStep op a b) (h : a.Dropped p) : b.Dropped p := by
  obtain ⟨hm, hp, hl, hc⟩ := h
  cases hs with
  | dropped ht | forked ht | forkedInside ht =>
    exact ⟨hm, hp, hl.trans (Nat.le_succ _), fun _ => Nat.lt_succ_of_le hl⟩
  | waited ht => exact ⟨hm, hp, hl, by simp⟩
  | started ht =>
    have := hc ht
    refine ⟨?_, hp, hl, by simp⟩
    simp [hm]
    omega
  | endedStarted he ht => exact ⟨fun hx => hm (he ▸ List.mem_append_left _ hx), hp, hl, by simp⟩
  | endedResumed he _ ht => exact ⟨fun hx => hm (he ▸ List.mem_cons_of_mem _ hx), hp, hl, by simp⟩
  | endedSole he ht => exact ⟨by simp, hp, hl, by simp⟩
  | killed ht => exact ⟨hm, hp, hl, hc⟩
  | ticked => exact ⟨hm, hp, hl, hc⟩
  | preempted ht => exact ⟨hm, hp, hl, by simp⟩
  | resumed _ _ => exact ⟨hm, hp, hl, by simp⟩

end Dropped

end SBUnix
