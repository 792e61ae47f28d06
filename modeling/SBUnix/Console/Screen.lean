import Mathlib.Tactic

namespace SBUnix

def horBits : Int := 80
def vertBits : Int := 24
def tabSpace : Int := 4

def charNewline : UInt8 := 10
def charTab : UInt8 := 9
def charBackspace : UInt8 := 8
def charSpace : UInt8 := 32

/-- The cursor and the text buffer. `placed` has the cells placechar was called for, newest
first; no modelled function reads it. -/
structure Screen where
  x : Int
  y : Int
  text : Int → UInt16
  placed : List (Int × Int)

def Screen.home (text : Int → UInt16) : Screen := ⟨0, 0, text, []⟩

def placechar (c : UInt8) (x y : Int) (attr : Nat) (s : Screen) : Screen := { s with
  text := Function.update s.text (y*80 + x) (UInt16.ofNat (c.toNat ||| attr <<< 8))
  placed := (x, y) :: s.placed }

/-- The two tests each output function starts with. -/
def wrapLine (s : Screen) : Screen :=
  let s := if s.x = horBits then { s with x := 0, y := s.y+1 } else s
  if s.y = vertBits then { s with x := 0, y := 0 } else s

def feedLine (c : UInt8) (s : Screen) : Screen :=
  if c = charNewline then { s with x := 0, y := s.y+1 } else s

def feedTab (c : UInt8) (s : Screen) : Screen :=
  if c = charTab then
    match s.x + tabSpace - horBits with
    | 0 => { s with x := 4, y := s.y+1 }
    | 1 => { s with x := 3, y := s.y+1 }
    | 2 => { s with x := 2, y := s.y+1 }
    | 3 => { s with x := 1, y := s.y+1 }
    | 4 => { s with x := 0, y := s.y+1 }
    | _ => { s with x := s.x + tabSpace }
  else s

/-- A newline or a tab has moved the cursor by now and is still placed as a character. -/
def putCell (c : UInt8) (s : Screen) : Screen :=
  if c = charBackspace then
    if s.x = 0 ∧ s.y ≠ 0 then
      { placechar charSpace s.x s.y 0x07 s with y := s.y-1, x := horBits }
    else { placechar charSpace s.x s.y 0x07 s with x := s.x-1 }
  else { placechar c s.x s.y 0x07 s with x := s.x+1 }

/-- The cursor as a character finds it when it is placed. Only putc and putch know the tab. -/
def advance (tabs : Bool) (c : UInt8) (s : Screen) : Screen :=
  let s := feedLine c (wrapLine s)
  if tabs then feedTab c s else s

def echo (tabs : Bool) (c : UInt8) (s : Screen) : Screen := putCell c (advance tabs c s)

/-- The body of kprintf's loop. -/
def kprintfChar (c : UInt8) (s : Screen) : Screen := echo false c s

/-- `while (*c)` of kprintf over its formatted buffer. -/
def kprintfChars : List UInt8 → Screen → Screen
  | [], s => s
  | c::cs, s => if c = 0 then s else kprintfChars cs (kprintfChar c s)

def putc (c : UInt8) (s : Screen) : Int × Screen := (c.toInt8.toInt, echo true c s)

def putch (c : UInt8) (s : Screen) : Screen := echo true c s

/-- A string sent through putch, one character after the other. -/
def putchAll (str : List UInt8) (s : Screen) : Screen := str.foldl (fun s c => putch c s) s

/-- The same contents and the same cursor. -/
structure SameScreen (s t : Screen) : Prop where
  x : s.x = t.x
  y : s.y = t.y
  text : s.text = t.text

theorem SameScreen.refl (s : Screen) : SameScreen s s := ⟨rfl, rfl, rfl⟩

/-- A cell of the 80x25 text buffer. -/
def OnScreen (p : Int × Int) : Prop :=
  0 ≤ p.1 ∧ p.1 < 80 ∧ 0 ≤ p.2 ∧ p.2 ≤ 24 ∧ 0 ≤ p.2*80 + p.1 ∧ p.2*80 + p.1 < 2000

instance : DecidablePred OnScreen := fun p => by
  unfold OnScreen
  infer_instance

/-- Where the cursor may rest between two characters. -/
def Resting (s : Screen) : Prop :=
  0 ≤ s.x ∧ s.x ≤ 80 ∧ 0 ≤ s.y ∧ (s.y < 24 ∨ s.y = 24 ∧ s.x < 80)

/-- Where a backspace in the top left corner leaves it. -/
def Stray (s : Screen) : Prop := s.x = -1 ∧ s.y = 0

/-- The next character is handled in the top left corner. -/
def AtHome (s : Screen) : Prop := (wrapLine s).x = 0 ∧ (wrapLine s).y = 0

/-- Characters that set x before they are placed. -/
def Recovers (tabs : Bool) (c : UInt8) : Prop := c = charNewline ∨ tabs = true ∧ c = charTab

section Steps

variable {s : Screen} {tabs : Bool} {c : UInt8}

theorem wrapLine_eq (s : Screen) : wrapLine s =
    if s.x = 80 ∧ s.y = 23 ∨ s.x ≠ 80 ∧ s.y = 24 then { s with x := 0, y := 0 }
    else if s.x = 80 then { s with x := 0, y := s.y+1 } else s := by
  unfold wrapLine horBits vertBits
  by_cases h : s.x = 80
  · have hy : s.y+1 = 24 ↔ s.y = 23 := by omega
    simp [h, hy]
  · simp [h]

theorem wrapLine_placed : (wrapLine s).placed = s.placed := by
  rw [wrapLine_eq]
  split_ifs <;> rfl

theorem wrapLine_resting (h : Resting s) :
    0 ≤ (wrapLine s).x ∧ (wrapLine s).x < 80 ∧ 0 ≤ (wrapLine s).y ∧ (wrapLine s).y < 24 := by
  obtain ⟨hx, hx', hy, hy'⟩ := h
  rw [wrapLine_eq]
  split_ifs
  · dsimp only
    omega
  · dsimp only
    omega
  · omega

theorem wrapLine_stray (h : Stray s) : wrapLine s = s := by
  obtain ⟨hx, hy⟩ := h
  rw [wrapLine_eq, if_neg (by omega), if_neg (by omega)]

theorem feedLine_placed : (feedLine c s).placed = s.placed := by
  unfold feedLine
  split_ifs <;> rfl

/-- The five cases of the switch start a new line; the columns they skip are not filled. -/
theorem feedTab_tab (s : Screen) : feedTab charTab s =
    if 76 ≤ s.x ∧ s.x ≤ 80 then { s with x := 80 - s.x, y := s.y+1 }
    else { s with x := s.x+4 } := by
  rw [feedTab, if_pos rfl, tabSpace, horBits]
  by_cases h : 76 ≤ s.x ∧ s.x ≤ 80
  · rw [if_pos h]
    obtain h | h | h | h | h :
        s.x = 76 ∨ s.x = 77 ∨ s.x = 78 ∨ s.x = 79 ∨ s.x = 80 := by omega
    all_goals rw [h]; rfl
  · rw [if_neg h]
    split
    all_goals first | rfl | omega

theorem feedTab_of_ne (h : c ≠ charTab) (s : Screen) : feedTab c s = s := if_neg h

theorem feedTab_placed : (feedTab c s).placed = s.placed := by
  by_cases h : c = charTab
  · rw [h, feedTab_tab]
    split_ifs <;> rfl
  · rw [feedTab_of_ne h]

theorem advance_placed : (advance tabs c s).placed = s.placed := by
  cases tabs with
  | false => exact feedLine_placed.trans wrapLine_placed
  | true => exact feedTab_placed.trans (feedLine_placed.trans wrapLine_placed)

theorem feedLine_newline (s : Screen) :
    feedLine charNewline s = { s with x := 0, y := s.y+1 } := if_pos rfl

theorem feedLine_of_ne (h : c ≠ charNewline) (s : Screen) : feedLine c s = s := if_neg h

theorem advance_newline : advance tabs charNewline s =
    { wrapLine s with x := 0, y := (wrapLine s).y+1 } := by
  have ht : charNewline ≠ charTab := by decide
  cases tabs with
  | false => exact feedLine_newline _
  | true => exact (feedTab_of_ne ht _).trans (feedLine_newline _)

theorem advance_tab : advance true charTab s = feedTab charTab (wrapLine s) :=
  congrArg (feedTab charTab) (feedLine_of_ne (by decide) _)

theorem advance_other (h : ¬Recovers tabs c) : advance tabs c s = wrapLine s := by
  have hline : feedLine c (wrapLine s) = wrapLine s := feedLine_of_ne (fun hc => h (Or.inl hc)) _
  cases tabs with
  | false => exact hline
  | true =>
    have ht : c ≠ charTab := fun hc => h (Or.inr ⟨rfl, hc⟩)
    exact (feedTab_of_ne ht _).trans hline

theorem not_recovers_backspace : ¬Recovers tabs charBackspace := by
  intro h
  rcases h with h | ⟨-, h⟩
  · exact absurd h (by decide)
  · exact absurd h (by decide)

/-- The cell of a character sent with the cursor at rest; one in the last row is near its
left end. -/
theorem advance_resting (tabs : Bool) (c : UInt8) (h : Resting s) :
    0 ≤ (advance tabs c s).x ∧ (advance tabs c s).x < 80 ∧ 0 ≤ (advance tabs c s).y ∧
    ((advance tabs c s).y < 24 ∨ (advance tabs c s).y = 24 ∧ (advance tabs c s).x < 5) := by
  obtain ⟨hx, hx', hy, hy'⟩ := wrapLine_resting h
  by_cases hr : Recovers tabs c
  · rcases hr with rfl | ⟨rfl, rfl⟩
    · rw [advance_newline]
      dsimp only
      omega
    · rw [advance_tab, feedTab_tab]
      split_ifs
      · dsimp only
        omega
      · dsimp only
        omega
  · rw [advance_other hr]
    omega

theorem putCell_placed : (putCell c s).placed = (s.x, s.y) :: s.placed := by
  unfold putCell
  split_ifs <;> rfl

theorem echo_placed (tabs : Bool) (c : UInt8) (s : Screen) : (echo tabs c s).placed =
    ((advance tabs c s).x, (advance tabs c s).y) :: s.placed := by
  rw [echo, putCell_placed, advance_placed]

theorem putCell_back (hx : s.x = 0) (hy : s.y ≠ 0) :
    (putCell charBackspace s).x = 80 ∧ (putCell charBackspace s).y = s.y-1 := by
  rw [putCell, if_pos rfl, if_pos ⟨hx, hy⟩]
  exact ⟨rfl, rfl⟩

theorem putCell_left (h : ¬(s.x = 0 ∧ s.y ≠ 0)) :
    (putCell charBackspace s).x = s.x-1 ∧ (putCell charBackspace s).y = s.y := by
  rw [putCell, if_pos rfl, if_neg h]
  exact ⟨rfl, rfl⟩

theorem putCell_right (h : c ≠ charBackspace) :
    (putCell c s).x = s.x+1 ∧ (putCell c s).y = s.y := by
  rw [putCell, if_neg h]
  exact ⟨rfl, rfl⟩

theorem onScreen_of_bounds {p : Int × Int} (hx : 0 ≤ p.1) (hx' : p.1 < 80) (hy : 0 ≤ p.2)
    (hy' : p.2 ≤ 24) : OnScreen p :=
  ⟨hx, hx', hy, hy', by omega, by omega⟩

/-- A character sent with the cursor at rest. -/
theorem echo_resting (tabs : Bool) (c : UInt8) (h : Resting s) :
    ∃ p, (echo tabs c s).placed = p :: s.placed ∧ OnScreen p ∧
      (c = charBackspace ∧ AtHome s → Stray (echo tabs c s)) ∧
      (¬(c = charBackspace ∧ AtHome s) → Resting (echo tabs c s)) := by
  obtain ⟨hx, hx', hy, hy'⟩ := advance_resting tabs c h
  refine ⟨_, echo_placed tabs c s, onScreen_of_bounds hx hx' hy (by dsimp only; omega), ?_, ?_⟩
  · rintro ⟨rfl, h0, h1⟩
    obtain ⟨hl, hl'⟩ := putCell_left fun h => h.2 h1
    rw [echo, advance_other not_recovers_backspace, Stray, hl, hl']
    omega
  · intro hn
    rw [echo, Resting]
    by_cases hc : c = charBackspace
    · subst hc
      have hhome : ¬((wrapLine s).x = 0 ∧ (wrapLine s).y = 0) := fun h => hn ⟨rfl, h⟩
      rw [advance_other not_recovers_backspace] at hx hx' hy hy' ⊢
      by_cases h0 : (wrapLine s).x = 0 ∧ (wrapLine s).y ≠ 0
      · obtain ⟨hb, hb'⟩ := putCell_back h0.1 h0.2
        rw [hb, hb']
        omega
      · obtain ⟨hl, hl'⟩ := putCell_left h0
        rw [hl, hl']
        omega
    · obtain ⟨hr, hr'⟩ := putCell_right (s := advance tabs c s) hc
      rw [hr, hr']
      omega

/-- A newline or a tab brings a stray cursor back before it is placed. -/
theorem echo_recovers (h : Stray s) (hr : Recovers tabs c) :
    ∃ p, (echo tabs c s).placed = p :: s.placed ∧ OnScreen p ∧ Resting (echo tabs c s) := by
  have hpos : 0 ≤ (advance tabs c s).x ∧ (advance tabs c s).x < 4 ∧
      0 ≤ (advance tabs c s).y ∧ (advance tabs c s).y < 2 ∧ c ≠ charBackspace := by
    obtain ⟨hx, hy⟩ := h
    rcases hr with rfl | ⟨rfl, rfl⟩
    · rw [advance_newline, wrapLine_stray ⟨hx, hy⟩]
      refine ⟨?_, ?_, ?_, ?_, by decide⟩ <;> dsimp only <;> omega
    · rw [advance_tab, wrapLine_stray ⟨hx, hy⟩, feedTab_tab, if_neg (by omega)]
      refine ⟨?_, ?_, ?_, ?_, by decide⟩ <;> dsimp only <;> omega
  obtain ⟨hx, hx', hy, hy', hc⟩ := hpos
  refine ⟨_, echo_placed tabs c s, onScreen_of_bounds hx ?_ hy ?_, ?_⟩
  · dsimp only
    omega
  · dsimp only
    omega
  · obtain ⟨hr, hr'⟩ := putCell_right (s := advance tabs c s) hc
    rw [echo, Resting, hr, hr']
    omega

/-- Any other character is placed left of the screen. -/
theorem echo_stray (h : Stray s) (hr : ¬Recovers tabs c) :
    (echo tabs c s).placed = (-1, 0) :: s.placed := by
  rw [echo_placed, advance_other hr, wrapLine_stray h, h.1, h.2]

end Steps

/-- The function a character comes through. -/
inductive Via where
  | kprintf | putc | putch
  deriving DecidableEq, Repr

def Via.tabs : Via → Bool
  | .kprintf => false
  | .putc | .putch => true

/-- One character sent to the screen. -/
def sendChar (e : Via × UInt8) (s : Screen) : Screen := echo e.1.tabs e.2 s

def sendChars (es : List (Via × UInt8)) (s : Screen) : Screen :=
  es.foldl (fun s e => sendChar e s) s

/-- Right after a backspace that is handled in the top left corner comes nothing or a
character that sets x. -/
def Settled : Screen → List (Via × UInt8) → Prop
  | _, [] => True
  | s, e::es =>
    (e.2 = charBackspace ∧ AtHome s → ∀ d ∈ es.head?, Recovers d.1.tabs d.2) ∧
    Settled (sendChar e s) es

theorem sendChars_placed (es : List (Via × UInt8)) (s : Screen) (p : Int × Int)
    (h : p ∈ s.placed) : p ∈ (sendChars es s).placed := by
  induction es generalizing s with
  | nil => exact h
  | cons e es ih =>
    have hp : p ∈ (sendChar e s).placed := by
      rw [sendChar, echo_placed]
      exact List.mem_cons_of_mem _ h
    exact ih _ hp

/-- Both kinds of state a run passes through, by induction on what is still to be sent. -/
theorem sendChars_onScreen_iff (es : List (Via × UInt8)) (s : Screen)
    (hs : ∀ p ∈ s.placed, OnScreen p) :
    (Resting s → ((∀ p ∈ (sendChars es s).placed, OnScreen p) ↔ Settled s es)) ∧
    (Stray s → ((∀ p ∈ (sendChars es s).placed, OnScreen p) ↔
      (∀ d ∈ es.head?, Recovers d.1.tabs d.2) ∧ Settled s es)) := by
  induction es generalizing s with
  | nil =>
    have hall : (∀ p ∈ (sendChars [] s).placed, OnScreen p) ↔ True := iff_true_intro hs
    rw [hall]
    simp [Settled]
  | cons e es ih =>
    have hstep : sendChars (e::es) s = sendChars es (sendChar e s) := rfl
    constructor
    · intro h
      obtain ⟨p, hp, hon, hstray, hrest⟩ := echo_resting e.1.tabs e.2 h
      have hs' : ∀ q ∈ (sendChar e s).placed, OnScreen q := by
        rw [sendChar, hp]
        exact List.forall_mem_cons.mpr ⟨hon, hs⟩
      rw [hstep, Settled]
      by_cases hb : e.2 = charBackspace ∧ AtHome s
      · rw [(ih _ hs').2 (hstray hb)]
        exact and_congr_left' (by simp [hb])
      · rw [(ih _ hs').1 (hrest hb)]
        simp [hb]
    · intro h
      have hhome : ¬AtHome s := by
        intro hh
        have := hh.1
        rw [wrapLine_stray h, h.1] at this
        exact absurd this (by decide)
      rw [hstep, Settled]
      by_cases hr : Recovers e.1.tabs e.2
      · obtain ⟨p, hp, hon, hrest⟩ := echo_recovers h hr
        have hs' : ∀ q ∈ (sendChar e s).placed, OnScreen q := by
          rw [sendChar, hp]
          exact List.forall_mem_cons.mpr ⟨hon, hs⟩
        rw [(ih _ hs').1 hrest]
        simp [hr, hhome]
      · have hoff : (-1, 0) ∈ (sendChars es (sendChar e s)).placed := by
          apply sendChars_placed
          rw [sendChar, echo_stray h hr]
          exact List.mem_cons_self
        constructor
        · intro hall
          exact absurd (hall _ hoff) (by decide)
        · intro hall
          exact absurd (hall.1 e rfl) hr

/-- A call of one of the three output functions; for kprintf, with its formatted buffer. -/
inductive Output where
  | kprintf (buf : List UInt8)
  | putc (c : UInt8)
  | putch (c : UInt8)
  deriving DecidableEq, Repr

def Output.send : Output → Screen → Screen
  | .kprintf buf, s => kprintfChars buf s
  | .putc c, s => (SBUnix.putc c s).2
  | .putch c, s => SBUnix.putch c s

def Output.chars : Output → List (Via × UInt8)
  | .kprintf buf => (buf.takeWhile (· ≠ 0)).map (Via.kprintf, ·)
  | .putc c => [(.putc, c)]
  | .putch c => [(.putch, c)]

def sendAll (os : List Output) (s : Screen) : Screen := os.foldl (fun s o => o.send s) s

theorem kprintfChars_eq (buf : List UInt8) (s : Screen) :
    kprintfChars buf s = sendChars ((buf.takeWhile (· ≠ 0)).map (Via.kprintf, ·)) s := by
  induction buf generalizing s with
  | nil => rfl
  | cons c buf ih =>
    by_cases h : c = 0
    · simp [kprintfChars, h, sendChars]
    · rw [kprintfChars, if_neg h, ih, List.takeWhile_cons_of_pos (by simpa using h)]
      rfl

theorem sendAll_eq (os : List Output) (s : Screen) :
    sendAll os s = sendChars (os.flatMap Output.chars) s := by
  induction os generalizing s with
  | nil => rfl
  | cons o os ih =>
    have hone : o.send s = sendChars o.chars s := by
      cases o with
      | kprintf buf => exact kprintfChars_eq buf s
      | putc c => rfl
      | putch c => rfl
    have hcons : sendAll (o::os) s = sendAll os (o.send s) := rfl
    rw [hcons, ih, hone, List.flatMap_cons, sendChars, sendChars, sendChars, List.foldl_append]

/-- From the top left corner, every cell written is on the screen exactly when no character
goes to the left of column 0. -/
theorem sendAll_onScreen_iff (os : List Output) (text : Int → UInt16) :
    (∀ p ∈ (sendAll os (.home text)).placed, OnScreen p) ↔
      Settled (.home text) (os.flatMap Output.chars) := by
  rw [sendAll_eq]
  have hrest : Resting (.home text) := by
    rw [Resting, Screen.home]
    dsimp only
    omega
  have hnone : ∀ p ∈ (Screen.home text).placed, OnScreen p := by
    intro p hp
    exact absurd hp List.not_mem_nil
  exact (sendChars_onScreen_iff _ _ hnone).1 hrest

/-- A backspace and a letter on an empty screen: the letter goes to column -1. -/
theorem sendAll_leaves_screen :
    (sendAll [.putch charBackspace, .putch 97] (.home fun _ => 0)).placed = [(-1, 0), (0, 0)] ∧
    ¬∀ p ∈ (sendAll [.putch charBackspace, .putch 97] (.home fun _ => 0)).placed, OnScreen p :=
  ⟨rfl, by decide⟩

end SBUnix
