import SBUnix.Console.Screen

namespace SBUnix

/-- What placechar stores for a character in the usual colours. -/
def cellOf (c : UInt8) : UInt16 := UInt16.ofNat (c.toNat ||| 0x07 <<< 8)

def Printable (c : UInt8) : Prop := 32 ≤ c ∧ c < 127

/-- The cell the next character goes to. -/
def target (s : Screen) : Int := (wrapLine s).y*80 + (wrapLine s).x

/-- The keyboard's answer to `n` backspaces. -/
def erase (n : Nat) (s : Screen) : Screen := (putch charBackspace)^[n] s

/-- Some run of the output functions leaves the cursor here; the contents may be any. -/
def ReachedCursor (s : Screen) : Prop :=
  ∃ os text, (sendAll os (.home text)).x = s.x ∧ (sendAll os (.home text)).y = s.y

/-- Where the cursor can be between two characters: at rest, or left of the first row. -/
def Parked (s : Screen) : Prop := Resting s ∨ s.x < 0 ∧ s.y = 0

/-- The screen that `cs` and as many backspaces put back: all of `cs` fits the row, its first
character is there already, and so are the blanks for the cells after it. -/
structure Unchanging (cs : List UInt8) (s : Screen) : Prop where
  row : s.y ≠ 24
  fits : s.x + cs.length < 80
  first : ∀ c ∈ cs.head?, s.text (target s) = cellOf c
  blanks : ∀ i : Int, 0 < i → i ≤ cs.length → s.text (target s + i) = cellOf charSpace

section Cursor

variable {s : Screen} {c : UInt8} {tabs : Bool}

theorem wrapLine_inRow (hx : s.x ≠ 80) (hy : s.y ≠ 24) : wrapLine s = s := by
  rw [wrapLine_eq, if_neg (by omega), if_neg hx]

theorem echo_parked (tabs : Bool) (c : UInt8) (h : Parked s) : Parked (echo tabs c s) := by
  rcases h with h | ⟨hx, hy⟩
  · obtain ⟨-, -, -, hstray, hrest⟩ := echo_resting tabs c h
    by_cases hb : c = charBackspace ∧ AtHome s
    · obtain ⟨hx, hy⟩ := hstray hb
      exact Or.inr ⟨by omega, hy⟩
    · exact Or.inl (hrest hb)
  · have hw : wrapLine s = s := wrapLine_inRow (by omega) (by omega)
    rw [Parked, Resting, echo]
    by_cases hb : c = charBackspace
    · subst hb
      have hleft : ¬(s.x = 0 ∧ s.y ≠ 0) := by omega
      rw [advance_other not_recovers_backspace, hw, (putCell_left hleft).1, (putCell_left hleft).2]
      omega
    · rw [(putCell_right hb).1, (putCell_right hb).2]
      by_cases hr : Recovers tabs c
      · rcases hr with rfl | ⟨rfl, rfl⟩
        · rw [advance_newline, hw]
          dsimp only
          omega
        · rw [advance_tab, hw, feedTab_tab, if_neg (by omega)]
          dsimp only
          omega
      · rw [advance_other hr, hw]
        omega

theorem sendChars_parked (es : List (Via × UInt8)) (h : Parked s) : Parked (sendChars es s) := by
  induction es generalizing s with
  | nil => exact h
  | cons e es ih => exact ih (echo_parked e.1.tabs e.2 h)

theorem ReachedCursor.parked (h : ReachedCursor s) : Parked s := by
  obtain ⟨os, text, hx, hy⟩ := h
  have hp : Parked (sendAll os (.home text)) := by
    rw [sendAll_eq]
    apply sendChars_parked
    left
    rw [Resting, Screen.home]
    dsimp only
    omega
  rwa [Parked, Resting, hx, hy] at hp

/-- The row and column a character is placed in. -/
theorem Parked.wrapLine (h : Parked s) : (wrapLine s).x < 80 ∧ 0 ≤ (wrapLine s).y ∧
    (wrapLine s).y < 24 ∧ (0 ≤ (wrapLine s).x ∨ (wrapLine s).y = 0) := by
  rcases h with h | ⟨hx, hy⟩
  · obtain ⟨h0, h1, h2, h3⟩ := wrapLine_resting h
    omega
  · rw [wrapLine_inRow (by omega) (by omega)]
    omega

theorem Printable.ne (h : Printable c) : ¬Recovers true c ∧ c ≠ charBackspace := by
  refine ⟨?_, ?_⟩
  · rintro (rfl | ⟨-, rfl⟩)
    · exact absurd h.1 (by decide)
    · exact absurd h.1 (by decide)
  · rintro rfl
    exact absurd h.1 (by decide)

theorem putch_printable (h : Printable c) : putch c s =
    { placechar c (wrapLine s).x (wrapLine s).y 0x07 (wrapLine s) with
      x := (wrapLine s).x + 1 } := by
  obtain ⟨hr, hb⟩ := h.ne
  rw [putch, echo, advance_other hr, putCell, if_neg hb]

theorem putch_backspace : putch charBackspace s = putCell charBackspace (wrapLine s) := by
  rw [putch, echo, advance_other not_recovers_backspace]

theorem erase_succ (n : Nat) (s : Screen) :
    erase (n+1) s = erase n (putch charBackspace s) := rfl

theorem erase_add (m n : Nat) (s : Screen) : erase (m+n) s = erase m (erase n s) :=
  Function.iterate_add_apply _ m n s

/-- A backspace blanks the cell under the cursor, not the one it moves to. -/
theorem putch_backspace_inRow (hx : s.x ≠ 80) (hy : s.y ≠ 24) (h : ¬(s.x = 0 ∧ s.y ≠ 0)) :
    (putch charBackspace s).x = s.x-1 ∧ (putch charBackspace s).y = s.y ∧
    (putch charBackspace s).text =
      Function.update s.text (s.y*80 + s.x) (cellOf charSpace) := by
  rw [putch_backspace, wrapLine_inRow hx hy]
  refine ⟨(putCell_left h).1, (putCell_left h).2, ?_⟩
  rw [putCell, if_pos rfl, if_neg h]
  rfl

end Cursor

section Row

variable {s : Screen}

theorem putchAll_inRow (cs : List UInt8) (hc : ∀ c ∈ cs, Printable c) (hy : s.y ≠ 24)
    (hx : s.x < 80) (hfits : s.x + cs.length ≤ 80) :
    (putchAll cs s).x = s.x + cs.length ∧ (putchAll cs s).y = s.y ∧
    (∀ c ∈ cs.head?, (putchAll cs s).text (s.y*80 + s.x) = cellOf c) ∧
    ∀ i, i < s.y*80 + s.x ∨ s.y*80 + s.x + cs.length ≤ i →
      (putchAll cs s).text i = s.text i := by
  induction cs generalizing s with
  | nil => exact ⟨by simp [putchAll], rfl, by simp, fun i _ => rfl⟩
  | cons c cs ih =>
    have hw := wrapLine_inRow (by omega) hy
    have hp := putch_printable (s := s) (hc c List.mem_cons_self)
    rw [hw] at hp
    have hpx : (putch c s).x = s.x+1 := by rw [hp]
    have hpy : (putch c s).y = s.y := by rw [hp]; rfl
    have hpt : (putch c s).text = Function.update s.text (s.y*80 + s.x) (cellOf c) := by
      rw [hp]; rfl
    have hall : putchAll (c::cs) s = putchAll cs (putch c s) := rfl
    rw [List.length_cons, Nat.cast_succ] at hfits ⊢
    by_cases hend : s.x+1 = 80
    · -- the last column takes the last character
      have hnil : cs = [] := List.length_eq_zero_iff.mp (by omega)
      subst hnil
      refine ⟨hpx.trans (by simp), hpy, ?_, ?_⟩
      · intro d hd
        rw [← Option.some.inj hd, hall]
        exact (congrFun hpt _).trans (Function.update_self ..)
      · intro i hi
        exact (congrFun hpt i).trans (Function.update_of_ne (by simp at hi; omega) ..)
    · obtain ⟨ihx, ihy, -, iht⟩ := ih (fun d hd => hc d (List.mem_cons_of_mem c hd))
        (hpy ▸ hy) (by omega) (by omega)
      rw [hpx, hpy] at iht
      rw [hall]
      refine ⟨by omega, ihy.trans hpy, ?_, ?_⟩
      · intro d hd
        rw [← Option.some.inj hd, iht _ (by omega), hpt, Function.update_self]
      · intro i hi
        rw [iht i (by omega), hpt, Function.update_of_ne (by omega)]

theorem erase_inRow (n : Nat) (hx : s.x < 80) (hy : s.y ≠ 24) (h : n ≤ s.x ∨ s.y = 0) :
    (erase n s).x = s.x-n ∧ (erase n s).y = s.y ∧
    ∀ i, (erase n s).text i = if s.y*80 + s.x - n < i ∧ i ≤ s.y*80 + s.x
      then cellOf charSpace else s.text i := by
  induction n generalizing s with
  | zero =>
    refine ⟨by simp [erase], rfl, ?_⟩
    intro i
    rw [if_neg (by omega)]
    rfl
  | succ n ih =>
    obtain ⟨hpx, hpy, hpt⟩ := putch_backspace_inRow (s := s) (by omega) hy (by omega)
    obtain ⟨ihx, ihy, iht⟩ := ih (s := putch charBackspace s) (by omega) (hpy ▸ hy) (by omega)
    rw [erase_succ]
    refine ⟨by omega, ihy.trans hpy, ?_⟩
    intro i
    rw [iht, hpx, hpy, hpt]
    by_cases hi : i = s.y*80 + s.x
    · rw [if_neg (by omega), if_pos (by omega), hi, Function.update_self]
    · rw [Function.update_of_ne hi]
      congr 1
      exact propext ⟨by omega, by omega⟩

end Row

section Rows

variable {s : Screen}

/-- Over several rows the cells are numbered through; column 80 of a row is column 0 of the
next. -/
theorem putchAll_cursor (cs : List UInt8) (hc : ∀ c ∈ cs, Printable c) (hx : s.x ≤ 80)
    (hy : s.y < 24) (hb : s.y*80 + s.x + cs.length ≤ 1920) :
    (putchAll cs s).y*80 + (putchAll cs s).x = s.y*80 + s.x + cs.length ∧
    (putchAll cs s).x ≤ 80 ∧ s.y ≤ (putchAll cs s).y ∧ (putchAll cs s).y < 24 ∧
    ((putchAll cs s).y = s.y ∨ 1 ≤ (putchAll cs s).x) := by
  induction cs generalizing s with
  | nil =>
    have hnil : putchAll [] s = s := rfl
    rw [hnil, List.length_nil]
    omega
  | cons c cs ih =>
    rw [List.length_cons, Nat.cast_succ] at hb ⊢
    have hall : putchAll (c::cs) s = putchAll cs (putch c s) := rfl
    have hp : (putch c s).y*80 + (putch c s).x = s.y*80 + s.x + 1 ∧ (putch c s).x ≤ 80 ∧
        s.y ≤ (putch c s).y ∧ (putch c s).y < 24 ∧
        ((putch c s).y = s.y ∨ (putch c s).x = 1) := by
      rw [putch_printable (hc c List.mem_cons_self)]
      simp only [placechar]
      rw [wrapLine_eq, if_neg (by omega)]
      split_ifs
      · dsimp only
        omega
      · omega
    obtain ⟨h0, h1, h2, h3, h4⟩ := ih (s := putch c s)
      (fun d hd => hc d (List.mem_cons_of_mem c hd)) hp.2.1 hp.2.2.2.1 (by omega)
    rw [hall]
    omega

theorem putchAll_wrapLine {cs : List UInt8} (hc : ∀ c ∈ cs, Printable c) (hne : cs ≠ [])
    (h : Parked s) : putchAll cs s = putchAll cs (wrapLine s) := by
  obtain ⟨hx, -, hy, -⟩ := h.wrapLine
  cases cs with
  | nil => exact absurd rfl hne
  | cons c cs =>
    have hp : putch c s = putch c (wrapLine s) := by
      have hpc := hc c List.mem_cons_self
      have hw := wrapLine_inRow (s := wrapLine s) (by omega) (by omega)
      rw [putch_printable hpc, putch_printable hpc, hw]
    exact congrArg (putchAll cs) hp

/-- Behind the end of a row a backspace goes to the next row and comes back. -/
theorem erase_behind (n : Nat) (hx : s.x = 80) (hy : 0 ≤ s.y) (hy' : s.y < 23) :
    (erase n s).x = 80 ∧ (erase n s).y = s.y := by
  induction n generalizing s with
  | zero => exact ⟨hx, rfl⟩
  | succ n ih =>
    have hw : wrapLine s = { s with x := 0, y := s.y+1 } := by
      rw [wrapLine_eq, if_neg (by omega), if_pos hx]
    have hp : (putch charBackspace s).x = 80 ∧ (putch charBackspace s).y = s.y+1-1 := by
      rw [putch_backspace, hw]
      exact putCell_back rfl (by dsimp only; omega)
    obtain ⟨ihx, ihy⟩ := ih (s := putch charBackspace s) hp.1 (by omega) (by omega)
    rw [erase_succ]
    exact ⟨ihx, by omega⟩

/-- Behind the end of the last row it goes to the top left corner, and on to the left. -/
theorem erase_behind_last (n : Nat) (hx : s.x = 80) (hy : s.y = 23) :
    (erase (n+1) s).x = -(n+1) ∧ (erase (n+1) s).y = 0 := by
  have hw : wrapLine s = { s with x := 0, y := 0 } := by
    rw [wrapLine_eq, if_pos (by omega)]
  have hp : (putch charBackspace s).x = 0-1 ∧ (putch charBackspace s).y = 0 := by
    rw [putch_backspace, hw]
    exact putCell_left fun h => h.2 rfl
  obtain ⟨hex, hey, -⟩ := erase_inRow (s := putch charBackspace s) n (by omega) (by omega)
    (Or.inr hp.2)
  rw [erase_succ]
  exact ⟨by omega, hey.trans hp.2⟩

/-- Past the start of a row the cursor ends behind the row above. -/
theorem erase_past {n : Nat} (hx : 0 ≤ s.x) (hx' : s.x < 80) (hy : 0 < s.y) (hy' : s.y < 24)
    (hn : s.x < n) : (erase n s).x = 80 ∧ (erase n s).y = s.y-1 := by
  obtain ⟨k, hk⟩ := Int.eq_ofNat_of_zero_le hx
  obtain ⟨m, rfl⟩ : ∃ m, n = m+1+k := ⟨n-1-k, by omega⟩
  obtain ⟨hex, hey, -⟩ := erase_inRow k hx' (by omega) (by omega)
  have hw := wrapLine_inRow (s := erase k s) (by omega) (by omega)
  obtain ⟨hpx, hpy⟩ := putCell_back (s := erase k s) (by omega) (by omega)
  have hback : putCell charBackspace (erase k s) = putch charBackspace (erase k s) := by
    rw [putch_backspace, hw]
  rw [hback] at hpx hpy
  obtain ⟨hbx, hby⟩ := erase_behind m hpx (by omega) (by omega)
  rw [erase_add, erase_succ]
  exact ⟨hbx, by omega⟩

end Rows

section Undo

variable {s : Screen} {cs : List UInt8}

/-- A line that reaches the end of its row leaves the cursor in some column 80, or left of
the screen. -/
theorem not_sameScreen_of_rows (h : Parked s) (hc : ∀ c ∈ cs, Printable c)
    (hb : target s + cs.length ≤ 1920) (hrow : 80 ≤ (wrapLine s).x + cs.length) :
    ¬SameScreen (erase cs.length (putchAll cs s)) s := by
  obtain ⟨hx, hy0, hy, hx0⟩ := h.wrapLine
  have hne : cs ≠ [] := by
    rintro rfl
    simp at hrow
    omega
  obtain ⟨ht, hle, hlow, hhigh, hcol⟩ :=
    putchAll_cursor (s := wrapLine s) cs hc hx.le hy hb
  rw [← putchAll_wrapLine hc hne h] at ht hle hlow hhigh hcol
  intro hs
  obtain ⟨hsx, hsy, -⟩ := hs
  have hwrap := wrapLine_eq s
  by_cases hend : (putchAll cs s).x = 80
  · by_cases hlast : (putchAll cs s).y = 23
    · obtain ⟨m, hm⟩ : ∃ m, cs.length = m+1 :=
        Nat.exists_eq_succ_of_ne_zero fun h0 => hne (List.length_eq_zero_iff.mp h0)
      obtain ⟨hex, hey⟩ := erase_behind_last m hend hlast
      rw [hm] at hsx hsy hrow
      rw [wrapLine_inRow (by omega) (by omega)] at hrow
      omega
    · obtain ⟨hex, hey⟩ := erase_behind cs.length hend (by omega) (by omega)
      rw [if_neg (by omega), if_pos (by omega)] at hwrap
      rw [hwrap] at hlow
      dsimp only at hlow
      omega
  · obtain ⟨hex, hey⟩ := erase_past (s := putchAll cs s) (n := cs.length)
      (by omega) (by omega) (by omega) hhigh (by omega)
    rw [if_neg (by omega), if_pos (by omega)] at hwrap
    rw [hwrap] at ht hrow
    dsimp only at ht hrow
    omega

theorem erase_putchAll_inRow (h : Parked s) (hc : ∀ c ∈ cs, Printable c) (hne : cs ≠ [])
    (hrow : (wrapLine s).x + cs.length < 80) :
    (erase cs.length (putchAll cs s)).x = (wrapLine s).x ∧
    (erase cs.length (putchAll cs s)).y = (wrapLine s).y ∧
    (∀ c ∈ cs.head?, (erase cs.length (putchAll cs s)).text (target s) = cellOf c) ∧
    (∀ i : Int, 0 < i → i ≤ cs.length →
      (erase cs.length (putchAll cs s)).text (target s + i) = cellOf charSpace) ∧
    ∀ i, i < target s ∨ target s + cs.length < i →
      (erase cs.length (putchAll cs s)).text i = s.text i := by
  obtain ⟨hx, -, hy, hx0⟩ := h.wrapLine
  have hsame : (wrapLine s).text = s.text := by
    rw [wrapLine_eq]
    split_ifs <;> rfl
  rw [putchAll_wrapLine hc hne h, ← hsame]
  obtain ⟨hpx, hpy, hpf, hpt⟩ :=
    putchAll_inRow (s := wrapLine s) cs hc (by omega) hx hrow.le
  obtain ⟨hex, hey, het⟩ := erase_inRow (s := putchAll cs (wrapLine s)) cs.length (by omega)
    (by omega) (by omega)
  rw [hpx, hpy] at het
  rw [target]
  refine ⟨by omega, hey.trans hpy, ?_, ?_, ?_⟩
  · intro c hd
    rw [het, if_neg (by omega), hpf c hd]
  · intro i hi hi'
    rw [het, if_pos (by omega)]
  · intro i hi
    rw [het, if_neg (by omega), hpt i (by omega)]

theorem sameScreen_erase_iff (h : Parked s) (hc : ∀ c ∈ cs, Printable c)
    (hb : target s + cs.length ≤ 1920) :
    SameScreen (erase cs.length (putchAll cs s)) s ↔ cs = [] ∨ Unchanging cs s := by
  by_cases hnil : cs = []
  · subst hnil
    exact iff_of_true (.refl s) (Or.inl rfl)
  rw [or_iff_right hnil]
  by_cases hrow : (wrapLine s).x + cs.length < 80
  · obtain ⟨hx, hy, hfirst, hblanks, hother⟩ := erase_putchAll_inRow h hc hnil hrow
    constructor
    · intro hs
      have hwrap := wrapLine_eq s
      have hsx := hx.symm.trans hs.x
      have hsy := hy.symm.trans hs.y
      have hin : s.x ≠ 80 ∧ s.y ≠ 24 := by
        obtain ⟨hx, -, hy, -⟩ := h.wrapLine
        omega
      refine ⟨hin.2, by omega, ?_, ?_⟩
      · intro c hd
        rw [← hfirst c hd, hs.text]
      · intro i hi hi'
        rw [← hblanks i hi hi', hs.text]
    · rintro ⟨hy24, hfits, hf, hbl⟩
      rw [wrapLine_inRow (by omega) hy24] at hx hy
      refine ⟨hx, hy, ?_⟩
      obtain ⟨c, cs, rfl⟩ := List.exists_cons_of_ne_nil hnil
      funext i
      by_cases hi : i < target s ∨ target s + (c::cs).length < i
      · exact hother i hi
      by_cases hi0 : i = target s
      · rw [hi0, hfirst c rfl, hf c rfl]
      · have he : i = target s + (i - target s) := by omega
        rw [he, hblanks _ (by omega) (by omega), hbl _ (by omega) (by omega)]
  · apply iff_of_false (not_sameScreen_of_rows h hc hb (by omega))
    rintro ⟨hy24, hfits, -, -⟩
    rw [wrapLine_inRow (by omega) hy24] at hrow
    omega

theorem cellOf_space_iff (c : UInt8) : cellOf charSpace = cellOf c ↔ c = charSpace := by
  have hall : ∀ k < 256,
      cellOf charSpace = UInt16.ofNat (k ||| 0x07 <<< 8) → k = charSpace.toNat := by
    decide +kernel
  constructor
  · intro h
    exact UInt8.toNat_inj.mp (hall c.toNat c.toNat_lt h)
  · rintro rfl
    rfl

end Undo

/-- One character on a blank cell is undone only if it is a space with a blank after it in the
same row, and a line of `n` only if it changes nothing in the first place. -/
theorem backspace_undoes_iff (s : Screen) (hs : ReachedCursor s) :
    (∀ c, Printable c → s.text (target s) = cellOf charSpace →
      (SameScreen (putch charBackspace (putch c s)) s ↔
        c = charSpace ∧ s.x < 79 ∧ s.y ≠ 24 ∧ s.text (target s + 1) = cellOf charSpace)) ∧
    ∀ cs : List UInt8, (∀ c ∈ cs, Printable c) → target s + cs.length ≤ 1920 →
      (SameScreen (erase cs.length (putchAll cs s)) s ↔ cs = [] ∨ Unchanging cs s) := by
  refine ⟨?_, fun cs hc hb => sameScreen_erase_iff hs.parked hc hb⟩
  intro c hc hblank
  have hb : target s + [c].length ≤ 1920 := by
    obtain ⟨hx, hy0, hy, -⟩ := hs.parked.wrapLine
    rw [target, List.length_singleton]
    omega
  have h := sameScreen_erase_iff hs.parked (fun d hd => List.mem_singleton.mp hd ▸ hc) hb
  have hone : erase [c].length (putchAll [c] s) = putch charBackspace (putch c s) := rfl
  rw [hone, or_iff_right (List.cons_ne_nil c [])] at h
  rw [h]
  constructor
  · rintro ⟨hy, hfits, hf, hbl⟩
    rw [List.length_singleton] at hfits hbl
    have hcell := hf c rfl
    rw [hblank, cellOf_space_iff] at hcell
    exact ⟨hcell, by omega, hy, hbl 1 (by omega) (by omega)⟩
  · rintro ⟨rfl, hx, hy, hbl⟩
    refine ⟨hy, by rw [List.length_singleton]; omega, ?_, ?_⟩
    · intro d hd
      rw [hblank, Option.some.inj hd]
    · intro i hi hi'
      have he : i = 1 := by
        rw [List.length_singleton] at hi'
        omega
      rw [he, hbl]

/-- A screen of blanks with the cursor in the top left corner. -/
def clearScreen : Screen := .home fun _ => cellOf charSpace

theorem clearScreen_reached : ReachedCursor clearScreen := ⟨[], clearScreen.text, rfl, rfl⟩

/-- A letter and a backspace: the letter stays. -/
theorem backspace_leaves_letter :
    ReachedCursor clearScreen ∧ Printable 97 ∧
    clearScreen.text (target clearScreen) = cellOf charSpace ∧
    (putch charBackspace (putch 97 clearScreen)).text 0 = cellOf 97 ∧
    ¬SameScreen (putch charBackspace (putch 97 clearScreen)) clearScreen := by
  refine ⟨clearScreen_reached, ⟨by decide, by decide⟩, rfl, rfl, ?_⟩
  intro h
  exact absurd (congrFun h.text 0) (by decide)

theorem backspace_undoes_space :
    SameScreen (putch charBackspace (putch charSpace clearScreen)) clearScreen ∧
    SameScreen (erase 2 (putchAll [charSpace, 97] clearScreen)) clearScreen := by
  have h := backspace_undoes_iff clearScreen clearScreen_reached
  refine ⟨(h.1 charSpace ⟨by decide, by decide⟩ rfl).mpr ⟨rfl, by decide, by decide, rfl⟩, ?_⟩
  apply (h.2 [charSpace, 97] ?_ (by decide)).mpr
  · refine Or.inr ⟨by decide, by decide, ?_, fun _ _ _ => rfl⟩
    intro c hc
    rw [← Option.some.inj hc]
    rfl
  · intro c hc
    rcases List.mem_pair.mp hc with rfl | rfl
    · exact ⟨by decide, by decide⟩
    · exact ⟨by decide, by decide⟩

end SBUnix
