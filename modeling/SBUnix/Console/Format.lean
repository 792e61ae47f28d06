import SBUnix.Console.Screen
import SBUnix.Lib.Numbers
import SBUnix.Lib.Strings

namespace SBUnix

open CString

/-- What `va_arg` hands out: a word, or the bytes behind an address. -/
inductive VaArg where
  | word (v : Nat)
  | str (s : Bytes)
  deriving DecidableEq, Repr

def charPercent : UInt8 := 37

/-- `while (*s) buf[ptr++] = *s++;` -/
def copyString : Bytes → Option Bytes
  | [] => none
  | c::s => if c = 0 then some [] else (copyString s).map (c :: ·)

/-- `while (j-- > 0)` from 8: the low 32 bits, the highest digit first, each one taken from
`"0123456789abcdef"`. -/
def hexDigits (v : Nat) : Bytes :=
  (List.range 8).map fun j => digitChar ((v >>> ((7-j)*4)) &&& 0xF)

/-- `while (value > 0)`: the lowest digit first, and the quotient goes through an unsigned
int. The first argument is at least `value`. -/
def decDigitsFrom : Nat → Nat → Bytes
  | 0, _ => []
  | n+1, v => if v = 0 then [] else UInt8.ofNat (v%10 + 48) :: decDigitsFrom n (v/10 % 2^32)

def decDigits (v : Nat) : Bytes := decDigitsFrom v v

/-- The switch on the character after a `%`: the text it puts out and the arguments left. -/
def directive (d : UInt8) (args : List VaArg) : Option (Bytes × List VaArg) :=
  if d = 115 then -- s
    match args with
    | .str s :: args => (copyString s).map (·, args)
    | _ => none
  else if d = 99 then -- c
    match args with
    | .word v :: args => some ([UInt8.ofNat v], args)
    | _ => none
  else if d = 120 then -- x
    match args with
    | .word v :: args => some (hexDigits v, args)
    | _ => none
  else if d = 100 then -- d
    match args with
    | .word v :: args => some (decDigits v, args)
    | _ => none
  else if d = 112 then -- p
    match args with
    | .word v :: args => some (48 :: 120 :: hexDigits v, args)
    | _ => none
  else some ([d], args)

/-- The loop over the format, with `n` = `len_fmt - i`. A `%` takes two rounds' worth, so that
after one at the very end the loop does not look past the terminator. -/
def formatFrom : Bytes → Nat → List VaArg → Option (Bytes × List VaArg)
  | [], n, args => if n = 0 then some ([], args) else none
  | c::fmt, n, args =>
    if n = 0 ∨ c = 0 then some ([], args)
    else if c ≠ charPercent then (formatFrom fmt (n-1) args).map fun r => (c :: r.1, r.2)
    else
      match fmt with
      | [] => none
      | d::fmt => (directive d args).bind fun o =>
        (formatFrom fmt (n-2) o.2).map fun r => (o.1 ++ r.1, r.2)

/-- The buffer with its terminator, and the arguments not used. The buffer is as long as
the text needs. -/
def vasprintf (fmt : Bytes) (args : List VaArg) : Option (Bytes × List VaArg) :=
  (kstrlen fmt).bind fun len => (formatFrom fmt len args).map fun r => (r.1 ++ [0], r.2)

/-- The user library's formatter has the same body. -/
def vsprintf (fmt : Bytes) (args : List VaArg) : Option (Bytes × List VaArg) :=
  (strlen fmt).bind fun len => (formatFrom fmt len args).map fun r => (r.1 ++ [0], r.2)

def kprintf (fmt : Bytes) (args : List VaArg) (s : Screen) : Option (List VaArg × Screen) :=
  (vasprintf fmt args).map fun r => (r.2, kprintfChars r.1 s)

/-- System call 2: the buffer is the format, and no argument comes with it, so that `va_arg`
would read whatever `regs` has. -/
def sysPrintf (buf : Bytes) (regs : List VaArg) (s : Screen) : Option (List VaArg × Screen) :=
  kprintf buf regs s

def printf (fmt : Bytes) (args regs : List VaArg) (s : Screen) :
    Option (List VaArg × Screen) :=
  (vsprintf fmt args).bind fun r => sysPrintf r.1 regs s

/-- The length of kprintf's `buf`. -/
def kprintfBufSize : Nat := 4096

/-- The system call shows the buffer's own text, inside kprintf's buffer, and takes no argument. -/
def ShownAsIs (buf : Bytes) (regs : List VaArg) : Prop :=
  ∃ out, vasprintf buf regs = some (out, regs) ∧ out.length ≤ kprintfBufSize ∧ text out = text buf

theorem text_append_singleton_nul (t : Bytes) : text (t ++ [0]) = text t := by
  induction t with
  | nil => rfl
  | cons c t ih =>
    by_cases h : c = 0
    · rw [h, List.cons_append, text_nul, text_nul]
    · rw [List.cons_append, text_cons h, text_cons h, ih]

theorem copyString_append_nul {t : Bytes} (h : 0 ∉ t) (r : Bytes) :
    copyString (t ++ 0::r) = some t := by
  induction t with
  | nil => rfl
  | cons c t ih =>
    obtain ⟨hc, ht⟩ := not_or.mp (mt List.mem_cons.mpr h)
    rw [List.cons_append, copyString, if_neg (Ne.symm hc), ih ht]
    rfl

/-- A directive other than the default one takes an argument; the default puts out its own
letter. -/
theorem directive_cases {d : UInt8} {args : List VaArg} {o : Bytes × List VaArg}
    (h : directive d args = some o) : o.2.length < args.length ∨ o = ([d], args) := by
  unfold directive at h
  split_ifs at h
  case neg => exact Or.inr (Option.some.inj h).symm
  all_goals
    left
    split at h
    · rw [List.length_cons]
      first
        | (cases h; exact Nat.lt_succ_self _)
        | (obtain ⟨t, -, rfl⟩ := Option.map_eq_some_iff.mp h; exact Nat.lt_succ_self _)
    · cases h

section Rounds

variable {c : UInt8} {n : Nat} (fmt : Bytes) (args : List VaArg)

theorem formatFrom_stop (h : n = 0 ∨ c = 0) : formatFrom (c::fmt) n args = some ([], args) := by
  rw [formatFrom.eq_def]
  exact if_pos h

theorem formatFrom_char (hn : n ≠ 0) (h0 : c ≠ 0) (hp : c ≠ charPercent) :
    formatFrom (c::fmt) n args = (formatFrom fmt (n-1) args).map fun r => (c :: r.1, r.2) := by
  rw [formatFrom.eq_def]
  exact (if_neg (not_or.mpr ⟨hn, h0⟩)).trans (if_pos hp)

theorem formatFrom_directive (d : UInt8) (hn : n ≠ 0) :
    formatFrom (charPercent::d::fmt) n args = (directive d args).bind fun o =>
      (formatFrom fmt (n-2) o.2).map fun r => (o.1 ++ r.1, r.2) := by
  have h0 : charPercent ≠ 0 := by decide
  rw [formatFrom.eq_def]
  exact (if_neg (not_or.mpr ⟨hn, h0⟩)).trans (if_neg (not_not.mpr rfl))

end Rounds

/-- A text without `%` is copied. -/
theorem formatFrom_plain {t : Bytes} (h0 : 0 ∉ t) (hp : charPercent ∉ t) (r : Bytes) (n : Nat)
    (hn : t.length ≤ n) (args : List VaArg) :
    formatFrom (t ++ 0::r) n args = some (t, args) := by
  induction t generalizing n with
  | nil => exact formatFrom_stop r args (Or.inr rfl)
  | cons c t ih =>
    rw [List.mem_cons, not_or] at h0 hp
    rw [List.length_cons] at hn
    rw [List.cons_append, formatFrom_char _ _ (by omega) (Ne.symm h0.1) (Ne.symm hp.1),
      ih h0.2 hp.2 (n-1) (by omega), Option.map_some]

/-- What a format loop that uses no argument has done: it put out no more than it read, and
less if it met a `%`. -/
def Shrinks (s : Bytes) (args : List VaArg) (r : Bytes × List VaArg) : Prop :=
  r.2.length ≤ args.length ∧ (r.2.length = args.length →
    (text r.1).length ≤ (text s).length ∧
    (charPercent ∈ text s → (text r.1).length < (text s).length))

theorem Shrinks.done {s : Bytes} {args : List VaArg} (h : text s = []) :
    Shrinks s args ([], args) := by
  refine ⟨le_refl _, fun _ => ⟨Nat.zero_le _, fun hp => ?_⟩⟩
  rw [h] at hp
  exact absurd hp List.not_mem_nil

theorem Shrinks.char {s : Bytes} {args : List VaArg} {r : Bytes × List VaArg} {c : UInt8}
    (h : Shrinks s args r) (h0 : c ≠ 0) (hp : c ≠ charPercent) :
    Shrinks (c::s) args (c :: r.1, r.2) := by
  refine ⟨h.1, fun he => ?_⟩
  obtain ⟨h1, h2⟩ := h.2 he
  dsimp only
  rw [text_cons h0, text_cons h0, List.length_cons, List.length_cons, List.mem_cons]
  refine ⟨Nat.succ_le_succ h1, fun hm => Nat.succ_lt_succ (h2 ?_)⟩
  exact hm.resolve_left (Ne.symm hp)

/-- A directive that takes an argument is ruled out; the default one puts out one character
for two. -/
theorem Shrinks.directive {s : Bytes} {args : List VaArg} {o r : Bytes × List VaArg} {d : UInt8}
    (hd : d ≠ 0) (ho : SBUnix.directive d args = some o) (h : Shrinks s o.2 r) :
    Shrinks (charPercent::d::s) args (o.1 ++ r.1, r.2) := by
  have hp : charPercent ≠ 0 := by decide
  rcases directive_cases ho with hlt | rfl
  · have hle := h.1
    refine ⟨by dsimp only; omega, fun he => ?_⟩
    dsimp only at he
    omega
  · refine ⟨h.1, fun he => ?_⟩
    have hlen := (h.2 he).1
    dsimp only
    rw [List.singleton_append, text_cons hd, text_cons hp, text_cons hd, List.length_cons,
      List.length_cons, List.length_cons]
    exact ⟨by omega, fun _ => by omega⟩

theorem formatFrom_zero (s : Bytes) (args : List VaArg) : formatFrom s 0 args = some ([], args) := by
  cases s with
  | nil =>
    rw [formatFrom.eq_def]
    rfl
  | cons c s => exact formatFrom_stop s args (Or.inl rfl)

/-- By induction on how much of the format is left; a `%` takes its letter with it. -/
theorem formatFrom_shrinks (k : Nat) (s : Bytes) (hk : s.length ≤ k) (n : Nat) (args : List VaArg)
    (r : Bytes × List VaArg) (hn : (text s).length ≤ n) (hn' : n ≤ (text s).length+1)
    (h : formatFrom s n args = some r) : Shrinks s args r := by
  induction k generalizing s n args r with
  | zero =>
    have hs : s = [] := List.eq_nil_of_length_eq_zero (by omega)
    subst hs
    rw [formatFrom.eq_def] at h
    dsimp only at h
    split_ifs at h
    cases h
    exact Shrinks.done rfl
  | succ k ih =>
    cases s with
    | nil => exact ih [] (Nat.zero_le k) n args r hn hn' h
    | cons c fmt =>
      rw [List.length_cons] at hk
      by_cases hstop : n = 0 ∨ c = 0
      · rw [formatFrom_stop _ _ hstop] at h
        cases h
        apply Shrinks.done
        rcases hstop with h | h
        · exact List.eq_nil_of_length_eq_zero (by omega)
        · rw [h, text_nul]
      · rw [not_or] at hstop
        obtain ⟨hn0, h0⟩ := hstop
        rw [text_cons h0, List.length_cons] at hn hn'
        by_cases hp : c = charPercent
        · subst hp
          cases fmt with
          | nil =>
            rw [formatFrom.eq_def] at h
            simp [hn0, charPercent] at h
          | cons d fmt =>
            rw [formatFrom_directive _ _ _ hn0] at h
            obtain ⟨o, ho, hr⟩ := Option.bind_eq_some_iff.mp h
            obtain ⟨q, hq, rfl⟩ := Option.map_eq_some_iff.mp hr
            rw [List.length_cons] at hk
            by_cases hd : d = 0
            · -- a lone % at the end: the terminator is copied and the loop is over
              subst hd
              rw [text_nul, List.length_nil] at hn hn'
              have hn2 : n-2 = 0 := by omega
              rw [hn2, formatFrom_zero] at hq
              cases hq
              cases ho
              refine ⟨le_refl _, fun _ => ?_⟩
              simp [text, charPercent]
            · rw [text_cons hd, List.length_cons] at hn hn'
              exact (ih fmt (by omega) (n-2) o.2 q (by omega) (by omega) hq).directive hd ho
        · rw [formatFrom_char _ _ hn0 h0 hp] at h
          obtain ⟨q, hq, rfl⟩ := Option.map_eq_some_iff.mp h
          exact (ih fmt (by omega) (n-1) args q (by omega) (by omega) hq).char h0 hp

/-- A buffer without a `%` is its own text. -/
theorem vasprintf_plain {buf : Bytes} (hbuf : 0 ∈ buf) (hp : charPercent ∉ text buf)
    (regs : List VaArg) : vasprintf buf regs = some (text buf ++ [0], regs) := by
  obtain ⟨r, hr⟩ := exists_text hbuf
  have hcopy := formatFrom_plain (nul_not_mem_text buf) hp r
    (if text buf = [] then 0 else (text buf).length+1) (by split_ifs with h <;> simp [h]) regs
  rw [← hr] at hcopy
  rw [vasprintf, kstrlen_text hbuf, Option.bind_some, hcopy, Option.map_some]

/-- kprintf leaves a buffer alone exactly when there is no `%` in it and it fits. -/
theorem shownAsIs_iff {buf : Bytes} (hbuf : 0 ∈ buf) (regs : List VaArg) :
    ShownAsIs buf regs ↔ charPercent ∉ text buf ∧ (text buf).length < kprintfBufSize := by
  constructor
  · rintro ⟨out, hout, hfits, htext⟩
    have hp : charPercent ∉ text buf := by
      intro hp
      obtain ⟨len, hlen, hfmt⟩ := Option.bind_eq_some_iff.mp hout
      obtain ⟨q, hq, he⟩ := Option.map_eq_some_iff.mp hfmt
      have hne : text buf ≠ [] := List.ne_nil_of_mem hp
      rw [kstrlen_text hbuf, if_neg hne] at hlen
      cases hlen
      obtain ⟨-, hs⟩ := formatFrom_shrinks _ buf (le_refl _) _ regs q (Nat.le_succ _) (le_refl _) hq
      obtain ⟨hout, hregs⟩ := Prod.mk.inj he
      rw [← hout, text_append_singleton_nul] at htext
      have hlt := (hs (congrArg List.length hregs)).2 hp
      rw [htext] at hlt
      exact absurd hlt (lt_irrefl _)
    rw [vasprintf_plain hbuf hp, Option.some.injEq, Prod.mk.injEq] at hout
    rw [← hout.1, List.length_append, List.length_singleton] at hfits
    exact ⟨hp, hfits⟩
  · rintro ⟨hp, hlen⟩
    refine ⟨_, vasprintf_plain hbuf hp regs, ?_, ?_⟩
    · rwa [List.length_append, List.length_singleton]
    · rw [text_append_singleton_nul, text_of_not_mem (nul_not_mem_text buf)]

/-- The text that the user's printf has formatted is what appears, and no argument is used
up on the way, exactly when no `%` is left in it and it fits kprintf's buffer. -/
theorem printf_shownAsIs_iff (fmt : Bytes) (args regs : List VaArg) (buf : Bytes)
    (rest : List VaArg) (h : vsprintf fmt args = some (buf, rest)) :
    ShownAsIs buf regs ↔ charPercent ∉ text buf ∧ (text buf).length < kprintfBufSize := by
  obtain ⟨len, -, hfmt⟩ := Option.bind_eq_some_iff.mp h
  obtain ⟨q, -, he⟩ := Option.map_eq_some_iff.mp hfmt
  have hbuf : 0 ∈ buf := by
    rw [← (Prod.mk.inj he).1]
    exact List.mem_append_right _ List.mem_cons_self
  exact shownAsIs_iff hbuf regs

/-- `printf("%s", "hi")`. -/
theorem printf_shownAsIs_hi :
    vsprintf [37, 115, 0] [.str [104, 105, 0]] = some ([104, 105, 0], []) ∧
    ShownAsIs [104, 105, 0] [] :=
  ⟨by decide, (printf_shownAsIs_iff [37, 115, 0] [.str [104, 105, 0]] [] [104, 105, 0] []
    (by decide)).mpr ⟨by decide, by decide⟩⟩

/-- `printf("%s", "9%")`: what appears is `9`. -/
theorem printf_loses_percent :
    vsprintf [37, 115, 0] [.str [57, 37, 0]] = some ([57, 37, 0], []) ∧
    vasprintf [57, 37, 0] [] = some ([57, 0, 0], []) ∧ ¬ShownAsIs [57, 37, 0] [] := by
  have hshown : vasprintf [57, 37, 0] [] = some ([57, 0, 0], []) := by decide
  refine ⟨by decide, hshown, ?_⟩
  rintro ⟨out, hout, -, htext⟩
  rw [hshown] at hout
  cases hout
  exact absurd htext (by decide)

end SBUnix
