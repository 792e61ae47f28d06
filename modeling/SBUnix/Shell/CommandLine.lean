import SBUnix.Lib.Strings

namespace SBUnix

open CString

/-- What main hands to execute_command. -/
structure Command where
  str : Bytes
  arg : Bytes
  bgFlag : UInt8
  deriving DecidableEq

/-- `while (input[i] != ' ') { if (input[i] == '\0') break; i++; }` -/
def findSpace : Bytes → Option Nat
  | [] => none
  | c::s => if c = 32 ∨ c = 0 then some 0 else (findSpace s).map (· + 1)

/-- A round of main's loop over what read left at `input`: `some none` where it goes on to the
next line at once. -/
def mainRound (bytes : Int) (input : Bytes) : Option (Option Command) :=
  input.head?.bind fun c =>
    if c = 10 ∨ c = 32 ∨ c = 0 ∨ bytes = 0 then some none
    else
      (strlen input).bind fun len =>
      input[len-1]?.bind fun bgFlag =>
      (findSpace input).bind fun i =>
      (strncpy i input).bind fun str =>
      (strncpy (len-i+1) (input.drop (i+1))).map fun arg =>
        some { str := text str, arg := text arg, bgFlag := bgFlag }

/-- The command a line stands for. -/
structure Splits (line : Bytes) (cmd : Command) : Prop where
  str : cmd.str = line.takeWhile (· ≠ 32)
  arg : cmd.arg = (line.dropWhile (· ≠ 32)).tail
  bgFlag : cmd.bgFlag = 38 ↔ line.getLast? = some 38

/-- The line that stands at `input` is split as it should be, over the bytes `stale` behind its
terminator. -/
def SplitsLine (bytes : Int) (line stale : Bytes) : Prop :=
  ∃ cmd, mainRound bytes (line ++ 0::stale) = some (some cmd) ∧ Splits line cmd

theorem findSpace_append {w : Bytes} (h0 : 0 ∉ w) (hs : 32 ∉ w) {c : UInt8} (hc : c = 32 ∨ c = 0)
    (r : Bytes) : findSpace (w ++ c::r) = some w.length := by
  induction w with
  | nil => simp [findSpace, hc]
  | cons a w ih =>
    simp only [List.mem_cons, not_or] at h0 hs
    have ha : ¬(a = 32 ∨ a = 0) := by simp [Ne.symm hs.1, Ne.symm h0.1]
    rw [List.cons_append, findSpace, if_neg ha, ih h0.2 hs.2]
    rfl

/-- Where the scan stops: at a space or at the end of the line. -/
theorem findSpace_line {line : Bytes} (h0 : 0 ∉ line) (r : Bytes) :
    findSpace (line ++ 0::r) = some (line.takeWhile (· ≠ 32)).length := by
  induction line with
  | nil => rfl
  | cons c line ih =>
    rw [List.mem_cons, not_or] at h0
    rw [List.cons_append, findSpace]
    by_cases hc : c = 32
    · simp [hc]
    · rw [if_neg (by simp [hc, Ne.symm h0.1]), ih h0.2, List.takeWhile_cons_of_pos (by simpa using hc)]
      rfl

section Round

variable {bytes : Int} {line : Bytes}

/-- The length counts the terminator, so the byte looked at for `&` is the terminator. -/
theorem mainRound_eq (hb : bytes ≠ 0) (h0 : 0 ∉ line) {c : UInt8} (hc : line.head? = some c)
    (hsp : c ≠ 32) (hnl : c ≠ 10) (stale : Bytes) {i : Nat}
    (hi : findSpace (line ++ 0::stale) = some i) :
    mainRound bytes (line ++ 0::stale) =
      (strncpy i (line ++ 0::stale)).bind fun str =>
      (strncpy (line.length+1-i+1) ((line ++ 0::stale).drop (i+1))).map fun arg =>
        some { str := text str, arg := text arg, bgFlag := 0 } := by
  have hne : line ≠ [] := by
    intro h
    simp [h] at hc
  have hc0 : c ≠ 0 := by
    intro h
    exact h0 (h ▸ List.mem_of_mem_head? hc)
  have hhead : (line ++ 0::stale).head? = some c := by simp [List.head?_append, hc]
  have hlen : strlen (line ++ 0::stale) = some (line.length+1) := by
    rw [strlen, kstrlen_append_nul h0, if_neg hne]
  have hbg : (line ++ 0::stale)[line.length+1-1]? = some 0 := by simp
  rw [mainRound, hhead, Option.bind_some, if_neg (by simp [hsp, hnl, hc0, hb]), hlen,
    Option.bind_some, hbg, Option.bind_some, hi, Option.bind_some]

/-- With a space in the line, `arg` is what follows it. -/
theorem mainRound_argument {w t : Bytes} (hb : bytes ≠ 0) (hw : 0 ∉ w) (hs : 32 ∉ w) (ht : 0 ∉ t)
    {c : UInt8} (hc : w.head? = some c) (hnl : c ≠ 10) {stale : Bytes} (hst : 3 ≤ stale.length) :
    mainRound bytes ((w ++ 32::t) ++ 0::stale) = some (some ⟨w, t, 0⟩) := by
  have hsp : c ≠ 32 := by
    intro h
    exact hs (h ▸ List.mem_of_mem_head? hc)
  have h0 : 0 ∉ w ++ 32::t := by simp [hw, ht]
  have hsplit : (w ++ 32::t) ++ 0::stale = w ++ 32::(t ++ 0::stale) := by simp
  have hi : findSpace ((w ++ 32::t) ++ 0::stale) = some w.length := by
    rw [hsplit, findSpace_append hw hs (Or.inl rfl)]
  have hdrop : ((w ++ 32::t) ++ 0::stale).drop (w.length+1) = t ++ 0::stale := by
    rw [hsplit, List.drop_append]
    simp
  have hcount : (w ++ 32::t).length+1-w.length+1 = t.length+3 := by
    simp only [List.length_append, List.length_cons]
    omega
  have hstr : strncpy w.length ((w ++ 32::t) ++ 0::stale) = some (w ++ [0]) := by
    rw [hsplit, strncpy_take hw]
  -- if nothing follows the space, the terminator itself is the first byte copied
  have harg : ∃ v, strncpy (t.length+3) (t ++ 0::stale) = some v ∧ text v = t := by
    cases t with
    | nil =>
      obtain ⟨v, hv⟩ := strncpy_cons (n := 2) (c := 0) (s := stale) (by omega)
      exact ⟨0::v, hv, rfl⟩
    | cons a t =>
      refine ⟨a::t ++ [0], strncpy_append_nul ht (List.cons_ne_nil a t) (by omega) stale, ?_⟩
      exact text_append_nul ht []
  obtain ⟨v, hv, hvt⟩ := harg
  have hhead : (w ++ 32::t).head? = some c := by simp [List.head?_append, hc]
  rw [mainRound_eq hb h0 hhead hsp hnl stale hi, hstr, hdrop, hcount, hv, Option.bind_some,
    Option.map_some, hvt, text_append_nul hw]

/-- Without one, `arg` starts with the byte behind the terminator. -/
theorem mainRound_word {w : Bytes} (hb : bytes ≠ 0) (hw : 0 ∉ w) (hs : 32 ∉ w)
    {c : UInt8} (hc : w.head? = some c) (hnl : c ≠ 10) {a : UInt8} {stale : Bytes}
    (hst : 2 ≤ stale.length) :
    ∃ v, mainRound bytes (w ++ 0::a::stale) = some (some ⟨w, text (a::v), 0⟩) := by
  have hsp : c ≠ 32 := by
    intro h
    exact hs (h ▸ List.mem_of_mem_head? hc)
  have hi : findSpace (w ++ 0::a::stale) = some w.length := findSpace_append hw hs (Or.inr rfl) _
  have hdrop : (w ++ 0::a::stale).drop (w.length+1) = a::stale := by
    rw [List.drop_append]
    simp
  have hcount : w.length+1-w.length+1 = 2 := by omega
  obtain ⟨v, hv⟩ := strncpy_cons (n := 1) (c := a) (s := stale) (by omega)
  refine ⟨v, ?_⟩
  rw [mainRound_eq hb hw hc hsp hnl (a::stale) hi, strncpy_take hw, hdrop, hcount, hv,
    Option.bind_some, Option.map_some, text_append_nul hw]

/-- What is cut out of a line, whether or not there is a space in it. -/
theorem mainRound_line (hb : bytes ≠ 0) (h0 : 0 ∉ line) {c : UInt8} (hc : line.head? = some c)
    (hsp : c ≠ 32) (hnl : c ≠ 10) {stale : Bytes} (hst : 3 ≤ stale.length) :
    let w := line.takeWhile (· ≠ 32)
    mainRound bytes (line ++ 0::stale) = some (some ⟨w,
      text (((line ++ 0::stale).drop (w.length+1)).take (line.length+1-w.length+1)), 0⟩) := by
  intro w
  have hpre : w ++ line.dropWhile (· ≠ 32) = line := List.takeWhile_append_dropWhile
  have hlen := congrArg List.length hpre
  rw [List.length_append] at hlen
  have hw : 0 ∉ w := fun h => h0 (hpre ▸ List.mem_append_left _ h)
  obtain ⟨str, hstr⟩ : ∃ v, strncpy w.length (line ++ 0::stale) = some v := by
    apply strncpy_isSome
    rw [List.length_append]
    simp only [List.length_cons]
    omega
  obtain ⟨arg, harg⟩ : ∃ v, strncpy (line.length+1-w.length+1)
      ((line ++ 0::stale).drop (w.length+1)) = some v := by
    apply strncpy_isSome
    rw [List.length_drop, List.length_append, List.length_cons]
    omega
  have htext : text str = w := by
    rw [text_strncpy hstr, ← hpre, List.append_assoc, List.take_left' rfl, text_of_not_mem hw]
  rw [mainRound_eq hb h0 hc hsp hnl stale (findSpace_line h0 stale), hstr, Option.bind_some, harg,
    Option.map_some, htext, text_strncpy harg]

end Round

theorem splits_argument_iff {w t : Bytes} (hs : 32 ∉ w) :
    Splits (w ++ 32::t) ⟨w, t, 0⟩ ↔ (w ++ 32::t).getLast? ≠ some 38 := by
  have hall : ∀ a ∈ w, decide (a ≠ 32) = true := by
    intro a ha
    simp only [decide_eq_true_eq]
    exact fun h => hs (h ▸ ha)
  constructor
  · intro h
    have := h.bgFlag
    simpa using this
  · intro h
    refine ⟨?_, ?_, by simpa using h⟩
    · rw [List.takeWhile_append_of_pos hall]
      simp
    · rw [List.dropWhile_append_of_pos hall]
      simp

theorem splits_word_iff {w : Bytes} (hs : 32 ∉ w) (a : UInt8) (v : Bytes) :
    Splits w ⟨w, text (a::v), 0⟩ ↔ w.getLast? ≠ some 38 ∧ a = 0 := by
  have hall : ∀ b ∈ w, decide (b ≠ 32) = true := by
    intro b hb
    simp only [decide_eq_true_eq]
    exact fun h => hs (h ▸ hb)
  have htake : w.takeWhile (· ≠ 32) = w := List.takeWhile_eq_self_iff.mpr hall
  have hdrop : w.dropWhile (· ≠ 32) = [] := List.dropWhile_eq_nil_iff.mpr hall
  have harg : text (a::v) = [] ↔ a = 0 := by
    by_cases ha : a = 0
    · simp [ha]
    · simp [text_cons ha, ha]
  constructor
  · intro h
    have hbg := h.bgFlag
    have ha := h.arg
    rw [hdrop] at ha
    exact ⟨by simpa using hbg, harg.mp ha⟩
  · intro h
    refine ⟨htake.symm, ?_, by simpa using h.1⟩
    rw [hdrop]
    exact harg.mpr h.2

theorem splitsLine_iff {bytes : Int} (hb : bytes ≠ 0) {line : Bytes} (h0 : 0 ∉ line) {c : UInt8}
    (hc : line.head? = some c) (hsp : c ≠ 32) (hnl : c ≠ 10) {stale : Bytes}
    (hst : 3 ≤ stale.length) :
    SplitsLine bytes line stale ↔
      line.getLast? ≠ some 38 ∧ (32 ∈ line ∨ stale.head? = some 0) := by
  by_cases hs : 32 ∈ line
  · -- the word before the first space is not empty
    obtain ⟨w, t, rfl, hw⟩ := List.eq_append_cons_of_mem hs
    have hhead : w.head? = some c := by
      cases w with
      | nil => exact absurd (by simpa using hc.symm) hsp
      | cons b w => simpa using hc
    have h0' : 0 ∉ w ∧ 0 ∉ t := by simpa using h0
    rw [SplitsLine, mainRound_argument hb h0'.1 hw h0'.2 hhead hnl hst]
    simp [splits_argument_iff hw]
  · match stale, hst with
    | a::stale, hst =>
      have hlen : 2 ≤ stale.length := by simpa using hst
      obtain ⟨v, hv⟩ := mainRound_word (a := a) hb h0 hs hc hnl hlen
      rw [SplitsLine, hv]
      simp [splits_word_iff hs, hs]

/-- `cat f` over a zeroed buffer. -/
theorem splitsLine_cat : (1 : Int) ≠ 0 ∧ SplitsLine 1 [99, 97, 116, 32, 102] [0, 0, 0] :=
  ⟨by decide, (splitsLine_iff (c := 99) (by decide) (by decide) rfl (by decide) (by decide)
    (by decide)).mpr ⟨by decide, by decide⟩⟩

/-- `ls&` is not run in the background, and `ls` after a longer command gets the remains of that
one as its argument. -/
theorem splitsLine_fails :
    ¬ SplitsLine 1 [108, 115, 38] [0, 0, 0] ∧ ¬ SplitsLine 1 [108, 115] [97, 98, 0] := by
  refine ⟨?_, ?_⟩
  · intro ⟨cmd, h, hs⟩
    have hcmd : cmd = ⟨[108, 115, 38], [], 0⟩ := by
      have heval : mainRound 1 [108, 115, 38, 0, 0, 0, 0] = some (some ⟨[108, 115, 38], [], 0⟩) := by
        decide
      exact (Option.some.inj (Option.some.inj (heval.symm.trans h))).symm
    have hbg := hs.bgFlag
    rw [hcmd] at hbg
    exact absurd (hbg.mpr rfl) (by decide)
  · intro ⟨cmd, h, hs⟩
    have hcmd : cmd = ⟨[108, 115], [97, 98], 0⟩ := by
      have heval : mainRound 1 [108, 115, 0, 97, 98, 0] = some (some ⟨[108, 115], [97, 98], 0⟩) := by
        decide
      exact (Option.some.inj (Option.some.inj (heval.symm.trans h))).symm
    have harg := hs.arg
    rw [hcmd] at harg
    exact absurd harg (by decide)

end SBUnix
