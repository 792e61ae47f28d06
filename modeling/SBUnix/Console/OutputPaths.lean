import SBUnix.Console.Format

namespace SBUnix

open CString

def formatChar : Bytes := [charPercent, 99, 0]
def formatString : Bytes := [charPercent, 115, 0]

/-- kprintf stays inside its buffer and leaves the screen `t`. -/
def KprintfShows (fmt : Bytes) (args : List VaArg) (s t : Screen) : Prop :=
  ∃ out rest, vasprintf fmt args = some (out, rest) ∧ out.length ≤ kprintfBufSize ∧
    kprintf fmt args s = some (rest, t)

/-- The three ways to put out a character do the same; `v` is the int that kprintf is given. -/
structure PathsAgree (c : UInt8) (v : Nat) (s : Screen) : Prop where
  putc : SameScreen (putc c s).2 (putch c s)
  kprintf : ∃ t, KprintfShows formatChar [.word v] s t ∧ SameScreen t (putch c s)

/-- `kprintf("%s", str)` and the string echoed character by character. -/
def StringAgrees (str : Bytes) (s : Screen) : Prop :=
  ∃ t, KprintfShows formatString [.str (str ++ [0])] s t ∧ SameScreen t (putchAll str s)

def kprintfAll (str : Bytes) (s : Screen) : Screen := str.foldl (fun s c => kprintfChar c s) s

theorem putchAll_append_singleton (str : Bytes) (c : UInt8) (s : Screen) :
    putchAll (str ++ [c]) s = putch c (putchAll str s) := by
  rw [putchAll, List.foldl_append]
  rfl

theorem kprintfAll_append_singleton (str : Bytes) (c : UInt8) (s : Screen) :
    kprintfAll (str ++ [c]) s = kprintfChar c (kprintfAll str s) := by
  rw [kprintfAll, List.foldl_append]
  rfl

theorem kprintfChars_append_nul {t : Bytes} (h : 0 ∉ t) (s : Screen) :
    kprintfChars (t ++ [0]) s = kprintfAll t s := by
  induction t generalizing s with
  | nil => rfl
  | cons c t ih =>
    obtain ⟨hc, ht⟩ := not_or.mp (mt List.mem_cons.mpr h)
    rw [List.cons_append, kprintfChars, if_neg (Ne.symm hc), ih ht]
    rfl

theorem vasprintf_char (v : Nat) :
    vasprintf formatChar [.word v] = some ([UInt8.ofNat v, 0], []) := rfl

theorem vasprintf_string {t : Bytes} (h : 0 ∉ t) :
    vasprintf formatString [.str (t ++ [0])] = some (t ++ [0], []) := by
  have hlen : kstrlen formatString = some 3 := rfl
  have hd : directive 115 [.str (t ++ [0])] = some (t, []) := by
    rw [directive, if_pos rfl, copyString_append_nul h]
    rfl
  have hf : formatFrom formatString 3 [.str (t ++ [0])] = some (t, []) := by
    rw [formatString, formatFrom_directive [0] _ 115 (by decide), hd, Option.bind_some,
      formatFrom_stop _ _ (Or.inr rfl)]
    simp
  rw [vasprintf, hlen, Option.bind_some, hf]
  rfl

theorem kprintfShows_char_iff {v : Nat} (h : UInt8.ofNat v ≠ 0) (s t : Screen) :
    KprintfShows formatChar [.word v] s t ↔ t = kprintfChar (UInt8.ofNat v) s := by
  have hk : kprintf formatChar [.word v] s = some ([], kprintfChar (UInt8.ofNat v) s) := by
    rw [kprintf, vasprintf_char, Option.map_some]
    exact congrArg (fun u => some ([], u)) (if_neg h)
  constructor
  · rintro ⟨out, rest, -, -, ht⟩
    rw [hk] at ht
    exact (congrArg Prod.snd (Option.some.inj ht)).symm
  · rintro rfl
    have hfits : [UInt8.ofNat v, 0].length ≤ kprintfBufSize := by
      rw [kprintfBufSize]
      simp
    exact ⟨_, _, vasprintf_char v, hfits, hk⟩

theorem kprintfShows_string_iff {str : Bytes} (h : 0 ∉ str) (s t : Screen) :
    KprintfShows formatString [.str (str ++ [0])] s t ↔
      str.length < kprintfBufSize ∧ t = kprintfAll str s := by
  have hk : kprintf formatString [.str (str ++ [0])] s = some ([], kprintfAll str s) := by
    rw [kprintf, vasprintf_string h, Option.map_some, kprintfChars_append_nul h]
  constructor
  · rintro ⟨out, rest, hout, hlen, ht⟩
    rw [vasprintf_string h] at hout
    rw [hk] at ht
    obtain ⟨rfl, -⟩ := Prod.mk.inj (Option.some.inj hout)
    refine ⟨?_, (congrArg Prod.snd (Option.some.inj ht)).symm⟩
    rwa [List.length_append, List.length_singleton] at hlen
  · rintro ⟨hlen, rfl⟩
    refine ⟨_, _, vasprintf_string h, ?_, hk⟩
    rwa [List.length_append, List.length_singleton]

/-- The switch on the tab is all that kprintf's loop lacks. -/
theorem echo_of_ne_tab {c : UInt8} (h : c ≠ charTab) (s : Screen) :
    echo true c s = echo false c s := by
  have ha : advance true c s = advance false c s := feedTab_of_ne h _
  rw [echo, echo, ha]

/-- No column is as far from the left end of its row as a tab leaves the cursor. -/
theorem echo_tab_ne (s : Screen) : (echo false charTab s).x ≠ (echo true charTab s).x := by
  have hb : charTab ≠ charBackspace := by decide
  have hplain : (echo false charTab s).x = (wrapLine s).x+1 := by
    have hr : ¬Recovers false charTab := by
      rw [Recovers]
      decide
    rw [echo, (putCell_right hb).1, advance_other hr]
  have htab : (echo true charTab s).x = (feedTab charTab (wrapLine s)).x+1 := by
    rw [echo, (putCell_right hb).1, advance_tab]
  rw [hplain, htab, feedTab_tab]
  split_ifs
  · dsimp only
    omega
  · dsimp only
    omega

theorem kprintfAll_eq {str : Bytes} (h : charTab ∉ str) (s : Screen) :
    kprintfAll str s = putchAll str s := by
  induction str generalizing s with
  | nil => rfl
  | cons c str ih =>
    obtain ⟨hc, hstr⟩ := not_or.mp (mt List.mem_cons.mpr h)
    have hstep : kprintfChar c s = putch c s := (echo_of_ne_tab (Ne.symm hc) s).symm
    have hl : kprintfAll (c::str) s = kprintfAll str (kprintfChar c s) := rfl
    have hr : putchAll (c::str) s = putchAll str (putch c s) := rfl
    rw [hl, hr, hstep, ih hstr]

theorem stringAgrees_iff {str : Bytes} (h : 0 ∉ str) (s : Screen) : StringAgrees str s ↔
    str.length < kprintfBufSize ∧ SameScreen (kprintfAll str s) (putchAll str s) := by
  constructor
  · rintro ⟨t, ht, hs⟩
    obtain ⟨hlen, rfl⟩ := (kprintfShows_string_iff h s t).mp ht
    exact ⟨hlen, hs⟩
  · rintro ⟨hlen, hs⟩
    exact ⟨_, (kprintfShows_string_iff h s _).mpr ⟨hlen, rfl⟩, hs⟩

theorem not_stringAgrees_tab {str : Bytes} (h0 : 0 ∉ str) (ht : charTab ∉ str) (s : Screen) :
    ¬StringAgrees (str ++ [charTab]) s := by
  intro h
  have h0' : 0 ∉ str ++ [charTab] := by
    rw [List.mem_append, not_or]
    exact ⟨h0, by decide⟩
  have hs := ((stringAgrees_iff h0' s).mp h).2
  rw [kprintfAll_append_singleton, putchAll_append_singleton, kprintfAll_eq ht] at hs
  exact echo_tab_ne _ hs.x

theorem pathsAgree_iff {c : UInt8} {v : Nat} (hv : UInt8.ofNat v = c) (h : c ≠ 0) (s : Screen) :
    PathsAgree c v s ↔ c ≠ charTab := by
  subst hv
  constructor
  · rintro ⟨-, t, ht, hs⟩ hc
    rw [kprintfShows_char_iff h, hc] at ht
    rw [ht, hc] at hs
    exact echo_tab_ne s hs.x
  · intro hc
    refine ⟨.refl _, _, (kprintfShows_char_iff h s _).mpr rfl, ?_⟩
    rw [kprintfChar, ← echo_of_ne_tab hc]
    exact .refl _

/-- On every screen: the three functions agree on a character exactly when it is no tab, and
a string looks the same both ways all along exactly when it has no tab and fits kprintf's
buffer. -/
theorem outputs_agree_iff (s : Screen) :
    (∀ c v, UInt8.ofNat v = c → c ≠ 0 → (PathsAgree c v s ↔ c ≠ charTab)) ∧
    ∀ str : Bytes, 0 ∉ str →
      ((∀ p, p <+: str → StringAgrees p s) ↔ charTab ∉ str ∧ str.length < kprintfBufSize) := by
  refine ⟨fun c v hv h => pathsAgree_iff hv h s, ?_⟩
  intro str h0
  constructor
  · intro hall
    refine ⟨?_, ((stringAgrees_iff h0 s).mp (hall str List.prefix_rfl)).1⟩
    -- the part up to the first tab already differs
    intro ht
    obtain ⟨a, b, rfl, ha⟩ := List.eq_append_cons_of_mem ht
    have h0a : 0 ∉ a := fun h => h0 (List.mem_append_left _ h)
    apply not_stringAgrees_tab h0a ha s
    apply hall
    exact ⟨b, by simp⟩
  · rintro ⟨ht, hlen⟩ p hp
    have h0p : 0 ∉ p := fun h => h0 (hp.subset h)
    have htp : charTab ∉ p := fun h => ht (hp.subset h)
    rw [stringAgrees_iff h0p, kprintfAll_eq htp]
    exact ⟨hp.length_le.trans_lt hlen, .refl _⟩

/-- A tab on an empty screen: putch leaves the cursor in column 5, kprintf in column 1. -/
theorem tab_paths_differ :
    (putch charTab (.home fun _ => 0)).x = 5 ∧
    (kprintf formatChar [.word 9] (.home fun _ => 0)).map (·.2.x) = some 1 ∧
    ¬PathsAgree charTab 9 (.home fun _ => 0) := by
  refine ⟨rfl, rfl, ?_⟩
  intro h
  exact (pathsAgree_iff rfl (by decide) _).mp h rfl

theorem outputs_agree_letter :
    PathsAgree 97 97 (.home fun _ => 0) ∧ StringAgrees [104, 105, 10] (.home fun _ => 0) :=
  ⟨((outputs_agree_iff _).1 97 97 rfl (by decide)).mpr (by decide),
    ((outputs_agree_iff _).2 [104, 105, 10] (by decide)).mpr ⟨by decide, by decide⟩ _
      List.prefix_rfl⟩

end SBUnix
