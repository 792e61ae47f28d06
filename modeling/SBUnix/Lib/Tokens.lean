import SBUnix.Lib.Strings

namespace SBUnix

open CString

/-- The tokenizer's globals over a family of char arrays: the static `_buffer`, and `check`,
which is the literal "-1" until the first token. A pointer is an array and an offset. -/
structure Tokenizer (κ : Type) where
  str : κ → Bytes
  buffer : Option (κ × Nat)
  check : Option (κ × Nat)

variable {κ : Type} [DecidableEq κ]

def Tokenizer.deref (t : Tokenizer κ) (p : κ × Nat) : Bytes := (t.str p.1).drop p.2

def Tokenizer.checkText (t : Tokenizer κ) : Bytes :=
  match t.check with
  | none => [45, 49, 0]
  | some p => t.deref p

/-- The loop over `b`: the array from `b` on as it is left, with `ret` and `_buffer`. A
delimiter right at `ret` is skipped. -/
def tokScan (delim : Bytes) : Bytes → Nat → Nat → Nat → Option (Bytes × Nat × Nat)
  | [], _, _, _ => none
  | c::s, b, ret, buffer =>
    if c = 0 then some (c::s, ret, buffer)
    else if c ∈ text delim then
      if b = ret then (tokScan delim s (b+1) (ret+1) (b+1)).map fun r => (0 :: r.1, r.2)
      else some (0::s, ret, b+1)
    else (tokScan delim s (b+1) ret buffer).map fun r => (c :: r.1, r.2)

/-- The token, or `some none` for NULL. -/
def kstrtok (str : Option (κ × Nat)) (delim : Bytes) (t : Tokenizer κ) :
    Option (Option (κ × Nat) × Tokenizer κ) :=
  (str.or t.buffer).bind fun p =>
    let t := { t with buffer := some p }
    let s := t.deref p
    s.head?.bind fun c =>
      if c = 0 then some (none, t)
      else (kstrcmp t.checkText s).bind fun d =>
        if d = 0 then some (none, t)
        else (tokScan delim s p.2 p.2 p.2).map fun r =>
          (some (p.1, r.2.1), { t with
            str := Function.update t.str p.1 ((t.str p.1).take p.2 ++ r.1)
            buffer := some (p.1, r.2.2), check := some (p.1, r.2.1) })

/-- `while (path) { j++; path = kstrtok(NULL, delim); }` in at most `n` rounds. -/
def countTokens (delim : Bytes) : Nat → Option (κ × Nat) → Nat → Tokenizer κ →
    Option (Nat × Tokenizer κ)
  | _, none, j, t => some (j, t)
  | 0, some _, _, _ => none
  | n+1, some _, j, t =>
    (kstrtok none delim t).bind fun r => countTokens delim n r.1 (j+1) r.2

/-- A string with its delimiters overwritten by NULs. -/
def blankOut (delim : Bytes) (w : Bytes) : Bytes :=
  w.map fun c => if c ∈ text delim then 0 else c

section Scan

variable {delim : Bytes}

theorem blankOut_length (w : Bytes) : (blankOut delim w).length = w.length := List.length_map _

theorem blankOut_append (v w : Bytes) :
    blankOut delim (v++w) = blankOut delim v ++ blankOut delim w := List.map_append

theorem blankOut_of_not_mem {w : Bytes} (h : ∀ c ∈ w, c ∉ text delim) : blankOut delim w = w := by
  have : w.map (fun c => if c ∈ text delim then 0 else c) = w.map id := by
    apply List.map_congr_left
    intro c hc
    exact if_neg (h c hc)
  rw [blankOut, this, List.map_id]

/-- Behind the start of a token: the scan stops at the terminator or at the next delimiter. -/
theorem tokScan_token (u r : Bytes) (b ret buffer : Nat) (hb : ret < b)
    (hu : ∀ c ∈ u, c ≠ 0 ∧ c ∉ text delim) :
    tokScan delim (u ++ 0::r) b ret buffer = some (u ++ 0::r, ret, buffer) ∧
    ∀ d, d ≠ 0 → d ∈ text delim →
      tokScan delim (u ++ d::r) b ret buffer = some (u ++ 0::r, ret, b+u.length+1) := by
  induction u generalizing b with
  | nil =>
    refine ⟨if_pos rfl, fun d h0 hd => ?_⟩
    rw [List.nil_append, tokScan, if_neg h0, if_pos hd, if_neg (by omega)]
    rfl
  | cons c u ih =>
    obtain ⟨h0, hd⟩ := hu c List.mem_cons_self
    obtain ⟨ih1, ih2⟩ := ih (b+1) (by omega) (fun e he => hu e (List.mem_cons_of_mem _ he))
    refine ⟨?_, fun e he0 he => ?_⟩
    · rw [List.cons_append, tokScan, if_neg h0, if_neg hd, ih1]
      rfl
    · rw [List.cons_append, tokScan, if_neg h0, if_neg hd, ih2 e he0 he, Option.map_some,
        List.length_cons, Nat.add_right_comm b 1, Nat.add_assoc b u.length 1]
      rfl

/-- A token from its first character on. -/
theorem tokScan_start (u r : Bytes) (p : Nat) (hu : ∀ c ∈ u, c ≠ 0 ∧ c ∉ text delim) :
    tokScan delim (u ++ 0::r) p p p = some (u ++ 0::r, p, p) ∧
    (u ≠ [] → ∀ d, d ≠ 0 → d ∈ text delim →
      tokScan delim (u ++ d::r) p p p = some (u ++ 0::r, p, p+u.length+1)) := by
  cases u with
  | nil => exact ⟨if_pos rfl, fun h => absurd rfl h⟩
  | cons c u =>
    obtain ⟨h0, hd⟩ := hu c List.mem_cons_self
    obtain ⟨h1, h2⟩ := tokScan_token u r (p+1) p p (Nat.lt_succ_self p)
      (fun e he => hu e (List.mem_cons_of_mem _ he))
    refine ⟨?_, fun _ e he0 he => ?_⟩
    · rw [List.cons_append, tokScan, if_neg h0, if_neg hd, h1]
      rfl
    · rw [List.cons_append, tokScan, if_neg h0, if_neg hd, h2 e he0 he, Option.map_some,
        List.length_cons, Nat.add_right_comm p 1, Nat.add_assoc p u.length 1]
      rfl

/-- Delimiters at the start of a token are blanked and passed over. -/
theorem tokScan_lead (lead s : Bytes) (p : Nat) (hl : ∀ c ∈ lead, c ≠ 0 ∧ c ∈ text delim) :
    tokScan delim (lead++s) p p p =
      (tokScan delim s (p+lead.length) (p+lead.length) (p+lead.length)).map fun r =>
        (blankOut delim lead ++ r.1, r.2) := by
  induction lead generalizing p with
  | nil =>
    simp [blankOut]
  | cons c lead ih =>
    obtain ⟨h0, hd⟩ := hl c List.mem_cons_self
    rw [List.cons_append, tokScan, if_neg h0, if_pos hd, if_pos rfl,
      ih (p+1) (fun e he => hl e (List.mem_cons_of_mem _ he)), Option.map_map, List.length_cons,
      Nat.add_right_comm p 1, Nat.add_assoc p lead.length 1]
    congr 1
    funext r
    simp [blankOut, hd]

end Scan

/-- The tokenizer stands in array `k` before the string `w`; `pre` is what it has passed, and
`check` points at some string. -/
structure Stands (k : κ) (pre w z : Bytes) (t : Tokenizer κ) : Prop where
  str : t.str k = pre ++ (w ++ 0::z)
  buffer : t.buffer = some (k, pre.length)
  noNul : 0 ∉ w
  checkEnd : 0 ∈ t.checkText

/-- And no delimiter is in the string that `check` points at. -/
structure Cut (delim : Bytes) (k : κ) (pre w z : Bytes) (t : Tokenizer κ) : Prop
    extends Stands k pre w z t where
  checkPlain : ∀ c ∈ text t.checkText, c ∉ text delim

section Loop

variable {delim : Bytes} {k : κ} {pre w z : Bytes} {t : Tokenizer κ}

omit [DecidableEq κ] in
theorem Stands.deref (h : Stands k pre w z t) : t.deref (k, pre.length) = w ++ 0::z := by
  rw [Tokenizer.deref, h.str, List.drop_left]

/-- kstrtok gives up at the end of the string, and at a string equal to the last token. -/
theorem Stands.kstrtok_eq (h : Stands k pre w z t) (delim : Bytes) : kstrtok none delim t =
    if w = [] ∨ w = text t.checkText then some (none, t)
    else (tokScan delim (w ++ 0::z) pre.length pre.length pre.length).map fun r =>
      (some (k, r.2.1), { t with
        str := Function.update t.str k (pre ++ r.1)
        buffer := some (k, r.2.2), check := some (k, r.2.1) }) := by
  have ht : { t with buffer := some (k, pre.length) } = t := by rw [← h.buffer]
  rw [kstrtok, Option.none_or, h.buffer, Option.bind_some]
  dsimp only
  rw [ht, h.deref, h.str, List.take_left]
  cases w with
  | nil => rfl
  | cons c w =>
    have hc : c ≠ 0 := fun e => h.noNul (e ▸ List.mem_cons_self)
    have hmem : 0 ∈ c::w ++ 0::z := List.mem_append_right _ List.mem_cons_self
    obtain ⟨d, hd, hiff⟩ := kstrcmp_text h.checkEnd hmem
    rw [text_append_nul h.noNul] at hiff
    have hsame : (c::w = [] ∨ c::w = text t.checkText) ↔ d = 0 := by
      rw [hiff, or_iff_right (List.cons_ne_nil c w), eq_comm]
    rw [hd, List.cons_append, List.head?_cons, Option.bind_some, if_neg hc, Option.bind_some]
    simp only [hsame]

theorem Stands.kstrtok_null (h : Stands k pre w z t) (hw : w = [] ∨ w = text t.checkText) :
    kstrtok none delim t = some (none, t) := by
  rw [h.kstrtok_eq, if_pos hw]

theorem Stands.kstrtok_scan (h : Stands k pre w z t) (hne : w ≠ [])
    (hw : w ≠ text t.checkText) {s : Bytes} {ret buffer : Nat}
    (hs : tokScan delim (w ++ 0::z) pre.length pre.length pre.length = some (s, ret, buffer)) :
    kstrtok none delim t = some (some (k, ret), { t with
      str := Function.update t.str k (pre++s)
      buffer := some (k, buffer), check := some (k, ret) }) := by
  rw [h.kstrtok_eq, if_neg (not_or.mpr ⟨hne, hw⟩), hs, Option.map_some]

/-- `w` starts with delimiters and the token `u`, and the tokenizer goes on at `w'`: behind the
delimiter that ends the token, or at the token itself if none does. -/
def TokenSplit (delim w u w' : Bytes) : Prop :=
  ∃ lead, (∀ c ∈ lead, c ∈ text delim) ∧ (∀ c ∈ u, c ∉ text delim) ∧
    ((w = lead++u ∧ w' = u) ∨ ∃ d, u ≠ [] ∧ d ∈ text delim ∧ w = lead ++ (u ++ d::w'))

theorem exists_token (delim w : Bytes) : ∃ u w', TokenSplit delim w u w' := by
  induction w with
  | nil => exact ⟨[], [], [], by simp, by simp, Or.inl ⟨rfl, rfl⟩⟩
  | cons c w ih =>
    by_cases hc : c ∈ text delim
    · obtain ⟨u, w', lead, hl, hu, hw⟩ := ih
      refine ⟨u, w', c::lead, ?_, hu, ?_⟩
      · intro e he
        rcases List.mem_cons.mp he with rfl | he
        · exact hc
        · exact hl e he
      · rcases hw with ⟨rfl, rfl⟩ | ⟨d, hne, hd, rfl⟩
        · exact Or.inl ⟨rfl, rfl⟩
        · exact Or.inr ⟨d, hne, hd, rfl⟩
    · cases hf : w.find? (· ∈ text delim) with
      | none =>
        have hall := List.find?_eq_none.mp hf
        refine ⟨c::w, c::w, [], by simp, ?_, Or.inl ⟨rfl, rfl⟩⟩
        intro e he
        rcases List.mem_cons.mp he with rfl | he
        · exact hc
        · simpa using hall e he
      | some d =>
        obtain ⟨hd, u, r, rfl, hu⟩ := List.find?_eq_some_iff_append.mp hf
        refine ⟨c::u, r, [], by simp, ?_,
          Or.inr ⟨d, List.cons_ne_nil c u, by simpa using hd, rfl⟩⟩
        intro e he
        rcases List.mem_cons.mp he with rfl | he
        · exact hc
        · simpa using hu e he

/-- The call that returns the token `u` at `q` and leaves the tokenizer `t'` before `w'`. -/
structure Returned (delim : Bytes) (k : κ) (pre w z : Bytes) (t : Tokenizer κ) (u w' : Bytes)
    (q : κ × Nat) (t' : Tokenizer κ) : Prop where
  run : kstrtok none delim t = some (some q, t')
  split : TokenSplit delim w u w'
  cut : ∃ x, Cut delim k (pre++x) w' z t' ∧ x ++ blankOut delim w' = blankOut delim w
  token : text (t'.deref q) = u
  check : t'.check = some q
  array : q.1 = k
  others : ∀ k', k' ≠ k → t'.str k' = t.str k'

/-- The tokenizer after it has returned the token `u` that starts at `ret` of the array. -/
theorem cut_after (t : Tokenizer κ) (k : κ) {arr a u y : Bytes} {ret buffer : Nat}
    (hu : ∀ c ∈ u, c ≠ 0 ∧ c ∉ text delim) (harr : arr = a ++ (u ++ 0::y)) (hret : a.length = ret)
    (hrest : arr = pre ++ (w ++ 0::z)) (hbuf : pre.length = buffer) (hw : 0 ∉ w) :
    Cut delim k pre w z ({ t with
      str := Function.update t.str k arr
      buffer := some (k, buffer), check := some (k, ret) }) ∧
    text (Tokenizer.deref { t with
      str := Function.update t.str k arr
      buffer := some (k, buffer), check := some (k, ret) } (k, ret)) = u := by
  have hderef : Tokenizer.deref { t with
      str := Function.update t.str k arr
      buffer := some (k, buffer), check := some (k, ret) } (k, ret) = u ++ 0::y := by
    rw [Tokenizer.deref]
    dsimp only
    rw [Function.update_self, harr, ← hret, List.drop_left]
  have hcheck : Tokenizer.checkText { t with
      str := Function.update t.str k arr
      buffer := some (k, buffer), check := some (k, ret) } = u ++ 0::y := hderef
  have htext : text (u ++ 0::y) = u := text_append_nul (fun e => (hu 0 e).1 rfl) y
  refine ⟨⟨⟨?_, by rw [hbuf], hw, ?_⟩, ?_⟩, by rw [hderef, htext]⟩
  · exact (Function.update_self k arr t.str).trans hrest
  · rw [hcheck]
    exact List.mem_append_right _ List.mem_cons_self
  · rw [hcheck, htext]
    exact fun c hc => (hu c hc).2

/-- One call that does not return NULL. -/
theorem Stands.kstrtok_token (h : Stands k pre w z t) (delim : Bytes) (hne : w ≠ [])
    (hw : w ≠ text t.checkText) : ∃ u w' q t', Returned delim k pre w z t u w' q t' := by
  have hd0 : 0 ∉ text delim := nul_not_mem_text delim
  obtain ⟨u, w', hsplit⟩ := exists_token delim w
  obtain ⟨lead, hl, hu, hcases⟩ := id hsplit
  have hl0 : ∀ c ∈ lead, c ≠ 0 ∧ c ∈ text delim :=
    fun c hc => ⟨fun e => hd0 (e ▸ hl c hc), hl c hc⟩
  have hlen : (pre ++ blankOut delim lead).length = pre.length + lead.length := by
    rw [List.length_append, blankOut_length]
  rcases hcases with ⟨rfl, rfl⟩ | ⟨d, hune, hd, rfl⟩
  · have hu0 : ∀ c ∈ w', c ≠ 0 ∧ c ∉ text delim :=
      fun c hc => ⟨fun e => h.noNul (List.mem_append_right _ (e ▸ hc)), hu c hc⟩
    have hscan : tokScan delim (lead++w' ++ 0::z) pre.length pre.length pre.length =
        some (blankOut delim lead ++ (w' ++ 0::z), pre.length+lead.length,
          pre.length+lead.length) := by
      rw [List.append_assoc, tokScan_lead _ _ _ hl0, (tokScan_start w' z _ hu0).1,
        Option.map_some]
    have harr : pre ++ (blankOut delim lead ++ (w' ++ 0::z)) =
        (pre ++ blankOut delim lead) ++ (w' ++ 0::z) := by rw [List.append_assoc]
    obtain ⟨hcut, htok⟩ := cut_after t k hu0 harr hlen harr hlen (fun e => (hu0 0 e).1 rfl)
    exact ⟨w', w', _, _, {
      run := h.kstrtok_scan hne hw hscan
      split := hsplit
      cut := ⟨blankOut delim lead, hcut, (blankOut_append lead w').symm⟩
      token := htok
      check := rfl
      array := rfl
      others := fun k' hk => Function.update_of_ne hk _ _ }⟩
  · have h0 : 0 ∉ u ++ d::w' := fun e => h.noNul (List.mem_append_right _ e)
    have hu0 : ∀ c ∈ u, c ≠ 0 ∧ c ∉ text delim :=
      fun c hc => ⟨fun e => h0 (List.mem_append_left _ (e ▸ hc)), hu c hc⟩
    have hscan : tokScan delim (lead ++ (u ++ d::w') ++ 0::z) pre.length pre.length pre.length =
        some (blankOut delim lead ++ (u ++ 0::(w' ++ 0::z)), pre.length+lead.length,
          pre.length+lead.length+u.length+1) := by
      rw [List.append_assoc, tokScan_lead _ _ _ hl0, List.append_assoc, List.cons_append,
        (tokScan_start u (w' ++ 0::z) _ hu0).2 hune d (fun e => hd0 (e ▸ hd)) hd, Option.map_some]
    have harr : pre ++ (blankOut delim lead ++ (u ++ 0::(w' ++ 0::z))) =
        (pre ++ blankOut delim lead) ++ (u ++ 0::(w' ++ 0::z)) := by rw [List.append_assoc]
    have hrest : pre ++ (blankOut delim lead ++ (u ++ 0::(w' ++ 0::z))) =
        (pre ++ (blankOut delim lead ++ u ++ [0])) ++ (w' ++ 0::z) := by simp
    have hbuf : (pre ++ (blankOut delim lead ++ u ++ [0])).length =
        pre.length+lead.length+u.length+1 := by
      simp only [List.length_append, blankOut_length, List.length_singleton]
      omega
    obtain ⟨hcut, htok⟩ := cut_after t k hu0 harr hlen hrest hbuf
      (fun e => h0 (List.mem_append_right _ (List.mem_cons_of_mem _ e)))
    have hblank : blankOut delim (d::w') = 0 :: blankOut delim w' := by
      rw [blankOut, List.map_cons, if_pos hd]
      rfl
    exact ⟨u, w', _, _, {
      run := h.kstrtok_scan hne hw hscan
      split := hsplit
      cut := ⟨_, hcut, by
        rw [blankOut_append, blankOut_append, blankOut_of_not_mem hu, hblank]
        simp⟩
      token := htok
      check := rfl
      array := rfl
      others := fun k' hk => Function.update_of_ne hk _ _ }⟩

omit [DecidableEq κ] in
theorem checkText_of_check {t : Tokenizer κ} {q : κ × Nat} (h : t.check = some q) :
    t.checkText = t.deref q := by
  rw [Tokenizer.checkText, h]

theorem Returned.checkText {u w' : Bytes} {q : κ × Nat} {t' : Tokenizer κ}
    (h : Returned delim k pre w z t u w' q t') : text t'.checkText = u := by
  rw [checkText_of_check h.check, h.token]

/-- The tokenizer gets on, or stands before the token itself, which it will not return twice. -/
theorem TokenSplit.shorter {u w' : Bytes} (h : TokenSplit delim w u w') :
    w'.length < w.length ∨ w' = u := by
  obtain ⟨lead, -, -, ⟨-, hw'⟩ | ⟨d, -, -, rfl⟩⟩ := h
  · exact Or.inr hw'
  · left
    simp
    omega

theorem kstrtok_some (p : κ × Nat) (delim : Bytes) (t : Tokenizer κ) :
    kstrtok (some p) delim t = kstrtok none delim { t with buffer := some p } := rfl

/-- A call and the loop behind it: they come to an end, the delimiters of the string are NULs
then, and no other array is written. -/
theorem Cut.countTokens (h : Cut delim k pre w z t) (n : Nat)
    (hn : w.length + 1 ≤ n ∨ w = text t.checkText) (j : Nat) :
    ∃ i u, ((kstrtok none delim t).bind fun r => SBUnix.countTokens delim n r.1 j r.2) =
        some (i, u) ∧
      u.str k = pre ++ (blankOut delim w ++ 0::z) ∧ (∀ k', k' ≠ k → u.str k' = t.str k') ∧
      0 ∈ u.checkText ∧ (∀ c ∈ text u.checkText, c ∉ text delim) ∧
      (u.check = t.check ∨ ∃ q, u.check = some q ∧ q.1 = k) := by
  induction n generalizing pre w t j with
  | zero =>
    have hw : w = text t.checkText := hn.resolve_left (by omega)
    have hplain : ∀ c ∈ w, c ∉ text delim := hw ▸ h.checkPlain
    rw [h.kstrtok_null (Or.inr hw), Option.bind_some, SBUnix.countTokens,
      blankOut_of_not_mem hplain]
    exact ⟨j, t, rfl, h.str, fun _ _ => rfl, h.checkEnd, h.checkPlain, Or.inl rfl⟩
  | succ n ih =>
    by_cases hnull : w = [] ∨ w = text t.checkText
    · have hplain : ∀ c ∈ w, c ∉ text delim := by
        rcases hnull with rfl | hw
        · simp
        · exact hw ▸ h.checkPlain
      rw [h.kstrtok_null hnull, Option.bind_some, SBUnix.countTokens,
        blankOut_of_not_mem hplain]
      exact ⟨j, t, rfl, h.str, fun _ _ => rfl, h.checkEnd, h.checkPlain, Or.inl rfl⟩
    · rw [not_or] at hnull
      obtain ⟨u, w', q, t', hret⟩ := h.kstrtok_token delim hnull.1 hnull.2
      obtain ⟨x, hcut, hx⟩ := hret.cut
      -- a string equal to the last token is given up at once, so a token is always progress
      have hmore : w'.length + 1 ≤ n ∨ w' = text t'.checkText := by
        have hlen := hn.resolve_right hnull.2
        rcases hret.split.shorter with hless | heq
        · exact Or.inl (by omega)
        · exact Or.inr (heq.trans hret.checkText.symm)
      obtain ⟨i, v, hv, hvk, hvstr, hend, hplain, hcheck⟩ := ih hcut hmore (j+1)
      rw [hret.run, Option.bind_some, SBUnix.countTokens, hv]
      refine ⟨i, v, rfl, ?_, fun k' hk' => (hvstr k' hk').trans (hret.others k' hk'), hend, hplain,
        ?_⟩
      · rw [hvk, ← hx, List.append_assoc, List.append_assoc]
      · rcases hcheck with hcheck | hcheck
        · exact Or.inr ⟨q, hcheck.trans hret.check, hret.array⟩
        · exact Or.inr hcheck

end Loop

end SBUnix
