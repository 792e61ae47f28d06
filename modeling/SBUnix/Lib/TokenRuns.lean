import SBUnix.Lib.Tokens

namespace SBUnix

open CString

variable {κ : Type} [DecidableEq κ]

/-- `path = kstrtok(str, delim); while (path) path = kstrtok(NULL, delim);` in at most `n` calls:
the tokens as they stand when they are returned. -/
def tokenLoop (delim : Bytes) : Nat → Option (κ × Nat) → Tokenizer κ →
    Option (List Bytes × Tokenizer κ)
  | 0, _, _ => none
  | n+1, str, t =>
    (kstrtok str delim t).bind fun r =>
      match r.1 with
      | none => some ([], r.2)
      | some q => (tokenLoop delim n none r.2).map fun s => (text (r.2.deref q) :: s.1, s.2)

/-- What stands between the delimiters of a string. -/
def pieces (delim w : Bytes) : List Bytes := w.splitOnP (· ∈ text delim)

/-- The maximal runs of characters that are not delimiters. -/
def runs (delim w : Bytes) : List Bytes := (pieces delim w).filter (· ≠ [])

/-- The last two pieces differ. They are equal in "a/a", and in "a//" and "/" where both are
empty. -/
def Parted (ps : List Bytes) : Prop := ps.getLast? ≠ ps.dropLast.getLast?

/-- The string `w` is tokenised into its runs after a tokenisation that left the string `c` in
`check`. -/
def TokensRight (delim c w : Bytes) : Prop :=
  if w = c then runs delim w = [] else Parted (pieces delim w)

instance (ps : List Bytes) : Decidable (Parted ps) := inferInstanceAs (Decidable (_ ≠ _))

instance (delim c w : Bytes) : Decidable (TokensRight delim c w) :=
  inferInstanceAs (Decidable (ite _ _ _))

section Pieces

variable {delim : Bytes}

theorem pieces_plain {u : Bytes} (hu : ∀ c ∈ u, c ∉ text delim) : pieces delim u = [u] := by
  apply List.splitOnP_eq_singleton
  simpa using hu

theorem pieces_token {u : Bytes} (hu : ∀ c ∈ u, c ∉ text delim) {d : UInt8}
    (hd : d ∈ text delim) (w : Bytes) : pieces delim (u ++ d::w) = u :: pieces delim w := by
  apply List.splitOnP_append_cons_of_forall_mem
  · simpa using hu
  · simpa using hd

theorem pieces_lead {lead : Bytes} (hl : ∀ c ∈ lead, c ∈ text delim) (w : Bytes) :
    pieces delim (lead++w) = List.replicate lead.length [] ++ pieces delim w := by
  induction lead with
  | nil => rfl
  | cons c lead ih =>
    have hc := hl c List.mem_cons_self
    have hrest := ih (fun e he => hl e (List.mem_cons_of_mem c he))
    have hfirst := pieces_token (u := []) (by simp) hc (lead++w)
    rw [List.nil_append] at hfirst
    rw [List.cons_append, hfirst, hrest, List.length_cons, List.replicate_succ, List.cons_append]

theorem runs_lead {lead : Bytes} (hl : ∀ c ∈ lead, c ∈ text delim) (w : Bytes) :
    runs delim (lead++w) = runs delim w := by
  rw [runs, pieces_lead hl, List.filter_append, List.filter_replicate]
  simp [runs]

theorem runs_token {u : Bytes} (hu : ∀ c ∈ u, c ∉ text delim) (hne : u ≠ []) {d : UInt8}
    (hd : d ∈ text delim) (w : Bytes) : runs delim (u ++ d::w) = u :: runs delim w := by
  rw [runs, pieces_token hu hd, List.filter_cons_of_pos (by simpa using hne), runs]

theorem runs_plain {u : Bytes} (hu : ∀ c ∈ u, c ∉ text delim) :
    runs delim u = if u = [] then [] else [u] := by
  rw [runs, pieces_plain hu]
  by_cases hne : u = []
  · simp [hne]
  · simp [hne]

/-- A string with a delimiter in it has two pieces at least. -/
theorem pieces_cases (delim w : Bytes) :
    ((∀ c ∈ w, c ∉ text delim) ∧ pieces delim w = [w]) ∨
      ∃ a b l, pieces delim w = a::b::l := by
  obtain ⟨u, w', lead, hl, hu, hw⟩ := exists_token delim w
  rcases hw with ⟨rfl, -⟩ | ⟨d, -, hd, rfl⟩
  · cases lead with
    | nil => exact Or.inl ⟨hu, pieces_plain hu⟩
    | cons c lead =>
      right
      rw [pieces_lead hl, pieces_plain hu, List.length_cons, List.replicate_succ]
      cases lead with
      | nil => exact ⟨[], u, [], rfl⟩
      | cons e lead => exact ⟨[], [], _, rfl⟩
  · right
    rw [pieces_lead hl, pieces_token hu hd]
    obtain ⟨b, l, hb⟩ := List.exists_cons_of_ne_nil (List.splitOnP_ne_nil (· ∈ text delim) w')
    rw [pieces, hb]
    cases lead with
    | nil => exact ⟨u, b, l, rfl⟩
    | cons c lead =>
      cases lead with
      | nil => exact ⟨[], u, b::l, rfl⟩
      | cons e lead => exact ⟨[], [], _, rfl⟩

theorem parted_append (x : List Bytes) (a b : Bytes) (l : List Bytes) :
    Parted (x ++ a::b::l) ↔ Parted (a::b::l) := by
  have hdrop : (a::b::l).dropLast ≠ [] := by simp
  rw [Parted, Parted, List.dropLast_append_of_ne_nil (by simp),
    List.getLast?_append_of_ne_nil _ (by simp), List.getLast?_append_of_ne_nil _ hdrop]

theorem parted_pair (x : List Bytes) (a b : Bytes) : Parted (x ++ [a, b]) ↔ a ≠ b := by
  rw [parted_append]
  simp [Parted, ne_comm]

/-- Leading delimiters and a last run. -/
theorem parted_last {lead u : Bytes} (hl : ∀ c ∈ lead, c ∈ text delim)
    (hu : ∀ c ∈ u, c ∉ text delim) (hne : lead++u ≠ []) :
    Parted (pieces delim (lead++u)) ↔ u ≠ [] := by
  rw [pieces_lead hl, pieces_plain hu]
  rcases List.eq_nil_or_concat lead with rfl | ⟨lead, c, rfl⟩
  · simpa [Parted] using hne
  · rw [List.length_concat, List.replicate_succ', List.append_assoc, List.singleton_append,
      parted_pair]
    exact ne_comm

/-- A run and the delimiter behind it: the rest is split after the token `u`. -/
theorem parted_token {lead u w' : Bytes} {d : UInt8} (hl : ∀ c ∈ lead, c ∈ text delim)
    (hu : ∀ c ∈ u, c ∉ text delim) (hne : u ≠ []) (hd : d ∈ text delim) :
    Parted (pieces delim (lead ++ (u ++ d::w'))) ↔ TokensRight delim u w' := by
  rw [pieces_lead hl, pieces_token hu hd, TokensRight]
  by_cases hw : w' = u
  · rw [if_pos hw, hw, pieces_plain hu, parted_pair, runs_plain hu]
    simp [hne]
  · rw [if_neg hw]
    rcases pieces_cases delim w' with ⟨-, hone⟩ | ⟨a, b, l, htwo⟩
    · rw [hone, parted_pair]
      simpa [Parted] using Ne.symm hw
    · rw [htwo]
      have hsplit : List.replicate lead.length [] ++ u::a::b::l =
          (List.replicate lead.length [] ++ [u]) ++ a::b::l := by simp
      rw [hsplit, parted_append]

end Pieces

section Loop

variable {delim : Bytes} {k : κ} {pre w z : Bytes} {t : Tokenizer κ}

/-- The token, and what a loop over the rest of the string returns. -/
theorem TokenSplit.tokensRight {u w' : Bytes} (h : TokenSplit delim w u w') (hne : w ≠ [])
    {c : Bytes} (hc : w ≠ c) {toks : List Bytes} (hend : w' = u → toks = [])
    (htoks : toks = runs delim w' ↔ TokensRight delim u w') :
    u::toks = runs delim w ↔ TokensRight delim c w := by
  rw [TokensRight, if_neg hc]
  obtain ⟨lead, hl, hu, ⟨rfl, rfl⟩ | ⟨d, hune, hd, rfl⟩⟩ := h
  · rw [parted_last hl hu hne, runs_lead hl, runs_plain hu, hend rfl]
    by_cases hw' : w' = []
    · simp [hw']
    · simp [hw']
  · rw [parted_token hl hu hune hd, runs_lead hl, runs_token hu hune hd, List.cons_inj_right, htoks]

/-- From wherever the tokenizer stands. A string equal to the last token ends the loop at once,
every other call takes at least one character of the string. -/
theorem Stands.tokenLoop (h : Stands k pre w z t) (delim : Bytes) (n : Nat)
    (hn : w.length + 2 ≤ n ∨ w = text t.checkText ∧ 1 ≤ n) :
    ∃ toks u w', tokenLoop delim n none t = some (toks, u) ∧
      u.str k = pre ++ (w' ++ 0::z) ∧ w'.length = w.length ∧
      (∀ k', k' ≠ k → u.str k' = t.str k') ∧
      (w = text t.checkText → toks = []) ∧
      (toks = runs delim w ↔ TokensRight delim (text t.checkText) w) := by
  induction n generalizing pre w t with
  | zero => omega
  | succ n ih =>
    by_cases hnull : w = [] ∨ w = text t.checkText
    · refine ⟨[], t, w, ?_, h.str, rfl, fun _ _ => rfl, fun _ => rfl, ?_⟩
      · rw [SBUnix.tokenLoop, h.kstrtok_null hnull, Option.bind_some]
      · rw [TokensRight]
        rcases hnull with rfl | hw
        · simp [runs, pieces, Parted]
        · rw [if_pos hw, eq_comm]
    · rw [not_or] at hnull
      obtain ⟨u, w', q, t', hret⟩ := h.kstrtok_token delim hnull.1 hnull.2
      obtain ⟨x, hcut, hx⟩ := hret.cut
      have hlen : 0 < w.length := List.length_pos_iff.mpr hnull.1
      have hmore : w'.length + 2 ≤ n ∨ w' = text t'.checkText ∧ 1 ≤ n := by
        have := hn.resolve_right (fun e => hnull.2 e.1)
        rcases hret.split.shorter with hless | heq
        · exact Or.inl (by omega)
        · exact Or.inr ⟨heq.trans hret.checkText.symm, by omega⟩
      obtain ⟨toks, v, w'', hv, hvk, hw'', hothers, hend, htoks⟩ := ih hcut.toStands hmore
      rw [hret.checkText] at hend htoks
      refine ⟨u::toks, v, x++w'', ?_, ?_, ?_, ?_, ?_, ?_⟩
      · rw [SBUnix.tokenLoop, hret.run, Option.bind_some]
        dsimp only
        rw [hv, Option.map_some, hret.token]
      · rw [hvk, List.append_assoc, List.append_assoc]
      · have := congrArg List.length hx
        simp only [List.length_append, blankOut_length] at this ⊢
        omega
      · intro k' hk'
        rw [hothers k' hk', hret.others k' hk']
      · exact fun e => absurd e hnull.2
      · exact hret.split.tokensRight hnull.1 hnull.2 hend htoks

theorem tokenLoop_some (n : Nat) (p : κ × Nat) (t : Tokenizer κ) :
    tokenLoop delim n (some p) t = tokenLoop delim n none { t with buffer := some p } := by
  cases n with
  | zero => rfl
  | succ n => rw [tokenLoop, tokenLoop, kstrtok_some]

omit [DecidableEq κ] in
/-- The first call sets the buffer; `check` is as it was. -/
theorem Tokenizer.stands {p : κ × Nat} (hs : 0 ∈ t.deref p) (hc : 0 ∈ t.checkText) :
    ∃ z, t.deref p = text (t.deref p) ++ 0::z ∧
      Stands p.1 ((t.str p.1).take p.2) (text (t.deref p)) z { t with buffer := some p } := by
  obtain ⟨z, hz⟩ := exists_text hs
  have hle : p.2 ≤ (t.str p.1).length := by
    by_contra hlt
    rw [Tokenizer.deref, List.drop_of_length_le (by omega)] at hs
    simp at hs
  refine ⟨z, hz, ?_, ?_, nul_not_mem_text _, hc⟩
  · rw [← hz, Tokenizer.deref, List.take_append_drop]
  · rw [List.length_take_of_le hle]

theorem tokenLoop_mono {n m : Nat} (hnm : n ≤ m) {str : Option (κ × Nat)}
    {r : List Bytes × Tokenizer κ} (h : tokenLoop delim n str t = some r) :
    tokenLoop delim m str t = some r := by
  induction n generalizing m str t r with
  | zero => cases h
  | succ n ih =>
    obtain ⟨m, rfl⟩ : ∃ i, m = i+1 := ⟨m-1, by omega⟩
    rw [tokenLoop] at h ⊢
    obtain ⟨⟨q, t'⟩, hq, hrest⟩ := Option.bind_eq_some_iff.mp h
    rw [hq, Option.bind_some]
    cases q with
    | none => exact hrest
    | some q =>
      obtain ⟨s, hs, hr⟩ := Option.map_eq_some_iff.mp hrest
      dsimp only
      rw [ih (by omega) hs, Option.map_some, hr]

theorem tokenLoop_unique {n m : Nat} {str : Option (κ × Nat)} {r r' : List Bytes × Tokenizer κ}
    (h : tokenLoop delim n str t = some r) (h' : tokenLoop delim m str t = some r') : r = r' := by
  have hmax := tokenLoop_mono (Nat.le_max_left n m) h
  rw [tokenLoop_mono (Nat.le_max_right n m) h', Option.some_inj] at hmax
  exact hmax.symm

end Loop

/-- The loop over a string `p`, whatever was tokenised before: it ends within two calls more than
the string has characters, also where the terminator is the last byte of its array, and writes
nothing but characters of the string. -/
theorem kstrtok_loop_ends (delim : Bytes) (p : κ × Nat) (t : Tokenizer κ) (hs : 0 ∈ t.deref p)
    (hc : 0 ∈ t.checkText) :
    ∃ toks u w', tokenLoop delim ((text (t.deref p)).length + 2) (some p) t = some (toks, u) ∧
      u.str p.1 = (t.str p.1).take p.2 ++
        (w' ++ (t.str p.1).drop (p.2 + (text (t.deref p)).length)) ∧
      w'.length = (text (t.deref p)).length ∧ ∀ k', k' ≠ p.1 → u.str k' = t.str k' := by
  obtain ⟨z, hz, hstands⟩ := Tokenizer.stands hs hc
  obtain ⟨toks, u, w', hrun, hstr, hlen, hothers, -⟩ :=
    hstands.tokenLoop delim _ (Or.inl (le_refl _))
  refine ⟨toks, u, w', ?_, ?_, hlen, hothers⟩
  · rw [tokenLoop_some, hrun]
  · rw [hstr, ← List.drop_drop]
    change _ = _ ++ (w' ++ List.drop _ (t.deref p))
    rw [hz, text_append_nul (nul_not_mem_text _), List.drop_left]

/-- A fresh tokenizer on "a/b/". -/
theorem kstrtok_loop_ends_ab :
    ∃ toks u w', tokenLoop [47, 0] 6 (some ((), 0)) ⟨fun _ => [97, 47, 98, 47, 0], none, none⟩ =
        some (toks, u) ∧
      u.str () = w' ++ [0] ∧ w'.length = 4 ∧ ∀ k', k' ≠ () → u.str k' = [97, 47, 98, 47, 0] :=
  kstrtok_loop_ends [47, 0] ((), 0) ⟨fun _ => [97, 47, 98, 47, 0], none, none⟩ (by decide)
    (by decide)

/-- The loop over the string `p` yields its runs. -/
def YieldsRuns (delim : Bytes) (p : κ × Nat) (t : Tokenizer κ) : Prop :=
  ∃ n u, tokenLoop delim n (some p) t = some (runs delim (text (t.deref p)), u)

/-- kstrtok takes a rest equal to the token before it for the end of the string, and returns an
empty token for delimiters at the end. -/
theorem kstrtok_yieldsRuns_iff (delim : Bytes) (p : κ × Nat) (t : Tokenizer κ)
    (hs : 0 ∈ t.deref p) (hc : 0 ∈ t.checkText) :
    YieldsRuns delim p t ↔ TokensRight delim (text t.checkText) (text (t.deref p)) := by
  obtain ⟨z, -, hstands⟩ := Tokenizer.stands hs hc
  obtain ⟨toks, u, w', hrun, -, -, -, -, hright⟩ :=
    hstands.tokenLoop delim _ (Or.inl (le_refl _))
  rw [← tokenLoop_some] at hrun
  change toks = runs delim (text (t.deref p)) ↔
    TokensRight delim (text t.checkText) (text (t.deref p)) at hright
  rw [← hright]
  constructor
  · rintro ⟨n, v, hv⟩
    exact congrArg Prod.fst (tokenLoop_unique hrun hv)
  · intro h
    exact ⟨_, u, h ▸ hrun⟩

/-- "/a//b/" after a tokenisation that ended at "b". -/
theorem kstrtok_yieldsRuns_ab :
    YieldsRuns [47, 0] (false, 0)
      ⟨fun i => if i then [98, 0] else [47, 97, 47, 47, 98, 47, 0], none, some (true, 0)⟩ :=
  (kstrtok_yieldsRuns_iff [47, 0] (false, 0)
    ⟨fun i => if i then [98, 0] else [47, 97, 47, 47, 98, 47, 0], none, some (true, 0)⟩
    (by decide) (by decide)).mpr (by decide)

/-- "a/a" yields one token. -/
theorem kstrtok_repeated :
    runs [47, 0] [97, 47, 97] = [[97], [97]] ∧
      ¬ YieldsRuns [47, 0] ((), 0) ⟨fun _ => [97, 47, 97, 0], none, none⟩ := by
  refine ⟨by decide, ?_⟩
  rintro ⟨n, v, hv⟩
  have hone : (tokenLoop [47, 0] 5 (some ((), 0)) ⟨fun _ => [97, 47, 97, 0], none, none⟩).map
      Prod.fst = some [[97]] := by decide
  obtain ⟨⟨toks, u⟩, hrun, htoks⟩ := Option.map_eq_some_iff.mp hone
  have hfst := congrArg Prod.fst (tokenLoop_unique hrun hv)
  dsimp only at hfst htoks
  rw [htoks] at hfst
  exact absurd hfst (by decide)

end SBUnix
