import SBUnix.Console.Numerals

namespace SBUnix

open CString Digits

/-- Eight hexadecimal digits, the highest first. -/
def hexNumeral (v : Nat) : Bytes := (List.leftpad 8 0 (Nat.digits 16 v).reverse).map digitChar

/-- The letters after a `%` that take an argument: s, c, x, d and p. -/
def argLetters : List UInt8 := [115, 99, 120, 100, 112]

/-- What a format without `%d`, `%p` or a lone `%` at its end stands for. -/
inductive Formats : Bytes → List VaArg → Bytes → Prop where
  | nil : Formats [] [] []
  | char {c t args out} : c ≠ 0 → c ≠ charPercent → Formats t args out →
      Formats (c::t) args (c::out)
  | string {u r t args out} : 0 ∉ u → Formats t args out →
      Formats (charPercent::115::t) (.str (u ++ 0::r) :: args) (u++out)
  | letter {v t args out} : Formats t args out →
      Formats (charPercent::99::t) (.word v :: args) (UInt8.ofNat v :: out)
  | hex {v t args out} : v < 2^32 → Formats t args out →
      Formats (charPercent::120::t) (.word v :: args) (hexNumeral v ++ out)
  | other {d t args out} : d ≠ 0 → d ∉ argLetters → Formats t args out →
      Formats (charPercent::d::t) args (d::out)

/-- The arguments are of the kinds that a format asks for. -/
inductive ArgsFit : Bytes → List VaArg → Prop where
  | nil {args} : ArgsFit [] args
  | char {c t args} : c ≠ charPercent → ArgsFit t args → ArgsFit (c::t) args
  | lone {args} : ArgsFit [charPercent] args
  | string {s t args} : 0 ∈ s → ArgsFit t args → ArgsFit (charPercent::115::t) (.str s :: args)
  | word {d v t args} : d ∈ argLetters → d ≠ 115 → ArgsFit t args →
      ArgsFit (charPercent::d::t) (.word v :: args)
  | other {d t args} : d ∉ argLetters → ArgsFit t args → ArgsFit (charPercent::d::t) args

theorem hexDigits_eq_hexNumeral {v : Nat} (hv : v < 2^32) : hexDigits v = hexNumeral v := by
  have hpad := low_eq_digits (b := 16) (n := 8) (by norm_num) hv
  rw [hexDigits_eq, hpad, hexNumeral, List.leftpad, List.reverse_append, List.reverse_replicate,
    List.length_reverse]

theorem directive_string (s : Bytes) (args : List VaArg) :
    directive 115 (.str s :: args) = (copyString s).map (·, args) := rfl

theorem directive_other {d : UInt8} (h : d ∉ argLetters) (args : List VaArg) :
    directive d args = some ([d], args) := by
  simp only [argLetters, List.mem_cons, List.not_mem_nil, or_false, not_or] at h
  simp [directive, h]

theorem directive_word {d : UInt8} (h : d ∈ argLetters) (hs : d ≠ 115) (v : Nat)
    (args : List VaArg) : ∃ out, directive d (.word v :: args) = some (out, args) := by
  simp only [argLetters, List.mem_cons, List.not_mem_nil, or_false] at h
  rcases h with rfl | rfl | rfl | rfl | rfl
  · exact absurd rfl hs
  all_goals exact ⟨_, rfl⟩

/-- A directive and the rest of the format. -/
theorem formatFrom_step {d : UInt8} {args args' rest : List VaArg} {fmt text out : Bytes} {n : Nat}
    (hn : n ≠ 0) (hd : directive d args = some (text, args'))
    (hrest : formatFrom fmt (n-2) args' = some (out, rest)) :
    formatFrom (charPercent::d::fmt) n args = some (text++out, rest) := by
  rw [formatFrom_directive fmt args d hn, hd, Option.bind_some, hrest, Option.map_some]

theorem Formats.nul_not_mem {t out : Bytes} {args : List VaArg} (h : Formats t args out) :
    0 ∉ t := by
  induction h with
  | nil => simp
  | char h0 _ _ ih => simp [Ne.symm h0, ih]
  | string _ _ ih => simpa [charPercent] using ih
  | letter _ ih => simpa [charPercent] using ih
  | hex _ _ ih => simpa [charPercent] using ih
  | other h0 _ _ ih => simp [charPercent, Ne.symm h0, ih]

theorem Formats.formatFrom {t out : Bytes} {args : List VaArg} (h : Formats t args out) {n : Nat}
    (hn : t.length ≤ n) (r : Bytes) (rest : List VaArg) :
    formatFrom (t ++ 0::r) n (args++rest) = some (out, rest) := by
  induction h generalizing n with
  | nil => exact formatFrom_stop r rest (Or.inr rfl)
  | char h0 hp _ ih =>
    rw [List.length_cons] at hn
    rw [List.cons_append, formatFrom_char _ _ (by omega) h0 hp, ih (by omega), Option.map_some]
  | @string u r' t args out hu _ ih =>
    simp only [List.length_cons] at hn
    have hd : directive 115 (.str (u ++ 0::r') :: args ++ rest) = some (u, args++rest) := by
      rw [List.cons_append, directive_string, copyString_append_nul hu, Option.map_some]
    exact formatFrom_step (by omega) hd (ih (by omega))
  | @letter v t args out _ ih =>
    simp only [List.length_cons] at hn
    have hd : directive 99 (.word v :: args ++ rest) = some ([UInt8.ofNat v], args++rest) := rfl
    exact formatFrom_step (by omega) hd (ih (by omega))
  | hex hv _ ih =>
    simp only [List.length_cons] at hn
    rw [← hexDigits_eq_hexNumeral hv]
    exact formatFrom_step (by omega) rfl (ih (by omega))
  | other _ hd _ ih =>
    simp only [List.length_cons] at hn
    exact formatFrom_step (by omega) (directive_other hd _) (ih (by omega))

/-- What stands behind the terminator is not read, whatever the format: after a lone `%` at the
end the loop's own count ends it. -/
theorem formatFrom_behind {t : Bytes} (ht : 0 ∉ t) {n : Nat} (hn : t.length ≤ n)
    (hn' : n ≤ t.length+1) (args : List VaArg) (r : Bytes) :
    formatFrom (t ++ 0::r) n args = formatFrom (t ++ [0]) n args := by
  match t with
  | [] => rw [List.nil_append, List.nil_append, formatFrom_stop _ _ (Or.inr rfl),
      formatFrom_stop _ _ (Or.inr rfl)]
  | [c] =>
    rw [List.mem_singleton] at ht
    rw [List.length_singleton] at hn hn'
    by_cases hp : c = charPercent
    · subst hp
      have h0 : n-2 = 0 := by omega
      rw [List.singleton_append, List.singleton_append, formatFrom_directive _ _ _ (by omega),
        formatFrom_directive _ _ _ (by omega), h0]
      simp only [formatFrom_zero]
    · rw [List.singleton_append, List.singleton_append, formatFrom_char _ _ (by omega) (Ne.symm ht) hp,
        formatFrom_char _ _ (by omega) (Ne.symm ht) hp, formatFrom_stop _ _ (Or.inr rfl),
        formatFrom_stop _ _ (Or.inr rfl)]
  | c::d::t =>
    have hrest : 0 ∉ d::t := fun h => ht (List.mem_cons_of_mem c h)
    have hc : c ≠ 0 := fun h => ht (h ▸ List.mem_cons_self)
    simp only [List.length_cons] at hn hn'
    by_cases hp : c = charPercent
    · subst hp
      have ih (args : List VaArg) := formatFrom_behind (t := t) (n := n-2)
        (fun h => hrest (List.mem_cons_of_mem d h)) (by omega) (by omega) args r
      simp only [List.cons_append] at ih ⊢
      rw [formatFrom_directive _ _ _ (by omega), formatFrom_directive _ _ _ (by omega)]
      simp only [ih]
    · have ih := formatFrom_behind (t := d::t) (n := n-1) hrest
        (by simp only [List.length_cons]; omega) (by simp only [List.length_cons]; omega) args r
      have hround (s : Bytes) : formatFrom (c::(d::t ++ s)) n args =
          (formatFrom (d::t ++ s) (n-1) args).map fun q => (c :: q.1, q.2) :=
        formatFrom_char _ _ (by omega) hc hp
      exact (hround _).trans ((congrArg _ ih).trans (hround _).symm)

theorem ArgsFit.formatFrom {t : Bytes} {args : List VaArg} (h : ArgsFit t args) (ht : 0 ∉ t)
    {n : Nat} (hn : t.length ≤ n) (hn' : n ≤ t.length+1) :
    ∃ out rest, formatFrom (t ++ [0]) n args = some (out, rest) := by
  induction h generalizing n with
  | nil => exact ⟨[], _, formatFrom_stop _ _ (Or.inr rfl)⟩
  | @char c t args hp _ ih =>
    rw [List.mem_cons, not_or] at ht
    rw [List.length_cons] at hn hn'
    obtain ⟨out, rest, hrest⟩ := ih ht.2 (n := n-1) (by omega) (by omega)
    refine ⟨c::out, rest, ?_⟩
    rw [List.cons_append, formatFrom_char _ _ (by omega) (Ne.symm ht.1) hp, hrest, Option.map_some]
  | @lone args =>
    rw [List.length_singleton] at hn hn'
    have hrest : SBUnix.formatFrom [] (n-2) args = some ([], args) := by
      rw [show n-2 = 0 by omega, formatFrom_zero]
    exact ⟨_, _, formatFrom_step (by omega) (directive_other (by decide) _) hrest⟩
  | @string s t args hs _ ih =>
    simp only [List.mem_cons, not_or] at ht
    simp only [List.length_cons] at hn hn'
    obtain ⟨out, rest, hrest⟩ := ih ht.2.2 (n := n-2) (by omega) (by omega)
    obtain ⟨r, hr⟩ := exists_text hs
    have hd : directive 115 (.str s :: args) = some (text s, args) := by
      rw [directive_string, hr, copyString_append_nul (nul_not_mem_text s), Option.map_some, ← hr]
    exact ⟨_, _, formatFrom_step (by omega) hd hrest⟩
  | word hd hs _ ih =>
    simp only [List.mem_cons, not_or] at ht
    simp only [List.length_cons] at hn hn'
    obtain ⟨out, rest, hrest⟩ := ih ht.2.2 (n := n-2) (by omega) (by omega)
    obtain ⟨text, htext⟩ := directive_word hd hs _ _
    exact ⟨_, _, formatFrom_step (by omega) htext hrest⟩
  | other hd _ ih =>
    simp only [List.mem_cons, not_or] at ht
    simp only [List.length_cons] at hn hn'
    obtain ⟨out, rest, hrest⟩ := ih ht.2.2 (n := n-2) (by omega) (by omega)
    exact ⟨_, _, formatFrom_step (by omega) (directive_other hd _) hrest⟩

/-- kstrlen's count is the length of the format or one more. -/
theorem vasprintf_eq {t : Bytes} (ht : 0 ∉ t) :
    ∃ n, t.length ≤ n ∧ n ≤ t.length+1 ∧ ∀ r args, vasprintf (t ++ 0::r) args =
      (formatFrom (t ++ 0::r) n args).map fun q => (q.1 ++ [0], q.2) := by
  refine ⟨if t = [] then 0 else t.length+1, ?_, ?_, ?_⟩
  · by_cases h : t = []
    · simp [h]
    · simp [h]
  · by_cases h : t = []
    · simp [h]
    · simp [h]
  · intro r args
    rw [vasprintf, kstrlen_append_nul ht, Option.bind_some]

/-- The formatter's output, with the arguments used up in order; and for every format at all, it
reads no byte behind the terminator and so comes to its end also where there is none. -/
theorem vasprintf_formats :
    (∀ t args out, Formats t args out → ∀ r rest,
      vasprintf (t ++ 0::r) (args++rest) = some (out ++ [0], rest)) ∧
    (∀ t, 0 ∉ t → ∀ args r, vasprintf (t ++ 0::r) args = vasprintf (t ++ [0]) args) ∧
    ∀ t args, 0 ∉ t → ArgsFit t args → ∃ out rest, vasprintf (t ++ [0]) args = some (out, rest) := by
  refine ⟨?_, ?_, ?_⟩
  · intro t args out h r rest
    obtain ⟨n, hn, -, hv⟩ := vasprintf_eq h.nul_not_mem
    rw [hv, h.formatFrom hn, Option.map_some]
  · intro t ht args r
    obtain ⟨n, hn, hn', hv⟩ := vasprintf_eq ht
    rw [hv, hv, formatFrom_behind ht hn hn']
  · intro t args ht h
    obtain ⟨n, hn, hn', hv⟩ := vasprintf_eq ht
    obtain ⟨out, rest, hout⟩ := h.formatFrom ht hn hn'
    exact ⟨_, _, by rw [hv, hout, Option.map_some]⟩

/-- "%s=%x%c%%" and a lone "%". -/
theorem vasprintf_formats_run :
    vasprintf [37, 115, 61, 37, 120, 37, 99, 37, 37, 0] [.str [97, 98, 0], .word 255, .word 33] =
        some ([97, 98, 61, 48, 48, 48, 48, 48, 48, 102, 102, 33, 37, 0], []) ∧
      ∃ out rest, vasprintf [37, 0] [] = some (out, rest) := by
  obtain ⟨htext, -, hend⟩ := vasprintf_formats
  refine ⟨?_, hend [37] [] (by decide) ArgsFit.lone⟩
  have hnum : hexNumeral 255 = [48, 48, 48, 48, 48, 48, 102, 102] := by
    simp [hexNumeral, digitChar, List.leftpad]
  have hfmt : Formats [37, 115, 61, 37, 120, 37, 99, 37, 37]
      [.str [97, 98, 0], .word 255, .word 33]
      ([97, 98] ++ 61::(hexNumeral 255 ++ 33::37::[])) :=
    Formats.string (u := [97, 98]) (r := []) (by decide) (.char (by decide) (by decide) (.hex (by norm_num)
      (.letter (v := 33) (.other (by decide) (by decide) .nil))))
  rw [hnum] at hfmt
  exact htext _ _ _ hfmt [] []

end SBUnix
