import SBUnix.Framework.StringMemory
import SBUnix.Lib.Strings

namespace SBUnix

open ByteMemory CString StringMemory

/-- `argv[k]` of a NULL-terminated array with these entries. -/
def argAt (args : List UInt64) (k : Nat) : Nat := (args.getD k 0).toNat

/-- `tmp_arg`, from the memory that exec is called with. -/
def tmpArg (m : Mem) : Option (List UInt64) → Option Bytes
  | some args =>
    if argAt args 0 = 0 then some (List.replicate 24 0)
    else kstrcpy (List.replicate 24 0) (bytesFrom m (argAt args 0) 24)
  | none => some (List.replicate 24 0)

/-- `if (NULL != argv) kstrcpy(argv[0], tmp_arg);` A copy to NULL has no way back. -/
def putBack (tmp : Bytes) (argv : Option (List UInt64)) (m : Mem) : Option Mem :=
  match argv with
  | some args =>
    if argAt args 0 = 0 then none else some (storeBytes m (argAt args 0) (text tmp ++ [0]))
  | none => some m

/-- The words exec writes below `pcb->stack`; `argv` and `envp` are `none` when they are
NULL. -/
def argWords (m : Mem) (stack : Nat) (argv envp : Option (List UInt64)) : Mem :=
  let index := match argv with
    | some args => if argAt args 0 = 0 then 0 else 1
    | none => 0
  let m := store64 m (stack - 0x8) index
  let i := 10
  let r := match argv with
    | some args =>
      if index = 1 ∨ index = 0 then (store64 m (stack - 0x8*i) (argAt args (i-10)), i+1)
      else (m, i)
    | none => (m, i)
  match envp with
  | some env => store64 r.1 (stack - 0x8*r.2) (argAt env 0)
  | none => r.1

/-- What exec does with its arguments: `m₀` is the memory it is called with, `m` that after
load_segment. -/
def execStack (m₀ m : Mem) (stack : Nat) (argv envp : Option (List UInt64)) : Option Mem :=
  (tmpArg m₀ argv).bind fun tmp =>
    (putBack tmp argv m).map fun m => argWords m stack argv envp

/-- What _start hands to main. -/
structure MainArgs where
  argc : Nat
  argv : Nat
  envp : Nat
  deriving DecidableEq, Repr

/-- `while (--tmp) { *(argv + (last-2)) = *(stack - 8*last); last++; }` -/
def copyArgs (stack argv : Nat) : Nat → Nat → Mem → Nat × Mem
  | 0, last, m => (last, m)
  | n+1, last, m => copyArgs stack argv n (last+1)
      (store64 m (argv + 8*(last-2)) (load64 m (stack - 0x8*last)))

/-- _start up to its call of main; argc is the 32-bit pattern of an `int`. -/
def startArgs (m : Mem) (stack : Nat) : MainArgs × Mem :=
  let argc := load64 m (stack - 0x8) % 2^32
  let last := 10
  let argv := stack - 0x8*last
  if 0 = argc ∨ 1 = argc then
    let m := store64 m argv (load64 m argv)
    let last := last+1
    (⟨argc, argv, stack - 0x8*last⟩, m)
  else
    let r := copyArgs stack argv (argc-1) last m
    let envp := stack - 0x8*r.1
    (⟨argc, argv, envp⟩, store64 r.2 envp (stack - 0x8*r.1))

/-- _start finds these arguments on the stack. -/
def Decoded (m : Mem) (stack : Nat) (argv envp : Option (List UInt64)) : Prop :=
  let r := startArgs m stack
  let args := argv.getD []
  r.1.argc = args.length ∧
  (∀ k < args.length, load64 r.2 (r.1.argv + 8*k) = argAt args k) ∧
  load64 r.2 r.1.envp = argAt (envp.getD []) 0

/-- main sees the arguments exec was given. -/
def ArgsArrive (m₀ m : Mem) (stack : Nat) (argv envp : Option (List UInt64)) : Prop :=
  ∃ t, execStack m₀ m stack argv envp = some t ∧ Decoded t stack argv envp

theorem argAt_lt (args : List UInt64) (k : Nat) : argAt args k < 2^64 := UInt64.toNat_lt _

/-- exec stores a count of 0 or 1, so _start always takes its first branch. -/
theorem startArgs_exec (m : Mem) (stack n : Nat) (hs : 4096 ≤ stack) (hn : n ≤ 1)
    (hm : load64 m (stack - 0x8) = n) :
    (startArgs m stack).1 = ⟨n, stack - 80, stack - 88⟩ ∧
    load64 (startArgs m stack).2 (stack - 80) = load64 m (stack - 80) ∧
    load64 (startArgs m stack).2 (stack - 88) = load64 m (stack - 88) := by
  have hc : load64 m (stack - 0x8) % 2^32 = n := by
    rw [hm]
    omega
  have hb : 0 = n ∨ 1 = n := by omega
  simp only [startArgs, hc, if_pos hb]
  refine ⟨trivial, ?_, ?_⟩
  · exact load64_store64_same _ _ _ (load64_lt _ _)
  · exact load64_store64_apart _ _ _ _ (by omega)

/-- The three words of the stack that _start reads, after exec. -/
theorem argWords_words (m : Mem) (stack : Nat) (argv envp : Option (List UInt64))
    (hs : 4096 ≤ stack) :
    load64 (argWords m stack argv envp) (stack - 0x8) =
      (match argv with
      | some args => if argAt args 0 = 0 then 0 else 1
      | none => 0) ∧
    (∀ args, argv = some args →
      load64 (argWords m stack argv envp) (stack - 80) = argAt args 0) ∧
    load64 (argWords m stack argv envp) (stack - 88) =
      (match argv, envp with
      | some _, some env => argAt env 0
      | _, _ => load64 m (stack - 88)) := by
  have hone (n : Nat) (hn : n ≤ 1) (m : Mem) :
      load64 (store64 m (stack - 0x8) n) (stack - 0x8) = n :=
    load64_store64_same _ _ _ (by omega)
  have hlow (a : Nat) (v : Nat) (m : Mem) (ha : a + 8 ≤ stack - 8) :
      load64 (store64 m a v) (stack - 8) = load64 m (stack - 8) :=
    load64_store64_apart _ _ _ _ (by omega)
  have hhigh (a : Nat) (v : Nat) (m : Mem) (ha : a + 8 ≤ stack - 8) :
      load64 (store64 m (stack - 8) v) a = load64 m a :=
    load64_store64_apart _ _ _ _ (by omega)
  have h10 (m : Mem) (v : Nat) :
      load64 (store64 m (stack - 88) v) (stack - 80) = load64 m (stack - 80) :=
    load64_store64_apart _ _ _ _ (by omega)
  have h11 (m : Mem) (v : Nat) :
      load64 (store64 m (stack - 80) v) (stack - 88) = load64 m (stack - 88) :=
    load64_store64_apart _ _ _ _ (by omega)
  have hsame (m : Mem) (a : Nat) (args : List UInt64) :
      load64 (store64 m a (argAt args 0)) a = argAt args 0 :=
    load64_store64_same _ _ _ (argAt_lt _ _)
  have hle (args : List UInt64) : (if argAt args 0 = 0 then 0 else 1) ≤ 1 := by
    split_ifs <;> omega
  have hbr (args : List UInt64) : (if argAt args 0 = 0 then 0 else 1) = 1 ∨
      (if argAt args 0 = 0 then 0 else 1) = 0 := by
    split_ifs <;> simp
  cases argv with
  | none =>
    cases envp with
    | none =>
      simp only [argWords]
      exact ⟨hone 0 (by omega) m, nofun, hhigh _ _ _ (by omega)⟩
    | some env =>
      simp only [argWords]
      refine ⟨?_, nofun, ?_⟩
      · rw [hlow _ _ _ (by omega), hone 0 (by omega)]
      · rw [h11, hhigh _ _ _ (by omega)]
  | some args =>
    cases envp with
    | none =>
      simp only [argWords, if_pos (hbr args)]
      refine ⟨?_, ?_, ?_⟩
      · rw [hlow _ _ _ (by omega), hone _ (hle args)]
      · rintro args' ⟨⟩
        exact hsame _ _ _
      · rw [h11, hhigh _ _ _ (by omega)]
    | some env =>
      simp only [argWords, if_pos (hbr args)]
      refine ⟨?_, ?_, ?_⟩
      · rw [hlow _ _ _ (by omega), hlow _ _ _ (by omega), hone _ (hle args)]
      · rintro args' ⟨⟩
        rw [h10, hsame]
      · exact hsame _ _ _

/-- The words alone pass on at most one argument; the environment is one slot too high when there
is no argv, and its slot is left alone when there is no environment. -/
theorem argWords_decoded_iff (m : Mem) (stack : Nat) (argv envp : Option (List UInt64))
    (hs : 4096 ≤ stack) (hargs : ∀ p ∈ argv.getD [], p ≠ 0) :
    Decoded (argWords m stack argv envp) stack argv envp ↔
      (argv.getD []).length ≤ 1 ∧
      (argv = none ∨ envp = none → load64 m (stack - 88) = argAt (envp.getD []) 0) := by
  obtain ⟨w1, w10, w11⟩ := argWords_words m stack argv envp hs
  obtain ⟨n, hn, hn1, hlen⟩ : ∃ n, load64 (argWords m stack argv envp) (stack - 0x8) = n ∧
      n ≤ 1 ∧ ((argv.getD []).length ≤ 1 ↔ n = (argv.getD []).length) := by
    refine ⟨_, w1, ?_, ?_⟩
    · cases argv with
      | none => simp
      | some args => simp only; split_ifs <;> omega
    · cases argv with
      | none => simp
      | some args =>
        cases args with
        | nil => simp [argAt]
        | cons p ps =>
          have hp : ¬p.toNat = 0 := fun h => hargs p (by simp) (UInt64.toNat_inj.mp h)
          simp only [argAt, List.getD_cons_zero, if_neg hp, Option.getD_some, List.length_cons]
          omega
  obtain ⟨s1, s10, s11⟩ := startArgs_exec _ stack n hs hn1 hn
  simp only [Decoded, s1, s11, w11]
  constructor
  · rintro ⟨hc, -, he⟩
    refine ⟨hlen.mpr hc, ?_⟩
    rintro (rfl | rfl)
    · exact he
    · cases argv <;> exact he
  · rintro ⟨hl, he⟩
    refine ⟨hlen.mp hl, ?_, ?_⟩
    · intro k hk
      obtain rfl : k = 0 := by omega
      cases argv with
      | none => simp at hk
      | some args =>
        rw [Nat.mul_zero, Nat.add_zero, s10]
        exact w10 args rfl
    · cases argv with
      | none => exact he (Or.inl rfl)
      | some args =>
        cases envp with
        | none => exact he (Or.inr rfl)
        | some env => rfl

/-- The memory with the string that `m₀` has at `p` put back. -/
def restored (m₀ m : Mem) (p : Nat) : Mem := storeBytes m p (text (bytesFrom m₀ p 24) ++ [0])

section Copies

variable {m₀ m : Mem} {stack : Nat} {args : List UInt64} {envp : Option (List UInt64)}

theorem execStack_fits (h : argAt args 0 ≠ 0) (h0 : 0 ∈ bytesFrom m₀ (argAt args 0) 24) :
    execStack m₀ m stack (some args) envp =
      some (argWords (restored m₀ m (argAt args 0)) stack (some args) envp) := by
  have hlen : (bytesFrom m₀ (argAt args 0) 24).length = 24 := by simp [bytesFrom]
  rw [execStack, tmpArg, if_neg h, restored]
  generalize bytesFrom m₀ (argAt args 0) 24 = s at h0 hlen
  obtain ⟨r, hr⟩ := exists_text h0
  have hnul := nul_not_mem_text s
  generalize text s = w at hr hnul
  rw [hr, List.length_append, List.length_cons] at hlen
  rw [hr, kstrcpy_append_nul hnul r _ (by rw [List.length_replicate]; omega), Option.bind_some,
    putBack, if_neg h, Option.map_some, text_append_nul hnul]

/-- tmp_arg has 24 bytes. -/
theorem execStack_overflow (h : argAt args 0 ≠ 0) (h0 : 0 ∉ bytesFrom m₀ (argAt args 0) 24) :
    execStack m₀ m stack (some args) envp = none := by
  rw [execStack, tmpArg, if_neg h, kstrcpy_unterminated h0 (by simp [bytesFrom]), Option.bind_none]

theorem arrives_iff_decoded {argv : Option (List UInt64)} {t : Mem}
    (h : execStack m₀ m stack argv envp = some t) :
    ArgsArrive m₀ m stack argv envp ↔ Decoded t stack argv envp := by
  simp only [ArgsArrive, h, Option.some_inj, exists_eq_left']

theorem not_arrives {argv : Option (List UInt64)} (h : execStack m₀ m stack argv envp = none) :
    ¬ArgsArrive m₀ m stack argv envp := by
  rintro ⟨t, ht, -⟩
  rw [h] at ht
  cases ht

end Copies

/-- exec passes on no more than one argument, and that one only if it has fewer than 24 characters.
It writes the environment one slot too high when there is no argv, and leaves the slot alone when
there is no environment. -/
theorem execStack_arrives_iff (m₀ m : Mem) (stack : Nat) (argv envp : Option (List UInt64))
    (hs : 4096 ≤ stack) (hargs : ∀ p ∈ argv.getD [], p ≠ 0) :
    ArgsArrive m₀ m stack argv envp ↔
      match argv with
      | none => load64 m (stack - 88) = argAt (envp.getD []) 0
      | some args => args.length = 1 ∧ 0 ∈ bytesFrom m₀ (argAt args 0) 24 ∧
          (envp = none → load64 (restored m₀ m (argAt args 0)) (stack - 88) = 0) := by
  have hwords (m : Mem) := argWords_decoded_iff m stack argv envp hs hargs
  cases argv with
  | none =>
    rw [arrives_iff_decoded rfl, hwords]
    simp
  | some args =>
    cases args with
    | nil => exact iff_of_false (not_arrives rfl) (by simp)
    | cons p ps =>
      have hp : argAt (p::ps) 0 ≠ 0 := by
        intro h
        exact hargs p (by simp) (UInt64.toNat_inj.mp h)
      by_cases h0 : 0 ∈ bytesFrom m₀ (argAt (p::ps) 0) 24
      · rw [arrives_iff_decoded (execStack_fits hp h0), hwords]
        cases envp with
        | none =>
          have hnull : argAt [] 0 = 0 := rfl
          simp [h0, hnull]
        | some env => simp [h0]
      · exact iff_of_false (not_arrives (execStack_overflow hp h0)) fun h => h0 h.2.1

/-- The argument `"a"`. -/
theorem execStack_arrives_one :
    ArgsArrive (fun x => if x = 0x7000 then 97 else 0) (fun _ => 0) 0x8eee71000 (some [0x7000])
      (some [0x8000]) :=
  (execStack_arrives_iff (fun x => if x = 0x7000 then 97 else 0) (fun _ => 0) 0x8eee71000
    (some [0x7000]) (some [0x8000]) (by norm_num)
    (by
      intro p hp
      rw [Option.getD_some, List.mem_singleton] at hp
      rw [hp]
      decide)).mpr ⟨rfl, by decide +kernel, nofun⟩

/-- Two arguments: main is told there is one. And with argv = {NULL} exec does not get so far. -/
theorem execStack_drops_second :
    (∃ t, execStack (fun _ => 0) (fun _ => 0) 0x8eee71000 (some [0x7000, 0x7100]) none = some t ∧
      (startArgs t 0x8eee71000).1.argc = 1) ∧
    [(0x7000 : UInt64), 0x7100].length = 2 ∧
    execStack (fun _ => 0) (fun _ => 0) 0x8eee71000 (some []) none = none := by
  have hp : argAt [(0x7000 : UInt64), 0x7100] 0 ≠ 0 := by decide
  have hw := (argWords_words (restored (fun _ => 0) (fun _ => 0) (argAt [(0x7000 : UInt64), 0x7100] 0))
    0x8eee71000 (some [0x7000, 0x7100]) none (by norm_num)).1
  have hs := (startArgs_exec _ 0x8eee71000 1 (by norm_num) (le_refl 1) hw).1
  exact ⟨⟨_, execStack_fits hp (by decide +kernel), congrArg MainArgs.argc hs⟩, rfl, rfl⟩

end SBUnix
