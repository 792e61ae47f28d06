import SBUnix.Console.Format
import SBUnix.Framework.StringMemory
import SBUnix.Process.Heap
import SBUnix.Shell.CommandLine
import SBUnix.Shell.Commands

namespace SBUnix

open ByteMemory CString StringMemory Word

/-- What main has after it has cut a line: the two blocks and the memory. -/
structure Split where
  str : Nat
  arg : Nat
  bgFlag : UInt8
  mem : Mem

/-- The middle of a round of main, over the memory of the shell. -/
def splitLine (h input : Nat) (m : Mem) : Option Split :=
  (strlen (bytesFrom m input pageSize)).bind fun len =>
  (findSpace (bytesFrom m input pageSize)).bind fun i =>
    let bgFlag := m (input + len - 1)
    let str := malloc h 6 m
    let m := strncpyLoop i str.1 input str.2
    let arg := malloc h 16 m
    some ⟨str.1, arg.1, bgFlag, strncpyLoop (len-i+1) arg.1 (input+i+1) arg.2⟩

/-- What comes of a line: nothing, the program that execvpe is called for with its `argv[0]` on the
child's side of fork, the wait on the parent's, or what help and the last branch print. -/
inductive ShellAct where
  | skip
  | run (p : Program) (argv0 : Option Bytes)
  | drop (waits : Bool)
  | help
  | notFound
  deriving DecidableEq

/-- The block for the argument, its copy, and the slash that `cat` takes off, in at most so many
rounds of strcpy. -/
def copyArgument (fuel h : Nat) (p : Program) (arg : Nat) (m : Mem) :
    Option (Option Bytes × Mem) :=
  match p.copySize with
  | none => some (none, m)
  | some size =>
    let file := malloc h size m
    (strcpyLoop fuel file.1 arg file.2).map fun m =>
      let file := if p = .cat ∧ m file.1 = charSlash then file.1+1 else file.1
      (some (text (bytesFrom m file pageSize)), m)

/-- printf of the C library up to its system call: the text, in a block of 64 bytes that is never
given back. A NULL block is not followed. -/
def printfBuffer (h : Nat) (fmt : Bytes) (args : List VaArg) (m : Mem) : Option (Bytes × Mem) :=
  let buf := malloc h 64 m
  if buf.1 = 0 then none
  else (vsprintf fmt args).map fun r => (r.1, storeBytes buf.2 buf.1 r.1)

/-- `"ls, cat, echo, sleep, ps, kill, clear\n"` -/
def helpText : Bytes :=
  [108, 115, 44, 32, 99, 97, 116, 44, 32, 101, 99, 104, 111, 44, 32, 115, 108, 101, 101, 112, 44,
    32, 112, 115, 44, 32, 107, 105, 108, 108, 44, 32, 99, 108, 101, 97, 114, 10]

/-- `"\nCommand not found."` -/
def notFoundText : Bytes :=
  [10, 67, 111, 109, 109, 97, 110, 100, 32, 110, 111, 116, 32, 102, 111, 117, 110, 100, 46]

/-- `"Background Process\n"` -/
def backgroundText : Bytes :=
  [66, 97, 99, 107, 103, 114, 111, 117, 110, 100, 32, 80, 114, 111, 99, 101, 115, 115, 10]

/-- A branch that ends with the printf of a text of its own. -/
def printing (h : Nat) (act : ShellAct) (t : Bytes) (m : Mem) : Option (ShellAct × Mem) :=
  (printfBuffer h (t ++ [0]) [] m).map fun r => (act, r.2)

/-- execute_command: the branch, and the side of fork that it goes on with. -/
def executeCommand (fuel h tick : Nat) (s : Split) : Option (ShellAct × Mem) :=
  (executeCommandBranch (bytesFrom s.mem s.str pageSize)).bind fun b =>
    match b with
    | .help => printing h .help helpText s.mem
    | .notFound => printing h .notFound notFoundText s.mem
    | .start p =>
      (copyArgument fuel h p s.arg s.mem).bind fun r =>
        if tick % 120 ≠ 0 then some (.run p r.1, r.2)
        else if s.bgFlag ≠ 38 then some (.drop true, r.2)
        else printing h (.drop false) backgroundText r.2

/-- `if (get_file(str, buf)) execute_command(str, arg, bg_flag);` -/
def runCommand (fuel h tick : Nat) (t : Tarfs) (path : Bytes) (s : Split) :
    Option (ShellAct × Mem) :=
  (getFile t path (bytesFrom s.mem s.str pageSize)).bind fun found =>
    if found then executeCommand fuel h tick s else some (.skip, s.mem)

/-- A round of main over the line that read has left at `input`; `tick` is the time of its fork. -/
def shellRound (fuel h tick : Nat) (t : Tarfs) (path : Bytes) (bytes : Int) (input : Nat)
    (m : Mem) : Option (ShellAct × Mem) :=
  if m input = 10 ∨ m input = 32 ∨ m input = 0 ∨ bytes = 0 then some (.skip, m)
  else (splitLine h input m).bind (runCommand fuel h tick t path)

section Heap

variable {h start brk : Nat} {m t : Mem}

/-- Whoever writes only to the heap's page leaves its bookkeeping alone. -/
theorem HeapAt.of_kept (hm : HeapAt h start brk m)
    (hk : ∀ x, x < start ∨ start + 4096 ≤ x → t x = m x) : HeapAt h start brk t := by
  have hapart := hm.apart
  have hload (a : Nat) (ha : h+8 ≤ a) (ha' : a+8 ≤ h+24) : load64 t a = load64 m a := by
    apply load_congr
    intro x hl hu
    exact hk x (by omega)
  refine ⟨?_, ?_, hm.pos, hm.fits, hapart⟩
  · rw [hload _ (by unfold vmStart; omega) (by unfold vmStart; omega), hm.startField]
  · rw [hload _ (by unfold vmEnd; omega) (by unfold vmEnd; omega), hm.endField]

/-- A block of any size, as long as the eight bytes that malloc clears are in the page. -/
theorem HeapAt.malloc (hm : HeapAt h start brk m) (hb : start ≤ brk) (n : Nat)
    (h8 : brk + 8 ≤ start + 4096) (hn : brk + n ≤ start + 4096) :
    (SBUnix.malloc h n m).1 = brk ∧ HeapAt h start (brk+n) (SBUnix.malloc h n m).2 ∧
    ∀ x, start ≤ x → x < start + 4096 → x < brk ∨ brk + 8 ≤ x →
      (SBUnix.malloc h n m).2 x = m x := by
  have hbound := hm.fits
  have hapart := hm.apart
  have hsum : add64 brk n = brk+n := add64_of_lt _ _ (by omega)
  have hmem : (SBUnix.malloc h n m).2 = store64 (store64 m (h+vmEnd) (brk+n)) brk 0 := by
    rw [SBUnix.malloc, hm.endField, hsum]
  have hend : load64 (SBUnix.malloc h n m).2 (h+vmEnd) = brk+n := by
    rw [hmem, load64_store64_apart _ _ _ _ (by unfold vmEnd; omega),
      load64_store64_same _ _ _ (by omega)]
  have hstart : load64 (SBUnix.malloc h n m).2 (h+vmStart) = start := by
    rw [hmem, load64_store64_apart _ _ _ _ (by unfold vmStart; omega),
      load64_store64_apart _ _ _ _ (by unfold vmStart vmEnd; omega), hm.startField]
  refine ⟨?_, ⟨hstart, hend, hm.pos, hm.fits, hapart⟩, ?_⟩
  · have hptr : (SBUnix.malloc h n m).1 =
        if pageSize < sub64 (load64 (SBUnix.malloc h n m).2 (h+vmEnd))
          (load64 (SBUnix.malloc h n m).2 (h+vmStart)) then 0 else load64 m (h+vmEnd) := by
      rw [SBUnix.malloc]
    have hle : ¬pageSize < brk+n-start := by
      unfold pageSize
      omega
    rw [hptr, hend, hstart, sub64_of_le _ _ (by omega) (by omega), if_neg hle, hm.endField]
  · intro x hl hu hx
    rw [hmem, store64, store_outside _ _ _ _ _ (by omega), store64,
      store_outside _ _ _ _ _ (by unfold vmEnd; omega)]

/-- A new block and a copy into it from below the break: the string of the source is there, even
if it is too long for the block, and nothing below the old break has changed. -/
theorem HeapAt.copy (hm : HeapAt h start brk m) (size n src : Nat) (hsrc : start ≤ src)
    (hn : src + n ≤ brk) (hsize : brk + size ≤ start + 4096) (hroom : brk + n + 8 ≤ start + 4096) :
    (SBUnix.malloc h size m).1 = brk ∧ ∃ m', strncpyLoop n brk src (SBUnix.malloc h size m).2 = m' ∧
      HeapAt h start (brk+size) m' ∧ StringAt m' brk (text (bytesFrom m src n)) ∧
      ∀ x, start ≤ x → x < brk → m' x = m x := by
  obtain ⟨hptr, hheap, hkept⟩ := hm.malloc (by omega) size (by omega) hsize
  have hbytes : bytesFrom (SBUnix.malloc h size m).2 src n = bytesFrom m src n := by
    apply bytesFrom_congr
    intro x hl hu
    exact hkept x (by omega) (by omega) (by omega)
  refine ⟨hptr, _, rfl, ?_, ?_, ?_⟩
  · apply hheap.of_kept
    intro x hx
    exact strncpyLoop_kept _ _ _ _ (by omega)
  · rw [← hbytes]
    exact strncpyLoop_text _ _ _ _ hn
  · intro x hl hu
    rw [strncpyLoop_kept _ _ _ _ (by omega), hkept x hl (by omega) (by omega)]

/-- What printf does to the heap. -/
theorem HeapAt.printfBuffer (hm : HeapAt h start brk m) (hb : start ≤ brk)
    (hroom : brk + 64 ≤ start + 4096) {fmt out : Bytes} {args rest : List VaArg}
    (hf : vsprintf fmt args = some (out, rest)) (hout : out.length ≤ 64) :
    ∃ m', SBUnix.printfBuffer h fmt args m = some (out, m') ∧ HeapAt h start (brk+64) m' ∧
      ∀ x, start ≤ x → x < brk → m' x = m x := by
  obtain ⟨hptr, hheap, hkept⟩ := hm.malloc hb 64 (by omega) hroom
  have hpos := hm.pos
  refine ⟨storeBytes (SBUnix.malloc h 64 m).2 brk out, ?_, ?_, ?_⟩
  · rw [SBUnix.printfBuffer, hptr, if_neg (by omega), hf, Option.map_some]
  · apply hheap.of_kept
    intro x hx
    exact storeBytes_kept _ _ _ (by omega)
  · intro x hl hu
    rw [storeBytes_kept _ _ _ (by omega), hkept x hl (by omega) (by omega)]

end Heap

/-- The buffer of the shell in its heap, below the break. -/
structure BufferReady (h start brk input : Nat) (m : Mem) (buf : Bytes) : Prop where
  heap : HeapAt h start brk m
  inside : start ≤ input
  bytes : BytesAt m input buf
  below : input + buf.length ≤ brk
  short : buf.length ≤ 40
  page : brk ≤ start + 4096

/-- The bytes that are found at `str`: its block has six bytes, and the argument is right behind
it. -/
def Command.name (c : Command) : Bytes :=
  if c.str.length ≤ 5 then c.str else c.str.take 6 ++ c.arg

/-- The two blocks of a command. -/
structure Split.Holds (h start brk : Nat) (s : Split) (c : Command) : Prop where
  str : s.str = brk
  arg : s.arg = brk+6
  bgFlag : s.bgFlag = c.bgFlag
  heap : HeapAt h start (brk+22) s.mem
  argAt : StringAt s.mem (brk+6) c.arg
  nameAt : StringAt s.mem brk c.name
  named : c.name ≠ []
  short : c.name.length < pageSize
  above : start ≤ brk
  room : brk + 64 ≤ start + 4096

section Name

variable {m m' : Mem} {a : Nat} {w t : Bytes}

/-- The name is what stands at the block of the word once the argument is in the one behind it. -/
theorem commandName_at (hw : 0 ∉ w) (hword : StringAt m a w) (harg : StringAt m' (a+6) t)
    (hk : ∀ x, a ≤ x → x < a+6 → m' x = m x) : StringAt m' a (Command.name ⟨w, t, 0⟩) := by
  change StringAt m' a (if w.length ≤ 5 then w else w.take 6 ++ t)
  split_ifs with h5
  · apply hword.congr
    intro x hx hx'
    exact hk x hx (by omega)
  · have htake : (w.take 6).length = 6 := by
      rw [List.length_take]
      omega
    refine ⟨?_, ?_⟩
    · rw [List.mem_append, not_or]
      exact ⟨nul_not_mem_take hw 6, harg.nonzero⟩
    · rw [List.append_assoc, bytesAt_append, htake]
      refine ⟨?_, harg.bytes⟩
      have hall := ((bytesAt_append m a w [0]).mp hword.bytes).1
      rw [← List.take_append_drop 6 w, bytesAt_append] at hall
      apply hall.1.congr
      intro x hx hx'
      rw [htake] at hx'
      exact hk x hx hx'

theorem commandName_ne_nil (hw : w ≠ []) : Command.name ⟨w, t, 0⟩ ≠ [] := by
  unfold Command.name
  split_ifs
  · exact hw
  · simp [hw]

theorem commandName_length_le (w t : Bytes) : (Command.name ⟨w, t, 0⟩).length ≤ 6 + t.length := by
  change (if w.length ≤ 5 then w else w.take 6 ++ t).length ≤ _
  split_ifs
  · omega
  · rw [List.length_append, List.length_take]
    omega

end Name

section Cut

variable {h start brk input : Nat} {m : Mem} {line stale : Bytes} {bytes : Int}

theorem BufferReady.scan (hl : BufferReady h start brk input m (line ++ 0::stale)) (h0 : 0 ∉ line)
    (hne : line ≠ []) :
    strlen (bytesFrom m input pageSize) = some (line.length+1) ∧
    findSpace (bytesFrom m input pageSize) = some (line.takeWhile (· ≠ 32)).length := by
  have hpage : pageSize = (line ++ 0::stale).length + (pageSize - (line ++ 0::stale).length) := by
    have hshort := hl.short
    unfold pageSize
    omega
  rw [hpage, bytesFrom_of_bytesAt hl.bytes, List.append_assoc, List.cons_append, strlen,
    kstrlen_append_nul h0, if_neg hne, findSpace_line h0]
  exact ⟨rfl, rfl⟩

/-- The two blocks after the line is cut are those of the command that its bytes give. -/
theorem BufferReady.split (hl : BufferReady h start brk input m (line ++ 0::stale))
    (hroom : brk + 64 ≤ start + 4096) (h0 : 0 ∉ line) {c : UInt8} (hc : line.head? = some c)
    (hsp : c ≠ 32) (hst : 3 ≤ stale.length) :
    let w := line.takeWhile (· ≠ 32)
    ∃ s, splitLine h input m = some s ∧ (∀ x, start ≤ x → x < brk → s.mem x = m x) ∧
      s.Holds h start brk ⟨w,
        text (((line ++ 0::stale).drop (w.length+1)).take (line.length+1-w.length+1)), 0⟩ := by
  intro w
  have hne : line ≠ [] := by
    rintro rfl
    simp at hc
  obtain ⟨hlen, hspace⟩ := hl.scan h0 hne
  have hpre : w ++ line.dropWhile (· ≠ 32) = line := List.takeWhile_append_dropWhile
  have hzero : 0 ∉ w := fun h => h0 (hpre ▸ List.mem_append_left _ h)
  have hle := congrArg List.length hpre
  have hshort := hl.short
  have hbelow := hl.below
  have hinside := hl.inside
  rw [List.length_append] at hle
  have hbuf : (line ++ 0::stale).length = line.length + stale.length + 1 := by simp; omega
  rw [hbuf] at hshort hbelow
  have hbg : m (input + (line.length+1) - 1) = 0 :=
    ((bytesAt_append m input line (0::stale)).mp hl.bytes).2.1
  obtain ⟨n, hn⟩ : ∃ n, n = line.length+1-w.length+1 := ⟨_, rfl⟩
  obtain ⟨t, ht⟩ : ∃ t, t = text (((line ++ 0::stale).drop (w.length+1)).take n) := ⟨_, rfl⟩
  obtain ⟨hptr, m1, hm1, hheap1, hword, hkept1⟩ := hl.heap.copy 6 w.length input hinside (by omega)
    (by omega) (by omega)
  obtain ⟨hptr2, m2, hm2, hheap2, harg, hkept2⟩ := hheap1.copy 16 n (input+(w.length+1)) (by omega)
    (by omega) (by omega) (by omega)
  have hfront : text (bytesFrom m input w.length) = w := by
    have hbytes := bytesFrom_drop_take (i := 0) (n := w.length) hl.bytes (by omega)
    rw [Nat.add_zero, List.drop_zero, ← hpre, List.append_assoc, List.take_left' rfl] at hbytes
    rw [hbytes, text_of_not_mem hzero]
  have hsource : text (bytesFrom m1 (input+(w.length+1)) n) = t := by
    rw [bytesFrom_congr fun x hx hx' => hkept1 x (by omega) (by omega),
      bytesFrom_drop_take hl.bytes (by omega), ht]
  rw [hfront] at hword
  rw [hsource] at harg
  have hsmall : t.length ≤ n := by
    rw [ht]
    exact (List.takeWhile_prefix _).length_le.trans (List.length_take_le _ _)
  rw [← hn, ← ht]
  refine ⟨⟨brk, brk+6, 0, m2⟩, ?_, ?_, rfl, rfl, rfl, hheap2, harg,
    commandName_at hzero hword harg fun x hx hx' => hkept2 x (by omega) hx', ?_, ?_, by omega,
    hroom⟩
  · rw [splitLine, hlen, Option.bind_some, hspace, Option.bind_some]
    dsimp only
    rw [hptr, hm1, hptr2, ← hn, Nat.add_assoc input, hm2, hbg]
  · intro x hx hx'
    exact (hkept2 x hx (by omega)).trans (hkept1 x hx hx')
  · have hw : w ≠ [] := by
      obtain ⟨v, rfl⟩ := List.head?_eq_some_iff.mp hc
      simp [w, hsp]
    exact commandName_ne_nil hw
  · have hlt := commandName_length_le w t
    unfold pageSize
    omega

end Cut

/-- The argument as the program gets it. -/
def Program.argument (p : Program) (t : Bytes) : Bytes :=
  if p = .cat ∧ t.head? = some charSlash then t.tail else t

/-- What execvpe is given for it. -/
def Program.passed (p : Program) (t : Bytes) : Option Bytes := p.copySize.map fun _ => p.argument t

section Argument

variable {h start brk arg : Nat} {m : Mem} {t : Bytes} {p : Program} {fuel size : Nat}

theorem copySize_bounds (hp : p.copySize = some size) : 8 ≤ size ∧ size ≤ 16 := by
  revert size
  cases p <;> decide

theorem text_argument {file : Nat} (hs : StringAt m file t) (ht : t.length ≤ 15) (p : Program) :
    text (bytesFrom m (if p = .cat ∧ m file = charSlash then file+1 else file) pageSize) =
      p.argument t := by
  have htext {a : Nat} {v : Bytes} (hv : StringAt m a v) (hlen : v.length ≤ 15) :
      text (bytesFrom m a pageSize) = v := by
    obtain ⟨r, hr, -⟩ := hv.bytesFrom (n := pageSize) (by unfold pageSize; omega)
    rw [hr, text_append_nul hv.nonzero]
  unfold Program.argument
  cases t with
  | nil =>
    have h0 : m file = 0 := hs.bytes.1
    rw [if_neg (by rw [h0]; exact fun h => absurd h.2 (by decide)), if_neg (by simp),
      htext hs ht]
  | cons c t =>
    have hc : m file = c := hs.bytes.1
    have hz := hs.nonzero
    rw [List.mem_cons, not_or] at hz
    simp only [hc, List.head?_cons, Option.some_inj]
    split_ifs
    · exact htext ⟨hz.2, hs.bytes.2⟩ (by simp at ht ⊢; omega)
    · exact htext hs ht

/-- An argument that ends below the break is copied and handed on. -/
theorem HeapAt.copyArgument (hm : HeapAt h start brk m) (hs : StringAt m arg t) (ha : start ≤ arg)
    (hend : arg + t.length < brk) (ht : t.length ≤ 15) (hfuel : 15 < fuel)
    (hroom : brk + 32 ≤ start + 4096) (p : Program) :
    ∃ m' brk', SBUnix.copyArgument fuel h p arg m = some (p.passed t, m') ∧
      HeapAt h start brk' m' ∧ brk ≤ brk' ∧ brk' ≤ brk + 16 ∧
      ∀ x, start ≤ x → x < brk → m' x = m x := by
  unfold SBUnix.copyArgument Program.passed
  cases hp : p.copySize with
  | none => exact ⟨m, brk, rfl, hm, le_rfl, by omega, fun _ _ _ => rfl⟩
  | some size =>
    have hsize := copySize_bounds hp
    obtain ⟨hptr, hheap, hkept⟩ := hm.malloc (by omega) size (by omega) (by omega)
    have hsource : StringAt (SBUnix.malloc h size m).2 arg t := by
      apply hs.congr
      intro x hl hu
      exact hkept x (by omega) (by omega) (by omega)
    obtain ⟨m', hcopy, hfile, hkept'⟩ := strcpyLoop_apart (n := fuel) hsource (by omega)
      (Or.inr hend)
    refine ⟨m', brk+size, ?_, ?_, by omega, by omega, ?_⟩
    · dsimp only
      rw [hptr, hcopy, Option.map_some, text_argument hfile ht, Option.map_some]
    · apply hheap.of_kept
      intro x hx
      exact hkept' x (by omega)
    · intro x hl hu
      rw [hkept' x (by omega), hkept x hl (by omega) (by omega)]

/-- One that reaches up to the break is copied over itself for ever. -/
theorem HeapAt.copyArgument_runs_on (hm : HeapAt h start brk m) (hs : StringAt m arg t)
    (ha : start ≤ arg) (hlt : arg < brk) (hend : brk ≤ arg + t.length)
    (hroom : brk + 32 ≤ start + 4096) (hp : p.copySize = some size) (fuel : Nat) :
    SBUnix.copyArgument fuel h p arg m = none := by
  have hsize := copySize_bounds hp
  obtain ⟨hptr, -, hkept⟩ := hm.malloc (by omega) size (by omega) (by omega)
  rw [SBUnix.copyArgument, hp]
  dsimp only
  rw [hptr, strcpyLoop_runs_on fuel hlt, Option.map_none]
  intro x hl hu
  rw [hkept x (by omega) (by omega) (by omega)]
  obtain ⟨i, rfl⟩ : ∃ i, x = arg+i := ⟨x-arg, by omega⟩
  exact hs.byte_ne_zero (by omega)

end Argument

/-- What comes of a command. `none` is a name that the array of get_file is too short for, or an
argument that is copied over itself. -/
def Command.act (opens : Bool) (tick : Nat) (c : Command) : Option ShellAct :=
  if 10 < c.name.length then none
  else if opens = false then some .skip
  else match Branch.ofWord c.name comparisons with
    | .help => some .help
    | .notFound => some .notFound
    | .start p =>
      if p.copySize ≠ none ∧ 15 < c.arg.length then none
      else if tick % 120 ≠ 0 then some (.run p (p.passed c.arg))
      else some (.drop (c.bgFlag ≠ 38))

/-- The bytes of the heap that it takes at most: the two blocks of the line, that of the argument
and that of printf. -/
def ShellAct.cost : ShellAct → Nat
  | .skip => 6+16
  | .run _ _ | .drop true => 6+16+16
  | .drop false => 6+16+16+64
  | .help | .notFound => 6+16+64

/-- What comes of the line in a buffer, by its bytes. -/
def bufferAct (opens : Bool) (tick : Nat) (bytes : Int) (buf : Bytes) : Option ShellAct :=
  (mainRound bytes buf).bind fun r =>
    match r with
    | none => some .skip
    | some c => c.act opens tick

instance : DecidablePred OpensBin := fun ms =>
  inferInstanceAs (Decidable (∃ m ∈ visited ms, firstComponent (m.name.drop 4) = []))

section Round

variable {h start brk input : Nat} {m : Mem} {line stale : Bytes} {bytes : Int}

/-- The round came to this in the memory as in the bytes of the line, or neither comes back. -/
def RoundAgrees (h start brk : Nat) (m : Mem) (act : Option ShellAct)
    (r : Option (ShellAct × Mem)) : Prop :=
  match act with
  | none => r = none
  | some act => ∃ m' brk', r = some (act, m') ∧ HeapAt h start brk' m' ∧ brk ≤ brk' ∧
      brk' ≤ brk + act.cost ∧ ∀ x, start ≤ x → x < brk → m' x = m x

/-- The page has room for what the act takes. -/
def RoomFor (start brk : Nat) (act : Option ShellAct) : Prop :=
  ∀ a, act = some a → brk + a.cost ≤ start + 4096

theorem RoundAgrees.none {r : Option (ShellAct × Mem)} (hr : RoundAgrees h start brk m none r) :
    r = .none := hr

theorem RoundAgrees.of_kept {m' : Mem} {act : Option ShellAct} {r : Option (ShellAct × Mem)}
    (hr : RoundAgrees h start brk m' act r) (hk : ∀ x, start ≤ x → x < brk → m' x = m x) :
    RoundAgrees h start brk m act r := by
  cases act with
  | none => exact hr
  | some act =>
    obtain ⟨t, brk', heq, hheap, hl, hu, hkept⟩ := hr
    refine ⟨t, brk', heq, hheap, hl, hu, ?_⟩
    intro x hx hx'
    rw [hkept x hx hx', hk x hx hx']

/-- The texts have no percent sign, so that they come out as they are. -/
theorem vsprintf_texts :
    vsprintf (helpText ++ [0]) [] = some (helpText ++ [0], []) ∧
    vsprintf (notFoundText ++ [0]) [] = some (notFoundText ++ [0], []) ∧
    vsprintf (backgroundText ++ [0]) [] = some (backgroundText ++ [0], []) := by
  decide +kernel

theorem HeapAt.printing {brk' : Nat} {t : Bytes} {act : ShellAct} (hm : HeapAt h start brk' m)
    (hb : start ≤ brk') (hle : brk ≤ brk') (hroom : brk' + 64 ≤ start + 4096)
    (hcost : brk' + 64 ≤ brk + act.cost) (hf : vsprintf (t ++ [0]) [] = some (t ++ [0], []))
    (ht : t.length < 64) :
    RoundAgrees h start brk m (some act) (SBUnix.printing h act t m) := by
  obtain ⟨m', hprint, hheap, hkept⟩ := hm.printfBuffer hb hroom hf (by
    rw [List.length_append, List.length_singleton]
    omega)
  refine ⟨m', brk'+64, ?_, hheap, by omega, hcost, fun x hl hu => hkept x hl (by omega)⟩
  rw [SBUnix.printing, hprint, Option.map_some]

/-- The copy of the argument, wherever it does not run into itself. -/
theorem Split.Holds.copied {s : Split} {c : Command} (hs : s.Holds h start brk c) {fuel : Nat}
    (hfuel : 15 < fuel) {p : Program} (hfits : ¬(p.copySize ≠ none ∧ 15 < c.arg.length)) :
    ∃ m' brk', SBUnix.copyArgument fuel h p (brk+6) s.mem = some (p.passed c.arg, m') ∧
      HeapAt h start brk' m' ∧ brk+22 ≤ brk' ∧ brk' ≤ brk+38 ∧
      ∀ x, start ≤ x → x < brk → m' x = s.mem x := by
  have habove := hs.above
  have hroom := hs.room
  by_cases hp : p.copySize = none
  · refine ⟨s.mem, brk+22, ?_, hs.heap, le_rfl, by omega, fun _ _ _ => rfl⟩
    rw [SBUnix.copyArgument, hp, Program.passed, hp]
    rfl
  · have ht : c.arg.length ≤ 15 := not_lt.mp fun hlt => hfits ⟨hp, hlt⟩
    obtain ⟨m', brk', hcopy, hheap, hl, hu, hkept⟩ :=
      hs.heap.copyArgument hs.argAt (by omega) (by omega) ht hfuel (by omega) p
    exact ⟨m', brk', hcopy, hheap, hl, by omega, fun x hx hx' => hkept x hx (by omega)⟩

theorem Split.Holds.executeCommand {s : Split} {c : Command} (hs : s.Holds h start brk c)
    {fuel : Nat} (hfuel : 15 < fuel) (hname : c.name.length ≤ 10) (tick : Nat)
    (hcost : RoomFor start brk (c.act true tick)) :
    RoundAgrees h start brk s.mem (c.act true tick) (SBUnix.executeCommand fuel h tick s) := by
  have habove := hs.above
  have hroom := hs.room
  obtain ⟨hhelp, hfound, hback⟩ := vsprintf_texts
  obtain ⟨r, hr, -⟩ := hs.nameAt.bytesFrom hs.short
  have hbranch := executeCommandBranch_eq (by rw [hr]; simp : 0 ∈ bytesFrom s.mem brk pageSize)
  rw [hr, text_append_nul hs.nameAt.nonzero, ← hr] at hbranch
  rw [Command.act, if_neg (by omega), if_neg (by simp)] at hcost ⊢
  rw [SBUnix.executeCommand, hs.str, hbranch, Option.bind_some, hs.arg, hs.bgFlag]
  cases hb : Branch.ofWord c.name comparisons with
  | help =>
    rw [hb] at hcost
    have hfit : brk + 86 ≤ start + 4096 := hcost _ rfl
    exact hs.heap.printing (by omega) (by omega) (by omega) le_rfl hhelp (by decide)
  | notFound =>
    rw [hb] at hcost
    have hfit : brk + 86 ≤ start + 4096 := hcost _ rfl
    exact hs.heap.printing (by omega) (by omega) (by omega) le_rfl hfound (by decide)
  | start p =>
    rw [hb] at hcost
    dsimp only at hcost ⊢
    by_cases hlong : p.copySize ≠ none ∧ 15 < c.arg.length
    · obtain ⟨size, hp⟩ := Option.ne_none_iff_exists'.mp hlong.1
      rw [hs.heap.copyArgument_runs_on hs.argAt (by omega) (by omega) (by omega) (by omega) hp,
        if_pos hlong]
      rfl
    · obtain ⟨m', brk', hcopy, hheap, hl, hu, hkept⟩ := hs.copied hfuel hlong
      rw [if_neg hlong] at hcost ⊢
      rw [hcopy, Option.bind_some]
      by_cases htick : tick % 120 ≠ 0
      · rw [if_pos htick, if_pos htick]
        exact ⟨m', brk', rfl, hheap, by omega, hu, hkept⟩
      · rw [if_neg htick] at hcost ⊢
        rw [if_neg htick]
        by_cases hbg : c.bgFlag ≠ 38
        · rw [if_pos hbg, decide_eq_true hbg]
          exact ⟨m', brk', rfl, hheap, by omega, hu, hkept⟩
        · rw [decide_eq_false hbg] at hcost ⊢
          rw [if_neg hbg]
          have hfit : brk + 102 ≤ start + 4096 := hcost _ rfl
          have hcost' : brk' + 64 ≤ brk + (ShellAct.drop false).cost := by
            change brk' + 64 ≤ brk + 102
            omega
          exact (hheap.printing (by omega) (by omega) (by omega) hcost' hback (by decide)).of_kept
            hkept

theorem Split.Holds.runCommand {a : Archive} {t : Tarfs} (hk : a.members.length ≤ 16)
    (ht : initTarfs a.start a.bytes = some t) {path : Bytes} (hpath : path.length = 16)
    {s : Split} {c : Command} (hs : s.Holds h start brk c) {fuel : Nat} (hfuel : 15 < fuel)
    (tick : Nat) (hcost : RoomFor start brk (c.act (decide (OpensBin a.members)) tick)) :
    RoundAgrees h start brk s.mem (c.act (decide (OpensBin a.members)) tick)
      (SBUnix.runCommand fuel h tick t path s) := by
  obtain ⟨r, hr, -⟩ := hs.nameAt.bytesFrom hs.short
  have h0 := hs.nameAt.nonzero
  rw [SBUnix.runCommand, hs.str, hr]
  by_cases hlong : 10 < c.name.length
  · rw [getFile_overflow t hpath h0 hlong, Command.act, if_pos hlong]
    rfl
  · obtain ⟨found, hfound, hiff⟩ := getFile_found hk ht hpath h0 hs.named (not_lt.mp hlong) r
    have hopens : decide (OpensBin a.members) = found := by
      rw [Bool.eq_iff_iff, decide_eq_true_iff, hiff]
    rw [hopens] at hcost ⊢
    rw [hfound, Option.bind_some]
    cases found with
    | true =>
      rw [if_pos rfl]
      exact hs.executeCommand hfuel (not_lt.mp hlong) tick hcost
    | false =>
      rw [if_neg (by simp), Command.act, if_neg hlong, if_pos rfl]
      exact ⟨s.mem, brk+22, rfl, hs.heap, by omega, le_rfl, fun _ _ _ => rfl⟩

/-- A round of main does what the bytes of the line say, and leaves the heap ready for the next
one. -/
theorem BufferReady.round {a : Archive} {t : Tarfs} (hk : a.members.length ≤ 16)
    (ht : initTarfs a.start a.bytes = some t) {path : Bytes} (hpath : path.length = 16)
    {fuel : Nat} (hfuel : 15 < fuel)
    (hl : BufferReady h start brk input m (line ++ 0::stale)) (hroom : brk + 64 ≤ start + 4096)
    (h0 : 0 ∉ line) (hst : 3 ≤ stale.length) (tick : Nat) (bytes : Int)
    (hcost : RoomFor start brk
      (bufferAct (decide (OpensBin a.members)) tick bytes (line ++ 0::stale))) :
    RoundAgrees h start brk m
      (bufferAct (decide (OpensBin a.members)) tick bytes (line ++ 0::stale))
      (shellRound fuel h tick t path bytes input m) := by
  obtain ⟨c, hc, hhead⟩ : ∃ c, (line ++ 0::stale).head? = some c ∧ m input = c := by
    cases line with
    | nil => exact ⟨0, rfl, hl.bytes.1⟩
    | cons c line => exact ⟨c, rfl, hl.bytes.1⟩
  by_cases hskip : c = 10 ∨ c = 32 ∨ c = 0 ∨ bytes = 0
  · have hact : bufferAct (decide (OpensBin a.members)) tick bytes (line ++ 0::stale) =
        some .skip := by
      rw [bufferAct, mainRound, hc, Option.bind_some, if_pos hskip]
      rfl
    rw [hact]
    refine ⟨m, brk, ?_, hl.heap, le_rfl, by omega, fun _ _ _ => rfl⟩
    rw [shellRound, hhead, if_pos hskip]
  · have hgo := hskip
    simp only [not_or] at hgo
    obtain ⟨hnl, hsp, hz, hb⟩ := hgo
    have hne : line ≠ [] := by
      rintro rfl
      exact hz (Option.some.inj hc).symm
    have hcl : line.head? = some c := by
      rwa [List.head?_append_of_ne_nil _ hne] at hc
    have hmain := mainRound_line hb h0 hcl hsp hnl hst
    obtain ⟨s, hsplit, hkept, hs⟩ := hl.split hroom h0 hcl hsp hst
    dsimp only at hmain hs
    rw [bufferAct, hmain, Option.bind_some] at hcost ⊢
    rw [shellRound, hhead, if_neg hskip, hsplit, Option.bind_some]
    exact (hs.runCommand hk ht hpath hfuel tick hcost).of_kept hkept

end Round

end SBUnix
