import SBUnix.Console.OutputPaths
import SBUnix.Lib.Numbers
import SBUnix.Process.Kill
import SBUnix.Shell.Round
import SBUnix.Tarfs.ReadFile

namespace SBUnix

open ByteMemory CString StringMemory Word

/-- exec's way with `argv[0]`: into its own array before the program is loaded, and back to where
it was, over the `old` bytes that are there by then. -/
def execArgument (tmpArg old argv0 : Bytes) : Option Bytes :=
  (kstrcpy tmpArg argv0).bind fun tmpArg => kstrcpy old tmpArg

theorem execArgument_eq {w : Bytes} (h0 : 0 ∉ w) (r : Bytes) {tmpArg old : Bytes}
    (htmp : w.length < tmpArg.length) (hold : w.length < old.length) :
    execArgument tmpArg old (w ++ 0::r) = some (w ++ 0::old.drop (w.length+1)) := by
  rw [execArgument, kstrcpy_append_nul h0 r _ htmp, Option.bind_some,
    kstrcpy_append_nul h0 _ _ hold]

section Kill

/-- `while (argv[0][j] != ' ') { if ('\0' != argv[0][j + 1]) j++; else break; }` -/
def killScan : Bytes → Option Nat
  | [] => none
  | c::s =>
    if c = 32 then some 0
    else
      match s with
      | [] => none
      | d::_ => if d ≠ 0 then (killScan s).map (· + 1) else some 0

/-- The pid that main of kill asks for: an int, made a `uint64_t` again. -/
def killPid (argv0 : Bytes) : Option Nat :=
  (killScan argv0).bind fun j =>
  (stoi (argv0.drop (j+1))).map fun v => (int32 v % 2^64).toNat

/-- main of kill and its system call. -/
def killMain (argv0 : Bytes) (s : Procs) : Option Procs :=
  (killPid argv0).map fun pid => killProcess pid s

theorem killScan_cons {c d : UInt8} (hc : c ≠ 32) (hd : d ≠ 0) (s : Bytes) :
    killScan (c::d::s) = (killScan (d::s)).map (· + 1) := by
  rw [killScan, if_neg hc]
  exact if_pos hd

theorem killScan_space {w : Bytes} (h0 : 0 ∉ w) (hs : 32 ∉ w) (r : Bytes) :
    killScan (w ++ 32::r) = some w.length := by
  induction w with
  | nil => simp [killScan]
  | cons c w ih =>
    rw [List.mem_cons, not_or] at h0 hs
    have hnext : killScan (c::(w ++ 32::r)) = (killScan (w ++ 32::r)).map (· + 1) := by
      cases w with
      | nil => exact killScan_cons (Ne.symm hs.1) (by decide) r
      | cons d w =>
        have hd : d ≠ 0 := fun hd => h0.2 (hd ▸ List.mem_cons_self)
        exact killScan_cons (Ne.symm hs.1) hd _
    rw [List.cons_append, hnext, ih h0.2 hs.2]
    rfl

/-- Without a space the scan stops at the last character. -/
theorem killScan_word {w : Bytes} (hne : w ≠ []) (h0 : 0 ∉ w) (hs : 32 ∉ w) (r : Bytes) :
    killScan (w ++ 0::r) = some (w.length-1) := by
  induction w with
  | nil => exact absurd rfl hne
  | cons c w ih =>
    rw [List.mem_cons, not_or] at h0 hs
    cases w with
    | nil => simp [killScan, Ne.symm hs.1]
    | cons d w =>
      have hd : d ≠ 0 := fun hd => h0.2 (hd ▸ List.mem_cons_self)
      have hrest := ih (List.cons_ne_nil _ _) h0.2 hs.2
      rw [List.cons_append] at hrest
      rw [List.cons_append, List.cons_append, killScan_cons (Ne.symm hs.1) hd, hrest]
      simp

theorem killPid_word {w : Bytes} (hne : w ≠ []) (h0 : 0 ∉ w) (hs : 32 ∉ w) (r : Bytes) :
    killPid (w ++ 0::r) = some 0 := by
  have hpos := List.length_pos_of_ne_nil hne
  have hdrop : (w ++ 0::r).drop (w.length-1+1) = 0::r := by
    rw [Nat.sub_add_cancel hpos, List.drop_left' rfl]
  rw [killPid, killScan_word hne h0 hs, Option.bind_some, hdrop, stoi,
    stoiFrom_stop (by decide), Option.map_some]
  rfl

theorem killPid_number {w : Bytes} (h0 : 0 ∉ w) (hs : 32 ∉ w) {ds : List Nat}
    (hds : ∀ d ∈ ds, d < 10) (hlen : ds.length ≤ 12) {c : UInt8}
    (hc : isDigit c = false) (r : Bytes) :
    killPid (w ++ 32::(ds.map digitByte ++ c::r)) =
      some (int32 (Nat.ofDigits 10 ds.reverse : Nat) % 2^64).toNat := by
  have hdrop : (w ++ 32::(ds.map digitByte ++ c::r)).drop (w.length+1) =
      ds.map digitByte ++ c::r := by
    rw [List.drop_append]
    simp
  rw [killPid, killScan_space h0 hs, Option.bind_some, hdrop, stoi_digits hds hlen (Or.inr hc),
    Option.map_some]

/-- The number that follows `kill` and a space is never used: main of kill takes the one behind the
first space of its argument, and without one it asks for pid 0, which kill_process refuses. -/
theorem kill_number_ignored (arg tmpArg old r : Bytes) (s : Procs) (h0 : 0 ∉ arg) (hne : arg ≠ [])
    (hlen : arg.length ≤ 15) (htmp : tmpArg.length = 24) (hold : 16 ≤ old.length) :
    ∃ argv0, execArgument tmpArg old (arg ++ 0::r) = some argv0 ∧
      (32 ∉ arg → killMain argv0 s = some s) ∧
      ∀ (w : Bytes) (ds : List Nat) (v : Bytes), arg = w ++ 32::(ds.map digitByte ++ v) → 32 ∉ w →
        (∀ d ∈ ds, d < 10) → ds.length ≤ 12 → (∀ c, v.head? = some c → isDigit c = false) →
        killMain argv0 s =
          some (killProcess (int32 (Nat.ofDigits 10 ds.reverse : Nat) % 2^64).toNat s) := by
  refine ⟨_, execArgument_eq h0 r (by omega) (by omega), ?_, ?_⟩
  · intro hs
    rw [killMain, killPid_word hne h0 hs, Option.map_some, killProcess, if_pos rfl]
  · intro w ds v harg hw hds hdlen hv
    have hzero : 0 ∉ w := by
      intro h
      apply h0
      rw [harg]
      exact List.mem_append_left _ h
    -- behind the digits there is another character or the terminator
    obtain ⟨c, q, hc, hq⟩ : ∃ c q, isDigit c = false ∧
        v ++ 0::old.drop (arg.length+1) = c::q := by
      cases v with
      | nil => exact ⟨0, _, by decide, rfl⟩
      | cons c v => exact ⟨c, _, hv c rfl, rfl⟩
    have hbytes : arg ++ 0::old.drop (arg.length+1) = w ++ 32::(ds.map digitByte ++ c::q) := by
      rw [← hq]
      nth_rewrite 1 [harg]
      simp
    rw [killMain, hbytes, killPid_number hzero hw hds hdlen hc, Option.map_some]

/-- `kill 4` and `kill  4`. -/
theorem kill_number_ignored_four :
    (∃ argv0, execArgument (List.replicate 24 0) (List.replicate 16 0) [52, 0] = some argv0 ∧
      killMain argv0 threeZombies = some threeZombies) ∧
    ∃ argv0, execArgument (List.replicate 24 0) (List.replicate 16 0) [32, 52, 0] = some argv0 ∧
      killMain argv0 threeZombies = some (killProcess 4 threeZombies) := by
  refine ⟨?_, ?_⟩
  · obtain ⟨argv0, hexec, hword, -⟩ := kill_number_ignored [52] (List.replicate 24 0)
      (List.replicate 16 0) [] threeZombies (by decide) (by decide) (by decide) rfl (by decide)
    exact ⟨argv0, hexec, hword (by decide)⟩
  · obtain ⟨argv0, hexec, -, hnum⟩ := kill_number_ignored [32, 52] (List.replicate 24 0)
      (List.replicate 16 0) [] threeZombies (by decide) (by decide) (by decide) rfl (by decide)
    exact ⟨argv0, hexec, hnum [] [4] [] rfl (by decide) (by decide) (by decide) (by simp)⟩

end Kill

/-- A program as it runs: its memory and the screen. -/
structure UserState where
  mem : Mem
  screen : Screen

/-- printf of the C library as a whole. -/
def userPrintf (h : Nat) (fmt : Bytes) (args regs : List VaArg) (u : UserState) :
    Option UserState :=
  (printfBuffer h fmt args u.mem).bind fun r =>
    (sysPrintf r.1 regs u.screen).map fun s => ⟨r.2, s.2⟩

section Cat

/-- `while (bytes_read-- != 0) printf("%c", buf[j++]);` -/
def printChars (h : Nat) (regs : List VaArg) : Nat → Bytes → UserState → Option UserState
  | 0, _, u => some u
  | _+1, [], _ => none
  | n+1, c::buf, u =>
    (userPrintf h formatChar [.word c.toNat] regs u).bind (printChars h regs n buf)

/-- The bytes that read stores into an array, or `none` past its end. -/
def fill (buf bytes : Bytes) : Option Bytes :=
  if bytes.length ≤ buf.length then some (bytes ++ buf.drop bytes.length) else none

/-- The copy of `argv[0]` in `str`, with a NUL behind its own. -/
def catName (str argv0 : Bytes) : Option Bytes :=
  (kstrcpy str argv0).bind fun str => (strlen str).bind fun len => setByte str len 0

/-- main of cat from its read on. -/
def catRead (h start : Nat) (img buf : Bytes) (regs : List VaArg) (f : File) (u : UserState) :
    Option UserState :=
  (readfile start img (0, []) (some f) 256).bind fun r =>
  (fill buf r.2).bind fun buf =>
  (userPrintf h [10, 0] [] regs u).bind (printChars h regs r.1.toNat buf)

/-- `"\n No such file \n"` -/
def noSuchFile : Bytes :=
  [10, 32, 78, 111, 32, 115, 117, 99, 104, 32, 102, 105, 108, 101, 32, 10]

/-- The system call open: openfile itself tells the screen when it finds nothing. -/
def sysOpen (t : Tarfs) (file : Bytes) (s : Screen) : Option (Option File × Screen) :=
  (openfile t file).bind fun fd =>
    match fd with
    | none => (kprintf (noSuchFile ++ [0]) [] s).map fun r => (none, r.2)
    | some f => some (some f, s)

/-- main of cat; `str` and `buf` are what its arrays hold at first. -/
def catMain (h start : Nat) (img : Bytes) (t : Tarfs) (str buf : Bytes) (regs : List VaArg)
    (argv0 : Bytes) (u : UserState) : Option UserState :=
  (catName str argv0).bind fun str =>
  (sysOpen t str u.screen).bind fun r =>
    let u := { u with screen := r.2 }
    match r.1 with
    | none => some u
    | some f => catRead h start img buf regs f u

/-- What kprintf makes of a character that comes to it as a format of its own. -/
def Visible (c : UInt8) : Prop := c ≠ 0 ∧ c ≠ charPercent

instance : DecidablePred Visible := fun c => inferInstanceAs (Decidable (c ≠ 0 ∧ c ≠ charPercent))

variable {h start brk : Nat} {u : UserState}

/-- A printf takes 64 bytes of the heap and shows what the system call makes of its text. -/
theorem HeapAt.userPrintf (hm : HeapAt h start brk u.mem) (hb : start ≤ brk)
    (hroom : brk + 64 ≤ start + 4096) {fmt out : Bytes} {args rest regs : List VaArg}
    (hf : vsprintf fmt args = some (out, rest)) {left : List VaArg} {s : Screen}
    (hs : sysPrintf out regs u.screen = some (left, s)) (hout : out.length ≤ 64) :
    ∃ mem, SBUnix.userPrintf h fmt args regs u = some ⟨mem, s⟩ ∧ HeapAt h start (brk+64) mem := by
  obtain ⟨mem, hbuf, hheap, -⟩ := hm.printfBuffer hb hroom hf hout
  refine ⟨mem, ?_, hheap⟩
  rw [SBUnix.userPrintf, hbuf, Option.bind_some, hs, Option.map_some]

theorem sysPrintf_char (c : UInt8) (regs : List VaArg) (s : Screen) :
    ∃ left, sysPrintf [c, 0] regs s = some (left, if Visible c then kprintfChar c s else s) := by
  by_cases h0 : c = 0
  · rw [h0]
    exact ⟨regs, rfl⟩
  · by_cases hp : c = charPercent
    · rw [hp]
      exact ⟨regs, rfl⟩
    · refine ⟨regs, ?_⟩
      have hc : 0 ∉ [c] := by simpa using Ne.symm h0
      have hlen : kstrlen [c, 0] = some 2 := kstrlen_append_nul hc []
      have hf : formatFrom [c, 0] 2 regs = some ([c], regs) := by
        rw [formatFrom_char _ _ (by norm_num) h0 hp, formatFrom_stop _ _ (Or.inr rfl)]
        rfl
      rw [sysPrintf, kprintf, vasprintf, hlen, Option.bind_some, hf, Option.map_some,
        Option.map_some, if_pos ⟨h0, hp⟩]
      simp [kprintfChars, h0]

theorem HeapAt.printChars (hm : HeapAt h start brk u.mem) (hb : start ≤ brk) (regs : List VaArg)
    {data : Bytes} (hroom : brk + 64*data.length ≤ start + 4096) (r : Bytes) :
    ∃ u', SBUnix.printChars h regs data.length (data ++ r) u = some u' ∧
      u'.screen = kprintfAll (data.filter Visible) u.screen := by
  induction data generalizing brk u with
  | nil => exact ⟨u, rfl, rfl⟩
  | cons c data ih =>
    rw [List.length_cons] at hroom
    obtain ⟨left, hs⟩ := sysPrintf_char c regs u.screen
    have hf : vsprintf formatChar [.word c.toNat] = some ([c, 0], []) := by
      have hchar := vasprintf_char c.toNat
      rw [UInt8.ofNat_toNat] at hchar
      exact hchar
    obtain ⟨mem, hprint, hheap⟩ := hm.userPrintf hb (by omega) hf hs (by simp)
    obtain ⟨u', hrest, hscreen⟩ := ih (u := ⟨mem, _⟩) hheap (by omega) (by omega)
    refine ⟨u', ?_, ?_⟩
    · rw [List.length_cons, List.cons_append, SBUnix.printChars, hprint, Option.bind_some, hrest]
    · rw [hscreen]
      by_cases hv : Visible c
      · rw [List.filter_cons_of_pos (by simpa using hv), if_pos hv]
        rfl
      · rw [List.filter_cons_of_neg (by simpa using hv), if_neg hv]

/-- For a name of at least three letters, what openfile looks at is the name itself. -/
theorem catName_eq {w : Bytes} (h0 : 0 ∉ w) (h3 : 3 ≤ w.length) (hlen : w.length ≤ 30)
    {str : Bytes} (hstr : str.length = 32) (r : Bytes) :
    ∃ file, catName str (w ++ 0::r) = some file ∧
      text file = w ∧ text (file.drop 4) = w.drop 4 ∧ 0 ∈ file ∧ 0 ∈ file.drop 4 := by
  have hne : w ≠ [] := List.ne_nil_of_length_pos (by omega)
  obtain ⟨d, q, hdq⟩ : ∃ d q, str.drop (w.length+1) = d::q := by
    apply List.exists_cons_of_ne_nil
    intro hnil
    have hl := congrArg List.length hnil
    rw [List.length_drop, List.length_nil] at hl
    omega
  have hset : setByte (w ++ 0::d::q) (w.length+1) 0 = some (w ++ 0::0::q) := by
    have happend := setByte_append (w ++ [0]) d 0 q
    simpa using happend
  have hdrop : (w ++ 0::0::q).drop 4 = w.drop 4 ++ 0::(if w.length = 3 then q else 0::q) := by
    rcases Nat.lt_or_ge 3 w.length with h4 | h4
    · rw [List.drop_append_of_le_length (by omega), if_neg (by omega)]
    · have hw : w.length = 3 := by omega
      rw [List.drop_append, hw, List.drop_eq_nil_of_le (by omega : w.length ≤ 4), if_pos rfl]
      rfl
  refine ⟨w ++ 0::0::q, ?_, text_append_nul h0 _, ?_, by simp, by rw [hdrop]; simp⟩
  · rw [catName, kstrcpy_append_nul h0 _ _ (by omega), Option.bind_some, hdq, strlen,
      kstrlen_append_nul h0, if_neg hne, Option.bind_some, hset]
  · rw [hdrop, text_append_nul]
    exact fun hm => h0 (List.mem_of_mem_drop hm)

/-- The file on the screen. Its 64 calls of printf just fit into the heap. -/
theorem HeapAt.catRead (hm : HeapAt h start start u.mem) {a : Archive} {i : Nat} {e : Member}
    (he : a.members[i]? = some e) {f : File} (haddr : f.address = a.address i) {buf : Bytes}
    (hbuf : buf.length = 64) (regs : List VaArg) :
    if e.data.length ≤ 63 then
      ∃ u', SBUnix.catRead h a.start a.bytes buf regs f u = some u' ∧
        u'.screen = kprintfAll (10 :: e.data.filter Visible) u.screen
    else SBUnix.catRead h a.start a.bytes buf regs f u = none := by
  have hread : readfile a.start a.bytes (0, []) (some f) 256 = some (piece e.data 256) :=
    readfile_member he (0, []) haddr 256
  rw [SBUnix.catRead, hread, Option.bind_some]
  split_ifs with hsmall
  · have htake : e.data.take 256 = e.data := List.take_of_length_le (by omega)
    have hcount : (piece e.data 256).1.toNat = e.data.length := by
      rw [piece]
      omega
    have hfill : fill buf (piece e.data 256).2 =
        some (e.data ++ ([0] ++ buf.drop (e.data.length+1))) := by
      rw [piece, htake, fill, if_pos]
      · simp
      · rw [List.length_append, List.length_singleton]
        omega
    have hf : vsprintf [10, 0] [] = some ([10, 0], []) := rfl
    have hs : sysPrintf [10, 0] regs u.screen = some (regs, kprintfChar 10 u.screen) := rfl
    obtain ⟨mem, hnl, hheap⟩ := hm.userPrintf le_rfl (by omega) hf hs (by simp)
    obtain ⟨u', hrest, hscreen⟩ := hheap.printChars (u := ⟨mem, kprintfChar 10 u.screen⟩)
      (by omega) regs (by omega : start+64 + 64*e.data.length ≤ start + 4096)
      ([0] ++ buf.drop (e.data.length+1))
    refine ⟨u', ?_, ?_⟩
    · rw [hfill, Option.bind_some, hnl, Option.bind_some, hcount, hrest]
    · rw [hscreen]
      rfl
  · have hover : fill buf (piece e.data 256).2 = none := by
      rw [piece, fill, if_neg]
      rw [List.length_append, List.length_take, List.length_singleton]
      omega
    rw [hover]
    rfl

theorem sysOpen_none {t : Tarfs} {file : Bytes} (h : openfile t file = some none) (s : Screen) :
    sysOpen t file s = some (none, kprintfAll noSuchFile s) := by
  have hprint : vasprintf (noSuchFile ++ [0]) [] = some (noSuchFile ++ [0], []) := by
    decide +kernel
  rw [sysOpen, h, Option.bind_some]
  dsimp only
  rw [kprintf, hprint, Option.map_some, Option.map_some, kprintfChars_append_nul (by decide)]

/-- cat of a name of three to thirty letters. It shows the file that openfile settles on, all but
its percent signs and NULs, and comes back, as long as the file has at most 63 bytes; a longer one
is read over the end of the array. Where there is none, openfile says so. -/
theorem cat_shows {a : Archive} {t : Tarfs} (hk : a.members.length ≤ 16)
    (ht : initTarfs a.start a.bytes = some t) (w r str buf : Bytes) (regs : List VaArg) (h0 : 0 ∉ w)
    (h3 : 3 ≤ w.length) (hlen : w.length ≤ 30) (hstr : str.length = 32) (hbuf : buf.length = 64)
    (hm : HeapAt h start start u.mem) :
    (chosen w (w.drop 4) a.members = none →
      catMain h a.start a.bytes t str buf regs (w ++ 0::r) u =
        some { u with screen := kprintfAll noSuchFile u.screen }) ∧
    ∀ i e, chosen w (w.drop 4) a.members = some i → a.members[i]? = some e →
      if e.data.length ≤ 63 then
        ∃ u', catMain h a.start a.bytes t str buf regs (w ++ 0::r) u = some u' ∧
          u'.screen = kprintfAll (10 :: e.data.filter Visible) u.screen
      else catMain h a.start a.bytes t str buf regs (w ++ 0::r) u = none := by
  have hl := Loaded.of_initTarfs hk ht
  obtain ⟨file, hfile, htext, hkey, hmem, hmem'⟩ := catName_eq h0 h3 hlen hstr r
  obtain ⟨fd, hopen, hmap⟩ := hl.openfile hk hmem hmem'
  rw [Archive.chosen, htext, hkey] at hmap
  rw [catMain, hfile, Option.bind_some]
  constructor
  · intro hnone
    rw [hnone, Option.map_none, Option.map_eq_none_iff] at hmap
    rw [sysOpen_none (hmap ▸ hopen), Option.bind_some]
  · intro i e hi he
    rw [hi, Option.map_some] at hmap
    obtain ⟨f, rfl, haddr⟩ := Option.map_eq_some_iff.mp hmap
    rw [(hl.stored i e he).addr] at haddr
    rw [sysOpen, hopen, Option.bind_some, Option.bind_some]
    exact hm.catRead he haddr hbuf regs

/-- `bin/cat` itself, which holds `hi`. -/
theorem cat_shows_hi : ∃ t u', initTarfs ramdisk.start ramdisk.bytes = some t ∧
    catMain 0x1000 ramdisk.start ramdisk.bytes t (List.replicate 32 0) (List.replicate 64 0) []
      [98, 105, 110, 47, 99, 97, 116, 0] ⟨emptyHeap, .home fun _ => 0⟩ = some u' ∧
    u'.screen = kprintfAll [10, 104, 105] (.home fun _ => 0) := by
  obtain ⟨t, ht, -⟩ := initTarfs_loaded ramdisk (by decide)
  have hcat := (cat_shows (by decide) ht [98, 105, 110, 47, 99, 97, 116] [] (List.replicate 32 0)
    (List.replicate 64 0) [] (by decide) (by decide) (by decide) rfl rfl
    (u := ⟨emptyHeap, .home fun _ => 0⟩) emptyHeap_at).2 1 binCat (by decide) rfl
  rw [if_pos (by decide)] at hcat
  obtain ⟨u', hrun, hscreen⟩ := hcat
  exact ⟨t, u', ht, hrun, hscreen⟩

end Cat

end SBUnix
