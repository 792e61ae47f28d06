import SBUnix.Console.LineBuffer
import SBUnix.Shell.Round

namespace SBUnix

open ByteMemory CString StringMemory Word

/-- `"exit"` -/
def exitWord : Bytes := [101, 120, 105, 116]

/-- `strncmp(input, "exit", 4) == 0` -/
def exits (input : Nat) (m : Mem) : Option Bool :=
  (strncmp 4 (bytesFrom m input pageSize) (exitWord ++ [0])).map fun d => d = 0

/-- What a read of the shell meets: the kernel's memory at that time, the keys before Enter, what
the stack holds where get_file has its array, and the tick of the fork that follows. -/
structure Typing where
  kern : Kernel
  keys : List UInt8
  path : Bytes
  tick : Nat

/-- How it is left: at a read, behind the loop, or with another program to come. -/
inductive Ending where
  | reading
  | left
  | replaced
  deriving DecidableEq

def ShellAct.replaces : ShellAct → Bool
  | .run _ _ => true
  | .skip | .drop _ | .help | .notFound => false

/-- The loop of main. The keyboard is as the last read left it, up to the kernel's memory. -/
def shellLoop (fuel h : Nat) (t : Tarfs) (input : Nat) :
    List Typing → Keyboard → Mem → Option (List ShellAct × Ending)
  | [], _, m => (exits input m).map fun e => ([], if e then .left else .reading)
  | ty::tys, k, m =>
    (exits input m).bind fun e =>
      if e then some ([], .left)
      else
        (gets fuel (ty.keys.map .key ++ [.key 28]) { k with kern := ty.kern }).bind fun r =>
        let stdin := readStdin input r.1
        (shellRound fuel h ty.tick t ty.path stdin.1 input (storeBytes m input stdin.2)).bind fun s =>
          if s.1.replaces then some ([s.1], .replaced)
          else (shellLoop fuel h t input tys r.2 s.2).map fun rest => (s.1 :: rest.1, rest.2)

/-- main of sbush: what it makes of each line, and how it is left. -/
def shellMain (fuel h : Nat) (t : Tarfs) (tys : List Typing) (k : Keyboard) (m : Mem) :
    Option (List ShellAct × Ending) :=
  let input := malloc h 32 m
  shellLoop fuel h t input.1 tys k input.2

/-- The command of a line. Without a space its argument is what an earlier line has left behind it,
two characters at most; `front` has the first eight bytes of the buffer. -/
def lineCommand (line front : Bytes) : Command where
  str := line.takeWhile (· ≠ 32)
  arg := if 32 ∈ line then (line.dropWhile (· ≠ 32)).tail
    else text ((front.drop (line.length+1)).take 2)
  bgFlag := 0

/-- What becomes of a line. -/
def lineAct (opens : Bool) (bytes : Int) (tick : Nat) (line front : Bytes) : Option ShellAct :=
  if line = [] ∨ line.head? = some 10 ∨ line.head? = some 32 ∨ bytes = 0 then some .skip
  else (lineCommand line front).act opens tick

/-- What becomes of lines, each with the tick of its fork. -/
def lineActs (opens : Bool) (bytes : Int) :
    List (Nat × Bytes) → Bytes → Option (List ShellAct × Ending)
  | [], front => some ([], if text front = exitWord then .left else .reading)
  | (tick, line)::lines, front =>
    if text front = exitWord then some ([], .left)
    else
      let front := (line ++ 0::front.drop (line.length+1)).take 8
      (lineAct opens bytes tick line front).bind fun act =>
        if act.replaces then some ([act], .replaced)
        else (lineActs opens bytes lines front).map fun rest => (act :: rest.1, rest.2)

/-- The heap page, with so many bytes taken, lasts for the lines. A round needs 64 bytes for what it
copies past the ends of its blocks, and leaves what it takes. -/
def heapLasts (opens : Bool) (bytes : Int) : Nat → List (Nat × Bytes) → Bytes → Bool
  | _, [], _ => true
  | used, (tick, line)::lines, front =>
    if text front = exitWord then true
    else
      let front := (line ++ 0::front.drop (line.length+1)).take 8
      decide (used + 64 ≤ 4096) &&
        match lineAct opens bytes tick line front with
        | none => true
        | some act => decide (used + act.cost ≤ 4096) &&
            (act.replaces || heapLasts opens bytes (used + act.cost) lines front)

section Cost

variable {opens : Bool} {bytes : Int} {used tick : Nat} {line front : Bytes}

/-- One more line: what its round needs, what it takes, and the room for the lines behind it. -/
theorem heapLasts_cons {lines : List (Nat × Bytes)} :
    let next := (line ++ 0::front.drop (line.length+1)).take 8
    heapLasts opens bytes used ((tick, line)::lines) front = true ↔
      (text front ≠ exitWord → used + 64 ≤ 4096 ∧
        ∀ act, lineAct opens bytes tick line next = some act → used + act.cost ≤ 4096 ∧
          (act.replaces = false → heapLasts opens bytes (used + act.cost) lines next = true)) := by
  intro next
  rw [heapLasts]
  by_cases hexit : text front = exitWord
  · simp [hexit]
  · rw [if_neg hexit]
    dsimp only
    cases hact : lineAct opens bytes tick line next with
    | none => simp [next, hexit]
    | some act => cases hrep : act.replaces <;> simp [next, hexit, hrep]

/-- The shell waits for every command, so that no line takes more than a message. -/
theorem cost_le {act : ShellAct} (h : lineAct opens bytes tick line front = some act) :
    act.cost ≤ 86 := by
  rw [lineAct] at h
  split at h
  · obtain rfl := Option.some.inj h
    decide
  · rw [Command.act] at h
    split at h
    · cases h
    · split at h
      · obtain rfl := Option.some.inj h
        decide
      · split at h
        · obtain rfl := Option.some.inj h
          decide
        · obtain rfl := Option.some.inj h
          decide
        · split at h
          · cases h
          · split at h
            · obtain rfl := Option.some.inj h
              simp [ShellAct.cost]
            · obtain rfl := Option.some.inj h
              simp [ShellAct.cost, lineCommand]

/-- 47 lines of any kind after the buffer. -/
theorem heapLasts_of_length {lines : List (Nat × Bytes)} (h : used + 86*lines.length ≤ 4096) :
    heapLasts opens bytes used lines front = true := by
  induction lines generalizing used front with
  | nil => rfl
  | cons l lines ih =>
    obtain ⟨tick, line⟩ := l
    rw [List.length_cons, Nat.mul_succ] at h
    refine heapLasts_cons.mpr fun _ => ⟨by omega, ?_⟩
    intro act hact
    have hcost := cost_le hact
    exact ⟨by omega, fun _ => ih (by omega)⟩

end Cost

section Reads

/-- An Enter leaves no modifier behind. -/
theorem keyboardHandler_entered (sc : UInt8) {k : Keyboard} (h : k.checkNl = false)
    (he : (keyboardHandler sc k).checkNl = true) : (keyboardHandler sc k).lkp = .no := by
  rw [keyboardHandler_eq] at he ⊢
  cases hv : keyValue k.lkp sc with
  | none =>
    rw [hv] at he
    rw [h] at he
    simp at he
  | some v => rw [putKey_lkp]

theorem clearLine_lkp (c : Nat) (k : Keyboard) : (clearLine c k).lkp = k.lkp := by
  induction c generalizing k with
  | zero => rfl
  | succ c ih =>
    rw [clearLine, ih]
    rfl

theorem clearLine_checkNl (c : Nat) (k : Keyboard) : (clearLine c k).checkNl = k.checkNl := by
  induction c generalizing k with
  | zero => rfl
  | succ c ih =>
    rw [clearLine, ih]
    rfl

theorem getsWait_leaves {n : Nat} {is : List Interrupt} {k k' : Keyboard} {line : Bytes}
    (h : k.checkNl = true → k.lkp = .no) (hg : getsWait n is k = some (line, k')) :
    k'.lkp = .no ∧ k'.checkNl = false := by
  have hend {k : Keyboard} (h : k.lkp = .no) (hg : getsEnd n k = some (line, k')) :
      k'.lkp = .no ∧ k'.checkNl = false := by
    rw [getsEnd, Option.map_eq_some_iff] at hg
    obtain ⟨_, -, hg⟩ := hg
    rw [← (Prod.mk.inj hg).2]
    exact ⟨(clearLine_lkp _ _).trans h, clearLine_checkNl _ _⟩
  induction is generalizing k with
  | nil =>
    rw [getsWait] at hg
    split_ifs at hg with hnl
    exact hend (h hnl) hg
  | cons i is ih =>
    rw [getsWait] at hg
    split_ifs at hg with hnl
    · exact hend (h hnl) hg
    · refine ih ?_ hg
      cases i with
      | key sc => exact keyboardHandler_entered sc (by simpa using hnl)
      | alloc c => exact fun he => absurd he hnl

end Reads

/-- The line that keys spell. -/
def Typing.line (ty : Typing) : Bytes := editLine (typed .no ty.keys)

/-- Keys of characters, none erased that is not there, for a line of at most 28 of them. -/
structure Typing.Plain (ty : Typing) : Prop where
  flag : ty.kern.flag = true
  room : Room ty.kern.cursor
  values : ∀ v ∈ typed .no ty.keys, v ≠ 0 ∧ v ≠ charNewline
  noOverErase : NoOverErase (typed .no ty.keys)
  characters : characters (typed .no ty.keys) ≤ 4095
  short : ty.line.length ≤ 28
  path : ty.path.length = 16

/-- The line and the tick of its fork. -/
def Typing.entry (ty : Typing) : Nat × Bytes := (ty.tick, ty.line)

theorem Typing.Plain.gets {ty : Typing} (hty : ty.Plain) {k : Keyboard} (hlkp : k.lkp = .no)
    (hnl : k.checkNl = false) {fuel : Nat} (hfuel : 4096 ≤ fuel) :
    ∃ k', SBUnix.gets fuel (ty.keys.map .key ++ [.key 28]) { k with kern := ty.kern } =
      some (ty.line, k') ∧ k'.lkp = .no ∧ k'.checkNl = false := by
  have henter : NoEnter (strokes k.lkp (ty.keys.map .key)) := by
    rw [strokes_keys, hlkp]
    intro hm
    simp only [List.mem_map, Stroke.key.injEq, exists_eq_right] at hm
    exact (hty.values _ hm).2 rfl
  obtain ⟨e, hshow, hgets⟩ := gets_enter (ty.keys.map .key) { k with kern := ty.kern } hty.room hnl
    (harmless_keys _ _ _) henter
  have hone : startCount { k with kern := ty.kern } = 1 := if_pos hty.flag
  have hspell := spells_lineAfter _ hty.noOverErase hty.characters
  have hline : lineAfter (startCount { k with kern := ty.kern })
      (strokes k.lkp (ty.keys.map .key)) = lineAfter 1 ((typed .no ty.keys).map .key) := by
    rw [hone, strokes_keys, hlkp]
  have hin := hspell.inPage _ List.mem_cons_self
  dsimp only at hshow
  rw [hline] at hshow
  obtain ⟨k', hk'⟩ := getsEnd_shown hty.room hshow hin.1 hin.2 hfuel
  rw [hspell.shown fun v hv => (hty.values v hv).1] at hk'
  have hg := (hgets fuel).trans hk'
  refine ⟨k', hg, getsWait_leaves (k := getsStart { k with kern := ty.kern }) ?_ hg⟩
  intro he
  rw [(getsStart_shows _ hty.room).2.1, hnl] at he
  simp at he

section Front

/-- A word of more than five letters is no command, whatever is glued to it. -/
theorem act_long {opens : Bool} {tick : Nat} {c : Command} (hw : 5 < c.str.length)
    (ht : c.arg.length ≤ 4) :
    c.act opens tick = if opens then some .notFound else some .skip := by
  have hname : c.name = c.str.take 6 ++ c.arg := if_neg (by omega)
  have hlen : c.name.length = 6 + c.arg.length := by
    rw [hname, List.length_append, List.length_take]
    omega
  rw [Command.act, if_neg (by omega), ofWord_long (by omega)]
  cases opens <;> rfl

theorem text_take (s : Bytes) (n : Nat) : text (s.take n) = (text s).take n := by
  induction s generalizing n with
  | nil => simp [text]
  | cons c s ih =>
    cases n with
    | zero => simp [text]
    | succ n =>
      by_cases hc : c = 0
      · rw [List.take_succ_cons, hc, text_nul, text_nul, List.take_nil]
      · rw [List.take_succ_cons, text_cons hc, text_cons hc, ih, List.take_succ_cons]

theorem text_take_exit (buf : Bytes) : text (buf.take 8) = exitWord ↔ text buf = exitWord := by
  rw [text_take]
  constructor
  · intro h
    have hlen := congrArg List.length h
    rw [List.length_take] at hlen
    have hshort : (text buf).length ≤ 8 := by
      have h4 : exitWord.length = 4 := rfl
      omega
    rw [← h, List.take_of_length_le hshort]
  · intro h
    rw [h]
    rfl

theorem take_append_drop_take (line buf : Bytes) :
    (line ++ 0::(buf.take 8).drop (line.length+1)).take 8 =
      (line ++ 0::buf.drop (line.length+1)).take 8 := by
  rw [List.drop_take, List.take_append, List.take_append]
  congr 1
  cases hn : 8 - line.length with
  | zero => rfl
  | succ n =>
    rw [List.take_succ_cons, List.take_succ_cons, List.take_take, min_eq_left (by omega)]

theorem ne_space_of_not_mem {w : Bytes} (hs : 32 ∉ w) : ∀ a ∈ w, decide (a ≠ 32) = true := by
  intro a ha
  simp only [decide_eq_true_eq]
  exact fun h => hs (h ▸ ha)

theorem lineCommand_argument {w : Bytes} (hs : 32 ∉ w) (t front : Bytes) :
    lineCommand (w ++ 32::t) front = ⟨w, t, 0⟩ := by
  have hall := ne_space_of_not_mem hs
  rw [lineCommand, if_pos (by simp), List.takeWhile_append_of_pos hall,
    List.dropWhile_append_of_pos hall]
  simp

theorem lineCommand_word {w : Bytes} (hs : 32 ∉ w) (front : Bytes) :
    lineCommand w front = ⟨w, text ((front.drop (w.length+1)).take 2), 0⟩ := by
  rw [lineCommand, if_neg hs, List.takeWhile_eq_self_iff.mpr (ne_space_of_not_mem hs)]

section Line

variable {bytes : Int} {line stale : Bytes} {c : UInt8}

/-- With a space in the line, the bytes behind it do not matter. -/
theorem bufferAct_argument (hb : bytes ≠ 0) (h0 : 0 ∉ line) (hs : 32 ∈ line)
    (hc : line.head? = some c) (hsp : c ≠ 32) (hnl : c ≠ 10) (hst : 3 ≤ stale.length)
    (opens : Bool) (tick : Nat) (front : Bytes) :
    bufferAct opens tick bytes (line ++ 0::stale) = (lineCommand line front).act opens tick := by
  obtain ⟨w, t, rfl, hw⟩ := List.eq_append_cons_of_mem hs
  have hzero : 0 ∉ w ∧ 0 ∉ t := by simpa using h0
  have hhead : w.head? = some c := by
    cases w with
    | nil => exact absurd (by simpa using hc.symm) hsp
    | cons b w => simpa using hc
  rw [lineCommand_argument hw, bufferAct, mainRound_argument hb hzero.1 hw hzero.2 hhead hnl hst]
  rfl

/-- Without a space, the two bytes behind the terminator are read: within the first eight of the
buffer if the word is short enough for a command. -/
theorem bufferAct_word (hb : bytes ≠ 0) (h0 : 0 ∉ line) (hs : 32 ∉ line)
    (hc : line.head? = some c) (hnl : c ≠ 10) (hst : 3 ≤ stale.length) (opens : Bool) (tick : Nat) :
    bufferAct opens tick bytes (line ++ 0::stale) =
      (lineCommand line ((line ++ 0::stale).take 8)).act opens tick := by
  have hsp : c ≠ 32 := by
    intro h
    exact hs (h ▸ List.mem_of_mem_head? hc)
  have hword : line.takeWhile (· ≠ 32) = line :=
    List.takeWhile_eq_self_iff.mpr (ne_space_of_not_mem hs)
  have hmain := mainRound_line hb h0 hc hsp hnl hst
  have hcount : line.length+1-line.length+1 = 2 := by omega
  dsimp only at hmain
  rw [hword, hcount] at hmain
  rw [bufferAct, hmain, Option.bind_some, lineCommand_word hs]
  dsimp only
  by_cases hlong : 5 < line.length
  · have hle (s : Bytes) : (text (s.take 2)).length ≤ 4 := by
      rw [text_take]
      exact (List.length_take_le 2 _).trans (by norm_num : 2 ≤ 4)
    rw [act_long hlong (hle _), act_long hlong (hle _)]
  · rw [List.drop_take, List.take_take, min_eq_left (by omega)]

end Line

/-- Only the first eight bytes of the buffer matter. -/
theorem bufferAct_eq {bytes : Int} {line stale : Bytes} (h0 : 0 ∉ line) (hst : 3 ≤ stale.length)
    (opens : Bool) (tick : Nat) :
    bufferAct opens tick bytes (line ++ 0::stale) =
      lineAct opens bytes tick line ((line ++ 0::stale).take 8) := by
  cases line with
  | nil =>
    rw [bufferAct, mainRound, List.nil_append, List.head?_cons, Option.bind_some,
      if_pos (by simp), lineAct, if_pos (by simp)]
    rfl
  | cons c line =>
    by_cases hskip : c = 10 ∨ c = 32 ∨ bytes = 0
    · rw [bufferAct, mainRound, List.cons_append, List.head?_cons, Option.bind_some,
        if_pos (by tauto), lineAct, if_pos (by simpa using hskip)]
      rfl
    · rw [lineAct, if_neg (by simpa using hskip)]
      simp only [not_or] at hskip
      obtain ⟨hnl, hsp, hb⟩ := hskip
      by_cases hs : 32 ∈ c::line
      · exact bufferAct_argument hb h0 hs rfl hsp hnl hst opens tick _
      · exact bufferAct_word hb h0 hs rfl hnl hst opens tick

end Front

section Loop

variable {h start brk input : Nat} {m : Mem} {buf : Bytes}

theorem BufferReady.exits (hb : BufferReady h start brk input m buf) (h0 : 0 ∈ buf) :
    SBUnix.exits input m = some (decide (text buf = exitWord)) := by
  have hpage : pageSize = buf.length + (pageSize - buf.length) := by
    have hshort := hb.short
    unfold pageSize
    omega
  have hbytes : bytesFrom m input pageSize =
      buf ++ bytesFrom m (input+buf.length) (pageSize-buf.length) := by
    rw [hpage, bytesFrom_of_bytesAt hb.bytes, ← hpage]
  have hmem : 0 ∈ bytesFrom m input pageSize := by
    rw [hbytes]
    exact List.mem_append_left _ h0
  have htext : text (bytesFrom m input pageSize) = text buf := by
    obtain ⟨r, hr⟩ := exists_text h0
    rw [hbytes, hr, List.append_assoc, List.cons_append, text_append_nul (nul_not_mem_text _),
      text_append_nul (nul_not_mem_text _)]
  obtain ⟨d, hd, hiff⟩ := kstrcmp_text hmem (by simp : (0 : UInt8) ∈ exitWord ++ [0])
  rw [htext, text_append_nul (by decide)] at hiff
  rw [SBUnix.exits, strncmp, kstrncmp_pos (by norm_num), hd, Option.map_some]
  simp only [hiff]

/-- A line put into the buffer. -/
theorem BufferReady.store (hb : BufferReady h start brk input m buf) (line : Bytes)
    (hlen : line.length < buf.length) :
    BufferReady h start brk input (storeBytes m input (line ++ [0]))
      (line ++ 0::buf.drop (line.length+1)) := by
  have hbelow := hb.below
  have hpage := hb.page
  have hinside := hb.inside
  have hsame : (line ++ 0::buf.drop (line.length+1)).length = buf.length := by
    rw [List.length_append, List.length_cons, List.length_drop]
    omega
  refine ⟨?_, hinside, ?_, by omega, hsame ▸ hb.short, hpage⟩
  · apply hb.heap.of_kept
    intro x hx
    apply storeBytes_kept
    rw [List.length_append, List.length_singleton]
    omega
  · have hsplit : line ++ 0::buf.drop (line.length+1) =
        (line ++ [0]) ++ buf.drop (line.length+1) := by
      simp
    have hfront : (buf.take (line.length+1)).length = line.length+1 := by
      rw [List.length_take]
      omega
    rw [hsplit, bytesAt_append]
    refine ⟨bytesAt_storeBytes _ _ _, ?_⟩
    have hrest := hb.bytes
    rw [← List.take_append_drop (line.length+1) buf, bytesAt_append, hfront] at hrest
    rw [List.length_append, List.length_singleton]
    apply hrest.2.congr
    intro x hx hx'
    apply storeBytes_kept
    rw [List.length_append, List.length_singleton]
    omega

/-- A round leaves the buffer as it is. -/
theorem BufferReady.next (hb : BufferReady h start brk input m buf) {m' : Mem} {brk' : Nat}
    (hheap : HeapAt h start brk' m') (hle : brk ≤ brk') (hpage : brk' ≤ start + 4096)
    (hkept : ∀ x, start ≤ x → x < brk → m' x = m x) : BufferReady h start brk' input m' buf := by
  have hinside := hb.inside
  have hbelow := hb.below
  refine ⟨hheap, hinside, ?_, by omega, hb.short, hpage⟩
  apply hb.bytes.congr
  intro x hx hx'
  exact hkept x (by omega) (by omega)

/-- The loop over the heap and the keyboard does what the lines say. -/
theorem BufferReady.shellLoop {a : Archive} {t : Tarfs} (hk : a.members.length ≤ 16)
    (ht : initTarfs a.start a.bytes = some t) {fuel : Nat} (hfuel : 4096 ≤ fuel)
    {tys : List Typing} (hty : ∀ ty ∈ tys, ty.Plain)
    (hb : BufferReady h start brk input m buf) (h0 : 0 ∈ buf) (hlen : buf.length = 32) {used : Nat}
    (hused : brk ≤ start + used) (hheap : heapLasts (decide (OpensBin a.members)) (int32 input) used
      (tys.map Typing.entry) (buf.take 8) = true) {k : Keyboard} (hlkp : k.lkp = .no)
    (hnl : k.checkNl = false) :
    SBUnix.shellLoop fuel h t input tys k m =
      lineActs (decide (OpensBin a.members)) (int32 input) (tys.map Typing.entry) (buf.take 8) := by
  induction tys generalizing brk m buf k used with
  | nil =>
    rw [SBUnix.shellLoop, hb.exits h0, List.map_nil, lineActs]
    simp only [text_take_exit, Option.map_some, decide_eq_true_eq]
  | cons ty tys ih =>
    rw [SBUnix.shellLoop, hb.exits h0, Option.bind_some, List.map_cons, Typing.entry, lineActs]
    by_cases hexit : text buf = exitWord
    · rw [if_pos (by simpa using hexit), if_pos ((text_take_exit buf).mpr hexit)]
    · have hplain := hty ty List.mem_cons_self
      have hshort := hplain.short
      obtain ⟨k', hgets, hlkp', hnl'⟩ := hplain.gets hlkp hnl hfuel
      have hline : 0 ∉ ty.line := zero_not_mem_editLine _ fun v hv => (hplain.values v hv).1
      have hstore := hb.store ty.line (by omega)
      have hstale : (buf.drop (ty.line.length+1)).length = 31 - ty.line.length := by
        rw [List.length_drop]
        omega
      rw [if_neg (by simpa using hexit), if_neg (mt (text_take_exit buf).mp hexit), hgets,
        Option.bind_some]
      dsimp only [readStdin]
      obtain ⟨hroom, hlast⟩ := heapLasts_cons.mp hheap (mt (text_take_exit buf).mp hexit)
      rw [take_append_drop_take] at hlast ⊢
      obtain ⟨next, hnext⟩ : ∃ next, next = ty.line ++ 0::buf.drop (ty.line.length+1) := ⟨_, rfl⟩
      have hzero : 0 ∈ next := by simp [hnext]
      have hnextLen : next.length = 32 := by
        rw [hnext, List.length_append, List.length_cons]
        omega
      have hround := hstore.round hk ht hplain.path (by omega : 15 < fuel) (by omega) hline
        (by omega) ty.tick (int32 input)
      rw [bufferAct_eq hline (by omega), ← hnext] at hround
      rw [← hnext] at hlast hstore ⊢
      cases hact : lineAct (decide (OpensBin a.members)) (int32 input) ty.tick ty.line
          (next.take 8) with
      | none =>
        rw [hact] at hround
        rw [RoundAgrees.none (hround nofun)]
        rfl
      | some act =>
        rw [hact] at hround
        obtain ⟨hfit, hrest⟩ := hlast act hact
        obtain ⟨m', brk', hrun, hheap, hl, hu, hkept⟩ := hround (by
          rintro _ ⟨⟩
          omega)
        rw [hrun, Option.bind_some, Option.bind_some]
        by_cases hrep : act.replaces = true
        · rw [if_pos hrep, if_pos hrep]
        · rw [if_neg hrep, if_neg hrep, ih (fun ty hm => hty ty (List.mem_cons_of_mem _ hm))
            (hstore.next hheap hl (by omega) hkept) hzero hnextLen (by omega)
            (hrest (Bool.eq_false_iff.mpr hrep)) hlkp' hnl']

/-- The buffer of main in the heap of a new process. -/
theorem HeapAt.mainBuffer (hm : HeapAt h start start m) :
    (SBUnix.malloc h 32 m).1 = start ∧ BufferReady h start (start+32) start
      (SBUnix.malloc h 32 m).2 (List.replicate 8 0 ++ bytesFrom m (start+8) 24) := by
  obtain ⟨hptr, hheap, hkept⟩ := hm.malloc le_rfl 32 (by omega) (by omega)
  have hapart := hm.apart
  have hfits := hm.fits
  have hmem : (SBUnix.malloc h 32 m).2 = store64 (store64 m (h+vmEnd) (start+32)) start 0 := by
    rw [SBUnix.malloc, hm.endField, add64_of_lt _ _ (by omega)]
  refine ⟨hptr, hheap, le_rfl, ?_, by simp [bytesFrom], by simp [bytesFrom], by omega⟩
  rw [bytesAt_append]
  constructor
  · apply bytesAt_replicate
    intro x hl hu
    rw [hmem, store64, store_zero, clear, if_pos ⟨hl, hu⟩]
  · have hbytes : bytesFrom (SBUnix.malloc h 32 m).2 (start+8) 24 = bytesFrom m (start+8) 24 :=
      bytesFrom_congr fun x hl hu => hkept x (by omega) (by omega) (by omega)
    rw [List.length_replicate, ← hbytes]
    exact bytesAt_bytesFrom _ _ _

end Loop

/-- The shell as it is started: the archive loaded, an empty heap of whatever contents, and no key
before its first read. -/
structure ShellReady (a : Archive) (t : Tarfs) (fuel h start : Nat) (m : Mem) (k : Keyboard) :
    Prop where
  few : a.members.length ≤ 16
  loaded : initTarfs a.start a.bytes = some t
  fuel : 4096 ≤ fuel
  heap : HeapAt h start start m
  lkp : k.lkp = .no
  checkNl : k.checkNl = false

section Ready

variable {a : Archive} {t : Tarfs} {fuel h start : Nat} {m : Mem} {k : Keyboard}

theorem ShellReady.loop (hr : ShellReady a t fuel h start m k) {tys : List Typing}
    (hty : ∀ ty ∈ tys, ty.Plain) (hheap : heapLasts (decide (OpensBin a.members)) (int32 start) 32
      (tys.map Typing.entry) (List.replicate 8 0) = true) :
    shellLoop fuel h t (malloc h 32 m).1 tys k (malloc h 32 m).2 =
      lineActs (decide (OpensBin a.members)) (int32 start) (tys.map Typing.entry)
        (List.replicate 8 0) := by
  obtain ⟨hptr, hb⟩ := hr.heap.mainBuffer
  have hfront : (List.replicate 8 0 ++ bytesFrom m (start+8) 24).take 8 = List.replicate 8 0 :=
    List.take_left' (by simp)
  rw [hptr, hb.shellLoop hr.few hr.loaded hr.fuel hty (by simp) (by simp [bytesFrom]) le_rfl
    (hfront ▸ hheap) hr.lkp hr.checkNl, hfront]

end Ready

/-- From the keys to the programs: as long as the heap lasts, what main does with the lines is what
they say. It lasts for 47 lines of any kind. -/
theorem typed_session {a : Archive} {t : Tarfs} {fuel h start : Nat} {m : Mem} {k : Keyboard}
    (hr : ShellReady a t fuel h start m k) {tys : List Typing} (hty : ∀ ty ∈ tys, ty.Plain) :
    (heapLasts (decide (OpensBin a.members)) (int32 start) 32 (tys.map Typing.entry)
        (List.replicate 8 0) = true →
      shellMain fuel h t tys k m = lineActs (decide (OpensBin a.members)) (int32 start)
        (tys.map Typing.entry) (List.replicate 8 0)) ∧
    (tys.length ≤ 47 → heapLasts (decide (OpensBin a.members)) (int32 start) 32
      (tys.map Typing.entry) (List.replicate 8 0) = true) := by
  constructor
  · intro hheap
    rw [shellMain, hr.loop hty hheap]
  · intro hlen
    apply heapLasts_of_length
    rw [List.length_map]
    omega

/-- Keys that are typed while nothing else goes on. -/
def quietTyping (tick : Nat) (keys : List UInt8) : Typing :=
  ⟨idleKeyboard.kern, keys, List.replicate 16 0, tick⟩

theorem quietTyping_plain {tick : Nat} {keys : List UInt8} (hlen : (typed .no keys).length ≤ 28)
    (hv : ∀ v ∈ typed .no keys, v ≠ 0 ∧ v ≠ charNewline ∧ v ≠ charBackspace) :
    (quietTyping tick keys).Plain := by
  have hchars : characters (typed .no keys) ≤ (typed .no keys).length := List.length_filter_le _ _
  have hline := editLine_length_le (typed .no keys)
  refine ⟨rfl, idleKeyboard_room, ?_, ?_, ?_, ?_, rfl⟩
  · intro v hm
    exact ⟨(hv v hm).1, (hv v hm).2.1⟩
  · intro before after (hsplit : typed .no keys = _)
    have hm : charBackspace ∈ typed .no keys := by
      rw [hsplit]
      simp
    exact absurd rfl (hv _ hm).2.2
  · exact (hchars.trans hlen).trans (by norm_num)
  · exact hline.trans (hchars.trans hlen)

theorem shellReady_idle {t : Tarfs} (ht : initTarfs ramdisk.start ramdisk.bytes = some t)
    {fuel : Nat} (hf : 4096 ≤ fuel) :
    ShellReady ramdisk t fuel 0x1000 0x2000 emptyHeap idleKeyboard :=
  ⟨by decide, ht, hf, emptyHeap_at, rfl, rfl⟩

/-- `cat /f` at a tick that fork gives the pid for, and `ls` at one that it gives 0 for: cat is
waited for and not run, and ls is run on the two characters of the first line that are left behind
its own. And `exit`, which is looked for among the commands before it ends the loop. -/
theorem typed_session_lines : ∃ t, initTarfs ramdisk.start ramdisk.bytes = some t ∧
    shellMain 4096 0x1000 t [quietTyping 240 [46, 30, 20, 57, 53, 33], quietTyping 241 [38, 31]]
      idleKeyboard emptyHeap = some ([.drop true, .run .ls (some [32, 47])], .replaced) ∧
    shellMain 4096 0x1000 t [quietTyping 240 [18, 45, 23, 20]] idleKeyboard emptyHeap =
      some ([.notFound], .left) := by
  obtain ⟨t, ht, -⟩ := initTarfs_loaded ramdisk (by decide)
  refine ⟨t, ht, ?_, ?_⟩
  · have hplain : ∀ ty ∈ [quietTyping 240 [46, 30, 20, 57, 53, 33], quietTyping 241 [38, 31]],
        ty.Plain := by
      intro ty hty
      rcases List.mem_pair.mp hty with rfl | rfl
      · exact quietTyping_plain (by decide +kernel) (by decide +kernel)
      · exact quietTyping_plain (by decide +kernel) (by decide +kernel)
    obtain ⟨hsession, hshort⟩ := typed_session (shellReady_idle ht le_rfl) hplain
    rw [hsession (hshort (by decide))]
    decide +kernel
  · have hplain : ∀ ty ∈ [quietTyping 240 [18, 45, 23, 20]], ty.Plain := by
      intro ty hty
      rw [List.mem_singleton.mp hty]
      exact quietTyping_plain (by decide +kernel) (by decide +kernel)
    obtain ⟨hsession, hshort⟩ := typed_session (shellReady_idle ht le_rfl) hplain
    rw [hsession (hshort (by decide))]
    decide +kernel

/-- A program and its argument, typed before a fork at `tick`. -/
structure TypedCommand where
  tick : Nat
  program : Program
  arg : Bytes

def TypedCommand.line (c : TypedCommand) : Bytes := c.program.name ++ 32::c.arg

def TypedCommand.entry (c : TypedCommand) : Nat × Bytes := (c.tick, c.line)

/-- The argument ends below the block it is copied to. -/
def TypedCommand.Fits (c : TypedCommand) : Prop := c.program.copySize ≠ none → c.arg.length ≤ 15

instance : DecidablePred TypedCommand.Fits := fun c =>
  inferInstanceAs (Decidable (c.program.copySize ≠ none → c.arg.length ≤ 15))

/-- What becomes of it. -/
def TypedCommand.act (c : TypedCommand) : ShellAct :=
  if c.tick % 120 ≠ 0 then .run c.program (c.program.passed c.arg) else .drop true

section Commands

variable {bytes : Int} {c : TypedCommand} {cs : List TypedCommand} {front : Bytes}

theorem lineAct_command (hb : bytes ≠ 0) (c : TypedCommand) (front : Bytes) :
    lineAct true bytes c.tick c.line front = if c.Fits then some c.act else none := by
  obtain ⟨tick, p, v⟩ := c
  have hsp : 32 ∉ p.name := by cases p <;> decide
  have hcmd := lineCommand_argument hsp v front
  have hgo : ¬(p.name ++ 32::v = [] ∨ (p.name ++ 32::v).head? = some 10 ∨
      (p.name ++ 32::v).head? = some 32 ∨ bytes = 0) := by
    cases p <;> simp [Program.name, hb]
  have hshort : p.name.length ≤ 5 := by cases p <;> decide
  have hname : Command.name ⟨p.name, v, 0⟩ = p.name := if_pos hshort
  change lineAct true bytes tick (p.name ++ 32::v) front = _
  rw [lineAct, if_neg hgo, hcmd, Command.act, hname, if_neg (by omega), if_neg (by simp),
    ofWord_program]
  dsimp only
  by_cases hf : TypedCommand.Fits ⟨tick, p, v⟩
  · rw [if_pos hf, if_neg (fun h => absurd (hf h.1) (not_le.mpr h.2)), TypedCommand.act]
    split_ifs <;> rfl
  · rw [if_neg hf, if_pos]
    simpa [TypedCommand.Fits] using hf

theorem line_ne_exit (h0 : 0 ∉ c.arg) :
    text ((c.line ++ 0::front.drop (c.line.length+1)).take 8) ≠ exitWord := by
  have hname : 0 ∉ c.program.name := by cases c.program <;> decide
  have hzero : 0 ∉ c.line := by simp [TypedCommand.line, hname, h0]
  rw [Ne, text_take_exit, text_append_nul hzero]
  intro h
  have hm : (32 : UInt8) ∈ exitWord := by
    rw [← h, TypedCommand.line]
    simp
  exact absurd hm (by decide)

/-- Lines with a space are obeyed whatever was there before them, up to the first that is run. -/
theorem lineActs_commands (hb : bytes ≠ 0) (h0 : ∀ d ∈ cs, 0 ∉ d.arg)
    (hticks : ∀ d ∈ cs, d.tick % 120 = 0) (htick : c.tick % 120 ≠ 0) (rest : List (Nat × Bytes))
    (hexit : text front ≠ exitWord) :
    lineActs true bytes (cs.map TypedCommand.entry ++ c.entry :: rest) front =
      if ∀ d ∈ cs ++ [c], d.Fits then
        some (cs.map (fun _ => .drop true) ++ [.run c.program (c.program.passed c.arg)], .replaced)
      else none := by
  induction cs generalizing front with
  | nil =>
    rw [List.map_nil, List.nil_append, TypedCommand.entry, lineActs, if_neg hexit]
    dsimp only
    rw [lineAct_command hb, TypedCommand.act, if_pos htick]
    by_cases hf : c.Fits <;> simp [hf, ShellAct.replaces]
  | cons d cs ih =>
    have hd : d.act = .drop true := if_neg (not_not.mpr (hticks d List.mem_cons_self))
    rw [List.map_cons, List.cons_append, TypedCommand.entry, lineActs, if_neg hexit]
    dsimp only
    rw [lineAct_command hb, hd]
    by_cases hf : d.Fits
    · rw [if_pos hf, Option.bind_some, if_neg (by simp [ShellAct.replaces]),
        ih (fun e he => h0 e (List.mem_cons_of_mem _ he))
          (fun e he => hticks e (List.mem_cons_of_mem _ he))
          (line_ne_exit (h0 d List.mem_cons_self))]
      by_cases hall : ∀ e ∈ cs ++ [c], e.Fits
      · rw [if_pos hall, if_pos (by simpa [hf] using hall)]
        rfl
      · rw [if_neg hall, if_neg (by simpa [hf] using hall)]
        rfl
    · rw [if_neg hf, if_neg (fun hall => hf (hall d (by simp)))]
      rfl

/-- Lines with a program take 38 bytes each, up to the first that is run. -/
theorem heapLasts_commands (hb : bytes ≠ 0) (hticks : ∀ d ∈ cs, d.tick % 120 = 0)
    (htick : c.tick % 120 ≠ 0) (rest : List (Nat × Bytes)) {used : Nat}
    (hroom : used + 38*cs.length + 64 ≤ 4096) :
    heapLasts true bytes used (cs.map TypedCommand.entry ++ c.entry :: rest) front = true := by
  induction cs generalizing front used with
  | nil =>
    refine heapLasts_cons.mpr fun _ => ⟨by omega, ?_⟩
    intro act hact
    rw [lineAct_command hb, TypedCommand.act, if_pos htick] at hact
    split_ifs at hact
    obtain rfl := Option.some.inj hact
    have hcost : (ShellAct.run c.program (c.program.passed c.arg)).cost = 38 := rfl
    exact ⟨by omega, nofun⟩
  | cons d cs ih =>
    have hd : d.act = .drop true := if_neg (not_not.mpr (hticks d List.mem_cons_self))
    rw [List.length_cons, Nat.mul_succ] at hroom
    refine heapLasts_cons.mpr fun _ => ⟨by omega, ?_⟩
    intro act hact
    rw [lineAct_command hb, hd] at hact
    split_ifs at hact
    obtain rfl := Option.some.inj hact
    have hcost : (ShellAct.drop true).cost = 38 := rfl
    exact ⟨by omega, fun _ => ih (fun e he => hticks e (List.mem_cons_of_mem _ he)) (by omega)⟩

end Commands

/-- Of the programs with an argument that are typed, the first whose fork falls on a tick that is
no multiple of 120 is run on its argument, and those before it are only waited for, as long as the
arguments that are copied have at most fifteen characters. A longer one is copied over itself for
ever. -/
theorem first_fork_runs (cs : List TypedCommand) (c : TypedCommand) (rest : List (Nat × Bytes))
    {a : Archive} {t : Tarfs} {fuel h start : Nat} {m : Mem} {k : Keyboard}
    (hr : ShellReady a t fuel h start m k) (ho : OpensBin a.members) (hstart : int32 start ≠ 0)
    {tys : List Typing} (hty : ∀ ty ∈ tys, ty.Plain) (hlen : tys.length ≤ 105)
    (hcs : tys.map Typing.entry = cs.map TypedCommand.entry ++ c.entry :: rest)
    (hticks : ∀ d ∈ cs, d.tick % 120 = 0) (htick : c.tick % 120 ≠ 0) :
    shellMain fuel h t tys k m =
      if ∀ d ∈ cs ++ [c], d.Fits then
        some (cs.map (fun _ => .drop true) ++ [.run c.program (c.program.passed c.arg)], .replaced)
      else none := by
  have hlines : ∀ d ∈ cs, 0 ∉ d.arg := by
    intro d hd h0
    have hmem : d.entry ∈ tys.map Typing.entry := by
      rw [hcs]
      exact List.mem_append_left _ (List.mem_map_of_mem hd)
    obtain ⟨ty, hty', hline⟩ := List.mem_map.mp hmem
    have hz : 0 ∉ ty.line := zero_not_mem_editLine _ fun v hv => ((hty ty hty').values v hv).1
    rw [show ty.line = d.line from congrArg Prod.snd hline] at hz
    exact hz (by simp [TypedCommand.line, h0])
  have hcount : cs.length + 1 ≤ 105 := by
    have hsame := congrArg List.length hcs
    rw [List.length_map, List.length_append, List.length_map, List.length_cons] at hsame
    omega
  have hheap : heapLasts (decide (OpensBin a.members)) (int32 start) 32 (tys.map Typing.entry)
      (List.replicate 8 0) = true := by
    rw [hcs, decide_eq_true ho]
    exact heapLasts_commands hstart hticks htick rest (by omega)
  rw [shellMain, hr.loop hty hheap, hcs, decide_eq_true ho,
    lineActs_commands hstart hlines hticks htick rest (by decide)]

/-- `cat /f` and then `echo hi`; and `echo` with sixteen letters. -/
theorem first_fork_runs_echo : ∃ t, initTarfs ramdisk.start ramdisk.bytes = some t ∧
    shellMain 4096 0x1000 t [quietTyping 240 [46, 30, 20, 57, 53, 33],
      quietTyping 250 [18, 46, 35, 24, 57, 35, 23]] idleKeyboard emptyHeap =
      some ([.drop true, .run .echo (some [104, 105])], .replaced) ∧
    ∀ fuel, 4096 ≤ fuel → shellMain fuel 0x1000 t
      [quietTyping 250 ([18, 46, 35, 24, 57] ++ List.replicate 16 35)] idleKeyboard emptyHeap =
      none := by
  obtain ⟨t, ht, -⟩ := initTarfs_loaded ramdisk (by decide)
  refine ⟨t, ht, ?_, ?_⟩
  · rw [first_fork_runs [⟨240, .cat, [47, 102]⟩] ⟨250, .echo, [104, 105]⟩ []
      (shellReady_idle ht le_rfl) (by decide +kernel) (by decide) ?_ (by decide) (by decide +kernel)
      (by decide) (by decide)]
    · decide +kernel
    · intro ty hty
      rcases List.mem_pair.mp hty with rfl | rfl
      · exact quietTyping_plain (by decide +kernel) (by decide +kernel)
      · exact quietTyping_plain (by decide +kernel) (by decide +kernel)
  · intro fuel hfuel
    rw [first_fork_runs [] ⟨250, .echo, List.replicate 16 104⟩ [] (shellReady_idle ht hfuel)
      (by decide +kernel) (by decide) ?_ (by decide) (by decide +kernel) (by decide) (by decide)]
    · decide +kernel
    · intro ty hty
      rw [List.mem_singleton.mp hty]
      exact quietTyping_plain (by decide +kernel) (by decide +kernel)

end SBUnix
