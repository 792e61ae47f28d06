import SBUnix.Lib.Compare
import SBUnix.Tarfs.Directory
import SBUnix.Tarfs.OpenFile

namespace SBUnix

open CString

/-- `"bin/"` -/
def binSlash : Bytes := [98, 105, 110, 47]

/-- The programs that execute_command starts. -/
inductive Program where
  | ls | cat | ps | sleep | echo | kill | clear | test
  deriving DecidableEq, Repr

def Program.name : Program → Bytes
  | .ls => [108, 115]
  | .cat => [99, 97, 116]
  | .ps => [112, 115]
  | .sleep => [115, 108, 101, 101, 112]
  | .echo => [101, 99, 104, 111]
  | .kill => [107, 105, 108, 108]
  | .clear => [99, 108, 101, 97, 114]
  | .test => [116, 101, 115, 116]

/-- `"help"` -/
def helpWord : Bytes := [104, 101, 108, 112]

/-- `strcpy(file, arg)` of a block of so many bytes for the programs that get an argument. -/
def Program.copySize : Program → Option Nat
  | .ls | .cat | .echo | .kill => some 16
  | .sleep => some 8
  | .ps | .clear | .test => none

/-- The branches of execute_command. -/
inductive Branch where
  | start (p : Program)
  | help
  | notFound
  deriving DecidableEq, Repr

/-- The comparisons in their order, each with its count. -/
def comparisons : List (Bytes × Nat × Branch) :=
  [(Program.ls.name, 2, .start .ls), (Program.cat.name, 3, .start .cat),
    (Program.ps.name, 2, .start .ps), (Program.sleep.name, 5, .start .sleep),
    (Program.echo.name, 4, .start .echo), (Program.kill.name, 4, .start .kill),
    (Program.clear.name, 4, .start .clear), (helpWord, 4, .help),
    (Program.test.name, 4, .start .test)]

/-- `if (strncmp(cmd, name, n) == 0) ... else if ...` -/
def branchFrom (cmd : Bytes) : List (Bytes × Nat × Branch) → Option Branch
  | [] => some .notFound
  | (name, n, b)::rest =>
    (strncmp n cmd (name ++ [0])).bind fun d => if d = 0 then some b else branchFrom cmd rest

def executeCommandBranch (cmd : Bytes) : Option Branch := branchFrom cmd comparisons

/-- `while (*name != '\0') { path[path_len++] = *name; name++; } path[path_len] = '\0';` -/
def appendName (path : Bytes) (pathLen : Nat) : Bytes → Option Bytes
  | [] => none
  | c::name =>
    (setByte path pathLen c).bind fun path =>
      if c = 0 then some path else appendName path (pathLen+1) name

/-- get_file; `path` is what its local array holds at first. -/
def getFile (t : Tarfs) (path name : Bytes) : Option Bool :=
  (kstrcpy path (binSlash ++ [0])).bind fun path =>
  (strlen path).bind fun pathLen =>
  name.head?.bind fun c =>
    if c = 0 then some false
    else (appendName path pathLen name).bind fun path =>
      (openfile t path).map fun fd => fd.isSome

section Dispatch

/-- The branch for a word, by the words alone. -/
def Branch.ofWord (w : Bytes) : List (Bytes × Nat × Branch) → Branch
  | [] => .notFound
  | (name, _, b)::rest => if w = name then b else ofWord w rest

/-- The counts make no difference: a word selects the branch of its own name. -/
theorem branchFrom_eq {cmd : Bytes} (h : 0 ∈ cmd) {cs : List (Bytes × Nat × Branch)}
    (hcs : ∀ c ∈ cs, 0 ∉ c.1 ∧ 0 < c.2.1) : branchFrom cmd cs = some (.ofWord (text cmd) cs) := by
  induction cs with
  | nil => rfl
  | cons c cs ih =>
    obtain ⟨name, n, b⟩ := c
    obtain ⟨hname, hn⟩ := hcs _ List.mem_cons_self
    obtain ⟨d, hd, hiff⟩ := kstrcmp_text h (by simp : (0 : UInt8) ∈ name ++ [0])
    rw [text_append_nul hname] at hiff
    rw [branchFrom, strncmp, kstrncmp_pos hn, hd, Option.bind_some, Branch.ofWord]
    by_cases hw : text cmd = name
    · rw [if_pos (hiff.mpr hw), if_pos hw]
    · rw [if_neg (fun h0 => hw (hiff.mp h0)), if_neg hw]
      exact ih fun c hc => hcs c (List.mem_cons_of_mem _ hc)

theorem executeCommandBranch_eq {cmd : Bytes} (h : 0 ∈ cmd) :
    executeCommandBranch cmd = some (.ofWord (text cmd) comparisons) :=
  branchFrom_eq h (by decide)

theorem ofWord_program (p : Program) : Branch.ofWord p.name comparisons = .start p := by
  cases p <;> rfl

/-- Every word that selects something has at most five letters. -/
theorem ofWord_long {w : Bytes} (h : 5 < w.length) : Branch.ofWord w comparisons = .notFound := by
  have hne (v : Bytes) (hv : v.length ≤ 5) : w ≠ v := by
    rintro rfl
    omega
  simp only [comparisons, Branch.ofWord]
  rw [if_neg (hne _ (by decide)), if_neg (hne _ (by decide)), if_neg (hne _ (by decide)),
    if_neg (hne _ (by decide)), if_neg (hne _ (by decide)), if_neg (hne _ (by decide)),
    if_neg (hne _ (by decide)), if_neg (hne _ (by decide)), if_neg (hne _ (by decide))]

end Dispatch

section GetFile

theorem appendName_fits {w : Bytes} (h0 : 0 ∉ w) (p q : Bytes) (d r : Bytes)
    (hd : d.length = w.length + 1) :
    appendName (p ++ d ++ q) p.length (w ++ 0::r) = some (p ++ w ++ 0::q) := by
  induction w generalizing p d with
  | nil =>
    obtain ⟨x, rfl⟩ := List.length_eq_one_iff.mp (by simpa using hd)
    rw [List.append_assoc, List.nil_append, appendName, List.singleton_append, setByte_append]
    simp
  | cons c w ih =>
    rw [List.mem_cons, not_or] at h0
    cases d with
    | nil => simp at hd
    | cons x d =>
      rw [List.append_assoc, List.cons_append, List.cons_append, appendName, setByte_append,
        Option.bind_some, if_neg (Ne.symm h0.1)]
      have hnext := ih h0.2 (p ++ [c]) d (by simpa using hd)
      simpa using hnext

theorem appendName_overflow {w : Bytes} (h0 : 0 ∉ w) (path : Bytes) (i : Nat) (r : Bytes)
    (hi : path.length ≤ i + w.length) : appendName path i (w ++ 0::r) = none := by
  induction w generalizing path i with
  | nil =>
    rw [List.nil_append, appendName, setByte, if_neg (by simpa using hi)]
    rfl
  | cons c w ih =>
    rw [List.mem_cons, not_or] at h0
    rw [List.length_cons] at hi
    rw [List.cons_append, appendName, setByte]
    by_cases hlt : i < path.length
    · rw [if_pos hlt, Option.bind_some, if_neg (Ne.symm h0.1)]
      apply ih h0.2
      rw [List.length_set]
      omega
    · rw [if_neg hlt]
      rfl

/-- Of the entries that the search gets to, one has nothing in front of its first slash once four
characters are taken off. A directory with a name of three letters is one. -/
def OpensBin (ms : List Member) : Prop :=
  ∃ m ∈ visited ms, firstComponent (m.name.drop 4) = []

theorem chosen_bin (ms : List Member) : (chosen binSlash [] ms).isSome ↔ OpensBin ms := by
  induction ms with
  | nil => simp [chosen, OpensBin, visited, binSlash]
  | cons m ms ih =>
    have hne : firstComponent m.name ≠ binSlash := by
      intro h
      have hmem : charSlash ∈ firstComponent m.name := by
        rw [h]
        decide
      have := List.mem_takeWhile_imp hmem
      simp at this
    rw [chosen, if_neg (fun h => hne h.2)]
    by_cases hs : firstComponent m.name = []
    · rw [if_pos hs]
      simp [OpensBin, visited, hs]
    · rw [if_neg hs]
      have hvisit : visited (m::ms) = m :: visited ms := by simp [visited, hs]
      rw [OpensBin, hvisit]
      by_cases hk : firstComponent (m.name.drop 4) = []
      · rw [if_pos hk]
        simp [hk]
      · rw [if_neg hk, Option.isSome_map, ih, OpensBin]
        simp [hk]

/-- The path that get_file hands to open: strlen counts the terminator of `bin/`, so the name is
put behind it. -/
theorem getFile_path (t : Tarfs) {path : Bytes} (hp : path.length = 16) {w : Bytes} (h0 : 0 ∉ w)
    (hne : w ≠ []) (r : Bytes) :
    getFile t path (w ++ 0::r) =
      (appendName ((binSlash ++ [0]) ++ path.drop 5) 5 (w ++ 0::r)).bind fun path =>
        (openfile t path).map fun fd => fd.isSome := by
  have hbin : (0 : UInt8) ∉ binSlash := by decide
  have hcopy : kstrcpy path (binSlash ++ [0]) = some (binSlash ++ 0::path.drop 5) :=
    kstrcpy_append_nul hbin [] path (by rw [hp]; decide)
  have hlen : strlen (binSlash ++ 0::path.drop 5) = some 5 := by
    rw [strlen, kstrlen_append_nul hbin, if_neg (by decide)]
    rfl
  obtain ⟨c, v, rfl⟩ := List.exists_cons_of_ne_nil hne
  have hc : c ≠ 0 := fun hc => h0 (hc ▸ List.mem_cons_self)
  rw [getFile, hcopy, Option.bind_some, hlen, Option.bind_some, List.cons_append, List.head?_cons,
    Option.bind_some, if_neg hc, List.append_assoc]
  rfl

/-- So it looks for `bin/` whatever the name. -/
theorem getFile_found {a : Archive} {t : Tarfs} (hk : a.members.length ≤ 16)
    (ht : initTarfs a.start a.bytes = some t) {path : Bytes} (hp : path.length = 16) {w : Bytes}
    (h0 : 0 ∉ w) (hne : w ≠ []) (hw : w.length ≤ 10) (r : Bytes) :
    ∃ found, getFile t path (w ++ 0::r) = some found ∧ (found = true ↔ OpensBin a.members) := by
  obtain ⟨d, q, hdq, hd⟩ : ∃ d q, path.drop 5 = d ++ q ∧ d.length = w.length+1 :=
    ⟨(path.drop 5).take (w.length+1), (path.drop 5).drop (w.length+1), by simp,
      by rw [List.length_take, List.length_drop]; omega⟩
  have happend := appendName_fits h0 (binSlash ++ [0]) q d r hd
  rw [List.append_assoc] at happend
  rw [getFile_path t hp h0 hne, hdq]
  change ∃ found, (appendName (binSlash ++ [0] ++ (d ++ q)) (binSlash ++ [0]).length _).bind _ = _ ∧ _
  rw [happend, Option.bind_some]
  obtain ⟨f, hf⟩ : ∃ f, f = binSlash ++ [0] ++ w ++ 0::q := ⟨_, rfl⟩
  have htext : text f = binSlash := by
    rw [hf, List.append_assoc, List.append_assoc]
    exact text_append_nul (by decide) _
  have hkey : text (f.drop 4) = [] := by
    rw [hf]
    rfl
  have hmem : 0 ∈ f.drop 4 := by
    rw [hf]
    exact List.mem_cons_self
  obtain ⟨o, ho, hmap⟩ := (Loaded.of_initTarfs hk ht).openfile hk (List.mem_of_mem_drop hmem) hmem
  rw [← hf, ho]
  refine ⟨o.isSome, rfl, ?_⟩
  have hsome := congrArg Option.isSome hmap
  rw [Option.isSome_map, Option.isSome_map, Archive.chosen, htext, hkey] at hsome
  rw [hsome, chosen_bin]

/-- A name of more than ten letters is written past the end of the array. -/
theorem getFile_overflow (t : Tarfs) {path : Bytes} (hp : path.length = 16) {w : Bytes}
    (h0 : 0 ∉ w) (hw : 10 < w.length) (r : Bytes) : getFile t path (w ++ 0::r) = none := by
  have hne : w ≠ [] := by
    rintro rfl
    simp at hw
  rw [getFile_path t hp h0 hne, appendName_overflow h0]
  · rfl
  · simp [binSlash, hp]
    omega

end GetFile

end SBUnix
