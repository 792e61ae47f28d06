import SBUnix.Tarfs.FileExists

namespace SBUnix

open CString Word

/-- The fields of FILE that are ever set. -/
structure File where
  inodeNum : Nat
  filename : Bytes
  offset : Int
  address : Nat
  deriving DecidableEq, Repr

/-- The assignments before `return fd`; the page of `fd` is zeroed. -/
def fileOf (file : Bytes) (inode addr : Nat) : Option (Option File) :=
  (kstrcpy (List.replicate 256 0) file).map fun filename => some ⟨inode, filename, 0, addr⟩

/-- `kstrlen(filename) == 0`, and then the comparison with the whole of `file`. -/
def matchesWhole (t : Tarfs) (file : Bytes) (i : Nat) : Option Bool :=
  (kstrlen (file.drop 4)).bind fun flen =>
    if flen = 0 then
      (kstrlen file).bind fun len =>
        (kstrncmp len (t.names.str i) file).map fun d => decide (d = 0)
    else some false

/-- The loop of openfile from entry `i`, with `n` entries of the table left. `some none` is
NULL. `file + 4` is never NULL, so it is what is compared, also when `file` is shorter. -/
def openfileFrom (t : Tarfs) (file : Bytes) : Nat → Nat → Option (Option File)
  | 0, _ => none
  | n+1, i =>
    (matchesWhole t file i).bind fun whole =>
      if whole then fileOf file i (t.entry i).addrHdr
      else (kstrlen (t.names.str i)).bind fun len =>
        if len = 0 then some none
        else (kstrcmp ((t.names.str i).drop 4) (file.drop 4)).bind fun d =>
          if d = 0 then fileOf file (sub64 i 1) (t.entry i).addrHdr
          else openfileFrom t file n (i+1)

def openfile (t : Tarfs) (file : Bytes) : Option (Option File) := openfileFrom t file tarfsEntries 0

/-- The entry openfile settles on, read off the archived names: the first whose components
match, before a name that starts with a slash; the empty entry behind the last matches the
empty path. -/
def chosen (p key : Bytes) : List Member → Option Nat
  | [] => if key = [] ∧ p = [] then some 0 else none
  | m::ms =>
    if key = [] ∧ firstComponent m.name = p then some 0
    else if firstComponent m.name = [] then none
    else if firstComponent (m.name.drop 4) = key then some 0
    else (chosen p key ms).map (· + 1)

def Archive.chosen (a : Archive) (file : Bytes) : Option Nat :=
  SBUnix.chosen (text file) (text (file.drop 4)) a.members

section Strings

variable {file : Bytes}

/-- Four characters more at most. -/
theorem text_length_le (h : 0 ∈ file) :
    (text file).length ≤ 4 + (text (file.drop 4)).length := by
  obtain ⟨r, hr⟩ := exists_text h
  rcases Nat.lt_or_ge (text file).length 4 with hlt | hle
  · omega
  · have hdrop : file.drop 4 = (text file).drop 4 ++ 0::r := by
      conv_lhs => rw [hr]
      rw [List.drop_append_of_le_length hle]
    rw [hdrop, text_append_nul (fun h => nul_not_mem_text file (List.mem_of_mem_drop h)),
      List.length_drop]
    omega

theorem fileOf_short (hf : 0 ∈ file) (hlen : (text file).length < 256) (inode addr : Nat) :
    fileOf file inode addr = some (some ⟨inode, nameArray 256 (text file), 0, addr⟩) := by
  obtain ⟨r, hr⟩ := exists_text hf
  rw [fileOf]
  conv_lhs => rw [hr]
  rw [kstrcpy_zeroed (nul_not_mem_text file) r hlen, Option.map_some]

theorem firstComponent_length_le (w : Bytes) : (firstComponent w).length ≤ w.length :=
  (List.takeWhile_prefix _).length_le

end Strings

section Lookup

variable {start : Nat} {ms : List Member} {t : Tarfs} {file : Bytes}

theorem Loaded.matchesWhole (h : Loaded start ms t) (hf : 0 ∈ file) (hkey : 0 ∈ file.drop 4)
    (i : Nat) : SBUnix.matchesWhole t file i =
      some (decide (text (file.drop 4) = [] ∧ text (t.names.str i) = text file)) := by
  obtain ⟨len, d, hlen, hd, hiff⟩ := kstrncmp_kstrlen (h.names_terminated i) hf
  rw [SBUnix.matchesWhole, kstrlen_text hkey, Option.bind_some, hlen, Option.bind_some, hd]
  by_cases hk : text (file.drop 4) = []
  · rw [if_pos hk, if_pos rfl, Option.map_some]
    congr 1
    rw [decide_eq_decide, hiff]
    exact (and_iff_right hk).symm
  · rw [if_neg hk, if_neg (Nat.succ_ne_zero _)]
    congr 1
    exact (decide_eq_false fun h => hk h.1).symm

/-- The loop over the table from entry `i` on, by induction on the members from there on. -/
theorem Loaded.openfileFrom (h : Loaded start ms t) (hf : 0 ∈ file) (hkey : 0 ∈ file.drop 4)
    {done todo : List Member} (hms : ms = done++todo) {n : Nat} (hn : todo.length < n) :
    ∃ r, SBUnix.openfileFrom t file n done.length = some r ∧
      r.map File.address = (chosen (text file) (text (file.drop 4)) todo).map fun j =>
        (t.entry (done.length+j)).addrHdr := by
  have hlen := text_length_le hf
  induction todo generalizing done n with
  | nil =>
    obtain ⟨n, rfl⟩ : ∃ k, n = k+1 := ⟨n-1, by omega⟩
    have htext : text (t.names.str done.length) = [] := h.text_free (by rw [hms]; simp)
    rw [SBUnix.openfileFrom, h.matchesWhole hf hkey, Option.bind_some, htext, chosen]
    by_cases hhit : text (file.drop 4) = [] ∧ [] = text file
    · rw [decide_eq_true hhit, if_pos rfl, if_pos ⟨hhit.1, hhit.2.symm⟩,
        fileOf_short hf (by rw [← hhit.2]; norm_num)]
      exact ⟨_, rfl, rfl⟩
    · rw [decide_eq_false hhit, if_neg Bool.false_ne_true,
        if_neg (fun hc => hhit ⟨hc.1, hc.2.symm⟩), kstrlen_text (h.names_terminated _), htext,
        if_pos rfl, Option.bind_some, if_pos rfl]
      exact ⟨_, rfl, rfl⟩
  | cons m todo ih =>
    obtain ⟨n, rfl⟩ : ∃ k, n = k+1 := ⟨n-1, by omega⟩
    have hi : ms[done.length]? = some m := by rw [hms]; simp
    have hshort := m.name_short
    obtain ⟨hdrop, hterm⟩ := h.text_drop hi (by norm_num : 4 < 256)
    rw [SBUnix.openfileFrom, h.matchesWhole hf hkey, Option.bind_some, h.text_name hi, chosen]
    by_cases hhit : text (file.drop 4) = [] ∧ firstComponent m.name = text file
    · have hle := firstComponent_length_le m.name
      rw [decide_eq_true hhit, if_pos rfl, if_pos hhit,
        fileOf_short hf (by rw [← hhit.2]; omega)]
      exact ⟨_, rfl, rfl⟩
    · rw [decide_eq_false hhit, if_neg Bool.false_ne_true, if_neg hhit,
        kstrlen_text (h.names_terminated _), h.text_name hi, Option.bind_some]
      by_cases h0 : firstComponent m.name = []
      · rw [if_pos h0, if_pos rfl, if_pos h0]
        exact ⟨_, rfl, rfl⟩
      · obtain ⟨d, hd, hiff⟩ := kstrcmp_text hterm hkey
        rw [if_neg h0, if_neg (Nat.succ_ne_zero _), if_neg h0, hd, Option.bind_some]
        rw [hdrop] at hiff
        by_cases hk : firstComponent (m.name.drop 4) = text (file.drop 4)
        · have hle := firstComponent_length_le (m.name.drop 4)
          rw [if_pos (hiff.mpr hk), if_pos hk,
            fileOf_short hf (by rw [← hk] at hlen; rw [List.length_drop] at hle; omega)]
          exact ⟨_, rfl, rfl⟩
        · rw [if_neg (fun e => hk (hiff.mp e)), if_neg hk]
          have hms' : ms = (done ++ [m]) ++ todo := by rw [hms, List.append_assoc]; rfl
          obtain ⟨r, hr, hmap⟩ := ih hms' (n := n) (by rw [List.length_cons] at hn; omega)
          rw [List.length_append, List.length_singleton] at hr hmap
          refine ⟨r, hr, hmap.trans ?_⟩
          rw [Option.map_map]
          congr 1
          funext j
          rw [Function.comp_apply, Nat.add_assoc, Nat.add_comm 1 j]

end Lookup

section Claim

variable {a : Archive} {t : Tarfs} {file : Bytes}

theorem Loaded.of_initTarfs (hk : a.members.length ≤ 16)
    (ht : initTarfs a.start a.bytes = some t) : Loaded a.start a.members t := by
  obtain ⟨u, hu, hl⟩ := initTarfs_loaded a hk
  rw [ht, Option.some_inj] at hu
  rwa [hu]

theorem offset_lt (ms : List Member) {i j : Nat} (hij : i < j) (hj : j ≤ ms.length) :
    offset ms i < offset ms j := by
  induction j with
  | zero => omega
  | succ j ih =>
    obtain ⟨m, hm⟩ : ∃ m, ms[j]? = some m := ⟨ms[j], List.getElem?_eq_getElem hj⟩
    have hpos : 0 < m.bytes.length := by
      rw [m.bytes_length]
      omega
    rw [offset_succ hm]
    rcases Nat.lt_succ_iff_lt_or_eq.mp hij with hlt | rfl
    · have := ih hlt (by omega)
      omega
    · omega

/-- The address fields of the table tell its entries apart, the empty one behind them too. -/
theorem Loaded.addrHdr_inj (h : Loaded a.start a.members t) {i j : Nat}
    (hi : i < a.members.length) (hj : j ≤ a.members.length)
    (heq : (t.entry i).addrHdr = (t.entry j).addrHdr) : i = j := by
  have hpos := a.start_pos
  have haddr : ∀ k, k < a.members.length → (t.entry k).addrHdr = a.start + offset a.members k :=
    fun k hk => (h.stored k _ (List.getElem?_eq_getElem hk)).addr
  rcases Nat.lt_or_eq_of_le hj with hj | rfl
  · rw [haddr i hi, haddr j hj] at heq
    rcases Nat.lt_trichotomy i j with hlt | heq' | hgt
    · have := offset_lt a.members hlt hj.le
      omega
    · exact heq'
    · have := offset_lt a.members hgt hi.le
      omega
  · rw [haddr i hi, h.freeAddr _ (le_refl _)] at heq
    omega

theorem chosen_le {p key : Bytes} {ms : List Member} {j : Nat} (h : chosen p key ms = some j) :
    j ≤ ms.length := by
  induction ms generalizing j with
  | nil =>
    rw [chosen] at h
    split_ifs at h
    rw [← Option.some_inj.mp h]
    exact le_refl _
  | cons m ms ih =>
    rw [chosen] at h
    split_ifs at h
    · rw [← Option.some_inj.mp h]
      exact Nat.zero_le _
    · rw [← Option.some_inj.mp h]
      exact Nat.zero_le _
    · obtain ⟨k, hk, rfl⟩ := Option.map_eq_some_iff.mp h
      exact Nat.succ_le_succ (ih hk)

/-- What openfile does with a loaded table. -/
theorem Loaded.openfile (h : Loaded a.start a.members t) (hk : a.members.length ≤ 16)
    (hf : 0 ∈ file) (hkey : 0 ∈ file.drop 4) :
    ∃ r, SBUnix.openfile t file = some r ∧
      r.map File.address = (a.chosen file).map fun j => (t.entry j).addrHdr := by
  have hrun := h.openfileFrom hf hkey (List.nil_append a.members).symm (n := tarfsEntries)
    (by unfold tarfsEntries; omega)
  simp only [List.length_nil, Nat.zero_add] at hrun
  exact hrun

theorem openfile_unterminated (h : 0 ∉ file.drop 4) : SBUnix.openfile t file = none := by
  have hlen : kstrlen (file.drop 4) = none := by
    cases hc : kstrlen (file.drop 4) with
    | none => rfl
    | some n => exact absurd (nul_mem_of_kstrlen hc) h
  rw [SBUnix.openfile, tarfsEntries, openfileFrom, matchesWhole, hlen]
  rfl

/-- openfile returns the entry with the path as its name, or NULL if there is none. -/
def OpensNamed (a : Archive) (t : Tarfs) (file : Bytes) : Prop :=
  match firstNamed a.members (text file) with
  | some i => ∃ fd, SBUnix.openfile t file = some (some fd) ∧ fd.address = a.address i
  | none => SBUnix.openfile t file = some none

/-- No other archived path opens the same entry. -/
def OpensAlone (a : Archive) (t : Tarfs) (file : Bytes) : Prop :=
  ∀ other, 0 ∈ other → text other ≠ text file → firstNamed a.members (text file) ≠ none →
    firstNamed a.members (text other) ≠ none → ∀ fd fd', SBUnix.openfile t file = some (some fd) →
    SBUnix.openfile t other = some (some fd') → fd.address ≠ fd'.address

theorem Loaded.opensNamed_iff (h : Loaded a.start a.members t) (hk : a.members.length ≤ 16)
    (hf : 0 ∈ file) : OpensNamed a t file ↔
      0 ∈ file.drop 4 ∧ a.chosen file = firstNamed a.members (text file) := by
  by_cases hkey : 0 ∈ file.drop 4
  · obtain ⟨r, hr, hmap⟩ := h.openfile hk hf hkey
    rw [and_iff_right hkey, OpensNamed, hr]
    cases hfirst : firstNamed a.members (text file) with
    | none =>
      dsimp only
      cases hc : a.chosen file with
      | none =>
        rw [hc, Option.map_none, Option.map_eq_none_iff] at hmap
        exact iff_of_true (congrArg some hmap) rfl
      | some j =>
        rw [hc, Option.map_some] at hmap
        obtain ⟨fd, rfl, -⟩ := Option.map_eq_some_iff.mp hmap
        exact iff_of_false (by simp) (by simp)
    | some i =>
      obtain ⟨m, hm, -⟩ := firstNamed_some hfirst
      obtain ⟨hi, -⟩ := List.getElem?_eq_some_iff.mp hm
      have haddr : (t.entry i).addrHdr = a.address i := (h.stored i m hm).addr
      dsimp only
      cases hc : a.chosen file with
      | none =>
        rw [hc, Option.map_none, Option.map_eq_none_iff] at hmap
        rw [hmap]
        exact iff_of_false (by simp) (by simp)
      | some j =>
        rw [hc, Option.map_some] at hmap
        obtain ⟨fd, rfl, hfd⟩ := Option.map_eq_some_iff.mp hmap
        rw [Option.some_inj]
        constructor
        · rintro ⟨fd', heq, hfd'⟩
          rw [Option.some_inj, Option.some_inj] at heq
          rw [← heq, hfd, ← haddr] at hfd'
          exact (h.addrHdr_inj hi (chosen_le hc) hfd'.symm).symm
        · rintro rfl
          exact ⟨fd, rfl, hfd.trans haddr⟩
  · rw [OpensNamed, openfile_unterminated hkey]
    refine iff_of_false ?_ (fun hc => hkey hc.1)
    cases firstNamed a.members (text file) with
    | none => simp
    | some i => simp

theorem Loaded.chosen_of_openfile (h : Loaded a.start a.members t) (hk : a.members.length ≤ 16)
    (hf : 0 ∈ file) {fd : File} (hfd : SBUnix.openfile t file = some (some fd)) :
    0 ∈ file.drop 4 ∧ ∃ j, a.chosen file = some j ∧ (t.entry j).addrHdr = fd.address := by
  by_cases hkey : 0 ∈ file.drop 4
  · obtain ⟨r, hr, hmap⟩ := h.openfile hk hf hkey
    rw [hfd, Option.some_inj] at hr
    rw [← hr, Option.map_some] at hmap
    exact ⟨hkey, Option.map_eq_some_iff.mp hmap.symm⟩
  · rw [openfile_unterminated hkey] at hfd
    cases hfd

theorem Loaded.openfile_of_chosen (h : Loaded a.start a.members t) (hk : a.members.length ≤ 16)
    (hf : 0 ∈ file) (hkey : 0 ∈ file.drop 4) {j : Nat} (hj : a.chosen file = some j) :
    ∃ fd, SBUnix.openfile t file = some (some fd) ∧ fd.address = (t.entry j).addrHdr := by
  obtain ⟨r, hr, hmap⟩ := h.openfile hk hf hkey
  rw [hj, Option.map_some] at hmap
  obtain ⟨fd, rfl, hfd⟩ := Option.map_eq_some_iff.mp hmap
  exact ⟨fd, hr, hfd⟩

end Claim

/-- openfile on a loaded archive, for every path: it opens the entry of that name or returns
NULL, and no other archived path opens the same entry, exactly when the entry chosen by
components is the one with the name, and is chosen for no other archived path. -/
theorem openfile_named_iff (a : Archive) (t : Tarfs) (file : Bytes)
    (hk : a.members.length ≤ 16) (ht : initTarfs a.start a.bytes = some t) (hf : 0 ∈ file) :
    OpensNamed a t file ∧ OpensAlone a t file ↔
      (0 ∈ file.drop 4 ∧ a.chosen file = firstNamed a.members (text file)) ∧
      (firstNamed a.members (text file) ≠ none → ∀ other, 0 ∈ other → 0 ∈ other.drop 4 →
        text other ≠ text file → firstNamed a.members (text other) ≠ none →
        a.chosen other ≠ a.chosen file) := by
  have h := Loaded.of_initTarfs hk ht
  rw [h.opensNamed_iff hk hf]
  apply and_congr_right
  rintro ⟨hkey, hchosen⟩
  constructor
  · intro halone harch other ho hokey hne hoarch heq
    obtain ⟨i, hi⟩ := Option.ne_none_iff_exists'.mp harch
    rw [hi] at hchosen
    obtain ⟨fd, hfd, haddr⟩ := h.openfile_of_chosen hk hf hkey hchosen
    obtain ⟨fd', hfd', haddr'⟩ := h.openfile_of_chosen hk ho hokey (heq.trans hchosen)
    exact halone other ho hne harch hoarch fd fd' hfd hfd' (haddr.trans haddr'.symm)
  · intro hother other ho hne harch hoarch fd fd' hfd hfd' heq
    obtain ⟨-, i, hi, haddr⟩ := h.chosen_of_openfile hk hf hfd
    obtain ⟨hokey, j, hj, haddr'⟩ := h.chosen_of_openfile hk ho hfd'
    obtain ⟨m, hm, -⟩ := firstNamed_some (hchosen.symm.trans hi)
    obtain ⟨hlt, -⟩ := List.getElem?_eq_some_iff.mp hm
    have hij : i = j := h.addrHdr_inj hlt (chosen_le hj) (by rw [haddr, haddr', heq])
    exact hother harch other ho hokey hne hoarch (by rw [hi, hj, hij])

/-- `bin/cat` in a ramdisk with `bin/` and `bin/cat`. -/
theorem openfile_named_binCat :
    ∃ t, initTarfs ramdisk.start ramdisk.bytes = some t ∧
      OpensNamed ramdisk t [98, 105, 110, 47, 99, 97, 116, 0] ∧
      OpensAlone ramdisk t [98, 105, 110, 47, 99, 97, 116, 0] := by
  obtain ⟨t, ht, -⟩ := initTarfs_loaded ramdisk (by decide)
  refine ⟨t, ht, (openfile_named_iff ramdisk t _ (by decide) ht (by decide)).mpr ?_⟩
  refine ⟨by decide, fun _ other ho _ hne harch => ?_⟩
  obtain ⟨i, hi⟩ := Option.ne_none_iff_exists'.mp harch
  obtain ⟨m, hm, hname⟩ := firstNamed_some hi
  obtain ⟨r, hr⟩ := exists_text ho
  have hmem : m = binDir ∨ m = binCat := by
    simpa [ramdisk, Archive.linked] using List.mem_of_getElem? hm
  rcases hmem with rfl | rfl
  · rw [← hname] at hr
    have hchosen : ramdisk.chosen other = some 0 := by
      rw [Archive.chosen, ← hname, hr]
      rfl
    rw [hchosen]
    decide
  · exact absurd hname.symm hne

/-- `lib/cat` -/
def libCat : Member :=
  .zeroed [108, 105, 98, 47, 99, 97, 116] .file [] (by decide) (by decide) (by decide)
    empty_data_length (by decide)

def twoCats : Archive := .linked [binCat, libCat] (by
  simp only [List.flatMap_cons, List.flatMap_nil, List.length_append, Member.bytes_length]
  decide)

/-- With `bin/cat` before it, `lib/cat` cannot be opened: `bin/cat` is opened instead. -/
theorem openfile_opens_other :
    ∃ t fd, initTarfs twoCats.start twoCats.bytes = some t ∧
      openfile t [108, 105, 98, 47, 99, 97, 116, 0] = some (some fd) ∧
      fd.address = twoCats.address 0 ∧ firstNamed twoCats.members libCat.name = some 1 ∧
      ¬OpensNamed twoCats t [108, 105, 98, 47, 99, 97, 116, 0] := by
  obtain ⟨t, ht, hl⟩ := initTarfs_loaded twoCats (by decide)
  have hf : (0 : UInt8) ∈ [108, 105, 98, 47, 99, 97, 116, 0] := by decide
  obtain ⟨fd, hfd, haddr⟩ := hl.openfile_of_chosen (by decide) hf (by decide) (j := 0) (by decide)
  refine ⟨t, fd, ht, hfd, haddr.trans (hl.stored 0 binCat rfl).addr, by decide, ?_⟩
  rw [hl.opensNamed_iff (by decide) hf]
  decide

end SBUnix
