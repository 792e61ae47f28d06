import SBUnix.Tarfs.InitTarfs

namespace SBUnix

open CString Word

/-- An entry whose name fills the 100 bytes of its field, so that no terminator ends it; the
other fields are those of `base`. -/
structure FullMember where
  base : Member
  name : Bytes
  name_length : name.length = 100
  name_noNul : 0 ∉ name

def FullMember.bytes (m : FullMember) : Bytes := m.name ++ m.base.bytes.drop 100

inductive Entry where
  | short (m : Member)
  | full (m : FullMember)

def Entry.name : Entry → Bytes
  | short m => m.name
  | full m => m.name

def Entry.bytes : Entry → Bytes
  | short m => m.bytes
  | full m => m.bytes

/-- A ramdisk whose names have up to 100 bytes. -/
structure Image where
  entries : List Entry
  rest : Bytes
  start : Nat
  length_lt : (entries.flatMap Entry.bytes).length + 512 + rest.length < 2^31
  end_le : start + ((entries.flatMap Entry.bytes).length + 512 + rest.length) ≤ 2^64

def Image.bytes (a : Image) : Bytes :=
  a.entries.flatMap Entry.bytes ++ (List.replicate 512 0 ++ a.rest)

/-- init_tarfs runs to its end: no access leaves its array, be it tarfs_fs, dent, ino or one of
the local names. -/
def Image.InBounds (a : Image) : Prop := (initTarfs a.start a.bytes).isSome

section Stops

variable {start i : Nat} {hdr : Bytes} {t u : Tarfs}

/-- What kstrcpy copies is the string. -/
theorem text_of_kstrcpy {dst src d : Bytes} (h : kstrcpy dst src = some d) :
    ∃ z, d = text src ++ 0::z := by
  induction src generalizing dst d with
  | nil =>
    cases dst with
    | nil => cases h
    | cons e dst => cases h
  | cons c src ih =>
    cases dst with
    | nil => cases h
    | cons e dst =>
      rw [kstrcpy] at h
      by_cases hc : c = 0
      · rw [if_pos hc, Option.some_inj] at h
        rw [hc, text_nul]
        exact ⟨dst, h.symm⟩
      · rw [if_neg hc] at h
        obtain ⟨d', hd', rfl⟩ := Option.map_eq_some_iff.mp h
        obtain ⟨z, rfl⟩ := ih hd'
        rw [text_cons hc]
        exact ⟨z, rfl⟩

theorem fillEntry_numDentries {fsz : Nat} {tmp : Int}
    (h : fillEntry start hdr fsz tmp i t = some u) : u.numDentries = t.numDentries := by
  rw [fillEntry] at h
  split_ifs at h
  obtain ⟨name, -, h⟩ := Option.bind_eq_some_iff.mp h
  obtain ⟨flag, -, h⟩ := Option.bind_eq_some_iff.mp h
  obtain ⟨index, -, rfl⟩ := Option.map_eq_some_iff.mp h
  rfl

/-- A name of a hundred characters does not fit the local array. -/
theorem localName_overflow {w : Bytes} (hw : 0 ∉ w) (hlen : 100 ≤ w.length) (z : Bytes) :
    localName (w ++ 0::z) = none :=
  kstrcpy_overflow hw z _ (by rw [List.length_replicate]; exact hlen)

theorem getPerIndxFile_overflow {name : Bytes} (h : localName name = none) (t : Tarfs) :
    getPerIndxFile name t = none := by
  rw [getPerIndxFile, h]
  cases kstrlen name with
  | none => rfl
  | some len => rfl

theorem getPerIndx_overflow {name : Bytes} (h : localName name = none) (t : Tarfs) :
    getPerIndx name t = none := by
  rw [getPerIndx, h]
  cases kstrlen name with
  | none => rfl
  | some len => rfl

/-- A hundred bytes without a terminator are part of the string whatever follows. -/
theorem length_text_append {w : Bytes} (hw : 0 ∉ w) (r : Bytes) :
    w.length ≤ (text (w++r)).length := by
  induction w with
  | nil => exact Nat.zero_le _
  | cons c w ih =>
    rw [List.mem_cons, not_or] at hw
    rw [List.cons_append, text_cons (Ne.symm hw.1), List.length_cons, List.length_cons]
    exact Nat.succ_le_succ (ih hw.2)

theorem FullMember.drop_header (m : FullMember) (r : Bytes) :
    (m.bytes ++ r).drop 156 = (m.base.bytes ++ r).drop 156 := by
  have hlen := m.base.bytes_length
  rw [FullMember.bytes, List.append_assoc, ← List.drop_append_of_le_length (by omega),
    List.drop_append, m.name_length, List.drop_eq_nil_of_le (by rw [m.name_length]; omega),
    List.nil_append, List.drop_drop]

theorem FullMember.fillEntry (m : FullMember) (r : Bytes) (fsz : Nat) (tmp : Int) (i : Nat)
    (t : Tarfs) : SBUnix.fillEntry start (m.bytes ++ r) fsz tmp i t = none := by
  rw [SBUnix.fillEntry]
  split_ifs with hi
  · cases hcopy : kstrcpy (t.names.str i) (m.bytes ++ r) with
    | none => rfl
    | some name =>
      obtain ⟨z, rfl⟩ := text_of_kstrcpy hcopy
      have hlong : 100 ≤ (text (m.bytes ++ r)).length := by
        rw [FullMember.bytes, List.append_assoc]
        exact m.name_length.symm.le.trans (length_text_append m.name_noNul _)
      have hlocal := localName_overflow (nul_not_mem_text _) hlong z
      obtain ⟨flag, hflag, hcode⟩ := stoi_typeflag m.base r
      rw [← m.drop_header] at hflag
      rw [Option.bind_some, hflag, Option.bind_some]
      dsimp only
      rw [hcode]
      cases m.base.kind with
      | file => rw [if_pos (show Kind.file.code = 0 from rfl), getPerIndxFile_overflow hlocal]; rfl
      | directory =>
        rw [if_neg (by decide), if_pos (show Kind.directory.code = 5 from rfl),
          getPerIndx_overflow hlocal]
        rfl
  · rfl

theorem kstrlen_entry (e : Entry) (r : Bytes) : kstrlen (e.bytes ++ r) ≠ some 0 := by
  have hhead : ∀ c s, c ≠ 0 → kstrlen (c::s) ≠ some 0 := by
    intro c s hc h
    rw [kstrlen, if_neg hc, countThrough, if_neg hc] at h
    obtain ⟨n, -, hn⟩ := Option.map_eq_some_iff.mp h
    omega
  cases e with
  | short m =>
    rw [Entry.bytes, kstrlen_member]
    simp
  | full m =>
    have hlen := m.name_length
    have hnul := m.name_noNul
    rw [Entry.bytes, FullMember.bytes]
    cases hname : m.name with
    | nil =>
      rw [hname] at hlen
      cases hlen
    | cons c w =>
      rw [hname, List.mem_cons, not_or] at hnul
      exact hhead c _ (Ne.symm hnul.1)

variable {img : Bytes} {ms : List Member} {e : Entry} {r : Bytes}

/-- Where the tables are full, and where a name is, the loop leaves an array. -/
theorem Begins.stops (h : Begins start img ms (e.bytes ++ r)) (hk : ms.length ≤ maxDentries)
    (hbad : ms.length = maxDentries ∨ 100 ≤ e.name.length) : initTarfs start img = none := by
  obtain ⟨n, u, v, hu, -, hv, hrun⟩ := h.reaches hk
  have hdrop := (List.append_nil ms ▸ h).drop
  rw [List.flatMap_nil, List.nil_append] at hdrop
  rw [hrun, initTarfsFrom, if_pos hv, headerAt_nat, Option.bind_some, hdrop]
  apply Option.bind_eq_none_iff.mpr
  intro len hlen
  have hne : len ≠ 0 := by
    rintro rfl
    exact kstrlen_entry e r hlen
  rw [if_neg hne]
  apply Option.bind_eq_none_iff.mpr
  intro oct _
  apply Option.bind_eq_none_iff.mpr
  intro t ht
  apply Option.bind_eq_none_iff.mpr
  intro t' ht'
  rcases hbad with hfull | hlong
  · -- the row of dent that set_dirents fills is the one behind the last
    have hrow : t.numDentries = maxDentries := by
      rw [fillEntry_numDentries ht, hu.dentries, hfull]
    rw [setDirents, if_neg (by rw [hrow]; simp)] at ht'
    cases ht'
  · cases e with
    | short m => exact absurd hlong (Nat.not_le.mpr m.name_short)
    | full m =>
      rw [Entry.bytes, m.fillEntry] at ht
      cases ht

theorem Begins.before {m : Member} {ns : List Member} {tail : Bytes}
    (h : Begins start img (ms ++ m::ns) tail) :
    Begins start img ms (m.bytes ++ (ns.flatMap Member.bytes ++ tail)) := by
  refine ⟨?_, ?_, h.length_lt, h.end_le⟩
  · rw [h.split, List.flatMap_append, List.flatMap_cons, List.append_assoc, List.append_assoc]
  · rw [← List.append_assoc]
    exact List.append_ne_nil_of_right_ne_nil _ h.tail_ne

/-- The tables do not hold a seventeenth member. -/
theorem Begins.overflows {tail : Bytes} (h : Begins start img ms tail) (hk : 16 < ms.length) :
    initTarfs start img = none := by
  have hsplit : ms = ms.take 16 ++ ms[16] :: ms.drop 17 := by
    rw [← List.drop_eq_getElem_cons, List.take_append_drop]
  have hlen : (ms.take 16).length = 16 := by
    rw [List.length_take]
    omega
  rw [hsplit] at h
  exact h.before.stops (e := .short ms[16]) hlen.le (Or.inl hlen)

end Stops

section Image

variable {a : Image}

/-- The entries before the first name without a terminator. -/
theorem exists_full (es : List Entry) :
    (∃ ms : List Member, es = ms.map .short) ∨
      ∃ (ms : List Member) (m : FullMember) (fs : List Entry), es = ms.map .short ++ .full m :: fs := by
  induction es with
  | nil => exact Or.inl ⟨[], rfl⟩
  | cons e es ih =>
    cases e with
    | full m => exact Or.inr ⟨[], m, es, rfl⟩
    | short m =>
      rcases ih with ⟨ms, rfl⟩ | ⟨ms, f, fs, rfl⟩
      · exact Or.inl ⟨m::ms, rfl⟩
      · exact Or.inr ⟨m::ms, f, fs, rfl⟩

theorem flatMap_short (ms : List Member) :
    (ms.map Entry.short).flatMap Entry.bytes = ms.flatMap Member.bytes := by
  rw [List.flatMap_map]
  rfl

theorem Image.begins {ms : List Member} {fs : List Entry} (h : a.entries = ms.map .short ++ fs) :
    Begins a.start a.bytes ms
      (fs.flatMap Entry.bytes ++ (List.replicate 512 0 ++ a.rest)) := by
  have hlt := a.length_lt
  have hend := a.end_le
  have hlen : a.bytes.length = (a.entries.flatMap Entry.bytes).length + 512 + a.rest.length := by
    rw [Image.bytes, List.length_append, List.length_append, List.length_replicate, Nat.add_assoc]
  rw [← hlen] at hlt hend
  refine ⟨?_, fun h => ?_, hlt, hend⟩
  · rw [Image.bytes, h, List.flatMap_append, flatMap_short, List.append_assoc]
  · have := congrArg List.length h
    rw [List.length_append, List.length_append, List.length_replicate, List.length_nil] at this
    omega

theorem Image.inBounds_of_short {ms : List Member} (h : a.entries = ms.map .short)
    (hk : ms.length ≤ 16) : a.InBounds := by
  have hb := Image.begins (h.trans (List.append_nil _).symm)
  rw [List.flatMap_nil, List.nil_append] at hb
  obtain ⟨t, ht, -⟩ := hb.ends hk
  rw [Image.InBounds, ht]
  rfl

theorem Image.not_inBounds {ms : List Member} {e : Entry} {fs : List Entry}
    (h : a.entries = ms.map .short ++ e::fs) (hk : ms.length ≤ 16)
    (hbad : ms.length = 16 ∨ 100 ≤ e.name.length) : ¬ a.InBounds := by
  have hb := Image.begins h
  rw [List.flatMap_cons, List.append_assoc] at hb
  rw [Image.InBounds, hb.stops hk hbad]
  simp

theorem Image.not_inBounds_of_many {ms : List Member} {fs : List Entry}
    (h : a.entries = ms.map .short ++ fs) (hk : 16 < ms.length) : ¬ a.InBounds := by
  rw [Image.InBounds, (Image.begins h).overflows hk]
  simp

end Image

/-- Every access of init_tarfs is in bounds exactly for the archives of at most sixteen entries
with a terminator behind each name. -/
theorem initTarfs_inBounds_iff (a : Image) :
    a.InBounds ↔ a.entries.length ≤ 16 ∧ ∀ e ∈ a.entries, e.name.length < 100 := by
  rcases exists_full a.entries with ⟨ms, hms⟩ | ⟨ms, m, fs, hms⟩
  · rcases Nat.lt_or_ge 16 ms.length with hlt | hle
    · have hbad := Image.not_inBounds_of_many (hms.trans (List.append_nil _).symm) hlt
      refine ⟨fun h => absurd h hbad, fun h => ?_⟩
      rw [hms, List.length_map] at h
      omega
    · refine ⟨fun _ => ⟨by rw [hms, List.length_map]; exact hle, ?_⟩,
        fun _ => Image.inBounds_of_short hms hle⟩
      intro e he
      rw [hms] at he
      obtain ⟨m, -, rfl⟩ := List.mem_map.mp he
      exact m.name_short
  · have hmem : Entry.full m ∈ a.entries := by
      rw [hms]
      exact List.mem_append_right _ List.mem_cons_self
    have hbad : ¬ a.InBounds := by
      rcases Nat.lt_or_ge 16 ms.length with hlt | hle
      · exact Image.not_inBounds_of_many hms hlt
      · exact Image.not_inBounds hms hle (Or.inr m.name_length.symm.le)
    refine ⟨fun h => absurd h hbad, fun h => ?_⟩
    exact absurd (h.2 _ hmem) (Nat.not_lt.mpr m.name_length.symm.le)

/-- An empty file with a name of one letter. -/
def letterFile (k : Fin 17) : Member :=
  .zeroed [UInt8.ofNat (97+k)] .file [] (List.cons_ne_nil _ _) (by revert k; decide)
    (by rw [List.length_singleton]; omega) empty_data_length (fun h => by cases h)

theorem letterFiles_length :
    (((List.finRange 17).map fun k => Entry.short (letterFile k)).flatMap Entry.bytes).length =
      17*512 := by
  have hone : ∀ k, (Entry.short (letterFile k)).bytes.length = 512 := by
    intro k
    have hdata : (letterFile k).data.length = 0 := rfl
    rw [Entry.bytes, Member.bytes_length, hdata]
  rw [List.length_flatMap, List.map_map, Function.comp_def]
  simp only [hone, List.map_const', List.length_finRange, List.sum_replicate, smul_eq_mul]

/-- Seventeen empty files, `a` to `q`. -/
def letterFiles : Image where
  entries := (List.finRange 17).map fun k => .short (letterFile k)
  rest := []
  start := 0x200000
  length_lt := by
    rw [letterFiles_length, List.length_nil]
    norm_num
  end_le := by
    rw [letterFiles_length, List.length_nil]
    norm_num

/-- The seventeenth file has no row in dent. -/
theorem initTarfs_leaves_dent :
    letterFiles.entries.length = 17 ∧ initTarfs letterFiles.start letterFiles.bytes = none := by
  refine ⟨rfl, ?_⟩
  have hms : letterFiles.entries = ((List.finRange 17).map letterFile).map .short ++ [] := by
    rw [List.append_nil, List.map_map]
    rfl
  have hbad := Image.not_inBounds_of_many hms
    (by rw [List.length_map, List.length_finRange]; omega)
  rw [Image.InBounds, Option.isSome_iff_ne_none, ne_eq, not_not] at hbad
  exact hbad

end SBUnix
