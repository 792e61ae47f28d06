import SBUnix.Tarfs.InitTarfs

namespace SBUnix

open CString Word

/-- The loop of file_exists, in at most `n` rounds. Its condition tests the name of the round
before, which was not empty. -/
def fileExistsFrom (img file : Bytes) : Nat → Int → Option Int
  | 0, _ => none
  | n+1, tmp =>
    (headerAt img tmp).bind fun hdr =>
      (stoi (hdr.drop 124)).bind fun oct =>
        (kstrlen hdr).bind fun len =>
          if len = 0 then some 999
          else (kstrcmp hdr file).bind fun d =>
            if d = 0 then some (int32 (tmp + 512))
            else fileExistsFrom img file n (int32 (tmp + headerStep 64 (oct2dec oct)))

/-- file_exists in at most `n` rounds: the first header is looked at only to see that its name
is not empty. -/
def fileExists (img file : Bytes) (n : Nat) : Option Int :=
  (kstrlen img).bind fun len => if len = 0 then some 0 else fileExistsFrom img file n 512

/-- The first entry with a name. -/
def firstNamed (ms : List Member) (p : Bytes) : Option Nat := ms.findIdx? (·.name = p)

/-- file_exists returns, and with what init_tarfs' walk over the archive says. -/
def Agrees (a : Archive) (file : Bytes) : Prop :=
  ∃ n v, fileExists a.bytes file n = some v ∧
    match firstNamed a.members (text file) with
    | some i => v = offset a.members i + 512
    | none => v = 0 ∨ v = 999

/-- What lies at `tmp` can be read as a header: both strings in it end. -/
structure Readable (img : Bytes) (tmp : Int) (hdr : Bytes) (oct : Nat) : Prop where
  bytes : headerAt img tmp = some hdr
  size : stoi (hdr.drop 124) = some oct
  name : 0 ∈ hdr

/-- From one position to another over headers, or what is taken for one, with other names. -/
inductive Passes (img p : Bytes) : Int → Int → Prop
  | refl (tmp : Int) : Passes img p tmp tmp
  | skip {tmp q : Int} {hdr : Bytes} {oct : Nat} (h : Readable img tmp hdr oct)
      (hne : text hdr ≠ []) (hp : text hdr ≠ p)
      (hq : Passes img p (int32 (tmp + headerStep 64 (oct2dec oct))) q) : Passes img p tmp q

section Walk

variable {img file : Bytes}

/-- One round, by the name it meets. -/
theorem Readable.round {tmp : Int} {hdr : Bytes} {oct : Nat} (h : Readable img tmp hdr oct)
    (hfile : 0 ∈ file) (n : Nat) : fileExistsFrom img file (n+1) tmp =
      if text hdr = [] then some 999
      else if text hdr = text file then some (int32 (tmp + 512))
      else fileExistsFrom img file n (int32 (tmp + headerStep 64 (oct2dec oct))) := by
  obtain ⟨d, hd, hiff⟩ := kstrcmp_text h.name hfile
  rw [fileExistsFrom, h.bytes, Option.bind_some, h.size, Option.bind_some, kstrlen_text h.name,
    Option.bind_some, hd, Option.bind_some]
  by_cases h0 : text hdr = []
  · rw [if_pos h0, if_pos rfl, if_pos h0]
  · rw [if_neg h0, if_neg (Nat.succ_ne_zero _), if_neg h0]
    by_cases hp : text hdr = text file
    · rw [if_pos hp, if_pos (hiff.mpr hp)]
    · rw [if_neg hp, if_neg (fun e => hp (hiff.mp e))]

theorem readable_of_round {n : Nat} {tmp v : Int} (h : fileExistsFrom img file (n+1) tmp = some v) :
    ∃ hdr oct, Readable img tmp hdr oct := by
  rw [fileExistsFrom] at h
  obtain ⟨hdr, hhdr, h⟩ := Option.bind_eq_some_iff.mp h
  obtain ⟨oct, hoct, h⟩ := Option.bind_eq_some_iff.mp h
  obtain ⟨len, hlen, -⟩ := Option.bind_eq_some_iff.mp h
  exact ⟨hdr, oct, hhdr, hoct, nul_mem_of_kstrlen hlen⟩

/-- Where the walk ends and what it returns there. -/
def EndsWith (img p : Bytes) (q v : Int) : Prop :=
  ∃ hdr oct, Readable img q hdr oct ∧
    (text hdr = [] ∧ v = 999 ∨ text hdr ≠ [] ∧ text hdr = p ∧ v = int32 (q + 512))

theorem fileExistsFrom_iff (hfile : 0 ∈ file) (tmp v : Int) :
    (∃ n, fileExistsFrom img file n tmp = some v) ↔
      ∃ q, Passes img (text file) tmp q ∧ EndsWith img (text file) q v := by
  constructor
  · rintro ⟨n, hn⟩
    induction n generalizing tmp with
    | zero => cases hn
    | succ n ih =>
      obtain ⟨hdr, oct, hread⟩ := readable_of_round hn
      rw [hread.round hfile] at hn
      by_cases h0 : text hdr = []
      · rw [if_pos h0, Option.some_inj] at hn
        exact ⟨tmp, .refl tmp, hdr, oct, hread, Or.inl ⟨h0, hn.symm⟩⟩
      · rw [if_neg h0] at hn
        by_cases hp : text hdr = text file
        · rw [if_pos hp, Option.some_inj] at hn
          exact ⟨tmp, .refl tmp, hdr, oct, hread, Or.inr ⟨h0, hp, hn.symm⟩⟩
        · rw [if_neg hp] at hn
          obtain ⟨q, hq, hend⟩ := ih _ hn
          exact ⟨q, .skip hread h0 hp hq, hend⟩
  · rintro ⟨q, hq, hdr, oct, hread, hend⟩
    induction hq with
    | refl tmp =>
      refine ⟨1, ?_⟩
      rw [hread.round hfile]
      rcases hend with ⟨h0, rfl⟩ | ⟨h0, hp, rfl⟩
      · rw [if_pos h0]
      · rw [if_neg h0, if_pos hp]
    | skip h hne hp _ ih =>
      obtain ⟨n, hn⟩ := ih hread hend
      exact ⟨n+1, by rw [h.round hfile, if_neg hne, if_neg hp, hn]⟩

/-- More rounds do not change the outcome. -/
theorem fileExistsFrom_mono {n k : Nat} (hk : n ≤ k) {tmp v : Int}
    (h : fileExistsFrom img file n tmp = some v) : fileExistsFrom img file k tmp = some v := by
  induction n generalizing k tmp with
  | zero => cases h
  | succ n ih =>
    obtain ⟨k, rfl⟩ : ∃ j, k = j+1 := ⟨k-1, by omega⟩
    rw [fileExistsFrom] at h ⊢
    obtain ⟨hdr, hhdr, h⟩ := Option.bind_eq_some_iff.mp h
    obtain ⟨oct, hoct, h⟩ := Option.bind_eq_some_iff.mp h
    obtain ⟨len, hlen, h⟩ := Option.bind_eq_some_iff.mp h
    rw [hhdr, Option.bind_some, hoct, Option.bind_some, hlen, Option.bind_some]
    split_ifs at h ⊢ with h0
    · exact h
    · obtain ⟨d, hd, h⟩ := Option.bind_eq_some_iff.mp h
      rw [hd, Option.bind_some]
      split_ifs at h ⊢ with hz
      · exact h
      · exact ih (by omega) h

theorem fileExistsFrom_unique {n k : Nat} {tmp v w : Int}
    (hv : fileExistsFrom img file n tmp = some v) (hw : fileExistsFrom img file k tmp = some w) :
    v = w := by
  have h1 := fileExistsFrom_mono (Nat.le_max_left n k) hv
  have h2 := fileExistsFrom_mono (Nat.le_max_right n k) hw
  exact Option.some_inj.mp (h1.symm.trans h2)

/-- Every position of a walk is a multiple of the block size and fits an int. -/
theorem Passes.aligned {p : Bytes} {tmp q : Int} (h : Passes img p tmp q) (h512 : tmp % 512 = 0)
    (hlt : tmp < 2^31) : q % 512 = 0 ∧ q < 2^31 := by
  induction h with
  | refl tmp => exact ⟨h512, hlt⟩
  | @skip tmp q hdr oct _ _ _ _ ih =>
    have hstep : headerStep 64 (oct2dec oct) % 512 = 0 := by
      rw [headerStep]
      split_ifs <;> omega
    apply ih
    · rw [int32]
      rw [Int.bmod_def]
      split_ifs <;> omega
    · have := @Int.bmod_lt (tmp + headerStep 64 (oct2dec oct)) (2^32) (by norm_num)
      rw [int32]
      omega

end Walk

section Members

variable {a : Archive} {done todo : List Member} {file : Bytes}

theorem Member.readable (m : Member) {img : Bytes} {off : Nat} {r : Bytes}
    (h : img.drop off = m.bytes ++ r) :
    ∃ oct, Readable img off (m.bytes ++ r) oct ∧ oct2dec oct = m.data.length ∧
      text (m.bytes ++ r) = m.name := by
  obtain ⟨oct, hoct, hsize⟩ := stoi_size m r
  obtain ⟨s, hs⟩ := m.bytes_name r
  refine ⟨oct, ⟨by rw [headerAt_nat, h], hoct, nul_mem_of_kstrlen (kstrlen_member m r)⟩, hsize, ?_⟩
  rw [hs, text_append_nul m.name_noNul]

theorem readable_zero_block {img : Bytes} {off : Nat} {r : Bytes}
    (h : img.drop off = List.replicate 512 0 ++ r) :
    Readable img off (List.replicate 512 0 ++ r) 0 := by
  refine ⟨by rw [headerAt_nat, h], ?_, nul_mem_of_kstrlen (kstrlen_zero_block r)⟩
  rw [List.drop_append_of_le_length (by rw [List.length_replicate]; norm_num),
    List.drop_replicate, show 512-124 = 387+1 by norm_num, List.replicate_succ, List.cons_append]
  exact stoiFrom_stop rfl 12 0 _

/-- The walk over the members still ahead, by induction on them. -/
theorem fileExistsFrom_members (hms : a.members = done++todo) (hfile : 0 ∈ file) :
    fileExistsFrom a.bytes file (todo.length+1) (done.flatMap Member.bytes).length =
      some (match firstNamed todo (text file) with
        | some i => offset a.members (done.length+i) + 512
        | none => 999) := by
  induction todo generalizing done with
  | nil =>
    have hdrop := (a.begins_split hms).drop
    rw [List.flatMap_nil, List.nil_append] at hdrop
    rw [(readable_zero_block hdrop).round hfile, if_pos (by rfl)]
    rfl
  | cons m todo ih =>
    have hms' : a.members = (done ++ [m]) ++ todo := by rw [hms, List.append_assoc]; rfl
    have hdrop := (a.begins_split hms).drop
    rw [List.flatMap_cons, List.append_assoc] at hdrop
    obtain ⟨oct, hread, hsize, htext⟩ := m.readable hdrop
    have hpass := (a.begins_split hms').passed_lt
    have hlt := a.length_lt
    have hm := m.bytes_length
    rw [← a.bytes_length] at hlt
    rw [List.flatMap_append, List.flatMap_singleton, List.length_append] at hpass
    rw [hread.round hfile, htext, if_neg m.name_ne]
    by_cases hp : m.name = text file
    · rw [if_pos hp, firstNamed, List.findIdx?_cons, if_pos (by simpa using hp)]
      dsimp only
      rw [Nat.add_zero, hms, offset_length, ← Nat.cast_ofNat, ← Nat.cast_add,
        int32_of_lt (by omega)]
    · have hnext : int32 (((done.flatMap Member.bytes).length : Int) + headerStep 64 (oct2dec oct)) =
          ((done ++ [m]).flatMap Member.bytes).length := by
        rw [hsize, headerStep_data m (by norm_num), List.flatMap_append, List.flatMap_singleton,
          List.length_append, ← Nat.cast_add, int32_of_lt (by omega)]
      rw [if_neg hp, List.length_cons, hnext, ih hms', firstNamed, firstNamed, List.findIdx?_cons,
        if_neg (by simpa using hp)]
      cases todo.findIdx? (·.name = text file) with
      | none => rfl
      | some i =>
        simp only [Option.map_some, List.length_append, List.length_singleton, Nat.add_assoc,
          Nat.add_comm 1 i]

theorem offset_mod (ms : List Member) (i : Nat) : offset ms i % 512 = 0 := by
  rw [offset]
  induction ms.take i with
  | nil => rfl
  | cons m ms ih =>
    have := m.bytes_length
    rw [List.flatMap_cons, List.length_append]
    omega

theorem exists_split {ms : List Member} {i : Nat} {m : Member} (h : ms[i]? = some m) :
    ∃ done todo, ms = done ++ m::todo ∧ done.length = i := by
  obtain ⟨hi, hm⟩ := List.getElem?_eq_some_iff.mp h
  refine ⟨ms.take i, ms.drop (i+1), ?_, List.length_take_of_le hi.le⟩
  rw [← hm, ← List.drop_eq_getElem_cons hi, List.take_append_drop]

theorem firstNamed_some {ms : List Member} {p : Bytes} {i : Nat} (h : firstNamed ms p = some i) :
    ∃ m, ms[i]? = some m ∧ m.name = p := by
  obtain ⟨hi, hp, -⟩ := List.findIdx?_eq_some_iff_getElem.mp h
  exact ⟨ms[i], List.getElem?_eq_getElem hi, by simpa using hp⟩

/-- The bytes of an entry, with the end of the archive behind them. -/
theorem Archive.bytes_at_offset {i : Nat} {m : Member} (h : a.members[i]? = some m) :
    ∃ r, a.bytes.drop (offset a.members i) = m.bytes ++ r ∧ 512 ≤ r.length ∧
      offset a.members i + (m.bytes.length + r.length) = a.bytes.length := by
  obtain ⟨done, todo, hms, rfl⟩ := exists_split h
  have hdrop := (a.begins_split hms).drop
  have hpassed := (a.begins_split hms).passed_lt
  rw [List.flatMap_cons, List.append_assoc] at hdrop
  have hlen := congrArg List.length hdrop
  rw [List.length_drop, List.length_append] at hlen
  rw [show offset a.members done.length = (done.flatMap Member.bytes).length by
    rw [hms, offset_length]]
  refine ⟨_, hdrop, ?_, by omega⟩
  rw [List.length_append, List.length_append, List.length_replicate]
  omega

/-- At the offset of an entry its own header is read. -/
theorem readable_offset {i : Nat} {m : Member} (h : a.members[i]? = some m) :
    ∃ hdr oct, Readable a.bytes (offset a.members i) hdr oct ∧ text hdr = m.name ∧
      offset a.members i + 512 < a.bytes.length := by
  obtain ⟨r, hdrop, hrest, hlen⟩ := a.bytes_at_offset h
  obtain ⟨oct, hread, -, htext⟩ := m.readable hdrop
  have hm := m.bytes_length
  exact ⟨_, oct, hread, htext, by omega⟩

/-- The walk that starts behind the first header comes to the entry that is looked for, or to
an empty name if there is none. -/
def Reaches (a : Archive) (file : Bytes) : Prop :=
  ∃ q hdr oct, Passes a.bytes (text file) 512 q ∧ Readable a.bytes q hdr oct ∧
    match firstNamed a.members (text file) with
    | some i => q = offset a.members i
    | none => text hdr = []

theorem fileExists_of_members (hne : a.members ≠ []) (n : Nat) :
    fileExists a.bytes file n = fileExistsFrom a.bytes file n 512 := by
  obtain ⟨m, ms, hms⟩ := List.exists_cons_of_ne_nil hne
  have hlen : kstrlen a.bytes = some (m.name.length+1) := by
    rw [Archive.bytes, hms, List.flatMap_cons, List.append_assoc, kstrlen_member]
  rw [fileExists, hlen, Option.bind_some, if_neg (Nat.succ_ne_zero _)]

theorem agrees_iff_reaches (hne : a.members ≠ []) (hfile : 0 ∈ file) :
    Agrees a file ↔ Reaches a file := by
  have hlt := a.length_lt
  rw [← a.bytes_length] at hlt
  constructor
  · rintro ⟨n, v, hv, hfound⟩
    rw [fileExists_of_members hne] at hv
    obtain ⟨q, hpass, hdr, oct, hread, hend⟩ := (fileExistsFrom_iff hfile 512 v).mp ⟨n, hv⟩
    have hq := hpass.aligned (by norm_num) (by norm_num)
    have hq0 : 0 ≤ q := by
      have := hread.bytes
      rw [headerAt] at this
      split_ifs at this with h0
      omega
    refine ⟨q, hdr, oct, hpass, hread, ?_⟩
    cases hf : firstNamed a.members (text file) with
    | some i =>
      rw [hf] at hfound
      obtain ⟨m, hm, -⟩ := firstNamed_some hf
      obtain ⟨-, -, -, -, hoff⟩ := readable_offset hm
      have hmod := offset_mod a.members i
      dsimp only at hfound ⊢
      rcases hend with ⟨-, rfl⟩ | ⟨-, -, rfl⟩
      · omega
      · rw [int32, Int.bmod_def] at hfound
        split_ifs at hfound <;> omega
    | none =>
      rw [hf] at hfound
      dsimp only at hfound ⊢
      rcases hend with ⟨h0, -⟩ | ⟨-, -, rfl⟩
      · exact h0
      · rw [int32, Int.bmod_def] at hfound
        split_ifs at hfound <;> omega
  · rintro ⟨q, hdr, oct, hpass, hread, hq⟩
    cases hf : firstNamed a.members (text file) with
    | some i =>
      rw [hf] at hq
      dsimp only at hq
      obtain ⟨m, hm, hname⟩ := firstNamed_some hf
      obtain ⟨hdr', oct', hread', htext, hoff⟩ := readable_offset hm
      have hend : EndsWith a.bytes (text file) q (int32 (q + 512)) := by
        rw [hq]
        exact ⟨hdr', oct', hread', Or.inr ⟨htext ▸ m.name_ne, htext.trans hname, rfl⟩⟩
      obtain ⟨n, hn⟩ := (fileExistsFrom_iff hfile 512 _).mpr ⟨q, hpass, hend⟩
      refine ⟨n, _, (fileExists_of_members hne n).trans hn, ?_⟩
      have hint := int32_of_lt (n := offset a.members i + 512) (by omega)
      rw [hf, hq]
      exact_mod_cast hint
    | none =>
      rw [hf] at hq
      obtain ⟨n, hn⟩ := (fileExistsFrom_iff hfile 512 999).mpr
        ⟨q, hpass, hdr, oct, hread, Or.inl ⟨hq, rfl⟩⟩
      refine ⟨n, _, (fileExists_of_members hne n).trans hn, ?_⟩
      rw [hf]
      exact Or.inr rfl

/-- A first entry without data is only passed over. -/
theorem fileExists_first_empty {m : Member} {ms : List Member} (hms : a.members = m::ms)
    (hdata : m.data = []) (hfile : 0 ∈ file) :
    fileExists a.bytes file (ms.length+1) = some (match firstNamed ms (text file) with
      | some i => ((offset a.members (1+i) : Nat) : Int) + 512
      | none => 999) := by
  have hlen : (([m] : List Member).flatMap Member.bytes).length = 512 := by
    rw [List.flatMap_singleton, m.bytes_length, hdata]
    rfl
  have hscan := fileExistsFrom_members (show a.members = [m] ++ ms from hms) hfile
  rw [hlen] at hscan
  rw [fileExists_of_members (by rw [hms]; exact List.cons_ne_nil m ms)]
  exact hscan

theorem agrees_first_empty {m : Member} {ms : List Member} (hms : a.members = m::ms)
    (hdata : m.data = []) (hfile : 0 ∈ file) : Agrees a file ↔ text file ≠ m.name := by
  have hscan := fileExists_first_empty hms hdata hfile
  have hne : a.members ≠ [] := by
    rw [hms]
    exact List.cons_ne_nil m ms
  have hrun : ∀ n v, fileExists a.bytes file n = some v → v =
      match firstNamed ms (text file) with
      | some i => ((offset a.members (1+i) : Nat) : Int) + 512
      | none => 999 := by
    intro n v hv
    rw [fileExists_of_members hne] at hv hscan
    exact fileExistsFrom_unique hv hscan
  by_cases hp : m.name = text file
  · have hfirst : firstNamed a.members (text file) = some 0 := by
      rw [firstNamed, hms, List.findIdx?_cons, if_pos (by simpa using hp)]
    refine iff_of_false ?_ (fun h => h hp.symm)
    rintro ⟨n, v, hv, hfound⟩
    rw [hfirst] at hfound
    have hv' := hrun n v hv
    have h0 : offset a.members 0 = 0 := rfl
    dsimp only at hfound
    cases hf : firstNamed ms (text file) with
    | none =>
      rw [hf] at hv'
      dsimp only at hv'
      omega
    | some i =>
      have hoff : offset a.members (1+i) = m.bytes.length + offset ms i := by
        rw [hms, Nat.add_comm 1 i, offset_cons]
      have hm : 512 ≤ m.bytes.length := by
        rw [m.bytes_length]
        omega
      rw [hf] at hv'
      dsimp only at hv'
      rw [hv', hoff, h0] at hfound
      have hzero : m.bytes.length + offset ms i = 0 := by exact_mod_cast add_right_cancel hfound
      omega
  · refine iff_of_true ?_ (Ne.symm hp)
    have hfirst : firstNamed a.members (text file) =
        (firstNamed ms (text file)).map (· + 1) := by
      rw [firstNamed, hms, List.findIdx?_cons, if_neg (by simpa using hp), firstNamed]
    refine ⟨ms.length+1, _, hscan, ?_⟩
    rw [hfirst]
    cases firstNamed ms (text file) with
    | none => exact Or.inr rfl
    | some i =>
      dsimp only [Option.map_some]
      rw [Nat.add_comm i 1]

theorem agrees_nil (hms : a.members = []) : Agrees a file := by
  refine ⟨0, 0, ?_, ?_⟩
  · rw [fileExists, Archive.bytes, hms, List.flatMap_nil, List.nil_append, kstrlen_zero_block]
    rfl
  · rw [hms]
    exact Or.inl rfl

/-- It is right for every path that is not the name of the first entry, in an archive that begins
with an entry without data, such as a directory. -/
theorem fileExists_agrees_of_empty (hfile : 0 ∈ file)
    (h : ∀ m ∈ a.members.head?, m.data = [] ∧ text file ≠ m.name) : Agrees a file := by
  cases hms : a.members with
  | nil => exact agrees_nil hms
  | cons m ms =>
    obtain ⟨hdata, hne⟩ := h m (by rw [hms]; rfl)
    exact (agrees_first_empty hms hdata hfile).mpr hne

end Members

/-- file_exists against the archive: it is right for every path exactly where its walk, which
starts behind the first header, comes out at the right place. When the first entry has no data
that is so for every path but the name of this entry. -/
theorem fileExists_agrees_iff (a : Archive) (file : Bytes) (hfile : 0 ∈ file) :
    Agrees a file ↔ a.members = [] ∨ ∃ m ms, a.members = m::ms ∧
      (m.data = [] ∧ text file ≠ m.name ∨ m.data ≠ [] ∧ Reaches a file) := by
  cases hms : a.members with
  | nil => exact iff_of_true (agrees_nil hms) (Or.inl rfl)
  | cons m ms =>
    have hne : a.members ≠ [] := by
      rw [hms]
      exact List.cons_ne_nil m ms
    by_cases hdata : m.data = []
    · rw [agrees_first_empty hms hdata hfile]
      constructor
      · intro h
        exact Or.inr ⟨m, ms, rfl, Or.inl ⟨hdata, h⟩⟩
      · rintro (h | ⟨m', ms', heq, h⟩)
        · cases h
        · cases heq
          exact h.elim And.right (fun h => absurd hdata h.1)
    · rw [agrees_iff_reaches hne hfile]
      constructor
      · intro h
        exact Or.inr ⟨m, ms, rfl, Or.inr ⟨hdata, h⟩⟩
      · rintro (h | ⟨m', ms', heq, h⟩)
        · cases h
        · cases heq
          exact h.elim (fun h => absurd h.1 hdata) And.right

/-- `bin/cat` is found behind `bin/`. -/
theorem fileExists_agrees_binCat : Agrees ramdisk [98, 105, 110, 47, 99, 97, 116, 0] := by
  refine (fileExists_agrees_iff ramdisk _ (by decide)).mpr (Or.inr ⟨binDir, [binCat], rfl, ?_⟩)
  exact Or.inl ⟨rfl, by decide⟩

/-- The first entry, `bin/`, is not found under its name. -/
theorem fileExists_misses_first :
    fileExists ramdisk.bytes [98, 105, 110, 47, 0] 2 = some 999 ∧
    ¬Agrees ramdisk [98, 105, 110, 47, 0] := by
  have hfile : (0 : UInt8) ∈ [98, 105, 110, 47, 0] := by decide
  have hms : ramdisk.members = [binDir, binCat] := rfl
  have hscan := fileExists_first_empty hms rfl hfile
  refine ⟨hscan, fun h => ?_⟩
  exact (agrees_first_empty hms rfl hfile).mp h (by decide)

end SBUnix
