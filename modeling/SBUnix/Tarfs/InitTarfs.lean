import SBUnix.Framework.Word
import SBUnix.Lib.Tokens
import SBUnix.Tarfs.Archive

namespace SBUnix

open CString Word

/-- `tarfs_entry` without its name: the names are the arrays the tokenizer works on. -/
structure TarfsEntry where
  size : Int
  typeflag : Int
  addrHdr : Nat
  index : Int
  deriving DecidableEq, Repr

structure Inode where
  iNum : Nat
  iSize : Nat
  refCount : Nat
  iBlockCount : Nat
  deriving DecidableEq, Repr

/-- Pointers into `ino` and `dent` are indices. -/
structure Dentry where
  filename : Bytes
  inodeEntry : Option Nat
  dParent : Option Nat
  deriving DecidableEq, Repr

structure Tarfs where
  entry : Nat → TarfsEntry
  names : Tokenizer Nat
  dent : Nat → Dentry
  ino : Nat → Inode
  numDentries : Nat
  numInodes : Nat

/-- The globals before init_tarfs. -/
def Tarfs.bss : Tarfs where
  entry _ := ⟨0, 0, 0, 0⟩
  names := ⟨fun _ => List.replicate 256 0, none, none⟩
  dent _ := ⟨List.replicate 256 0, none, none⟩
  ino _ := ⟨0, 0, 0, 0⟩
  numDentries := 0
  numInodes := 0

def tarfsEntries : Nat := 100
def maxDentries : Nat := 16
def maxNumInodes : Nat := 32

/-- The literal "/". -/
def slash : Bytes := [charSlash, 0]

def Tarfs.setName (t : Tarfs) (i : Nat) (name : Bytes) : Tarfs :=
  { t with names := { t.names with str := Function.update t.names.str i name } }

def Tarfs.setEntry (t : Tarfs) (i : Nat) (e : TarfsEntry) : Tarfs :=
  { t with entry := Function.update t.entry i e }

/-- `while (name[len] != '/') { len--; if (len == 0) return 999; }`: `some none` is that
return, `none` a read before the array. -/
def findSlash (name : Bytes) : Nat → Option (Option Nat)
  | 0 => name[0]?.bind fun c => if c = charSlash then some (some 0) else none
  | l+1 => name[l+1]?.bind fun c =>
    if c = charSlash then some (some (l+1)) else if l = 0 then some none else findSlash name l

/-- `while (kstrcmp(name, tarfs_fs[i].name) != 0) i++;` up to `n` entries before the end of the
table. -/
def searchName (t : Tarfs) (name : Bytes) : Nat → Nat → Option Nat
  | 0, _ => none
  | n+1, i => (kstrcmp name (t.names.str i)).bind fun d =>
    if d = 0 then some i else searchName t name n (i+1)

/-- The local `name`; nothing behind the terminator is read. -/
def localName (dir : Bytes) : Option Bytes := kstrcpy (List.replicate 100 0) dir

def getPerIndx (dir : Bytes) (t : Tarfs) : Option Int :=
  (kstrlen dir).bind fun len =>
    (localName dir).bind fun name =>
      if len < 2 then none
      else (findSlash name (len-2)).bind fun r =>
        match r with
        | none => some 999
        | some l =>
          if l+1 < name.length then
            (searchName t (name.set (l+1) 0) tarfsEntries 0).map fun i => (i : Int)
          else none

/-- Here the name is not cut behind the slash. -/
def getPerIndxFile (dir : Bytes) (t : Tarfs) : Option Int :=
  (kstrlen dir).bind fun len =>
    (localName dir).bind fun name =>
      if len < 1 then none
      else (findSlash name (len-1)).bind fun r =>
        match r with
        | none => some 999
        | some _ => (searchName t name tarfsEntries 0).map fun i => (i : Int)

/-- The last directory among the first `n` entries. -/
def lastDirectory (entry : Nat → TarfsEntry) : Nat → Option Nat
  | 0 => none
  | n+1 => if (entry n).typeflag = 5 then some n else lastDirectory entry n

/-- A name has at most 255 characters, so the loop over its tokens ends within 256 rounds. -/
def setDirents (i : Nat) (t : Tarfs) : Option Tarfs :=
  if i < tarfsEntries ∧ t.numDentries < maxDentries ∧ t.numInodes < maxNumInodes then
    let d := t.dent t.numDentries
    (kstrcpy d.filename (t.names.str i)).bind fun filename =>
      (kstrtok (some (i, 0)) slash t.names).bind fun r =>
        (countTokens slash 256 r.1 0 r.2).map fun q =>
          let parent := if q.1 = 1 then none else (lastDirectory t.entry t.numDentries).or d.dParent
          { t with
            names := q.2
            dent := Function.update t.dent t.numDentries ⟨filename, some t.numInodes, parent⟩
            ino := Function.update t.ino t.numInodes
              ⟨t.numInodes, ((t.entry i).size % 2^64).toNat, 2^32 - 1, 0⟩ }
  else none

/-- How far it is to the next header, in arithmetic of `w` bits. -/
def headerStep (w size : Nat) : Nat :=
  if size = 0 then 512
  else if size%512 = 0 then (size + 512) % 2^w
  else (size + (512 - size%512) + 512) % 2^w

/-- `&_binary_tarfs_start + tmp` -/
def headerAt (img : Bytes) (tmp : Int) : Option Bytes :=
  if tmp < 0 then none else some (img.drop tmp.toNat)

/-- The assignments to `tarfs_fs[i]`. -/
def fillEntry (start : Nat) (hdr : Bytes) (fsz : Nat) (tmp : Int) (i : Nat) (t : Tarfs) :
    Option Tarfs :=
  if i < tarfsEntries then
    (kstrcpy (t.names.str i) hdr).bind fun name =>
      (stoi (hdr.drop 156)).bind fun typeflag =>
        let t := t.setName i name
        let e := TarfsEntry.mk (int32 fsz) (int32 typeflag) (((start : Int) + tmp) % 2^64).toNat
          (t.entry i).index
        let t := t.setEntry i e
        (if e.typeflag = 0 then getPerIndxFile name t
          else if e.typeflag = 5 then getPerIndx name t
          else some e.index).map fun index => t.setEntry i { e with index := index }
  else none

/-- The loop of init_tarfs, in at most `n` rounds: `var` is tar_var, as an offset, when the
condition is tested. -/
def initTarfsFrom (start : Nat) (img : Bytes) : Nat → Int → Int → Nat → Tarfs → Option Tarfs
  | 0, _, _, _, _ => none
  | n+1, var, tmp, i, t =>
    if var < img.length then
      (headerAt img tmp).bind fun hdr =>
        (kstrlen hdr).bind fun len =>
          if len = 0 then some t
          else (stoi (hdr.drop 124)).bind fun oct =>
            let fsz := oct2dec oct % 2^32
            (fillEntry start hdr fsz tmp i t).bind fun t =>
              (setDirents i t).bind fun t =>
                initTarfsFrom start img n tmp (int32 (tmp + headerStep 32 fsz)) (i+1) { t with
                  numDentries := (t.numDentries + 1) % 2^16
                  numInodes := (t.numInodes + 1) % 2^16 }
    else some t

/-- Each round fills one of the hundred entries, so there are never more than 101. -/
def initTarfs (start : Nat) (img : Bytes) : Option Tarfs :=
  initTarfsFrom start img (tarfsEntries + 1) 0 0 0 .bss

/-- A name in a zeroed array of `n` bytes. -/
def nameArray (n : Nat) (w : Bytes) : Bytes := w ++ 0 :: List.replicate (n-(w.length+1)) 0

theorem kstrcpy_zeroed {w : Bytes} (hw : 0 ∉ w) (s : Bytes) {n : Nat} (hlen : w.length < n) :
    kstrcpy (List.replicate n 0) (w ++ 0::s) = some (nameArray n w) := by
  rw [kstrcpy_append_nul hw s _ (by rw [List.length_replicate]; exact hlen), List.drop_replicate,
    nameArray]

theorem nul_mem_nameArray (n : Nat) (w : Bytes) : 0 ∈ nameArray n w :=
  List.mem_append_right _ List.mem_cons_self

theorem text_nameArray (n : Nat) {w : Bytes} (hw : 0 ∉ w) : text (nameArray n w) = w :=
  text_append_nul hw _

theorem headerStep_data (m : Member) {w : Nat} (hw : 32 ≤ w) :
    headerStep w m.data.length = m.bytes.length := by
  have hlt := m.data_length
  have hpow : 2^32 ≤ 2^w := Nat.pow_le_pow_right (by norm_num) hw
  rw [headerStep, m.bytes_length]
  by_cases h0 : m.data.length = 0
  · rw [if_pos h0, h0]
  · rw [if_neg h0]
    by_cases h512 : m.data.length%512 = 0
    · rw [if_pos h512, h512, Nat.mod_eq_of_lt (by omega)]
      omega
    · rw [if_neg h512, Nat.mod_eq_of_lt (by omega)]
      omega

section Index

variable {t : Tarfs} {w : Bytes}

/-- The walk down the name passes its first byte without a look. -/
theorem findSlash_spec (name : Bytes) {l : Nat} (h0 : 0 < l) (hl : l < name.length) :
    ((∃ k, 0 < k ∧ k ≤ l ∧ name[k]? = some charSlash) → ∃ k, findSlash name l = some (some k)) ∧
    ((∀ k, 0 < k → k ≤ l → name[k]? ≠ some charSlash) → findSlash name l = some none) := by
  induction l with
  | zero => omega
  | succ l ih =>
    rw [findSlash, List.getElem?_eq_getElem hl, Option.bind_some]
    by_cases hc : name[l+1] = charSlash
    · rw [if_pos hc]
      refine ⟨fun _ => ⟨l+1, rfl⟩, fun h => absurd ?_ (h (l+1) h0 (le_refl _))⟩
      rw [List.getElem?_eq_getElem hl, hc]
    · rw [if_neg hc]
      have hother : ∀ k, k ≤ l+1 → name[k]? = some charSlash → k ≤ l := by
        intro k hk hs
        rcases Nat.le_succ_iff.mp hk with hle | rfl
        · exact hle
        · rw [List.getElem?_eq_getElem hl, Option.some_inj] at hs
          exact absurd hs hc
      by_cases hz : l = 0
      · rw [if_pos hz]
        refine ⟨fun ⟨k, hk, hkl, hs⟩ => ?_, fun _ => rfl⟩
        have := hother k hkl hs
        omega
      · rw [if_neg hz]
        obtain ⟨ih1, ih2⟩ := ih (by omega) (by omega)
        constructor
        · rintro ⟨k, hk, hkl, hs⟩
          exact ih1 ⟨k, hk, hother k hkl hs, hs⟩
        · intro h
          exact ih2 fun k hk hkl => h k hk (by omega)

/-- The search ends at the first entry of that name. -/
theorem searchName_first {name : Bytes} (hname : 0 ∈ name) (k n i : Nat) (hk : k < n)
    (hend : ∀ j ≤ i+k, 0 ∈ t.names.str j) (hne : ∀ j < i+k, text name ≠ text (t.names.str j))
    (heq : text name = text (t.names.str (i+k))) : searchName t name n i = some (i+k) := by
  induction n generalizing i k with
  | zero => omega
  | succ n ih =>
    obtain ⟨d, hd, hiff⟩ := kstrcmp_text hname (hend i (by omega))
    rw [searchName, hd, Option.bind_some]
    cases k with
    | zero => exact if_pos (hiff.mpr heq)
    | succ k =>
      rw [if_neg (fun h => hne i (by omega) (hiff.mp h)), show i+(k+1) = i+1+k by omega]
      apply ih k (i+1) (by omega)
      · intro j hj
        exact hend j (by omega)
      · intro j hj
        exact hne j (by omega)
      · rw [heq, Nat.add_right_comm i 1 k, Nat.add_assoc i k 1]

/-- What both index functions are called with: a name of the table's last entry. -/
structure LastName (w : Bytes) (i : Nat) (t : Tarfs) : Prop where
  ne : w ≠ []
  noNul : 0 ∉ w
  short : w.length < 100
  index : i < 100
  terminated : ∀ j ≤ i, 0 ∈ t.names.str j
  last : text (t.names.str i) = w

variable {i : Nat}

theorem LastName.kstrlen (h : LastName w i t) (s : Bytes) :
    SBUnix.kstrlen (w ++ 0::s) = some (w.length+1) := by
  rw [kstrlen_append_nul h.noNul, if_neg h.ne]

/-- The names before it have been cut at their first slash, so a name with one finds itself. -/
theorem LastName.search (h : LastName w i t) (hplain : ∀ j < i, charSlash ∉ text (t.names.str j))
    (hs : charSlash ∈ w) : searchName t (nameArray 100 w) tarfsEntries 0 = some i := by
  have hrun := searchName_first (nul_mem_nameArray 100 w) i tarfsEntries 0 h.index
    (t := t) (fun j hj => h.terminated j (by omega))
  rw [text_nameArray 100 h.noNul, Nat.zero_add] at hrun
  apply hrun _ h.last.symm
  intro j hj heq
  exact hplain j hj (heq ▸ hs)

theorem LastName.getPerIndxFile (h : LastName w i t)
    (hplain : ∀ j < i, charSlash ∉ text (t.names.str j)) (s : Bytes) :
    SBUnix.getPerIndxFile (w ++ 0::s) t = some (if charSlash ∈ w.tail then (i : Int) else 999) := by
  have hpos := List.length_pos_iff.mpr h.ne
  have hshort := h.short
  have hget : ∀ k, 0 < k → k ≤ w.length →
      ((nameArray 100 w)[k]? = some charSlash ↔ w.tail[k-1]? = some charSlash) := by
    intro k hk hkl
    rw [List.getElem?_tail, Nat.sub_add_cancel hk]
    rcases Nat.lt_or_ge k w.length with hlt | hge
    · rw [nameArray, List.getElem?_append_left hlt]
    · rw [nameArray, List.getElem?_append_right hge, Nat.sub_eq_zero_of_le hkl,
        List.getElem?_cons_zero, List.getElem?_eq_none hge]
      decide
  obtain ⟨hfound, hnone⟩ := findSlash_spec (nameArray 100 w) hpos (by simp [nameArray])
  rw [SBUnix.getPerIndxFile, h.kstrlen, Option.bind_some, localName,
    kstrcpy_zeroed h.noNul s h.short, Option.bind_some, if_neg (by omega), Nat.add_sub_cancel]
  by_cases hs : charSlash ∈ w.tail
  · obtain ⟨k, hk⟩ := List.mem_iff_getElem?.mp hs
    have hlt := (List.getElem?_eq_some_iff.mp hk).1
    rw [List.length_tail] at hlt
    obtain ⟨l, hl⟩ := hfound ⟨k+1, by omega, by omega, (hget _ (by omega) (by omega)).mpr hk⟩
    rw [if_pos hs, hl, Option.bind_some, h.search hplain (List.mem_of_mem_tail hs)]
    rfl
  · rw [if_neg hs, hnone, Option.bind_some]
    intro k hk hkl hsl
    exact hs (List.mem_of_getElem? ((hget k hk hkl).mp hsl))

/-- A directory's name ends in the slash, so it is not cut at all. -/
theorem LastName.getPerIndx (h : LastName w i t)
    (hplain : ∀ j < i, charSlash ∉ text (t.names.str j)) (s : Bytes)
    (hs : w.getLast? = some charSlash) : SBUnix.getPerIndx (w ++ 0::s) t = some (i : Int) := by
  have hpos := List.length_pos_iff.mpr h.ne
  have hshort := h.short
  have hlast : (nameArray 100 w)[w.length-1]? = some charSlash := by
    rw [nameArray, List.getElem?_append_left (by omega), ← List.getLast?_eq_getElem?, hs]
  have hfind : findSlash (nameArray 100 w) (w.length-1) = some (some (w.length-1)) := by
    generalize w.length-1 = l at hlast
    cases l with
    | zero => rw [findSlash, hlast, Option.bind_some, if_pos rfl]
    | succ l => rw [findSlash, hlast, Option.bind_some, if_pos rfl]
  have hset : (nameArray 100 w).set (w.length-1+1) 0 = nameArray 100 w := by
    rw [Nat.sub_add_cancel hpos, nameArray, List.set_append_right _ _ (le_refl _), Nat.sub_self]
    rfl
  have hlen : (nameArray 100 w).length = 100 := by
    simp [nameArray]
    omega
  rw [SBUnix.getPerIndx, h.kstrlen, Option.bind_some, localName,
    kstrcpy_zeroed h.noNul s h.short, Option.bind_some, if_neg (by omega),
    show w.length+1-2 = w.length-1 by omega, hfind, Option.bind_some]
  dsimp only
  rw [if_pos (by omega), hset, h.search hplain (List.mem_of_getLast? hs)]
  rfl

end Index

/-- What the two index functions make of entry `i`. -/
def linkIndex (m : Member) (i : Nat) : Int :=
  if m.kind = .file ∧ charSlash ∉ m.name.tail then 999 else i

/-- Entry `i` of the tables is the member whose header is at `off`. The table's copy of the
name has been through the tokenizer, the dentry's has not. -/
structure Stored (start off i : Nat) (m : Member) (t : Tarfs) : Prop where
  addr : (t.entry i).addrHdr = start+off
  size : (t.entry i).size = m.data.length
  typeflag : (t.entry i).typeflag = m.kind.code
  name : t.names.str i = nameArray 256 (blankOut slash m.name)
  filename : (t.dent i).filename = nameArray 256 m.name
  inode : (t.dent i).inodeEntry = some i
  iNum : (t.ino i).iNum = i
  iSize : (t.ino i).iSize = m.data.length

/-- The tables after the members `ms`. -/
structure Loaded (start : Nat) (ms : List Member) (t : Tarfs) : Prop where
  dentries : t.numDentries = ms.length
  inodes : t.numInodes = ms.length
  stored : ∀ i m, ms[i]? = some m → Stored start (offset ms i) i m t
  freeName : ∀ i, ms.length ≤ i → t.names.str i = List.replicate 256 0
  freeAddr : ∀ i, ms.length ≤ i → (t.entry i).addrHdr = 0
  freeDent : ∀ i, ms.length ≤ i → (t.dent i).filename = List.replicate 256 0
  checkEnd : 0 ∈ t.names.checkText
  checkPlain : ∀ c ∈ text t.names.checkText, c ∉ text slash
  checkIn : ∀ q, t.names.check = some q → q.1 < ms.length

theorem loaded_bss (start : Nat) : Loaded start [] .bss where
  dentries := rfl
  inodes := rfl
  stored i m h := by simp at h
  freeName _ _ := rfl
  freeAddr _ _ := rfl
  freeDent _ _ := rfl
  checkEnd := by decide
  checkPlain c hc := by
    have hmem : c ∈ [(45 : UInt8), 49] := hc
    rw [List.mem_cons, List.mem_singleton] at hmem
    rcases hmem with rfl | rfl
    · decide
    · decide
  checkIn q h := (Option.some_ne_none q h.symm).elim

/-- The links after the members `ms`; a parent is a directory among the rows before. -/
structure Linked (ms : List Member) (t : Tarfs) : Prop where
  index : ∀ i m, ms[i]? = some m → (t.entry i).index = linkIndex m i
  parent : ∀ i k, (t.dent i).dParent = some k → k < i ∧ ∃ d, ms[k]? = some d ∧ d.kind = .directory

theorem linked_bss : Linked [] .bss where
  index i m h := by simp at h
  parent i k h := (Option.some_ne_none k h.symm).elim

/-- What the tokenizer leaves of a name as a string. -/
def firstComponent (w : Bytes) : Bytes := w.takeWhile (· ≠ charSlash)

section Names

theorem slash_not_mem_firstComponent (w : Bytes) : charSlash ∉ firstComponent w := by
  intro h
  have := List.mem_takeWhile_imp h
  simp at this

theorem text_blankOut {w : Bytes} (hw : 0 ∉ w) (z : Bytes) :
    text (blankOut slash w ++ 0::z) = firstComponent w := by
  induction w with
  | nil => rfl
  | cons c w ih =>
    rw [List.mem_cons, not_or] at hw
    rw [blankOut, List.map_cons, List.cons_append, firstComponent]
    by_cases hc : c = charSlash
    · rw [if_pos (by rw [hc]; decide), text_nul, List.takeWhile_cons_of_neg (by simpa using hc)]
    · have hmem : c ∉ text slash := by
        rw [show text slash = [charSlash] from rfl, List.mem_singleton]
        exact hc
      rw [if_neg hmem, text_cons (Ne.symm hw.1), List.takeWhile_cons_of_pos (by simpa using hc)]
      exact congrArg (c :: ·) (ih hw.2)

/-- A table name from its `k`-th character on. -/
theorem text_drop_nameArray {w : Bytes} (hw : 0 ∉ w) {k : Nat} (hk : k < 256) :
    text ((nameArray 256 (blankOut slash w)).drop k) = firstComponent (w.drop k) ∧
      0 ∈ (nameArray 256 (blankOut slash w)).drop k := by
  rcases Nat.lt_or_ge w.length k with hlt | hle
  · have hzero : (nameArray 256 (blankOut slash w)).drop k = 0 :: List.replicate (255-k) 0 := by
      rw [nameArray, ← List.replicate_succ, List.drop_append, blankOut_length,
        List.drop_eq_nil_of_le (by rw [blankOut_length]; exact hlt.le), List.nil_append,
        List.drop_replicate, ← List.replicate_succ]
      congr 1
      omega
    rw [hzero, List.drop_eq_nil_of_le hlt.le]
    exact ⟨rfl, List.mem_cons_self⟩
  · have hdrop : (nameArray 256 (blankOut slash w)).drop k =
        blankOut slash (w.drop k) ++ 0 :: List.replicate (256-(w.length+1)) 0 := by
      rw [nameArray, List.drop_append_of_le_length (by rwa [blankOut_length]), blankOut_length,
        blankOut, blankOut, List.map_drop]
    rw [hdrop]
    exact ⟨text_blankOut (fun h => hw (List.mem_of_mem_drop h)) _,
      List.mem_append_right _ List.mem_cons_self⟩

variable {start : Nat} {ms : List Member} {t : Tarfs} {i : Nat}

theorem Loaded.text_drop (h : Loaded start ms t) {m : Member} (hi : ms[i]? = some m) {k : Nat}
    (hk : k < 256) : text ((t.names.str i).drop k) = firstComponent (m.name.drop k) ∧
      0 ∈ (t.names.str i).drop k := by
  rw [(h.stored i m hi).name]
  exact text_drop_nameArray m.name_noNul hk

theorem Loaded.text_name (h : Loaded start ms t) {m : Member} (hi : ms[i]? = some m) :
    text (t.names.str i) = firstComponent m.name :=
  (h.text_drop hi (by norm_num : 0 < 256)).1

theorem Loaded.plain (h : Loaded start ms t) (hi : i < ms.length) :
    charSlash ∉ text (t.names.str i) := by
  rw [h.text_name (List.getElem?_eq_getElem hi)]
  exact slash_not_mem_firstComponent _

theorem Loaded.text_free (h : Loaded start ms t) (hi : ms.length ≤ i) :
    text (t.names.str i) = [] := by
  rw [h.freeName i hi]
  rfl

end Names

section Step

variable {start : Nat} {ms : List Member} {t : Tarfs}

theorem Tarfs.setEntry_setEntry (t : Tarfs) (i : Nat) (e e' : TarfsEntry) :
    (t.setEntry i e).setEntry i e' = t.setEntry i e' := by
  rw [Tarfs.setEntry, Tarfs.setEntry, Function.update_idem]
  rfl

theorem Member.name_short (m : Member) : m.name.length < 100 := by
  have := m.name_length
  omega

theorem stoi_digit {c : UInt8} (hc : isDigit c = true) (s : Bytes) :
    stoi (c::0::s) = some (c.toNat - 48) := by
  have hlt := c.toNat_lt
  rw [stoi, stoiFrom, if_pos ⟨hc, by norm_num⟩, stoiFrom_stop rfl, Nat.mod_eq_of_lt (by omega),
    Nat.zero_mul, Nat.zero_add]

theorem stoi_typeflag (m : Member) (r : Bytes) :
    ∃ n : Nat, stoi ((m.bytes ++ r).drop 156) = some n ∧ int32 n = m.kind.code := by
  obtain ⟨s, hs⟩ := m.bytes_typeflag r
  rw [hs]
  cases m.kind with
  | file => exact ⟨0, stoi_digit rfl s, int32_of_lt (by norm_num)⟩
  | directory => exact ⟨5, stoi_digit rfl s, int32_of_lt (by norm_num)⟩

theorem Loaded.names_terminated (h : Loaded start ms t) (i : Nat) : 0 ∈ t.names.str i := by
  rcases Nat.lt_or_ge i ms.length with hi | hi
  · rw [(h.stored i _ (List.getElem?_eq_getElem hi)).name]
    exact nul_mem_nameArray _ _
  · rw [h.freeName i hi]
    exact List.mem_replicate.mpr ⟨by norm_num, rfl⟩

theorem Loaded.fillEntry (h : Loaded start ms t) (m : Member) (r : Bytes) (off : Nat)
    (hlen : ms.length < tarfsEntries) (hfit : start+off < 2^64) :
    SBUnix.fillEntry start (m.bytes ++ r) m.data.length off ms.length t =
      some ((t.setName ms.length (nameArray 256 m.name)).setEntry ms.length
        ⟨m.data.length, m.kind.code, start+off, linkIndex m ms.length⟩) := by
  have hshort := m.name_short
  obtain ⟨s, hs⟩ := m.bytes_name r
  obtain ⟨flag, hflag, hcode⟩ := stoi_typeflag m r
  have hcopy : kstrcpy (t.names.str ms.length) (m.bytes ++ r) = some (nameArray 256 m.name) := by
    rw [h.freeName _ (le_refl _), hs, kstrcpy_zeroed m.name_noNul s (by omega)]
  have haddr : (((start : Int) + (off : Int)) % 2^64).toNat = start+off := by
    omega
  rw [SBUnix.fillEntry, if_pos hlen, hcopy, Option.bind_some, hflag, Option.bind_some]
  dsimp only
  rw [hcode, int32_of_lt m.data_length, haddr]
  -- both searches run over a table whose last name is the one just copied
  have hlast : ∀ e, LastName m.name ms.length
      ((t.setName ms.length (nameArray 256 m.name)).setEntry ms.length e) := by
    intro e
    refine ⟨m.name_ne, m.name_noNul, hshort, hlen, ?_, ?_⟩
    · intro j _
      by_cases hj : j = ms.length
      · simp only [Tarfs.setEntry, Tarfs.setName, hj, Function.update_self]
        exact nul_mem_nameArray _ _
      · simp only [Tarfs.setEntry, Tarfs.setName, Function.update_of_ne hj]
        exact h.names_terminated j
    · simp only [Tarfs.setEntry, Tarfs.setName, Function.update_self]
      exact text_nameArray _ m.name_noNul
  have hplain : ∀ e, ∀ j < ms.length, charSlash ∉ text (Tokenizer.str (Tarfs.names
      ((t.setName ms.length (nameArray 256 m.name)).setEntry ms.length e)) j) := by
    intro e j hj
    simp only [Tarfs.setEntry, Tarfs.setName, Function.update_of_ne hj.ne]
    exact h.plain hj
  rw [linkIndex]
  cases hk : m.kind with
  | file =>
    have hx := fun e => (hlast e).getPerIndxFile (hplain e)
      (List.replicate (256-(m.name.length+1)) 0)
    rw [if_pos (show Kind.file.code = 0 from rfl)]
    refine (congrArg (Option.map _) (hx _)).trans ?_
    rw [Option.map_some, Tarfs.setEntry_setEntry]
    by_cases hs : charSlash ∈ m.name.tail
    · rw [if_pos hs, if_neg (fun h => h.2 hs)]
    · rw [if_neg hs, if_pos ⟨rfl, hs⟩]
  | directory =>
    have hx := fun e => (hlast e).getPerIndx (hplain e)
      (List.replicate (256-(m.name.length+1)) 0) (m.slash_last hk)
    rw [if_neg (by decide), if_pos (show Kind.directory.code = 5 from rfl)]
    refine (congrArg (Option.map _) (hx _)).trans ?_
    rw [Option.map_some, Tarfs.setEntry_setEntry, if_neg (by simp)]

/-- set_dirents for an entry `i` whose name was just stored. -/
theorem setDirents_named {i : Nat} {w : Bytes} (hi : i < maxDentries) (hd : t.numDentries = i)
    (hn : t.numInodes = i) (hfile : (t.dent i).filename = List.replicate 256 0)
    (hname : t.names.str i = nameArray 256 w) (hw : 0 ∉ w) (hlen : w.length < 256)
    (hend : 0 ∈ t.names.checkText) (hplain : ∀ c ∈ text t.names.checkText, c ∉ text slash) :
    ∃ names parent, setDirents i t = some { t with
        names := names
        dent := Function.update t.dent i ⟨nameArray 256 w, some i, parent⟩
        ino := Function.update t.ino i ⟨i, ((t.entry i).size % 2^64).toNat, 2^32 - 1, 0⟩ } ∧
      names.str i = nameArray 256 (blankOut slash w) ∧
      (∀ k, k ≠ i → names.str k = t.names.str k) ∧
      0 ∈ names.checkText ∧ (∀ c ∈ text names.checkText, c ∉ text slash) ∧
      (names.check = t.names.check ∨ ∃ q, names.check = some q ∧ q.1 = i) ∧
      (parent = none ∨ parent = (lastDirectory t.entry i).or (t.dent i).dParent) := by
  unfold maxDentries at hi
  have hcut : Cut slash i [] w (List.replicate (256-(w.length+1)) 0)
      { t.names with buffer := some (i, 0) } := ⟨⟨hname, rfl, hw, hend⟩, hplain⟩
  obtain ⟨j, names, hrun, hstr, hother, hend', hplain', hcheck⟩ :=
    hcut.countTokens 256 (Or.inl (by omega)) 0
  have hblank : names.str i = nameArray 256 (blankOut slash w) := by
    rw [hstr, List.nil_append, nameArray, blankOut_length]
  refine ⟨names, if j = 1 then none else (lastDirectory t.entry i).or (t.dent i).dParent, ?_,
    hblank, hother, hend', hplain', hcheck, ite_eq_or_eq _ _ _⟩
  have hbounds : i < tarfsEntries ∧ i < maxDentries ∧ i < maxNumInodes := by
    unfold tarfsEntries maxDentries maxNumInodes
    omega
  have hcopy : kstrcpy (t.dent i).filename (t.names.str i) = some (nameArray 256 w) := by
    rw [hfile, hname, nameArray, kstrcpy_zeroed hw _ hlen]
    rfl
  rw [setDirents, hd, hn, if_pos hbounds]
  dsimp only
  obtain ⟨r, hr, hcount⟩ := Option.bind_eq_some_iff.mp hrun
  rw [hcopy, Option.bind_some, kstrtok_some, hr, Option.bind_some, hcount, Option.map_some]

/-- Row `n` has been filled and no other row touched. -/
structure Extends (n : Nat) (t u : Tarfs) : Prop where
  entry : ∀ i, i ≠ n → u.entry i = t.entry i
  names : ∀ i, i ≠ n → u.names.str i = t.names.str i
  dent : ∀ i, i ≠ n → u.dent i = t.dent i
  ino : ∀ i, i ≠ n → u.ino i = t.ino i
  check : u.names.check = t.names.check ∨ ∃ q, u.names.check = some q ∧ q.1 = n

theorem Stored.of_extends {off i n : Nat} {m : Member} {u : Tarfs} (h : Stored start off i m t)
    (hu : Extends n t u) (hi : i ≠ n) : Stored start off i m u := by
  constructor
  · rw [hu.entry i hi, h.addr]
  · rw [hu.entry i hi, h.size]
  · rw [hu.entry i hi, h.typeflag]
  · rw [hu.names i hi, h.name]
  · rw [hu.dent i hi, h.filename]
  · rw [hu.dent i hi, h.inode]
  · rw [hu.ino i hi, h.iNum]
  · rw [hu.ino i hi, h.iSize]

theorem Loaded.extend (h : Loaded start ms t) {m : Member} {u : Tarfs}
    (hu : Extends ms.length t u) (hd : u.numDentries = ms.length+1)
    (hn : u.numInodes = ms.length+1)
    (hnew : Stored start (ms.flatMap Member.bytes).length ms.length m u)
    (hend : 0 ∈ u.names.checkText) (hplain : ∀ c ∈ text u.names.checkText, c ∉ text slash) :
    Loaded start (ms ++ [m]) u := by
  have hlen : (ms ++ [m]).length = ms.length+1 := List.length_append
  refine ⟨hd.trans hlen.symm, hn.trans hlen.symm, ?_, ?_, ?_, ?_, hend, hplain, ?_⟩
  · intro i m' hi
    rcases Nat.lt_trichotomy i ms.length with hlt | rfl | hgt
    · rw [List.getElem?_append_left hlt] at hi
      rw [offset_append_left _ _ hlt.le]
      exact (h.stored i m' hi).of_extends hu hlt.ne
    · rw [List.getElem?_concat_length, Option.some_inj] at hi
      rw [offset_length, ← hi]
      exact hnew
    · rw [List.getElem?_eq_none (by omega)] at hi
      cases hi
  · intro i hi
    rw [hu.names i (by omega), h.freeName i (by omega)]
  · intro i hi
    rw [hu.entry i (by omega), h.freeAddr i (by omega)]
  · intro i hi
    rw [hu.dent i (by omega), h.freeDent i (by omega)]
  · intro q hq
    rcases hu.check with hc | ⟨q', hq', hc⟩
    · have := h.checkIn q (hc ▸ hq)
      omega
    · rw [hq, Option.some_inj] at hq'
      rw [hq', hc]
      omega

theorem lastDirectory_spec {entry : Nat → TarfsEntry} {n k : Nat}
    (h : lastDirectory entry n = some k) : k < n ∧ (entry k).typeflag = 5 := by
  induction n with
  | zero => cases h
  | succ n ih =>
    rw [lastDirectory] at h
    split_ifs at h with hd
    · rw [← Option.some_inj.mp h]
      exact ⟨n.lt_succ_self, hd⟩
    · obtain ⟨hk, hd⟩ := ih h
      exact ⟨hk.trans n.lt_succ_self, hd⟩

theorem Linked.extend (hl : Linked ms t) (h : Loaded start ms t) {m : Member} {u : Tarfs}
    (hu : Extends ms.length t u) (hindex : (u.entry ms.length).index = linkIndex m ms.length)
    (hparent : (u.dent ms.length).dParent = none ∨ (u.dent ms.length).dParent =
      (lastDirectory u.entry ms.length).or (t.dent ms.length).dParent) :
    Linked (ms ++ [m]) u := by
  have hold : ∀ i k, (t.dent i).dParent = some k →
      k < i ∧ ∃ d, (ms ++ [m])[k]? = some d ∧ d.kind = .directory := by
    intro i k hk
    obtain ⟨hlt, d, hd, hdir⟩ := hl.parent i k hk
    have hin := (List.getElem?_eq_some_iff.mp hd).1
    exact ⟨hlt, d, by rw [List.getElem?_append_left hin, hd], hdir⟩
  constructor
  · intro i m' hi
    rcases Nat.lt_trichotomy i ms.length with hlt | rfl | hgt
    · rw [List.getElem?_append_left hlt] at hi
      rw [hu.entry i hlt.ne, hl.index i m' hi]
    · rw [List.getElem?_concat_length, Option.some_inj] at hi
      rw [← hi, hindex]
    · rw [List.getElem?_eq_none (by simp; omega)] at hi
      cases hi
  · intro i k hk
    by_cases hi : i = ms.length
    · subst hi
      rcases hparent with hnone | hlast
      · rw [hnone] at hk
        cases hk
      · rw [hlast] at hk
        cases hd : lastDirectory u.entry ms.length with
        | none =>
          rw [hd, Option.none_or] at hk
          exact hold _ k hk
        | some l =>
          rw [hd, Option.some_or, Option.some_inj] at hk
          subst hk
          obtain ⟨hlt, hflag⟩ := lastDirectory_spec hd
          refine ⟨hlt, ms[l], by rw [List.getElem?_append_left hlt, List.getElem?_eq_getElem hlt], ?_⟩
          rw [hu.entry l hlt.ne, (h.stored l _ (List.getElem?_eq_getElem hlt)).typeflag] at hflag
          cases hkind : ms[l].kind with
          | file =>
            rw [hkind] at hflag
            cases hflag
          | directory => rfl
    · rw [hu.dent i hi] at hk
      exact hold i k hk

/-- A new name is not what `check` points at. -/
theorem Loaded.setName_checkText (h : Loaded start ms t) (name : Bytes) :
    (t.setName ms.length name).names.checkText = t.names.checkText := by
  rw [Tokenizer.checkText, Tokenizer.checkText, Tarfs.setName]
  dsimp only
  cases hc : t.names.check with
  | none => rfl
  | some q =>
    have hq := h.checkIn q hc
    dsimp only [Tokenizer.deref]
    rw [Function.update_of_ne (by omega)]

/-- One round of the loop on the tables. -/
theorem Loaded.step (h : Loaded start ms t) (hl : Linked ms t) (m : Member) (r : Bytes)
    (hlen : ms.length < maxDentries) (hfit : start + (ms.flatMap Member.bytes).length < 2^64) :
    ∃ u v, SBUnix.fillEntry start (m.bytes ++ r) m.data.length (ms.flatMap Member.bytes).length
        ms.length t = some u ∧
      setDirents ms.length u = some v ∧
      Loaded start (ms ++ [m]) { v with
        numDentries := (v.numDentries + 1) % 2^16, numInodes := (v.numInodes + 1) % 2^16 } ∧
      Linked (ms ++ [m]) { v with
        numDentries := (v.numDentries + 1) % 2^16, numInodes := (v.numInodes + 1) % 2^16 } := by
  have hlen' := hlen
  unfold maxDentries at hlen'
  have hshort := m.name_short
  have hfill := h.fillEntry m r (ms.flatMap Member.bytes).length
    (by unfold tarfsEntries; omega) hfit
  have hcheck := h.setName_checkText (nameArray 256 m.name)
  obtain ⟨names, parent, hset, hname, hother, hend, hplain, hc, hparent⟩ := setDirents_named
    (t := (t.setName ms.length (nameArray 256 m.name)).setEntry ms.length
      ⟨m.data.length, m.kind.code, start + (ms.flatMap Member.bytes).length,
        linkIndex m ms.length⟩)
    (w := m.name) hlen h.dentries h.inodes (h.freeDent _ (le_refl _)) (Function.update_self _ _ _)
    m.name_noNul (by omega) (hcheck.symm ▸ h.checkEnd) (hcheck.symm ▸ h.checkPlain)
  refine ⟨_, _, hfill, hset, h.extend ?ext ?_ ?_ ?_ hend hplain, hl.extend h ?ext ?_ ?_⟩
  case ext =>
    refine ⟨?_, ?_, ?_, ?_, hc⟩
    · intro i hi
      exact Function.update_of_ne hi _ _
    · intro i hi
      exact (hother i hi).trans (Function.update_of_ne hi _ _)
    · intro i hi
      exact Function.update_of_ne hi _ _
    · intro i hi
      exact Function.update_of_ne hi _ _
  · change (t.numDentries + 1) % 2^16 = ms.length+1
    rw [h.dentries]
    omega
  · change (t.numInodes + 1) % 2^16 = ms.length+1
    rw [h.inodes]
    omega
  · have hsize := m.data_length
    constructor
    · simp [Tarfs.setEntry]
    · simp [Tarfs.setEntry]
    · simp [Tarfs.setEntry]
    · exact hname
    · simp
    · simp
    · simp
    · simp [Tarfs.setEntry]
      omega
  · simp [Tarfs.setEntry]
  · dsimp only
    rw [Function.update_self]
    exact hparent

end Step

section Walk

variable {a : Archive} {done todo : List Member}

theorem headerAt_nat (img : Bytes) (n : Nat) : headerAt img n = some (img.drop n) :=
  if_neg (by omega)

theorem kstrlen_member (m : Member) (r : Bytes) :
    kstrlen (m.bytes ++ r) = some (m.name.length+1) := by
  obtain ⟨s, hs⟩ := m.bytes_name r
  rw [hs, kstrlen_append_nul m.name_noNul, if_neg m.name_ne]

theorem kstrlen_zero_block (r : Bytes) : kstrlen (List.replicate 512 0 ++ r) = some 0 := rfl

theorem stoi_size (m : Member) (r : Bytes) :
    ∃ oct, stoi ((m.bytes ++ r).drop 124) = some oct ∧ oct2dec oct = m.data.length := by
  obtain ⟨s, hs⟩ := m.bytes_size r
  have hlt : m.data.length < 8^11 := lt_trans m.data_length (by norm_num)
  rw [hs]
  exact Option.map_eq_some_iff.mp (oct2dec_stoi_octal m.data.length hlt rfl s)

/-- An image linked at `start` that begins with the members `ms`, with something behind them. -/
structure Begins (start : Nat) (img : Bytes) (ms : List Member) (tail : Bytes) : Prop where
  split : img = ms.flatMap Member.bytes ++ tail
  tail_ne : tail ≠ []
  length_lt : img.length < 2^31
  end_le : start + img.length ≤ 2^64

variable {start : Nat} {img tail : Bytes}

theorem Archive.begins (a : Archive) :
    Begins a.start a.bytes a.members (List.replicate 512 0 ++ a.rest) := by
  have hlt := a.length_lt
  have hend := a.end_le
  rw [← a.bytes_length] at hlt hend
  refine ⟨rfl, fun h => ?_, hlt, hend⟩
  have := congrArg List.length h
  rw [List.length_append, List.length_replicate, List.length_nil] at this
  omega

theorem Archive.begins_split (hms : a.members = done++todo) :
    Begins a.start a.bytes (done++todo) (List.replicate 512 0 ++ a.rest) :=
  hms ▸ a.begins

/-- What lies ahead of a walker that has passed the members `done`. -/
theorem Begins.drop (h : Begins start img (done++todo) tail) :
    img.drop (done.flatMap Member.bytes).length = todo.flatMap Member.bytes ++ tail := by
  rw [h.split, List.flatMap_append, List.append_assoc, List.drop_left]

theorem Begins.passed_lt (h : Begins start img (done++todo) tail) :
    (done.flatMap Member.bytes).length + (todo.flatMap Member.bytes).length < img.length := by
  have := List.length_pos_iff.mpr h.tail_ne
  rw [h.split, List.flatMap_append, List.length_append, List.length_append]
  omega

/-- The offset stays in step with the headers, by induction on the members ahead. -/
theorem Begins.walk (h : Begins start img (done++todo) tail)
    (hk : (done++todo).length ≤ maxDentries) {t : Tarfs} (hload : Loaded start done t)
    (hlink : Linked done t) (n : Nat) (var : Int) (hvar : var < img.length) :
    ∃ u v, Loaded start (done++todo) u ∧ Linked (done++todo) u ∧ v < (img.length : Int) ∧
      initTarfsFrom start img (n+todo.length) var (done.flatMap Member.bytes).length
          done.length t =
        initTarfsFrom start img n v ((done++todo).flatMap Member.bytes).length
          (done++todo).length u := by
  induction todo generalizing done t var with
  | nil =>
    rw [List.append_nil]
    exact ⟨t, var, hload, hlink, hvar, rfl⟩
  | cons m todo ih =>
    have happ : done ++ m::todo = (done ++ [m]) ++ todo := by rw [List.append_assoc]; rfl
    have hlen : done.length < maxDentries := by
      rw [List.length_append, List.length_cons] at hk
      omega
    have hpass := (happ ▸ h).passed_lt
    have hend := h.end_le
    have hlt := h.length_lt
    rw [List.flatMap_append, List.flatMap_singleton, List.length_append] at hpass
    obtain ⟨oct, hoct, hsize⟩ := stoi_size m (todo.flatMap Member.bytes ++ tail)
    obtain ⟨u, v, hu, hv, hload', hlink'⟩ := hload.step hlink m
      (todo.flatMap Member.bytes ++ tail) hlen (by omega)
    have hfsz : m.data.length % 2^32 = m.data.length := Nat.mod_eq_of_lt (by
      have := m.data_length
      omega)
    have htmp : int32 (((done.flatMap Member.bytes).length : Int) + m.bytes.length) =
        ((done ++ [m]).flatMap Member.bytes).length := by
      rw [List.flatMap_append, List.flatMap_singleton, List.length_append, ← Nat.cast_add,
        int32_of_lt (by omega)]
    obtain ⟨x, w, hx, hlx, hw, hrun⟩ := ih (happ ▸ h) (happ ▸ hk) hload' hlink'
      (done.flatMap Member.bytes).length (by omega)
    rw [← happ] at hx hlx hrun
    refine ⟨x, w, hx, hlx, hw, ?_⟩
    rw [List.length_cons, ← Nat.add_assoc, initTarfsFrom, if_pos hvar, headerAt_nat,
      Option.bind_some, h.drop, List.flatMap_cons, List.append_assoc, kstrlen_member,
      Option.bind_some, if_neg (by omega), hoct, Option.bind_some]
    dsimp only
    rw [hsize, hfsz, hu, Option.bind_some, hv, Option.bind_some, headerStep_data m (le_refl 32),
      htmp]
    rwa [List.length_append] at hrun

/-- From the empty tables to the point behind the members. -/
theorem Begins.reaches (h : Begins start img todo tail) (hk : todo.length ≤ maxDentries) :
    ∃ n u v, Loaded start todo u ∧ Linked todo u ∧ v < (img.length : Int) ∧
      initTarfs start img =
        initTarfsFrom start img (n+1) v (todo.flatMap Member.bytes).length todo.length u := by
  have h' : Begins start img ([]++todo) tail := h
  have hpos := h'.passed_lt
  obtain ⟨u, v, hu, hl, hv, hrun⟩ := h'.walk hk (loaded_bss start) linked_bss
    (tarfsEntries - todo.length + 1) 0 (by omega)
  refine ⟨tarfsEntries - todo.length, u, v, hu, hl, hv, ?_⟩
  have hfuel : tarfsEntries - todo.length + 1 + todo.length = tarfsEntries + 1 := by
    unfold maxDentries at hk
    unfold tarfsEntries
    omega
  rw [hfuel] at hrun
  exact hrun

/-- A zero block ends the loop. -/
theorem Begins.ends {r : Bytes} (h : Begins start img todo (List.replicate 512 0 ++ r))
    (hk : todo.length ≤ maxDentries) :
    ∃ t, initTarfs start img = some t ∧ Loaded start todo t ∧ Linked todo t := by
  obtain ⟨n, t, v, ht, hl, hv, hrun⟩ := h.reaches hk
  refine ⟨t, ?_, ht, hl⟩
  have hdrop := (List.append_nil todo ▸ h).drop
  rw [List.flatMap_nil, List.nil_append] at hdrop
  rw [hrun, initTarfsFrom, if_pos hv, headerAt_nat, Option.bind_some, hdrop, kstrlen_zero_block,
    Option.bind_some, if_pos rfl]

theorem initTarfs_loaded (a : Archive) (hk : a.members.length ≤ maxDentries) :
    ∃ t, initTarfs a.start a.bytes = some t ∧ Loaded a.start a.members t := by
  obtain ⟨t, ht, hload, -⟩ := a.begins.ends hk
  exact ⟨t, ht, hload⟩

end Walk

/-- init_tarfs on an archive of at most sixteen entries: it ends, and the tables hold what was
archived, entry by entry. -/
theorem initTarfs_decodes (a : Archive) (hk : a.members.length ≤ 16) :
    ∃ t, initTarfs a.start a.bytes = some t ∧
      t.numDentries = a.members.length ∧ t.numInodes = a.members.length ∧
      ∀ i m, a.members[i]? = some m →
        (t.entry i).addrHdr = a.address i ∧
        (t.entry i).size = m.data.length ∧ (t.ino i).iSize = m.data.length ∧
        (t.entry i).typeflag = m.kind.code ∧
        text (t.dent i).filename = m.name := by
  obtain ⟨t, ht, hl⟩ := initTarfs_loaded a hk
  refine ⟨t, ht, hl.dentries, hl.inodes, fun i m hi => ?_⟩
  have hs := hl.stored i m hi
  refine ⟨hs.addr, hs.size, hs.iSize, hs.typeflag, ?_⟩
  rw [hs.filename, text_nameArray 256 m.name_noNul]

/-- A ramdisk with `bin/` and `bin/cat`. -/
theorem initTarfs_decodes_ramdisk :
    ramdisk.members.length ≤ 16 ∧ ∃ t, initTarfs ramdisk.start ramdisk.bytes = some t ∧
      t.numDentries = 2 ∧ (t.entry 1).addrHdr = 0x200200 ∧ (t.ino 1).iSize = 2 ∧
      text (t.dent 1).filename = [98, 105, 110, 47, 99, 97, 116] := by
  refine ⟨by decide, ?_⟩
  obtain ⟨t, ht, hd, -, hall⟩ := initTarfs_decodes ramdisk (by decide)
  obtain ⟨haddr, -, hsize, -, hname⟩ := hall 1 binCat rfl
  have hoff : offset ramdisk.members 1 = 512 := by
    rw [offset, show ramdisk.members.take 1 = [binDir] from rfl, List.flatMap_singleton,
      Member.bytes_length]
    rfl
  refine ⟨t, ht, hd, ?_, hsize, hname⟩
  rw [haddr, Archive.address, hoff]
  rfl

end SBUnix
