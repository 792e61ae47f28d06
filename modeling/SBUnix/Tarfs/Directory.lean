import SBUnix.Tarfs.OpenFile

namespace SBUnix

open CString Word

/-- The loop of opendir from entry `i`, with `n` entries of the table left. -/
def opendirFrom (t : Tarfs) (dir : Bytes) : Nat → Nat → Option Nat
  | 0, _ => none
  | n+1, i =>
    (kstrlen dir).bind fun dirLen =>
      if dirLen = 0 then some 0
      else (kstrlen (t.names.str i)).bind fun len =>
        if len = 0 then some 0
        else (kstrcmp (t.names.str i) dir).bind fun d =>
          if d = 0 ∧ (t.entry i).typeflag = 5 then some (t.entry i).addrHdr
          else opendirFrom t dir n (i+1)

def opendir (t : Tarfs) (dir : Bytes) : Option Nat := opendirFrom t dir tarfsEntries 0

/-- `kprintf("%s\t", s)`, as the name that is shown. -/
def shownName (s : Bytes) : Option Bytes := if 0 ∈ s then some (text s) else none

/-- The loop over the dentries without a parent, from `i` on. -/
def rootNames (t : Tarfs) : Nat → Nat → Option (List Bytes)
  | 0, _ => some []
  | n+1, i =>
    if maxDentries ≤ i then none
    else (rootNames t n (i+1)).bind fun out =>
      if (t.dent i).dParent = none then (shownName (t.dent i).filename).map (· :: out) else some out

/-- The loop of readdir from entry `i`: the names shown, and the value returned. `dir` is the
stack from the local array on, eight bytes of which belong to it. -/
def readdirFrom (t : Tarfs) (addr : Nat) : Nat → Nat → Bytes → Nat → Option (List Bytes × Nat)
  | 0, _, _, _ => none
  | n+1, i, dir, len =>
    (kstrlen (t.names.str i)).bind fun nameLen =>
      if nameLen = 0 then some ([], (t.entry i).addrHdr)
      else if (t.entry i).addrHdr = addr then
        (kstrcpy (dir.take 8) (t.names.str i)).bind fun copy =>
          (kstrlen (copy ++ dir.drop 8)).bind fun len =>
            readdirFrom t addr n (i+1) (copy ++ dir.drop 8) len
      else (kstrlen dir).bind fun dirLen =>
        (kstrncmp dirLen (t.names.str i) dir).bind fun d =>
          if d = 0 then
            (shownName ((t.names.str i).drop len)).bind fun name =>
              (readdirFrom t addr n (i+1) dir len).map fun r => (name :: r.1, r.2)
          else readdirFrom t addr n (i+1) dir len

/-- `stack` is what lies at `dir` when readdir is called. The line breaks around the names are
left out. -/
def readdir (t : Tarfs) (addr : Nat) (stack : Bytes) : Option (List Bytes × Nat) :=
  if addr = 0 then
    (rootNames t t.numDentries 0).bind fun roots =>
      (readdirFrom t addr (tarfsEntries - t.numDentries) t.numDentries stack 0).map fun r =>
        (roots ++ r.1, r.2)
  else readdirFrom t addr tarfsEntries 0 stack 0

/-- An entry below the directory `d`. -/
def Below (d : Bytes) (m : Member) : Prop := ∃ r, r ≠ [] ∧ m.name = d ++ charSlash::r

instance (d : Bytes) (m : Member) : Decidable (Below d m) :=
  decidable_of_iff (d ++ [charSlash] <+: m.name ∧ m.name ≠ d ++ [charSlash]) (by
    constructor
    · rintro ⟨⟨r, hr⟩, hne⟩
      refine ⟨r, ?_, by rw [← hr, List.append_assoc]; rfl⟩
      rintro rfl
      exact hne (by rw [← hr, List.append_nil])
    · rintro ⟨r, hr, hname⟩
      rw [hname]
      exact ⟨⟨r, by rw [List.append_assoc]; rfl⟩, by simpa using hr⟩)

/-- Its name relative to `d`; the slash at the end of a subdirectory's name is not part of
it. -/
def relativeName (d : Bytes) (m : Member) : Bytes :=
  let r := m.name.drop (d.length+1)
  if 1 < r.length ∧ r.getLast? = some charSlash then r.dropLast else r

/-- What should be listed. -/
def expected (d : Bytes) (ms : List Member) : List Bytes :=
  (ms.filter (Below d ·)).map (relativeName d)

/-- opendir finds the directory `d` at entry `e`, and whatever is on the stack readdir shows
each name below it once. -/
def Lists (a : Archive) (t : Tarfs) (e : Nat) (d : Bytes) : Prop :=
  opendir t (d ++ [0]) = some (a.address e) ∧
    ∀ stack, 8 ≤ stack.length → 0 ∈ stack →
      ∃ out ret, readdir t (a.address e) stack = some (out, ret) ∧ out.Perm (expected d a.members)

/-- The entries the loops get to: a name that starts with a slash ends them. -/
def visited (ms : List Member) : List Member := ms.takeWhile (firstComponent ·.name ≠ [])

def unvisited (ms : List Member) : List Member := ms.dropWhile (firstComponent ·.name ≠ [])

/-- A directory at the start of the archive whose name fits the array, with nothing but plain
names below it, all of them visited. -/
structure PlainListing (a : Archive) (e : Nat) (d : Bytes) : Prop where
  first : e = 0
  name_ne : d ≠ []
  flat : charSlash ∉ d
  fits : d.length < 8
  shown : ∀ m ∈ (visited a.members).drop 1, firstComponent m.name = d →
    Below d m ∧ charSlash ∉ relativeName d m
  missed : ∀ m ∈ unvisited a.members, ¬Below d m

/-- The entry opendir settles on. -/
def dirIndex (p : Bytes) : List Member → Option Nat
  | [] => none
  | m::ms =>
    if firstComponent m.name = [] then none
    else if firstComponent m.name = p ∧ m.kind = .directory then some 0
    else (dirIndex p ms).map (· + 1)

/-- The names shown while the array holds `c` and `len` is `k`. -/
def listing (c : Bytes) (k : Nat) (ms : List Member) : List Bytes :=
  ((visited ms).filter (firstComponent ·.name = c)).map fun m => firstComponent (m.name.drop k)

section Components

theorem firstComponent_append_slash (x r : Bytes) :
    firstComponent (x ++ charSlash::r) = firstComponent x := by
  induction x with
  | nil => rfl
  | cons c x ih =>
    rw [List.cons_append, firstComponent, firstComponent, List.takeWhile_cons, List.takeWhile_cons]
    exact congrArg (fun v => if (decide (c ≠ charSlash)) then c :: v else []) ih

theorem firstComponent_length_lt {w : Bytes} (h : charSlash ∈ w) :
    (firstComponent w).length < w.length := by
  apply lt_of_le_of_ne (firstComponent_length_le w)
  intro hlen
  have heq : firstComponent w = w := (List.takeWhile_prefix _).eq_of_length hlen
  exact slash_not_mem_firstComponent w (heq.symm ▸ h)

theorem firstComponent_of_not_mem {d : Bytes} (hd : charSlash ∉ d) : firstComponent d = d := by
  apply List.takeWhile_eq_self_iff.mpr
  intro c hc
  have : c ≠ charSlash := fun e => hd (e ▸ hc)
  simpa using this

/-- A name is its first component, or goes on behind a slash. -/
theorem name_cases (w : Bytes) :
    w = firstComponent w ∨ ∃ r, w = firstComponent w ++ charSlash::r := by
  induction w with
  | nil => exact Or.inl rfl
  | cons c w ih =>
    by_cases hc : c = charSlash
    · refine Or.inr ⟨w, ?_⟩
      rw [firstComponent, List.takeWhile_cons_of_neg (by simpa using hc), hc, List.nil_append]
    · have hcons : firstComponent (c::w) = c :: firstComponent w :=
        List.takeWhile_cons_of_pos (by simpa using hc)
      rw [hcons]
      rcases ih with h | ⟨r, h⟩
      · exact Or.inl (congrArg (c :: ·) h)
      · exact Or.inr ⟨r, congrArg (c :: ·) h⟩

variable {d : Bytes} {m : Member}

theorem Below.firstComponent (h : Below d m) (hd : charSlash ∉ d) :
    SBUnix.firstComponent m.name = d := by
  obtain ⟨r, -, hr⟩ := h
  rw [hr, firstComponent_append_slash, firstComponent_of_not_mem hd]

theorem drop_below {r : Bytes} (h : m.name = d ++ charSlash::r) :
    m.name.drop (d.length+1) = r := by
  rw [h, ← List.drop_drop, List.drop_left]
  rfl

/-- Something is shown for an entry under `d` only if it is below `d`. -/
theorem below_of_shown (hc : SBUnix.firstComponent m.name = d)
    (h : SBUnix.firstComponent (m.name.drop (d.length+1)) ≠ []) : Below d m := by
  rcases name_cases m.name with hname | ⟨r, hname⟩
  · rw [hc] at hname
    rw [hname, List.drop_eq_nil_of_le (Nat.le_succ _)] at h
    exact absurd rfl h
  · rw [hc] at hname
    refine ⟨r, ?_, hname⟩
    rintro rfl
    rw [drop_below hname] at h
    exact h rfl

theorem relativeName_ne (h : Below d m) : relativeName d m ≠ [] := by
  obtain ⟨r, hne, hr⟩ := h
  rw [relativeName, drop_below hr]
  split_ifs with hlast
  · intro h0
    have := congrArg List.length h0
    rw [List.length_dropLast, List.length_nil] at this
    omega
  · exact hne

/-- What is shown is the relative name up to its first slash. -/
theorem shown_eq_relativeName (h : Below d m) :
    SBUnix.firstComponent (m.name.drop (d.length+1)) =
      SBUnix.firstComponent (relativeName d m) := by
  obtain ⟨r, hne, hr⟩ := h
  rw [relativeName, drop_below hr]
  split_ifs with hlast
  · obtain ⟨x, rfl⟩ := List.getLast?_eq_some_iff.mp hlast.2
    rw [List.dropLast_concat, firstComponent_append_slash]
  · rfl

end Components

section Loops

variable {start : Nat} {ms done todo : List Member} {t : Tarfs}

theorem listing_cons_stop {m : Member} (h : firstComponent m.name = []) (c : Bytes) (k : Nat)
    (ms : List Member) : listing c k (m::ms) = [] := by
  rw [listing, visited, List.takeWhile_cons_of_neg (by simpa using h)]
  rfl

theorem visited_cons {m : Member} (h : firstComponent m.name ≠ []) (ms : List Member) :
    visited (m::ms) = m :: visited ms :=
  List.takeWhile_cons_of_pos (by simpa using h)

theorem listing_cons {m : Member} (h : firstComponent m.name ≠ []) (c : Bytes) (k : Nat)
    (ms : List Member) : listing c k (m::ms) =
      if firstComponent m.name = c then firstComponent (m.name.drop k) :: listing c k ms
      else listing c k ms := by
  rw [listing, visited_cons h, List.filter_cons]
  by_cases hc : firstComponent m.name = c
  · rw [if_pos (by simpa using hc), if_pos hc]
    rfl
  · rw [if_neg (by simpa using hc), if_neg hc]
    rfl

/-- opendir over the members from an entry on. -/
theorem Loaded.opendirFrom (h : Loaded start ms t) {p : Bytes} (hp : 0 ∉ p) (hne : p ≠ [])
    (hms : ms = done++todo) {n : Nat} (hn : todo.length < n) :
    SBUnix.opendirFrom t (p ++ [0]) n done.length = some (match dirIndex p todo with
      | some j => (t.entry (done.length+j)).addrHdr
      | none => 0) := by
  have hlen : kstrlen (p ++ [0]) = some (p.length+1) := by
    rw [kstrlen_append_nul hp, if_neg hne]
  induction todo generalizing done n with
  | nil =>
    obtain ⟨n, rfl⟩ : ∃ k, n = k+1 := ⟨n-1, by omega⟩
    rw [SBUnix.opendirFrom, hlen, Option.bind_some, if_neg (Nat.succ_ne_zero _),
      kstrlen_text (h.names_terminated _), h.text_free (by rw [hms]; simp), if_pos rfl,
      Option.bind_some, if_pos rfl]
    rfl
  | cons m todo ih =>
    obtain ⟨n, rfl⟩ : ∃ k, n = k+1 := ⟨n-1, by omega⟩
    have hi : ms[done.length]? = some m := by rw [hms]; simp
    have htext := h.text_name hi
    rw [SBUnix.opendirFrom, hlen, Option.bind_some, if_neg (Nat.succ_ne_zero _),
      kstrlen_text (h.names_terminated _), htext, Option.bind_some, dirIndex]
    by_cases h0 : firstComponent m.name = []
    · rw [if_pos h0, if_pos rfl, if_pos h0]
    · have hmem : (0 : UInt8) ∈ p ++ [0] := List.mem_append_right _ List.mem_cons_self
      obtain ⟨d, hd, hiff⟩ := kstrcmp_text (h.names_terminated done.length) hmem
      rw [htext, text_append_nul hp] at hiff
      have hkind : (t.entry done.length).typeflag = 5 ↔ m.kind = .directory := by
        rw [(h.stored _ m hi).typeflag]
        cases m.kind with
        | file => decide
        | directory => decide
      rw [if_neg h0, if_neg (Nat.succ_ne_zero _), if_neg h0, hd, Option.bind_some]
      by_cases hhit : firstComponent m.name = p ∧ m.kind = .directory
      · rw [if_pos ⟨hiff.mpr hhit.1, hkind.mpr hhit.2⟩, if_pos hhit]
        rfl
      · have hms' : ms = (done ++ [m]) ++ todo := by rw [hms, List.append_assoc]; rfl
        have hrec := ih hms' (n := n) (by rw [List.length_cons] at hn; omega)
        rw [List.length_append, List.length_singleton] at hrec
        rw [if_neg (fun hc => hhit ⟨hiff.mp hc.1, hkind.mp hc.2⟩), if_neg hhit, hrec]
        cases dirIndex p todo with
        | none => rfl
        | some j =>
          dsimp only [Option.map_some]
          rw [Nat.add_assoc, Nat.add_comm 1 j]

theorem opendirFrom_empty (t : Tarfs) (n i : Nat) :
    SBUnix.opendirFrom t [0] (n+1) i = some 0 := by
  rw [SBUnix.opendirFrom]
  rfl

/-- One entry of readdir's loop that is not the directory's own. -/
theorem Loaded.readdirFrom_other (h : Loaded start ms t) {addr i n k : Nat} {dir : Bytes}
    {m : Member} (hi : ms[i]? = some m) (h0 : firstComponent m.name ≠ [])
    (haddr : (t.entry i).addrHdr ≠ addr) (hdir : 0 ∈ dir) (hk : k < 256) :
    readdirFrom t addr (n+1) i dir k = (readdirFrom t addr n (i+1) dir k).map fun r =>
      (if firstComponent m.name = text dir then firstComponent (m.name.drop k) :: r.1 else r.1,
        r.2) := by
  obtain ⟨hdrop, hterm⟩ := h.text_drop hi hk
  obtain ⟨len, d, hlen, hd, hiff⟩ := kstrncmp_kstrlen (h.names_terminated i) hdir
  rw [h.text_name hi] at hiff
  rw [readdirFrom, kstrlen_text (h.names_terminated i), h.text_name hi, Option.bind_some,
    if_neg h0, if_neg (Nat.succ_ne_zero _), if_neg haddr, hlen, Option.bind_some, hd,
    Option.bind_some]
  by_cases hc : firstComponent m.name = text dir
  · rw [if_pos (hiff.mpr hc), shownName, if_pos hterm, Option.bind_some, hdrop]
    simp only [if_pos hc]
  · rw [if_neg (fun e => hc (hiff.mp e))]
    simp only [if_neg hc]
    cases readdirFrom t addr n (i+1) dir k with
    | none => rfl
    | some r => rfl

/-- The loop where it ends: behind the last entry, or at a name that starts with a slash. -/
theorem Loaded.readdirFrom_end (h : Loaded start ms t) {addr i n k : Nat} {dir : Bytes}
    (hi : text (t.names.str i) = []) :
    readdirFrom t addr (n+1) i dir k = some ([], (t.entry i).addrHdr) := by
  rw [readdirFrom, kstrlen_text (h.names_terminated i), hi, if_pos rfl, Option.bind_some,
    if_pos rfl]

/-- The loop over members none of which is the directory's own entry. -/
theorem Loaded.readdirFrom_listing (h : Loaded start ms t) (addr : Nat) {n k : Nat} {dir : Bytes}
    (hms : ms = done++todo) (hn : todo.length < n) (hdir : 0 ∈ dir) (hk : k < 256)
    (haddr : ∀ i, done.length ≤ i → i < ms.length → (t.entry i).addrHdr ≠ addr) :
    ∃ ret, readdirFrom t addr n done.length dir k = some (listing (text dir) k todo, ret) := by
  induction todo generalizing done n with
  | nil =>
    obtain ⟨n, rfl⟩ : ∃ k, n = k+1 := ⟨n-1, by omega⟩
    exact ⟨_, h.readdirFrom_end (h.text_free (by rw [hms]; simp))⟩
  | cons m todo ih =>
    obtain ⟨n, rfl⟩ : ∃ k, n = k+1 := ⟨n-1, by omega⟩
    have hi : ms[done.length]? = some m := by rw [hms]; simp
    by_cases h0 : firstComponent m.name = []
    · rw [listing_cons_stop h0]
      exact ⟨_, h.readdirFrom_end ((h.text_name hi).trans h0)⟩
    · have hms' : ms = (done ++ [m]) ++ todo := by rw [hms, List.append_assoc]; rfl
      have hlen : (done ++ [m]).length = done.length+1 := List.length_append
      obtain ⟨ret, hret⟩ := ih hms' (n := n) (by rw [List.length_cons] at hn; omega)
        (fun i hle => haddr i (by omega))
      rw [hlen] at hret
      rw [h.readdirFrom_other hi h0 (haddr _ (le_refl _) (List.getElem?_eq_some_iff.mp hi).1) hdir
        hk, hret, listing_cons h0]
      exact ⟨ret, rfl⟩

/-- At its own entry the directory's name goes into the array, if there is room for it. -/
theorem Loaded.readdirFrom_own (h : Loaded start ms t) {addr i n k : Nat} {dir : Bytes}
    {m : Member} (hi : ms[i]? = some m) (h0 : firstComponent m.name ≠ [])
    (haddr : (t.entry i).addrHdr = addr) (hdir : 8 ≤ dir.length) :
    if (firstComponent m.name).length < 8 then
      ∃ copy, readdirFrom t addr (n+1) i dir k =
          readdirFrom t addr n (i+1) copy ((firstComponent m.name).length+1) ∧
        text copy = firstComponent m.name ∧ 0 ∈ copy
    else readdirFrom t addr (n+1) i dir k = none := by
  obtain ⟨r, hr⟩ := exists_text (h.names_terminated i)
  have hnul := nul_not_mem_text (t.names.str i)
  rw [h.text_name hi] at hr hnul
  have hlen : (dir.take 8).length = 8 := List.length_take_of_le hdir
  have hstart : readdirFrom t addr (n+1) i dir k =
      (kstrcpy (dir.take 8) (t.names.str i)).bind fun copy =>
        (kstrlen (copy ++ dir.drop 8)).bind fun len =>
          readdirFrom t addr n (i+1) (copy ++ dir.drop 8) len := by
    rw [readdirFrom, kstrlen_text (h.names_terminated i), h.text_name hi, Option.bind_some,
      if_neg h0, if_neg (Nat.succ_ne_zero _), if_pos haddr]
  rw [hstart, hr]
  split_ifs with hfit
  · rw [kstrcpy_append_nul hnul r _ (by omega), Option.bind_some, List.append_assoc,
      List.cons_append, kstrlen_append_nul hnul, if_neg h0, Option.bind_some]
    exact ⟨_, rfl, text_append_nul hnul _, List.mem_append_right _ List.mem_cons_self⟩
  · rw [kstrcpy_overflow hnul r _ (by omega)]
    rfl

/-- The entries before the directory's own, compared with what the stack held. -/
theorem Loaded.readdirFrom_before (h : Loaded start ms t) (addr n : Nat) {dir : Bytes}
    {mid : List Member} (hms : ms = done ++ (mid ++ todo))
    (hmid : ∀ m ∈ mid, firstComponent m.name ≠ []) (hdir : 0 ∈ dir)
    (haddr : ∀ i, i < done.length + mid.length → (t.entry i).addrHdr ≠ addr) :
    readdirFrom t addr (mid.length+n) done.length dir 0 =
      (readdirFrom t addr n (done.length+mid.length) dir 0).map fun r =>
        (listing (text dir) 0 mid ++ r.1, r.2) := by
  induction mid generalizing done with
  | nil =>
    rw [List.length_nil, Nat.zero_add, Nat.add_zero]
    cases readdirFrom t addr n done.length dir 0 with
    | none => rfl
    | some r => rfl
  | cons m mid ih =>
    have hi : ms[done.length]? = some m := by rw [hms]; simp
    have h0 := hmid m List.mem_cons_self
    have hms' : ms = (done ++ [m]) ++ (mid ++ todo) := by rw [hms, List.append_assoc]; rfl
    have hlen : (done ++ [m]).length = done.length+1 := List.length_append
    have hrec := ih hms' (fun m' hm' => hmid m' (List.mem_cons_of_mem _ hm'))
      (fun i hlt => haddr i (by rw [List.length_cons]; omega))
    rw [hlen] at hrec
    rw [List.length_cons, Nat.add_right_comm mid.length 1 n,
      h.readdirFrom_other hi h0 (haddr _ (by rw [List.length_cons]; omega)) hdir (by norm_num),
      hrec, Option.map_map, listing_cons h0, ← Nat.add_assoc, Nat.add_right_comm _ mid.length 1]
    congr 1
    funext r
    by_cases hc : firstComponent m.name = text dir
    · simp only [Function.comp_apply, if_pos hc, List.cons_append]
    · simp only [Function.comp_apply, if_neg hc]

end Loops

section Listing

variable {a : Archive} {t : Tarfs} {e : Nat} {m : Member} {done todo : List Member}
  {stack : Bytes}

/-- readdir of an entry the loop gets to. -/
theorem Loaded.readdir (h : Loaded a.start a.members t) (hk : a.members.length ≤ 16)
    (hms : a.members = done ++ m::todo) (hdone : ∀ m' ∈ done, firstComponent m'.name ≠ [])
    (h0 : firstComponent m.name ≠ []) (hstack : 8 ≤ stack.length) (hnul : 0 ∈ stack) :
    if (firstComponent m.name).length < 8 then
      ∃ ret, SBUnix.readdir t (a.address done.length) stack =
        some (listing (text stack) 0 done ++
          listing (firstComponent m.name) ((firstComponent m.name).length+1) todo, ret)
    else SBUnix.readdir t (a.address done.length) stack = none := by
  have hpos := a.start_pos
  have hi : a.members[done.length]? = some m := by rw [hms]; simp
  have hlt : done.length < a.members.length := (List.getElem?_eq_some_iff.mp hi).1
  have hown : (t.entry done.length).addrHdr = a.address done.length := (h.stored _ m hi).addr
  have hother : ∀ i, i < a.members.length → i ≠ done.length →
      (t.entry i).addrHdr ≠ a.address done.length := by
    intro i hlt' hne heq
    exact hne (h.addrHdr_inj hlt' hlt.le (heq.trans hown.symm))
  have hbefore := h.readdirFrom_before (a.address done.length) (100-done.length)
    (show a.members = [] ++ (done ++ m::todo) from hms) hdone hnul
    (fun i hi' => hother i (by rw [List.length_nil] at hi'; omega)
      (by rw [List.length_nil] at hi'; omega))
  have hrun : SBUnix.readdir t (a.address done.length) stack =
      (readdirFrom t (a.address done.length) (99-done.length+1) done.length stack 0).map fun r =>
        (listing (text stack) 0 done ++ r.1, r.2) := by
    rw [List.length_nil, Nat.zero_add, Nat.add_sub_cancel' (by omega)] at hbefore
    rw [SBUnix.readdir, if_neg (by rw [Archive.address]; omega), tarfsEntries, hbefore,
      show 99-done.length+1 = 100-done.length by omega]
  have hcase := h.readdirFrom_own (n := 99-done.length) (k := 0) hi h0 hown hstack
  split_ifs at hcase ⊢ with hfit
  · obtain ⟨copy, hcopy, htext, hmem⟩ := hcase
    have hms' : a.members = (done ++ [m]) ++ todo := by rw [hms, List.append_assoc]; rfl
    have hlen : (done ++ [m]).length = done.length+1 := List.length_append
    have htodo : todo.length < 99-done.length := by
      rw [hms, List.length_append, List.length_cons] at hk
      omega
    obtain ⟨ret, hret⟩ := h.readdirFrom_listing (a.address done.length)
      (k := (firstComponent m.name).length+1) hms' htodo hmem (by omega)
      (fun i hle hlt' => hother i hlt' (by omega))
    rw [hlen] at hret
    refine ⟨ret, ?_⟩
    rw [hrun, hcopy, hret, htext, Option.map_some]
  · rw [hrun, hcase, Option.map_none]

theorem dirIndex_some {p : Bytes} {ms : List Member} (h : dirIndex p ms = some e) :
    ∃ done m todo, ms = done ++ m::todo ∧ done.length = e ∧ firstComponent m.name = p ∧
      firstComponent m.name ≠ [] ∧ ∀ m' ∈ done, firstComponent m'.name ≠ [] := by
  induction ms generalizing e with
  | nil => cases h
  | cons m ms ih =>
    rw [dirIndex] at h
    split_ifs at h with h0 hhit
    · exact ⟨[], m, ms, rfl, Option.some_inj.mp h, hhit.1, h0, by simp⟩
    · obtain ⟨j, hj, rfl⟩ := Option.map_eq_some_iff.mp h
      obtain ⟨done, m', todo, rfl, rfl, hc, hne, hdone⟩ := ih hj
      refine ⟨m::done, m', todo, rfl, rfl, hc, hne, ?_⟩
      intro x hx
      rcases List.mem_cons.mp hx with rfl | hx
      · exact h0
      · exact hdone x hx

theorem Loaded.opendir_iff (h : Loaded a.start a.members t) (hk : a.members.length ≤ 16)
    (he : e < a.members.length) {d : Bytes} (hd : 0 ∉ d) :
    SBUnix.opendir t (d ++ [0]) = some (a.address e) ↔ d ≠ [] ∧ dirIndex d a.members = some e := by
  have hpos := a.start_pos
  have hown : (t.entry e).addrHdr = a.address e :=
    (h.stored e _ (List.getElem?_eq_getElem he)).addr
  have hzero : some 0 ≠ some (a.address e) := by
    rw [Ne, Option.some_inj, Archive.address]
    omega
  by_cases hne : d = []
  · rw [hne, SBUnix.opendir, List.nil_append, tarfsEntries, opendirFrom_empty]
    exact iff_of_false hzero (fun hc => hc.1 rfl)
  · have hrun := h.opendirFrom hd hne (List.nil_append a.members).symm (n := tarfsEntries)
      (by unfold tarfsEntries; omega)
    rw [List.length_nil] at hrun
    rw [SBUnix.opendir, hrun, and_iff_right hne]
    cases hj : dirIndex d a.members with
    | none => exact iff_of_false hzero (by simp)
    | some j =>
      obtain ⟨done, m, todo, hms, rfl, -⟩ := dirIndex_some hj
      dsimp only
      rw [Nat.zero_add, Option.some_inj, Option.some_inj]
      constructor
      · intro heq
        apply (h.addrHdr_inj he _ (hown.trans heq.symm)).symm
        rw [hms, List.length_append]
        omega
      · rintro rfl
        exact hown

/-- Against the names that should be listed. The lists have the same length only if exactly
the entries below `d` are shown, and the same number of characters only if each is shown
whole. -/
theorem listing_perm_iff {d : Bytes} (hd : charSlash ∉ d) (ms : List Member) :
    (listing d (d.length+1) ms).Perm (expected d ms) ↔
      (∀ m ∈ visited ms, firstComponent m.name = d → Below d m ∧ charSlash ∉ relativeName d m) ∧
      ∀ m ∈ unvisited ms, ¬Below d m := by
  have hsplit : expected d ms = ((visited ms).filter (Below d ·)).map (relativeName d) ++
      ((unvisited ms).filter (Below d ·)).map (relativeName d) := by
    rw [expected, ← List.map_append, ← List.filter_append, visited, unvisited,
      List.takeWhile_append_dropWhile]
  -- once every shown entry is below `d`, the two filters over the visited entries agree
  have hfilter : (∀ m ∈ visited ms, firstComponent m.name = d → Below d m) →
      (visited ms).filter (Below d ·) = (visited ms).filter (firstComponent ·.name = d) := by
    intro hbelow
    apply List.filter_congr
    intro m hm
    rw [decide_eq_decide]
    exact ⟨fun h => h.firstComponent hd, hbelow m hm⟩
  constructor
  · intro hperm
    have hbelow : ∀ m ∈ visited ms, firstComponent m.name = d → Below d m := by
      intro m hm hc
      apply below_of_shown hc
      have hmem : firstComponent (m.name.drop (d.length+1)) ∈ expected d ms := by
        apply hperm.subset
        apply List.mem_map_of_mem
        exact List.mem_filter.mpr ⟨hm, by simpa using hc⟩
      obtain ⟨m', hm', heq⟩ := List.mem_map.mp hmem
      rw [← heq]
      exact relativeName_ne (by simpa using (List.mem_filter.mp hm').2)
    have hmissed : (unvisited ms).filter (Below d ·) = [] := by
      have hlen := hperm.length_eq
      rw [hsplit, hfilter hbelow, listing, List.length_append, List.length_map, List.length_map,
        List.length_map] at hlen
      apply List.eq_nil_of_length_eq_zero
      omega
    refine ⟨fun m hm hc => ⟨hbelow m hm hc, ?_⟩, fun m hm => ?_⟩
    · rw [hsplit, hfilter hbelow, hmissed, List.map_nil, List.append_nil, listing] at hperm
      intro hslash
      have hsum := (hperm.map List.length).sum_eq
      rw [List.map_map, List.map_map] at hsum
      have hshort : ∀ m' ∈ (visited ms).filter (firstComponent ·.name = d),
          firstComponent (m'.name.drop (d.length+1)) = firstComponent (relativeName d m') := by
        intro m' hm'
        obtain ⟨hv, hc'⟩ := List.mem_filter.mp hm'
        exact shown_eq_relativeName (hbelow m' hv (by simpa using hc'))
      have hmem : m ∈ (visited ms).filter (firstComponent ·.name = d) :=
        List.mem_filter.mpr ⟨hm, by simpa using hc⟩
      refine absurd hsum (List.sum_lt_sum _ _ ?_ ⟨m, hmem, ?_⟩).ne
      · intro m' hm'
        rw [Function.comp_apply, Function.comp_apply, hshort m' hm']
        exact firstComponent_length_le _
      · rw [Function.comp_apply, Function.comp_apply, hshort m hmem]
        exact firstComponent_length_lt hslash
    · simpa using List.filter_eq_nil_iff.mp hmissed m hm
  · rintro ⟨hshown, hmissed⟩
    have hnil : (unvisited ms).filter (Below d ·) = [] := by
      apply List.filter_eq_nil_iff.mpr
      intro m hm
      simpa using hmissed m hm
    rw [hsplit, hfilter (fun m hm hc => (hshown m hm hc).1), hnil, List.map_nil, List.append_nil,
      listing]
    apply List.Perm.of_eq
    apply List.map_congr_left
    intro m hm
    obtain ⟨hmem, hc⟩ := List.mem_filter.mp hm
    obtain ⟨hbelow, hslash⟩ := hshown m hmem (by simpa using hc)
    rw [shown_eq_relativeName hbelow, firstComponent_of_not_mem hslash]

theorem not_below_self {d : Bytes} (h : m.name = d ++ [charSlash]) : ¬Below d m := by
  rintro ⟨r, hne, hr⟩
  rw [h, List.append_cancel_left_eq, List.cons_inj_right] at hr
  exact hne hr.symm

/-- The first entry of an archive, against the condition. -/
theorem Loaded.lists_first_iff (h : Loaded a.start a.members t) (hk : a.members.length ≤ 16)
    {d : Bytes} (hms : a.members = m::todo) (hname : m.name = d ++ [charSlash])
    (hdir : m.kind = .directory) (hne : d ≠ []) (hd : charSlash ∉ d) (hfit : d.length < 8) :
    Lists a t 0 d ↔ PlainListing a 0 d := by
  have hd0 : 0 ∉ d := fun h0 => m.name_noNul (by rw [hname]; exact List.mem_append_left _ h0)
  have hc : firstComponent m.name = d := by
    rw [hname, firstComponent_append_slash, firstComponent_of_not_mem hd]
  have hc0 : firstComponent m.name ≠ [] := by rwa [hc]
  have hopen : SBUnix.opendir t (d ++ [0]) = some (a.address 0) := by
    rw [h.opendir_iff hk (by rw [hms]; simp) hd0, hms, dirIndex, if_neg hc0, if_pos ⟨hc, hdir⟩]
    exact ⟨hne, rfl⟩
  have hexp : expected d a.members = expected d todo := by
    rw [expected, expected, hms, List.filter_cons,
      if_neg (by simpa using not_below_self hname)]
  have hvis : visited a.members = m :: visited todo := by rw [hms, visited_cons hc0]
  have hunvis : unvisited a.members = unvisited todo := by
    rw [hms, unvisited, List.dropWhile_cons_of_pos (by simpa using hc0), unvisited]
  have hread : ∀ stack, 8 ≤ stack.length → 0 ∈ stack →
      ∃ ret, SBUnix.readdir t (a.address 0) stack = some (listing d (d.length+1) todo, ret) := by
    intro stack hstack hnul
    have := h.readdir hk (show a.members = [] ++ m::todo from hms) (by simp) hc0 hstack hnul
    rw [hc, if_pos hfit] at this
    exact this
  constructor
  · rintro ⟨-, hlist⟩
    obtain ⟨out, ret, hout, hperm⟩ := hlist (List.replicate 8 0) (by simp) (by simp)
    obtain ⟨ret', hret'⟩ := hread (List.replicate 8 0) (by simp) (by simp)
    rw [hout, Option.some_inj, Prod.mk.injEq] at hret'
    rw [hret'.1, hexp, listing_perm_iff hd] at hperm
    exact ⟨rfl, hne, hd, hfit, by rw [hvis]; exact hperm.1, by rw [hunvis]; exact hperm.2⟩
  · intro hp
    have hshown := hp.shown
    have hmissed := hp.missed
    rw [hvis] at hshown
    rw [hunvis] at hmissed
    refine ⟨hopen, fun stack hstack hnul => ?_⟩
    obtain ⟨ret, hret⟩ := hread stack hstack hnul
    refine ⟨_, ret, hret, ?_⟩
    rw [hexp]
    exact (listing_perm_iff hd todo).mpr ⟨hshown, hmissed⟩

/-- With entries before the directory's own there is a stack that makes one of them show up. -/
theorem Loaded.lists_imp_first (h : Loaded a.start a.members t) (hk : a.members.length ≤ 16)
    {d : Bytes} (hms : a.members = done ++ m::todo)
    (hdone : ∀ m' ∈ done, firstComponent m'.name ≠ []) (hc : firstComponent m.name = d)
    (hne : d ≠ []) (hlist : Lists a t done.length d) : done = [] ∧ d.length < 8 := by
  have hrun := fun (stack : Bytes) (hs : 8 ≤ stack.length) (h0 : 0 ∈ stack) =>
    h.readdir hk hms hdone (hc.symm ▸ hne) hs h0
  rw [hc] at hrun
  have hfit : d.length < 8 := by
    by_contra hlong
    have := hrun (List.replicate 8 0) (by simp) (by simp)
    obtain ⟨out, ret, hout, -⟩ := hlist.2 (List.replicate 8 0) (by simp) (by simp)
    rw [if_neg hlong, hout] at this
    cases this
  refine ⟨?_, hfit⟩
  cases hcases : done with
  | nil => rfl
  | cons m' done' =>
    have hm' : firstComponent m'.name ≠ [] := hdone m' (by rw [hcases]; exact List.mem_cons_self)
    have hnul : 0 ∉ firstComponent m'.name :=
      fun h0 => m'.name_noNul ((List.takeWhile_prefix _).subset h0)
    have hlen : ∀ stack, 8 ≤ stack.length → 0 ∈ stack →
        (listing (text stack) 0 done).length + (listing d (d.length+1) todo).length =
          (expected d a.members).length := by
      intro stack hs h0
      have hread := hrun stack hs h0
      rw [if_pos hfit] at hread
      obtain ⟨ret, hret⟩ := hread
      obtain ⟨out, ret', hout, hperm⟩ := hlist.2 stack hs h0
      rw [hret, Option.some_inj, Prod.mk.injEq] at hout
      rw [← hperm.length_eq, ← hout.1, List.length_append]
    -- an empty string on the stack shows none of them, the first one's name shows that one
    have hempty := hlen (List.replicate 8 0) (by simp) (by simp)
    have hfirst := hlen (firstComponent m'.name ++ 0 :: List.replicate 7 0) (by simp)
      (List.mem_append_right _ List.mem_cons_self)
    have hnone : listing [] 0 done = [] := by
      rw [listing, List.map_eq_nil_iff, List.filter_eq_nil_iff]
      intro x hx
      simpa using hdone x ((List.takeWhile_prefix _).subset hx)
    rw [show text (List.replicate 8 0) = [] from rfl, hnone, List.length_nil] at hempty
    rw [text_append_nul hnul, hcases, listing_cons hm', if_pos rfl, List.length_cons] at hfirst
    omega

end Listing

/-- opendir and readdir on a loaded archive, for every directory entry: all is right, whatever
the stack holds, exactly for a plain listing. -/
theorem readdir_lists_iff (a : Archive) (t : Tarfs) (e : Nat) (m : Member) (d : Bytes)
    (hk : a.members.length ≤ 16) (ht : initTarfs a.start a.bytes = some t)
    (he : a.members[e]? = some m) (hdir : m.kind = .directory)
    (hname : m.name = d ++ [charSlash]) : Lists a t e d ↔ PlainListing a e d := by
  have h := Loaded.of_initTarfs hk ht
  have hlt := (List.getElem?_eq_some_iff.mp he).1
  have hd0 : 0 ∉ d := fun h0 => m.name_noNul (by rw [hname]; exact List.mem_append_left _ h0)
  have hzero : e = 0 → a.members = m :: a.members.tail := by
    rintro rfl
    cases hms : a.members with
    | nil =>
      rw [hms] at he
      cases he
    | cons m' ms =>
      rw [hms] at he
      rw [Option.some_inj.mp he, List.tail_cons]
  constructor
  · intro hlist
    obtain ⟨hne, hindex⟩ := (h.opendir_iff hk hlt hd0).mp hlist.1
    obtain ⟨done, m', todo, hms, rfl, hc, -, hdone⟩ := dirIndex_some hindex
    obtain ⟨rfl, hfit⟩ := h.lists_imp_first hk hms hdone hc hne hlist
    have hslash : charSlash ∉ d := hc ▸ slash_not_mem_firstComponent m'.name
    exact (h.lists_first_iff hk (hzero rfl) hname hdir hne hslash hfit).mp hlist
  · intro hp
    have hfirst := hp.first
    subst hfirst
    exact (h.lists_first_iff hk (hzero rfl) hname hdir hp.name_ne hp.flat hp.fits).mpr hp

/-- `bin/` before `bin/cat`. -/
theorem readdir_lists_bin :
    ∃ t, initTarfs ramdisk.start ramdisk.bytes = some t ∧ Lists ramdisk t 0 [98, 105, 110] := by
  obtain ⟨t, ht, -⟩ := initTarfs_loaded ramdisk (by decide)
  refine ⟨t, ht, (readdir_lists_iff ramdisk t 0 binDir _ (by decide) ht rfl rfl rfl).mpr ?_⟩
  exact ⟨rfl, by decide, by decide, by decide, by decide, by decide⟩

/-- `bin/sub/ls` -/
def subLs : Member :=
  .zeroed [98, 105, 110, 47, 115, 117, 98, 47, 108, 115] .file [] (by decide) (by decide)
    (by decide) empty_data_length (by decide)

def nested : Archive := .linked [binDir, subLs] (by
  simp only [List.flatMap_cons, List.flatMap_nil, List.length_append, Member.bytes_length]
  decide)

/-- With `bin/` and `bin/sub/ls`, listing `bin` shows `sub` for the second entry. -/
theorem readdir_cuts_nested :
    ∃ t ret, initTarfs nested.start nested.bytes = some t ∧
      readdir t (nested.address 0) (List.replicate 8 0) = some ([[115, 117, 98]], ret) ∧
      expected [98, 105, 110] nested.members = [[115, 117, 98, 47, 108, 115]] ∧
      ¬Lists nested t 0 [98, 105, 110] := by
  obtain ⟨t, ht, hl⟩ := initTarfs_loaded nested (by decide)
  have hstack : (0 : UInt8) ∈ List.replicate 8 0 := by decide
  have hread := hl.readdir (by decide) (show nested.members = [] ++ binDir::[subLs] from rfl)
    (by simp) (by decide) (by decide) hstack
  rw [if_pos (by decide)] at hread
  obtain ⟨ret, hret⟩ := hread
  refine ⟨t, ret, ht, hret, by decide, ?_⟩
  rintro ⟨-, hlist⟩
  obtain ⟨out, ret', hout, hperm⟩ := hlist (List.replicate 8 0) (by decide) (by decide)
  rw [show nested.address 0 = nested.address ([] : List Member).length from rfl, hret,
    Option.some_inj, Prod.mk.injEq] at hout
  rw [← hout.1] at hperm
  revert hperm
  decide

end SBUnix
