import SBUnix.Console.LineBuffer

namespace SBUnix

open CString Word

/-- The keyboard events among the interrupts. -/
def Interrupt.isKey : Interrupt → Bool
  | .key _ => true
  | .alloc _ => false

def keysOnly (is : List Interrupt) : List Interrupt := is.filter Interrupt.isKey

def Stroke.isKey : Stroke → Bool
  | .key _ => true
  | .pages _ => false

theorem strokes_keysOnly (lkp : LastKeyPressed) (is : List Interrupt) :
    strokes lkp (keysOnly is) = (strokes lkp is).filter Stroke.isKey := by
  induction is generalizing lkp with
  | nil => rfl
  | cons i is ih =>
    cases i with
    | key sc =>
      have hkeys : keysOnly (.key sc :: is) = .key sc :: keysOnly is := rfl
      rw [hkeys, strokes, strokes, ih, List.filter_append]
      cases keyValue lkp sc <;> rfl
    | alloc c =>
      have hkeys : keysOnly (.alloc c :: is) = keysOnly is := rfl
      rw [hkeys, strokes, ih]
      rfl

/-- The bytes of the page once Enter has stored its NUL. -/
def Line.pageBytes (l : Line) : Bytes := (List.range 4096).map fun i => l.entered.cells (i+1)

/-- A gets that is interrupted by `is` returns the line it would have returned had no page been
taken meanwhile. -/
def SameLine (is : List Interrupt) (k : Keyboard) : Prop :=
  ∃ N, ∀ n, N ≤ n → ∃ t k1 k2, gets n (is ++ [.key 28]) k = some (t, k1) ∧
    gets n (keysOnly is ++ [.key 28]) k = some (t, k2)

theorem harmless_keysOnly (base : Nat) (is : List Interrupt) (k : Keyboard) :
    Harmless base (keysOnly is) k := by
  intro before c after hsplit
  have hm : Interrupt.alloc c ∈ keysOnly is := by
    rw [hsplit]
    simp
  have := (List.mem_filter.mp hm).2
  cases this

/-- What gets returns when the line ends in the page. -/
theorem gets_pageBytes (is : List Interrupt) (k : Keyboard) (hr : Room k.kern.cursor)
    (hw : k.checkNl = false) (hh : Harmless k.kern.cursor is (getsStart k))
    (hn : NoEnter (strokes k.lkp is))
    (hz : 0 ∈ (lineAfter (startCount k) (strokes k.lkp is)).pageBytes) (n : Nat)
    (hfuel : 4096 ≤ n) :
    ∃ k', gets n (is ++ [.key 28]) k =
      some (text (lineAfter (startCount k) (strokes k.lkp is)).pageBytes, k') := by
  obtain ⟨e, hshow, hgets⟩ := gets_enter is k hr hw hh hn
  obtain ⟨j, hj, hzero⟩ := List.mem_map.mp hz
  rw [List.mem_range] at hj
  obtain ⟨k', hk⟩ := getsEnd_text hr hshow j hj hzero hfuel
  refine ⟨k', ?_⟩
  rw [hgets, hk, Line.pageBytes,
    (text_map_range (fun i => (lineAfter (startCount k) (strokes k.lkp is)).entered.cells (i+1))
      j 4096 hj hzero).2]

section Keys

/-- How far strokes without a backspace move the counter. -/
def reach (ss : List Stroke) : Nat :=
  (ss.map fun
    | .key _ => 1
    | .pages n => n).sum

@[simp] theorem reach_key (v : UInt8) (ss : List Stroke) :
    reach (.key v :: ss) = 1 + reach ss := by
  simp [reach]

@[simp] theorem reach_pages (n : Nat) (ss : List Stroke) :
    reach (.pages n :: ss) = n + reach ss := by
  simp [reach]

theorem reach_append (ss ss' : List Stroke) : reach (ss ++ ss') = reach ss + reach ss' := by
  simp [reach]

def NoBackspace (ss : List Stroke) : Prop := .key charBackspace ∉ ss

/-- The characters among the strokes. -/
def keysOf (ss : List Stroke) : List UInt8 :=
  ss.filterMap fun
    | .key v => some v
    | .pages _ => none

theorem filter_isKey (ss : List Stroke) : ss.filter Stroke.isKey = (keysOf ss).map .key := by
  induction ss with
  | nil => rfl
  | cons s ss ih =>
    cases s with
    | key v =>
      rw [List.filter_cons_of_pos rfl, ih]
      rfl
    | pages n =>
      rw [List.filter_cons_of_neg (by simp [Stroke.isKey]), ih]
      rfl

theorem keysOf_append (ss ss' : List Stroke) : keysOf (ss ++ ss') = keysOf ss ++ keysOf ss' :=
  List.filterMap_append

theorem mem_keysOf_iff {ss : List Stroke} {v : UInt8} : v ∈ keysOf ss ↔ .key v ∈ ss := by
  rw [keysOf, List.mem_filterMap]
  constructor
  · rintro ⟨s, hs, he⟩
    cases s with
    | key w =>
      obtain rfl := Option.some.inj he
      exact hs
    | pages n => cases he
  · intro hs
    exact ⟨_, hs, rfl⟩

theorem keysOf_length_le (ss : List Stroke) : (keysOf ss).length ≤ reach ss := by
  induction ss with
  | nil => exact Nat.zero_le _
  | cons s ss ih =>
    cases s with
    | key v =>
      rw [reach_key, Nat.add_comm]
      exact Nat.succ_le_succ ih
    | pages n =>
      rw [reach_pages]
      exact ih.trans (Nat.le_add_left _ _)

theorem editLine_of_noBackspace (vs : List UInt8) (h : charBackspace ∉ vs) :
    editLine vs = vs := by
  induction vs using List.reverseRecOn with
  | nil => rfl
  | append_singleton vs v ih =>
    rw [List.mem_append, not_or, List.mem_singleton] at h
    rw [editLine_snoc, if_neg (Ne.symm h.2), ih h.1]

theorem reach_keys (vs : List UInt8) : reach (vs.map .key) = vs.length := by
  induction vs with
  | nil => rfl
  | cons v vs ih =>
    rw [List.map_cons, reach_key, ih, List.length_cons, Nat.add_comm]

end Keys

section Gap

/-- No character that was erased stands behind the line: it has not been longer. -/
def LongestLast (vs : List UInt8) : Prop :=
  ∀ before after, vs = before ++ after → (editLine before).length ≤ (editLine vs).length

/-- The keys `ws` erase nothing of what `vs` leaves. -/
def KeepsLine (vs ws : List UInt8) : Prop :=
  ∀ before after, ws = before ++ after → (editLine vs).length ≤ (editLine (vs ++ before)).length

theorem characters_le (vs : List UInt8) : characters vs ≤ vs.length := List.length_filter_le _ _

/-- A cell that no line has come to. -/
theorem lineAfter_high {vs : List UInt8} (h : NoOverErase vs) (hlen : vs.length ≤ 4095) {c : Nat}
    (hc : ∀ before after, vs = before ++ after → (editLine before).length < c) :
    (lineAfter 1 (vs.map .key)).cells c = 0 := by
  induction vs using List.reverseRecOn with
  | nil => rfl
  | append_singleton vs v ih =>
    rw [List.length_append, List.length_singleton] at hlen
    have hno := ((noOverErase_snoc vs v).mp h).1
    have hcell := ih hno (by omega) fun before after hsplit =>
      hc before (after ++ [v]) (by rw [hsplit]; simp)
    have hcount := (spells_lineAfter vs hno ((characters_le vs).trans (by omega))).count
    have hend := hc (vs ++ [v]) [] (by simp)
    rw [List.map_append, List.map_singleton, lineAfter_snoc, Line.step]
    split_ifs with hv
    · exact hcell
    · rw [editLine_snoc, if_neg hv, List.length_append, List.length_singleton] at hend
      dsimp only
      rw [Function.update_of_ne (by omega)]
      exact hcell

theorem text_pageBytes {l : Line} {t : Bytes} (hcells : ∀ i (h : i < t.length),
    l.entered.cells (i+1) = t[i]) (hnul : l.entered.cells (t.length+1) = 0)
    (hlen : t.length < 4096) (hz : 0 ∉ t) : text l.pageBytes = t := by
  have hfront : ((List.range t.length).map fun i => l.entered.cells (i+1)) = t := by
    apply List.ext_getElem
    · simp
    · intro i hi hi'
      rw [List.getElem_map, List.getElem_range, hcells i hi']
  rw [Line.pageBytes, (text_map_range _ t.length 4096 hlen hnul).2, hfront]
  exact text_of_not_mem hz

theorem pageBytes_alone {vs : List UInt8} (hno : NoOverErase vs) (hlen : vs.length ≤ 4095)
    (hz : ∀ v ∈ vs, v ≠ 0) : text (lineAfter 1 (vs.map .key)).pageBytes = editLine vs := by
  have hchars := (characters_le vs).trans hlen
  have hspell := spells_lineAfter vs hno hchars
  have hcount := hspell.count
  have hle := editLine_length_le vs
  refine text_pageBytes ?_ ?_ (by omega) (zero_not_mem_editLine vs hz)
  · intro i hi
    rw [Line.entered_cells, Function.update_of_ne (by omega), hspell.cells i hi]
  · rw [Line.entered_cells, ← hcount, Function.update_self]

/-- Behind pages that were taken, keys that keep the line leave one free cell behind it. -/
theorem lineAfter_kept {vs : List UInt8} {n : Nat} (hn : 0 < n) {after : List Stroke}
    (hno : NoOverErase (vs ++ keysOf after)) (hkeep : KeepsLine vs (keysOf after))
    (hlen : vs.length + n + reach after ≤ 4095) :
    let l := lineAfter 1 (vs.map .key ++ .pages n :: after)
    (editLine (vs ++ keysOf after)).length + 1 + n ≤ l.count ∧
    l.count ≤ vs.length + 1 + n + reach after ∧
    ∀ c ≤ (editLine vs).length + 1, l.cells c = (lineAfter 1 (vs.map .key)).cells c := by
  induction after using List.reverseRecOn with
  | nil =>
    have hnil : keysOf [] = [] := rfl
    rw [hnil, List.append_nil] at hno ⊢
    have hcount := (spells_lineAfter vs hno ((characters_le vs).trans (by omega))).count
    have hle := (editLine_length_le vs).trans (characters_le vs)
    rw [lineAfter_snoc, Line.step]
    dsimp only
    refine ⟨?_, ?_, fun c _ => rfl⟩
    · rw [Nat.mod_eq_of_lt (by omega)]
      omega
    · rw [Nat.mod_eq_of_lt (by omega)]
      omega
  | append_singleton after x ih =>
    have hkeys := keysOf_append after [x]
    have hback : KeepsLine vs (keysOf after) := fun pre suf hsplit =>
      hkeep pre (suf ++ keysOf [x]) (by rw [hkeys, hsplit, List.append_assoc])
    have hline := hback _ [] (List.append_nil _).symm
    rw [reach_append] at hlen
    rw [hkeys, ← List.append_assoc] at hno ⊢
    have hsnoc : vs.map Stroke.key ++ .pages n :: (after ++ [x]) =
        (vs.map .key ++ .pages n :: after) ++ [x] := by simp
    rw [hsnoc, lineAfter_snoc, reach_append]
    cases x with
    | key v =>
      have hone : keysOf [.key v] = [v] := rfl
      have hreach : reach [.key v] = 1 := rfl
      rw [hone] at hno ⊢
      obtain ⟨hno', hlast⟩ := (noOverErase_snoc _ v).mp hno
      obtain ⟨hlo, hhi, hcells⟩ := ih hno' hback (by omega)
      rw [Line.step, editLine_snoc]
      split_ifs with hv
      · have hpos := List.length_pos_of_ne_nil (hlast hv)
        rw [List.length_dropLast]
        dsimp only
        exact ⟨by omega, by omega, hcells⟩
      · rw [List.length_append, List.length_singleton]
        dsimp only
        refine ⟨by omega, by omega, ?_⟩
        intro c hc
        rw [Function.update_of_ne (by omega)]
        exact hcells c hc
    | pages k =>
      have hnone : keysOf [.pages k] = [] := rfl
      have hreach : reach [.pages k] = k := by simp [reach]
      rw [hnone, List.append_nil] at hno ⊢
      obtain ⟨hlo, hhi, hcells⟩ := ih hno hback (by omega)
      rw [Line.step]
      dsimp only
      exact ⟨by omega, by omega, hcells⟩

theorem pageBytes_kept {vs : List UInt8} {n : Nat} (hn : 0 < n) {after : List Stroke}
    (hno : NoOverErase (vs ++ keysOf after)) (hlong : LongestLast vs)
    (hkeep : KeepsLine vs (keysOf after)) (hz : ∀ v ∈ vs, v ≠ 0)
    (hlen : vs.length + n + reach after ≤ 4095) :
    text (lineAfter 1 (vs.map .key ++ .pages n :: after)).pageBytes = editLine vs := by
  obtain ⟨hlo, -, hcells⟩ := lineAfter_kept hn hno hkeep hlen
  have hline := hkeep _ [] (List.append_nil _).symm
  have hle := (editLine_length_le vs).trans (characters_le vs)
  have hno' : NoOverErase vs := by
    intro before after hsplit
    exact hno before (after ++ _) (by rw [hsplit, List.append_assoc]; rfl)
  have hspell := spells_lineAfter vs hno' ((characters_le vs).trans (by omega))
  refine text_pageBytes ?_ ?_ (by omega) (zero_not_mem_editLine vs hz)
  · intro i hi
    rw [Line.entered_cells, Function.update_of_ne (by omega), hcells _ (by omega),
      hspell.cells i hi]
  · rw [Line.entered_cells, Function.update_of_ne (by omega), hcells _ le_rfl]
    exact lineAfter_high hno' (by omega) fun before after hsplit =>
      Nat.lt_succ_of_le (hlong before after hsplit)

end Gap

section Interference

variable {k : Keyboard} {is : List Interrupt}

theorem Harmless.pages_pos {base : Nat} (h : Harmless base is k) (lkp : LastKeyPressed) (n : Nat)
    (hm : .pages n ∈ strokes lkp is) : 0 < n := by
  induction is generalizing lkp k with
  | nil => simp [strokes] at hm
  | cons i is ih =>
    cases i with
    | key sc =>
      rw [strokes, List.mem_append] at hm
      rcases hm with hm | hm
      · simp at hm
      · exact ih h.tail _ hm
    | alloc c =>
      rw [strokes, List.mem_cons] at hm
      rcases hm with hm | hm
      · rw [Stroke.pages.inj hm]
        exact (h [] c is rfl).1.pages_pos
      · exact ih h.tail _ hm

/-- The keys before a page is taken. -/
def keysBefore (ss : List Stroke) : List UInt8 := keysOf (ss.takeWhile Stroke.isKey)

def keysAfter (ss : List Stroke) : List UInt8 := keysOf (ss.dropWhile Stroke.isKey)

theorem keysOf_split (ss : List Stroke) : keysOf ss = keysBefore ss ++ keysAfter ss := by
  rw [keysBefore, keysAfter, ← keysOf_append, List.takeWhile_append_dropWhile]

theorem keysBefore_map (ss : List Stroke) :
    (keysBefore ss).map .key = ss.takeWhile Stroke.isKey := by
  rw [keysBefore, ← filter_isKey]
  exact List.filter_eq_self.mpr fun s hs => List.mem_takeWhile_imp hs

/-- Keys that erase nothing of the line there was when the first page was taken: the line is the
one of the keys alone exactly when it is still that one. -/
theorem text_pageBytes_iff {ss : List Stroke} (hp : ∀ n, .pages n ∈ ss → 0 < n)
    (hno : NoOverErase (keysOf ss)) (hlong : LongestLast (keysBefore ss))
    (hkeep : KeepsLine (keysBefore ss) (keysAfter ss)) (hz : .key 0 ∉ ss)
    (hlen : reach ss ≤ 4095) :
    text (lineAfter 1 ss).pageBytes = text (lineAfter 1 (ss.filter Stroke.isKey)).pageBytes ↔
      editLine (keysOf ss) = editLine (keysBefore ss) := by
  have hnz (v : UInt8) (hv : v ∈ keysOf ss) : v ≠ 0 := by
    rintro rfl
    exact hz (mem_keysOf_iff.mp hv)
  rw [filter_isKey, pageBytes_alone hno ((keysOf_length_le ss).trans hlen) hnz]
  have hkeys := keysOf_split ss
  have hsplit : ss = (keysBefore ss).map .key ++ ss.dropWhile Stroke.isKey := by
    rw [keysBefore_map, List.takeWhile_append_dropWhile]
  rw [keysAfter] at hkeep hkeys
  have hhead := List.head?_dropWhile_not Stroke.isKey ss
  generalize ss.dropWhile Stroke.isKey = rest at hsplit hkeep hkeys hhead
  generalize keysBefore ss = vs at hsplit hkeep hkeys hlong ⊢
  rw [hkeys] at hno hnz ⊢
  rw [hsplit, reach_append, reach_keys] at hlen
  cases rest with
  | nil =>
    have hnil : keysOf [] = [] := rfl
    rw [hnil, List.append_nil] at hno hnz ⊢
    rw [hsplit, List.append_nil]
    exact iff_of_true (pageBytes_alone hno (by omega) hnz) rfl
  | cons s after =>
    cases s with
    | key v => simp [Stroke.isKey] at hhead
    | pages n =>
      have hn : 0 < n := hp n (by rw [hsplit]; simp)
      have hsame : keysOf (.pages n :: after) = keysOf after := rfl
      rw [reach_pages] at hlen
      rw [hsame] at hno hnz hkeep ⊢
      rw [hsplit, pageBytes_kept hn hno hlong hkeep (fun v hv => hnz v (by simp [hv])) (by omega)]
      exact eq_comm

theorem keysOf_eq_nil_iff {ss : List Stroke} : keysOf ss = [] ↔ ∀ s ∈ ss, s.isKey = false := by
  rw [keysOf, List.filterMap_eq_nil_iff]
  refine forall₂_congr fun s _ => ?_
  cases s <;> simp [Stroke.isKey]

/-- Without backspaces that is when no character is typed after a page has been taken. -/
theorem text_pageBytes_forward {ss : List Stroke} (hp : ∀ n, .pages n ∈ ss → 0 < n)
    (hback : NoBackspace ss) (hz : .key 0 ∉ ss) (hlen : reach ss ≤ 4095) :
    text (lineAfter 1 ss).pageBytes = text (lineAfter 1 (ss.filter Stroke.isKey)).pageBytes ↔
      ∀ s ∈ ss.dropWhile Stroke.isKey, s.isKey = false := by
  have hnone : charBackspace ∉ keysOf ss := fun h => hback (mem_keysOf_iff.mp h)
  have hkeys := keysOf_split ss
  have hline {vs : List UInt8} (h : ∀ v ∈ vs, v ∈ keysOf ss) : editLine vs = vs :=
    editLine_of_noBackspace vs fun hm => hnone (h _ hm)
  have hbefore : editLine (keysBefore ss) = keysBefore ss := hline (by rw [hkeys]; simp +contextual)
  have hno : NoOverErase (keysOf ss) := by
    intro before after hsplit
    exact absurd (by rw [hsplit]; simp) hnone
  have hlong : LongestLast (keysBefore ss) := by
    intro before after hsplit
    rw [hbefore, hline (by rw [hkeys, hsplit]; simp +contextual), hsplit, List.length_append]
    omega
  have hkeep : KeepsLine (keysBefore ss) (keysAfter ss) := by
    intro before after hsplit
    rw [hbefore, hline (by rw [hkeys, hsplit]; simp +contextual [or_imp]), List.length_append]
    omega
  rw [text_pageBytes_iff hp hno hlong hkeep hz hlen, hline fun v hv => hv, hbefore, hkeys,
    List.append_right_eq_self, keysAfter, keysOf_eq_nil_iff]

theorem sameLine_stale (hr : Room k.kern.cursor) (hw : k.checkNl = true) : SameLine is k := by
  obtain ⟨hshow, hnl, -⟩ := getsStart_shows k hr
  refine ⟨4096, ?_⟩
  intro n hfuel
  obtain ⟨k', hk⟩ := getsEnd_text hr hshow 0 (by norm_num) rfl hfuel
  exact ⟨_, k', k', (gets_stale n _ (hnl.trans hw)).trans hk,
    (gets_stale n _ (hnl.trans hw)).trans hk⟩

theorem sameLine_waiting (hr : Room k.kern.cursor) (hw : k.checkNl = false)
    (hh : Harmless k.kern.cursor is (getsStart k)) (hn : NoEnter (strokes k.lkp is)) :
    let ss := strokes k.lkp is
    let l := lineAfter (startCount k) ss
    let l' := lineAfter (startCount k) (ss.filter Stroke.isKey)
    0 ∈ l.pageBytes → 0 ∈ l'.pageBytes →
      (SameLine is k ↔ text l.pageBytes = text l'.pageBytes) := by
  intro ss l l' hz hz'
  have hkeys := strokes_keysOnly k.lkp is
  have hn' : NoEnter (strokes k.lkp (keysOnly is)) := by
    rw [hkeys]
    intro hm
    exact hn (List.mem_of_mem_filter hm)
  have hrun (n : Nat) (hfuel : 4096 ≤ n) := gets_pageBytes is k hr hw hh hn hz n hfuel
  have hrun' (n : Nat) (hfuel : 4096 ≤ n) := gets_pageBytes (keysOnly is) k hr hw
    (harmless_keysOnly _ _ _) hn' (by rw [hkeys]; exact hz') n hfuel
  rw [hkeys] at hrun'
  constructor
  · rintro ⟨N, h⟩
    obtain ⟨t, k1, k2, h1, h2⟩ := h (max N 4096) (le_max_left _ _)
    obtain ⟨k3, h3⟩ := hrun (max N 4096) (le_max_right _ _)
    obtain ⟨k4, h4⟩ := hrun' (max N 4096) (le_max_right _ _)
    rw [h1] at h3
    rw [h2] at h4
    exact (Prod.mk.inj (Option.some.inj h3)).1.symm.trans (Prod.mk.inj (Option.some.inj h4)).1
  · intro he
    refine ⟨4096, ?_⟩
    intro n hfuel
    obtain ⟨k1, h1⟩ := hrun n hfuel
    obtain ⟨k2, h2⟩ := hrun' n hfuel
    exact ⟨_, k1, k2, h1, h2.trans (congrArg (fun t => some (t, k2)) he.symm)⟩

/-- Pages taken during a gets move the counter under the line. The line stays what the keys
alone make it exactly when the page shows the same in both runs. For keys that erase nothing of
the line there was at the first allocation that is when they leave this line in the end, and for
keys without backspaces when no character follows an allocation. -/
theorem gets_same_iff (is : List Interrupt) (k : Keyboard) (hr : Room k.kern.cursor)
    (hh : Harmless k.kern.cursor is (getsStart k)) (hn : NoEnter (strokes k.lkp is)) :
    let ss := strokes k.lkp is
    let l := lineAfter (startCount k) ss
    let l' := lineAfter (startCount k) (ss.filter Stroke.isKey)
    (k.checkNl = true → SameLine is k) ∧
    (k.checkNl = false → 0 ∈ l.pageBytes → 0 ∈ l'.pageBytes →
      (SameLine is k ↔ text l.pageBytes = text l'.pageBytes)) ∧
    (k.kern.flag = true → NoBackspace ss → .key 0 ∉ ss → reach ss ≤ 4095 →
      (text l.pageBytes = text l'.pageBytes ↔
        ∀ s ∈ ss.dropWhile Stroke.isKey, s.isKey = false)) ∧
    (k.kern.flag = true → NoOverErase (keysOf ss) → LongestLast (keysBefore ss) →
      KeepsLine (keysBefore ss) (keysAfter ss) → .key 0 ∉ ss → reach ss ≤ 4095 →
      (text l.pageBytes = text l'.pageBytes ↔
        editLine (keysOf ss) = editLine (keysBefore ss))) := by
  intro ss l l'
  have hfirst (hf : k.kern.flag = true) :
      l = lineAfter 1 ss ∧ l' = lineAfter 1 (ss.filter Stroke.isKey) := by
    have hone : startCount k = 1 := if_pos hf
    exact ⟨congrArg (lineAfter · ss) hone, congrArg (lineAfter · _) hone⟩
  refine ⟨?_, ?_, ?_, ?_⟩
  · exact sameLine_stale hr
  · intro hw
    exact sameLine_waiting hr hw hh hn
  · intro hf hback hz hlen
    rw [(hfirst hf).1, (hfirst hf).2]
    exact text_pageBytes_forward (fun n => hh.pages_pos k.lkp n) hback hz hlen
  · intro hf hno hlong hkeep hz hlen
    rw [(hfirst hf).1, (hfirst hf).2]
    exact text_pageBytes_iff (fun n => hh.pages_pos k.lkp n) hno hlong hkeep hz hlen

/-- A page taken between the last character and Enter does no harm. -/
theorem gets_same_late : SameLine [.key 30, .alloc .pageAlloc] idleKeyboard := by
  have hh : Harmless idleKeyboard.kern.cursor [.key 30, .alloc .pageAlloc]
      (getsStart idleKeyboard) := by
    intro before c after hsplit
    match before, hsplit with
    | [], h => cases (List.cons.inj h).1
    | [_], h =>
      obtain ⟨rfl, htail⟩ := List.cons.inj h
      obtain rfl := Interrupt.alloc.inj (List.cons.inj htail).1
      exact ⟨trivial, by decide +kernel, by decide +kernel⟩
    | [_, _], h => simp at h
    | _ :: _ :: _ :: _, h => simp at h
  have hn : NoEnter (strokes idleKeyboard.lkp [.key 30, .alloc .pageAlloc]) := by
    unfold NoEnter
    decide +kernel
  refine ((gets_same_iff _ idleKeyboard idleKeyboard_room hh hn).2.1 rfl ?_ ?_).mpr ?_
  all_goals decide +kernel

/-- A page taken before the first character: the line comes out empty. -/
theorem gets_same_lost : strokes idleKeyboard.lkp [.alloc .pageAlloc, .key 30] =
      [.pages 1, .key 97] ∧ ¬SameLine [.alloc .pageAlloc, .key 30] idleKeyboard := by
  have hstrokes : strokes idleKeyboard.lkp [.alloc .pageAlloc, .key 30] =
      [.pages 1, .key 97] := by decide +kernel
  have halone : strokes idleKeyboard.lkp (keysOnly [.alloc .pageAlloc, .key 30]) =
      [.key 97] := by decide +kernel
  refine ⟨hstrokes, ?_⟩
  rintro ⟨N, h⟩
  obtain ⟨t, k1, k2, h1, h2⟩ := h (max N 4096) (le_max_left _ _)
  have hh : Harmless idleKeyboard.kern.cursor [.alloc .pageAlloc, .key 30]
      (getsStart idleKeyboard) := by
    intro before c after hsplit
    match before, hsplit with
    | [], h =>
      obtain rfl := Interrupt.alloc.inj (List.cons.inj h).1
      exact ⟨trivial, by decide +kernel, by decide +kernel⟩
    | [_], h => cases (List.cons.inj (List.cons.inj h).2).1
    | [_, _], h => simp at h
    | _ :: _ :: _ :: _, h => simp at h
  obtain ⟨k3, h3⟩ := gets_pageBytes [.alloc .pageAlloc, .key 30] idleKeyboard idleKeyboard_room
    rfl hh (by rw [hstrokes, NoEnter]; decide) (by rw [hstrokes]; decide +kernel)
    (max N 4096) (le_max_right _ _)
  obtain ⟨k4, h4⟩ := gets_pageBytes (keysOnly [.alloc .pageAlloc, .key 30]) idleKeyboard
    idleKeyboard_room rfl (harmless_keysOnly _ _ _) (by rw [halone, NoEnter]; decide)
    (by rw [halone]; decide +kernel) (max N 4096) (le_max_right _ _)
  rw [h1, hstrokes] at h3
  rw [h2, halone] at h4
  have hsame : text (lineAfter (startCount idleKeyboard) [.pages 1, .key 97]).pageBytes =
      text (lineAfter (startCount idleKeyboard) [.key 97]).pageBytes :=
    (Prod.mk.inj (Option.some.inj h3)).1.symm.trans (Prod.mk.inj (Option.some.inj h4)).1
  revert hsame
  decide +kernel

end Interference

end SBUnix
