import SBUnix.Process.UserMemory

namespace SBUnix

open ByteMemory Word

def roundUp (a n : Nat) : Nat := roundDown (a+n-1) n

theorem roundUp_page_eq (a : Nat) : roundUp a pageSize = (a+4095)/4096*4096 := by
  rw [roundUp, roundDown_page_eq]
  unfold pageSize
  rw [Nat.add_sub_assoc (by norm_num)]

/-- The tables below the PML4 on the way to the pages numbered `first` to `last`, level by
level. -/
def tablesBetween (first last : Nat) : Nat :=
  (last/2^9 - first/2^9 + 1) + (last/2^18 - first/2^18 + 1) + (last/2^27 - first/2^27 + 1)

/-- The same for `i` pages from `first` on. -/
def tablesFor (first : Nat) : Nat → Nat
  | 0 => 0
  | i+1 => tablesBetween first (first+i)

/-- page_alloc has `n` pages left, below the end of what boot has mapped. -/
structure PagesFor (s : Kernel) (n : Nat) : Prop where
  slots : s.counter + n ≤ numberOfPages
  top : s.cursor + 4096*n ≤ 49*0x200000

/-- What allocate_regions is for. -/
structure RegionsMapped (s t : Kernel) (va len : Nat) : Prop where
  mapped : ∀ x, roundDown va pageSize ≤ x → x < roundUp (va+len) pageSize →
    (t.lookup x).map (List.map (· % 4096)) =
      some [usrPermBits, usrPermBits, usrPermBits, usrPermBits]
  others : ∀ x, Canonical x → x < roundDown va pageSize ∨ roundUp (va+len) pageSize ≤ x →
    t.frameOf x = s.frameOf x

/-- Another page that has the new permission at every level keeps it. -/
theorem Installed.bits_other {s t : Kernel} {virt frame perm n : Nat} {page : Nat → Nat}
    (hm : Installed s t virt frame perm n page) {va : Nat} (hva : pathOf va ≠ pathOf virt)
    (h : (s.lookup va).map (List.map (· % 4096)) = some [perm, perm, perm, perm]) :
    (t.lookup va).map (List.map (· % 4096)) = some [perm, perm, perm, perm] := by
  obtain ⟨hj, hl⟩ := hm.lookup_other hva
  generalize RadixTable.common (pathOf va) (pathOf virt) = j at hj hl
  have hfour : [perm, perm, perm, perm] = List.replicate 4 perm := rfl
  rw [hfour] at h ⊢
  obtain ⟨es, hes, hmod⟩ := Option.map_eq_some_iff.mp h
  have hnew : ((List.range j).map fun k => link page frame k + perm).map (· % 4096) =
      List.replicate j perm := by
    rw [List.map_map]
    apply List.eq_replicate_iff.mpr
    refine ⟨by simp, ?_⟩
    intro e he
    obtain ⟨k, hk, rfl⟩ := List.mem_map.mp he
    exact mod_of_aligned (hm.link_aligned (by have := List.mem_range.mp hk; omega)) hm.small
  have hold : (es.drop j).map (· % 4096) = List.replicate (4-j) perm := by
    rw [List.map_drop, hmod, List.drop_replicate]
  have hsum : j + (4-j) = 4 := by omega
  rw [hl, hes, Option.map_some, Option.map_some, List.map_append, hnew, hold,
    List.replicate_append_replicate, hsum]

/-- The state once `i` pages from page `first` on are mapped. -/
structure Filled (s t : Kernel) (first i : Nat) : Prop where
  wf : WellFormed t
  counter : t.counter ≤ s.counter + tablesFor first i
  cursor : t.cursor + 4096*s.counter = s.cursor + 4096*t.counter
  tables : ∀ j k, i = j+1 → k < 4 → tableAt t ((pathOf (4096*(first+j))).take k) ≠ none
  bits : ∀ x, first ≤ x/4096 → x/4096 < first+i →
    (t.lookup x).map (List.map (· % 4096)) =
      some [usrPermBits, usrPermBits, usrPermBits, usrPermBits]
  others : ∀ x, Canonical x → x/4096 < first ∨ first+i ≤ x/4096 → t.frameOf x = s.frameOf x

theorem tablesFor_mono (first : Nat) {i j : Nat} (h : i ≤ j) :
    tablesFor first i ≤ tablesFor first j := by
  cases i with
  | zero => exact Nat.zero_le _
  | succ i =>
    cases j with
    | zero => omega
    | succ j =>
      simp only [tablesFor, tablesBetween]
      omega

section Loop

variable {s t : Kernel} {first i : Nat}

theorem Filled.start (hw : WellFormed s) : Filled s s first 0 where
  wf := hw
  counter := le_refl _
  cursor := rfl
  tables _ _ h := by omega
  bits _ h h' := by omega
  others _ _ _ := rfl

/-- The next page needs a new table only where it is the first of that table. -/
theorem Filled.few (h : Filled s t first i) {n : Nat}
    (hn : ∀ k < 4, tableAt t ((pathOf (4096*(first+i))).take k) ≠ none → n + k ≤ 3)
    (hle : n ≤ 3) : tablesFor first i + n ≤ tablesFor first (i+1) := by
  cases i with
  | zero =>
    simp only [tablesFor, tablesBetween]
    omega
  | succ j =>
    have hon (k : Nat) (hk : k < 4)
        (he : (pathOf (4096*(first+(j+1)))).take k = (pathOf (4096*(first+j))).take k) :
        n + k ≤ 3 := by
      apply hn k hk
      rw [he]
      exact h.tables j k rfl hk
    simp only [tablesFor, tablesBetween]
    by_cases h9 : (first+(j+1)) / 2^9 = (first+j) / 2^9
    · have := hon 3 (by omega) (pathOf_take_three (by omega))
      omega
    by_cases h18 : (first+(j+1)) / 2^18 = (first+j) / 2^18
    · have := hon 2 (by omega) (pathOf_take_two (by omega))
      omega
    by_cases h27 : (first+(j+1)) / 2^27 = (first+j) / 2^27
    · have := hon 1 (by omega) (pathOf_take_one (by omega))
      omega
    · omega

theorem Filled.pagesLeft (h : Filled s t first i) {num : Nat} (hi : i ≤ num)
    (hr : PagesFor s (tablesFor first num + 3)) : PagesLeft t := by
  have hmono := tablesFor_mono first hi
  have hcounter := h.counter
  constructor
  case slots =>
    have hslots := hr.slots
    omega
  case top =>
    have htop := hr.top
    have hcursor := h.cursor
    linarith

theorem Filled.step (h : Filled s t first i) (hr : PagesLeft t) {addr : Nat} (ha : addr < 2^47)
    (hpage : addr / 4096 = first+i) :
    Filled s (memmap addr pageSize usrPermBits .accessedNotPresent t).2 first (i+1) := by
  obtain ⟨n, page, hm⟩ := accessed_installed h.wf hr addr usrPermBits ha (by decide) (by decide)
  have hpath : pathOf (4096*(first+i)) = pathOf (roundDown addr pageSize) := by
    rw [pathOf_roundDown]
    exact pathOf_congr (by omega)
  have hself {x : Nat} (hx : x / 4096 = first+i) :
      pathOf x = pathOf (roundDown addr pageSize) := by
    rw [pathOf_roundDown]
    exact pathOf_congr (by omega)
  have hother {x : Nat} (hc : Canonical x) (hx : x / 4096 ≠ first+i) :
      pathOf x ≠ pathOf (roundDown addr pageSize) := by
    rw [pathOf_roundDown]
    intro he
    exact hx ((page_eq_of_pathOf hc ha he).trans hpage)
  have hfew := h.few (n := n) (by rw [hpath]; exact hm.few) hm.le
  have hcounter := hm.counter
  have hcursor := hm.cursor
  have hc := h.counter
  have hcur := h.cursor
  constructor
  case wf => exact hm.wellFormed
  case counter => omega
  case cursor => omega
  case tables =>
    intro j k hj hk
    have hji : j = i := by omega
    rw [hji, hpath, hm.tableAt_on hk]
    exact Option.some_ne_none _
  case bits =>
    intro x hx hx'
    by_cases he : x / 4096 = first+i
    · exact hm.bits (hself he)
    · exact hm.bits_other (hother (Or.inl (by omega)) he) (h.bits x hx (by omega))
  case others =>
    intro x hcan hx
    rw [hm.frameOf_other (hother hcan (by omega))]
    exact h.others x hcan (by omega)

end Loop

/-- The calls one after the other, by induction on their number. -/
theorem filled_range {s : Kernel} (hw : WellFormed s) {va num : Nat}
    (hva : va/4096 + num ≤ 2^35) (hr : PagesFor s (tablesFor (va/4096) num + 3)) {i : Nat}
    (hi : i ≤ num) :
    Filled s ((List.range i).foldl (fun k i =>
      (memmap (add64 va (i*pageSize)) pageSize usrPermBits .accessedNotPresent k).2) s)
      (va/4096) i := by
  induction i with
  | zero => exact Filled.start hw
  | succ i ih =>
    have h := ih (by omega)
    have hleft := h.pagesLeft (by omega) hr
    have hadd : add64 va (i*pageSize) = va + i*4096 := by
      apply add64_of_lt
      unfold pageSize
      omega
    rw [List.range_succ, List.foldl_append, List.foldl_cons, List.foldl_nil, hadd]
    exact h.step hleft (by omega) (by omega)

theorem allocateRegions_eq {va len : Nat} (hend : va+len ≤ 2^47)
    (hsz : roundUp (va+len) pageSize - roundDown va pageSize < 2^31) (s : Kernel) :
    allocateRegions va len s = (List.range ((va+len+4095)/4096 - va/4096)).foldl (fun k i =>
      (memmap (add64 va (i*pageSize)) pageSize usrPermBits .accessedNotPresent k).2) s := by
  rw [roundUp_page_eq, roundDown_page_eq] at hsz
  have hround : roundDown (sub64 (add64 (add64 va len) pageSize) 1) pageSize =
      (va+len+4095)/4096*4096 := by
    rw [add64_of_lt va len (by omega), add64_of_lt _ _ (by unfold pageSize; omega),
      sub64_of_le _ _ (by unfold pageSize; omega) (by unfold pageSize; omega)]
    exact roundUp_page_eq (va+len)
  have hsub : sub64 ((va+len+4095)/4096*4096) (va/4096*4096) =
      (va+len+4095)/4096*4096 - va/4096*4096 := sub64_of_le _ _ (by omega) (by omega)
  have hnum : ((va+len+4095)/4096*4096 - va/4096*4096) % 2^32 / pageSize +
      ((va+len+4095)/4096*4096 - va/4096*4096) % 2^32 % pageSize =
      (va+len+4095)/4096 - va/4096 := by
    unfold pageSize
    omega
  rw [allocateRegions, roundDown_page_eq va, hround, hsub, hnum]

/-- allocate_regions maps the pages of its range for reading and writing, and no others. -/
theorem allocateRegions_maps {s : Kernel} (hw : WellFormed s) {va len : Nat}
    (hend : va+len ≤ 2^47) (hsz : roundUp (va+len) pageSize - roundDown va pageSize < 2^31)
    (hr : PagesFor s (tablesFor (va/4096) ((va+len+4095)/4096 - va/4096) + 3)) :
    RegionsMapped s (allocateRegions va len s) va len := by
  have hstart := roundDown_page_eq va
  have hup := roundUp_page_eq (va+len)
  have h := filled_range hw (by omega) hr (le_refl _)
  rw [← allocateRegions_eq hend hsz] at h
  constructor
  case mapped =>
    intro x hx hx'
    exact h.bits x (by omega) (by omega)
  case others =>
    intro x hc hx
    exact h.others x hc (by omega)

theorem allocateRegions_maps_first :
    0x300000 % 4096 = 0 ∧
    RegionsMapped (booted (fun _ => 0) 0x300000)
      (allocateRegions 0x400123 5000 (booted (fun _ => 0) 0x300000)) 0x400123 5000 := by
  have hw := zeroBoot_wellFormed
  have hleft : PagesFor (booted (fun _ => 0) 0x300000)
      (tablesFor (0x400123/4096) ((0x400123+5000+4095)/4096 - 0x400123/4096) + 3) := by
    have hsix : tablesFor (0x400123/4096) ((0x400123+5000+4095)/4096 - 0x400123/4096) + 3 = 6 := by
      decide
    rw [hsix]
    exact ⟨zeroBoot_room.1, zeroBoot_room.2⟩
  refine ⟨by norm_num, allocateRegions_maps hw (by norm_num) ?_ hleft⟩
  rw [roundUp_page_eq, roundDown_page_eq]
  norm_num

end SBUnix
