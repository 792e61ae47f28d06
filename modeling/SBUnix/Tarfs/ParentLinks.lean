import SBUnix.Tarfs.Bounds

namespace SBUnix

open CString

/-- What stands between the slashes of a path. -/
def components (w : Bytes) : List Bytes := (w.splitOn charSlash).filter (· ≠ [])

/-- `d` names the directory that `m` is in. -/
def ParentOf (d m : Member) : Prop :=
  d.kind = .directory ∧ components d.name = (components m.name).dropLast

/-- Each entry that is in a directory comes after the entry of that directory. -/
def ParentsFirst (ms : List Member) : Prop :=
  ∀ (i : Nat) m, ms[i]? = some m → 1 < (components m.name).length →
    ∃ k d, k < i ∧ ms[k]? = some d ∧ ParentOf d m

/-- The two links of entry `i`. -/
def LinkRight (ms : List Member) (t : Tarfs) (i : Nat) (m : Member) : Prop :=
  if (components m.name).length = 1 then (t.dent i).dParent = none ∧ (t.entry i).index = 999
  else ∃ k d, ms[k]? = some d ∧ ParentOf d m ∧ (t.dent i).dParent = some k ∧
    (t.entry i).index = k

def LinksRight (a : Archive) : Prop :=
  ∃ t, initTarfs a.start a.bytes = some t ∧
    ∀ i m, a.members[i]? = some m → LinkRight a.members t i m

/-- A file at the top of the tree: one component, with at most a slash in front. -/
def TopFile (m : Member) : Prop :=
  m.kind = .file ∧ charSlash ∉ m.name.tail ∧ m.name ≠ [charSlash]

/-- Without a slash behind its first byte a name has one component, or is the slash alone. -/
theorem components_length {w : Bytes} (hne : w ≠ []) (hs : charSlash ∉ w.tail) :
    (components w).length = 1 ↔ w ≠ [charSlash] := by
  cases w with
  | nil => exact absurd rfl hne
  | cons c r =>
    rw [List.tail_cons] at hs
    have hr : r.splitOn charSlash = [r] := List.splitOn_eq_singleton hs
    rw [components, List.splitOn_cons_eq_if_modifyHead, hr]
    by_cases hc : c = charSlash
    · subst hc
      by_cases h0 : r = []
      · simp [h0]
      · simp [h0]
    · simp [hc]

section Links

variable {ms : List Member} {t : Tarfs} {i : Nat} {m : Member}

/-- A link to a parent is never right: the index is the entry's own, the dentry's parent is
another row. -/
theorem Linked.no_parent (h : Linked ms t) (hi : ms[i]? = some m) (hlen : ms.length ≤ 16) {k : Nat}
    (hk : (t.dent i).dParent = some k) : (t.entry i).index ≠ k := by
  have hlt := (h.parent i k hk).1
  have hin := (List.getElem?_eq_some_iff.mp hi).1
  rw [h.index i m hi, linkIndex]
  split_ifs
  · omega
  · omega

theorem Linked.linkRight_iff (h : Linked ms t) (hi : ms[i]? = some m) (hlen : ms.length ≤ 16) :
    LinkRight ms t i m ↔ TopFile m ∧ (t.dent i).dParent = none := by
  have hin := (List.getElem?_eq_some_iff.mp hi).1
  rw [LinkRight]
  by_cases htop : m.kind = .file ∧ charSlash ∉ m.name.tail
  · have hone := components_length m.name_ne htop.2
    by_cases hcomp : (components m.name).length = 1
    · rw [if_pos hcomp, h.index i m hi, linkIndex, if_pos htop]
      exact ⟨fun hr => ⟨⟨htop.1, htop.2, hone.mp hcomp⟩, hr.1⟩, fun hr => ⟨hr.2, rfl⟩⟩
    · rw [if_neg hcomp]
      constructor
      · rintro ⟨k, d, -, -, hk, hindex⟩
        exact absurd hindex (h.no_parent hi hlen hk)
      · intro hr
        exact absurd (hone.mpr hr.1.2.2) hcomp
  · have hown : (t.entry i).index = i := by rw [h.index i m hi, linkIndex, if_neg htop]
    refine ⟨fun hr => ?_, fun hr => absurd ⟨hr.1.1, hr.1.2.1⟩ htop⟩
    split_ifs at hr
    · rw [hown] at hr
      have := hr.2
      omega
    · obtain ⟨k, d, -, -, hk, hindex⟩ := hr
      exact absurd hindex (h.no_parent hi hlen hk)

/-- Among files alone there is no parent to be found. -/
theorem Linked.dParent_none (h : Linked ms t) (hall : ∀ m ∈ ms, TopFile m) :
    (t.dent i).dParent = none := by
  cases hk : (t.dent i).dParent with
  | none => rfl
  | some k =>
    obtain ⟨-, d, hd, hdir⟩ := h.parent i k hk
    have hfile := (hall d (List.mem_of_getElem? hd)).1
    rw [hdir] at hfile
    cases hfile

end Links

/-- The parent links that init_tarfs leaves are right exactly in the archives of at most sixteen
files without directories. -/
theorem parentLinks_right_iff (a : Archive) :
    LinksRight a ↔ a.members.length ≤ 16 ∧ ∀ m ∈ a.members, TopFile m := by
  rcases Nat.lt_or_ge 16 a.members.length with hlt | hle
  · have hnone := a.begins.overflows hlt
    constructor
    · rintro ⟨t, ht, -⟩
      rw [hnone] at ht
      cases ht
    · intro h
      omega
  · obtain ⟨t, ht, -, hl⟩ := a.begins.ends hle
    constructor
    · rintro ⟨u, hu, hright⟩
      rw [ht, Option.some_inj] at hu
      subst hu
      refine ⟨hle, fun m hm => ?_⟩
      obtain ⟨i, hi⟩ := List.mem_iff_getElem?.mp hm
      exact ((hl.linkRight_iff hi hle).mp (hright i m hi)).1
    · rintro ⟨-, hall⟩
      refine ⟨t, ht, fun i m hi => (hl.linkRight_iff hi hle).mpr ⟨?_, hl.dParent_none hall⟩⟩
      exact hall m (List.mem_of_getElem? hi)

/-- In the ramdisk of `bin/` and `bin/cat` the index of each entry is its own. -/
theorem parentLinks_wrong :
    ParentsFirst ramdisk.members ∧ ¬ LinksRight ramdisk ∧
      ∃ t, initTarfs ramdisk.start ramdisk.bytes = some t ∧
        (t.entry 0).index = 0 ∧ (t.entry 1).index = 1 := by
  obtain ⟨t, ht, -, hl⟩ := ramdisk.begins.ends (by decide)
  have h0 : ramdisk.members[0]? = some binDir := rfl
  have h1 : ramdisk.members[1]? = some binCat := rfl
  refine ⟨?_, ?_, t, ht, hl.index 0 binDir h0, hl.index 1 binCat h1⟩
  · intro i m hi hlen
    match i with
    | 0 =>
      rw [h0, Option.some_inj] at hi
      subst hi
      exact absurd hlen (by decide)
    | 1 =>
      rw [h1, Option.some_inj] at hi
      subst hi
      exact ⟨0, binDir, by decide, rfl, by unfold ParentOf; decide⟩
    | i+2 => cases hi
  · rintro ⟨u, hu, hright⟩
    rw [ht, Option.some_inj] at hu
    subst hu
    have htop := ((hl.linkRight_iff h0 (by decide)).mp (hright 0 binDir h0)).1
    cases htop.1

end SBUnix
