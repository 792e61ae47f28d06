import Mathlib.Tactic

namespace RadixTable

variable {P E : Type*}

/-- The page reached from `root` by following `path`, one index a level. -/
def table (next : E → Option P) (read : P → Nat → E) (root : P) (path : List Nat) :
    Option P :=
  path.foldl (fun t i => t.bind fun p => next (read p i)) (some root)

/-- The entries met on the way, when every one of them leads on. -/
def walk (next : E → Option P) (read : P → Nat → E) : P → List Nat → Option (List E)
  | _, [] => some []
  | p, i::is => (next (read p i)).bind fun q => (walk next read q is).map (read p i :: ·)

variable (next : E → Option P) (read read' : P → Nat → E) (root : P)

@[simp] theorem table_nil : table next read root [] = some root := rfl

theorem walk_nil : walk next read root [] = some [] := rfl

theorem walk_cons (i : Nat) (is : List Nat) : walk next read root (i::is) =
    (next (read root i)).bind fun q => (walk next read q is).map (read root i :: ·) := rfl

theorem table_snoc (ρ : List Nat) (i : Nat) :
    table next read root (ρ++[i]) =
      (table next read root ρ).bind fun p => next (read p i) := by
  simp [table]

theorem foldl_none (path : List Nat) :
    path.foldl (fun t i => t.bind fun p => next (read p i)) (none : Option P) = none := by
  induction path with
  | nil => rfl
  | cons i is ih => simpa using ih

theorem table_cons (i : Nat) (is : List Nat) :
    table next read root (i::is) =
      (next (read root i)).bind fun q => table next read q is := by
  cases h : next (read root i) with
  | none => simp [table, h, foldl_none]
  | some q => simp [table, h]

theorem table_append (ρ τ : List Nat) :
    table next read root (ρ++τ) =
      (table next read root ρ).bind fun p => table next read p τ := by
  induction ρ generalizing root with
  | nil => simp
  | cons i ρ ih =>
    rw [List.cons_append, table_cons, table_cons]
    cases next (read root i) with
    | none => rfl
    | some q => exact ih q

theorem walk_cons_some {p q : P} {i : Nat} (is : List Nat) (h : next (read p i) = some q) :
    walk next read p (i::is) = (walk next read q is).map (read p i :: ·) := by
  rw [walk_cons, h, Option.bind_some]

theorem walk_cons_none {p : P} {i : Nat} (is : List Nat) (h : next (read p i) = none) :
    walk next read p (i::is) = none := by
  rw [walk_cons, h, Option.bind_none]

theorem walk_length (path : List Nat) (es : List E)
    (h : walk next read root path = some es) : es.length = path.length := by
  induction path generalizing root es with
  | nil => simp_all [walk_nil]
  | cons i is ih =>
    simp only [walk_cons, Option.bind_eq_some_iff, Option.map_eq_some_iff] at h
    obtain ⟨q, _, ds, hd, rfl⟩ := h
    simp [ih q ds hd]

theorem walk_append (ρ τ : List Nat) :
    walk next read root (ρ++τ) =
      (walk next read root ρ).bind fun es => (table next read root ρ).bind fun p =>
        (walk next read p τ).map (es ++ ·) := by
  induction ρ generalizing root with
  | nil => simp [walk_nil]
  | cons i ρ ih =>
    rw [List.cons_append, walk_cons, walk_cons, table_cons]
    cases hn : next (read root i) with
    | none => rfl
    | some q =>
      simp only [Option.bind_some, ih q]
      cases walk next read q ρ with
      | none => rfl
      | some es =>
        cases table next read q ρ with
        | none => rfl
        | some p => simp [Option.map_map, Function.comp_def]

theorem walk_isSome_iff (path : List Nat) :
    (walk next read root path).isSome = (table next read root path).isSome := by
  induction path generalizing root with
  | nil => rfl
  | cons i is ih =>
    rw [walk_cons, table_cons]
    cases next (read root i) with
    | none => rfl
    | some q => simpa using ih q

/-- The last entry of a walk names the page the path leads to. -/
theorem walk_map_last (page : E → P) (hpage : ∀ e q, next e = some q → page e = q) (d : E)
    (i : Nat) (path : List Nat) :
    (walk next read root (i::path)).map (fun es => page (es.getLastD d)) =
      table next read root (i::path) := by
  induction path generalizing root i with
  | nil =>
    rw [walk_cons, table_cons]
    cases h : next (read root i) with
    | none => rfl
    | some q => simpa [walk_cons, walk_nil] using hpage _ q h
  | cons j path ih =>
    rw [walk_cons, table_cons]
    cases h : next (read root i) with
    | none => rfl
    | some q =>
      rw [Option.bind_some, Option.bind_some, ← ih q j, Option.map_map]
      cases hw : walk next read q (j::path) with
      | none => rfl
      | some es =>
        have hlen := walk_length next read q _ es hw
        obtain ⟨e, es, rfl⟩ := List.exists_cons_of_length_eq_add_one hlen
        simp

/-- Two memories that agree on every page a walk can reach give the same walk. -/
theorem walk_congr (A : P → Prop) (I : Nat → Prop) (hA : ∀ e q, next e = some q → A q)
    (h : ∀ p i, A p → I i → read p i = read' p i) (path : List Nat) (hp : A root)
    (hi : ∀ i ∈ path, I i) : walk next read root path = walk next read' root path := by
  induction path generalizing root with
  | nil => rfl
  | cons i is ih =>
    rw [walk_cons, walk_cons, h root i hp (hi i (by simp))]
    cases hn : next (read' root i) with
    | none => rfl
    | some q =>
      rw [Option.bind_some, Option.bind_some,
        ih q (hA _ _ hn) (fun j hj => hi j (List.mem_cons_of_mem _ hj))]

/-- A walk only depends on the slots it passes. -/
theorem walk_congr_table (path : List Nat)
    (h : ∀ ρ i, ρ++[i] <+: path → ∀ p, table next read root ρ = some p → read' p i = read p i) :
    walk next read' root path = walk next read root path := by
  induction path generalizing root with
  | nil => rfl
  | cons i is ih =>
    have h0 : read' root i = read root i := h [] i (by simp) root rfl
    rw [walk_cons, walk_cons, h0]
    cases hn : next (read root i) with
    | none => rfl
    | some q =>
      have hrest := ih q fun ρ j hp p ht => h (i::ρ) j (by simpa using hp) p (by
        rw [table_cons, hn]
        exact ht)
      rw [Option.bind_some, Option.bind_some, hrest]

/-- The page a path leads to only depends on where the slots it passes lead. -/
theorem table_congr_table (path : List Nat)
    (h : ∀ ρ i, ρ++[i] <+: path → ∀ p, table next read root ρ = some p →
      next (read' p i) = next (read p i)) :
    table next read' root path = table next read root path := by
  induction path generalizing root with
  | nil => rfl
  | cons i is ih =>
    have h0 : next (read' root i) = next (read root i) := h [] i (by simp) root rfl
    rw [table_cons, table_cons, h0]
    cases hn : next (read root i) with
    | none => rfl
    | some q => exact ih q fun ρ j hp p ht => h (i::ρ) j (by simpa using hp) p (by
        rw [table_cons, hn]
        exact ht)

/-- The slot `i₀` of the root leads back to the root, and every other slot leads where it did: a
path leads where it led without its leading indices `i₀`. -/
theorem table_loop {I : Nat → Prop} {n i₀ : Nat} (hloop : next (read' root i₀) = some root)
    (hkept : ∀ ρ i p, (∀ j ∈ ρ++[i], I j) → ρ.length < n → (ρ = [] → i ≠ i₀) →
      table next read root ρ = some p → next (read' p i) = next (read p i))
    (path : List Nat) (hI : ∀ j ∈ path, I j) (hlen : path.length ≤ n) :
    table next read' root path = table next read root (path.dropWhile (· = i₀)) := by
  induction path with
  | nil => rfl
  | cons i path ih =>
    rw [List.length_cons] at hlen
    by_cases hi : i = i₀
    · rw [hi, table_cons, hloop, Option.bind_some, List.dropWhile_cons_of_pos (by simp)]
      exact ih (fun j hj => hI j (List.mem_cons_of_mem i hj)) (by omega)
    · rw [List.dropWhile_cons_of_neg (by simpa using hi)]
      apply table_congr_table
      rintro ρ j ⟨υ, hυ⟩ p hp
      refine hkept ρ j p (fun e he => hI e (hυ ▸ List.mem_append_left υ he)) ?_ ?_ hp
      · have := congrArg List.length hυ
        simp only [List.length_append, List.length_cons, List.length_nil] at this
        omega
      · rintro rfl
        have := (List.cons.inj hυ).1
        rwa [this]

/-- `read'` is `read` with the path `π` put in: `page k` is the table at depth `k`,
reused where `read` already had one and blank where it had none, and `entry k` is what
the slot `π[k]` of it now holds. `S` is the set of paths that count. -/
structure Graft (S : List Nat → Prop) (π : List Nat) (page : Nat → P) (entry : Nat → E) :
    Prop where
  zero : page 0 = root
  apart : ∀ k ρ, k < π.length → S ρ → ρ.length < π.length →
    table next read root ρ = some (page k) → ρ = π.take k
  old : ∀ k, k < π.length → table next read root (π.take k) = some (page k) ∨
    table next read root (π.take k) = none
  written : ∀ k (h : k < π.length), read' (page k) (π.get ⟨k,h⟩) = entry k
  linked : ∀ k, k+1 < π.length → next (entry k) = some (page (k+1))
  kept : ∀ k (h : k < π.length) i, S (π.take k ++ [i]) → i ≠ π.get ⟨k,h⟩ →
    table next read root (π.take k) = some (page k) → read' (page k) i = read (page k) i
  blank : ∀ k (h : k < π.length) i, S (π.take k ++ [i]) → i ≠ π.get ⟨k,h⟩ →
    table next read root (π.take k) = none → next (read' (page k) i) = none
  frame : ∀ ρ p i, S (ρ++[i]) → ρ.length < π.length → table next read root ρ = some p →
    (∀ k, k < π.length → p ≠ page k) → read' p i = read p i

theorem snoc_leaves {σ π : List Nat} {i : Nat} (hi : π[σ.length]? ≠ some i) :
    ¬(σ++[i]) <+: π := by
  intro h
  apply hi
  have := List.prefix_iff_getElem?.mp h σ.length (by simp)
  simpa using this

section Graft

variable {next read read' root} {S : List Nat → Prop} {π : List Nat} {page : Nat → P}
  {entry : Nat → E} (g : Graft next read read' root S π page entry)
include g

/-- Along the path itself the new tables are the listed ones. -/
theorem Graft.table_take (k : Nat) (hk : k < π.length) :
    table next read' root (π.take k) = some (page k) := by
  induction k with
  | zero => simp [g.zero]
  | succ k ih =>
    rw [List.take_succ_eq_append_getElem (by omega), table_snoc, ih (by omega)]
    have hw := g.written k (by omega)
    simp only [List.get_eq_getElem] at hw
    rw [Option.bind_some, hw, g.linked k hk]

theorem Graft.walk_take (k : Nat) (hk : k ≤ π.length)
    (hleaf : ∀ j, j < k → (next (entry j)).isSome) :
    walk next read' root (π.take k) = some ((List.range k).map entry) := by
  induction k with
  | zero => simp [walk_nil]
  | succ k ih =>
    rw [List.take_succ_eq_append_getElem (by omega), walk_append,
      ih (by omega) (fun j hj => hleaf j (by omega)), g.table_take k (by omega)]
    have hw := g.written k (by omega)
    simp only [List.get_eq_getElem] at hw
    obtain ⟨q, hq⟩ := Option.isSome_iff_exists.mp (hleaf k (by omega))
    simp [walk_cons, walk_nil, hw, hq, List.range_succ]

private theorem Graft.off_page (ρ : List Nat) (p : P) (hS : S ρ) (hl : ρ.length < π.length)
    (hn : ¬ρ <+: π) (ht : table next read root ρ = some p) :
    ∀ k, k < π.length → p ≠ page k := by
  rintro k hk rfl
  apply hn
  rw [g.apart k ρ hk hS hl ht]
  exact List.take_prefix k π

/-- The slot in which a path leaves `π` reads as before, or was and stays a dead end. -/
theorem Graft.turn (σ : List Nat) (i : Nat) (hl : σ.length < π.length) (hp : σ <+: π)
    (hi : i ≠ π.get ⟨σ.length,hl⟩) (hst : S (σ++[i])) :
    table next read root σ = some (page σ.length) ∧
        read' (page σ.length) i = read (page σ.length) i ∨
      table next read root σ = none ∧ next (read' (page σ.length) i) = none := by
  have hσ : π.take σ.length = σ := (List.prefix_iff_eq_take.mp hp).symm
  have hst' : S (π.take σ.length ++ [i]) := by rwa [hσ]
  rcases g.old σ.length hl with h | h
  · have hk := g.kept σ.length hl i hst' hi h
    exact Or.inl ⟨by rwa [hσ] at h, hk⟩
  · have hb := g.blank σ.length hl i hst' hi h
    exact Or.inr ⟨by rwa [hσ] at h, hb⟩

variable (hS : ∀ a b, S (a++b) → S a)
include hS

/-- Below a table off the path nothing has changed. -/
theorem Graft.slot_off {τ ρ : List Nat} {p : P} (hst : S (ρ++τ))
    (hl : ρ.length + τ.length ≤ π.length) (hn : ¬ρ <+: π)
    (ht : table next read root ρ = some p) (σ : List Nat) (i : Nat) (hp : σ++[i] <+: τ) (q : P)
    (hq : table next read p σ = some q) : read' q i = read q i := by
  obtain ⟨υ, rfl⟩ := hp
  have hroot : table next read root (ρ++σ) = some q := by
    rw [table_append, ht]
    exact hq
  have hS' : S (ρ++σ++[i]) := hS _ υ (by simpa using hst)
  have hlen : (ρ++σ).length < π.length := by
    simp only [List.length_append, List.length_singleton] at hl ⊢
    omega
  have hn' : ¬ρ++σ <+: π := fun h => hn ((List.prefix_append ρ σ).trans h)
  exact g.frame _ q i hS' hlen hroot (g.off_page _ q (hS _ _ hS') hlen hn' hroot)

theorem Graft.walk_off (τ ρ : List Nat) (p : P) (hst : S (ρ++τ))
    (hl : ρ.length + τ.length ≤ π.length) (hn : ¬ρ <+: π)
    (ht : table next read root ρ = some p) :
    walk next read' p τ = walk next read p τ :=
  walk_congr_table next read read' p τ (g.slot_off hS hst hl hn ht)

theorem Graft.table_off (τ ρ : List Nat) (p : P) (hst : S (ρ++τ))
    (hl : ρ.length + τ.length ≤ π.length) (hn : ¬ρ <+: π)
    (ht : table next read root ρ = some p) :
    table next read' p τ = table next read p τ :=
  table_congr_table next read read' p τ fun σ i hp q hq =>
    congrArg next (g.slot_off hS hst hl hn ht σ i hp q hq)

/-- A path that leaves `π` after `σ` meets the new entries up to there and its own
old ones from there on. -/
theorem Graft.walk_diverge (σ τ : List Nat) (i : Nat) (hl : σ.length < π.length)
    (hp : σ <+: π) (hi : i ≠ π.get ⟨σ.length,hl⟩) (hst : S (σ++i::τ))
    (hlen : (σ++i::τ).length ≤ π.length) :
    walk next read' root (σ++i::τ) = (walk next read root (σ++i::τ)).map
      fun es => (List.range σ.length).map entry ++ es.drop σ.length := by
  have hσ : π.take σ.length = σ := (List.prefix_iff_eq_take.mp hp).symm
  have hsi : S (σ++[i]) := hS _ τ (by simpa using hst)
  have hleaf : ∀ j, j < σ.length → (next (entry j)).isSome := by
    intro j hj
    rw [g.linked j (by omega)]
    rfl
  have hw := g.walk_take σ.length hl.le hleaf
  have ht := g.table_take σ.length hl
  rw [hσ] at hw ht
  rw [walk_append, walk_append, hw, ht, Option.bind_some, Option.bind_some]
  rcases g.turn σ i hl hp hi hsi with ⟨hold, hr⟩ | ⟨hold, hr⟩
  · have hsome : (walk next read root σ).isSome := by rw [walk_isSome_iff, hold]; rfl
    obtain ⟨ds, hd⟩ := Option.isSome_iff_exists.mp hsome
    have hdl := walk_length next read root σ ds hd
    rw [hd, hold, Option.bind_some, Option.bind_some, walk_cons, walk_cons, hr]
    cases hq : next (read (page σ.length) i) with
    | none => rfl
    | some q =>
      have hnp : ¬(σ++[i]) <+: π :=
        snoc_leaves (by simpa [List.getElem?_eq_getElem hl] using hi.symm)
      have hsub := g.walk_off hS τ (σ++[i]) q (by simpa using hst)
        (by simp at hlen ⊢; omega) hnp (by rw [table_snoc, hold]; exact hq)
      simp only [Option.bind_some, hsub, Option.map_map]
      cases walk next read q τ with
      | none => rfl
      | some bs => simp [hdl]
  · rw [walk_cons, hr, hold]
    cases walk next read root σ <;> rfl

theorem Graft.table_diverge (σ τ : List Nat) (i : Nat) (hl : σ.length < π.length)
    (hp : σ <+: π) (hi : i ≠ π.get ⟨σ.length,hl⟩) (hst : S (σ++i::τ))
    (hlen : (σ++i::τ).length ≤ π.length) :
    table next read' root (σ++i::τ) = table next read root (σ++i::τ) := by
  have hσ : π.take σ.length = σ := (List.prefix_iff_eq_take.mp hp).symm
  have hsi : S (σ++[i]) := hS _ τ (by simpa using hst)
  have ht := g.table_take σ.length hl
  rw [hσ] at ht
  rw [table_append, table_append, ht, Option.bind_some]
  rcases g.turn σ i hl hp hi hsi with ⟨hold, hr⟩ | ⟨hold, hr⟩
  · rw [hold, Option.bind_some, table_cons, table_cons, hr]
    cases hq : next (read (page σ.length) i) with
    | none => rfl
    | some q =>
      have hnp : ¬(σ++[i]) <+: π :=
        snoc_leaves (by simpa [List.getElem?_eq_getElem hl] using hi.symm)
      exact g.table_off hS τ (σ++[i]) q (by simpa using hst)
        (by simp at hlen ⊢; omega) hnp (by rw [table_snoc, hold]; exact hq)
  · rw [table_cons, hr, hold]
    rfl

end Graft

/-- `read'` is `read` with the tables of the path `π` linked in by other slots: `page k` is the
table at depth `k` of `π`, reused where `read` already had one and blank where it had none, and
the slot `slot k` of it now leads to the next. `I` says which indices count. -/
structure Splice (I : Nat → Prop) (π : List Nat) (slot : Nat → Nat) (page : Nat → P) : Prop where
  zero : page 0 = root
  index : ∀ i ∈ π, I i
  apart : ∀ k ρ, k < π.length → (∀ i ∈ ρ, I i) → ρ.length < π.length →
    table next read root ρ = some (page k) → ρ = π.take k
  old : ∀ k < π.length, table next read root (π.take k) = some (page k) ∨
    table next read root (π.take k) = none
  written : ∀ k < π.length, next (read' (page k) (slot k)) = some (page (k+1))
  kept : ∀ k < π.length, ∀ i, I i → i ≠ slot k →
    table next read root (π.take k) = some (page k) →
    next (read' (page k) i) = next (read (page k) i)
  blank : ∀ k < π.length, ∀ i, I i → i ≠ slot k → table next read root (π.take k) = none →
    next (read' (page k) i) = none
  frame : ∀ ρ p i, (∀ j ∈ ρ, I j) → I i → ρ.length < π.length →
    table next read root ρ = some p → (∀ k < π.length, p ≠ page k) →
    next (read' p i) = next (read p i)

/-- Where a path leads once the tables of `π` are linked in, from the one at depth `k` on: along
the new slot, and along that of `π` where there is a table already, to the table at depth `k+1`;
else as before. -/
def spliced (π : List Nat) (slot : Nat → Nat) (leaf : P) : Nat → List Nat → Option P
  | _, [] => some leaf
  | k, i::τ =>
    if i = slot k ∨ π[k]? = some i ∧ k+1 < π.length ∧
        (table next read root (π.take (k+1))).isSome then
      spliced π slot leaf (k+1) τ
    else table next read root (π.take k ++ i::τ)

section Splice

variable {next read read' root} {I : Nat → Prop} {π : List Nat} {slot : Nat → Nat}
  {page : Nat → P} (g : Splice next read read' root I π slot page)
include g

theorem Splice.table_off {τ ρ : List Nat} {p : P} (hρ : ∀ i ∈ ρ, I i) (hτ : ∀ i ∈ τ, I i)
    (hl : ρ.length + τ.length ≤ π.length) (hn : ¬ρ <+: π)
    (ht : table next read root ρ = some p) :
    table next read' p τ = table next read p τ := by
  apply table_congr_table
  rintro σ i ⟨υ, rfl⟩ q hq
  have hroot : table next read root (ρ++σ) = some q := by
    rw [table_append, ht]
    exact hq
  have hlen : (ρ++σ).length < π.length := by
    simp only [List.length_append, List.length_singleton] at hl ⊢
    omega
  have hI : ∀ j ∈ ρ++σ, I j := by
    intro j hj
    rcases List.mem_append.mp hj with h | h
    · exact hρ j h
    · exact hτ j (by simp [h])
  refine g.frame _ q i hI (hτ i (by simp)) hlen hroot ?_
  rintro k hk rfl
  apply hn
  have htake := g.apart k _ hk hI hlen hroot
  exact (List.prefix_append ρ σ).trans (htake ▸ List.take_prefix k π)

/-- Where a path turns away from `π`, at an old table. -/
theorem Splice.table_turn {k i : Nat} (hk : k < π.length) (hi : I i) (hπ : π[k]? ≠ some i)
    (hold : table next read root (π.take k) = some (page k)) {q : P}
    (hq : next (read (page k) i) = some q) {τ : List Nat} (hτ : ∀ j ∈ τ, I j)
    (hlen : k+1 + τ.length ≤ π.length) : table next read' q τ = table next read q τ := by
  have hlk : (π.take k).length = k := List.length_take_of_le hk.le
  apply g.table_off (ρ := π.take k ++ [i])
  · intro j hj
    rcases List.mem_append.mp hj with h | h
    · exact g.index j (List.mem_of_mem_take h)
    · exact List.mem_singleton.mp h ▸ hi
  · exact hτ
  · rw [List.length_append, hlk, List.length_singleton]
    exact hlen
  · apply snoc_leaves
    rwa [hlk]
  · rw [table_snoc, hold, Option.bind_some, hq]

/-- By induction on the path that is left. -/
theorem Splice.table_page (τ : List Nat) (k : Nat) (hτ : ∀ i ∈ τ, I i)
    (hlen : k + τ.length = π.length) :
    table next read' (page k) τ = spliced next read root π slot (page π.length) k τ := by
  induction τ generalizing k with
  | nil =>
    obtain rfl : k = π.length := hlen
    rfl
  | cons i τ ih =>
    rw [List.length_cons] at hlen
    have hk : k < π.length := by omega
    have hi : I i := hτ i List.mem_cons_self
    have hrestI : ∀ j ∈ τ, I j := fun j hj => hτ j (List.mem_cons_of_mem i hj)
    have hrest := ih (k+1) hrestI (by omega)
    have htake : π.take (k+1) = π.take k ++ [π.get ⟨k,hk⟩] := List.take_succ_eq_append_getElem hk
    rw [table_cons, spliced]
    by_cases hslot : i = slot k
    · rw [if_pos (Or.inl hslot), hslot, g.written k hk, Option.bind_some, hrest]
    · rcases g.old k hk with hold | hnone
      · have hsplit : table next read root (π.take k ++ i::τ) =
            (next (read (page k) i)).bind fun q => table next read q τ := by
          rw [table_append, hold, Option.bind_some, table_cons]
        rw [g.kept k hk i hi hslot hold, hsplit]
        by_cases hπ : π[k]? = some i
        · have hget : π.get ⟨k,hk⟩ = i := by
            rw [List.getElem?_eq_getElem hk, Option.some_inj] at hπ
            exact hπ
          have hnext : table next read root (π.take (k+1)) = next (read (page k) i) := by
            rw [htake, hget, table_snoc, hold, Option.bind_some]
          by_cases hlast : k+1 < π.length
          · rcases g.old (k+1) hlast with hq | hq
            · rw [if_pos (Or.inr ⟨hπ, hlast, by rw [hq]; rfl⟩), ← hnext, hq, Option.bind_some, hrest]
            · rw [if_neg (by simp [hslot, hq]), ← hnext, hq, Option.bind_none, Option.bind_none]
          · obtain rfl : τ = [] := List.eq_nil_of_length_eq_zero (by omega)
            rw [if_neg (by simp [hslot, hlast])]
            rfl
        · rw [if_neg (by simp [hslot, hπ])]
          cases hq : next (read (page k) i) with
          | none => rfl
          | some q =>
            have hsub := g.table_turn hk hi hπ hold hq hrestI (by omega)
            rw [Option.bind_some, Option.bind_some, hsub]
      · have hold : table next read root (π.take (k+1)) = none := by
          rw [htake, table_snoc, hnone, Option.bind_none]
        rw [g.blank k hk i hi hslot hnone, if_neg (by simp [hslot, hold]), table_append, hnone]
        rfl

/-- Every path of full length. -/
theorem Splice.table_eq (τ : List Nat) (hτ : ∀ i ∈ τ, I i) (hlen : τ.length = π.length) :
    table next read' root τ = spliced next read root π slot (page π.length) 0 τ := by
  have h := g.table_page τ 0 hτ (by omega)
  rwa [g.zero] at h

end Splice

section Spliced

variable {next read root} {π : List Nat} {slot : Nat → Nat} {leaf : P}

theorem spliced_along (σ τ : List Nat) (k : Nat)
    (h : ∀ l < σ.length, σ[l]? = some (slot (k+l))) :
    spliced next read root π slot leaf k (σ++τ) =
      spliced next read root π slot leaf (k+σ.length) τ := by
  induction σ generalizing k with
  | nil => rfl
  | cons i σ ih =>
    have hi : i = slot k := by simpa using h 0 (by simp)
    have hrest : ∀ l < σ.length, σ[l]? = some (slot (k+1+l)) := by
      intro l hl
      have := h (l+1) (by simpa using hl)
      rwa [List.getElem?_cons_succ, Nat.add_comm l 1, ← Nat.add_assoc] at this
    rw [List.cons_append, spliced, if_pos (Or.inl hi), ih (k+1) hrest, List.length_cons]
    congr 1
    omega

variable {β : List Nat} {j : Nat} (hβ : ∀ l < β.length, β[l]? = some (slot l))
  (hlen : β.length = π.length) (hj : π.take j = β.take j)
include hβ

theorem spliced_self : spliced next read root π slot leaf 0 β = some leaf := by
  have h : spliced next read root π slot leaf 0 (β++[]) =
      spliced next read root π slot leaf (0+β.length) [] := spliced_along β [] 0 (by simpa using hβ)
  rwa [List.append_nil] at h

include hlen hj

/-- A table already at depth `j+1`: the path into it that goes on along the slots. -/
theorem spliced_present (hlt : j+1 < π.length)
    (h : (table next read root (π.take (j+1))).isSome) :
    spliced next read root π slot leaf 0 (π.take (j+1) ++ β.drop (j+1)) = some leaf := by
  have htake : π.take (j+1) = β.take j ++ [π.get ⟨j, by omega⟩] := by
    rw [← hj]
    exact List.take_succ_eq_append_getElem (by omega)
  have hget : π[j]? = some (π.get ⟨j, by omega⟩) := List.getElem?_eq_getElem (by omega)
  have hfirst : ∀ l < (β.take j).length, (β.take j)[l]? = some (slot (0+l)) := by
    intro l hl
    rw [List.length_take] at hl
    rw [List.getElem?_take, if_pos (by omega), hβ l (by omega), Nat.zero_add]
  have hlast : ∀ l < (β.drop (j+1)).length, (β.drop (j+1))[l]? = some (slot (j+1+l)) := by
    intro l hl
    rw [List.length_drop] at hl
    rw [List.getElem?_drop, hβ _ (by omega)]
  have hlj : (β.take j).length = j := by
    rw [List.length_take]
    omega
  have hend : spliced next read root π slot leaf (j+1) (β.drop (j+1) ++ []) =
      spliced next read root π slot leaf (j+1 + (β.drop (j+1)).length) [] :=
    spliced_along _ [] (j+1) hlast
  rw [List.append_nil] at hend
  rw [htake, List.append_assoc, spliced_along _ _ 0 hfirst, hlj, Nat.zero_add,
    List.singleton_append, spliced, if_pos (Or.inr ⟨hget, hlt, h⟩), hend]
  rfl

omit hβ hlen hj in
theorem table_take_none (h : table next read root (π.take (j+1)) = none) {m : Nat} (hm : j < m)
    (υ : List Nat) : table next read root (π.take m ++ υ) = none := by
  rw [← List.take_append_drop (j+1) (π.take m), List.take_take, Nat.min_eq_left hm,
    List.append_assoc, table_append, h, Option.bind_none]

omit hlen in
/-- No table there yet: a path that leaves the slots leads where it did. -/
theorem spliced_turn (h : table next read root (π.take (j+1)) = none) {i k : Nat}
    (hk : k < β.length) (hi : i ≠ slot k) (τ : List Nat) :
    spliced next read root π slot leaf k (i::τ) = table next read root (π.take k ++ i::τ) := by
  rw [spliced, if_neg]
  intro hor
  obtain ⟨hπ, -, hsome⟩ := hor.resolve_left hi
  by_cases hkj : k < j
  · have hsame := congrArg (fun l => l[k]?) hj
    simp only [List.getElem?_take, hkj, if_true, hβ k hk, hπ, Option.some_inj] at hsame
    exact hi hsame
  · have hnone := table_take_none h (show j < k+1 by omega) []
    rw [List.append_nil] at hnone
    rw [hnone] at hsome
    cases hsome

/-- No table there yet: of the paths that share `j+1` levels with the slots only the slots
themselves lead on, and all others lead where they did. -/
theorem spliced_absent (h : table next read root (π.take (j+1)) = none) (τ : List Nat) (k : Nat)
    (hτ : k + τ.length = β.length) :
    spliced next read root π slot leaf k τ =
      if τ = β.drop k then some leaf
      else if (β.take k ++ τ).take (j+1) = β.take (j+1) then none
      else table next read root (π.take k ++ τ) := by
  have hshare (m : Nat) (hm : j < m) (hmβ : m ≤ β.length) (υ : List Nat) :
      (β.take m ++ υ).take (j+1) = β.take (j+1) := by
    have hlm : (β.take m).length = m := by simpa using hmβ
    rw [List.take_append_of_le_length (by omega), List.take_take, Nat.min_eq_left hm]
  -- induction on what is left of the path
  induction τ generalizing k with
  | nil =>
    have hk : β.drop k = [] := List.drop_eq_nil_of_le (by simp at hτ; omega)
    rw [hk, if_pos rfl]
    rfl
  | cons i τ ih =>
    rw [List.length_cons] at hτ
    have hk : k < β.length := by omega
    have hslot := hβ k hk
    have hdrop : β.drop k = slot k :: β.drop (k+1) := by
      rw [List.getElem?_eq_getElem hk, Option.some_inj] at hslot
      rw [List.drop_eq_getElem_cons hk, hslot]
    rw [hdrop]
    by_cases hi : i = slot k
    · subst hi
      have htake : β.take (k+1) ++ τ = β.take k ++ slot k :: τ := by
        rw [List.take_add_one, hslot]
        simp
      rw [spliced, if_pos (Or.inl rfl), ih (k+1) (by omega), htake]
      by_cases hkj : k < j
      · have hsame : π[k]? = some (slot k) := by
          have := congrArg (fun l => l[k]?) hj
          simpa [List.getElem?_take, hkj, hslot] using this
        have hπ : π.take (k+1) ++ τ = π.take k ++ slot k :: τ := by
          rw [List.take_add_one, hsame]
          simp
        simp [hπ]
      · have := hshare (k+1) (by omega) hk τ
        rw [htake] at this
        simp [this]
    · rw [spliced_turn hβ hj h hk hi, if_neg (by simp [hi])]
      by_cases hkj : j < k
      · rw [if_pos (hshare k hkj hk.le _), table_take_none h hkj]
      · rw [if_neg]
        intro he
        have := congrArg (fun l => l[k]?) he
        have hlk : (β.take k).length = k := by simpa using hk.le
        have hkj' : k < j+1 := by omega
        simp [hslot, hlk, hkj'] at this
        exact hi this

end Spliced

/-- The number of levels on which two paths agree. -/
def common : List Nat → List Nat → Nat
  | i::ρ, j::π => if i = j then common ρ π + 1 else 0
  | _, _ => 0

theorem common_turn (σ : List Nat) {i j : Nat} (hij : i ≠ j) (τ υ : List Nat) :
    common (σ++i::τ) (σ++j::υ) = σ.length := by
  induction σ with
  | nil => simp [common, hij]
  | cons a σ ih => simp [common, ih]

theorem common_spec {ρ π : List Nat} (hlen : ρ.length = π.length) (hne : ρ ≠ π) :
    common ρ π < π.length ∧ ρ.take (common ρ π) = π.take (common ρ π) ∧
    ρ[common ρ π]? ≠ π[common ρ π]? := by
  induction ρ generalizing π with
  | nil =>
    cases π with
    | nil => exact absurd rfl hne
    | cons y π => simp at hlen
  | cons x ρ ih =>
    cases π with
    | nil => simp at hlen
    | cons y π =>
      rw [common]
      by_cases hxy : x = y
      · subst hxy
        obtain ⟨h1, h2, h3⟩ := ih (by simpa using hlen) (by simpa using hne)
        simpa [h2] using ⟨h1, h3⟩
      · simp [hxy]

/-- Two paths of which neither is a prefix of the other part at some slot. -/
theorem exists_turn (ρ π : List Nat) (hl : ρ.length ≤ π.length) (hn : ¬ρ <+: π) :
    ∃ σ i τ, ∃ h : σ.length < π.length,
      ρ = σ++i::τ ∧ σ <+: π ∧ i ≠ π.get ⟨σ.length,h⟩ := by
  induction ρ generalizing π with
  | nil => simp at hn
  | cons x ρ ih =>
    cases π with
    | nil => simp at hl
    | cons y π =>
      by_cases hxy : x = y
      · subst hxy
        have hn' : ¬ρ <+: π := fun h => hn (by simpa using h)
        obtain ⟨σ, i, τ, h, he, hp, hi⟩ := ih π (by simpa using hl) hn'
        exact ⟨x::σ, i, τ, by simpa using h, by simp [he], by simpa using hp, by simpa using hi⟩
      · exact ⟨[], x, ρ, by simp, rfl, by simp, by simpa using hxy⟩

end RadixTable
