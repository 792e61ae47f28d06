import Mathlib.Tactic

namespace BumpAllocator

/-- The regions that requests of these sizes get from a pointer at `base` that only moves
up: start and length. -/
def regions (base : Nat) : List Nat → List (Nat × Nat)
  | [] => []
  | n::ns => (base, n) :: regions (base+n) ns

theorem regions_append (base : Nat) (ns ks : List Nat) :
    regions base (ns++ks) = regions base ns ++ regions (base + ns.sum) ks := by
  induction ns generalizing base with
  | nil => simp [regions]
  | cons n ns ih => simp [regions, ih, Nat.add_assoc]

theorem regions_bounds (base : Nat) (ns : List Nat) (r : Nat × Nat) (h : r ∈ regions base ns) :
    base ≤ r.1 ∧ r.1 + r.2 ≤ base + ns.sum := by
  induction ns generalizing base with
  | nil => simp [regions] at h
  | cons n ns ih =>
    rw [regions, List.mem_cons] at h
    rw [List.sum_cons]
    rcases h with rfl | h
    · exact ⟨le_refl _, by omega⟩
    · have := ih (base+n) h
      omega

theorem regions_map_snd (base : Nat) (ns : List Nat) : (regions base ns).map Prod.snd = ns := by
  induction ns generalizing base with
  | nil => rfl
  | cons n ns ih => rw [regions, List.map_cons, ih]

/-- Two regions share no address. -/
def Disjoint (r s : Nat × Nat) : Prop := r.1 + r.2 ≤ s.1 ∨ s.1 + s.2 ≤ r.1

theorem regions_disjoint (base : Nat) (ns : List Nat) :
    (regions base ns).Pairwise Disjoint := by
  induction ns generalizing base with
  | nil => exact List.Pairwise.nil
  | cons n ns ih =>
    rw [regions, List.pairwise_cons]
    refine ⟨fun r hr => Or.inl ?_, ih _⟩
    exact (regions_bounds _ ns r hr).1

section Draws

variable {α : Type*} (next : α → α)

/-- What `n` draws from a cursor at `a` hand out, newest first. -/
def draws (a : α) : Nat → List α
  | 0 => []
  | n+1 => next^[n] a :: draws a n

theorem draws_add (a : α) (n k : Nat) :
    draws next a (n+k) = draws next (next^[n] a) k ++ draws next a n := by
  induction k with
  | zero => rfl
  | succ k ih =>
    rw [← Nat.add_assoc, draws, draws, ih, Nat.add_comm n k, Function.iterate_add_apply]
    rfl

theorem mem_draws (a x : α) (n : Nat) : x ∈ draws next a n ↔ ∃ j < n, next^[j] a = x := by
  induction n with
  | zero => simp [draws]
  | succ n ih =>
    rw [draws, List.mem_cons, ih]
    constructor
    · rintro (rfl | ⟨j, hj, hx⟩)
      · exact ⟨n, by omega, rfl⟩
      · exact ⟨j, by omega, hx⟩
    · rintro ⟨j, hj, hx⟩
      rcases Nat.lt_succ_iff_lt_or_eq.mp hj with hlt | rfl
      · exact Or.inr ⟨j, hlt, hx⟩
      · exact Or.inl hx.symm

theorem draws_nodup (a : α) (n : Nat)
    (h : ∀ i < n, ∀ j < i, next^[i] a ≠ next^[j] a) : (draws next a n).Nodup := by
  induction n with
  | zero => exact List.nodup_nil
  | succ n ih =>
    rw [draws, List.nodup_cons, mem_draws]
    refine ⟨?_, ih fun i hi => h i (by omega)⟩
    rintro ⟨j, hj, he⟩
    exact h n (by omega) j hj he.symm

end Draws

end BumpAllocator
