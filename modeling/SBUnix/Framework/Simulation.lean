import Mathlib.Logic.Relation

namespace Simulation

variable {S A L : Type*}

/-- A run of labelled steps. -/
inductive Run (step : L → S → S → Prop) : S → List L → S → Prop where
  | nil (s : S) : Run step s [] s
  | cons {s t u : S} {l : L} {ls : List L} : step l s t → Run step t ls u → Run step s (l::ls) u

section Run

variable {step : L → S → S → Prop} {s t u : S} {ls ks : List L}

theorem Run.append (h : Run step s ls t) (k : Run step t ks u) : Run step s (ls++ks) u := by
  induction h with
  | nil s => exact k
  | cons hstep _ ih => exact .cons hstep (ih k)

/-- A run of the lower level is followed step by step by a run of the upper one. -/
theorem Run.simulates (R : A → S → Prop) (above : L → A → A → Prop)
    (follows : ∀ l a s t, R a s → step l s t → ∃ b, above l a b ∧ R b t)
    (h : Run step s ls t) {a : A} (ha : R a s) : ∃ b, Run above a ls b ∧ R b t := by
  induction h generalizing a with
  | nil s => exact ⟨a, .nil a, ha⟩
  | cons hstep _ ih =>
    obtain ⟨b, hab, hb⟩ := follows _ _ _ _ ha hstep
    obtain ⟨c, hbc, hc⟩ := ih hb
    exact ⟨c, .cons hab hbc, hc⟩

/-- What a step keeps unless it starts at a way out holds at the end of a run that has come
past none. -/
theorem Run.until (inv out : S → Prop)
    (keeps : ∀ l s t, inv s → step l s t → inv t ∨ out s) (h : Run step s ls t) (hs : inv s) :
    inv t ∨ ∃ ks c rs, ls = ks++rs ∧ Run step s ks c ∧ Run step c rs t ∧ out c := by
  induction h with
  | nil s => exact Or.inl hs
  | @cons s t u l ls hstep hrest ih =>
    rcases keeps _ _ _ hs hstep with ht | hout
    · rcases ih ht with hu | ⟨ks, c, rs, rfl, hks, hrs, hc⟩
      · exact Or.inl hu
      · exact Or.inr ⟨l::ks, c, rs, rfl, .cons hstep hks, hrs, hc⟩
    · exact Or.inr ⟨[], s, l::ls, rfl, .nil s, .cons hstep hrest, hout⟩

end Run

end Simulation
