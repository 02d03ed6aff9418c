/-
Binary search for the first position where a test fails.

The test holds on a front part of the range and fails from there on; the search
returns where it starts to fail.  The fuel only has to reach the width of the
range, since every step shrinks it.
-/
import Mathlib

namespace Beagle.Lib

/-- Search `[low, high)` for the first position where `below` fails. -/
def bisect (below : Nat → Bool) : Nat → Nat → Nat → Nat
  | 0, low, _ => low
  | fuel + 1, low, high =>
    if low ≥ high then low
    else
      let middle := (low + high) / 2
      if below middle then bisect below fuel (middle + 1) high
      else bisect below fuel low middle

/-- `below` holds before `split` and fails from it on, up to `bound`. -/
structure Splits (below : Nat → Bool) (bound split : Nat) : Prop where
  le : split ≤ bound
  before : ∀ i, i < split → below i = true
  after : ∀ i, split ≤ i → i < bound → below i = false

variable {below : Nat → Bool}

private theorem bisect_between {bound split : Nat} (h : Splits below bound split) :
    ∀ fuel low high, low ≤ split → split ≤ high → high ≤ bound → high - low ≤ fuel →
      bisect below fuel low high = split := by
  intro fuel
  induction fuel with
  | zero =>
    intro low high hlow hhigh _ hfuel
    unfold bisect
    omega
  | succ fuel ih =>
    intro low high hlow hhigh hbound hfuel
    unfold bisect
    by_cases hdone : low ≥ high
    · rw [if_pos hdone]; omega
    · rw [if_neg hdone]
      by_cases hb : below ((low + high) / 2) = true
      · simp only [hb, if_true]
        refine ih _ _ ?_ hhigh hbound (by omega)
        by_contra hgt
        rw [h.after _ (by omega) (by omega)] at hb
        simp at hb
      · simp only [hb]
        refine ih _ _ hlow ?_ (by omega) (by omega)
        by_contra hlt
        exact hb (h.before _ (by omega))

/-- **The search finds the split.** -/
theorem bisect_eq {b split : Nat} (h : Splits below b split) : bisect below b 0 b = split :=
  bisect_between h b 0 b (Nat.zero_le _) h.le (Nat.le_refl _) (by omega)

/-- Where a test never holds again once it failed, a list is a part where it holds and a part where
    it does not. -/
theorem exists_cut {α : Type} (below : α → Prop) {xs : List α}
    (h : xs.Pairwise fun a b => below b → below a) :
    ∃ pre af, xs = pre ++ af ∧ (∀ a ∈ pre, below a) ∧ ∀ a ∈ af, ¬below a := by
  induction xs with
  | nil => exact ⟨[], [], rfl, nofun, nofun⟩
  | cons a r ih =>
    rw [List.pairwise_cons] at h
    by_cases ha : below a
    · obtain ⟨pre, af, rfl, hpre, hp⟩ := ih h.2
      refine ⟨a :: pre, af, rfl, ?_, hp⟩
      intro b hb
      rcases List.mem_cons.mp hb with rfl | hb
      · exact ha
      · exact hpre b hb
    · refine ⟨[], a :: r, rfl, nofun, ?_⟩
      intro b hb
      rcases List.mem_cons.mp hb with rfl | hb
      · exact ha
      · exact fun hbe => ha (h.1 b hb hbe)

end Beagle.Lib
