/-
Loops that shrink their state.

A drain takes a step as long as it is busy, and every step makes the state smaller, so the loop
ends.  At its end it is not busy, and what every step keeps has been kept.
-/
import Mathlib

namespace Beagle.Lib

/-- When a loop goes on, what it does then, and why it ends. -/
structure Drain (σ : Type*) where
  busy : σ → Bool
  step : (state : σ) → busy state = true → σ
  size : σ → Nat
  smaller : ∀ state h, size (step state h) < size state

namespace Drain

variable {σ : Type*} (drain : Drain σ)

def run (state : σ) : σ :=
  if h : drain.busy state = true then run (drain.step state h) else state
termination_by drain.size state
decreasing_by exact drain.smaller state h

/-- **The loop goes on until it is not busy.** -/
theorem run_idle (s : σ) : drain.busy (drain.run s) = false := by
  induction s using run.induct drain with
  | case1 s h ih =>
    rw [run, dif_pos h]
    exact ih
  | case2 s h =>
    rw [run, dif_neg h]
    exact Bool.eq_false_iff.mpr h

/-- **What every step keeps, the loop keeps.** -/
theorem run_keeps {k : σ → Prop} (hs : ∀ s h, k s → k (drain.step s h))
    {s : σ} (hst : k s) : k (drain.run s) := by
  induction s using run.induct drain with
  | case1 s h ih =>
    rw [run, dif_pos h]
    exact ih (hs s h hst)
  | case2 s h =>
    rw [run, dif_neg h]
    exact hst

/-- The state after so many steps at most. -/
def after : Nat → σ → σ
  | 0, state => state
  | count + 1, state =>
    if h : drain.busy state = true then after count (drain.step state h) else state

/-- The loop is done after so many steps. -/
def EndsWithin (count : Nat) (state : σ) : Prop :=
  drain.busy (drain.after count state) = false ∧ drain.run state = drain.after count state

/-- **The loop ends within as many steps as its state is large.** -/
theorem endsWithin : ∀ {c : Nat} {state : σ}, drain.size state ≤ c → drain.EndsWithin c state := by
  have hrun : ∀ (c : Nat) (state : σ), drain.size state ≤ c →
      drain.run state = drain.after c state := by
    intro c
    induction c with
    | zero =>
      intro state hs
      have hi : ¬drain.busy state = true := fun h => by
        have hlt := drain.smaller state h
        omega
      rw [run, dif_neg hi]
      rfl
    | succ c ih =>
      intro state hs
      rw [run, after]
      by_cases h : drain.busy state = true
      · rw [dif_pos h, dif_pos h]
        have hlt := drain.smaller state h
        exact ih _ (by omega)
      · rw [dif_neg h, dif_neg h]
  intro c state hs
  refine ⟨?_, hrun c state hs⟩
  rw [← hrun c state hs]
  exact drain.run_idle state

end Drain

end Beagle.Lib
