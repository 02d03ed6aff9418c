/-
Parts that take turns on a shared store.

A turn lets one part change the store and itself.  Where what a part sees of the store is changed
by its own turns only, every part gets on as if it were alone: how far it is depends on how many
turns it had and not on their order, and once it rests further turns change nothing of it.
-/
import Mathlib

namespace Beagle.Lib.Turns

variable {ι σ τ β : Type}

/-- What the turn of a part makes of the store and of the part. -/
structure System (ι σ τ : Type) where
  move : ι → σ → τ → σ × τ

structure State (ι σ τ : Type) where
  store : σ
  parts : ι → τ

namespace System

variable (S : System ι σ τ)

def turn [DecidableEq ι] (state : State ι σ τ) (i : ι) : State ι σ τ :=
  let moved := S.move i state.store (state.parts i)
  ⟨moved.1, Function.update state.parts i moved.2⟩

/-- The turns of a schedule one after another. -/
def run [DecidableEq ι] (state : State ι σ τ) (schedule : List ι) : State ι σ τ := schedule.foldl S.turn state

/-- The turns of one part with nobody else there. -/
def alone (i : ι) : Nat → σ → τ → σ × τ
  | 0, store, part => (store, part)
  | turns + 1, store, part =>
    let moved := S.move i store part
    alone i turns moved.1 moved.2

theorem alone_add (i : ι) (ts m : Nat) (store : σ) (part : τ) : S.alone i (ts + m) store part =
      S.alone i m (S.alone i ts store part).1 (S.alone i ts store part).2 := by
  induction ts generalizing store part with
  | zero => rw [Nat.zero_add]; rfl
  | succ ts ih =>
    rw [Nat.succ_add]
    exact ih _ _

section

variable [DecidableEq ι]

/-- **What a turn keeps of a part, a run keeps of every part.** -/
theorem run_keeps {k : ι → τ → Prop}
    (hm : ∀ i store part, k i part → k i (S.move i store part).2) {st : State ι σ τ}
    (hst : ∀ i, k i (st.parts i)) (s : List ι) :
    ∀ i, k i ((S.run st s).parts i) := by
  induction s generalizing st with
  | nil => exact hst
  | cons j r ih =>
    refine @ih (S.turn st j) fun i => ?_
    by_cases h : i = j
    · subst h
      simpa [turn] using hm i st.store _ (hst i)
    · simpa [turn, Function.update_of_ne h] using hst i

end

/-- What a part that fits sees of the store is changed by its own turns only, and nothing else of
the store decides its turns. -/
structure Apart (view : ι → σ → β) (fits : ι → τ → Prop) : Prop where
  stays : ∀ i store part, fits i part → fits i (S.move i store part).2
  own : ∀ i store store' part, fits i part → view i store = view i store' →
    (S.move i store part).2 = (S.move i store' part).2 ∧
      view i (S.move i store part).1 = view i (S.move i store' part).1
  others : ∀ i j store part, fits i part → i ≠ j → view j (S.move i store part).1 = view j store

variable {S} {v : ι → σ → β} {f : ι → τ → Prop} {i : ι} {store : σ} {part : τ}

theorem Apart.alone_congr (h : S.Apart v f) (ts : Nat) {s' : σ} (hf : f i part)
    (hv : v i store = v i s') :
    (S.alone i ts store part).2 = (S.alone i ts s' part).2 ∧
      v i (S.alone i ts store part).1 = v i (S.alone i ts s' part).1 := by
  induction ts generalizing store s' part with
  | zero => exact ⟨rfl, hv⟩
  | succ ts ih =>
    obtain ⟨hp, hm⟩ := h.own i store s' part hf hv
    have hr := ih (h.stays i store part hf) hm
    unfold alone
    dsimp only
    rw [hr.1, hr.2, hp]
    exact ⟨rfl, rfl⟩

variable [DecidableEq ι] {st : State ι σ τ}

/-- **In a run every part is where its own turns bring it alone.** -/
theorem Apart.run_alone (h : S.Apart v f) (hf : ∀ i, f i (st.parts i)) (s : List ι) (i : ι) :
    (S.run st s).parts i = (S.alone i (s.count i) st.store (st.parts i)).2 ∧
      v i (S.run st s).store = v i (S.alone i (s.count i) st.store (st.parts i)).1 := by
  induction s generalizing st with
  | nil => exact ⟨rfl, rfl⟩
  | cons j r ih =>
    have hn : ∀ k, f k ((S.turn st j).parts k) :=
      S.run_keeps h.stays hf [j]
    have hr := @ih (S.turn st j) hn
    rw [run, List.foldl_cons]
    rw [run] at hr
    rw [hr.1, hr.2]
    by_cases hij : j = i
    · subst hij
      rw [List.count_cons_self]
      simp [turn, alone]
    · have hp : (S.turn st j).parts i = st.parts i := by
        simp [turn, Function.update_of_ne (Ne.symm hij)]
      rw [List.count_cons_of_ne hij, hp]
      exact h.alone_congr _ (hf i) (h.others j i st.store _ (hf j) hij)

/-- A part that rests stays as it is and leaves the store as it is. -/
def Rests (S : System ι σ τ) (resting : τ → Prop) : Prop :=
  ∀ i store part, resting part → S.move i store part = (store, part)

variable {r : τ → Prop}

omit [DecidableEq ι] in
theorem alone_resting (hr : Rests S r) (h : r part)
    (ts : Nat) : S.alone i ts store part = (store, part) := by
  induction ts with
  | zero => rfl
  | succ ts ih =>
    unfold alone
    rw [hr i store part h]
    exact ih

variable {s s' : List ι}

/-- **A part that rests is the same in every schedule that gives it as many turns.** -/
theorem Apart.run_resting (h : S.Apart v f) (hre : Rests S r)
    (hf : ∀ i, f i (st.parts i)) (hr : r ((S.run st s).parts i))
    (hcnt : s.count i ≤ s'.count i) :
    (S.run st s').parts i = (S.run st s).parts i ∧
      v i (S.run st s').store = v i (S.run st s).store := by
  have hrun := h.run_alone hf s i
  have hrun' := h.run_alone hf s' i
  obtain ⟨m, hm⟩ := Nat.exists_eq_add_of_le hcnt
  rw [hrun.1] at hr
  rw [hm, alone_add, alone_resting hre hr] at hrun'
  rw [hrun.1, hrun.2, hrun'.1, hrun'.2]
  exact ⟨rfl, rfl⟩

/-- **A part that rests after two schedules is the same after both.** -/
theorem Apart.resting_unique (h : S.Apart v f) (hr : Rests S r)
    (hf : ∀ i, f i (st.parts i)) (hre : r ((S.run st s).parts i))
    (hr' : r ((S.run st s').parts i)) :
    (S.run st s').parts i = (S.run st s).parts i ∧
      v i (S.run st s').store = v i (S.run st s).store := by
  rcases Nat.le_total (s.count i) (s'.count i) with hle | hle
  · exact h.run_resting hr hf hre hle
  · have hb := h.run_resting hr hf hr' hle
    exact ⟨hb.1.symm, hb.2.symm⟩

end System

end Beagle.Lib.Turns
