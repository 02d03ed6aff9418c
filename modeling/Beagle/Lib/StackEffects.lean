/-
What a run does to a stack.

A step that only pushes a fixed element, only pops one, or does neither, has an effect: some
elements that it takes from the top of every stack on which it runs, and some that it puts there.
So has every run of such steps.  A run that can be repeated for ever without an element coming to
stand twice in a stack leaves every stack as it is.
-/
import Mathlib

namespace Beagle.Lib.StackEffects

open List

variable {α : Type*}

/-- The run takes `pops` from the top of a stack and puts `pushes` there. -/
def Takes (run : List α → List α → Prop) (pops pushes : List α) : Prop :=
  ∀ stack next, run stack next → ∃ base, stack = base ++ pops ∧ next = base ++ pushes

/-- What a single step does. -/
inductive Shift (step : List α → List α → Prop) : Prop where
  | push (a : α) (h : ∀ stack next, step stack next → next = stack ++ [a])
  | pop (a : α) (h : ∀ stack next, step stack next → stack = next ++ [a])
  | keep (h : ∀ stack next, step stack next → next = stack)

theorem takes_refl : Takes (α := α) Eq [] [] := by
  rintro st next rfl
  exact ⟨st, (append_nil _).symm, (append_nil _).symm⟩

variable {p ps : List α}

/-- A run and a step behind it have an effect. -/
theorem exists_takes_comp {run s bo : List α → List α → Prop} (hrun : Takes run p ps) (hs : Shift s)
    (hb : ∀ st next, bo st next → ∃ b, run st b ∧ s b next) :
    ∃ p ps, Takes bo p ps := by
  cases hs with
  | push a h =>
    refine ⟨p, ps ++ [a], fun st next hn => ?_⟩
    obtain ⟨b, hfst, hsnd⟩ := hb st next hn
    obtain ⟨ba, rfl, rfl⟩ := hrun _ _ hfst
    exact ⟨ba, rfl, by rw [h _ _ hsnd, append_assoc]⟩
  | keep h =>
    refine ⟨p, ps, fun st next hn => ?_⟩
    obtain ⟨b, hfst, hsnd⟩ := hb st next hn
    obtain ⟨ba, rfl, rfl⟩ := hrun _ _ hfst
    exact ⟨ba, rfl, h _ _ hsnd⟩
  | pop a h =>
    rcases eq_nil_or_concat' ps with rfl | ⟨r, l, rfl⟩
    · refine ⟨a :: p, [], fun st next hn => ?_⟩
      obtain ⟨b, hfst, hsnd⟩ := hb st next hn
      obtain ⟨ba, rfl, rfl⟩ := hrun _ _ hfst
      have hba := h _ _ hsnd
      rw [append_nil] at hba
      exact ⟨next, by rw [hba, append_assoc]; rfl, (append_nil _).symm⟩
    · refine ⟨p, r, fun st next hn => ?_⟩
      obtain ⟨b, hfst, hsnd⟩ := hb st next hn
      obtain ⟨ba, rfl, rfl⟩ := hrun _ _ hfst
      have hl := h _ _ hsnd
      rw [← append_assoc] at hl
      exact ⟨ba, rfl, (append_inj' hl rfl).1.symm⟩

/-- **A run that can be repeated leaves every stack as it is.** -/
theorem fixed_of_repeats {run : List α → List α → Prop} (ht : Takes run p ps)
    (am : List α → Prop) (hnd : ∀ stack, am stack → stack.Nodup)
    (hr : ∀ stack, am stack → ∃ next, am next ∧ run stack next) {stack next : List α}
    (hs : am stack) (hrun : run stack next) (hn : am next) : next = stack := by
  have hlen : ∀ stack next, run stack next → next.length + p.length = stack.length + ps.length := by
    intro stack next h
    obtain ⟨b, rfl, rfl⟩ := ht _ _ h
    rw [length_append, length_append]
    omega
  -- a run that takes more than it puts comes to the end of every stack
  have hle : p.length ≤ ps.length := by
    by_contra hlt
    have hf : ∀ n stack, stack.length = n → ¬am stack := by
      intro n
      induction n using Nat.strongRecOn with
      | _ n ih =>
        intro stack hsi h
        obtain ⟨next, hn, hrun⟩ := hr stack h
        have hfa := hlen _ _ hrun
        exact ih next.length (by omega) next rfl hn
    exact hf _ stack rfl hs
  -- otherwise what it puts ends with what it takes, and the rest would be put again
  obtain ⟨b, rfl, rfl⟩ := ht _ _ hrun
  obtain ⟨la, hl, ha⟩ := hr _ hn
  obtain ⟨b', hb, rfl⟩ := ht _ _ ha
  have he : ps.drop (ps.length - p.length) = p := by
    have hdr := congrArg (fun l : List α => l.drop (l.length - p.length)) hb
    simp only [length_append, Nat.add_sub_cancel, drop_left] at hdr
    rwa [Nat.add_sub_assoc hle, drop_append, drop_eq_nil_of_le (Nat.le_add_right _ _),
      Nat.add_sub_cancel_left, nil_append] at hdr
  have hsp : ps = ps.take (ps.length - p.length) ++ p := by
    conv_lhs => rw [← take_append_drop (ps.length - p.length) ps, he]
  generalize ps.take (ps.length - p.length) = rest at hsp
  subst hsp
  have hb' : b' = b ++ rest := by
    rw [← append_assoc] at hb
    exact (append_inj' hb rfl).1.symm
  subst hb'
  have hre : rest = [] := by
    have hd := hnd _ hl
    rw [append_assoc, nodup_append] at hd
    have hta := hd.2.1
    rw [nodup_append] at hta
    refine eq_nil_iff_forall_not_mem.mpr fun a hmem => ?_
    exact hta.2.2 a hmem a (mem_append_left _ hmem) rfl
  rw [hre, nil_append]

end Beagle.Lib.StackEffects
