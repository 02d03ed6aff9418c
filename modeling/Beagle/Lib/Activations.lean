/-
Stacks of activations that answer for what the youngest does.

Every activation covers some deeds and may have opened places of its own.  A deed on such a place
is nobody's business below the activation that opened it.  Where every activation passes what it
covers on to its caller, except a deed on a place of its own, what the youngest activation covers is
covered all the way down, or is confined.
-/
import Mathlib

namespace Beagle.Lib.Activations

open List

variable {φ δ : Type}

/-- Every activation of the stack, the youngest first, stands in the relation to those under it. -/
def Stacked (linked : φ → List φ → Prop) : List φ → Prop
  | [] => True
  | top :: callers => linked top callers ∧ Stacked linked callers

/-- What activations cover, and the deeds on places that they opened. -/
structure Accounts (φ δ : Type) where
  covers : φ → δ → Prop
  transient : δ → Prop
  opened : φ → δ → Prop

namespace Accounts

variable (A : Accounts φ δ)

/-- A deed on a place that opens and closes is on one that is open. -/
def Open (frames : List φ) (deed : δ) : Prop :=
  A.transient deed → ∃ frame ∈ frames, A.opened frame deed

/-- The caller covers what the activation covers and the places of the callers allow. -/
def Passes (top : φ) (callers : List φ) : Prop :=
  ∀ caller ∈ callers.head?, ∀ deed, A.Open callers deed → A.covers top deed → A.covers caller deed

/-- The deed is on a place that one of the activations has opened. -/
def Confined (frames : List φ) (deed : δ) : Prop :=
  A.transient deed ∧ ∃ frame ∈ frames, A.opened frame deed

variable {A}

theorem Confined.cons {fs : List φ} {deed : δ} (h : A.Confined fs deed) (top : φ) :
    A.Confined (top :: fs) deed := by
  obtain ⟨ht, f, hfrm, ho⟩ := h
  exact ⟨ht, f, mem_cons_of_mem _ hfrm, ho⟩

variable {top : φ} {callers : List φ} {deed : δ}

theorem confined_or_open (h : A.Open (top :: callers) deed) :
    A.Confined [top] deed ∨ A.Open callers deed := by
  by_cases ht : A.transient deed
  · obtain ⟨f, hfrm, ho⟩ := h ht
    rcases mem_cons.mp hfrm with rfl | hfrm
    · exact Or.inl ⟨ht, f, mem_singleton_self _, ho⟩
    · exact Or.inr fun _ => ⟨f, hfrm, ho⟩
  · exact Or.inr fun hs => absurd hs ht

/-- **Below an activation that covers a deed, every other covers it or the deed is confined to those
above.** -/
theorem covered_or_confined (hs : Stacked A.Passes (top :: callers))
    (hopen : A.Open (top :: callers) deed) (hcov : A.covers top deed) {a b : List φ}
    {f : φ} (hsp : top :: callers = a ++ f :: b) :
    A.covers f deed ∨ A.Confined a deed := by
  induction callers generalizing top a with
  | nil =>
    rcases cons_eq_append_iff.mp hsp with ⟨rfl, htop⟩ | ⟨a, rfl, hnil⟩
    · rw [(cons_eq_cons.mp htop).1]
      exact Or.inl hcov
    · simp at hnil
  | cons c r ih =>
    rcases cons_eq_append_iff.mp hsp with ⟨rfl, htop⟩ | ⟨a, rfl, hr⟩
    · rw [(cons_eq_cons.mp htop).1]
      exact Or.inl hcov
    · rcases confined_or_open hopen with ⟨ht, o, hop, ho⟩ | hopen
      · rw [mem_singleton.mp hop] at ho
        exact Or.inr ⟨ht, top, mem_cons_self, ho⟩
      · have hc := hs.1 c rfl deed hopen hcov
        rcases ih hs.2 hopen hc hr with hfrm | hconf
        · exact Or.inl hfrm
        · exact Or.inr (hconf.cons top)

end Accounts

theorem Stacked.mono {l l' : φ → List φ → Prop}
    (h : ∀ top callers, l top callers → l' top callers) {frames : List φ}
    (hs : Stacked l frames) : Stacked l' frames := by
  induction frames with
  | nil => exact trivial
  | cons top callers ih => exact ⟨h _ _ hs.1, ih hs.2⟩

end Beagle.Lib.Activations
