/-
Semi-naive iteration of a monotone operator.

The least set that holds a base and is closed under an operator is reached by
applying the operator again and again.  The semi-naive way keeps, beside the set,
the elements that are new since the last application, and asks only for consequences
that use one of those.  It is right as soon as the operator can be split: a
consequence of the set either needs no new element or is found by the step that uses
one.
-/
import Beagle.Lib.Graphs

namespace Beagle.Lib.SemiNaive

variable {F : Type*} (T : Set F →o Set F)

/-- The base and what the operator makes of a set. -/
def grow (base : Set F) : Set F →o Set F where
  toFun I := base ∪ T I
  monotone' _ _ h := Set.union_subset_union_right base (T.monotone h)

/-- The least set with the base that is closed under the operator. -/
def least (base : Set F) : Set F := (grow T base).lfp

variable {T} {base : Set F}

theorem base_subset_least : base ⊆ least T base := by
  intro f hf
  have hfix : grow T base (least T base) = least T base := (grow T base).map_lfp
  rw [← hfix]
  exact Or.inl hf

theorem closed_least : T (least T base) ⊆ least T base := by
  intro f hf
  have hfix : grow T base (least T base) = least T base := (grow T base).map_lfp
  rw [← hfix]
  exact Or.inr hf

theorem least_subset {I : Set F} (hb : base ⊆ I) (hcl : T I ⊆ I) : least T base ⊆ I :=
  (grow T base).lfp_le (Set.union_subset hb hcl)

/-- A step finds, from a set and the elements that count as new in it, consequences of the set,
and all of those that need a new element. -/
structure Differential (T : Set F →o Set F) (new : Set F → Set F → Prop)
    (step : Set F → Set F → Set F) : Prop where
  sound : ∀ I Δ, new I Δ → step I Δ ⊆ T I
  complete : ∀ I Δ, new I Δ → T I ⊆ T (I \ Δ) ∪ step I Δ

/-- What holds between the rounds. -/
structure Invariant (T : Set F →o Set F) (new : Set F → Set F → Prop) (base I Δ : Set F) :
    Prop where
  new : new I Δ
  base_subset : base ⊆ I
  subset_least : I ⊆ least T base
  old_closed : T (I \ Δ) ⊆ I

section

variable {new : Set F → Set F → Prop} {step : Set F → Set F → Set F} {I Δ : Set F}

theorem Invariant.first (hnew : new I Δ) (hI : I = base ∪ T base) (hold : I \ Δ ⊆ base) :
    Invariant T new base I Δ where
  new := hnew
  base_subset := by
    rw [hI]
    exact Set.subset_union_left
  subset_least := by
    rw [hI]
    exact Set.union_subset base_subset_least ((T.monotone base_subset_least).trans closed_least)
  old_closed := by
    have hstep : T (I \ Δ) ⊆ T base := T.monotone hold
    rw [hI] at hstep ⊢
    exact hstep.trans Set.subset_union_right

variable (hstep : Differential T new step)
include hstep

/-- A round adds what the step finds and marks what was not there. -/
theorem Invariant.next {I' Δ' : Set F} (h : Invariant T new base I Δ) (hnew : new I' Δ')
    (hI' : I' = I ∪ step I Δ) (hold : I' \ Δ' ⊆ I) : Invariant T new base I' Δ' where
  new := hnew
  base_subset := by
    rw [hI']
    exact h.base_subset.trans Set.subset_union_left
  subset_least := by
    rw [hI']
    refine Set.union_subset h.subset_least ?_
    exact ((hstep.sound I Δ h.new).trans (T.monotone h.subset_least)).trans closed_least
  old_closed := by
    intro f hf
    have hTI : f ∈ T I := T.monotone hold hf
    rw [hI']
    rcases hstep.complete I Δ h.new hTI with hold' | hfound
    · exact Or.inl (h.old_closed hold')
    · exact Or.inr hfound

/-- When the step finds nothing new, the set is the least one. -/
theorem Invariant.done (h : Invariant T new base I Δ) (hd : step I Δ ⊆ I) : I = least T base := by
  refine Set.Subset.antisymm h.subset_least (least_subset h.base_subset ?_)
  intro f hf
  rcases hstep.complete I Δ h.new hf with hold | hfound
  · exact h.old_closed hold
  · exact hd hfound

end

/-! ### The naive iteration -/

/-- Apply the operator `n` times, starting from the base. -/
def naive (T : Set F →o Set F) (base : Set F) : Nat → Set F
  | 0 => base
  | n + 1 => naive T base n ∪ T (naive T base n)

theorem naive_subset_least (n : Nat) : naive T base n ⊆ least T base := by
  induction n with
  | zero => exact base_subset_least
  | succ n ih => exact Set.union_subset ih ((T.monotone ih).trans closed_least)

theorem naive_mono {m n : Nat} (h : m ≤ n) : naive T base m ⊆ naive T base n := by
  induction n, h using Nat.le_induction with
  | base => exact Set.Subset.rfl
  | succ n _ ih => exact ih.trans Set.subset_union_left

/-- When the iteration does not grow any more it has reached the least set. -/
theorem naive_eq_least {n : Nat} (h : T (naive T base n) ⊆ naive T base n) :
    naive T base n = least T base :=
  Set.Subset.antisymm (naive_subset_least n) (least_subset (naive_mono (Nat.zero_le n)) h)

/-- **The iteration reaches the least set if finitely many elements stand for what it can add.** -/
theorem naive_reaches {J : List F} {l : F → F → Prop}
    (hc : ∀ f ∈ least T base, f ∉ base → ∃ g ∈ J, l g f)
    (hl : ∀ n f g, l g f → (g ∈ naive T base n ↔ f ∈ naive T base n)) :
    ∃ n, naive T base n = least T base := by
  classical
  by_contra hnever
  have hgr : ∀ n, (J.filter fun g => decide (g ∈ naive T base n)).length <
      (J.filter fun g => decide (g ∈ naive T base (n + 1))).length := by
    intro n
    have ho : ¬T (naive T base n) ⊆ naive T base n :=
      fun hcl => hnever ⟨n, naive_eq_least hcl⟩
    obtain ⟨f, hf, hnew⟩ := Set.not_subset.mp ho
    have hfn : f ∈ naive T base (n + 1) := Or.inr hf
    obtain ⟨g, hg, hgf⟩ := hc f (naive_subset_least _ hfn)
      fun hb => hnew (naive_mono (Nat.zero_le n) hb)
    refine Cycles.length_filter_lt (fun x _ hx => ?_) ⟨g, hg, ?_, ?_⟩
    · simp only [decide_eq_true_eq] at hx ⊢
      exact Or.inl hx
    · simpa using (hl (n + 1) f g hgf).mpr hfn
    · simpa using fun hold => hnew ((hl n f g hgf).mp hold)
  have hcnt : ∀ n, n ≤ (J.filter fun g => decide (g ∈ naive T base n)).length := by
    intro n
    induction n with
    | zero => exact Nat.zero_le _
    | succ n ih => exact ih.trans_lt (hgr n)
  have hmax := List.length_filter_le (fun g => decide (g ∈ naive T base (J.length + 1))) J
  have hla := hcnt (J.length + 1)
  omega

end Beagle.Lib.SemiNaive
