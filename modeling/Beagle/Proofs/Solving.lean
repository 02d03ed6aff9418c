/-
Reading types under assignments.

A type under assignments is the type under a substitution, so the readings commute with
the constructors, and one more assignment is one more substitution.  Over acyclic
assignments the readings satisfy the recursions of `prune-type` and `zonk-type`.
-/
import Beagle.Types.Unify

namespace Beagle.Types

open List

/-! ### Substitution -/

variable {f : Ty → Ty} {as : List Ty} {g : Grammar} {t : Ty} {f' : Ty → Ty} {r : Option Ty}
  {θ : Nat → Ty}

theorem Ty.map_congr (h : ∀ a ∈ as, f a = f' a) : as.map f = as.map f' := map_congr_left h

theorem Ty.map_self (h : ∀ a ∈ as, f a = a) : as.map f = as :=
  (map_congr_left h).trans (map_id' as)

theorem Ty.option_congr (h : ∀ a ∈ r, f a = f' a) : r.map f = r.map f' := by
  cases r with
  | none => rfl
  | some a => exact congrArg some (h a rfl)

@[simp] theorem Ty.subst_prim (θ : Nat → Ty) (name : String) :
    (Ty.prim name).subst θ = .prim name := rfl

@[simp] theorem Ty.subst_metavar (θ : Nat → Ty) (id : Nat) : (Ty.metavar id).subst θ = θ id := rfl

@[simp] theorem Ty.subst_fn (θ : Nat → Ty) (ps : List Ty) (r : Option Ty) (t : Ty) :
    (Ty.fn ps r t).subst θ = .fn (ps.map (Ty.subst θ)) (r.map (Ty.subst θ)) (t.subst θ) := by
  rw [Ty.subst, Ty.substList_eq, Ty.substOption_eq]

@[simp] theorem Ty.subst_app (θ : Nat → Ty) (c : String) (a : List Ty) :
    (Ty.app c a).subst θ = .app c (a.map (Ty.subst θ)) := by
  rw [Ty.subst, Ty.substList_eq]

@[simp] theorem Ty.subst_union (θ : Nat → Ty) (a : List Ty) :
    (Ty.union a).subst θ = .union (a.map (Ty.subst θ)) := by
  rw [Ty.subst, Ty.substList_eq]

theorem Ty.subst_subst (θ θ' : Nat → Ty) (t : Ty) :
    (t.subst θ).subst θ' = t.subst fun k => (θ k).subst θ' := by
  induction t using Ty.parts with
  | prim n => rfl
  | fn ps r t hps hr ht =>
    have hm : (ps.map (Ty.subst θ)).map (Ty.subst θ') =
        ps.map (Ty.subst fun k => (θ k).subst θ') := by
      rw [map_map]
      exact Ty.map_congr hps
    have hre : (r.map (Ty.subst θ)).map (Ty.subst θ') =
        r.map (Ty.subst fun k => (θ k).subst θ') := by
      rw [Option.map_map]
      exact Ty.option_congr hr
    rw [Ty.subst_fn, Ty.subst_fn, Ty.subst_fn, hm, hre, ht]
  | app c ar har =>
    rw [Ty.subst_app, Ty.subst_app, Ty.subst_app, map_map]
    exact congrArg (Ty.app c) (Ty.map_congr har)
  | union a ha =>
    rw [Ty.subst_union, Ty.subst_union, Ty.subst_union, map_map]
    exact congrArg Ty.union (Ty.map_congr ha)
  | metavar id => rfl

theorem Ty.subst_self (t : Ty) : t.subst .metavar = t := by
  induction t using Ty.parts with
  | prim n => rfl
  | fn ps r t hps hr ht =>
    have hm : ps.map (Ty.subst .metavar) = ps := Ty.map_self hps
    have hre : r.map (Ty.subst .metavar) = r :=
      (Ty.option_congr hr).trans Option.map_id'
    rw [Ty.subst_fn, hm, hre, ht]
  | app c ar har => rw [Ty.subst_app, Ty.map_self har]
  | union a ha => rw [Ty.subst_union, Ty.map_self ha]
  | metavar id => rfl

/-! ### Grammars -/

theorem Ty.withinList_iff : Ty.withinList g as = true ↔ ∀ a ∈ as, a.within g = true := by
  induction as with
  | nil => simp [Ty.withinList]
  | cons a as ih => rw [Ty.withinList, Bool.and_eq_true, ih, forall_mem_cons]

theorem Ty.within_fn {ps : List Ty} : (Ty.fn ps r t).within g = true ↔
      (∀ p ∈ ps, p.within g = true) ∧ (∀ a ∈ r, a.within g = true) ∧ t.within g = true := by
  rw [Ty.within, Bool.and_eq_true, Bool.and_eq_true, Ty.withinList_iff, and_assoc]
  refine and_congr_right fun _ => and_congr_left fun _ => ?_
  cases r with
  | none => exact ⟨fun _ _ ha => absurd ha (by simp), fun _ => rfl⟩
  | some a => exact ⟨fun h b hb => Option.some.inj hb ▸ h, fun h => h a rfl⟩

theorem Ty.within_app {c : String} {ar : List Ty} :
    (Ty.app c ar).within g = true ↔ ∀ a ∈ ar, a.within g = true := by
  rw [Ty.within, Ty.withinList_iff]

theorem Ty.within_union {al : List Ty} :
    (Ty.union al).within g = true ↔ g.union = true ∧ ∀ a ∈ al, a.within g = true := by
  rw [Ty.within, Bool.and_eq_true, Ty.withinList_iff]

/-- A type under a substitution is of a grammar when the type and its replacements are. -/
theorem Ty.within_subst {g' : Grammar} (h : t.within g = true)
    (hpr : ∀ n, g.prim n = true → g'.prim n = true)
    (hun : g.union = true → g'.union = true)
    (hm : ∀ k, g.metavar k = true → (θ k).within g' = true) :
    (t.subst θ).within g' = true := by
  induction t using Ty.parts with
  | prim n => exact hpr n h
  | fn ps r t hps hr ht =>
    obtain ⟨h1, h2, h3⟩ := Ty.within_fn.mp h
    rw [Ty.subst_fn]
    refine Ty.within_fn.mpr ⟨?_, ?_, ht h3⟩
    · intro p hp
      obtain ⟨q, hq, rfl⟩ := mem_map.mp hp
      exact hps q hq (h1 q hq)
    · intro a ha
      obtain ⟨b, hb, rfl⟩ := Option.map_eq_some_iff.mp ha
      exact hr b hb (h2 b hb)
  | app c ar har =>
    rw [Ty.subst_app]
    refine Ty.within_app.mpr ?_
    intro a ha
    obtain ⟨b, hb, rfl⟩ := mem_map.mp ha
    exact har b hb (Ty.within_app.mp h b hb)
  | union al hal =>
    obtain ⟨h1, h2⟩ := Ty.within_union.mp h
    rw [Ty.subst_union]
    refine Ty.within_union.mpr ⟨hun h1, ?_⟩
    intro a ha
    obtain ⟨b, hb, rfl⟩ := mem_map.mp ha
    exact hal b hb (h2 b hb)
  | metavar id => exact hm id h

/-- Only the metavariables of a type matter to a substitution. -/
theorem Ty.subst_congr {θ' : Nat → Ty} (h : t.within g = true)
    (hm : ∀ k, g.metavar k = true → θ k = θ' k) : t.subst θ = t.subst θ' := by
  induction t using Ty.parts with
  | prim n => rfl
  | fn ps r t hps hr ht =>
    obtain ⟨h1, h2, h3⟩ := Ty.within_fn.mp h
    rw [Ty.subst_fn, Ty.subst_fn, ht h3, Ty.map_congr fun p hp => hps p hp (h1 p hp),
      Ty.option_congr fun a ha => hr a ha (h2 a ha)]
  | app c ar har =>
    rw [Ty.subst_app, Ty.subst_app, Ty.map_congr fun a ha => har a ha (Ty.within_app.mp h a ha)]
  | union al hal =>
    rw [Ty.subst_union, Ty.subst_union,
      Ty.map_congr fun a ha => hal a ha ((Ty.within_union.mp h).2 a ha)]
  | metavar id => exact hm id h

theorem Ty.subst_of_closed (h : t.within .closed = true) (θ : Nat → Ty) : t.subst θ = t :=
  (Ty.subst_congr h fun _ hk => absurd hk Bool.false_ne_true).trans (Ty.subst_self t)

theorem Ty.subst_assign {m : Nat} (h : t.within (.without m) = true) (s : Ty) :
    t.subst (Ty.assign m s) = t := by
  refine (Ty.subst_congr h ?_).trans (Ty.subst_self t)
  intro k hk
  exact if_neg (bne_iff_ne.mp hk)

/-! ### Readings -/

namespace Solutions

variable {σ : Solutions}

theorem zonk_cons (m : Nat) (s : Ty) (σ : Solutions) (t : Ty) :
    Solutions.zonk ((m, s) :: σ) t = (σ.zonk t).subst (Ty.assign m (σ.zonk s)) := rfl

/-- A reading is a substitution. -/
theorem zonk_eq_subst (σ : Solutions) (t : Ty) :
    σ.zonk t = t.subst fun k => σ.zonk (.metavar k) := by
  induction σ with
  | nil => exact (Ty.subst_self t).symm
  | cons first σ ih =>
    obtain ⟨m, s⟩ := first
    rw [zonk_cons, ih, Ty.subst_subst]
    rfl

@[simp] theorem zonk_prim (σ : Solutions) (name : String) : σ.zonk (.prim name) = .prim name :=
  zonk_eq_subst σ _

theorem zonk_eq (σ : Solutions) : σ.zonk = Ty.subst fun k => σ.zonk (.metavar k) :=
  funext (zonk_eq_subst σ)

@[simp] theorem zonk_fn (σ : Solutions) (ps : List Ty) (r : Option Ty) (t : Ty) :
    σ.zonk (.fn ps r t) = .fn (ps.map σ.zonk) (r.map σ.zonk) (σ.zonk t) := by
  rw [zonk_eq_subst σ (.fn ps r t), Ty.subst_fn, ← zonk_eq]

@[simp] theorem zonk_app (σ : Solutions) (c : String) (a : List Ty) :
    σ.zonk (.app c a) = .app c (a.map σ.zonk) := by
  rw [zonk_eq_subst σ (.app c a), Ty.subst_app, ← zonk_eq]

@[simp] theorem zonk_union (σ : Solutions) (a : List Ty) :
    σ.zonk (.union a) = .union (a.map σ.zonk) := by
  rw [zonk_eq_subst σ (.union a), Ty.subst_union, ← zonk_eq]

theorem solution_cons (m : Nat) (s : Ty) (σ : Solutions) (k : Nat) :
    Solutions.solution ((m, s) :: σ) k = if k = m then some s else σ.solution k := by
  unfold Solutions.solution
  by_cases h : k = m
  · rw [if_pos h, h, lookup_cons_self]
  · rw [if_neg h, lookup_cons, beq_eq_false_iff_ne.mpr h]

/-- An open metavariable stands for itself. -/
theorem zonk_open {m : Nat} (h : σ.solution m = none) : σ.zonk (.metavar m) = .metavar m := by
  induction σ with
  | nil => rfl
  | cons first σ ih =>
    obtain ⟨k, s⟩ := first
    rw [solution_cons] at h
    by_cases hk : m = k
    · rw [if_pos hk] at h
      cases h
    · rw [if_neg hk] at h
      rw [zonk_cons, ih h]
      exact if_neg hk

/-- Pruning changes no reading. -/
theorem zonk_prune (h : σ.Acyclic) (t : Ty) : zonk σ (prune σ t) = zonk σ t := by
  induction σ generalizing t with
  | nil => rfl
  | cons first σ ih =>
    obtain ⟨m, s⟩ := first
    obtain ⟨ha, hop, hocc⟩ := h
    have ho : ∀ u : Ty, prune σ t = u →
        Solutions.zonk ((m, s) :: σ) u = Solutions.zonk ((m, s) :: σ) t := by
      intro u hu
      rw [zonk_cons, zonk_cons, ← hu, ih ha]
    rw [Solutions.prune]
    cases hu : prune σ t with
    | metavar k =>
      by_cases hk : k = m
      · subst hk
        have ht : zonk σ t = .metavar k := by
          rw [← ih ha t, hu, zonk_open hop]
        simp only [if_true]
        rw [zonk_cons, ih ha, Ty.subst_assign hocc, zonk_cons, ht]
        exact (if_pos rfl).symm
      · simp only [hk, if_false]
        exact ho _ hu
    | _ => exact ho _ hu

/-- A metavariable that is left by pruning is open. -/
theorem prune_open (ha : σ.Acyclic) {t : Ty} {k : Nat} (h : prune σ t = .metavar k) :
    σ.solution k = none := by
  induction σ generalizing t k with
  | nil => rfl
  | cons first σ ih =>
    obtain ⟨m, s⟩ := first
    obtain ⟨ha, ho, hocc⟩ := ha
    rw [Solutions.prune] at h
    cases hu : prune σ t with
    | metavar j =>
      simp only [hu] at h
      by_cases hj : j = m
      · rw [if_pos hj] at h
        have hk := ih ha h
        have hs : zonk σ s = .metavar k := by rw [← zonk_prune ha, h, zonk_open hk]
        rw [hs] at hocc
        rw [solution_cons, if_neg (bne_iff_ne.mp hocc)]
        exact hk
      · rw [if_neg hj] at h
        cases h
        rw [solution_cons, if_neg hj]
        exact ih ha hu
    | _ => simp [hu] at h

end Solutions

end Beagle.Types
