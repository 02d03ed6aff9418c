/-
Inference never solves a metavariable in a circle.

Cells without a circle can be read: every metavariable has a value, a type in which
nothing that is solved is left, and a rank that goes down along the solutions.  Pruning
writes to the cells and changes no reading, and so do the traversals and comparisons,
which only prune.  A binding is made after the occurs check has found that the target
does not read as a type with the metavariable in it, and it extends the reading.  So
**every cells that unification reaches can be read** (`Reached.good`), whatever the calls
and however they end, and a reading is all that the traversals need to end and to agree.
-/
import Beagle.Types.Metas

namespace Beagle.Types.Metas

open Beagle.Lib

/-! ### Pruning only -/

theorem Pruned.trans ⦃a b c : Cells⦄ (hab : Pruned a b) (hbc : Pruned b c) : Pruned a c := by
  induction hbc with
  | refl => exact hab
  | step _ hprune ih => exact .step ih hprune

theorem prune_prunes (k : Nat) (t : Ty) : (pruneType k t).Keeps Pruned :=
  fun cs _ _ h => .step (.refl cs) h

variable {α : Type} {re : Ty → Ty → Solve Bool} {β : Type} {f : α → Solve Bool}
  {i : Ty → Ty → Solve Bool}

/-- A program of pruning steps prunes. -/
theorem bind_prunes {m : Solve α} {f : α → Solve β} (hm : m.Keeps Pruned)
    (hf : ∀ a, (f a).Keeps Pruned) : (m >>= f).Keeps Pruned :=
  Attempt.Keeps.bind Pruned.trans hm hf

theorem pure_prunes (a : α) : (pure a : Solve α).Keeps Pruned :=
  Attempt.Keeps.pure Pruned.refl a

theorem raise_prunes (e : Raised) : (Attempt.raise e : Solve α).Keeps Pruned :=
  Attempt.Keeps.raise Pruned.refl e

theorem each_prunes {f : α → Solve β} (hf : ∀ a, (f a).Keeps Pruned) (as : List α) :
    (Attempt.each f as).Keeps Pruned :=
  Attempt.Keeps.each Pruned.refl Pruned.trans hf as

theorem any_prunes (hf : ∀ a, (f a).Keeps Pruned) (as : List α) : (Attempt.any f as).Keeps Pruned :=
  Attempt.Keeps.any Pruned.refl Pruned.trans hf as

theorem all_prunes (hf : ∀ a, (f a).Keeps Pruned) (as : List α) : (Attempt.all f as).Keeps Pruned :=
  Attempt.Keeps.all Pruned.refl Pruned.trans hf as

theorem typeHasAny_prunes (k : Nat) (t : Ty) : (typeHasAny k t).Keeps Pruned := by
  induction k generalizing t with
  | zero => exact Attempt.Keeps.spent
  | succ k ih =>
    refine bind_prunes (prune_prunes k t) fun c => ?_
    by_cases h : c.isAny = true
    · rw [if_pos h]
      exact pure_prunes true
    · rw [if_neg h]
      split
      · exact ih _
      · exact any_prunes ih _

theorem checkSubstitutions_prunes (k : Nat) (ids : List String) (tys : List Ty) :
    (checkSubstitutions k ids tys).Keeps Pruned := by
  induction ids generalizing tys with
  | nil => exact pure_prunes ()
  | cons id r ih =>
    cases tys with
    | nil => exact pure_prunes ()
    | cons t ts =>
      refine bind_prunes (typeHasAny_prunes k t) fun fd => ?_
      cases fd with
      | true => exact raise_prunes _
      | false => exact ih ts

theorem zonk_prunes (k : Nat) (t : Ty) : (zonkType k t).Keeps Pruned := by
  induction k generalizing t with
  | zero => exact Attempt.Keeps.spent
  | succ k ih =>
    refine bind_prunes (prune_prunes k t) fun c => ?_
    split
    · refine bind_prunes (each_prunes ih _) fun ts => ?_
      exact bind_prunes (checkSubstitutions_prunes k _ ts) fun _ => pure_prunes _
    · refine bind_prunes (each_prunes ih _) fun ps => ?_
      refine bind_prunes (each_prunes ih _) fun rt => ?_
      exact bind_prunes (ih _) fun ret => pure_prunes _
    · exact bind_prunes (each_prunes ih _) fun ar => pure_prunes _
    · exact bind_prunes (each_prunes ih _) fun al => pure_prunes _
    · refine bind_prunes (ih _) fun bo => ?_
      exact bind_prunes (each_prunes ih _) fun bs => pure_prunes _
    · exact pure_prunes c

theorem occurs_prunes (k id : Nat) (t : Ty) : (typeOccurs k id t).Keeps Pruned := by
  induction k generalizing t with
  | zero => exact Attempt.Keeps.spent
  | succ k ih =>
    refine bind_prunes (prune_prunes k t) fun c => ?_
    split
    · exact pure_prunes _
    · exact any_prunes ih _

theorem closed_prunes (k : Nat) (t : Ty) : (closedMonomorphic k t).Keeps Pruned := by
  induction k generalizing t with
  | zero => exact Attempt.Keeps.spent
  | succ k ih =>
    refine bind_prunes (prune_prunes k t) fun c => ?_
    split
    · exact pure_prunes false
    · exact pure_prunes false
    · exact pure_prunes false
    · exact all_prunes ih _

theorem pairwise_prunes (h : ∀ a b, (re a b).Keeps Pruned) (as bs : List Ty) :
    (pairwise re as bs).Keeps Pruned := by
  unfold pairwise
  split
  · exact all_prunes (fun (p : Ty × Ty) => h p.1 p.2) _
  · exact pure_prunes false

theorem invariantEqual_prunes (T : Tables) (k : Nat) (a b : Ty) :
    (typeInvariantEqual T k a b).Keeps Pruned := by
  induction k generalizing a b with
  | zero => exact Attempt.Keeps.spent
  | succ k ih =>
    refine bind_prunes (prune_prunes k a) fun a => ?_
    refine bind_prunes (prune_prunes k b) fun b => ?_
    split
    · exact pure_prunes _
    · split
      · exact pairwise_prunes ih _ _
      · exact pure_prunes false
    · exact pairwise_prunes ih _ _
    · exact pure_prunes _

variable (h : ∀ a b, (re a b).Keeps Pruned)
include h

theorem fnCompatible_prunes (ap : List Ty) (ar : Option Ty) (aR : Ty) (ep : List Ty)
    (er : Option Ty) (eR : Ty) :
    (fnCompatible re ap ar aR ep er eR).Keeps Pruned := by
  unfold fnCompatible
  split
  · exact pure_prunes false
  · refine bind_prunes (all_prunes (fun (p : Ty × Ty) => h p.1 p.2) _) fun fi => ?_
    split
    · exact pure_prunes false
    · refine bind_prunes ?_ fun fi => ?_
      · cases ar with
        | none => exact pure_prunes true
        | some rt => exact all_prunes (fun pa => h pa rt) _
      · split
        · exact pure_prunes false
        · refine bind_prunes ?_ fun fi => ?_
          · unfold restCompatible
            split
            · exact pure_prunes true
            · exact pure_prunes false
            · exact h _ _
          · split
            · exact pure_prunes false
            · exact h aR eR

theorem appCompatible_prunes (hinv : ∀ a b, (i a b).Keeps Pruned) (c : String)
    (as : List Ty) (d : String) (es : List Ty) :
    (appCompatible re i c as d es).Keeps Pruned := by
  unfold appCompatible
  split
  · exact pairwise_prunes hinv as es
  · split
    · exact all_prunes (fun a => all_prunes (h a) es) as
    · split
      · split
        · exact pairwise_prunes hinv as es
        · exact any_prunes (h _) es
      · split
        · exact pairwise_prunes h as es
        · exact pure_prunes false

variable {C : Context}

theorem shapeCompatible_prunes (hinv : ∀ a b, (i a b).Keeps Pruned) (ac ex : Ty) :
    (shapeCompatible C re i ac ex).Keeps Pruned := by
  unfold shapeCompatible
  split
  · exact pure_prunes _
  · exact pure_prunes true
  · split
    · exact pure_prunes true
    · split
      · exact any_prunes (h _) _
      · exact pure_prunes false
  · exact fnCompatible_prunes h _ _ _ _ _ _
  · exact appCompatible_prunes h hinv _ _ _ _
  · exact any_prunes (h _) _
  · exact pure_prunes false

omit h

theorem compatible_prunes (k : Nat) (ac ex : Ty) : (typeCompatible C k ac ex).Keeps Pruned := by
  induction k generalizing ac ex with
  | zero => exact Attempt.Keeps.spent
  | succ k ih =>
    refine bind_prunes (prune_prunes k ac) fun ac => ?_
    refine bind_prunes (prune_prunes k ex) fun ex => ?_
    have hinv := invariantEqual_prunes C.tables k
    unfold compatibleArms
    split
    · exact C.foreign_prunes ac ex
    · split
      · exact pure_prunes true
      · split
        · exact pure_prunes true
        · exact pure_prunes true
        · exact pure_prunes true
        · exact pure_prunes true
        · exact ih _ _
        · exact ih _ _
        · exact all_prunes (fun a => any_prunes (ih a) _) _
        · exact any_prunes (ih _) _
        · exact all_prunes (fun a => ih a _) _
        · split
          · exact ih _ _
          · exact ih _ _
          · exact shapeCompatible_prunes ih hinv _ _

theorem closedAnd_prunes (h : ∀ a b, (re a b).Keeps Pruned) (k : Nat) (l r : Ty) :
    (closedAnd k re l r).Keeps Pruned := by
  refine bind_prunes (closed_prunes k l) fun c => ?_
  split
  · exact pure_prunes false
  · refine bind_prunes (closed_prunes k r) fun c => ?_
    split
    · exact pure_prunes false
    · exact h l r

theorem raiseTypeUnification_prunes (left right : Ty) (reason : String) :
    (raiseTypeUnification C left right reason : Solve α).Keeps Pruned := by
  refine bind_prunes (C.string_prunes left) fun leftText => ?_
  exact bind_prunes (C.string_prunes right) fun rightText => raise_prunes _

/-! ### Readings -/

/-- What the metavariables stand for when all solutions are followed. -/
structure Reading where
  value : Nat → Ty
  /-- It goes down along the solutions. -/
  rank : Nat → Nat
  bound : Nat
  unsolved : Nat → Prop

/-- A type with all solutions in place. -/
def Reading.read (R : Reading) (t : Ty) : Ty := t.subst R.value

/-- The reading is one of the cells. -/
structure Reading.Fits (R : Reading) (cells : Cells) : Prop where
  unsolved : ∀ id, cells id = none ↔ R.unsolved id
  own : ∀ id, R.unsolved id → R.value id = .metavar id
  solved : ∀ id solution, cells id = some solution → R.value id = R.read solution
  descends : ∀ id solution, cells id = some solution →
    ∀ other, solution.Shows other → R.rank other < R.rank id
  bounded : ∀ id, R.rank id ≤ R.bound
  built : ∀ id solution, cells id = some solution → solution.Built

/-- The cells can be read. -/
def Good (cells : Cells) : Prop := ∃ R : Reading, R.Fits cells

variable {R : Reading}

@[simp] theorem Reading.read_metavar (R : Reading) (id : Nat) :
    R.read (.metavar id) = R.value id := Ty.subst_metavar _ _

/-- What pruning makes of a type. -/
structure Reading.Prunes (R : Reading) (t v : Ty) : Prop where
  read : R.read v = R.read t
  unsolved : ∀ id, v = .metavar id → R.unsolved id
  built : t.Built → v.Built
  below : ∀ limit, (∀ id, t.Shows id → R.rank id < limit) → ∀ id, v.Shows id → R.rank id < limit

variable {cs : Cells}

theorem Reading.Fits.update (h : R.Fits cs) {id : Nat} {s v : Ty}
    (hsol : cs id = some s) (hr : R.value id = R.read v) (hbu : v.Built)
    (hb : ∀ other, v.Shows other → R.rank other < R.rank id) :
    R.Fits (Function.update cs id (some v)) where
  unsolved other := by
    by_cases hid : other = id
    · subst hid
      rw [Function.update_self, ← h.unsolved other, hsol]
      simp
    · rw [Function.update_of_ne hid, h.unsolved]
  own := h.own
  solved other solution' h' := by
    by_cases hid : other = id
    · subst hid
      rw [Function.update_self] at h'
      rw [← Option.some.inj h', hr]
    · rw [Function.update_of_ne hid] at h'
      exact h.solved other solution' h'
  descends other solution' h' := by
    by_cases hid : other = id
    · subst hid
      rw [Function.update_self] at h'
      rw [← Option.some.inj h']
      exact hb
    · rw [Function.update_of_ne hid] at h'
      exact h.descends other solution' h'
  bounded := h.bounded
  built other solution' h' := by
    by_cases hid : other = id
    · subst hid
      rw [Function.update_self] at h'
      rw [← Option.some.inj h']
      exact hbu
    · rw [Function.update_of_ne hid] at h'
      exact h.built other solution' h'

/-- Pruning follows the solutions to their end and writes what is at their end. -/
theorem prune_meets (R : Reading) (fu : Nat) (t : Ty) :
    (pruneType fu t).Meets R.Fits fun r => ∃ v, r = .ok v ∧ R.Prunes t v := by
  induction fu generalizing t with
  | zero => exact Attempt.Meets.spent
  | succ fu ih =>
    cases ho : t.openId with
    | none =>
      have hse : R.Prunes t t := by
        refine ⟨rfl, ?_, fun h => h, fun _ h => h⟩
        rintro id rfl
        cases ho
      cases t with
      | metavar id => cases ho
      | _ => exact Attempt.Meets.pure ⟨_, rfl, hse⟩
    | some id =>
      cases t with
      | metavar k =>
        intro cs hf
        cases hsol : cs k with
        | none =>
          have hrun : pruneType (fu + 1) (.metavar k) cs = some (.ok (.metavar k), cs) := by
            rw [pruneType, Attempt.bind_run]
            simp only [Attempt.andThen, Attempt.get, hsol, Attempt.pure_run]
          intro r af h
          obtain ⟨rfl, rfl⟩ := Prod.mk.inj (Option.some.inj (hrun.symm.trans h))
          refine ⟨hf, _, rfl, rfl, ?_, fun h => h, fun _ h => h⟩
          rintro id ⟨⟩
          exact (hf.unsolved k).mp hsol
        | some s =>
          have hrun : pruneType (fu + 1) (.metavar k) cs = (pruneType fu s >>= fun so => do
                setSolution k so
                pure so) cs := by
            rw [pruneType, Attempt.bind_run]
            simp only [Attempt.andThen, Attempt.get, hsol]
          intro r af h
          rw [hrun] at h
          rcases Attempt.bind_cases h with ⟨e, hr, -⟩ | ⟨v, be, hp, hset⟩
          · obtain ⟨-, _, hok, -⟩ := ih s cs hf _ _ hr
            cases hok
          · obtain ⟨hb, v', hok, hv⟩ := ih s cs hf _ _ hp
            obtain rfl := Except.ok.inj hok
            obtain ⟨rfl, rfl⟩ := Prod.mk.inj (Option.some.inj hset)
            have hval : R.value k = R.read v :=
              (hf.solved k s hsol).trans hv.read.symm
            have hd := hv.below _ (hf.descends k s hsol)
            have hs : ∃ old, be k = some old := by
              refine Option.ne_none_iff_exists'.mp fun hn => ?_
              have := (hf.unsolved k).mpr ((hb.unsolved k).mp hn)
              cases hsol.symm.trans this
            obtain ⟨old, hold⟩ := hs
            refine ⟨hb.update hold hval (hv.built (hf.built k s hsol)) hd, v, rfl, ?_⟩
            refine ⟨?_, hv.unsolved, fun _ => hv.built (hf.built k s hsol), ?_⟩
            · rw [Reading.read_metavar, hval]
            · intro l hl id hid
              exact Nat.lt_trans (hd id hid) (hl k .self)
      | _ => cases ho

/-- Pruning changes no reading. -/
theorem Pruned.fits {after : Cells} (h : Pruned cs after) (hf : R.Fits cs) : R.Fits after := by
  induction h with
  | refl => exact hf
  | step _ hp ih => exact (prune_meets R _ _ _ ih _ _ hp).1

theorem Pruned.good {after : Cells} (h : Pruned cs after) (hg : Good cs) : Good after := by
  obtain ⟨R, hf⟩ := hg
  exact ⟨R, h.fits hf⟩

/-! ### Values -/

/-- What a value shows is unsolved. -/
theorem Reading.Fits.value_shows (h : R.Fits cs) {id other : Nat}
    (hs : (R.value id).Shows other) : R.unsolved other := by
  induction hrank : R.rank id using Nat.strongRecOn generalizing id with
  | ind n ih =>
    cases hsol : cs id with
    | none =>
      have hu := (h.unsolved id).mp hsol
      rw [h.own id hu] at hs
      rwa [← hs.of_metavar]
    | some s =>
      rw [h.solved id s hsol, Reading.read, Ty.shows_subst] at hs
      obtain ⟨be, hb, ho⟩ := hs
      exact ih _ (hrank ▸ h.descends id s hsol be hb) ho rfl

variable {t : Ty}

theorem Reading.Fits.read_shows (h : R.Fits cs) {id : Nat} (hs : (R.read t).Shows id) :
    R.unsolved id := by
  obtain ⟨o, -, hid⟩ := Ty.shows_subst.mp hs
  exact h.value_shows hid

/-- A type that has been read reads as itself. -/
theorem Reading.Fits.read_read (h : R.Fits cs) (t : Ty) : R.read (R.read t) = R.read t := by
  have hs : (R.read t).subst R.value = (R.read t).subst .metavar :=
    Ty.subst_congr fun id hid => h.own id (h.read_shows hid)
  exact hs.trans (Ty.subst_metavars _)

theorem Reading.Fits.built_value (h : R.Fits cs) (id : Nat) : (R.value id).Built := by
  induction hrank : R.rank id using Nat.strongRecOn generalizing id with
  | ind n ih =>
    cases hsol : cs id with
    | none =>
      rw [h.own id ((h.unsolved id).mp hsol)]
      exact Ty.built_metavar id
    | some s =>
      rw [h.solved id s hsol]
      refine (h.built id s hsol).subst fun o ho => ?_
      exact ih _ (hrank ▸ h.descends id s hsol o ho) o rfl

theorem Reading.Fits.built_read (h : R.Fits cs) (ht : t.Built) : (R.read t).Built :=
  ht.subst fun id _ => h.built_value id

end Beagle.Types.Metas
