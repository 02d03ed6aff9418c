/-
What the traversals make of cells that can be read, and that unification keeps them so.

Under a reading every traversal is a function of the type as it reads: the occurs check
finds what the type shows, `zonk-type` gives the type as it reads or raises for a foreign
substitution with Any in it, and each ends within a bound that the size of the type and
the ranks give.  A binding takes a reading to a reading, and so
**the metavariables of every run are solved without a circle** (`solutions_stay_acyclic`).
-/
import Beagle.Lib.Reader
import Beagle.Proofs.SharedMetas

namespace Beagle.Types.Metas

open Beagle.Lib List

variable {R : Reading} {C : Context}

/-! ### Settled heads -/

variable {cs : Cells} {v t : Ty}

/-- A type whose head is not solved reads with its own head. -/
theorem Reading.Fits.parts_read (h : R.Fits cs) (hv : ∀ id, v = .metavar id → R.unsolved id) :
    (R.read v).parts = v.parts.map R.read := by
  cases ho : v.openId with
  | none => exact Ty.parts_subst ho
  | some id =>
    cases v with
    | metavar k =>
      rw [Reading.read_metavar, h.own k (hv k rfl)]
      rfl
    | _ => exact nomatch ho

theorem Reading.Fits.isAny_read (h : R.Fits cs) (hv : ∀ id, v = .metavar id → R.unsolved id) :
    (R.read v).isAny = v.isAny := by
  cases v with
  | metavar k =>
    rw [Reading.read_metavar, h.own k (hv k rfl)]
  | prim n => rw [Reading.read, Ty.subst_prim]
  | _ => simp [Reading.read, Ty.isAny]

/-- A type without metavariables reads as itself. -/
theorem Reading.read_closed (R : Reading) (h : ∀ id, ¬t.Mentions id) : R.read t = t := by
  have hs : t.subst R.value = t.subst .metavar :=
    Ty.subst_congr fun id hid => absurd hid.mentions (h id)
  exact hs.trans (Ty.subst_metavars t)

theorem Ty.hasAny_iff : t.HasAny ↔ t.isAny = true ∨ (∃ p ∈ t.parts, p.HasAny) ∨
    ∃ base pd pl, t = .refinement base pd pl ∧ base.HasAny := by
  constructor
  · intro h
    cases h with
    | self h => exact Or.inl h
    | part hp h => exact Or.inr (Or.inl ⟨_, hp, h⟩)
    | base h => exact Or.inr (Or.inr ⟨_, _, _, rfl, h⟩)
  · rintro (h | ⟨p, hp, h⟩ | ⟨base, pd, pl, rfl, h⟩)
    · exact .self h
    · exact .part hp h
    · exact .base h

/-! ### What the traversals find -/

theorem typeHasAny_meets (hR : R.Fits cs) (fuel : Nat) (ht : t.Built) :
    (typeHasAny fuel t).Meets R.Fits fun r =>
      ∃ fd, r = .ok fd ∧ (fd = true ↔ (R.read t).HasAny) := by
  induction fuel generalizing t with
  | zero => exact Attempt.Meets.spent
  | succ fuel ih =>
    refine Attempt.Meets.bind (prune_meets R fuel t) (by rintro e ⟨_, h, -⟩; cases h) ?_
    rintro c ⟨v, hok, hv⟩
    obtain rfl := Except.ok.inj hok
    rw [← hv.read, Ty.hasAny_iff, hR.isAny_read hv.unsolved, hR.parts_read hv.unsolved]
    have hb := hv.built ht
    by_cases hany : c.isAny = true
    · rw [if_pos hany]
      exact Attempt.Meets.pure ⟨true, rfl, by simp [hany]⟩
    · rw [if_neg hany]
      split
      · next ba pd pl =>
          have hcl := hb.refined
          refine (ih (Ty.built_of_closed hcl)).mono ?_
          rintro r ⟨fd, rfl, hf⟩
          rw [R.read_closed hcl] at hf
          refine ⟨fd, rfl, hf.trans ?_⟩
          simp [Reading.read, Ty.parts, Ty.isAny]
      · next hre =>
          refine (Attempt.Meets.any fun p hp => ih (hb.of_part hp)).mono ?_
          rintro r ⟨fd, rfl, hf⟩
          refine ⟨fd, rfl, hf.trans ?_⟩
          have hh : ¬∃ ba pd pl, R.read c = .refinement ba pd pl ∧ ba.HasAny := by
            rintro ⟨ba, pd, pl, hr, -⟩
            cases c with
            | metavar k =>
              rw [Reading.read_metavar, hR.own k (hv.unsolved k rfl)] at hr
              cases hr
            | refinement b p l => exact hre b p l rfl
            | _ => simp [Reading.read] at hr
          simp only [hany, hh, Bool.false_eq_true, false_or, or_false, mem_map,
            exists_exists_and_eq_and]

variable {id : Nat}

/-- The occurs check finds what the type shows when it is read. -/
theorem occurs_meets (hR : R.Fits cs) (hid : R.unsolved id) (fuel : Nat) (t : Ty) :
    (typeOccurs fuel id t).Meets R.Fits fun r =>
      ∃ fd, r = .ok fd ∧ (fd = true ↔ (R.read t).Shows id) := by
  induction fuel generalizing t with
  | zero => exact Attempt.Meets.spent
  | succ fuel ih =>
    refine Attempt.Meets.bind (prune_meets R fuel t) (fun e h => nomatch h.choose_spec.1) ?_
    rintro c ⟨v, hok, hv⟩
    obtain rfl := Except.ok.inj hok
    rw [← hv.read]
    split
    · next o =>
        rw [Reading.read_metavar, hR.own o (hv.unsolved o rfl)]
        refine Attempt.Meets.pure ⟨_, rfl, ?_⟩
        rw [beq_iff_eq]
        constructor
        · rintro rfl
          exact .self
        · exact Ty.Shows.of_metavar
    · next ho =>
        refine (Attempt.Meets.any fun p _ => ih p).mono ?_
        rintro r ⟨fd, rfl, hf⟩
        refine ⟨fd, rfl, hf.trans ?_⟩
        have hpa := hR.parts_read hv.unsolved
        constructor
        · rintro ⟨p, hp, hs⟩
          exact .part (by rw [hpa]; exact mem_map_of_mem hp) hs
        · intro hs
          generalize hu : R.read c = u at hs hpa
          cases hs with
          | self =>
            cases c with
            | metavar k => exact absurd rfl (ho k)
            | _ => simp [Reading.read] at hu
          | part hp hs =>
            rw [hpa] at hp
            obtain ⟨p, hmem, rfl⟩ := mem_map.mp hp
            exact ⟨p, hmem, hs⟩

/-! ### What `zonk-type` gives -/

open Classical in
/-- The checks of foreign substitutions that have been read. -/
noncomputable def checkOutcome : List String → List Ty → Except Raised Unit
  | id :: ids, t :: ts =>
    if t.HasAny then .error (.anySubstitution id t) else checkOutcome ids ts
  | _, _ => .ok ()

mutual

/-- What `zonk-type` gives for a type that has been read. -/
noncomputable def Ty.outcome : Ty → Except Raised Ty
  | .foreign i n ids types => do
      let types' ← Ty.outcomeList types
      checkOutcome ids.ids types'
      pure (.foreign i n ids types')
  | .fn ps r t => do
      let ps' ← Ty.outcomeList ps
      let r' ← Ty.outcomeOption r
      let t' ← t.outcome
      pure (.fn ps' r'.head? t')
  | .app c args => do
      let args' ← Ty.outcomeList args
      pure (.app c args')
  | .union alts => do
      let alts' ← Ty.outcomeList alts
      pure (.union alts')
  | .poly vars body bounded bounds inferred => do
      let body' ← body.outcome
      let bounds' ← Ty.outcomeList bounds
      pure (.poly vars body' bounded bounds' inferred)
  | .metavar id => pure (.metavar id)
  | .prim name => pure (.prim name)
  | .var name => pure (.var name)
  | .refinement base predicate placement => pure (.refinement base predicate placement)

noncomputable def Ty.outcomeList : List Ty → Except Raised (List Ty)
  | [] => pure []
  | a :: as => do
      let b ← a.outcome
      let bs ← Ty.outcomeList as
      pure (b :: bs)

noncomputable def Ty.outcomeOption : Option Ty → Except Raised (List Ty)
  | none => pure []
  | some a => do
      let b ← a.outcome
      pure [b]

end

theorem Ty.outcomeList_eq (as : List Ty) : Ty.outcomeList as = as.mapM Ty.outcome := by
  induction as with
  | nil => rfl
  | cons a as ih => rw [Ty.outcomeList, ih, mapM_cons]

theorem Ty.outcomeOption_eq (r : Option Ty) : Ty.outcomeOption r = r.toList.mapM Ty.outcome := by
  cases r with
  | none => rfl
  | some a =>
    rw [Ty.outcomeOption, Option.toList_some, mapM_cons]
    rfl

theorem mapM_ok {f : Ty → Except Raised Ty} (as : List Ty) {bs : List Ty}
    (hf : ∀ a ∈ as, ∀ b, f a = .ok b → b = a) (h : as.mapM f = .ok bs) : bs = as := by
  induction as generalizing bs with
  | nil => exact (Except.ok.inj h).symm
  | cons a r ih =>
    rw [mapM_cons] at h
    obtain ⟨b, hfst, h⟩ := except_bind_ok.mp h
    obtain ⟨os, hr, h⟩ := except_bind_ok.mp h
    rw [← Except.ok.inj h, hf a mem_cons_self b hfst,
      ih (fun o ho => hf o (mem_cons_of_mem _ ho)) hr]

variable {α : Type} {fuel : Nat} {as : List Ty} {β : Type} {u : Ty} {types : List Ty}

/-- Where it gives a type, it gives the type itself. -/
theorem Ty.outcome_ok (h : t.outcome = .ok u) : u = t := by
  induction t using Ty.partsRec generalizing u with
  | step t ih =>
    cases t with
    | prim | var | refinement | metavar => rw [Ty.outcome] at h; exact (Except.ok.inj h).symm
    | app c ar =>
      rw [Ty.outcome, Ty.outcomeList_eq] at h
      obtain ⟨ar', har, hu⟩ := except_bind_ok.mp h
      rw [← Except.ok.inj hu, mapM_ok ar (fun a ha b => ih a ha) har]
    | union al =>
      rw [Ty.outcome, Ty.outcomeList_eq] at h
      obtain ⟨a', hal, hu⟩ := except_bind_ok.mp h
      rw [← Except.ok.inj hu, mapM_ok al (fun a ha b => ih a ha) hal]
    | foreign i n ids types =>
      rw [Ty.outcome, Ty.outcomeList_eq] at h
      obtain ⟨ts', hty, h⟩ := except_bind_ok.mp h
      obtain ⟨_, _, hu⟩ := except_bind_ok.mp h
      rw [← Except.ok.inj hu, mapM_ok types (fun a ha b => ih a ha) hty]
    | poly va bod bo bs inferred =>
      rw [Ty.outcome, Ty.outcomeList_eq] at h
      obtain ⟨b', hbo, h⟩ := except_bind_ok.mp h
      obtain ⟨bs', hb, hu⟩ := except_bind_ok.mp h
      rw [← Except.ok.inj hu, ih bod mem_cons_self hbo,
        mapM_ok bs (fun a ha b => ih a (mem_cons_of_mem _ ha)) hb]
    | fn ps r t =>
      rw [Ty.outcome, Ty.outcomeList_eq, Ty.outcomeOption_eq] at h
      obtain ⟨ps', hps, h⟩ := except_bind_ok.mp h
      obtain ⟨r', hr, h⟩ := except_bind_ok.mp h
      obtain ⟨t', ht, hu⟩ := except_bind_ok.mp h
      simp only [Ty.parts, List.mem_append, mem_singleton] at ih
      rw [← Except.ok.inj hu, ih t (Or.inr (Or.inr rfl)) ht,
        mapM_ok ps (fun a ha b => ih a (Or.inl ha)) hps,
        mapM_ok r.toList (fun a ha b => ih a (Or.inr (Or.inl ha))) hr]
      cases r <;> rfl

theorem checkSubstitutions_meets (hR : R.Fits cs) (fuel : Nat) (ids : List String)
    (types : List Ty) (ht : ∀ t ∈ types, t.Built ∧ R.read t = t) :
    (checkSubstitutions fuel ids types).Meets R.Fits fun r => r = checkOutcome ids types := by
  induction ids generalizing types with
  | nil => exact Attempt.Meets.pure rfl
  | cons id rs ih =>
    cases types with
    | nil => exact Attempt.Meets.pure rfl
    | cons t ts =>
      obtain ⟨⟨hb, hr⟩, hre⟩ := forall_mem_cons.mp ht
      refine Attempt.Meets.bind (typeHasAny_meets hR fuel hb)
        (fun e h => nomatch h.choose_spec.1) ?_
      rintro fd ⟨_, hok, hf⟩
      obtain rfl := Except.ok.inj hok
      rw [hr] at hf
      rw [checkOutcome]
      cases fd with
      | true =>
        rw [if_pos (hf.mp rfl)]
        exact Attempt.Meets.raise rfl
      | false =>
        rw [if_neg fun h => nomatch hf.mpr h]
        exact ih ts hre

theorem each_meets (h : ∀ a ∈ as, (zonkType fuel a).Meets R.Fits fun r => r = (R.read a).outcome) :
    (Attempt.each (zonkType fuel) as).Meets R.Fits fun r =>
      r = (as.map R.read).mapM Ty.outcome := by
  have hmap : (as.map R.read).mapM Ty.outcome = as.mapM fun a => (R.read a).outcome :=
    mapM_map
  rw [hmap]
  exact Attempt.Meets.each h

/-- The result is that of the type as it reads. -/
theorem zonk_meets (hR : R.Fits cs) (fuel : Nat) (ht : t.Built) :
    (zonkType fuel t).Meets R.Fits fun r => r = (R.read t).outcome := by
  induction fuel generalizing t with
  | zero => exact Attempt.Meets.spent
  | succ fuel ih =>
    refine Attempt.Meets.bind (prune_meets R fuel t) (fun e h => nomatch h.choose_spec.1) ?_
    rintro cur ⟨v, hok, hv⟩
    obtain rfl := Except.ok.inj hok
    rw [← hv.read]
    have hpa : ∀ p ∈ cur.parts, (zonkType fuel p).Meets R.Fits fun r => r = (R.read p).outcome :=
      fun p hp => ih ((hv.built ht).of_part hp)
    split
    · next i n ids types =>
        have hbu := fun p hp => hR.built_read ((hv.built ht).of_part (p := p) hp)
        rw [Reading.read, Ty.subst_foreign, Ty.outcome, Ty.outcomeList_eq]
        refine Attempt.Meets.bind_eq (each_meets hpa) fun ts' hty => ?_
        refine Attempt.Meets.bind_eq (checkSubstitutions_meets hR fuel _ ts' ?_) fun _ _ => ?_
        · rw [mapM_ok _ (fun a _ b hb => Ty.outcome_ok hb) hty]
          intro u hu
          obtain ⟨p, hp, rfl⟩ := mem_map.mp hu
          exact ⟨hbu p hp, hR.read_read p⟩
        · exact Attempt.Meets.pure rfl
    · next ps r t =>
        simp only [Ty.parts, List.mem_append, mem_singleton] at hpa
        have hr : (r.map (Ty.subst R.value)).toList = r.toList.map R.read := by
          cases r <;> rfl
        rw [Reading.read, Ty.subst_fn, Ty.outcome, Ty.outcomeList_eq, Ty.outcomeOption_eq, hr]
        refine Attempt.Meets.bind_eq (each_meets fun p hp => hpa p (Or.inl hp)) fun ps' _ => ?_
        refine Attempt.Meets.bind_eq
          (each_meets fun p hp => hpa p (Or.inr (Or.inl hp))) fun r' _ => ?_
        refine Attempt.Meets.bind_eq (hpa t (Or.inr (Or.inr rfl))) fun t' _ => ?_
        exact Attempt.Meets.pure rfl
    · next c ar =>
        rw [Reading.read, Ty.subst_app, Ty.outcome, Ty.outcomeList_eq]
        exact Attempt.Meets.bind_eq (each_meets hpa) fun _ _ => Attempt.Meets.pure rfl
    · next al =>
        rw [Reading.read, Ty.subst_union, Ty.outcome, Ty.outcomeList_eq]
        exact Attempt.Meets.bind_eq (each_meets hpa) fun _ _ => Attempt.Meets.pure rfl
    · next va bod bo bs inferred =>
        obtain ⟨hbod, hbo⟩ := forall_mem_cons.mp hpa
        rw [Reading.read, Ty.subst_poly, Ty.outcome, Ty.outcomeList_eq]
        refine Attempt.Meets.bind_eq hbod fun _ _ => ?_
        exact Attempt.Meets.bind_eq (each_meets hbo) fun _ _ => Attempt.Meets.pure rfl
    · next hf hfn happ hun hpo =>
        refine Attempt.Meets.pure ?_
        cases cur with
        | metavar k =>
          rw [Reading.read_metavar, hR.own k (hv.unsolved k rfl), Ty.outcome]
          rfl
        | prim nm => rw [Reading.read, Ty.subst_prim, Ty.outcome]; rfl
        | var nm => rw [Reading.read, Ty.subst_var, Ty.outcome]; rfl
        | refinement b p l => rw [Reading.read, Ty.subst_refinement, Ty.outcome]; rfl
        | fn ps r t => exact absurd rfl (hfn ps r t)
        | app c ar => exact absurd rfl (happ c ar)
        | union al => exact absurd rfl (hun al)
        | poly va bod bo bs inferred =>
          exact absurd rfl (hpo va bod bo bs inferred)
        | foreign i n ids types => exact absurd rfl (hf i n ids types)

/-! ### The traversals end -/

variable (hfits : R.Fits cs)
include hfits

theorem prune_ends (hf : 0 < fuel) (hr : ∀ id, t.Shows id → R.rank id + 1 < fuel) :
    (pruneType fuel t).Ends cs := by
  induction fuel generalizing t with
  | zero => exact absurd hf (Nat.lt_irrefl 0)
  | succ fuel ih =>
    cases t with
    | metavar k =>
      have hk := hr k .self
      rw [pruneType]
      refine Attempt.Ends.bind ⟨_, _, rfl⟩ ?_
      intro r s hget rd hok
      obtain ⟨rfl, rfl⟩ := Prod.mk.inj (Option.some.inj hget)
      obtain rfl := Except.ok.inj hok
      cases hsol : cs k with
      | none => exact Attempt.Ends.pure
      | some sol =>
        refine Attempt.Ends.bind (ih (by omega) fun id hid => ?_) ?_
        · have := hfits.descends k sol hsol id hid
          omega
        · intro _ _ _ _ _
          exact ⟨_, _, rfl⟩
    | _ => exact Attempt.Ends.pure

/-- What pruning within the bound of the ranks gives. -/
theorem prune_within (t : Ty) (hf : R.bound + 2 ≤ fuel) : (pruneType fuel t).Ends cs := by
  refine prune_ends hfits (by omega) fun id _ => ?_
  have := hfits.bounded id
  omega

theorem sizeOf_read_part {p : Ty} (hv : R.Prunes t v) (hp : p ∈ v.parts) :
    sizeOf (R.read p) < sizeOf (R.read t) := by
  rw [← hv.read]
  refine Ty.sizeOf_part ?_
  rw [hfits.parts_read hv.unsolved]
  exact mem_map_of_mem hp

theorem typeHasAny_ends (ht : t.Built) (hf : sizeOf (R.read t) + R.bound + 2 ≤ fuel) :
    (typeHasAny fuel t).Ends cs := by
  induction fuel generalizing t cs with
  | zero => omega
  | succ fuel ih =>
    have hs := (R.read t).sizeOf_pos
    refine Attempt.Ends.bind (prune_within hfits t (by omega)) ?_
    intro r a hrun c hok
    obtain ⟨hpo, v, hv', hv⟩ := prune_meets R fuel t cs hfits r a hrun
    obtain rfl := Except.ok.inj (hok.symm.trans hv')
    have hb := hv.built ht
    split
    · exact Attempt.Ends.pure
    · split
      · next b pd placement _ =>
          refine ih hpo (Ty.built_of_closed hb.refined) ?_
          have hlt := Ty.sizeOf_base b pd placement
          have hr : R.read t = .refinement b pd placement := by
            rw [← hv.read, Reading.read, Ty.subst_refinement]
          rw [R.read_closed hb.refined]
          rw [hr] at hf
          omega
      · refine Attempt.Ends.any Pruned.refl Pruned.trans (typeHasAny_prunes fuel) ?_
        intro p hp l hl
        have := sizeOf_read_part hpo hv hp
        exact ih (hl.fits hpo) (hb.of_part hp) (by omega)

theorem occurs_ends (id : Nat) (hf : sizeOf (R.read t) + R.bound + 2 ≤ fuel) :
    (typeOccurs fuel id t).Ends cs := by
  induction fuel generalizing t cs with
  | zero => omega
  | succ fuel ih =>
    have hs := (R.read t).sizeOf_pos
    refine Attempt.Ends.bind (prune_within hfits t (by omega)) ?_
    intro r a hrun c hok
    obtain ⟨hpo, v, hv', hv⟩ := prune_meets R fuel t cs hfits r a hrun
    obtain rfl := Except.ok.inj (hok.symm.trans hv')
    split
    · exact Attempt.Ends.pure
    · refine Attempt.Ends.any Pruned.refl Pruned.trans (occurs_prunes fuel id) ?_
      intro p hp l hl
      have := sizeOf_read_part hpo hv hp
      exact ih (hl.fits hpo) (by omega)

theorem checkSubstitutions_ends (ids : List String)
    (ht : ∀ t ∈ types, t.Built ∧ sizeOf (R.read t) + R.bound + 2 ≤ fuel) :
    (checkSubstitutions fuel ids types).Ends cs := by
  induction ids generalizing types cs with
  | nil => exact Attempt.Ends.pure
  | cons id rs ih =>
    cases types with
    | nil => exact Attempt.Ends.pure
    | cons t ts =>
      obtain ⟨⟨hb, hf⟩, hr⟩ := forall_mem_cons.mp ht
      refine Attempt.Ends.bind (typeHasAny_ends hfits hb hf) ?_
      intro r a hrun fd _
      have hp := (typeHasAny_prunes fuel t cs r a hrun).fits hfits
      cases fd with
      | true => exact Attempt.Ends.raise
      | false => exact ih hp hr

theorem zonk_ends (ht : t.Built) (hf : sizeOf (R.read t) + R.bound + 2 ≤ fuel) :
    (zonkType fuel t).Ends cs := by
  induction fuel generalizing t cs with
  | zero => omega
  | succ fuel ih =>
    have hsi := (R.read t).sizeOf_pos
    refine Attempt.Ends.bind (prune_within hfits t (by omega)) ?_
    intro r af hrun c hok
    obtain ⟨hpo, v, hv', hv⟩ := prune_meets R fuel t cs hfits r af hrun
    obtain rfl := Except.ok.inj (hok.symm.trans hv')
    have hpa : ∀ p ∈ c.parts, ∀ later, R.Fits later → (zonkType fuel p).Ends later := by
      intro p hp later hl
      have := sizeOf_read_part hpo hv hp
      exact ih hl ((hv.built ht).of_part hp) (by omega)
    have he : ∀ as : List Ty, (∀ p ∈ as, p ∈ c.parts) → ∀ later, R.Fits later →
        (Attempt.each (zonkType fuel) as).Ends later := by
      intro as has later hl
      refine Attempt.Ends.each Pruned.refl Pruned.trans (zonk_prunes fuel) ?_
      intro p hp last hla
      exact hpa p (has p hp) last (hla.fits hl)
    have hs : ∀ {as : List Ty} {r later last}, R.Fits later →
        Attempt.each (zonkType fuel) as later = some (r, last) → R.Fits last :=
      fun hl h => (each_prunes (zonk_prunes fuel) _ _ _ _ h).fits hl
    split
    · next i n ids types =>
        have hm : (Attempt.each (zonkType fuel) types).Meets R.Fits fun r =>
            r = (types.map R.read).mapM Ty.outcome :=
          each_meets fun p hp => zonk_meets hpo fuel ((hv.built ht).of_part hp)
        refine Attempt.Ends.bind (he types (fun _ h => h) af hpo) ?_
        intro r' later hrun' ts' hok'
        obtain ⟨hl, hres⟩ := hm af hpo r' later hrun'
        have hty := mapM_ok _ (fun a _ b hb => Ty.outcome_ok hb) (hres.symm.trans hok')
        refine Attempt.Ends.bind (checkSubstitutions_ends hl _ ?_) fun _ _ _ _ _ =>
          Attempt.Ends.pure
        rw [hty]
        intro u hu
        obtain ⟨p, hp, rfl⟩ := mem_map.mp hu
        have := sizeOf_read_part hpo hv hp
        rw [hpo.read_read]
        exact ⟨hpo.built_read ((hv.built ht).of_part hp), by omega⟩
    · next ps r t =>
        have hmem : ∀ {as : List Ty}, (∀ p ∈ as, p ∈ ps ++ (r.toList ++ [t])) →
            ∀ p ∈ as, p ∈ (Ty.fn ps r t).parts := fun h => h
        refine Attempt.Ends.bind (he ps (hmem fun p hp => by simp [hp]) af hpo) ?_
        intro _ first hfst ps' _
        have hps := hs hpo hfst
        refine Attempt.Ends.bind
          (he r.toList (hmem fun p hp => by simp [Option.mem_toList.mp hp]) first hps) ?_
        intro _ s hsnd r' _
        have hr := hs hps hsnd
        refine Attempt.Ends.bind (hpa t (by simp [Ty.parts]) s hr) ?_
        exact fun _ _ _ _ _ => Attempt.Ends.pure
    · exact Attempt.Ends.bind (he _ (fun _ h => h) af hpo) fun _ _ _ _ _ =>
        Attempt.Ends.pure
    · exact Attempt.Ends.bind (he _ (fun _ h => h) af hpo) fun _ _ _ _ _ =>
        Attempt.Ends.pure
    · next va bo bou bs inferred =>
        refine Attempt.Ends.bind (hpa bo mem_cons_self af hpo) ?_
        intro _ first hfst b' _
        have hbo := (zonk_prunes fuel bo _ _ _ hfst).fits hpo
        refine Attempt.Ends.bind (he bs (fun _ h => mem_cons_of_mem _ h) first hbo) ?_
        exact fun _ _ _ _ _ => Attempt.Ends.pure
    · exact Attempt.Ends.pure

omit hfits

/-! ### A binding extends the reading -/

open Classical in
/-- The reading once a metavariable has been bound to a type that reads as `u`. -/
noncomputable def Reading.bind (R : Reading) (id : Nat) (u : Ty) : Reading where
  value other := (R.value other).subst fun k => if k = id then u else .metavar k
  -- whatever leads to the metavariable is lifted above all that it may now lead to
  rank other := R.rank other + if (R.value other).Shows id then R.bound + 1 else 0
  bound := R.bound + (R.bound + 1)
  unsolved other := R.unsolved other ∧ other ≠ id

theorem Reading.read_bind (R : Reading) (id : Nat) (u t : Ty) :
    (R.bind id u).read t = (R.read t).subst fun k => if k = id then u else .metavar k := by
  rw [Reading.read, Reading.read, Ty.subst_subst]
  rfl

theorem Ty.subst_of_not_shows (h : ¬t.Shows id) :
    (t.subst fun k => if k = id then u else .metavar k) = t := by
  refine Eq.trans (Ty.subst_congr fun k hk => ?_) (Ty.subst_metavars t)
  exact if_neg fun heq : k = id => h (heq ▸ hk)

theorem Reading.Fits.bind (h : R.Fits cs) {id : Nat} {tg : Ty} (hid : R.unsolved id)
    (htgt : tg.Built) (hnot : ¬(R.read tg).Shows id) :
    (R.bind id (R.read tg)).Fits (Function.update cs id (some tg)) where
  unsolved other := by
    by_cases heq : other = id
    · rw [heq, Function.update_self]
      simp [Reading.bind]
    · rw [Function.update_of_ne heq, h.unsolved]
      simp [Reading.bind, heq]
  own other ho := by
    show (R.value other).subst _ = _
    rw [h.own other ho.1, Ty.subst_metavar, if_neg ho.2]
  solved other solution hsol := by
    rw [Reading.read_bind]
    show (R.value other).subst _ = _
    by_cases heq : other = id
    · rw [heq, Function.update_self] at hsol
      rw [← Option.some.inj hsol, heq, h.own id hid, Ty.subst_metavar, if_pos rfl,
        Ty.subst_of_not_shows hnot]
    · rw [Function.update_of_ne heq] at hsol
      rw [h.solved other solution hsol]
  descends other solution hsol k hk := by
    show R.rank k + _ < R.rank other + _
    by_cases heq : other = id
    · rw [heq, Function.update_self] at hsol
      rw [← Option.some.inj hsol] at hk
      have hk' : ¬(R.value k).Shows id := fun hs => hnot (Ty.shows_subst.mpr ⟨k, hk, hs⟩)
      have hse : (R.value other).Shows id := by
        rw [heq, h.own id hid]
        exact .self
      have := h.bounded k
      rw [if_neg hk', if_pos hse]
      omega
    · rw [Function.update_of_ne heq] at hsol
      have hr := h.descends other solution hsol k hk
      by_cases hs : (R.value k).Shows id
      · have ho : (R.value other).Shows id := by
          rw [h.solved other solution hsol]
          exact Ty.shows_subst.mpr ⟨k, hk, hs⟩
        rw [if_pos hs, if_pos ho]
        omega
      · rw [if_neg hs]
        omega
  bounded other := by
    show R.rank other + _ ≤ R.bound + _
    have := h.bounded other
    split_ifs <;> omega
  built other solution hsol := by
    by_cases heq : other = id
    · rw [heq, Function.update_self] at hsol
      rw [← Option.some.inj hsol]
      exact htgt
    · rw [Function.update_of_ne heq] at hsol
      exact h.built other solution hsol

theorem bindTypeMeta_good (hfits : R.Fits cs) (fuel : Nat) (hid : R.unsolved id)
    (ht : t.Built) : (bindTypeMeta C fuel id t).After cs fun _ after => Good after := by
  refine Attempt.After.bind (prune_meets R fuel t cs hfits) (fun _ _ h => ⟨R, h.1⟩) ?_
  rintro tg b ⟨hb, v, hok, hv⟩
  obtain rfl := Except.ok.inj hok
  split
  · exact Attempt.After.pure ⟨R, hb⟩
  · split
    · exact Attempt.After.pure ⟨R, hb⟩
    · refine Attempt.After.bind (occurs_meets hfits hid fuel tg b hb) (fun _ _ h => ⟨R, h.1⟩) ?_
      rintro fd after ⟨hp, _, hok, hf⟩
      obtain rfl := Except.ok.inj hok
      cases fd with
      | true =>
        intro r l hr
        exact ⟨R, (raiseTypeUnification_prunes _ _ _ _ _ _ hr).fits hp⟩
      | false =>
        intro r l hset
        obtain ⟨-, rfl⟩ := Prod.mk.inj (Option.some.inj hset)
        exact ⟨_, hp.bind hid (hv.built ht) fun h => nomatch hf.mpr h⟩

/-! ### Unification -/

/-- A step of unification keeps the cells good. -/
abbrev Sound {α : Type} (m : Solve α) : Prop := m.Meets Good fun _ => True

variable {m : Solve α} {es : List Ty}

theorem sound_of_prunes (h : m.Keeps Pruned) : Sound m :=
  Attempt.Meets.of_keeps h fun _ _ => Pruned.good

theorem Sound.andThen {f : α → Solve β} (hm : Sound m) (hf : ∀ a, Sound (f a)) : Sound (m >>= f) :=
  Attempt.Meets.bind hm (fun _ _ => True.intro) fun a _ => hf a

/-- It keeps them good for built types. -/
def Unifies (unify : Ty → Ty → Solve Ty) : Prop :=
  ∀ actual expected, actual.Built → expected.Built → Sound (unify actual expected)

variable {un : Ty → Ty → Solve Ty}

theorem pairs_sound (huni : Unifies un) (has : ∀ a ∈ as, a.Built)
    (hes : ∀ e ∈ es, e.Built) : Sound (unifyPairs un as es) := by
  refine Sound.andThen (Attempt.Meets.each_true ?_) fun _ => Attempt.Meets.pure True.intro
  rintro ⟨a, e⟩ hp
  obtain ⟨ha, he⟩ := of_mem_zip hp
  exact huni a e (has a ha) (hes e he)

theorem raise_sound (left right : Ty) (reason : String) :
    Sound (raiseTypeUnification C left right reason : Solve α) :=
  sound_of_prunes (raiseTypeUnification_prunes left right reason)

theorem lists_sound (huni : Unifies un) (has : ∀ a ∈ as, a.Built)
    (hes : ∀ e ∈ es, e.Built) (l r : Ty) :
    Sound (unifyTypeLists C un as es l r) := by
  unfold unifyTypeLists
  split
  · exact pairs_sound huni has hes
  · exact raise_sound l r _

theorem zonk_sound (fuel : Nat) (t : Ty) : Sound (zonkType fuel t) :=
  sound_of_prunes (zonk_prunes fuel t)

theorem heads_sound (fuel : Nat) {ar : Ty → Ty → Solve Ty} (ha : Unifies ar) :
    Unifies (unifyHeads C fuel ar) := by
  rintro ac ex hact hexp cs ⟨R, hfits⟩
  refine Attempt.After.mono (P := fun _ a => Good a) ?_ fun _ _ h => ⟨h, True.intro⟩
  refine Attempt.After.bind (prune_meets R fuel ac cs hfits) (fun _ _ h => ⟨R, h.1⟩) ?_
  rintro l first ⟨hfst, v, hok, hl⟩
  obtain rfl := Except.ok.inj hok
  refine Attempt.After.bind (prune_meets R fuel ex first hfst) (fun _ _ h => ⟨R, h.1⟩) ?_
  rintro ri s ⟨hsnd, w, hok, hr⟩
  obtain rfl := Except.ok.inj hok
  have ho : ∀ {t v : Ty} {id : Nat}, R.Prunes t v → v.openId = some id → R.unsolved id := by
    intro t v id hv hid
    cases v with
    | metavar k => exact hv.unsolved id (congrArg _ (Option.some.inj hid))
    | _ => exact nomatch hid
  split
  · exact Attempt.After.pure ⟨R, hsnd⟩
  · split
    · next id hid =>
        exact bindTypeMeta_good hsnd fuel (ho hl hid) (hr.built hexp)
    · split
      · next id hid =>
          exact bindTypeMeta_good hsnd fuel (ho hr hid) (hl.built hact)
      · intro r a hrun
        exact (ha l ri (hl.built hact) (hr.built hexp) s ⟨R, hsnd⟩ r a hrun).1

theorem foreignPairs_built {l r : Ty} {ts' : List Ty} (hl : l.Built)
    (hr : r.Built) (h : foreignPairs l r = some (types, ts')) :
    (∀ t ∈ types, t.Built) ∧ ∀ t ∈ ts', t.Built := by
  unfold foreignPairs at h
  split at h
  · split at h
    · obtain ⟨rfl, rfl⟩ := Prod.mk.inj (Option.some.inj h)
      exact ⟨fun t ht => hl.of_part ht, fun t ht => hr.of_part ht⟩
    · exact nomatch h
  · exact nomatch h

theorem invariant_sound (fuel : Nat) : Unifies (unifyInvariantTypes C fuel) := by
  induction fuel with
  | zero => exact fun _ _ _ _ => Attempt.Meets.spent
  | succ fuel ih =>
    refine heads_sound fuel ?_
    intro left right hl hr
    unfold unifyInvariantArms
    split
    · next types types' hpairs =>
        obtain ⟨htypes, htypes'⟩ := foreignPairs_built hl hr hpairs
        exact (pairs_sound ih htypes htypes').andThen fun _ => zonk_sound fuel right
    · split
      · exact raise_sound left right _
      · split
        · exact Attempt.Meets.pure True.intro
        · split
          · exact raise_sound left right _
          · refine Sound.andThen (sound_of_prunes (closedAnd_prunes
              (invariantEqual_prunes C.tables fuel) fuel left right)) fun closed => ?_
            split
            · exact Attempt.Meets.pure True.intro
            · split
              · split
                · refine Sound.andThen ?_ fun _ => zonk_sound fuel _
                  exact lists_sound ih (fun _ h => hl.of_part h) (fun _ h => hr.of_part h) _ _
                · exact raise_sound _ _ _
              · refine Sound.andThen ?_ fun _ => zonk_sound fuel _
                exact lists_sound ih (fun _ h => hl.of_part h) (fun _ h => hr.of_part h) _ _
              · exact raise_sound _ _ _

theorem shapes_sound (fuel : Nat) {invariant unify : Ty → Ty → Solve Ty}
    (hinv : Unifies invariant) (huni : Unifies unify) :
    Unifies (unifyShapes C fuel invariant unify) := by
  intro left right hl hr
  unfold unifyShapes
  split
  · next ps restType ret ps' restType' ret' =>
      have hmem : ∀ {t : Ty}, t ∈ ps ++ (restType.toList ++ [ret]) → t.Built :=
        fun h => hl.of_part h
      have hmem' : ∀ {t : Ty}, t ∈ ps' ++ (restType'.toList ++ [ret']) → t.Built :=
        fun h => hr.of_part h
      refine Sound.andThen (lists_sound huni (fun _ h => hmem (by simp [h]))
        (fun _ h => hmem' (by simp [h])) _ _) fun _ => ?_
      refine Sound.andThen ?_ fun _ => ?_
      · unfold unifyRests
        split
        · refine Sound.andThen (huni _ _ (hmem ?_) (hmem' ?_)) fun _ =>
            Attempt.Meets.pure True.intro
          · simp
          · simp
        · exact Attempt.Meets.pure True.intro
        · exact raise_sound _ _ _
      · exact (huni _ _ (hmem (by simp)) (hmem' (by simp))).andThen fun _ => zonk_sound fuel _
  · split
    · refine Sound.andThen ?_ fun _ => zonk_sound fuel _
      exact lists_sound hinv (fun _ h => hl.of_part h) (fun _ h => hr.of_part h) _ _
    · split
      · refine Sound.andThen ?_ fun _ => zonk_sound fuel _
        exact lists_sound huni (fun _ h => hl.of_part h) (fun _ h => hr.of_part h) _ _
      · exact raise_sound _ _ _
  · refine Sound.andThen ?_ fun _ => zonk_sound fuel _
    exact lists_sound huni (fun _ h => hl.of_part h) (fun _ h => hr.of_part h) _ _
  · exact raise_sound _ _ _

theorem unify_sound (fuel : Nat) : Unifies (unifyTypes C fuel) := by
  induction fuel with
  | zero => exact fun _ _ _ _ => Attempt.Meets.spent
  | succ fuel ih =>
    refine heads_sound fuel ?_
    intro left right hl hr
    unfold unifyArms
    split
    · next types types' hpairs =>
        obtain ⟨htypes, htypes'⟩ := foreignPairs_built hl hr hpairs
        exact (pairs_sound ih htypes htypes').andThen fun _ => zonk_sound fuel right
    · split
      · refine Sound.andThen (sound_of_prunes (compatible_prunes fuel left right)) fun found => ?_
        split
        · exact Attempt.Meets.pure True.intro
        · exact raise_sound _ _ _
      · split
        · exact Attempt.Meets.pure True.intro
        · split
          · exact Attempt.Meets.pure True.intro
          · split
            · split
              · exact Attempt.Meets.pure True.intro
              · exact raise_sound _ _ _
            · exact raise_sound _ _ _
            · exact raise_sound _ _ _
            · exact raise_sound _ _ _
            · exact raise_sound _ _ _
            · refine Sound.andThen (sound_of_prunes (closedAnd_prunes
                (compatible_prunes fuel) fuel left right)) fun closed => ?_
              split
              · exact Attempt.Meets.pure True.intro
              · exact shapes_sound fuel (invariant_sound fuel) ih left right hl hr

/-! ### Runs -/

theorem good_fresh : Good fun _ => none := by
  refine ⟨⟨.metavar, fun _ => 0, 0, fun _ => True⟩, ?_⟩
  exact ⟨by simp, fun _ _ => rfl, fun _ _ h => (nomatch h), fun _ _ h => (nomatch h),
    fun _ => Nat.le_refl 0, fun _ _ h => (nomatch h)⟩

/-- **Whatever cells are reached can be read.** -/
theorem Reached.good (h : Reached cs) : Good cs := by
  induction h with
  | fresh => exact good_fresh
  | unify _ hact hexp hrun ih => exact (unify_sound _ _ _ hact hexp _ ih _ _ hrun).1
  | unifyInvariant _ hact hexp hrun ih =>
    exact (invariant_sound _ _ _ hact hexp _ ih _ _ hrun).1
  | zonk _ hrun ih => exact (zonk_prunes _ _ _ _ _ hrun).good ih
  | prune _ hrun ih => exact (prune_prunes _ _ _ _ _ hrun).good ih
  | occurs _ hrun ih => exact (occurs_prunes _ _ _ _ _ _ hrun).good ih

/-- A reading leaves no circle. -/
theorem Reading.Fits.acyclic (h : R.Fits cs) (id : Nat) : ¬Relation.TransGen (Leads cs) id id := by
  have hs : ∀ {a b}, Leads cs a b → R.rank b < R.rank a := by
    rintro a b ⟨s, hsol, hm⟩
    exact h.descends a s hsol b ((h.built a s hsol).shows hm)
  have hlt : ∀ {a b}, Relation.TransGen (Leads cs) a b → R.rank b < R.rank a := by
    intro a b hab
    induction hab with
    | single hab => exact hs hab
    | tail _ hbc ih => exact Nat.lt_trans (hs hbc) ih
  exact fun hc => Nat.lt_irrefl _ (hlt hc)

/-- What the traversals make of a type, with a bound from some size on. -/
structure Traversed (cells : Cells) (t : Ty) (fuel : Nat) : Prop where
  pruneEnds : (pruneType fuel t).Ends cells
  zonkEnds : (zonkType fuel t).Ends cells
  occursEnds : ∀ id, (typeOccurs fuel id t).Ends cells
  /-- What `zonk-type` gives it gives again. -/
  idempotent : ∀ u after, zonkType fuel t cells = some (.ok u, after) →
    ∃ last, zonkType fuel u after = some (.ok u, last)
  /-- What `zonk-type` gives mentions nothing that is solved. -/
  unsolved : ∀ u after, zonkType fuel t cells = some (.ok u, after) →
    ∀ id, u.Mentions id → after id = none
  /-- Pruning any type changes nothing that `zonk-type` gives. -/
  compressed : ∀ other result after, pruneType fuel other cells = some (result, after) →
    (zonkType fuel t after).map Prod.fst = (zonkType fuel t cells).map Prod.fst

theorem Reading.Fits.traversed (h : R.Fits cs) (ht : t.Built)
    (hf : sizeOf (R.read t) + R.bound + 2 ≤ fuel) : Traversed cs t fuel := by
  have hout : ∀ {u r a later}, u.Built → R.Fits later →
      zonkType fuel u later = some (r, a) → R.Fits a ∧ r = (R.read u).outcome :=
    fun hu hl hrun => zonk_meets h fuel hu _ hl _ _ hrun
  refine ⟨prune_within h t (by omega), zonk_ends h ht hf, fun id => occurs_ends h id hf, ?_, ?_, ?_⟩
  · intro u a hrun
    obtain ⟨hp, hu⟩ := hout ht h hrun
    obtain rfl := Ty.outcome_ok hu.symm
    have hb := h.built_read ht
    have hre := h.read_read t
    have hf' : sizeOf (R.read (R.read t)) + R.bound + 2 ≤ fuel := by
      rw [hre]
      exact hf
    obtain ⟨r, l, ha⟩ := zonk_ends hp hb hf'
    obtain ⟨-, hr⟩ := hout hb hp ha
    rw [hre, ← hu] at hr
    exact ⟨l, hr ▸ ha⟩
  · intro u a hrun id hid
    obtain ⟨hp, hu⟩ := hout ht h hrun
    obtain rfl := Ty.outcome_ok hu.symm
    exact (hp.unsolved id).mpr (h.read_shows ((h.built_read ht).shows hid))
  · intro o res a hpr
    have hp := (prune_meets R fuel o cs h res a hpr).1
    obtain ⟨r, l, hrun⟩ := zonk_ends h ht hf
    obtain ⟨r', l', hrun'⟩ := zonk_ends hp ht hf
    rw [hrun, hrun', Option.map_some, Option.map_some, (hout ht h hrun).2, (hout ht hp hrun').2]

/-- **After any calls, returning or raising, no metavariable is solved in a circle, and from some
    bound on every traversal of a built type ends, `zonk-type` is idempotent and leaves nothing
    that is solved, and pruning changes nothing that it gives.** -/
theorem solutions_stay_acyclic {cells : Cells} (h : Reached cells) :
    (∀ id, ¬Relation.TransGen (Leads cells) id id) ∧
      ∀ t : Ty, t.Built → ∃ bound, ∀ fuel, bound ≤ fuel → Traversed cells t fuel := by
  obtain ⟨R, hfits⟩ := h.good
  exact ⟨hfits.acyclic, fun t ht => ⟨_, fun fuel hf => hfits.traversed ht hf⟩⟩

/-! ### A binding and a circle -/

/-- The context outside any program: no tables, and foreign types are compatible when equal. -/
def detached : Context where
  tables := ⟨fun _ => none, fun _ => false, fun _ => false, fun _ => none⟩
  same
    | .metavar m, .metavar n => m == n
    | _, _ => false
  same_metavar _ _ := rfl
  eq_of_same a b h := by
    cases a with
    | metavar m =>
      cases b with
      | metavar n => rw [beq_iff_eq.mp h]
      | _ => exact nomatch h
    | _ => exact nomatch h
  foreignCompatible actual expected :=
    pure (actual.isForeign && expected.isForeign && actual.equal expected)
  typeString _ := pure ""
  foreign_prunes _ _ := pure_prunes _
  string_prunes _ := pure_prunes _

/-- A metavariable bound to the vectors of another. -/
theorem vector_stays_acyclic : (∀ id, ¬Relation.TransGen
      (Leads (Function.update (fun _ => none) 0 (some (.app "Vec" [.metavar 1])))) id id) ∧
      ∀ t : Ty, t.Built → ∃ bound, ∀ fuel, bound ≤ fuel →
        Traversed (Function.update (fun _ => none) 0 (some (.app "Vec" [.metavar 1]))) t fuel := by
  have hrun : unifyTypes detached 4 (.metavar 0) (.app "Vec" [.metavar 1]) (fun _ => none) =
      some (.ok (.app "Vec" [.metavar 1]),
        Function.update (fun _ => none) 0 (some (.app "Vec" [.metavar 1]))) := rfl
  have hvec : (Ty.app "Vec" [.metavar 1]).Built := by
    refine .intro ?_ fun _ _ _ h => nomatch h
    intro p hp
    rw [mem_singleton.mp hp]
    exact Ty.built_metavar 1
  exact solutions_stay_acyclic (.unify .fresh (Ty.built_metavar 0) hvec hrun)

/-- A metavariable is bound to a refinement of itself, and what `zonk-type` gives for it mentions
    it although it is solved. -/
theorem refinement_leads_back : ∃ result after,
    unifyTypes detached 4 (.metavar 0) (.refinement (.metavar 0) "pos?" "inline")
        (fun _ => none) = some (result, after) ∧
      Relation.TransGen (Leads after) 0 0 ∧
      ∃ u last, zonkType 4 (.metavar 0) after = some (.ok u, last) ∧ u.Mentions 0 ∧ last 0 ≠ none :=
  ⟨_, _, rfl, .single ⟨_, rfl, .base .self⟩, _, _, rfl, .base .self, nofun⟩

end Beagle.Types.Metas
