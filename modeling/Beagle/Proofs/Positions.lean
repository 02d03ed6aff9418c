/-
Positions of two types, arm by arm.

Two functions, two applications of one constructor and two unions are related in the
way of their position when their parts are related in the way of theirs; but for
unions in the two directions of acceptance, the parts decide the whole.
-/
import Beagle.Proofs.Assignable
import Beagle.Types.Variance

namespace Beagle.Types

open List

variable {T : Tables}

/-- The parts of two types are related one by one. -/
abbrev Position.AllHold (T : Tables) (position : Position) (as es : List Ty) : Prop :=
  Forall₂ (fun a e => position.holds T a e = true) as es

variable {p : Position} {as es ps p' : List Ty} {R : Ty → Ty → Prop}
  {re : Ty → Ty → Bool} {r r' : Option Ty} {t t' : Ty} {c : String}

theorem Position.allHold_cons {a e : Ty} : p.AllHold T (a :: as) (e :: es) ↔
      p.holds T a e = true ∧ p.AllHold T as es := forall₂_cons

theorem forall₂_comm : Forall₂ (fun a e => R e a) es as ↔ Forall₂ R as es :=
  ⟨Forall₂.flip, Forall₂.flip⟩

theorem forall₂_getElem_iff : Forall₂ R as es ↔
      as.length = es.length ∧ ∀ i (_ : i < as.length) (_ : i < es.length), R as[i] es[i] :=
  forall₂_iff_get

/-- **Every type is related to itself.** -/
theorem Position.holds_self (p : Position) (t : Ty) : p.holds T t t = true := by
  cases p with
  | accepts | accepted => exact accepts_refl t
  | same => exact typeInvariantEqual_self t
  | identical => exact Ty.equal_self t
  | free => rfl

/-! ### Functions -/

/-- The function arm for two functions of one shape. -/
theorem fnCompatible_aligned (hlen : ps.length = p'.length) (hre : r.isSome = r'.isSome) :
    fnCompatible re ps r t p' r' t' = true ↔ Forall₂ (fun a e => re e a = true) ps p' ∧
        Forall₂ (fun a e => re e a = true) r.toList r'.toList ∧ re t t' = true := by
  rw [fnCompatible_conjuncts, forall₂_getElem_iff]
  have hr : (∀ e ∈ r', ∃ a ∈ r, re e a = true) ↔
      Forall₂ (fun a e => re e a = true) r.toList r'.toList := by
    cases r with
    | none =>
      cases r' with
      | none => simp
      | some e => cases hre
    | some a =>
      cases r' with
      | none => cases hre
      | some e => simp
  constructor
  · rintro ⟨-, -, hf, -, hl, hret⟩
    exact ⟨⟨hlen, hf⟩, hr.mp hl, hret⟩
  · rintro ⟨⟨-, hf⟩, hl, hret⟩
    refine ⟨Nat.le_of_eq hlen, Or.inl hlen, hf, ?_, hr.mpr hl, hret⟩
    intro a _ i hge hlt
    exact absurd hlt (Nat.not_lt.mpr (hlen ▸ hge))

theorem fn_inj_iff (hr : r.isSome = r'.isSome) :
    Ty.fn ps r t = Ty.fn p' r' t' ↔ ps = p' ∧ r.toList = r'.toList ∧ t = t' := by
  rw [Ty.fn.injEq]
  refine and_congr_right fun _ => and_congr_left fun _ => ?_
  cases r with
  | none | some a => cases r' <;> simp

theorem forall₂_equal_iff : Forall₂ (fun a e : Ty => a.equal e = true) as es ↔ as = es := by
  rw [← forall₂_eq_eq_eq]
  simp only [Ty.equal_iff]

theorem forall₂_free (hlen : as.length = es.length) :
    Position.AllHold T .free as es := forall₂_getElem_iff.mpr ⟨hlen, fun _ _ _ => rfl⟩

/-- Two functions of one shape. -/
theorem Position.holds_fn (hlen : ps.length = p'.length) (hr : r.isSome = r'.isSome) :
    p.holds T (.fn ps r t) (.fn p' r' t') = true ↔
      p.param.AllHold T ps p' ∧ p.param.AllHold T r.toList r'.toList ∧
        p.ret.holds T t t' = true := by
  have hi : (Ty.fn ps r t).equal (.fn p' r' t') = true ↔
      Position.identical.AllHold T ps p' ∧ Position.identical.AllHold T r.toList r'.toList ∧
        Position.identical.holds T t t' = true := by
    rw [Ty.equal_iff, fn_inj_iff hr]
    exact and_congr forall₂_equal_iff.symm (and_congr forall₂_equal_iff.symm Ty.equal_iff.symm)
  cases p with
  | accepts =>
    rw [Position.holds, typeCompatible_fns]
    exact fnCompatible_aligned hlen hr
  | accepted =>
    rw [Position.holds, typeCompatible_fns, fnCompatible_aligned hlen.symm hr.symm]
    exact and_congr forall₂_comm (and_congr forall₂_comm Iff.rfl)
  | same | identical => exact hi
  | free =>
    have hre : r.toList.length = r'.toList.length := by
      cases r with
      | none => cases r' with
        | none => rfl
        | some e => cases hr
      | some a => cases r' with
        | none => cases hr
        | some e => rfl
    exact ⟨fun _ => ⟨forall₂_free hlen, forall₂_free hre, rfl⟩, fun _ => rfl⟩

/-! ### Applications -/

theorem allInvariantEqual_iff_forall₂ :
    allInvariantEqual T as es = true ↔ Position.same.AllHold T as es := by
  rw [allInvariantEqual_iff, Position.AllHold, forall₂_getElem_iff]
  rfl

theorem pairwise_iff_forall₂ :
    pairwise re as es = true ↔ Forall₂ (fun a e => re a e = true) as es := by
  rw [pairwise_iff, forall₂_getElem_iff]

/-- Two applications of one constructor that are no views. -/
theorem appCompatible_aligned : appCompatible T re c as c es = true ↔
      if invariantConstructors.contains c || c == "Dyn" then allInvariantEqual T as es = true
      else Forall₂ (fun a e => re a e = true) as es := by
  unfold appCompatible
  by_cases hinv : invariantConstructors.contains c = true
  · rw [if_pos (by rw [hinv, beq_self_eq_true]; rfl), if_pos (by rw [hinv]; rfl)]
  · have hinv := Bool.not_eq_true _ ▸ hinv
    have htup : (c == "HVec" && c == "Vec" && es.length == 1) = false := by
      by_cases hc : c = "HVec"
      · subst hc
        rfl
      · rw [beq_eq_false_iff_ne.mpr hc]
        rfl
    rw [if_neg (by rw [hinv]; exact Bool.false_ne_true), if_neg (by rw [htup]; exact Bool.false_ne_true),
      hinv, Bool.false_or]
    by_cases hdyn : (c == "Dyn") = true
    · rw [if_pos hdyn, if_pos hdyn, if_pos hdyn]
    · rw [if_neg hdyn, if_neg hdyn, beq_self_eq_true, Bool.true_and, pairwise_iff_forall₂]

theorem typeInvariantEqual_symm {a b : Ty} (h : typeInvariantEqual T a b = true) :
    typeInvariantEqual T b a = true := by
  have hl : ∀ {as bs : List Ty}, (∀ x ∈ as, ∀ {y : Ty}, typeInvariantEqual T x y = true →
      typeInvariantEqual T y x = true) → allInvariantEqual T as bs = true →
      allInvariantEqual T bs as = true := by
    intro as bs hs h
    rw [allInvariantEqual_iff] at h ⊢
    exact ⟨h.1.symm, fun i hi hi' => hs _ (getElem_mem hi') (h.2 i hi' hi)⟩
  induction a using Ty.parts generalizing b with
  | prim n =>
    cases invariantArm_of_equal h with
    | prim _ _ hn => exact beq_iff_eq.mpr hn.symm
    | same => exact h
  | fn ps r t hps hr ht =>
    cases invariantArm_of_equal h with
    | same => exact h
  | app c ar har =>
    cases invariantArm_of_equal h with
    | app _ _ bs hall =>
      rw [typeInvariantEqual, beq_self_eq_true, hl har hall]
      rfl
    | same => exact h
  | union al ha =>
    cases invariantArm_of_equal h with
    | union _ bs hall => exact hl ha hall
    | same => exact h
  | metavar id =>
    cases invariantArm_of_equal h with
    | same => exact h

/-- Two applications of one constructor, in the direction of acceptance. -/
theorem accepts_apps_iff (hlen : as.length = es.length) :
    typeCompatible T (.app c as) (.app c es) = true ↔
      (T.argPosition c .accepts).AllHold T as es := by
  rw [typeCompatible_apps]
  unfold Tables.argPosition
  by_cases hm : T.parametricMembers c = true
  · rw [if_pos hm, if_pos hm]
    exact ⟨fun _ => forall₂_free hlen, fun _ => rfl⟩
  · rw [if_neg hm, if_neg hm, appCompatible_aligned]
    by_cases hs : (invariantConstructors.contains c || c == "Dyn") = true
    · rw [if_pos hs, if_pos hs]
      exact allInvariantEqual_iff_forall₂
    · rw [if_neg hs, if_neg hs]
      rfl

theorem argPosition_accepted :
    (T.argPosition c .accepted).AllHold T as es ↔ (T.argPosition c .accepts).AllHold T es as := by
  unfold Tables.argPosition
  by_cases hm : T.parametricMembers c = true
  · rw [if_pos hm, if_pos hm]
    exact forall₂_comm
  · rw [if_neg hm, if_neg hm]
    by_cases hs : (invariantConstructors.contains c || c == "Dyn") = true
    · rw [if_pos hs, if_pos hs]
      have hsy : ∀ {as es : List Ty}, Position.same.AllHold T as es →
          Position.same.AllHold T es as := by
        intro as es h
        exact (h.imp fun _ _ hab => typeInvariantEqual_symm hab).flip
      exact ⟨hsy, hsy⟩
    · rw [if_neg hs, if_neg hs]
      exact forall₂_comm

/-- Two applications of one constructor. -/
theorem Position.holds_app (hlen : as.length = es.length) :
    p.holds T (.app c as) (.app c es) = true ↔ (p.arg T c).AllHold T as es := by
  cases p with
  | accepts => exact accepts_apps_iff hlen
  | accepted => exact (accepts_apps_iff hlen.symm).trans argPosition_accepted.symm
  | same =>
    rw [Position.holds, typeInvariantEqual, beq_self_eq_true, Bool.true_and]
    exact allInvariantEqual_iff_forall₂
  | identical =>
    rw [Position.holds, Ty.equal_iff, Ty.app.injEq, and_iff_right rfl]
    exact forall₂_equal_iff.symm
  | free => exact ⟨fun _ => forall₂_free hlen, fun _ => rfl⟩

/-! ### Unions -/

theorem mem_of_forall₂ (h : Forall₂ R as es) : ∀ a ∈ as, ∃ e ∈ es, R a e := by
  induction h with
  | nil =>
    intro a ha
    exact absurd ha not_mem_nil
  | cons hfst _ ih =>
    intro a ha
    rcases mem_cons.mp ha with rfl | hrest
    · exact ⟨_, mem_cons_self, hfst⟩
    · obtain ⟨e, he, hrel⟩ := ih a hrest
      exact ⟨e, mem_cons_of_mem _ he, hrel⟩

theorem typeCompatible_unions_of (h : ∀ a ∈ as, ∃ e ∈ es, typeCompatible T a e = true) :
    typeCompatible T (.union as) (.union es) = true := by
  rw [typeCompatible_unions, all_eq_true]
  intro a ha
  exact any_eq_true.mpr (h a ha)

/-- Unions whose alternatives are related one by one. -/
theorem Position.holds_union (h : p.AllHold T as es) :
    p.holds T (.union as) (.union es) = true := by
  cases p with
  | accepts => exact typeCompatible_unions_of (mem_of_forall₂ h)
  | accepted => exact typeCompatible_unions_of (mem_of_forall₂ (forall₂_comm.mp h.flip).flip)
  | same => exact allInvariantEqual_iff_forall₂.mpr h
  | identical => exact Ty.equal_iff.mpr (congrArg Ty.union (forall₂_equal_iff.mp h))
  | free => rfl

end Beagle.Types
