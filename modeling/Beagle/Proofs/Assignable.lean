/-
Assignability is a preorder when the tables of names are closed.

Reflexivity asks nothing of the tables.  Transitivity follows the shapes of the three
types: unions are taken apart first, views are put back to their members, and what
remains is one arm against another.  Every meeting of arms closes by induction, except
where both are about names; there the tables decide, and `Closed` lists what they must
satisfy.  The list is exact: each of its items is an instance of transitivity.
-/
import Beagle.Proofs.Compatibility

namespace Beagle.Types

open List

variable {T : Tables}

/-! ### Invariant positions -/

variable {as bs : List Ty}

theorem allInvariantEqual_iff : allInvariantEqual T as bs = true ↔ as.length = bs.length ∧
      ∀ i (ha : i < as.length) (hb : i < bs.length), typeInvariantEqual T as[i] bs[i] = true := by
  induction as generalizing bs with
  | nil =>
    cases bs with
    | nil => simp [allInvariantEqual]
    | cons b bs => simp [allInvariantEqual]
  | cons a as ih =>
    cases bs with
    | nil => simp [allInvariantEqual]
    | cons b bs =>
      rw [allInvariantEqual, Bool.and_eq_true, ih]
      constructor
      · rintro ⟨hfst, hlen, hr⟩
        refine ⟨congrArg (· + 1) hlen, ?_⟩
        intro i ha hb
        cases i with
        | zero => exact hfst
        | succ i => exact hr i (Nat.lt_of_succ_lt_succ ha) (Nat.lt_of_succ_lt_succ hb)
      · rintro ⟨hlen, hall⟩
        refine ⟨hall 0 (Nat.succ_pos _) (Nat.succ_pos _), Nat.succ.inj hlen, ?_⟩
        intro i ha hb
        exact hall (i + 1) (Nat.succ_lt_succ ha) (Nat.succ_lt_succ hb)

variable {related : Ty → Ty → Bool}

theorem pairwise_iff : pairwise related as bs = true ↔ as.length = bs.length ∧
      ∀ i (ha : i < as.length) (hb : i < bs.length), related as[i] bs[i] = true := by
  unfold pairwise
  rw [Bool.and_eq_true, beq_iff_eq, all_zip_iff]

mutual

theorem typeInvariantEqual_self : ∀ a : Ty, typeInvariantEqual T a a = true
  | .prim a => by rw [typeInvariantEqual, beq_self_eq_true]
  | .fn ps r t => by
    rw [typeInvariantEqual, Ty.equal_self]
    all_goals simp
  | .app c as => by
    rw [typeInvariantEqual, beq_self_eq_true, allInvariantEqual_self as]
    rfl
  | .union as => by rw [typeInvariantEqual, allInvariantEqual_self as]
  | .metavar m => by rw [typeInvariantEqual, beq_self_eq_true]

theorem allInvariantEqual_self : ∀ as : List Ty, allInvariantEqual T as as = true
  | [] => by rw [allInvariantEqual]
  | a :: as => by
    rw [allInvariantEqual, typeInvariantEqual_self a, allInvariantEqual_self as]
    rfl

end

/-- The cases of invariant equality. -/
inductive InvariantArm (T : Tables) : Ty → Ty → Prop
  | prim (a b : String) (h : T.unqualify a = T.unqualify b) : InvariantArm T (.prim a) (.prim b)
  | app (c : String) (as bs : List Ty) (h : allInvariantEqual T as bs = true) :
      InvariantArm T (.app c as) (.app c bs)
  | union (as bs : List Ty) (h : allInvariantEqual T as bs = true) :
      InvariantArm T (.union as) (.union bs)
  | same (a : Ty) : InvariantArm T a a

variable {a t : Ty} {ps : List Ty} {r : Option Ty} {i : Nat}

theorem invariantArm_of_equal {b : Ty} (h : typeInvariantEqual T a b = true) :
    InvariantArm T a b := by
  unfold typeInvariantEqual at h
  split at h
  · exact InvariantArm.prim _ _ (beq_iff_eq.mp h)
  · rw [Bool.and_eq_true, beq_iff_eq] at h
    rw [h.1]
    exact InvariantArm.app _ _ _ h.2
  · exact InvariantArm.union _ _ h
  · rw [beq_iff_eq.mp h]
    exact InvariantArm.same _
  · rw [Ty.eq_of_equal h]
    exact InvariantArm.same _

theorem typeInvariantEqual_trans : ∀ {a b c : Ty}, typeInvariantEqual T a b = true →
    typeInvariantEqual T b c = true → typeInvariantEqual T a c = true := by
  have hm : ∀ n, ∀ a b c : Ty, a.size ≤ n → typeInvariantEqual T a b = true →
      typeInvariantEqual T b c = true → typeInvariantEqual T a c = true := by
    intro n
    induction n with
    | zero =>
      intro a b c hn
      have := a.size_pos
      omega
    | succ n ih =>
      intro a b c hn hab hbc
      have hl : ∀ {as bs cs : List Ty}, (∀ x ∈ as, x.size ≤ n) →
          allInvariantEqual T as bs = true → allInvariantEqual T bs cs = true →
          allInvariantEqual T as cs = true := by
        intro as bs cs hs h h'
        rw [allInvariantEqual_iff] at h h' ⊢
        refine ⟨h.1.trans h'.1, ?_⟩
        intro i ha hc
        have hb : i < bs.length := h.1 ▸ ha
        exact ih _ _ _ (hs _ (getElem_mem ha)) (h.2 i ha hb) (h'.2 i hb hc)
      cases invariantArm_of_equal hab with
      | prim a b h =>
        cases invariantArm_of_equal hbc with
        | prim _ c h' => rw [typeInvariantEqual, h, h', beq_self_eq_true]
        | same _ => exact hab
      | app d as bs h =>
        cases invariantArm_of_equal hbc with
        | app _ _ cs h' =>
          rw [typeInvariantEqual, beq_self_eq_true, Bool.true_and]
          refine hl ?_ h h'
          intro x hx
          have := Ty.size_lt_app (c := d) hx
          omega
        | same _ => exact hab
      | union as bs h =>
        cases invariantArm_of_equal hbc with
        | union _ cs h' =>
          rw [typeInvariantEqual]
          refine hl ?_ h h'
          intro x hx
          have := Ty.size_lt_union hx
          omega
        | same _ => exact hab
      | same _ => exact hbc
  intro a b c
  exact hm a.size a b c (Nat.le_refl _)

theorem allInvariantEqual_trans {cs : List Ty} (h : allInvariantEqual T as bs = true)
    (h' : allInvariantEqual T bs cs = true) : allInvariantEqual T as cs = true := by
  rw [allInvariantEqual_iff] at h h' ⊢
  refine ⟨h.1.trans h'.1, ?_⟩
  intro i ha hc
  have hb : i < bs.length := h.1 ▸ ha
  exact typeInvariantEqual_trans (h.2 i ha hb) (h'.2 i hb hc)

/-! ### Applications -/

/-- The arms for two applications that are no views. -/
inductive AppArm (T : Tables) (related : Ty → Ty → Prop) (c : String) (as : List Ty) (d : String)
    (es : List Ty) : Prop
  | invariant (hc : c ∈ invariantConstructors) (hcd : c = d) (h : allInvariantEqual T as es = true)
  | tuple (hc : c = "HVec") (hd : d = "Vec") (e : Ty) (hes : es = [e]) (h : ∀ a ∈ as, related a e)
  | dyn (hc : c = "Dyn") (hd : d = "Dyn") (h : allInvariantEqual T as es = true)
  | dynAlt (hc : c ≠ "Dyn") (hd : d = "Dyn") (e : Ty) (he : e ∈ es) (h : related (.app c as) e)
  | covariant (hc : c ∉ invariantConstructors) (hdyn : c ≠ "Dyn") (hcd : c = d)
      (hlength : as.length = es.length)
      (h : ∀ i (ha : i < as.length) (he : i < es.length), related as[i] es[i])

variable {c d p : String} {es : List Ty}

theorem appCompatible_iff : appCompatible T related c as d es = true ↔
      AppArm T (fun a e => related a e = true) c as d es := by
  have hnhv : ("HVec" : String) ∉ invariantConstructors := by decide
  have hnd : ("Dyn" : String) ∉ invariantConstructors := by decide
  unfold appCompatible
  constructor
  · intro h
    by_cases hinv : (invariantConstructors.contains c && c == d) = true
    · rw [if_pos hinv] at h
      rw [Bool.and_eq_true, contains_iff_mem, beq_iff_eq] at hinv
      exact AppArm.invariant hinv.1 hinv.2 h
    · rw [if_neg hinv] at h
      by_cases htup : (c == "HVec" && d == "Vec" && es.length == 1) = true
      · rw [if_pos htup] at h
        rw [Bool.and_eq_true, Bool.and_eq_true, beq_iff_eq, beq_iff_eq, beq_iff_eq] at htup
        obtain ⟨e, rfl⟩ := length_eq_one_iff.mp htup.2
        refine AppArm.tuple htup.1.1 htup.1.2 e rfl ?_
        simpa using h
      · rw [if_neg htup] at h
        by_cases hdyn : (d == "Dyn") = true
        · rw [if_pos hdyn] at h
          by_cases hc : (c == "Dyn") = true
          · rw [if_pos hc] at h
            exact AppArm.dyn (beq_iff_eq.mp hc) (beq_iff_eq.mp hdyn) h
          · rw [if_neg hc] at h
            obtain ⟨e, he, hrel⟩ := any_eq_true.mp h
            exact AppArm.dynAlt (fun heq => hc (beq_iff_eq.mpr heq)) (beq_iff_eq.mp hdyn) e he hrel
        · rw [if_neg hdyn, Bool.and_eq_true, beq_iff_eq, pairwise_iff] at h
          obtain ⟨rfl, hlen, hall⟩ := h
          refine AppArm.covariant ?_ (fun heq => hdyn (beq_iff_eq.mpr heq)) rfl hlen hall
          intro hmem
          refine hinv ?_
          rw [Bool.and_eq_true, contains_iff_mem, beq_iff_eq]
          exact ⟨hmem, rfl⟩
  · intro h
    cases h with
    | invariant hc hcd h =>
      subst hcd
      simp [hc, h]
    | tuple hc hd e hes h =>
      subst hc hd hes
      simpa [hnhv] using h
    | dyn hc hd h =>
      subst hc hd
      simp [hnd, h]
    | dynAlt hc hd e he h =>
      subst hd
      have hany : (es.any fun alt => related (.app c as) alt) = true :=
        any_eq_true.mpr ⟨e, he, h⟩
      simpa [hc] using hany
    | covariant hc hdyn hcd hlen h =>
      subst hcd
      have hp := pairwise_iff.mpr ⟨hlen, h⟩
      have hinv : ¬ (invariantConstructors.contains c && c == c) = true := by simpa using hc
      have htup : ¬ (c == "HVec" && c == "Vec" && es.length == 1) = true := by
        intro heq
        rw [Bool.and_eq_true, Bool.and_eq_true, beq_iff_eq, beq_iff_eq] at heq
        exact absurd (heq.1.1.symm.trans heq.1.2) (by decide)
      have hd : ¬ (c == "Dyn") = true := by simpa using hdyn
      rw [if_neg hinv, if_neg htup, if_neg hd, beq_self_eq_true, Bool.true_and]
      exact hp

/-! ### Reflexivity -/

/-- A type that the cascade meets only in its last arms. -/
structure Bare (T : Tables) (t : Ty) : Prop where
  plain : t.plain = true
  noUnion : t.unionAlts = none
  noView : T.memberView t = none

theorem bare_viewed (h : t.plain = true) (hun : t.unionAlts = none) : Bare T (T.viewed t) :=
  ⟨plain_viewed h, unionAlts_viewed hun, memberView_viewed t⟩

theorem accepts_bare {e : Ty} (ha : Bare T a) (he : Bare T e) :
    T.Accepts a e ↔ shapeCompatible T (typeCompatible T) a e = true :=
  accepts_shapes ha.plain he.plain ha.noUnion he.noUnion ha.noView he.noView

theorem bare_prim (h : p ≠ "Any") : Bare T (.prim p) :=
  ⟨Ty.plain_prim h, rfl, rfl⟩

theorem accepts_prims {q : String} (hp : p ≠ "Any") (hq : q ≠ "Any") :
    T.Accepts (.prim p) (.prim q) ↔ T.primCompatible p q = true :=
  accepts_bare (bare_prim hp) (bare_prim hq)

theorem primCompatible_self (p : String) : T.primCompatible p p = true := by
  simp [Tables.primCompatible]

theorem accepts_apps (ha : Bare T (.app c as)) (he : Bare T (.app d es)) :
    T.Accepts (.app c as) (.app d es) ↔ AppArm T T.Accepts c as d es := by
  rw [accepts_bare ha he]
  exact appCompatible_iff

theorem accepts_fns {ps' : List Ty} {r' : Option Ty} {t' : Ty} (ha : (Ty.fn ps r t).plain = true)
    (he : (Ty.fn ps' r' t').plain = true) :
    T.Accepts (.fn ps r t) (.fn ps' r' t') ↔
      T.Accepts t t' ∧ TakesCalls (fun e a => T.Accepts e a) ps r ps' r' := by
  rw [accepts_bare ⟨ha, rfl, rfl⟩ ⟨he, rfl, rfl⟩]
  exact fnCompatible_iff

/-- What an argument may be is a part of the function. -/
theorem mem_of_argAt (h : a ∈ argAt ps r i) : a ∈ ps ∨ a ∈ r := by
  by_cases hi : i < ps.length
  · rw [argAt_of_lt hi] at h
    exact Or.inl (Option.some.inj h ▸ getElem_mem hi)
  · rw [argAt_of_ge (Nat.not_lt.mp hi)] at h
    exact Or.inr h

theorem size_lt_of_argAt (h : a ∈ argAt ps r i) : a.size < (Ty.fn ps r t).size := by
  rcases mem_of_argAt h with hmem | hmem
  · exact Ty.size_lt_param hmem
  · rw [Option.mem_def.mp hmem]
    exact Ty.size_lt_rest ps t a

theorem plain_of_argAt (hpl : (Ty.fn ps r t).plain = true) (h : a ∈ argAt ps r i) :
    a.plain = true := by
  rcases mem_of_argAt h with hmem | hmem
  · exact (Ty.plain_fn hpl).1 a hmem
  · exact (Ty.plain_fn hpl).2.1 a hmem

/-- A name is accepted for itself. -/
theorem typeCompatible_prim_self (p : String) : typeCompatible T (.prim p) (.prim p) = true := by
  by_cases hany : (Ty.prim p).isAny = true
  · exact typeCompatible_of_any hany _
  · have hs := Bool.not_eq_true _ ▸ hany
    rw [typeCompatible_shown hs hs rfl rfl]
    exact primCompatible_self p

/-- Two applications of one constructor. -/
theorem typeCompatible_apps (c : String) (as es : List Ty) :
    typeCompatible T (.app c as) (.app c es) =
      if T.parametricMembers c then true else appCompatible T (typeCompatible T) c as c es := by
  rw [typeCompatible_shown rfl rfl rfl rfl]
  by_cases hm : T.parametricMembers c = true
  · have hv : ∀ ar, T.memberView (.app c ar) = some c := fun _ => if_pos hm
    simp only [Ty.unionAlts, hv, if_pos hm]
    by_cases hany : (Ty.prim c).isAny = true
    · exact typeCompatible_of_any hany _
    · rw [typeCompatible_shown (Bool.not_eq_true _ ▸ hany) rfl rfl rfl]
      simp only [Ty.unionAlts, hv]
      exact typeCompatible_prim_self c
  · have hv : ∀ ar, T.memberView (.app c ar) = none := fun _ => if_neg hm
    simp only [Ty.unionAlts, hv, if_neg hm]
    rfl

/-- **Every type is accepted where it is expected.** -/
theorem accepts_refl (t : Ty) : T.Accepts t t := by
  induction t using Ty.parts with
  | prim n => exact typeCompatible_prim_self n
  | fn ps r t hps hr ht =>
    refine (typeCompatible_fns ps ps r r t t).trans (fnCompatible_iff.mpr ⟨ht, ?_⟩)
    intro k hk
    refine ⟨hk, ?_⟩
    intro i _ e he a ha
    have hs : e = a := Option.some.inj (he.symm.trans ha)
    subst hs
    rcases mem_of_argAt he with hmem | hmem
    · exact hps e hmem
    · exact hr e hmem
  | app c ar har =>
    refine (typeCompatible_apps c ar ar).trans ?_
    by_cases hm : T.parametricMembers c = true
    · rw [if_pos hm]
    · rw [if_neg hm]
      refine appCompatible_iff.mpr ?_
      by_cases hinv : c ∈ invariantConstructors
      · exact AppArm.invariant hinv rfl (allInvariantEqual_self ar)
      · by_cases hdyn : c = "Dyn"
        · exact AppArm.dyn hdyn hdyn (allInvariantEqual_self ar)
        · refine AppArm.covariant hinv hdyn rfl rfl ?_
          intro i ha _
          exact har _ (getElem_mem ha)
  | union al hal =>
    refine (typeCompatible_unions al al).trans ?_
    rw [all_eq_true]
    intro a ha
    exact any_eq_true.mpr ⟨a, ha, hal a ha⟩
  | metavar id => exact typeCompatible_eq _ _

/-- Types that are equal in invariant positions are accepted for each other. -/
theorem accepts_of_invariant : ∀ {a b : Ty}, typeInvariantEqual T a b = true → a.plain = true →
    b.plain = true → T.Accepts a b := by
  have hm : ∀ n, ∀ a b : Ty, a.size ≤ n → typeInvariantEqual T a b = true → a.plain = true →
      b.plain = true → T.Accepts a b := by
    intro n
    induction n with
    | zero =>
      intro a b hn
      have := a.size_pos
      omega
    | succ n ih =>
      intro a b hn hab ha hb
      cases invariantArm_of_equal hab with
      | prim p q h =>
        rw [Ty.plain, bne_iff_ne] at ha hb
        refine (accepts_prims ha hb).mpr ?_
        simp [Tables.primCompatible, h]
      | app c as bs h =>
        cases hv : T.memberView (.app c as) with
        | some d =>
          -- a view forgets its arguments
          have hvi : T.memberView (.app c bs) = some d := hv
          have hs : T.Accepts (T.viewed (.app c as)) (T.viewed (.app c as)) :=
            accepts_refl _
          rw [← accepts_viewed_left ha hb, ← accepts_viewed_right hb (plain_viewed ha),
            viewed_of_some hvi]
          rw [viewed_of_some hv] at hs ⊢
          exact hs
        | none =>
          rw [accepts_apps ⟨ha, rfl, hv⟩ ⟨hb, rfl, hv⟩]
          have har := allInvariantEqual_iff.mp h
          by_cases hinv : c ∈ invariantConstructors
          · exact AppArm.invariant hinv rfl h
          · by_cases hdyn : c = "Dyn"
            · exact AppArm.dyn hdyn hdyn h
            · refine AppArm.covariant hinv hdyn rfl har.1 ?_
              intro i hi hi'
              have := Ty.size_lt_app (c := c) (getElem_mem hi)
              exact ih _ _ (by omega) (har.2 i hi hi') ((Ty.plain_app ha).2 _ (getElem_mem hi))
                ((Ty.plain_app hb).2 _ (getElem_mem hi'))
      | union as bs h =>
        have har := allInvariantEqual_iff.mp h
        rw [accepts_unions ha hb]
        intro a hmem
        obtain ⟨i, hi, rfl⟩ := mem_iff_getElem.mp hmem
        have hi' : i < bs.length := har.1 ▸ hi
        have := Ty.size_lt_union (getElem_mem hi)
        exact ⟨bs[i], getElem_mem hi', ih _ _ (by omega) (har.2 i hi hi')
          (Ty.plain_union ha _ (getElem_mem hi))
          (Ty.plain_union hb _ (getElem_mem hi'))⟩
      | same _ => exact accepts_refl a
  intro a b
  exact hm a.size a b (Nat.le_refl _)

end Beagle.Types
