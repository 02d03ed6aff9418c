/-
Assignability is transitive exactly when the tables of names are closed.

`Closed` lists the places where two arms about names meet.  Under it the relation is
transitive, by induction over the sizes of the three types: unions are taken apart
first, views are put back to their members, and what remains is one arm after another.
Each item of the list is also an instance of transitivity, so nothing can be left out.

The laws of assignability.

Every plain type is accepted where it is expected, whatever the tables.  Steps compose
exactly when the tables are closed; each item of `Closed` is read off transitivity at
types made for it.  A function type is accepted for another exactly when it returns
what is expected and takes every call that is permitted.
-/
import Beagle.Proofs.Assignable

namespace Beagle.Types

open List

section

variable {T : Tables}

/-- The tables of names leave no gap between two steps. -/
structure Tables.Closed (T : Tables) : Prop where
  /-- The relation of names is transitive. -/
  names : ∀ p q r, p ≠ "Any" → q ≠ "Any" → r ≠ "Any" → T.primCompatible p q = true →
    T.primCompatible q r = true → T.primCompatible p r = true
  /-- What is compatible with a listed member of a parametric union is listed too. -/
  members : ∀ p q d, p ≠ "Any" → q ≠ "Any" → d ≠ "Any" → T.parametricMembers d = false →
    T.primCompatible p q = true → T.isMember d q = true → T.isMember d p = true
  /-- A member of the tuples is a member of the vectors. -/
  tuples : T.parametricMembers "HVec" = false → T.parametricMembers "Vec" = false →
    ∀ p, p ≠ "Any" → T.isMember "HVec" p = true → T.isMember "Vec" p = true
  /-- `Regex` goes by no other name and is a member of nothing. -/
  regex : T.parametricMembers "Regex" = false →
    ∀ q, q ≠ "Any" → T.primCompatible "Regex" q = true → q = "Regex"
  regexMember : T.parametricMembers "Regex" = false →
    ∀ d, d ≠ "Any" → T.parametricMembers d = false → T.isMember d "Regex" = false

/-! ### One arm after another -/

/-- Transitivity for smaller types. -/
def TransBelow (T : Tables) (n : Nat) : Prop :=
  ∀ a b c : Ty, a.size + b.size + c.size < n → a.plain = true → b.plain = true →
    c.plain = true → T.Accepts a b → T.Accepts b c → T.Accepts a c

variable {d c q : String} {as ps : List Ty} {r : Option Ty} {t a : Ty} {p : String}
  {es bs : List Ty} {n : Nat}

theorem shape_prim_app (hp : p ≠ "Any") (he : Bare T (.app d es)) :
    T.Accepts (.prim p) (.app d es) ↔
      T.isMember d p = true ∨ (d = "Dyn" ∧ ∃ e ∈ es, T.Accepts (.prim p) e) := by
  rw [accepts_bare (bare_prim hp) he]
  unfold shapeCompatible
  rw [Bool.or_eq_true, Bool.and_eq_true, beq_iff_eq, any_eq_true]

theorem shape_app_prim (ha : Bare T (.app c as)) (hq : q ≠ "Any") :
    T.Accepts (.app c as) (.prim q) ↔ c = "Regex" ∧ q = "Regex" := by
  rw [accepts_bare ha (bare_prim hq)]
  unfold shapeCompatible
  rw [Bool.and_eq_true, beq_iff_eq, beq_iff_eq]

theorem shape_fn_app (ha : Bare T (.fn ps r t)) (he : Bare T (.app d es)) :
    T.Accepts (.fn ps r t) (.app d es) ↔ d = "Dyn" ∧ ∃ e ∈ es, T.Accepts (.fn ps r t) e := by
  rw [accepts_bare ha he]
  unfold shapeCompatible
  rw [Bool.and_eq_true, beq_iff_eq, any_eq_true]

theorem Bare.ne_any (h : Bare T (.app c as)) : c ≠ "Any" :=
  (Ty.plain_app h.plain).1

theorem Bare.noMember (h : Bare T (.app c as)) : T.parametricMembers c = false := by
  have hv : (if T.parametricMembers c then some c else none) = none := h.noView
  by_cases hc : T.parametricMembers c = true
  · rw [if_pos hc] at hv
    simp at hv
  · exact Bool.not_eq_true _ ▸ hc

theorem Bare.prim_ne_any (h : Bare T (.prim p)) : p ≠ "Any" := by
  have hpl := h.plain
  rw [Ty.plain, bne_iff_ne] at hpl
  exact hpl

/-- The step over a function in the middle. -/
theorem trans_fn (htr : TransBelow T n) {ps' ps'' : List Ty} {r' r'' : Option Ty} {t' t'' : Ty}
    (hsi : (Ty.fn ps r t).size + (Ty.fn ps' r' t').size + (Ty.fn ps'' r'' t'').size ≤ n)
    (ha : (Ty.fn ps r t).plain = true) (hb : (Ty.fn ps' r' t').plain = true)
    (hc : (Ty.fn ps'' r'' t'').plain = true) (hab : T.Accepts (.fn ps r t) (.fn ps' r' t'))
    (hbc : T.Accepts (.fn ps' r' t') (.fn ps'' r'' t'')) :
    T.Accepts (.fn ps r t) (.fn ps'' r'' t'') := by
  rw [accepts_fns ha hb] at hab
  rw [accepts_fns hb hc] at hbc
  rw [accepts_fns ha hc]
  constructor
  · have := Ty.size_lt_ret ps r t
    have := Ty.size_lt_ret ps' r' t'
    have := Ty.size_lt_ret ps'' r'' t''
    exact htr t t' t'' (by omega) (Ty.plain_fn ha).2.2 (Ty.plain_fn hb).2.2
      (Ty.plain_fn hc).2.2 hab.1 hbc.1
  · intro k hk
    obtain ⟨hk', ha'⟩ := hbc.2 k hk
    obtain ⟨hk'', har⟩ := hab.2 k hk'
    refine ⟨hk'', ?_⟩
    intro i hi e he a harg
    -- the middle function takes an argument here too
    have hmid : ∃ m, m ∈ argAt ps' r' i := by
      by_cases hlt : i < ps'.length
      · exact ⟨_, argAt_of_lt hlt⟩
      · rcases hk' with rfl | ⟨-, hs⟩
        · exact absurd hi hlt
        · obtain ⟨m, hm⟩ := Option.isSome_iff_exists.mp hs
          exact ⟨m, (argAt_of_ge (Nat.not_lt.mp hlt)).trans hm⟩
    obtain ⟨m, hm⟩ := hmid
    have := size_lt_of_argAt (t := t) harg
    have := size_lt_of_argAt (t := t') hm
    have := size_lt_of_argAt (t := t'') he
    exact htr e m a (by omega) (plain_of_argAt hc he) (plain_of_argAt hb hm)
      (plain_of_argAt ha harg) (ha' i hi e he m hm) (har i hi m hm a harg)

/-- The step over an application in the middle, between two applications. -/
theorem trans_app (htr : TransBelow T n) {d' : String} {cs : List Ty}
    (hsi : (Ty.app c as).size + (Ty.app d bs).size + (Ty.app d' cs).size ≤ n)
    (ha : Bare T (.app c as)) (hb : Bare T (.app d bs)) (hc : Bare T (.app d' cs))
    (hab : T.Accepts (.app c as) (.app d bs)) (hbc : T.Accepts (.app d bs) (.app d' cs)) :
    T.Accepts (.app c as) (.app d' cs) := by
  have hs : ∀ {x y z : Ty}, x ∈ as → y ∈ bs → z ∈ cs → T.Accepts x y → T.Accepts y z →
      T.Accepts x z := by
    intro x y z hx hy hz
    have := Ty.size_lt_app (c := c) hx
    have := Ty.size_lt_app (c := d) hy
    have := Ty.size_lt_app (c := d') hz
    exact htr x y z (by omega) ((Ty.plain_app ha.plain).2 x hx)
      ((Ty.plain_app hb.plain).2 y hy) ((Ty.plain_app hc.plain).2 z hz)
  have hnhv : ("HVec" : String) ∉ invariantConstructors := by decide
  have hnv : ("Vec" : String) ∉ invariantConstructors := by decide
  have hnd : ("Dyn" : String) ∉ invariantConstructors := by decide
  have harm := (accepts_apps ha hb).mp hab
  have harm' := (accepts_apps hb hc).mp hbc
  rw [accepts_apps ha hc]
  -- a `Dyn` of which the middle is an alternative
  have halt : ∀ e ∈ cs, c ≠ "Dyn" → d' = "Dyn" → T.Accepts (.app d bs) e →
      AppArm T T.Accepts c as d' cs := by
    intro e he hcdy hdyn hbe
    have := Ty.size_lt_app (c := d') he
    exact AppArm.dynAlt hcdy hdyn e he (htr _ _ e (by omega) ha.plain hb.plain
      ((Ty.plain_app hc.plain).2 e he) hab hbe)
  cases harm with
  | invariant hinv hcd h =>
    subst hcd
    cases harm' with
    | invariant _ hcd' h' => exact AppArm.invariant hinv hcd' (allInvariantEqual_trans h h')
    | tuple hc' _ _ _ _ => exact absurd (hc' ▸ hinv) hnhv
    | dyn hc' _ _ => exact absurd (hc' ▸ hinv) hnd
    | dynAlt hne hd e he h' => exact halt e he hne hd h'
    | covariant hne _ _ _ _ => exact absurd hinv hne
  | tuple hc' hd e hes h =>
    subst hc' hd hes
    cases harm' with
    | invariant hinv _ _ => exact absurd hinv hnv
    | tuple hvec _ _ _ _ => simp at hvec
    | dyn hdyn _ _ => simp at hdyn
    | dynAlt _ hd e' he h' => exact halt e' he (by decide) hd h'
    | covariant _ _ hvec hlen h' =>
      subst hvec
      obtain ⟨e', rfl⟩ := length_eq_one_iff.mp hlen.symm
      refine AppArm.tuple rfl rfl e' rfl ?_
      intro a hmem
      exact hs hmem mem_cons_self mem_cons_self (h a hmem) (h' 0 Nat.zero_lt_one Nat.zero_lt_one)
  | dyn hc' hd h =>
    subst hc' hd
    cases harm' with
    | invariant hinv _ _ => exact absurd hinv hnd
    | tuple hvec _ _ _ _ => simp at hvec
    | dyn _ hd h' => exact AppArm.dyn rfl hd (allInvariantEqual_trans h h')
    | dynAlt hne _ _ _ _ | covariant _ hne _ _ _ => exact absurd rfl hne
  | dynAlt hne hd e he h =>
    subst hd
    cases harm' with
    | invariant hinv _ _ => exact absurd hinv hnd
    | tuple hvec _ _ _ _ => simp at hvec
    | dyn _ hd' h' =>
      -- the same alternative of the other `Dyn`
      obtain ⟨i, hi, rfl⟩ := mem_iff_getElem.mp he
      have har := allInvariantEqual_iff.mp h'
      have hi' : i < cs.length := har.1 ▸ hi
      have hpl := (Ty.plain_app hb.plain).2 _ (getElem_mem hi)
      have hpl' := (Ty.plain_app hc.plain).2 _ (getElem_mem hi')
      have := Ty.size_lt_app (c := "Dyn") (getElem_mem hi)
      have := Ty.size_lt_app (c := d') (getElem_mem hi')
      exact AppArm.dynAlt hne hd' cs[i] (getElem_mem hi') (htr _ _ _ (by omega) ha.plain hpl hpl' h
          (accepts_of_invariant (har.2 i hi hi') hpl hpl'))
    | dynAlt hne' _ _ _ _ | covariant _ hne' _ _ _ => exact absurd rfl hne'
  | covariant hinv hdyn hcd hlen h =>
    subst hcd
    cases harm' with
    | invariant hinv' _ _ => exact absurd hinv' hinv
    | tuple hc' hd e hes h' =>
      subst hes
      refine AppArm.tuple hc' hd e rfl ?_
      intro a hmem
      obtain ⟨i, hi, rfl⟩ := mem_iff_getElem.mp hmem
      have hi' : i < bs.length := hlen ▸ hi
      exact hs hmem (getElem_mem hi') mem_cons_self (h i hi hi') (h' _ (getElem_mem hi'))
    | dyn hc' _ _ => exact absurd hc' hdyn
    | dynAlt _ hd e he h' => exact halt e he hdyn hd h'
    | covariant _ _ hcd' hlen' h' =>
      refine AppArm.covariant hinv hdyn hcd' (hlen.trans hlen') ?_
      intro i hi hi''
      have hi' : i < bs.length := hlen ▸ hi
      exact hs (getElem_mem hi) (getElem_mem hi') (getElem_mem hi'') (h i hi hi') (h' i hi' hi'')

/-- What a bare type can be. -/
inductive Shape : Ty → Prop
  | prim (p : String) : Shape (.prim p)
  | fn (ps : List Ty) (r : Option Ty) (t : Ty) : Shape (.fn ps r t)
  | app (c : String) (as : List Ty) : Shape (.app c as)

theorem Bare.shape (h : Bare T t) : Shape t := by
  cases t with
  | prim p => exact Shape.prim p
  | fn ps r t => exact Shape.fn ps r t
  | app c as => exact Shape.app c as
  | union al => exact absurd h.noUnion (by simp [Ty.unionAlts])
  | metavar id => exact absurd h.plain (by simp [Ty.plain])

/-- Nothing but a function is accepted for a function. -/
theorem not_accepts_fn (ha : Bare T a) (he : Bare T (.fn ps r t)) (hne : ∀ ps r t, a ≠ .fn ps r t) :
    ¬ T.Accepts a (.fn ps r t) := by
  rw [accepts_bare ha he]
  cases ha.shape with
  | prim p => simp [shapeCompatible]
  | fn ps' r' t' => exact absurd rfl (hne ps' r' t')
  | app c as => simp [shapeCompatible]

/-- No primitive takes a function. -/
theorem not_accepts_fn_prim (ha : Bare T (.fn ps r t)) (he : Bare T (.prim q)) :
    ¬ T.Accepts (.fn ps r t) (.prim q) := by
  rw [accepts_bare ha he]
  simp [shapeCompatible]

/-- The step over a primitive in the middle. -/
theorem trans_prim (hcl : T.Closed) {c : Ty}
    (htr : TransBelow T (a.size + (Ty.prim q).size + c.size)) (ha : Bare T a)
    (hb : Bare T (.prim q)) (hc : Bare T c) (hab : T.Accepts a (.prim q))
    (hbc : T.Accepts (.prim q) c) : T.Accepts a c := by
  have hq := hb.prim_ne_any
  cases hc.shape with
  | fn ps r t =>
    exact absurd hbc (not_accepts_fn hb hc fun _ _ _ h => Ty.noConfusion h)
  | prim r =>
    have hr := hc.prim_ne_any
    have hqr := (accepts_prims hq hr).mp hbc
    cases ha.shape with
    | prim p =>
      have hp := ha.prim_ne_any
      exact (accepts_prims hp hr).mpr (hcl.names p q r hp hq hr ((accepts_prims hp hq).mp hab) hqr)
    | fn ps r t => exact absurd hab (not_accepts_fn_prim ha hb)
    | app e as =>
      obtain ⟨rfl, rfl⟩ := (shape_app_prim ha hq).mp hab
      exact (shape_app_prim ha hr).mpr ⟨rfl, hcl.regex ha.noMember r hr hqr⟩
  | app d cs =>
    have harm := (shape_prim_app hq hc).mp hbc
    -- an alternative of a `Dyn` is smaller than the `Dyn`
    have halt : ∀ e ∈ cs, T.Accepts (.prim q) e → T.Accepts a e := by
      intro e he hqe
      have := Ty.size_lt_app (c := d) he
      exact htr a _ e (by omega) ha.plain hb.plain ((Ty.plain_app hc.plain).2 e he) hab hqe
    cases ha.shape with
    | prim p =>
      have hp := ha.prim_ne_any
      refine (shape_prim_app hp hc).mpr ?_
      rcases harm with hm | ⟨hdyn, e, he, hqe⟩
      · exact Or.inl (hcl.members p q d hp hq hc.ne_any hc.noMember
          ((accepts_prims hp hq).mp hab) hm)
      · exact Or.inr ⟨hdyn, e, he, halt e he hqe⟩
    | fn ps r t => exact absurd hab (not_accepts_fn_prim ha hb)
    | app e as =>
      obtain ⟨rfl, rfl⟩ := (shape_app_prim ha hq).mp hab
      rcases harm with hm | ⟨hdyn, e, he, hqe⟩
      · have hno := hcl.regexMember ha.noMember d hc.ne_any hc.noMember
        exact absurd hm (Bool.eq_false_iff.mp hno)
      · exact (accepts_apps ha hc).mpr (AppArm.dynAlt (by decide) hdyn e he (halt e he hqe))

/-- The step over an application in the middle. -/
theorem trans_over_app (hcl : T.Closed) {c : Ty}
    (htr : TransBelow T (a.size + (Ty.app d bs).size + c.size)) (ha : Bare T a)
    (hb : Bare T (.app d bs)) (hc : Bare T c) (hab : T.Accepts a (.app d bs))
    (hbc : T.Accepts (.app d bs) c) : T.Accepts a c := by
  cases hc.shape with
  | fn ps r t =>
    exact absurd hbc (not_accepts_fn hb hc fun _ _ _ h => Ty.noConfusion h)
  | prim r =>
    have hr := hc.prim_ne_any
    obtain ⟨rfl, rfl⟩ := (shape_app_prim hb hr).mp hbc
    cases ha.shape with
    | prim p =>
      have hp := ha.prim_ne_any
      rcases (shape_prim_app hp hb).mp hab with hm | ⟨hdyn, -⟩
      · refine (accepts_prims hp hr).mpr ?_
        simp [Tables.primCompatible, hm]
      · simp at hdyn
    | fn ps r t => exact absurd ((shape_fn_app ha hb).mp hab).1 (by decide)
    | app e as =>
      have hre : e = "Regex" := by
        cases (accepts_apps ha hb).mp hab with
        | invariant _ hed _ => exact hed
        | tuple _ hvec _ _ _ => simp at hvec
        | dyn _ hdyn _ | dynAlt _ hdyn _ _ _ => simp at hdyn
        | covariant _ _ hed _ _ => exact hed
      exact (shape_app_prim ha hr).mpr ⟨hre, rfl⟩
  | app d' cs =>
    have harm := (accepts_apps hb hc).mp hbc
    -- what is an alternative of the middle `Dyn` is one of the last
    have hdy : d = "Dyn" → d' = "Dyn" → allInvariantEqual T bs cs = true →
        ∀ e ∈ bs, T.Accepts a e → ∃ e' ∈ cs, T.Accepts a e' := by
      intro _ _ h e he hae
      obtain ⟨i, hi, rfl⟩ := mem_iff_getElem.mp he
      have har := allInvariantEqual_iff.mp h
      have hi' : i < cs.length := har.1 ▸ hi
      have hpl := (Ty.plain_app hb.plain).2 _ (getElem_mem hi)
      have hpl' := (Ty.plain_app hc.plain).2 _ (getElem_mem hi')
      have := Ty.size_lt_app (c := d) (getElem_mem hi)
      have := Ty.size_lt_app (c := d') (getElem_mem hi')
      exact ⟨cs[i], getElem_mem hi', htr a _ _ (by omega) ha.plain hpl hpl' hae
        (accepts_of_invariant (har.2 i hi hi') hpl hpl')⟩
    have halt : ∀ e ∈ cs, T.Accepts (.app d bs) e → T.Accepts a e := by
      intro e he hbe
      have := Ty.size_lt_app (c := d') he
      exact htr a _ e (by omega) ha.plain hb.plain ((Ty.plain_app hc.plain).2 e he) hab hbe
    cases ha.shape with
    | prim p =>
      have hp := ha.prim_ne_any
      have hpr := (shape_prim_app hp hb).mp hab
      have hm : d ≠ "Dyn" → T.isMember d p = true := by
        intro hne
        rcases hpr with hm | ⟨hdyn, -⟩
        · exact hm
        · exact absurd hdyn hne
      refine (shape_prim_app hp hc).mpr ?_
      cases harm with
      | invariant hinv hcd h =>
        refine Or.inl (hcd ▸ hm ?_)
        rintro rfl
        exact absurd hinv (by decide)
      | tuple hd hvec e hes h =>
        subst hd hvec
        exact Or.inl (hcl.tuples hb.noMember hc.noMember p hp (hm (by decide)))
      | dyn hd hd' h =>
        rcases hpr with hl | ⟨-, e, he, hae⟩
        · exact Or.inl (hd'.trans hd.symm ▸ hl)
        · exact Or.inr ⟨hd', hdy hd hd' h e he hae⟩
      | dynAlt _ hd' e he h => exact Or.inr ⟨hd', e, he, halt e he h⟩
      | covariant _ hne hcd _ _ => exact Or.inl (hcd ▸ hm hne)
    | fn ps r t =>
      obtain ⟨hd, e, he, hae⟩ := (shape_fn_app ha hb).mp hab
      refine (shape_fn_app ha hc).mpr ?_
      cases harm with
      | invariant hinv _ _ => exact absurd (hd ▸ hinv) (by decide)
      | tuple hvec _ _ _ _ => exact absurd (hd.symm.trans hvec) (by decide)
      | dyn _ hd' h => exact ⟨hd', hdy hd hd' h e he hae⟩
      | dynAlt hne _ _ _ _ | covariant _ hne _ _ _ => exact absurd hd hne
    | app e as => exact trans_app htr (Nat.le_refl _) ha hb hc hab hbc

/-- The step between types that are no unions and no views. -/
theorem trans_bare (hcl : T.Closed) {b c : Ty}
    (htr : TransBelow T (a.size + b.size + c.size)) (ha : Bare T a) (hb : Bare T b)
    (hc : Bare T c) (hab : T.Accepts a b) (hbc : T.Accepts b c) : T.Accepts a c := by
  cases hb.shape with
  | prim q => exact trans_prim hcl htr ha hb hc hab hbc
  | app d bs => exact trans_over_app hcl htr ha hb hc hab hbc
  | fn ps' r' t' =>
    cases ha.shape with
    | prim p | app e as => exact absurd hab (not_accepts_fn ha hb fun _ _ _ h => Ty.noConfusion h)
    | fn ps r t =>
      cases hc.shape with
      | prim q => exact absurd hbc (not_accepts_fn_prim hb hc)
      | fn ps'' r'' t'' =>
        exact trans_fn htr (Nat.le_refl _) ha.plain hb.plain hc.plain hab hbc
      | app d cs =>
        obtain ⟨hdyn, e, he, hbe⟩ := (shape_fn_app hb hc).mp hbc
        have := Ty.size_lt_app (c := d) he
        exact (shape_fn_app ha hc).mpr ⟨hdyn, e, he, htr _ _ e (by omega) ha.plain
          hb.plain ((Ty.plain_app hc.plain).2 e he) hab hbe⟩

/-- **Assignability is transitive over closed tables.** -/
theorem accepts_trans (hcl : T.Closed) : ∀ n, TransBelow T n := by
  intro n
  induction n with
  | zero =>
    intro a b c hn
    omega
  | succ n ih =>
    intro a b c hn ha hb hc hab hbc
    by_cases hno : a.unionAlts = none ∧ b.unionAlts = none ∧ c.unionAlts = none
    · -- no unions are left; put the views back to their members
      obtain ⟨hau, hbu, hcu⟩ := hno
      have hav := bare_viewed (T := T) ha hau
      have hbv := bare_viewed (T := T) hb hbu
      have hcv := bare_viewed (T := T) hc hcu
      have hs := size_viewed_le (T := T) a
      have hs' := size_viewed_le (T := T) b
      have hs'' := size_viewed_le (T := T) c
      have hab' : T.Accepts (T.viewed a) (T.viewed b) :=
        (accepts_viewed_left ha hbv.plain).mpr ((accepts_viewed_right hb ha).mpr hab)
      have hbc' : T.Accepts (T.viewed b) (T.viewed c) :=
        (accepts_viewed_left hb hcv.plain).mpr ((accepts_viewed_right hc hb).mpr hbc)
      have hac' := trans_bare hcl (fun x y z hlt => ih x y z (by omega)) hav hbv hcv hab' hbc'
      exact (accepts_viewed_right hc ha).mp ((accepts_viewed_left ha hcv.plain).mp hac')
    · refine (accepts_alternatives ha hc).mpr fun x hx => ?_
      obtain ⟨y, hy, hxy⟩ := (accepts_alternatives ha hb).mp hab x hx
      obtain ⟨z, hz, hyz⟩ := (accepts_alternatives hb hc).mp hbc y hy
      obtain ⟨hpx, hx⟩ := Ty.alternatives_below ha hx
      obtain ⟨hpy, hy⟩ := Ty.alternatives_below hb hy
      obtain ⟨hpz, hle, hlt⟩ := Ty.alternatives_below hc hz
      refine ⟨z, hz, ih x y z ?_ hpx hpy hpz hxy hyz⟩
      have hun : a.unionAlts ≠ none ∨ b.unionAlts ≠ none ∨ c.unionAlts ≠ none := by tauto
      rcases hun with h | h | h
      · have := hx.2 h
        omega
      · have := hy.2 h
        omega
      · have := hlt h
        omega

end

variable {T : Tables}

theorem bare_app_nil {d : String} (hd : d ≠ "Any") (hm : T.parametricMembers d = false) :
    Bare T (.app d []) := by
  refine ⟨?_, rfl, ?_⟩
  · rw [Ty.plain, Ty.plainList, Bool.and_true]
    exact bne_iff_ne.mpr hd
  · show (if T.parametricMembers d then some d else none) = none
    rw [hm]
    rfl

/-- **Transitivity closes the tables.** -/
theorem closed_of_trans (htr : ∀ a b c : Ty, a.plain = true → b.plain = true →
    c.plain = true → T.Accepts a b → T.Accepts b c → T.Accepts a c) : T.Closed where
  names p q r hp hq hr hpq hqr := by
    have h := htr _ _ _ (Ty.plain_prim hp) (Ty.plain_prim hq) (Ty.plain_prim hr)
      ((accepts_prims hp hq).mpr hpq) ((accepts_prims hq hr).mpr hqr)
    exact (accepts_prims hp hr).mp h
  members p q d hp hq hd hmemb hpq hlisted := by
    have hb := bare_app_nil hd hmemb
    have h := htr _ _ _ (Ty.plain_prim hp) (Ty.plain_prim hq) hb.plain
      ((accepts_prims hp hq).mpr hpq) ((shape_prim_app hq hb).mpr (Or.inl hlisted))
    rcases (shape_prim_app hp hb).mp h with hmem | ⟨-, e, he, -⟩
    · exact hmem
    · exact absurd he not_mem_nil
  tuples hHVec hVec p hp hlisted := by
    have htup := bare_app_nil (T := T) (d := "HVec") (by decide) hHVec
    have hvec : Bare T (.app "Vec" [.prim "Int"]) := by
      refine ⟨rfl, rfl, ?_⟩
      show (if T.parametricMembers "Vec" then some "Vec" else none) = none
      rw [hVec]
      rfl
    have hw : T.Accepts (.app "HVec" []) (.app "Vec" [.prim "Int"]) :=
      (accepts_apps htup hvec).mpr (AppArm.tuple rfl rfl _ rfl (by simp))
    have h := htr _ _ _ (Ty.plain_prim hp) htup.plain hvec.plain
      ((shape_prim_app hp htup).mpr (Or.inl hlisted)) hw
    rcases (shape_prim_app hp hvec).mp h with hmem | ⟨hdyn, -⟩
    · exact hmem
    · simp at hdyn
  regex hmemb q hq hqr := by
    have hs := bare_app_nil (T := T) (d := "Regex") (by decide) hmemb
    have hre : ("Regex" : String) ≠ "Any" := by decide
    have h := htr _ _ _ hs.plain (Ty.plain_prim hre) (Ty.plain_prim hq)
      ((shape_app_prim hs hre).mpr ⟨rfl, rfl⟩) ((accepts_prims hre hq).mpr hqr)
    exact ((shape_app_prim hs hq).mp h).2
  regexMember hmemb d hd hdmember := by
    by_cases hlisted : T.isMember d "Regex" = true
    · have hre : ("Regex" : String) ≠ "Any" := by decide
      have hb := bare_app_nil hd hdmember
      have hs : Bare T (.app "Regex" [.prim "Int"]) := by
        refine ⟨rfl, rfl, ?_⟩
        show (if T.parametricMembers "Regex" then some "Regex" else none) = none
        rw [hmemb]
        rfl
      have h := htr _ _ _ hs.plain (Ty.plain_prim hre) hb.plain
        ((shape_app_prim hs hre).mpr ⟨rfl, rfl⟩)
        ((shape_prim_app hre hb).mpr (Or.inl hlisted))
      cases (accepts_apps hs hb).mp h with
      | invariant hinv _ _ => exact absurd hinv (by decide)
      | tuple hvec _ _ _ _ => simp at hvec
      | dyn hdyn _ _ => simp at hdyn
      | dynAlt _ _ e he _ => exact absurd he not_mem_nil
      | covariant _ _ _ hlen _ => simp at hlen
    · exact Bool.not_eq_true _ ▸ hlisted

/-- **Assignability is reflexive, transitive exactly over closed tables, and exact on
functions.** -/
theorem assignability_laws (T : Tables) : (∀ t : Ty, t.plain = true → T.Accepts t t) ∧
    ((∀ a b c : Ty, a.plain = true → b.plain = true → c.plain = true → T.Accepts a b →
      T.Accepts b c → T.Accepts a c) ↔ T.Closed) ∧
    ∀ (ps ps' : List Ty) (rest rest' : Option Ty) (ret ret' : Ty),
      (Ty.fn ps rest ret).plain = true → (Ty.fn ps' rest' ret').plain = true →
        (T.Accepts (.fn ps rest ret) (.fn ps' rest' ret') ↔ T.Accepts ret ret' ∧
            TakesCalls (fun e a => T.Accepts e a) ps rest ps' rest') := by
  refine ⟨fun t _ => accepts_refl t, ⟨closed_of_trans, ?_⟩, ?_⟩
  · intro hcl a b c
    exact accepts_trans hcl _ a b c (Nat.lt_succ_self _)
  · intro ps ps' rest rest' ret ret' ha he
    exact accepts_fns ha he

/-- A union `Paint` with an enumeration `Color` among its members. -/
def paintTables : Tables where
  unionMembers name := if name = "Paint" then some ["Color", "Brush"] else none
  enumTypes name := name == "Color"
  parametricMembers _ := false
  qualifiedLeaves _ := none

/-- A keyword is a color and a color is a paint, but a keyword is no paint. -/
theorem keyword_is_no_paint : paintTables.Accepts (.prim "Keyword") (.prim "Color") ∧
      paintTables.Accepts (.prim "Color") (.prim "Paint") ∧
      ¬ paintTables.Accepts (.prim "Keyword") (.prim "Paint") := by
  decide

end Beagle.Types
