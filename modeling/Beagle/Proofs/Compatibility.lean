/-
The cascade as an equation, and its arms as rules.

The recursive calls of a round are about smaller pairs, so two relations that agree on
smaller pairs give one round, and a bound that is large enough gives the relation
itself.  The arms are then read off one by one, for types without `Any` and without
metavariables.

The arms of assignability as rules.

Each arm of the cascade is read off once, for types without `Any` and without
metavariables.  A member view may be put for its member on either side.  The function
arm says what its comment says: the actual takes every call that the expected permits,
of every length and at every position.
-/
import Beagle.Types.Ty

namespace Beagle.Types

open List

section

variable {T : Tables}

/-! ### The equation -/

/-- Two relations agree on the pairs that a round may ask about. -/
def AgreeBelow (n : Nat) (r r' : Ty → Ty → Bool) : Prop :=
  ∀ a e : Ty, a.size + e.size < n → r a e = r' a e

variable {α : Type}

theorem all_congr_of_mem {xs : List α} {p q : α → Bool} (h : ∀ x ∈ xs, p x = q x) :
    xs.all p = xs.all q := by
  induction xs with
  | nil => rfl
  | cons x xs ih =>
    rw [all_cons, all_cons, h x mem_cons_self, ih fun y hy => h y (mem_cons_of_mem _ hy)]

theorem any_congr_of_mem {xs : List α} {p q : α → Bool} (h : ∀ x ∈ xs, p x = q x) :
    xs.any p = xs.any q := by
  induction xs with
  | nil => rfl
  | cons x xs ih =>
    rw [any_cons, any_cons, h x mem_cons_self, ih fun y hy => h y (mem_cons_of_mem _ hy)]

variable {r r' : Ty → Ty → Bool} {as es : List Ty} {c : String}

theorem pairwise_congr (h : ∀ a ∈ as, ∀ e ∈ es, r a e = r' a e) :
    pairwise r as es = pairwise r' as es := by
  unfold pairwise
  congr 1
  refine all_congr_of_mem ?_
  intro p hp
  exact h p.1 (of_mem_zip hp).1 p.2 (of_mem_zip hp).2

theorem fnCompatible_congr {ps p' : List Ty} {rs rs' : Option Ty} {t t' : Ty}
    (hpa : ∀ e ∈ p', ∀ a ∈ ps, r e a = r' e a)
    (hre : ∀ e ∈ p', ∀ a ∈ rs, r e a = r' e a)
    (hr : ∀ e ∈ rs', ∀ a ∈ rs, r e a = r' e a) (hret : r t t' = r' t t') :
    fnCompatible r ps rs t p' rs' t' = fnCompatible r' ps rs t p' rs' t' := by
  have hps : ((p'.take ps.length).zip ps).all (fun p => r p.1 p.2) =
      ((p'.take ps.length).zip ps).all (fun p => r' p.1 p.2) := by
    refine all_congr_of_mem ?_
    intro p hp
    exact hpa p.1 (mem_of_mem_take (of_mem_zip hp).1) p.2 (of_mem_zip hp).2
  unfold fnCompatible
  rw [hps, hret]
  cases rs with
  | none => rfl
  | some a =>
    have hd : ((p'.drop ps.length).all fun p => r p a) = (p'.drop ps.length).all fun p => r' p a :=
      all_congr_of_mem fun p hp => hre p (mem_of_mem_drop hp) a rfl
    cases rs' with
    | none => simp only [hd]
    | some e => simp only [hd, hr e rfl a rfl]

theorem appCompatible_congr {d : String} (harg : ∀ a ∈ as, ∀ e ∈ es, r a e = r' a e)
    (halt : ∀ e ∈ es, r (.app c as) e = r' (.app c as) e) :
    appCompatible T r c as d es = appCompatible T r' c as d es := by
  unfold appCompatible
  rw [any_congr_of_mem halt, pairwise_congr harg,
    all_congr_of_mem fun a ha => all_congr_of_mem fun e he => harg a ha e he]

variable {a : Ty}

theorem shapeCompatible_congr {e : Ty} (h : AgreeBelow (a.size + e.size) r r') :
    shapeCompatible T r a e = shapeCompatible T r' a e := by
  have hr : ∀ d es, e = .app d es → (es.any fun alt => r a alt) = es.any fun alt => r' a alt := by
    rintro d es rfl
    refine any_congr_of_mem fun alt halt => h a alt ?_
    have := Ty.size_lt_app (c := d) halt
    omega
  unfold shapeCompatible
  cases a with
  | prim p =>
    cases e with
    | app d es => simp only [hr d es rfl]
    | _ => rfl
  | fn ps rs t =>
    cases e with
    | app d es => simp only [hr d es rfl]
    | fn p' rs' t' =>
      refine fnCompatible_congr ?_ ?_ ?_ ?_
      · intro e he a ha
        have := Ty.size_lt_param (r := rs') (t := t') he
        have := Ty.size_lt_param (r := rs) (t := t) ha
        exact h e a (by omega)
      · intro e he a ha
        have := Ty.size_lt_param (r := rs') (t := t') he
        rw [Option.mem_def.mp ha] at h
        have := Ty.size_lt_rest ps t a
        exact h e a (by omega)
      · intro e he a ha
        rw [Option.mem_def.mp he, Option.mem_def.mp ha] at h
        have := Ty.size_lt_rest ps t a
        have := Ty.size_lt_rest p' t' e
        exact h e a (by omega)
      · have := Ty.size_lt_ret ps rs t
        have := Ty.size_lt_ret p' rs' t'
        exact h t t' (by omega)
    | _ => rfl
  | app c as =>
    cases e with
    | app d es =>
      refine appCompatible_congr ?_ ?_
      · intro a ha e he
        have := Ty.size_lt_app (c := c) ha
        have := Ty.size_lt_app (c := d) he
        exact h a e (by omega)
      · intro e he
        have := Ty.size_lt_app (c := d) he
        exact h _ e (by omega)
    | _ => rfl
  | _ => rfl

theorem eq_union_of_unionAlts {alts : List Ty} (h : a.unionAlts = some alts) : a = .union alts := by
  cases a with
  | union as => rw [Option.some.inj h]
  | _ => simp [Ty.unionAlts] at h

theorem size_lt_of_memberView (h : T.memberView a = some c) : (Ty.prim c).size < a.size := by
  cases a with
  | app d ar => exact Ty.size_prim_lt_app
  | _ => simp [Tables.memberView] at h

theorem compatRound_congr {e : Ty} (h : AgreeBelow (a.size + e.size) r r') :
    compatRound T r a e = compatRound T r' a e := by
  have hs := shapeCompatible_congr (T := T) h
  unfold compatRound
  cases ha : a.unionAlts with
  | some as =>
    have hun := eq_union_of_unionAlts ha
    subst hun
    cases he : e.unionAlts with
    | some es =>
      have hun := eq_union_of_unionAlts he
      subst hun
      have hall : (as.all fun a => es.any fun e => r a e) =
          as.all fun a => es.any fun e => r' a e := by
        refine all_congr_of_mem fun a ha => any_congr_of_mem fun e he => h a e ?_
        have := Ty.size_lt_union ha
        have := Ty.size_lt_union he
        omega
      simp only [hall]
    | none =>
      have hall : (as.all fun alt => r alt e) = as.all fun alt => r' alt e := by
        refine all_congr_of_mem fun alt halt => h alt e ?_
        have := Ty.size_lt_union halt
        omega
      simp only [hall]
  | none =>
    cases he : e.unionAlts with
    | some es =>
      have hun := eq_union_of_unionAlts he
      subst hun
      have hany : (es.any fun alt => r a alt) = es.any fun alt => r' a alt := by
        refine any_congr_of_mem fun alt halt => h a alt ?_
        have := Ty.size_lt_union halt
        omega
      simp only [hany]
    | none =>
      cases hav : T.memberView a with
      | some c =>
        have := size_lt_of_memberView hav
        have hv : r (.prim c) e = r' (.prim c) e := h _ e (by omega)
        simp only [hv]
      | none =>
        cases hev : T.memberView e with
        | some d =>
          have := size_lt_of_memberView hev
          have hv : r a (.prim d) = r' a (.prim d) := h a _ (by omega)
          simp only [hv]
        | none => simp only [hs]

/-- A bound that is large enough makes no difference. -/
theorem compatWithin_eq : ∀ (n m : Nat) (a e : Ty), a.size + e.size ≤ n → a.size + e.size ≤ m →
    compatWithin T n a e = compatWithin T m a e := by
  intro n
  induction n with
  | zero =>
    intro m a e hn _
    have := a.size_pos
    omega
  | succ n ih =>
    intro m a e hn hm
    cases m with
    | zero =>
      have := a.size_pos
      omega
    | succ m =>
      refine compatRound_congr ?_
      intro x y hxy
      exact ih m x y (by omega) (by omega)

/-- **The relation satisfies its cascade.** -/
theorem typeCompatible_eq (a e : Ty) :
    typeCompatible T a e = compatRound T (typeCompatible T) a e := by
  have hs : a.size + e.size = (a.size + e.size - 1) + 1 := by
    have := a.size_pos
    omega
  unfold typeCompatible
  rw [hs]
  refine compatRound_congr ?_
  intro x y hxy
  exact compatWithin_eq _ _ x y (by omega) (Nat.le_refl _)

end

variable {T : Tables}

/-- `actual` is accepted where `expected` is expected. -/
abbrev Tables.Accepts (T : Tables) (actual expected : Ty) : Prop :=
  typeCompatible T actual expected = true

variable {a e t : Ty} {re : Ty → Ty → Bool}

theorem Ty.isAny_of_plain (h : a.plain = true) : a.isAny = false := by
  cases a with
  | prim n =>
    rw [Ty.plain, bne_iff_ne] at h
    simpa [Ty.isAny] using h
  | _ => rfl

theorem Ty.isMetavar_of_plain (h : a.plain = true) : a.isMetavar = false := by
  cases a with
  | metavar id => simp [Ty.plain] at h
  | _ => rfl

/-! ### Unions -/

/-- The cascade past `Any` and metavariables. -/
theorem typeCompatible_shown (ha : a.isAny = false) (he : e.isAny = false)
    (ham : a.isMetavar = false) (hem : e.isMetavar = false) :
    typeCompatible T a e =
      match a.unionAlts, e.unionAlts with
      | some as, some es => as.all fun a => es.any fun e => typeCompatible T a e
      | none, some es => es.any fun alt => typeCompatible T a alt
      | some as, none => as.all fun alt => typeCompatible T alt e
      | none, none =>
        match T.memberView a, T.memberView e with
        | some c, _ => typeCompatible T (.prim c) e
        | none, some d => typeCompatible T a (.prim d)
        | none, none => shapeCompatible T (typeCompatible T) a e := by
  rw [typeCompatible_eq]
  unfold compatRound
  rw [ha, he, ham, hem]
  rfl

theorem typeCompatible_plain (ha : a.plain = true) (he : e.plain = true) : typeCompatible T a e =
      match a.unionAlts, e.unionAlts with
      | some as, some es => as.all fun a => es.any fun e => typeCompatible T a e
      | none, some es => es.any fun alt => typeCompatible T a alt
      | some as, none => as.all fun alt => typeCompatible T alt e
      | none, none =>
        match T.memberView a, T.memberView e with
        | some c, _ => typeCompatible T (.prim c) e
        | none, some d => typeCompatible T a (.prim d)
        | none, none => shapeCompatible T (typeCompatible T) a e :=
  typeCompatible_shown (Ty.isAny_of_plain ha) (Ty.isAny_of_plain he) (Ty.isMetavar_of_plain ha)
    (Ty.isMetavar_of_plain he)

theorem typeCompatible_of_any (h : a.isAny = true) (e : Ty) : typeCompatible T a e = true := by
  rw [typeCompatible_eq]
  unfold compatRound
  rw [if_pos h]

theorem typeCompatible_fns (ps p' : List Ty) (r r' : Option Ty) (t t' : Ty) :
    typeCompatible T (.fn ps r t) (.fn p' r' t') =
      fnCompatible (typeCompatible T) ps r t p' r' t' := by
  rw [typeCompatible_shown rfl rfl rfl rfl]
  rfl

theorem typeCompatible_unions (as es : List Ty) : typeCompatible T (.union as) (.union es) =
      as.all fun a => es.any fun e => typeCompatible T a e := by
  rw [typeCompatible_shown rfl rfl rfl rfl]
  rfl

variable {as es pas ps p' : List Ty} {c : String} {i : Nat} {rs' : Option Ty} {t' : Ty}

theorem accepts_unions (ha : (Ty.union as).plain = true) (he : (Ty.union es).plain = true) :
    T.Accepts (.union as) (.union es) ↔ ∀ a ∈ as, ∃ e ∈ es, T.Accepts a e := by
  unfold Tables.Accepts
  rw [typeCompatible_plain ha he]
  simp only [Ty.unionAlts, all_eq_true, any_eq_true]

theorem accepts_to_union (ha : a.plain = true) (he : (Ty.union es).plain = true)
    (hun : a.unionAlts = none) : T.Accepts a (.union es) ↔ ∃ e ∈ es, T.Accepts a e := by
  unfold Tables.Accepts
  rw [typeCompatible_plain ha he, hun]
  simp only [Ty.unionAlts, any_eq_true]

theorem accepts_of_union (ha : (Ty.union as).plain = true) (he : e.plain = true)
    (hun : e.unionAlts = none) : T.Accepts (.union as) e ↔ ∀ a ∈ as, T.Accepts a e := by
  unfold Tables.Accepts
  rw [typeCompatible_plain ha he, hun]
  simp only [Ty.unionAlts, all_eq_true]

/-- The alternatives of a union, or the type itself. -/
def Ty.alternatives (t : Ty) : List Ty := t.unionAlts.getD [t]

theorem accepts_alternatives (ha : a.plain = true) (he : e.plain = true) :
    T.Accepts a e ↔ ∀ x ∈ a.alternatives, ∃ y ∈ e.alternatives, T.Accepts x y := by
  unfold Ty.alternatives
  cases hau : a.unionAlts with
  | some as =>
    obtain rfl := eq_union_of_unionAlts hau
    cases heu : e.unionAlts with
    | some es =>
      obtain rfl := eq_union_of_unionAlts heu
      exact accepts_unions ha he
    | none => simpa using accepts_of_union ha he heu
  | none =>
    cases heu : e.unionAlts with
    | some es =>
      obtain rfl := eq_union_of_unionAlts heu
      simpa using accepts_to_union ha he hau
    | none => simp

theorem Ty.alternatives_below (ht : t.plain = true) (ha : a ∈ t.alternatives) :
    a.plain = true ∧ a.size ≤ t.size ∧ (t.unionAlts ≠ none → a.size < t.size) := by
  unfold Ty.alternatives at ha
  cases hun : t.unionAlts with
  | some al =>
    obtain rfl := eq_union_of_unionAlts hun
    rw [hun] at ha
    have hlt := Ty.size_lt_union ha
    exact ⟨Ty.plain_union ht a ha, Nat.le_of_lt hlt, fun _ => hlt⟩
  | none =>
    rw [hun] at ha
    obtain rfl := mem_singleton.mp ha
    exact ⟨ht, Nat.le_refl _, fun hne => absurd rfl hne⟩

/-! ### Member views -/

/-- A type with its member in place of a member view. -/
def Tables.viewed (T : Tables) (t : Ty) : Ty :=
  match T.memberView t with
  | some c => .prim c
  | none => t

theorem viewed_of_none (h : T.memberView t = none) : T.viewed t = t := by
  unfold Tables.viewed
  rw [h]

theorem viewed_of_some (h : T.memberView t = some c) : T.viewed t = .prim c := by
  unfold Tables.viewed
  rw [h]

theorem memberView_viewed (t : Ty) : T.memberView (T.viewed t) = none := by
  cases h : T.memberView t with
  | none => rw [viewed_of_none h, h]
  | some c => rw [viewed_of_some h]; rfl

theorem plain_viewed (h : t.plain = true) : (T.viewed t).plain = true := by
  cases hv : T.memberView t with
  | none => rw [viewed_of_none hv]; exact h
  | some c =>
    cases t with
    | app d ar =>
      have hn : d = c := by
        unfold Tables.memberView at hv
        by_cases hd : T.parametricMembers d = true
        · simpa [hd] using hv
        · simp [hd] at hv
      rw [viewed_of_some hv, ← hn, Ty.plain, bne_iff_ne]
      exact (Ty.plain_app h).1
    | _ => simp [Tables.memberView] at hv

theorem unionAlts_viewed (h : t.unionAlts = none) : (T.viewed t).unionAlts = none := by
  cases hv : T.memberView t with
  | none => rw [viewed_of_none hv]; exact h
  | some c => rw [viewed_of_some hv]; rfl

theorem size_viewed_le (t : Ty) : (T.viewed t).size ≤ t.size := by
  cases h : T.memberView t with
  | none => exact Nat.le_of_eq (congrArg Ty.size (viewed_of_none h))
  | some c =>
    rw [viewed_of_some h]
    exact Nat.le_of_lt (size_lt_of_memberView h)

theorem unionAlts_of_memberView (h : T.memberView t = some c) : t.unionAlts = none := by
  cases t with
  | union al => simp [Tables.memberView] at h
  | _ => rfl

/-- A view is its member on the actual side. -/
theorem accepts_viewed_left (ha : a.plain = true) : ∀ {e : Ty}, e.plain = true →
    (T.Accepts (T.viewed a) e ↔ T.Accepts a e) := by
  cases hv : T.memberView a with
  | none =>
    intro e _
    rw [viewed_of_none hv]
  | some c =>
    have hpl := plain_viewed (T := T) ha
    have hno := unionAlts_of_memberView hv
    have hp : (T.viewed a).unionAlts = none := unionAlts_viewed hno
    have hm : ∀ n, ∀ e : Ty, e.size ≤ n → e.plain = true →
        (T.Accepts (T.viewed a) e ↔ T.Accepts a e) := by
      intro n
      induction n with
      | zero =>
        intro e he _
        have := e.size_pos
        omega
      | succ n ih =>
        intro e hn he
        cases hun : e.unionAlts with
        | some es =>
          have heq := eq_union_of_unionAlts hun
          subst heq
          rw [accepts_to_union hpl he hp, accepts_to_union ha he hno]
          refine exists_congr fun alt => and_congr_right fun halt => ?_
          have := Ty.size_lt_union halt
          exact ih alt (by omega) (Ty.plain_union he alt halt)
        | none =>
          unfold Tables.Accepts
          rw [typeCompatible_plain ha he, hno, hun, hv, viewed_of_some hv]
    intro e he
    exact hm e.size e (Nat.le_refl _) he

/-- A view is its member on the expected side. -/
theorem accepts_viewed_right (he : e.plain = true) : ∀ {a : Ty}, a.plain = true →
    (T.Accepts a (T.viewed e) ↔ T.Accepts a e) := by
  cases hv : T.memberView e with
  | none =>
    intro a _
    rw [viewed_of_none hv]
  | some d =>
    have hpl := plain_viewed (T := T) he
    have hno := unionAlts_of_memberView hv
    have hp : (T.viewed e).unionAlts = none := unionAlts_viewed hno
    have hm : ∀ n, ∀ a : Ty, a.size ≤ n → a.plain = true →
        (T.Accepts a (T.viewed e) ↔ T.Accepts a e) := by
      intro n
      induction n with
      | zero =>
        intro a ha _
        have := a.size_pos
        omega
      | succ n ih =>
        intro a hn ha
        cases hun : a.unionAlts with
        | some as =>
          have heq := eq_union_of_unionAlts hun
          subst heq
          rw [accepts_of_union ha hpl hp, accepts_of_union ha he hno]
          refine forall_congr' fun alt => imp_congr_right fun halt => ?_
          have := Ty.size_lt_union halt
          exact ih alt (by omega) (Ty.plain_union ha alt halt)
        | none =>
          cases hav : T.memberView a with
          | some c =>
            have := size_lt_of_memberView hav
            have hc : (Ty.prim c).plain = true := by
              rw [← viewed_of_some hav]
              exact plain_viewed ha
            rw [← accepts_viewed_left ha hpl, ← accepts_viewed_left ha he, viewed_of_some hav]
            exact ih (.prim c) (by omega) hc
          | none =>
            unfold Tables.Accepts
            rw [typeCompatible_plain ha he, hno, hun, hv, hav, viewed_of_some hv]
    intro a ha
    exact hm a.size a (Nat.le_refl _) ha

/-- The remaining arms. -/
theorem accepts_shapes (ha : a.plain = true) (he : e.plain = true) (hau : a.unionAlts = none)
    (heu : e.unionAlts = none) (hav : T.memberView a = none) (hev : T.memberView e = none) :
    T.Accepts a e ↔ shapeCompatible T (typeCompatible T) a e = true := by
  unfold Tables.Accepts
  rw [typeCompatible_plain ha he, hau, heu, hav, hev]

/-! ### Calls -/

/-- A function with these parameters may be called with `n` arguments. -/
def Permits (params : List Ty) (rest : Option Ty) (n : Nat) : Prop :=
  n = params.length ∨ (params.length ≤ n ∧ rest.isSome = true)

/-- The type of argument `i` of a call. -/
def argAt (params : List Ty) (rest : Option Ty) (i : Nat) : Option Ty := params[i]?.or rest

/-- The actual takes every call that the expected permits. -/
def TakesCalls (related : Ty → Ty → Prop) (aParams : List Ty) (aRest : Option Ty)
    (eParams : List Ty) (eRest : Option Ty) : Prop :=
  ∀ n, Permits eParams eRest n → Permits aParams aRest n ∧
    ∀ i < n, ∀ e ∈ argAt eParams eRest i, ∀ a ∈ argAt aParams aRest i, related e a

variable {rs : Option Ty}

theorem argAt_of_lt (h : i < pas.length) : argAt pas rs i = some pas[i] := by
  unfold argAt
  rw [getElem?_eq_getElem h, Option.some_or]

theorem argAt_of_ge {rest : Option Ty} (h : pas.length ≤ i) : argAt pas rest i = rest := by
  unfold argAt
  rw [getElem?_eq_none h, Option.none_or]

/-- Two lists walked together. -/
theorem all_zip_iff {xs ys : List Ty} : ((xs.zip ys).all fun p => re p.1 p.2) = true ↔
      ∀ i (hx : i < xs.length) (hy : i < ys.length), re xs[i] ys[i] = true := by
  rw [all_eq_true]
  constructor
  · intro h i hx hy
    have hmem : (xs[i], ys[i]) ∈ xs.zip ys := by
      refine mem_iff_getElem.mpr ⟨i, ?_, getElem_zip⟩
      rw [length_zip]
      exact Nat.lt_min.mpr ⟨hx, hy⟩
    exact h _ hmem
  · intro h p hp
    obtain ⟨i, hi, rfl⟩ := mem_iff_getElem.mp hp
    rw [length_zip] at hi
    rw [getElem_zip]
    exact h i (Nat.lt_min.mp hi).1 (Nat.lt_min.mp hi).2

/-- The conjuncts of the function arm. -/
theorem fnCompatible_conjuncts : fnCompatible re ps rs t p' rs' t' = true ↔
      ps.length ≤ p'.length ∧ (ps.length = p'.length ∨ rs.isSome = true) ∧
      (∀ i (_ : i < ps.length) (_ : i < p'.length), re p'[i] ps[i] = true) ∧
      (∀ a ∈ rs, ∀ i (_ : ps.length ≤ i) (_ : i < p'.length), re p'[i] a = true) ∧
      (∀ e ∈ rs', ∃ a ∈ rs, re e a = true) ∧ re t t' = true := by
  have hf : ps.length ≤ p'.length → ((((p'.take ps.length).zip ps).all fun p => re p.1 p.2) = true ↔
        ∀ i (_ : i < ps.length) (_ : i < p'.length), re p'[i] ps[i] = true) := by
    intro hle
    rw [all_zip_iff]
    constructor
    · intro h i hi hi'
      have hx : i < (p'.take ps.length).length := by
        rw [length_take]
        exact Nat.lt_min.mpr ⟨hi, hi'⟩
      have hget := h i hx hi
      rw [getElem_take] at hget
      exact hget
    · intro h i hx hy
      rw [getElem_take]
      exact h i hy (Nat.lt_of_lt_of_le hy hle)
  have hb : ∀ a, ((p'.drop ps.length).all fun p => re p a) = true ↔
      ∀ i (_ : ps.length ≤ i) (_ : i < p'.length), re p'[i] a = true := by
    intro a
    rw [all_eq_true]
    constructor
    · intro h i hle hi
      refine h _ (mem_iff_getElem.mpr ⟨i - ps.length, ?_, ?_⟩)
      · rw [length_drop]
        omega
      · rw [getElem_drop]
        congr 1
        omega
    · intro h p hp
      obtain ⟨i, hi, rfl⟩ := mem_iff_getElem.mp hp
      rw [length_drop] at hi
      rw [getElem_drop]
      exact h _ (by omega) (by omega)
  unfold fnCompatible
  by_cases hle : ps.length ≤ p'.length
  · cases rs with
    | none =>
      cases rs' with
      | none => simp [hf hle, hle, and_assoc]
      | some e => simp
    | some a =>
      cases rs' with
      | none | some e => simp [hf hle, hb a, hle, and_assoc]
  · simp [hle]

/-- **The function arm: compatible results, and every permitted call is taken.** -/
theorem fnCompatible_iff : fnCompatible re ps rs t p' rs' t' = true ↔
      re t t' = true ∧ TakesCalls (fun e a => re e a = true) ps rs p' rs' := by
  rw [fnCompatible_conjuncts]
  constructor
  · rintro ⟨hle, hl, hf, hb, hr, hret⟩
    refine ⟨hret, ?_⟩
    intro n hn
    refine ⟨?_, ?_⟩
    · rcases hn with rfl | ⟨hn, hs⟩
      · rcases hl with heq | hrest
        · exact Or.inl heq.symm
        · exact Or.inr ⟨hle, hrest⟩
      · -- a call past the expected parameters lands in both rests
        obtain ⟨e, he⟩ := Option.isSome_iff_exists.mp hs
        obtain ⟨a, ha, -⟩ := hr e he
        exact Or.inr ⟨Nat.le_trans hle hn, Option.isSome_iff_exists.mpr ⟨a, ha⟩⟩
    · intro i _ e he a ha
      by_cases hie : i < p'.length
      · rw [argAt_of_lt hie] at he
        by_cases hia : i < ps.length
        · rw [argAt_of_lt hia] at ha
          rw [← Option.some.inj he, ← Option.some.inj ha]
          exact hf i hia hie
        · rw [argAt_of_ge (Nat.not_lt.mp hia)] at ha
          rw [← Option.some.inj he]
          exact hb a ha i (Nat.not_lt.mp hia) hie
      · rw [argAt_of_ge (Nat.not_lt.mp hie)] at he
        rw [argAt_of_ge (Nat.le_trans hle (Nat.not_lt.mp hie))] at ha
        obtain ⟨a', ha', hrel⟩ := hr e he
        rw [Option.some.inj (ha.symm.trans ha')]
        exact hrel
  · rintro ⟨hret, hc⟩
    obtain ⟨hex, har⟩ := hc p'.length (Or.inl rfl)
    have hle : ps.length ≤ p'.length := by
      rcases hex with heq | ⟨hle, -⟩
      · exact Nat.le_of_eq heq.symm
      · exact hle
    refine ⟨hle, ?_, ?_, ?_, ?_, hret⟩
    · rcases hex with heq | ⟨-, hrest⟩
      · exact Or.inl heq.symm
      · exact Or.inr hrest
    · intro i hia hie
      exact har i hie _ (argAt_of_lt hie) _ (argAt_of_lt hia)
    · intro a ha i hge hie
      exact har i hie _ (argAt_of_lt hie) a ((argAt_of_ge hge).trans ha)
    · intro e he
      -- one argument more than the expected parameters
      have hm : Permits p' rs' (p'.length + 1) :=
        Or.inr ⟨Nat.le_succ _, Option.isSome_iff_exists.mpr ⟨e, he⟩⟩
      obtain ⟨hp, hla⟩ := hc _ hm
      have hs : rs.isSome = true := by
        rcases hp with heq | ⟨-, hrest⟩
        · omega
        · exact hrest
      obtain ⟨a, ha⟩ := Option.isSome_iff_exists.mp hs
      refine ⟨a, ha, ?_⟩
      exact hla p'.length (Nat.lt_succ_self _) e ((argAt_of_ge (Nat.le_refl _)).trans he) a
        ((argAt_of_ge hle).trans ha)

end Beagle.Types
