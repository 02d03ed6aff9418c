/-
Values that no rule can tell apart.

Sets and indexes compare with the language's `=`, which keeps one of the two zeros
and never finds a NaN.  Which of two equal values a substitution holds is therefore
an accident of the evaluation, and what is proved of evaluation is proved up to it:
two Terms are alike when they are identical or equal, and everything a literal
computes from alike values is alike.
-/
import Beagle.Query.Datalog

namespace Beagle.Query

open Beagle.Lib Beagle.Store

/-! ### Terms and tuples -/

/-- Identical or equal. -/
def Alike (a b : Term) : Prop := a = b ∨ a.same b = true

namespace Alike

theorem refl (a : Term) : Alike a a := Or.inl rfl

variable {a b : Term}

theorem of_same (h : a.same b = true) : Alike a b := Or.inr h

theorem symm {a b : Term} (h : Alike a b) : Alike b a := by
  rcases h with h | h
  · exact Or.inl h.symm
  · exact Or.inr (Term.same_symm h)

theorem trans {c : Term} (hab : Alike a b) (hbc : Alike b c) : Alike a c := by
  rcases hab with rfl | hab
  · exact hbc
  · rcases hbc with rfl | hbc
    · exact Or.inr hab
    · exact Or.inr (Term.same_trans hab hbc)

/-- Equality does not tell alike Terms apart. -/
theorem same_eq {a' b' : Term} (ha : Alike a a') (hb : Alike b b') : a.same b = a'.same b' := by
  have hl : ∀ c : Term, a.same c = a'.same c := by
    intro c
    rcases ha with rfl | ha
    · rfl
    · exact termLike.same_congr ha c
  have hr : ∀ c : Term, c.same b = c.same b' := by
    intro c
    rcases hb with rfl | hb
    · rfl
    · have := termLike.same_congr hb c
      rw [termLike.same_comm b c, termLike.same_comm b' c] at this
      exact this
  rw [hl, hr]

theorem same_of_noNan (h : Alike a b) (ha : a.hasNan = false) : a.same b = true := by
  rcases h with rfl | h
  · rw [Term.same_self, ha]
    rfl
  · exact h

end Alike

/-- Alike position by position. -/
def AlikeTuple (a b : Tuple) : Prop := List.Forall₂ Alike a b

namespace AlikeTuple

theorem refl : ∀ a : Tuple, AlikeTuple a a
  | [] => .nil
  | a :: as => .cons (Alike.refl a) (refl as)

theorem symm {a b : Tuple} (h : AlikeTuple a b) : AlikeTuple b a := by
  induction h with
  | nil => exact .nil
  | cons h _ ih => exact .cons h.symm ih

theorem trans {a b c : Tuple} (hab : AlikeTuple a b) (hbc : AlikeTuple b c) : AlikeTuple a c := by
  induction hab generalizing c with
  | nil => exact hbc
  | cons h _ ih =>
    cases hbc with
    | cons h' hbc => exact .cons (h.trans h') (ih hbc)

theorem of_same : ∀ {a b : Tuple}, sameTuple a b = true → AlikeTuple a b
  | [], [], _ => .nil
  | a :: as, b :: bs, h => by
    simp only [sameTuple, Bool.and_eq_true] at h
    exact .cons (Alike.of_same h.1) (of_same h.2)
  | [], _ :: _, h => by simp [sameTuple] at h
  | _ :: _, [], h => by simp [sameTuple] at h

theorem length_eq {a b : Tuple} (h : AlikeTuple a b) : a.length = b.length :=
  List.Forall₂.length_eq h

theorem getElem? {a b : Tuple} (h : AlikeTuple a b) {i : Nat} {x : Term} (hx : a[i]? = some x) :
    ∃ y, b[i]? = some y ∧ Alike x y := by
  induction h generalizing i with
  | nil => simp at hx
  | cons hh _ ih =>
    cases i with
    | zero =>
      cases hx
      exact ⟨_, rfl, hh⟩
    | succ i => exact ih (by simpa using hx)

end AlikeTuple

variable {a b tp : Tuple} {σ τ : Substitution}

/-- Equality does not tell alike tuples apart. -/
theorem sameTuple_eq {a' b' : Tuple} (ha : AlikeTuple a a') (hb : AlikeTuple b b') :
    sameTuple a b = sameTuple a' b' := by
  induction ha generalizing b b' with
  | nil => cases hb <;> rfl
  | cons hh _ ih =>
    cases hb with
    | nil => rfl
    | cons hh' hr =>
      unfold sameTuple
      rw [Alike.same_eq hh hh', ih hr]

/-- Does a NaN occur in the tuple? -/
def tupleHasNan (tuple : Tuple) : Bool := tuple.any Term.hasNan

theorem AlikeTuple.same_of_noNan (h : AlikeTuple a b) (ha : tupleHasNan a = false) :
    sameTuple a b = true := by
  induction h with
  | nil => rfl
  | cons h _ ih =>
    simp only [tupleHasNan, List.any_cons, Bool.or_eq_false_iff] at ha
    simp only [sameTuple, Bool.and_eq_true]
    exact ⟨h.same_of_noNan ha.1, ih ha.2⟩

/-! ### What a relation has -/

/-- Is there a tuple alike in the list? -/
def HasTuple (tuples : List Tuple) (tuple : Tuple) : Prop := ∃ t ∈ tuples, AlikeTuple t tuple

/-- Does the relation have the tuple? -/
def Db.Has (db : Db) (relation : String) (tuple : Tuple) : Prop :=
  HasTuple (db.tuples relation) tuple

variable {ts : List Tuple}

theorem HasTuple.congr (h : HasTuple ts a) (hab : AlikeTuple a b) :
    HasTuple ts b := by
  obtain ⟨t, ht, hta⟩ := h
  exact ⟨t, ht, hta.trans hab⟩

theorem HasTuple.of_mem (h : tp ∈ ts) :
    HasTuple ts tp := ⟨tp, h, AlikeTuple.refl tp⟩

theorem HasTuple.of_contains (h : tupleLike.mem ts tp = true) :
    HasTuple ts tp := by
  obtain ⟨t, ht, hs⟩ := tupleLike.mem_iff.mp h
  exact ⟨t, ht, AlikeTuple.of_same hs⟩

theorem HasTuple.contains (h : HasTuple ts tp)
    (hn : tupleHasNan tp = false) : tupleLike.mem ts tp = true := by
  obtain ⟨t, ht, hal⟩ := h
  refine tupleLike.mem_iff.mpr ⟨t, ht, ?_⟩
  exact sameTuple_symm _ _ (hal.symm.same_of_noNan hn)

variable {xs ys : List Tuple}

/-- Lists with the same tuples up to likeness hold the same members. -/
theorem mem_eq_of_hasTuple_iff (h : ∀ t, HasTuple xs t ↔ HasTuple ys t) (hab : AlikeTuple a b) :
    tupleLike.mem xs a = tupleLike.mem ys b := by
  have himp : ∀ {xs ys : List Tuple} {a b : Tuple}, (∀ t, HasTuple xs t → HasTuple ys t) →
      AlikeTuple a b → tupleLike.mem xs a = true → tupleLike.mem ys b = true := by
    intro xs ys a b h hab hmem
    obtain ⟨t, ht, hs⟩ := tupleLike.mem_iff.mp hmem
    obtain ⟨t', ht', hal⟩ := h t (HasTuple.of_mem ht)
    refine tupleLike.mem_iff.mpr ⟨t', ht', ?_⟩
    exact (sameTuple_eq hal hab.symm).trans hs
  rw [Bool.eq_iff_iff]
  exact ⟨himp (fun t => (h t).mp) hab, himp (fun t => (h t).mpr) hab.symm⟩

/-- A set keeps of each tuple put in one that is alike. -/
theorem hasTuple_into : HasTuple (tupleLike.into xs ys) tp ↔ HasTuple xs tp ∨ HasTuple ys tp := by
  constructor
  · rintro ⟨t, ht, hal⟩
    rcases tupleLike.of_mem_into ht with hx | hy
    · exact Or.inl ⟨t, hx, hal⟩
    · exact Or.inr ⟨t, hy, hal⟩
  · intro h
    have hk : ∀ (ys xs : List Tuple), HasTuple xs tp → HasTuple (tupleLike.into xs ys) tp := by
      intro ys
      induction ys with
      | nil => intro xs h; exact h
      | cons y ys ih =>
        intro xs h
        refine ih (tupleLike.conj xs y) ?_
        obtain ⟨t, ht, hal⟩ := h
        refine ⟨t, ?_, hal⟩
        unfold Likeness.conj
        split
        · exact ht
        · simp [ht]
    rcases h with h | ⟨t, ht, hal⟩
    · exact hk ys xs h
    · obtain ⟨pre, af, rfl⟩ := List.append_of_mem ht
      unfold Likeness.into
      rw [List.foldl_append, List.foldl_cons]
      refine hk af _ ?_
      unfold Likeness.conj
      split
      · rename_i hmem
        exact (HasTuple.of_contains hmem).congr hal
      · exact ⟨t, by simp, hal⟩

theorem Db.has_add {db : Db} {r o : String} :
    (db.add r ts).Has o tp ↔ db.Has o tp ∨ r = o ∧ HasTuple ts tp := by
  unfold Db.Has
  by_cases h : r = o
  · subst h
    unfold Db.add
    rw [Db.tuples_set, if_pos rfl, hasTuple_into]
    simp
  · rw [Db.tuples_add_of_ne db ts h]
    simp [h]

/-! ### Substitutions -/

/-- Both absent, or both present and alike. -/
def AlikeValue : Option Term → Option Term → Prop
  | none, none => True
  | some a, some b => Alike a b
  | _, _ => False

theorem AlikeValue.refl : ∀ a : Option Term, AlikeValue a a
  | none => True.intro
  | some a => Alike.refl a

/-- The substitutions bind the same names to alike values. -/
def AlikeSubst (σ τ : Substitution) : Prop := ∀ name, AlikeValue (σ.value name) (τ.value name)

theorem AlikeSubst.refl (σ : Substitution) : AlikeSubst σ σ := fun _ => AlikeValue.refl _

theorem AlikeSubst.symm (h : AlikeSubst σ τ) : AlikeSubst τ σ := by
  intro name
  have := h name
  cases hs : σ.value name <;> cases ht : τ.value name <;> rw [hs, ht] at this
  · exact True.intro
  · exact this.elim
  · exact this.elim
  · exact Alike.symm this

theorem AlikeSubst.trans {υ : Substitution} (h : AlikeSubst σ τ) (h' : AlikeSubst τ υ) :
    AlikeSubst σ υ := by
  intro name
  have h1 := h name
  have h2 := h' name
  cases hs : σ.value name <;> cases ht : τ.value name <;> cases hu : υ.value name <;>
    rw [hs, ht] at h1 <;> rw [ht, hu] at h2
  · exact True.intro
  · exact h2.elim
  · exact h1.elim
  · exact h1.elim
  · exact h1.elim
  · exact h1.elim
  · exact h2.elim
  · exact Alike.trans h1 h2

theorem Substitution.value_bind (σ : Substitution) (n : String) (v : Term) (other : String) :
    (σ.bind n v).value other = if n = other then some v else σ.value other := by
  unfold Substitution.bind Substitution.value
  rw [nameLike.get_cons]
  by_cases h : n = other <;> simp [nameLike, h]

theorem AlikeSubst.bind (h : AlikeSubst σ τ) (n : String) {a b : Term} (hab : Alike a b) :
    AlikeSubst (σ.bind n a) (τ.bind n b) := by
  intro o
  rw [Substitution.value_bind, Substitution.value_bind]
  by_cases hn : n = o
  · rw [if_pos hn, if_pos hn]
    exact hab
  · rw [if_neg hn, if_neg hn]
    exact h o

theorem AlikeSubst.termValue {σ τ : Substitution} (h : AlikeSubst σ τ) (t : QueryTerm) :
    AlikeValue (termValue t σ) (termValue t τ) := by
  unfold Query.termValue
  cases t.name with
  | none => exact AlikeValue.refl _
  | some n => exact h n

/-- Both fail, or both succeed with alike substitutions. -/
def AlikeMatch : Option Substitution → Option Substitution → Prop
  | none, none => True
  | some σ, some τ => AlikeSubst σ τ
  | _, _ => False

theorem unify_alike (h : AlikeSubst σ τ) (t : QueryTerm) {a b : Term} (hab : Alike a b) :
    AlikeMatch (unify t a σ) (unify t b τ) := by
  unfold unify
  cases t.name with
  | some n =>
    have hval := h n
    dsimp only
    cases hs : σ.value n <;> cases ht : τ.value n <;> rw [hs, ht] at hval
    · exact h.bind n hab
    · exact hval.elim
    · exact hval.elim
    · dsimp only
      rw [Alike.same_eq hval hab]
      split
      · exact h
      · exact True.intro
  | none =>
    cases t.value with
    | none => exact True.intro
    | some c =>
      dsimp only
      rw [Alike.same_eq (Alike.refl c) hab]
      split
      · exact h
      · exact True.intro

theorem unifyAll_alike {ars : List QueryTerm} {σ τ : Substitution} (h : AlikeSubst σ τ)
    {a b : Tuple} (hab : AlikeTuple a b) :
    AlikeMatch (unifyAll σ ars a) (unifyAll τ ars b) := by
  induction ars generalizing σ τ a b with
  | nil =>
    cases hab <;> exact h
  | cons ag ars ih =>
    cases hab with
    | nil => exact h
    | cons hh hr =>
      rename_i x y xs ys
      have hs := unify_alike h ag hh
      unfold unifyAll
      cases hx : unify ag x σ <;> cases hy : unify ag y τ <;> rw [hx, hy] at hs
      · exact True.intro
      · exact hs.elim
      · exact hs.elim
      · exact ih hs hr

/-! ### Numbers -/

/-- Identical or equal doubles. -/
def AlikeFloat (a b : Float64) : Prop := a = b ∨ a.same b = true

theorem alike_atom_float {a b : Float64} :
    Alike (.atom (.float a)) (.atom (.float b)) ↔ AlikeFloat a b := by
  simp [Alike, AlikeFloat, Term.same, AtomValue.same]

/-- A Term alike to an atom is that atom, or both are doubles. -/
theorem Alike.of_atom {v : AtomValue} {b : Term} (h : Alike (.atom v) b) :
    b = .atom v ∨ ∃ f g, v = .float f ∧ b = .atom (.float g) ∧ AlikeFloat f g := by
  rcases h with rfl | h
  · exact Or.inl rfl
  · cases b with
    | triple => simp [Term.same] at h
    | atom o =>
      cases v <;> cases o <;> simp_all [Term.same, AtomValue.same, AlikeFloat]

/-- What the evaluator relies on in the host's doubles: they print differently unless they
are the same, and arithmetic and order do not see the sign of a zero. -/
structure Doubles.Lawful (D : Doubles) : Prop where
  str_injective : Function.Injective D.str
  add : ∀ a a' b b', AlikeFloat a a' → AlikeFloat b b' → AlikeFloat (D.add a b) (D.add a' b')
  sub : ∀ a a' b b', AlikeFloat a a' → AlikeFloat b b' → AlikeFloat (D.sub a b) (D.sub a' b')
  mul : ∀ a a' b b', AlikeFloat a a' → AlikeFloat b b' → AlikeFloat (D.mul a b) (D.mul a' b')
  div : ∀ a a' b b', b.isZero = false → AlikeFloat a a' → AlikeFloat b b' →
    AlikeFloat (D.div a b) (D.div a' b')
  lt : ∀ a a' b b', AlikeFloat a a' → AlikeFloat b b' → D.lt a b = D.lt a' b'
  le : ∀ a a' b b', AlikeFloat a a' → AlikeFloat b b' → D.le a b = D.le a' b'

theorem AlikeFloat.refl (a : Float64) : AlikeFloat a a := Or.inl rfl

theorem AlikeFloat.isZero {a b : Float64} (h : AlikeFloat a b) : a.isZero = b.isZero := by
  rcases h with rfl | h
  · rfl
  · obtain ⟨-, -, hbi | ⟨ha, hb⟩⟩ := Float64.same_iff.mp h
    · unfold Float64.isZero
      rw [hbi]
    · rw [ha, hb]

/-- Both absent, or both present and alike. -/
def AlikeNumber : Option Float64 → Option Float64 → Prop
  | none, none => True
  | some a, some b => AlikeFloat a b
  | _, _ => False

theorem AlikeNumber.refl : ∀ a : Option Float64, AlikeNumber a a
  | none => True.intro
  | some a => AlikeFloat.refl a

section

variable {D : Doubles} {a b : Term}

theorem integerValue_alike (h : Alike a b) : integerValue D a = integerValue D b := by
  cases a with
  | atom v =>
    rcases h.of_atom with rfl | ⟨f, g, rfl, rfl, -⟩
    · rfl
    · rfl
  | triple t1 t2 t3 =>
    cases b with
    | triple => rfl
    | atom =>
      rcases h with h | h
      · simp at h
      · simp [Term.same] at h

theorem numericValue_alike (h : Alike a b) : AlikeNumber (numericValue D a) (numericValue D b) := by
  cases a with
  | atom v =>
    rcases h.of_atom with rfl | ⟨f, g, rfl, rfl, hfg⟩
    · exact AlikeNumber.refl _
    · exact hfg
  | triple t1 t2 t3 =>
    cases b with
    | triple => exact True.intro
    | atom =>
      rcases h with h | h
      · simp at h
      · simp [Term.same] at h

variable {a' b' : Term}

theorem comparisonValue_alike (hD : D.Lawful) (o : Keyword) (ha : Alike a a')
    (hb : Alike b b') : comparisonValue D o a b = comparisonValue D o a' b' := by
  unfold comparisonValue
  rw [Alike.same_eq ha hb]
  have hna := numericValue_alike (D := D) ha
  have hnb := numericValue_alike (D := D) hb
  cases h1 : numericValue D a <;> cases h2 : numericValue D a' <;> rw [h1, h2] at hna <;>
    cases h3 : numericValue D b <;> cases h4 : numericValue D b' <;> rw [h3, h4] at hnb <;>
    first | exact hna.elim | exact hnb.elim | rfl | skip
  dsimp only
  rw [hD.lt _ _ _ _ hna hnb, hD.le _ _ _ _ hna hnb, hD.lt _ _ _ _ hnb hna, hD.le _ _ _ _ hnb hna]

theorem doubleBuiltinValue_alike (hD : D.Lawful) (o : Keyword) {a a' b b' : Float64}
    (ha : AlikeFloat a a') (hb : AlikeFloat b b') (hz : o = divideOperator → b.isZero = false) :
    AlikeFloat (doubleBuiltinValue D o a b) (doubleBuiltinValue D o a' b') := by
  unfold doubleBuiltinValue
  by_cases h1 : o = divideOperator
  · rw [if_pos h1, if_pos h1]
    exact hD.div _ _ _ _ (hz h1) ha hb
  · rw [if_neg h1, if_neg h1]
    split
    · exact hD.add _ _ _ _ ha hb
    · split
      · exact hD.sub _ _ _ _ ha hb
      · exact hD.mul _ _ _ _ ha hb

/-- Alike results of arithmetic: the same stop, or both absent, or alike values. -/
def AlikeResult : Except Stop (Option Term) → Except Stop (Option Term) → Prop
  | .error stop, .error stop' => stop = stop'
  | .ok a, .ok b => AlikeValue a b
  | _, _ => False

theorem AlikeResult.refl : ∀ a : Except Stop (Option Term), AlikeResult a a
  | .error _ => rfl
  | .ok a => AlikeValue.refl a

theorem builtinValue_alike (hD : D.Lawful) (o : Keyword) (ha : Alike a a') (hb : Alike b b') :
    AlikeResult (builtinValue D o a b) (builtinValue D o a' b') := by
  have hna := numericValue_alike (D := D) ha
  have hnb := numericValue_alike (D := D) hb
  unfold builtinValue
  rw [integerValue_alike (D := D) ha, integerValue_alike (D := D) hb]
  dsimp only
  by_cases hmod : o = modOperator
  · rw [if_pos hmod, if_pos hmod]
    exact AlikeResult.refl _
  · rw [if_neg hmod, if_neg hmod]
    cases h1 : numericValue D a <;> cases h2 : numericValue D a' <;> rw [h1, h2] at hna
    · dsimp only
      exact AlikeResult.refl _
    · exact hna.elim
    · exact hna.elim
    · cases h3 : numericValue D b <;> cases h4 : numericValue D b' <;> rw [h3, h4] at hnb
      · dsimp only
        exact AlikeResult.refl _
      · exact hnb.elim
      · exact hnb.elim
      · rename_i f f' g g'
        dsimp only
        by_cases hdiv : o = divideOperator
        · rw [if_pos hdiv, if_pos hdiv, AlikeFloat.isZero hnb]
          by_cases hz : g'.isZero = true
          · rw [if_pos hz, if_pos hz]
            exact True.intro
          · rw [if_neg hz, if_neg hz]
            refine alike_atom_float.mpr (doubleBuiltinValue_alike hD o hna hnb fun _ => ?_)
            rw [AlikeFloat.isZero hnb]
            simpa using hz
        · rw [if_neg hdiv, if_neg hdiv]
          split
          · split
            · exact AlikeResult.refl _
            · exact alike_atom_float.mpr
                (doubleBuiltinValue_alike hD o hna hnb fun h => absurd h hdiv)
          · exact True.intro

end

end Beagle.Query
