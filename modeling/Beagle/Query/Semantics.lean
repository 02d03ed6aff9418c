/-
What rules mean.

A literal relates a substitution to the ones it lets through, given the facts that
positive literals read; a body does so literal by literal.  The facts a stratum
stands for are the least set that holds the given ones and every head of a rule
whose body is satisfied in the set.  Negation and the text relations read nothing
that a rule derives, so they are parameters here.
-/
import Beagle.Lib.SemiNaive
import Beagle.Query.Alike

namespace Beagle.Query

open Beagle.Lib Beagle.Store

/-- Tuples under relation names. -/
abbrev Facts := Set (String × Tuple)

/-- What literals read besides the facts: the rows of a text relation for a needle, and
whether a tuple is absent from a negated relation. -/
structure Reading where
  text : String → Option Term → Except QueryEvaluationError (List Tuple)
  absent : String → Tuple → Bool

/-- Neither tells alike values apart. -/
structure Reading.Lawful (R : Reading) : Prop where
  text_congr : ∀ relation needle needle', AlikeValue needle needle' →
    R.text relation needle = R.text relation needle'
  absent_congr : ∀ relation tuple tuple', AlikeTuple tuple tuple' →
    R.absent relation tuple = R.absent relation tuple'

/-- The tuple an argument list stands for, if every variable is bound. -/
def groundValue (subst : Substitution) : List QueryTerm → Option Tuple
  | [] => some []
  | argument :: rest =>
    match termValue argument subst, groundValue subst rest with
    | some value, some values => some (value :: values)
    | _, _ => none

/-- The tuple matches the arguments and gives the substitution. -/
def Matches (arguments : List QueryTerm) (tuple : Tuple) (σ σ' : Substitution) : Prop :=
  arguments.length = tuple.length ∧ unifyAll σ arguments tuple = some σ'

section

variable (D : Doubles) (R : Reading)

/-- A literal lets `σ` through as `σ'`. -/
inductive LiteralStep (I : Facts) (literal : Literal) (σ : Substitution) : Substitution → Prop
  | relation {tuple : Tuple} {σ' : Substitution} (hkind : literal.kind = .relation)
      (hneg : literal.negated = false) (hplain : literal.relation ∉ textRelations)
      (hfact : (literal.relation, tuple) ∈ I) (hmatch : Matches literal.arguments tuple σ σ') :
      LiteralStep I literal σ σ'
  | text {needle : QueryTerm} {rows : List Tuple} {tuple : Tuple} {σ' : Substitution}
      (hkind : literal.kind = .relation) (hneg : literal.negated = false)
      (htext : literal.relation ∈ textRelations) (hneedle : literal.arguments[2]? = some needle)
      (hrows : R.text literal.relation (termValue needle σ) = .ok rows) (hrow : HasTuple rows tuple)
      (hmatch : Matches literal.arguments tuple σ σ') : LiteralStep I literal σ σ'
  | negated {tuple : Tuple} (hkind : literal.kind = .relation) (hneg : literal.negated = true)
      (hground : groundValue σ literal.arguments = some tuple)
      (habsent : R.absent literal.relation tuple = true) : LiteralStep I literal σ σ
  | comparison {first second : QueryTerm} {left right : Term} (hkind : literal.kind = .comparison)
      (hfirst : literal.arguments[0]? = some first) (hsecond : literal.arguments[1]? = some second)
      (hleft : termValue first σ = some left) (hright : termValue second σ = some right)
      (hholds : comparisonValue D literal.operator left right = true) : LiteralStep I literal σ σ
  | builtin {first second : QueryTerm} {left right value : Term} (hkind : literal.kind = .builtin)
      (hfirst : literal.arguments[0]? = some first) (hsecond : literal.arguments[1]? = some second)
      (hleft : termValue first σ = some left) (hright : termValue second σ = some right)
      (hvalue : builtinValue D literal.operator left right = .ok (some value)) :
      LiteralStep I literal σ (σ.bind literal.binding value)

/-- A literal stops the evaluation. -/
inductive LiteralStops (literal : Literal) (σ : Substitution) : Stop → Prop
  | text {needle : QueryTerm} {error : QueryEvaluationError} (hkind : literal.kind = .relation)
      (hneg : literal.negated = false) (htext : literal.relation ∈ textRelations)
      (hneedle : literal.arguments[2]? = some needle)
      (herror : R.text literal.relation (termValue needle σ) = .error error) :
      LiteralStops literal σ (.error error)
  | builtin {first second : QueryTerm} {left right : Term} {stop : Stop}
      (hkind : literal.kind = .builtin) (hfirst : literal.arguments[0]? = some first)
      (hsecond : literal.arguments[1]? = some second) (hleft : termValue first σ = some left)
      (hright : termValue second σ = some right)
      (hstop : builtinValue D literal.operator left right = .error stop) :
      LiteralStops literal σ stop

/-- A body from a position on lets `σ` through as `σ'`; each position reads its own facts. -/
inductive BodyStep (facts : Nat → Facts) : Nat → List Literal → Substitution → Substitution → Prop
  | nil {position : Nat} (σ : Substitution) : BodyStep facts position [] σ σ
  | cons {position : Nat} {literal : Literal} {rest : List Literal} {σ σ₁ σ₂ : Substitution}
      (hhead : LiteralStep D R (facts position) literal σ σ₁)
      (hrest : BodyStep facts (position + 1) rest σ₁ σ₂) :
      BodyStep facts position (literal :: rest) σ σ₂

/-- A literal of the body stops the evaluation of a substitution that reaches it. -/
inductive BodyStops (facts : Nat → Facts) :
    Nat → List Literal → Substitution → Stop → Prop
  | here {position : Nat} {literal : Literal} {rest : List Literal} {σ : Substitution} {stop : Stop}
      (h : LiteralStops D R literal σ stop) : BodyStops facts position (literal :: rest) σ stop
  | later {position : Nat} {literal : Literal} {rest : List Literal} {σ σ₁ : Substitution}
      {stop : Stop} (hhead : LiteralStep D R (facts position) literal σ σ₁)
      (hrest : BodyStops facts (position + 1) rest σ₁ stop) :
      BodyStops facts position (literal :: rest) σ stop

/-- The head of the rule under a substitution that satisfies its body, each position of
which reads its own facts. -/
def DerivesAt (facts : Nat → Facts) (rule : Rule) (tuple : Tuple) : Prop :=
  ∃ σ head, BodyStep D R facts 0 rule.body [] σ ∧
    groundValue σ rule.headArguments = some head ∧ AlikeTuple head tuple

/-- The rule derives the tuple from the facts. -/
def Derives (I : Facts) (rule : Rule) (tuple : Tuple) : Prop := DerivesAt D R (fun _ => I) rule tuple

/-- The evaluation of the rule over these facts stops. -/
def Refused (I : Facts) (rules : List Rule) (stop : Stop) : Prop :=
  ∃ rule ∈ rules, BodyStops D R (fun _ => I) 0 rule.body [] stop

end

section

variable {D : Doubles} {R : Reading} {σ σ' : Substitution} {fs' : Nat → Facts} {p : Nat}
  {I J : Facts} {rule : Rule} {tuple : Tuple}

theorem LiteralStep.mono (hIJ : I ⊆ J) {l : Literal} (h : LiteralStep D R I l σ σ') :
    LiteralStep D R J l σ σ' := by
  cases h with
  | relation hk hneg hpl hf hmat =>
    exact .relation hk hneg hpl (hIJ hf) hmat
  | text hk hneg ht hn hro hrow hmat =>
    exact .text hk hneg ht hn hro hrow hmat
  | negated hk hneg hgr habs => exact .negated hk hneg hgr habs
  | comparison hk hfst hsnd hl hr hhd =>
    exact .comparison hk hfst hsnd hl hr hhd
  | builtin hk hfst hsnd hl hr hval =>
    exact .builtin hk hfst hsnd hl hr hval

/-- A body reads the positions from its first on. -/
theorem BodyStep.mono_from {fs : Nat → Facts} {b : List Literal}
    (h : BodyStep D R fs p b σ σ') (hle : ∀ q, p ≤ q → fs q ⊆ fs' q) :
    BodyStep D R fs' p b σ σ' := by
  induction h with
  | nil σ => exact .nil σ
  | cons hh _ ih =>
    exact .cons (hh.mono (hle _ (Nat.le_refl _))) (ih fun q hq => hle q (by omega))

theorem BodyStep.mono {fs : Nat → Facts} (hle : ∀ p, fs p ⊆ fs' p)
    {b : List Literal} (h : BodyStep D R fs p b σ σ') :
    BodyStep D R fs' p b σ σ' :=
  h.mono_from fun q _ => hle q

theorem BodyStops.mono {fs : Nat → Facts} (hle : ∀ p, fs p ⊆ fs' p)
    {b : List Literal} {stop : Stop} (h : BodyStops D R fs p b σ stop) :
    BodyStops D R fs' p b σ stop := by
  induction h with
  | here h => exact .here h
  | later hh _ ih => exact .later (hh.mono (hle _)) ih

theorem DerivesAt.mono {fs : Nat → Facts} (hle : ∀ p, fs p ⊆ fs' p)
    (h : DerivesAt D R fs rule tuple) : DerivesAt D R fs' rule tuple := by
  obtain ⟨σ, h', hb, hgr, hal⟩ := h
  exact ⟨σ, h', hb.mono hle, hgr, hal⟩

theorem Derives.mono (hIJ : I ⊆ J) (h : Derives D R I rule tuple) :
    Derives D R J rule tuple := DerivesAt.mono (fun _ => hIJ) h

end

/-! ### The least model -/

section

variable (D : Doubles) (R : Reading) (rules : List Rule)

/-- The heads of the rules over a set of facts. -/
def consequences : Facts →o Facts where
  toFun I := {fact | ∃ rule ∈ rules, rule.headRelation = fact.1 ∧ Derives D R I rule fact.2}
  monotone' := by
    intro I J hIJ fact
    rintro ⟨rule, hrule, hhead, hderives⟩
    exact ⟨rule, hrule, hhead, hderives.mono hIJ⟩

/-- The least facts with the given ones that are closed under the rules. -/
def leastModel (base : Facts) : Facts := SemiNaive.least (consequences D R rules) base

end

/-! ### What a stratum reads -/

section

variable (candidates : CandidateSources) (rows : String → List Tuple) (db : Db)

/-- The tuples a relation shows: those that its registered source is for, or those the
database has. -/
def shown (relation : String) : List Tuple :=
  match candidates.find relation with
  | some _ => rows relation
  | none => db.tuples relation

def visible : Facts := {fact | HasTuple (shown candidates rows db fact.1) fact.2}

/-- The registered text searches, and absence from what a relation shows. -/
def reading : Reading where
  text relation needle :=
    match candidates.find relation with
    | some (.virtual _ source) => source.rows relation true needle
    | _ => .error (missingCandidateSource relation)
  absent relation tuple := !tupleLike.mem (shown candidates rows db relation) tuple

end

/-! ### Alike substitutions -/

variable {σ τ : Substitution} {ars : List QueryTerm} {tuple : Tuple}

theorem groundValue_alike (h : AlikeSubst σ τ) (hg : groundValue σ ars = some tuple) :
    ∃ tuple', groundValue τ ars = some tuple' ∧ AlikeTuple tuple tuple' := by
  induction ars generalizing tuple with
  | nil =>
    cases hg
    exact ⟨[], rfl, .nil⟩
  | cons a r ih =>
    have hval := h.termValue a
    unfold groundValue at hg
    cases hs : termValue a σ with
    | none =>
      rw [hs] at hg
      simp at hg
    | some v =>
      cases hr : groundValue σ r with
      | none =>
        rw [hs, hr] at hg
        simp at hg
      | some vs =>
        rw [hs, hr] at hg
        cases hg
        obtain ⟨vs', hv', hal⟩ := ih hr
        cases ht : termValue a τ with
        | none =>
          rw [hs, ht] at hval
          exact hval.elim
        | some v' =>
          rw [hs, ht] at hval
          refine ⟨v' :: vs', ?_, .cons hval hal⟩
          unfold groundValue
          rw [ht, hv']

theorem length_groundValue : ∀ {ars : List QueryTerm} {tuple : Tuple},
    groundValue σ ars = some tuple → tuple.length = ars.length := by
  intro ars
  induction ars with
  | nil =>
    intro tuple h
    cases h
    rfl
  | cons argument rest ih =>
    intro tuple h
    unfold groundValue at h
    split at h
    · rename_i hrest
      cases h
      rw [List.length_cons, List.length_cons, ih hrest]
    · simp at h

theorem Matches.alike {t' : Tuple} {σ' : Substitution} (h : Matches ars tuple σ σ')
    (htup : AlikeTuple tuple t') (hσ : AlikeSubst σ τ) :
    ∃ τ', Matches ars t' τ τ' ∧ AlikeSubst σ' τ' := by
  have huni := @unifyAll_alike ars _ _ hσ _ _ htup
  rw [h.2] at huni
  cases hτ : unifyAll τ ars t' with
  | none =>
    rw [hτ] at huni
    exact huni.elim
  | some τ' =>
    rw [hτ] at huni
    exact ⟨τ', ⟨h.1.trans htup.length_eq, hτ⟩, huni⟩

theorem AlikeValue.of_some {a : Term} {b : Option Term} (h : AlikeValue (some a) b) :
    ∃ b', b = some b' ∧ Alike a b' := by
  cases b with
  | none => exact h.elim
  | some b' => exact ⟨b', rfl, h⟩

section

variable {D : Doubles} {R : Reading} (hD : D.Lawful) (hR : R.Lawful) {τ : Substitution}

include hD hR

theorem LiteralStep.alike {I : Facts} {l : Literal} {σ σ' : Substitution}
    (h : LiteralStep D R I l σ σ') (hσ : AlikeSubst σ τ) :
    ∃ τ', LiteralStep D R I l τ τ' ∧ AlikeSubst σ' τ' := by
  cases h with
  | relation hk hneg hpl hf hmat =>
    obtain ⟨τ', hmat', hal⟩ := hmat.alike (AlikeTuple.refl _) hσ
    exact ⟨τ', .relation hk hneg hpl hf hmat', hal⟩
  | text hk hneg ht hn hro hrow hmat =>
    obtain ⟨τ', hmat', hal⟩ := hmat.alike (AlikeTuple.refl _) hσ
    refine ⟨τ', .text hk hneg ht hn ?_ hrow hmat', hal⟩
    rw [← hR.text_congr _ _ _ (hσ.termValue _)]
    exact hro
  | negated hk hneg hgr habs =>
    obtain ⟨t', hgr', hal⟩ := groundValue_alike hσ hgr
    refine ⟨τ, .negated hk hneg hgr' ?_, hσ⟩
    rw [← hR.absent_congr _ _ _ hal]
    exact habs
  | comparison hk hfst hsnd hle hri hhd =>
    obtain ⟨l', hl', hl⟩ := AlikeValue.of_some (hle ▸ hσ.termValue _)
    obtain ⟨r', hr', hr⟩ := AlikeValue.of_some (hri ▸ hσ.termValue _)
    refine ⟨τ, .comparison hk hfst hsnd hl' hr' ?_, hσ⟩
    rw [← comparisonValue_alike hD _ hl hr]
    exact hhd
  | builtin hk hfst hsnd hle hri hval =>
    obtain ⟨l', hl', hl⟩ := AlikeValue.of_some (hle ▸ hσ.termValue _)
    obtain ⟨r', hr', hr⟩ := AlikeValue.of_some (hri ▸ hσ.termValue _)
    have hres := builtinValue_alike hD l.operator hl hr
    rw [hval] at hres
    cases hval' : builtinValue D l.operator l' r' with
    | error s =>
      rw [hval'] at hres
      exact hres.elim
    | ok v' =>
      rw [hval'] at hres
      obtain ⟨v'', rfl, hal⟩ := AlikeValue.of_some hres
      exact ⟨_, .builtin hk hfst hsnd hl' hr' hval', hσ.bind _ hal⟩

theorem BodyStep.alike {fs : Nat → Facts} {p : Nat} {b : List Literal}
    {σ σ' : Substitution} (h : BodyStep D R fs p b σ σ') (hσ : AlikeSubst σ τ) :
    ∃ τ', BodyStep D R fs p b τ τ' ∧ AlikeSubst σ' τ' := by
  induction h generalizing τ with
  | nil σ => exact ⟨τ, .nil τ, hσ⟩
  | cons hh _ ih =>
    obtain ⟨τ₁, hh', h1⟩ := hh.alike hD hR hσ
    obtain ⟨τ₂, hr', h2⟩ := ih h1
    exact ⟨τ₂, .cons hh' hr', h2⟩

end

end Beagle.Query
