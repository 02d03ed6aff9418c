/-
A literal read through the sources of a database.

Sources are built over the tuples of a database and grow with what is added to it.  A literal read
through them finds the substitutions that reading the tuples one by one finds, and a negated one
fails where its tuple is in the relation.  One literal is answered differently: a probe with no
argument names no handles, and a negated literal takes that for an empty relation.
-/
import Beagle.Proofs.LeastModels

namespace Beagle.Query

open Beagle.Lib Beagle.Store

/-! ### Sources of a database -/

/-- The sources were built over a database and grew with it. -/
inductive BuiltFrom (showFloat : Float64 → String) (seed : CandidateSources)
    (names : List String) : Db → CandidateSources → Prop
  | build (db : Db) : BuiltFrom showFloat seed names db (buildCandidateSources showFloat db names seed)
  | addDelta {db : Db} {sources : CandidateSources} (h : BuiltFrom showFloat seed names db sources)
      (delta db' : Db)
      (hdb : ∀ relation t, db'.Has relation t ↔ db.Has relation t ∨ delta.Has relation t) :
      BuiltFrom showFloat seed names db' (addDeltaSources showFloat sources delta names)

/-- The source of a relation holds its tuples, if the relation is one that is read. -/
structure Mirrors (names : List String) (db : Db) (sources : CandidateSources)
    (relation : String) : Prop where
  read : relation ∈ names → ∃ source tuples, sources.find relation = some (.candidate source) ∧
    Filed relation source tuples ∧ ∀ t, HasTuple tuples t ↔ db.Has relation t
  unread : relation ∉ names → sources.find relation = none

section

variable {sf : Float64 → String} (hst : Function.Injective sf) {relation : String}

theorem find_addDeltaSource_of_ne (d : Db) (sos : CandidateSources) {n : String}
    (h : n ≠ relation) :
    (addDeltaSource sf d sos n).find relation = sos.find relation := by
  unfold addDeltaSource
  split
  · rfl
  · rw [CandidateSources.find_set, if_neg h]

variable {d : Db} {s : CandidateSources}

theorem find_addDelta_of_notMem {ns : List String} (h : relation ∉ ns)
    {sos : CandidateSources} :
    (addDeltaSources sf sos d ns).find relation = sos.find relation := by
  unfold addDeltaSources
  induction ns generalizing sos with
  | nil => rfl
  | cons n ns ih =>
    rw [List.mem_cons, not_or] at h
    rw [List.foldl_cons, ih h.2, find_addDeltaSource_of_ne d sos (Ne.symm h.1)]

include hst

/-- The new tuples of a relation are filed behind those it had. -/
theorem Filed.addDeltaSource (d : Db) {sos : CandidateSources} {relation : String}
    {source : CandidateSource} {ts : List Tuple}
    (hsrc : sos.find relation = some (.candidate source))
    (hf : Filed relation source ts) :
    ∃ s' ts', (addDeltaSource sf d sos relation).find relation = some (.candidate s') ∧
        Filed relation s' ts' ∧ ∀ t, HasTuple ts' t ↔ HasTuple ts t ∨ d.Has relation t := by
  unfold Query.addDeltaSource
  by_cases hemp : (d.tuples relation).isEmpty = true
  · rw [if_pos hemp]
    refine ⟨source, ts, hsrc, hf, fun t => ?_⟩
    simp [Db.Has, HasTuple, List.isEmpty_iff.mp hemp]
  · have hb : sos.base relation = source := by
      unfold CandidateSources.base
      rw [hsrc]
    rw [if_neg hemp, CandidateSources.find_set, if_pos rfl, hb]
    refine ⟨_, _, rfl, hf.addRows, fun t => ?_⟩
    have hord : HasTuple (orderRowVector sf (d.tuples relation)) t ↔ d.Has relation t := by
      unfold Db.Has HasTuple
      simp only [mem_orderRowVector hst]
    rw [hasTuple_append, hord]

/-- A relation that is read gets the new tuples, however often it is named. -/
theorem Filed.addDeltaSources (d : Db) {relation : String} :
    ∀ (ns : List String) {sos : CandidateSources} {s : CandidateSource}
      {ts : List Tuple}, sos.find relation = some (.candidate s) → Filed relation s ts → ∃ s' ts',
          (addDeltaSources sf sos d ns).find relation =
              some (.candidate s') ∧ Filed relation s' ts' ∧
            ∀ t, HasTuple ts' t ↔ HasTuple ts t ∨ relation ∈ ns ∧ d.Has relation t := by
  intro ns
  unfold Query.addDeltaSources
  induction ns with
  | nil =>
    intro sos s ts hsrc hf
    exact ⟨s, ts, hsrc, hf, by simp⟩
  | cons name ns ih =>
    intro sos s ts hsrc hf
    rw [List.foldl_cons]
    by_cases h : name = relation
    · subst h
      obtain ⟨a, rs, hadd, hr, hhas⟩ :=
        Filed.addDeltaSource hst d hsrc hf
      obtain ⟨s', ts', hsrc', hf', hhas'⟩ := ih hadd hr
      refine ⟨s', ts', hsrc', hf', fun t => ?_⟩
      rw [hhas' t, hhas t]
      simp only [List.mem_cons, true_or, true_and]
      tauto
    · have hk : (Query.addDeltaSource sf d sos name).find relation =
          some (.candidate s) := (find_addDeltaSource_of_ne d sos h).trans hsrc
      obtain ⟨s', ts', hsrc', hf', hhas'⟩ := ih hk hf
      refine ⟨s', ts', hsrc', hf', fun t => ?_⟩
      rw [hhas' t]
      have hne : relation ≠ name := fun heq => h heq.symm
      simp [hne]

theorem mirrors_build {ns : List String} (hs : s.find relation = none) (db : Db) :
    Mirrors ns db (buildCandidateSources sf db ns s) relation where
  read hmem := by
    rw [find_build, hs]
    refine ⟨_, _, if_pos hmem, (filed_empty relation).addRows, fun t => ?_⟩
    unfold Db.Has HasTuple
    simp only [List.nil_append, mem_orderRowVector hst]
  unread hmem := by
    rw [find_build, hs]
    exact if_neg hmem

theorem Mirrors.addDelta {ns : List String} {db db' : Db} {sos : CandidateSources}
    (h : Mirrors ns db sos relation)
    (hdb : ∀ t, db'.Has relation t ↔ db.Has relation t ∨ d.Has relation t) :
    Mirrors ns db' (addDeltaSources sf sos d ns) relation where
  read hmem := by
    obtain ⟨s, ts, hsrc, hf, ht⟩ := h.read hmem
    obtain ⟨s', ts', hsrc', hf', hhas⟩ :=
      Filed.addDeltaSources hst d ns hsrc hf
    refine ⟨s', ts', hsrc', hf', fun t => ?_⟩
    rw [hhas t, hdb t, ht t]
    simp [hmem]
  unread hmem := (find_addDelta_of_notMem hmem).trans (h.unread hmem)

/-- Sources built from a database mirror every relation that had none before. -/
theorem BuiltFrom.mirrors {ns : List String} {db : Db} {sos : CandidateSources}
    (h : BuiltFrom sf s ns db sos) (hs : s.find relation = none) :
    Mirrors ns db sos relation := by
  induction h with
  | build db => exact mirrors_build hst hs db
  | addDelta _ d db' hdb ih => exact ih.addDelta hst (hdb relation)

end

/-! ### Answers -/

/-- Each substitution of one list is alike to one of the other. -/
def SameSubstitutions (found others : List Substitution) : Prop :=
  (∀ σ ∈ found, ∃ τ ∈ others, AlikeSubst σ τ) ∧ ∀ τ ∈ others, ∃ σ ∈ found, AlikeSubst σ τ

/-- A check of the budget stopped the evaluation. -/
def Interrupted (control : Option QueryControl) (stop : Stop) : Prop :=
  ∃ c, control = some c ∧ ∃ steps error, checkError c steps = some error ∧ stop = .error error

/-- Two readings of a literal agree: they find the same substitutions or stop alike, unless the
budget cut one of them short. -/
def Agree (control : Option QueryControl) :
    Except Stop (List Substitution × Nat) → Except Stop (List Substitution × Nat) → Prop
  | .ok (found, _), .ok (others, _) => SameSubstitutions found others
  | .ok _, .error stop => Interrupted control stop
  | .error stop, .ok _ => Interrupted control stop
  | .error stop, .error other =>
    stop = other ∨ Interrupted control stop ∨ Interrupted control other

theorem SameSubstitutions.refl (found : List Substitution) : SameSubstitutions found found :=
  ⟨fun σ hσ => ⟨σ, hσ, AlikeSubst.refl σ⟩, fun σ hσ => ⟨σ, hσ, AlikeSubst.refl σ⟩⟩

theorem not_sameSubstitutions_nil {σ : Substitution} : ¬SameSubstitutions [] [σ] := by
  intro h
  obtain ⟨_, hmem, _⟩ := h.2 σ (by simp)
  simp at hmem

theorem Represents.same {P : Substitution → Prop} {fd others : List Substitution}
    (h : Represents P fd) (h' : Represents P others) : SameSubstitutions fd others := by
  refine ⟨fun σ hσ => h'.2 σ (h.1 σ hσ), fun τ hτ => ?_⟩
  obtain ⟨σ, hσ, hal⟩ := h.2 τ (h'.1 τ hτ)
  exact ⟨σ, hσ, hal.symm⟩

section

variable {co : Option QueryControl}

theorem allowsChecks_interrupted : AllowsChecks co (Interrupted co) := by
  intro c hc ss e herr
  exact ⟨c, hc, ss, e, herr, rfl⟩

variable {m m' : Eval (List Substitution)}

/-- Evaluations that find the same kind of substitutions agree. -/
theorem agree_of_ends {P : Substitution → Prop} (h : Ends (Interrupted co) (Represents P) m)
    (h' : Ends (Interrupted co) (Represents P) m') (ss ss' : Nat) :
    Agree co (m ss) (m' ss') := by
  cases hm : m ss with
  | error s =>
    have hs := h.of_error hm
    cases m' ss' with
    | error o => exact Or.inr (Or.inl hs)
    | ok _ => exact hs
  | ok fd =>
    cases hm' : m' ss' with
    | error o => exact h'.of_error hm'
    | ok os => exact (h.of_ok hm).same (h'.of_ok hm')

theorem agree_of_pure {fd : List Substitution} (h : m = pure fd) (ss ss' : Nat) :
    Agree co (m ss) (m ss') := by
  rw [h]
  exact SameSubstitutions.refl fd

theorem agree_of_halt {s : Stop} (h : m = halt s) (h' : m' = halt s) (ss ss' : Nat) :
    Agree co (m ss) (m' ss') := by
  rw [h, h']
  exact Or.inl rfl

/-! ### A literal read both ways -/

variable {ns : List String} {db : Db} {sos : CandidateSources} {l : Literal} {σ : Substitution}

theorem ground_halts {ars : List QueryTerm} (h : groundValue σ ars = none) :
    ground σ ars = halt .unboundVariable := by
  induction ars with
  | nil => simp [groundValue] at h
  | cons a r ih =>
    unfold ground
    unfold groundValue at h
    cases hval : termValue a σ with
    | none => rfl
    | some v =>
      rw [hval] at h
      cases hr : groundValue σ r with
      | none =>
        dsimp only
        rw [ih hr]
        rfl
      | some vs =>
        rw [hr] at h
        simp at h

variable {tuple : Tuple}

theorem relationResults_negated (hneg : l.negated = true)
    (hg : groundValue σ l.arguments = some tuple) :
    relationResults co db sos l σ = pure (if db.contains l.relation tuple then [] else [σ]) := by
  unfold relationResults
  rw [if_pos hneg, ground_eq hg, pure_bind]

variable (h : Mirrors ns db sos l.relation)
include h

/-- A negated literal with an argument fails where its tuple is in the relation. -/
theorem Mirrors.negated (hneg : l.negated = true) (hg : groundValue σ l.arguments = some tuple)
    (ha : l.arguments ≠ [] ∨ l.relation ∉ ns) :
    relationResultsIndexed co db sos l σ =
      pure (if db.contains l.relation tuple then [] else [σ]) := by
  unfold relationResultsIndexed
  rw [if_pos hneg]
  by_cases hmem : l.relation ∈ ns
  · obtain ⟨s, ts, hsrc, hf, ht⟩ := h.read hmem
    have hne : l.arguments ≠ [] := ha.resolve_right fun hnot => hnot hmem
    have hp := hf.presents ht l.arguments.length
    rw [hsrc]
    dsimp only
    rw [hp.negative l.arguments σ tuple rfl hne hg, pure_bind]
    rfl
  · rw [h.unread hmem]
    dsimp only
    rw [ground_eq hg, pure_bind]

/-- The handles of a probe without arguments are none, and it finds its relation empty. -/
theorem Mirrors.negated_nil (hneg : l.negated = true) (hnil : l.arguments = [])
    (hmem : l.relation ∈ ns) (σ : Substitution) :
    relationResultsIndexed co db sos l σ = pure [σ] := by
  obtain ⟨s, ts, hsrc, hf, -⟩ := h.read hmem
  unfold relationResultsIndexed sourceContains sourceHandles
  rw [if_pos hneg, hsrc, hnil]
  dsimp only
  rw [hf.rotation, hf.occurrence]
  simp [ground, positionalHandles, collect]

theorem relationResultsIndexed_unbound (hneg : l.negated = true)
    (hg : groundValue σ l.arguments = none) :
    relationResultsIndexed co db sos l σ = halt .unboundVariable := by
  unfold relationResultsIndexed
  rw [if_pos hneg]
  by_cases hmem : l.relation ∈ ns
  · obtain ⟨s, ts, hsrc, hf, -⟩ := h.read hmem
    rw [hsrc]
    dsimp only
    unfold sourceContains
    rw [hf.rotation]
    dsimp only
    rw [ground_halts hg]
    rfl
  · rw [h.unread hmem]
    dsimp only
    rw [ground_halts hg]
    rfl

/-- A positive literal finds what the tuples of its relation match. -/
theorem Mirrors.positive (hneg : l.negated = false) (σ : Substitution) (ss ss' : Nat) :
    Agree co (relationResults co db sos l σ ss) (relationResultsIndexed co db sos l σ ss') := by
  have hnot : ¬l.negated = true := by simp [hneg]
  have hpl := @unifyTuples_ends _ co allowsChecks_interrupted l.arguments (db.tuples l.relation) σ
  by_cases hmem : l.relation ∈ ns
  · obtain ⟨s, ts, hsrc, hfi, htu⟩ := h.read hmem
    have hpr := hfi.presents htu l.arguments.length
    obtain ⟨c, hs, hc, hidx⟩ :=
      hpr.positive co l.arguments σ rfl
    have hr : relationResults co db sos l σ =
        unifyTuples co l.arguments (db.tuples l.relation) σ := by
      unfold relationResults
      rw [if_neg hnot, hsrc]
    have hp : relationResultsIndexed co db sos l σ = unifyTuples co l.arguments c σ := by
      unfold relationResultsIndexed
      rw [if_neg hnot, hsrc]
      exact hidx
    rw [hr, hp]
    refine agree_of_ends
      (P := fun σ' => ∃ tuple, db.Has l.relation tuple ∧ Matches l.arguments tuple σ σ')
      ?_ ?_ ss ss'
    · refine hpl.mono fun fd hf => ?_
      exact represents_of_hasTuple hf (fun _ ht => HasTuple.of_mem ht) fun _ ht _ => ht
    · refine (unifyTuples_ends allowsChecks_interrupted _ c σ).mono fun fd hf => ?_
      refine represents_of_hasTuple hf hs ?_
      rintro tuple ⟨t, ht, hal⟩ hfit
      exact (hc t ht (hfit.alike hal.symm)).congr hal
  · have hsa : relationResultsIndexed co db sos l σ = relationResults co db sos l σ := by
      unfold relationResults relationResultsIndexed
      rw [if_neg hnot, if_neg hnot, h.unread hmem]
    rw [hsa]
    unfold relationResults
    rw [if_neg hnot, h.unread hmem]
    dsimp only
    by_cases hte : l.relation ∈ textRelations
    · rw [if_pos hte]
      exact agree_of_halt rfl rfl ss ss'
    · rw [if_neg hte]
      exact agree_of_ends hpl hpl ss ss'

end

/--
**A literal read through the sources of a database is the literal read from it,** and a negated
one fails exactly where its tuple is in the relation, unless it has no arguments and its relation
holds the empty tuple.
-/
theorem indexed_literal_iff {showFloat : Float64 → String} (hstr : Function.Injective showFloat)
    {seed : CandidateSources} {names : List String} {db : Db} {sources : CandidateSources}
    (hbuilt : BuiltFrom showFloat seed names db sources) {literal : Literal}
    (hseed : seed.find literal.relation = none) (control : Option QueryControl)
    (σ : Substitution) :
    ((∀ steps steps', Agree control (relationResults control db sources literal σ steps)
        (relationResultsIndexed control db sources literal σ steps')) ∧
      (literal.negated = true → ∀ tuple, groundValue σ literal.arguments = some tuple → ∀ steps,
        relationResultsIndexed control db sources literal σ steps =
          .ok (if db.contains literal.relation tuple then [] else [σ], steps))) ↔
    ¬(literal.negated = true ∧ literal.arguments = [] ∧ literal.relation ∈ names ∧
      db.contains literal.relation [] = true) := by
  have hm := hbuilt.mirrors hstr hseed
  constructor
  · rintro ⟨-, hidx⟩ ⟨hneg, hnil, hmem, hc⟩
    have hrun := hidx hneg [] (by rw [hnil]; rfl) 0
    rw [hm.negated_nil hneg hnil hmem σ, hc] at hrun
    injection hrun with hpair
    injection hpair with hf
    simp at hf
  · intro hnot
    cases hneg : literal.negated with
    | false => exact ⟨hm.positive hneg σ, fun h => by simp at h⟩
    | true =>
      have hr : ∀ tuple, groundValue σ literal.arguments = some tuple →
          relationResultsIndexed control db sources literal σ =
            pure (if db.contains literal.relation tuple then [] else [σ]) := by
        intro tuple hg
        by_cases hnil : literal.arguments = [] ∧ literal.relation ∈ names
        · -- the empty tuple is absent, and absent is what the empty probe finds
          have habs : db.contains literal.relation [] = false := by
            cases hc : db.contains literal.relation [] with
            | false => rfl
            | true => exact absurd ⟨hneg, hnil.1, hnil.2, hc⟩ hnot
          rw [hnil.1] at hg
          cases hg
          rw [hm.negated_nil hneg hnil.1 hnil.2 σ, habs]
          rfl
        · exact hm.negated hneg hg (not_and_or.mp hnil)
      refine ⟨fun steps steps' => ?_, fun _ tuple hg steps => by rw [hr tuple hg]; rfl⟩
      cases hg : groundValue σ literal.arguments with
      | some tuple =>
        rw [hr tuple hg, relationResults_negated hneg hg]
        exact agree_of_pure rfl steps steps'
      | none =>
        refine agree_of_halt ?_ (relationResultsIndexed_unbound hm hneg hg) steps steps'
        unfold relationResults
        rw [if_pos hneg, ground_halts hg]
        rfl

/-- A relation of one place with one tuple. -/
def loneDb : Db := [("p", [[number 1]])]

theorem indexed_literal_lone :
    relationResultsIndexed none loneDb (buildCandidateSources bareDoubles.str loneDb ["p"] [])
      (negatedLiteral "p" [.var "x"]) [("x", number 1)] 0 = .ok ([], 0) :=
  ((@indexed_literal_iff _ bareDoubles_lawful.str_injective [] ["p"] loneDb _
    (BuiltFrom.build loneDb) (negatedLiteral "p" [.var "x"]) rfl none [("x", number 1)]).mpr
      fun h => absurd h.2.1 (by decide)).2 rfl [number 1] rfl 0

/-- A relation of no places that holds. -/
def propositionDb : Db := [("p", [[]])]

theorem indexed_negation_misses : propositionDb.contains "p" [] = true ∧
      relationResults none propositionDb
        (buildCandidateSources bareDoubles.str propositionDb ["p"] []) (negatedLiteral "p" []) [] 0 =
          .ok ([], 0) ∧
      relationResultsIndexed none propositionDb
        (buildCandidateSources bareDoubles.str propositionDb ["p"] []) (negatedLiteral "p" []) [] 0 =
          .ok ([[]], 0) ∧ ¬SameSubstitutions [] [[]] :=
  ⟨rfl, rfl, rfl, not_sameSubstitutions_nil⟩

end Beagle.Query
