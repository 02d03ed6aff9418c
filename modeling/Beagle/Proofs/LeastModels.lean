/-
Semi-naive evaluation of a validated stratum computes its least model.

Validation supplies what the loop needs: rules that can be evaluated, strata that do
not negate themselves, and no builtin in a recursive rule, so that relations have a
rank and finitely many tuples.  The same finiteness brings the naive iteration to the
least model.
-/
import Beagle.Proofs.Accepted
import Beagle.Proofs.Finite
import Beagle.Proofs.Fixpoint

namespace Beagle.Query

open Beagle.Lib Beagle.Store List

/-! ### Ranks -/

section

variable {nv : String → Option Term → Bool} {mr : Int} {p : QueryPlan}

/-- The rank of a relation: how many relations without recursion it rests on. -/
noncomputable def planRank (plan : QueryPlan) (relation : String) : Nat :=
  Cycles.rank (Depends plan.rules) (derivedRelations plan.rules) relation

variable {rule : Rule} {literal : Literal}

theorem depends_of_literal (hr : rule ∈ p.rules) (hlit : literal ∈ rule.body)
    (hpos : literal.positive = true) : Depends p.rules rule.headRelation literal.relation :=
  ⟨rule, hr, rfl, mem_map.mpr ⟨literal, mem_filter.mpr ⟨hlit, hpos⟩, rfl⟩⟩

theorem planRank_rises (hr : rule ∈ p.rules)
    (hcyc : ¬Cycles.OnCycle (Depends p.rules) rule.headRelation)
    (hlit : literal ∈ rule.body) (hpos : literal.positive = true) :
    planRank p literal.relation < planRank p rule.headRelation :=
  Cycles.rank_lt (depends_of_literal hr hlit hpos) (mem_map.mpr ⟨rule, hr, rfl⟩) hcyc

theorem ranked_of_accepted (h : validatePlan nv mr p = []) {i : Nat}
    {rus : List Rule} (hi : p.strata[i]? = some rus) : Ranked rus (planRank p) where
  le _ hrule _ hlit hpos :=
    Cycles.rank_le (depends_of_literal (mem_rules hi hrule) hlit hpos)
  lt _ hrule hbuilt _ hlit hpos :=
    planRank_rises (mem_rules hi hrule)
      (recursiveBuiltin_of_accepted h (mem_rules hi hrule) hbuilt) hlit hpos
  pos rule hrule hbuilt :=
    Cycles.rank_pos (mem_map.mpr ⟨rule, mem_rules hi hrule, rfl⟩)
      (recursiveBuiltin_of_accepted h (mem_rules hi hrule) hbuilt)

end

/-! ### Finitely many tuples -/

theorem reading_finite {ar : String → Option Nat} {cs : CandidateSources}
    {rws : String → List Tuple} (h : Registry ar cs rws) (db : Db) :
    ∃ corpus, (reading cs rws db).Finite corpus := by
  obtain ⟨corpus, hcorpus⟩ := h.text_values
  refine ⟨corpus, fun r nd fd hf row hrow v hv => ?_⟩
  unfold reading at hf
  dsimp only at hf
  cases hfi : cs.find r with
  | none =>
    rw [hfi] at hf
    simp at hf
  | some va =>
    rw [hfi] at hf
    cases va with
    | candidate src => simp at hf
    | virtual n src =>
      obtain ⟨rfl, -⟩ := h.virtual _ _ _ hfi
      obtain ⟨s, hs, hall⟩ := hcorpus _ src nd fd hfi hf
      exact (hall row hrow v hv).imp_right fun hc => ⟨s, hs, hc⟩

section

variable {nv : String → Option Term → Bool} {mr : Int} {p : QueryPlan}
  (haccepted : validatePlan nv mr p = []) {i : Nat} {rus : List Rule}
  (hi : p.strata[i]? = some rus) {D : Doubles} (hD : D.Lawful) {R : Reading}
  {corpus : List Term} (hcorpus : R.Finite corpus) (cs : CandidateSources)
  (rws : String → List Tuple) (db : Db)

include haccepted hi hD hcorpus in
/-- Each derived relation of a validated stratum has finitely many tuples. -/
theorem finite_model {r : String} (hrel : r ∈ ruleHeadRelations rus) :
    ∃ fd : List Tuple, ∀ t, (r, t) ∈ modelOf D R cs rws rus db → HasTuple fd t := by
  refine finite_leastModel hD hcorpus (ranked_of_accepted haccepted hi)
    (ruleHeadRelations rus ++ positiveRelationNames rus) (shown cs rws db) ?_
    (fun _ _ _ h => h) (mem_append_left _ hrel)
  intro rule hr
  refine ⟨mem_append_left _ ?_, fun literal hlit hpos => mem_append_right _ ?_⟩
  · exact mem_ruleHeadRelations.mpr (mem_map.mpr ⟨rule, hr, rfl⟩)
  · exact mem_positiveRelationNames.mpr ⟨rule, hr, literal, hlit, hpos, rfl⟩

include haccepted hi hD hcorpus in
theorem finite_facts : ∃ J : List (String × Tuple), ∀ r ∈ ruleHeadRelations rus, ∀ t,
    (r, t) ∈ modelOf D R cs rws rus db → ∃ u, (r, u) ∈ J ∧ AlikeTuple u t := by
  have hall : ∀ ns : List String, (∀ n ∈ ns, n ∈ ruleHeadRelations rus) →
      ∃ J : List (String × Tuple), ∀ r ∈ ns, ∀ t, (r, t) ∈ modelOf D R cs rws rus db →
          ∃ u, (r, u) ∈ J ∧ AlikeTuple u t := by
    intro ns
    induction ns with
    | nil => exact fun _ => ⟨[], by simp⟩
    | cons n ns ih =>
      intro hin
      obtain ⟨J, hJ⟩ := ih fun o ho => hin o (by simp [ho])
      obtain ⟨fd, hf⟩ := finite_model haccepted hi hD hcorpus cs rws db (hin n (by simp))
      refine ⟨fd.map (n, ·) ++ J, fun r hrel t ht => ?_⟩
      rcases mem_cons.mp hrel with rfl | hmem
      · obtain ⟨u, hu, hal⟩ := hf t ht
        exact ⟨u, mem_append_left _ (mem_map.mpr ⟨u, hu, rfl⟩), hal⟩
      · obtain ⟨u, hu, hal⟩ := hJ r hmem t ht
        exact ⟨u, mem_append_right _ hu, hal⟩
  exact hall _ fun _ h => h

theorem Alike.hasNan_eq {a b : Term} (h : Alike a b) : a.hasNan = b.hasNan := by
  rcases h with rfl | h
  · rfl
  · have hs := Term.same_trans h (Term.same_symm h)
    have hs' := Term.same_trans (Term.same_symm h) h
    rw [Term.same_self] at hs hs'
    simp only [Bool.not_eq_true'] at hs hs'
    rw [hs, hs']

theorem AlikeTuple.hasNan_eq {a b : Tuple} (h : AlikeTuple a b) : tupleHasNan a = tupleHasNan b := by
  induction h with
  | nil => rfl
  | cons hh _ ih =>
    unfold tupleHasNan at ih ⊢
    rw [any_cons, any_cons, hh.hasNan_eq, ih]

include haccepted hi hD hcorpus in
/-- Without NaNs in the recursive relations the loop is bounded. -/
theorem bounded_of_accepted (hnan : ∀ r ∈ recursiveRelations p.rules, ∀ t,
      (r, t) ∈ modelOf D R cs rws rus db → tupleHasNan t = false) :
    ∃ J, Bounded (recursiveRelations p.rules) rus (modelOf D R cs rws rus db) J
      (planRank p) (derivedRelations p.rules).length := by
  obtain ⟨J, hJ⟩ := finite_facts haccepted hi hD hcorpus cs rws db
  refine ⟨J.filter fun g => !tupleHasNan g.2, ?_, ?_, ?_, fun _ => Cycles.rank_le_length⟩
  · intro g hg
    simpa using (mem_filter.mp hg).2
  · intro r hh hrec t ht
    obtain ⟨u, hu, hal⟩ := hJ r hh t ht
    refine ⟨u, mem_filter.mpr ⟨hu, ?_⟩, hal⟩
    simp [hal.hasNan_eq, hnan r hrec t ht]
  · intro rule hr hnot literal hlit hpos
    refine planRank_rises (mem_rules hi hr) (fun hcyc => hnot ?_) hlit hpos
    exact mem_recursiveRelations (mem_map.mpr ⟨rule, mem_rules hi hr, rfl⟩) hcyc

include haccepted hi hD hcorpus in
/-- **Without NaNs in the recursive relations the fixpoint ends.** -/
theorem fixpoint_enough {a : Stop → Prop} {control : Option QueryControl}
    (hc : AllowsChecks control a)
    (hans : Answered D R (planArity p) cs rws rus db)
    (href : ∀ s, Refused D R (modelOf D R cs rws rus db) rus s → a s)
    (hnan : ∀ r ∈ recursiveRelations p.rules, ∀ t,
      (r, t) ∈ modelOf D R cs rws rus db → tupleHasNan t = false) :
    ∃ e, ∀ k, e ≤ k → Ends a (fun res => match res.error with
        | none => visible cs rws res.db = modelOf D R cs rws rus db
        | some er => a (.error er))
      (fixpointWithCandidates D control k db rus cs) := by
  obtain ⟨J, hJ⟩ := bounded_of_accepted haccepted hi hD hcorpus cs rws db hnan
  refine ⟨J.length * ((derivedRelations p.rules).length + 3) +
    ((derivedRelations p.rules).length + 2) + 1, fun k hf => ?_⟩
  exact fixpoint_ends hD hc hans href (fun _ => hJ) fun _ => by omega

end

/-! ### The naive iteration -/

section

variable (D : Doubles) (control : Option QueryControl) (sources : CandidateSources)

/-- Every rule once over the database, by the plain evaluation. -/
def deriveAll (db : Db) : List Rule → Db → Eval Db
  | [], current => pure current
  | rule :: rest, current => do
      let derived ← deriveRule D control db sources rule
      deriveAll db rest (current.add rule.headRelation derived)

/-- Every rule again and again. -/
def naiveRounds (rules : List Rule) : Nat → Db → Eval Db
  | 0, db => pure db
  | n + 1, db => do
      let current ← naiveRounds rules n db
      deriveAll D control sources current rules current

end

section

variable {D : Doubles} (hD : D.Lawful) {a : Stop → Prop} {control : Option QueryControl}
  (hc : AllowsChecks control a) {ar : String → Option Nat}
  {cs : CandidateSources} {rws : String → List Tuple} {rus : List Rule}
  (hre : Registry ar cs rws) (hstratum : Stratum ar cs rus)
  {db₀ : Db}

/-- The database holds the facts, outside the text relations, which are never stored. -/
def Stores (db : Db) (I : Facts) : Prop :=
  ∀ relation, relation ∉ textRelations → ∀ t, db.Has relation t ↔ (relation, t) ∈ I

/-- The facts differ from the given ones only where the rules derive. -/
def Extends (candidates : CandidateSources) (rows : String → List Tuple) (rules : List Rule)
    (db₀ : Db) (I : Facts) : Prop :=
  ∀ relation, relation ∉ ruleHeadRelations rules → ∀ t,
    (relation, t) ∈ I ↔ (relation, t) ∈ visible candidates rows db₀

variable {I : Facts}

include hD hc hre hstratum in
theorem deriveRule_ends {db : Db} (hst : Stores db I)
    (hext : Extends cs rws rus db₀ I) {rule : Rule} (hr : rule ∈ rus)
    (hsto : ∀ sp, BodyStops D (reading cs rws db₀) (fun _ => I) 0 rule.body [] sp → a sp) :
    Ends a (Lists (Derives D (reading cs rws db₀) I rule)) (deriveRule D control db cs rule) := by
  have hd := derive_ends hD (reading_lawful hre db₀) hc (fun _ => I)
    (fun _ => relationResults control db cs) (hstratum.safe rule hr)
    (fun k literal hget hk b σ hs hb hstop => by
      have hlit := mem_of_getElem? hget
      have hlen : ar literal.relation = some literal.arguments.length := by
        unfold LiteralSafe at hs
        rw [hk] at hs
        exact hs.1
      refine relationResults_reads hc hstratum.textArity hk hlen
        (hst literal.relation) (fun ht => ?_) (fun hpl n s hf => ?_) hs hb
        (fun hneg => ?_) hstop
      · obtain ⟨s, hf, hsc⟩ := hstratum.text rule hr literal hlit hk ht
        refine ⟨s, hf, fun nd => ?_⟩
        unfold reading
        dsimp only
        rw [hf]
        exact (hsc nd).symm
      · obtain ⟨rfl, ht⟩ := hre.virtual _ _ _ hf
        exact hpl ht
      · obtain ⟨hne, hlo⟩ := hstratum.negated rule hr literal hlit hk hneg
        exact ⟨hne, shown cs rws db₀ literal.relation,
          fun t => (hext _ hlo t).symm, fun t _ => rfl⟩) hsto
  have heq : deriveRule D control db cs rule =
      ((bodyResultsFrom D control (fun _ => relationResults control db cs) 0 rule.body
        [[]] >>= groundHeads rule.headArguments) >>= fun ts =>
          pure (tupleLike.into [] ts)) := by
    rw [bind_assoc]
    rfl
  rw [heq]
  exact Ends.bind hd fun ts htu => Ends.pure htu.into

include hD hc hre hstratum in
theorem deriveAll_ends {db : Db} (hs : Stores db I)
    (hext : Extends cs rws rus db₀ I) (hst : ∀ rule ∈ rus, ∀ s,
      BodyStops D (reading cs rws db₀) (fun _ => I) 0 rule.body [] s → a s) :
    ∀ (rs : List Rule) (c : Db), (∀ rule ∈ rs, rule ∈ rus) → Ends a
        (fun res => ∀ r t, res.Has r t ↔ c.Has r t ∨ ∃ rule ∈ rs, rule.headRelation = r ∧
            Derives D (reading cs rws db₀) I rule t)
        (deriveAll D control cs db rs c) := by
  intro rs
  induction rs with
  | nil => intro c _; exact Ends.pure fun r t => by simp
  | cons rule rs ih =>
    intro c hin
    have hr := hin rule (by simp)
    refine Ends.bind (deriveRule_ends hD hc hre hstratum hs hext hr (hst rule hr)) fun d hder => ?_
    refine Ends.mono (ih _ fun o ho => hin o (by simp [ho])) ?_
    intro res hres r t
    rw [hres r t, Db.has_add, hder t]
    simp only [mem_cons, exists_eq_or_imp]
    rw [or_assoc]

/-- The facts of the naive iteration. -/
def naiveFacts (D : Doubles) (candidates : CandidateSources) (rows : String → List Tuple)
    (rules : List Rule) (db₀ : Db) (n : Nat) : Facts :=
  SemiNaive.naive (consequences D (reading candidates rows db₀) rules)
    (visible candidates rows db₀) n

theorem naiveFacts_extends (n : Nat) : Extends cs rws rus db₀ (naiveFacts D cs rws rus db₀ n) := by
  intro r hnot t
  refine ⟨fun h => ?_, fun h => SemiNaive.naive_mono (Nat.zero_le n) h⟩
  induction n with
  | zero => exact h
  | succ n ih =>
    rcases h with hold | ⟨rule, hr, hh, -⟩
    · exact ih hold
    · refine absurd ?_ hnot
      exact mem_ruleHeadRelations.mpr (mem_map.mpr ⟨rule, hr, hh⟩)

include hD hc hre hstratum in
/-- The naive iteration stores the facts of the naive iteration. -/
theorem naiveRounds_ends (href : ∀ s, Refused D (reading cs rws db₀)
      (model D cs rws rus db₀) rus s → a s) {f : Db}
    (hf : Stores f (visible cs rws db₀)) (n : Nat) :
    Ends a (fun res => Stores res (naiveFacts D cs rws rus db₀ n))
      (naiveRounds D control cs rus n f) := by
  induction n with
  | zero => exact Ends.pure hf
  | succ n ih =>
    refine Ends.bind ih fun c hcur => ?_
    refine Ends.mono (deriveAll_ends hD hc hre hstratum hcur
      (naiveFacts_extends n) (fun rule hr s h =>
        sub_model (SemiNaive.naive_subset_least n) href hr h) rus c
      fun rule hr => hr) ?_
    intro res hres r hpl t
    rw [hres r t, hcur r hpl t]
    rfl

theorem naiveFacts_alike {r : String} {t u : Tuple} (hal : AlikeTuple t u) (n : Nat)
    (h : (r, t) ∈ naiveFacts D cs rws rus db₀ n) :
    (r, u) ∈ naiveFacts D cs rws rus db₀ n := by
  induction n with
  | zero => exact HasTuple.congr h hal
  | succ n ih =>
    rcases h with hold | ⟨rule, hr, hh, σ, h', hb, hgr, hl⟩
    · exact Or.inl (ih hold)
    · exact Or.inr ⟨rule, hr, hh, σ, h', hb, hgr, hl.trans hal⟩

end

/-! ### The claim of the loop -/

/-- A control that stops nothing. -/
def Unlimited (control : Option QueryControl) : Prop :=
  ∀ c, control = some c → ∀ steps, checkError c steps = none

theorem Unlimited.allowsChecks {control : Option QueryControl} (h : Unlimited control)
    (a : Stop → Prop) : AllowsChecks control a := by
  intro c hc ss e herr
  rw [h c hc ss] at herr
  simp at herr

/-- The least model differs from what is shown only where the rules derive. -/
theorem model_extends {D : Doubles} {cs : CandidateSources} {rws : String → List Tuple}
    {rus : List Rule} {db₀ : Db} :
    Extends cs rws rus db₀ (model D cs rws rus db₀) := by
  intro r hnot t
  refine ⟨fun h => ?_, fun h => SemiNaive.base_subset_least h⟩
  let I : Facts := {fact | fact.1 ∈ ruleHeadRelations rus ∨ fact ∈ visible cs rws db₀}
  have hcl : consequences D (reading cs rws db₀) rus I ⊆ I := by
    rintro fact ⟨rule, hr, hh, -⟩
    exact Or.inl (mem_ruleHeadRelations.mpr (mem_map.mpr ⟨rule, hr, hh⟩))
  exact (SemiNaive.least_subset (I := I) (fun _ => Or.inr) hcl h).resolve_left hnot

/--
**Semi-naive evaluation of a validated stratum computes its least model.**  What it ends with
without an error is the least model.  If no literal over the least model is stopped by its
arithmetic or its text search, the naive iteration reaches the least model too, and if besides
no NaN occurs in a recursive relation the evaluation ends.
-/
theorem semi_naive_computes_least_model {needleValid : String → Option Term → Bool}
    {maxResults : Int} {plan : QueryPlan} (haccepted : validatePlan needleValid maxResults plan = [])
    {i : Nat} {rules : List Rule} (hi : plan.strata[i]? = some rules) {D : Doubles} (hD : D.Lawful)
    {candidates : CandidateSources} {rows : String → List Tuple}
    (hregistry : Registry (planArity plan) candidates rows) (hprovided : Provided candidates rules)
    {control : Option QueryControl} (hcontrol : Unlimited control) (db : Db) :
    (∀ fuel steps final steps', fixpointWithCandidates D control fuel db rules candidates steps =
      .ok (⟨final, none⟩, steps') →
        visible candidates rows final = model D candidates rows rules db) ∧
    ((∀ stop, ¬Refused D (reading candidates rows db) (model D candidates rows rules db) rules
        stop) →
      (∀ full, Stores full (visible candidates rows db) → ∃ n, ∀ steps, ∃ final steps',
        naiveRounds D control candidates rules n full steps = .ok (final, steps') ∧
          Stores final (model D candidates rows rules db)) ∧
      ((∀ relation ∈ recursiveRelations plan.rules, ∀ t,
          (relation, t) ∈ model D candidates rows rules db → tupleHasNan t = false) →
        ∃ enough, ∀ fuel, enough ≤ fuel → ∀ steps, ∃ final steps',
          fixpointWithCandidates D control fuel db rules candidates steps =
            .ok (⟨final, none⟩, steps'))) := by
  have hstratum := stratum_of_accepted haccepted hi hprovided
  have hans := @answered_of_registry D _ _ _ _ hregistry hstratum db
  obtain ⟨corpus, hcorpus⟩ := reading_finite hregistry db
  refine ⟨?_, fun href => ⟨?_, fun hnan => ?_⟩⟩
  · intro fuel steps final steps' hrun
    have he := @fixpoint_ends D hD _ (fun _ => True) control (hcontrol.allowsChecks _) _ _ _ _ db
      hans (fun _ _ => True.intro) [] [] (fun _ => 0) 0
      (fun hnot => absurd True.intro hnot) fuel fun hnot => absurd True.intro hnot
    exact he.of_ok hrun
  · intro full hful
    obtain ⟨J, hJ⟩ := finite_facts haccepted hi hD hcorpus candidates rows db
    have hc : ∀ f ∈ model D candidates rows rules db, f ∉ visible candidates rows db →
        ∃ g ∈ J, g.1 = f.1 ∧ AlikeTuple g.2 f.2 := by
      intro f hf hnew
      have hh : f.1 ∈ ruleHeadRelations rules := by
        by_contra hnot
        exact hnew ((model_extends f.1 hnot f.2).mp hf)
      obtain ⟨u, hu, hal⟩ := hJ f.1 hh f.2 hf
      exact ⟨(f.1, u), hu, rfl, hal⟩
    have hl : ∀ n (f g : String × Tuple), g.1 = f.1 ∧ AlikeTuple g.2 f.2 →
        (g ∈ naiveFacts D candidates rows rules db n ↔
          f ∈ naiveFacts D candidates rows rules db n) := by
      rintro n ⟨nm, t⟩ ⟨_, u⟩ ⟨rfl, hal⟩
      exact ⟨naiveFacts_alike hal n, naiveFacts_alike hal.symm n⟩
    obtain ⟨n, hn⟩ := SemiNaive.naive_reaches hc hl
    refine ⟨n, fun steps => ?_⟩
    have he := (naiveRounds_ends hD (hcontrol.allowsChecks (fun _ => False)) hregistry hstratum
      (fun stop h => href stop h) hful n).total steps
    unfold naiveFacts at he
    rw [hn] at he
    exact he
  · obtain ⟨enough, hen⟩ := fixpoint_enough haccepted hi hD hcorpus candidates rows db
      (hcontrol.allowsChecks fun _ => False) hans href hnan
    refine ⟨enough, fun fuel hfu steps => ?_⟩
    obtain ⟨⟨final, e⟩, steps', hrun, hres⟩ := (hen fuel hfu).total steps
    cases e with
    | none => exact ⟨final, steps', hrun⟩
    | some e => exact hres.elim

/-! ### Strata over stored facts -/

theorem registry_nil (ar : String → Option Nat) (rws : String → List Tuple) :
    Registry ar [] rws where
  base _ _ h := by simp [CandidateSources.find, Likeness.get] at h
  candidate _ _ _ h := by simp [CandidateSources.find, Likeness.get] at h
  virtual _ _ _ h := by simp [CandidateSources.find, Likeness.get] at h
  text_congr _ _ h := by simp [CandidateSources.find, Likeness.get] at h
  text_values := ⟨[], fun _ _ _ _ h => by simp [CandidateSources.find, Likeness.get] at h⟩

/-- Only builtins and text relations stop a body. -/
theorem BodyStops.cause {D : Doubles} {R : Reading} {fs : Nat → Facts} {p : Nat}
    {b : List Literal} {σ : Substitution} {s : Stop}
    (h : BodyStops D R fs p b σ s) :
    ∃ literal ∈ b, literal.kind = .builtin ∨ literal.relation ∈ textRelations := by
  induction h with
  | @here p literal rest σ s hlit =>
    refine ⟨literal, by simp, ?_⟩
    cases hlit with
    | text _ _ ht => exact Or.inr ht
    | builtin hk => exact Or.inl hk
  | later _ _ ih =>
    obtain ⟨literal, hmem, hc⟩ := ih
    exact ⟨literal, by simp [hmem], hc⟩

/-- No builtin, no text relation and no negated literal. -/
def PlainRules (rules : List Rule) : Prop :=
  ∀ rule ∈ rules, ∀ literal ∈ rule.body,
    literal.kind ≠ .builtin ∧ literal.relation ∉ textRelations ∧ literal.negated = false

instance (rules : List Rule) : Decidable (PlainRules rules) := by
  unfold PlainRules
  infer_instance

theorem PlainRules.not_refused {rus : List Rule} (h : PlainRules rus) {D : Doubles}
    {R : Reading} {I : Facts} (stop : Stop) : ¬Refused D R I rus stop := by
  rintro ⟨rule, hr, hs⟩
  obtain ⟨literal, hmem, hk | htext⟩ := hs.cause
  · exact (h rule hr literal hmem).1 hk
  · exact (h rule hr literal hmem).2.1 htext

theorem PlainRules.provided {rus : List Rule} (h : PlainRules rus)
    (cs : CandidateSources) : Provided cs rus where
  text rule hrule literal hlit _ htext := absurd htext (h rule hrule literal hlit).2.1
  negated rule hrule literal hlit _ hneg := by
    rw [(h rule hrule literal hlit).2.2] at hneg
    simp at hneg

/-- A host whose doubles are never computed with, but told apart when they are written. -/
def bareDoubles : Doubles := { blankDoubles with str := fun value => toString value.bits.toNat }

theorem bareDoubles_lawful : bareDoubles.Lawful where
  str_injective a b h := by
    have hb : a.bits = b.bits :=
      BitVec.eq_of_toNat_eq (Digits.toString_nat_injective h)
    cases a
    cases b
    cases hb
    rfl
  add _ _ _ _ ha _ := ha
  sub _ _ _ _ ha _ := ha
  mul _ _ _ _ ha _ := ha
  div _ _ _ _ _ ha _ := ha
  lt _ _ _ _ _ _ := rfl
  le _ _ _ _ _ _ := rfl

/-- `reach` is the transitive closure of the edges, with two literals that read itself. -/
def reachRules : List Rule :=
  [⟨"reach", [.var "x", .var "y"], [relationLiteral tripleRelation
      [.var "x", .constant (.atom (.keyword ⟨"e"⟩)), .var "y"]]⟩,
    ⟨"reach", [.var "x", .var "z"], [relationLiteral "reach" [.var "x", .var "y"],
      relationLiteral "reach" [.var "y", .var "z"]]⟩]

def reachPlan : QueryPlan := queryPlan (relationFind "reach") [reachRules]

def number (n : Int) : Term := .atom (.int (Int64.ofInt n))

/-- Two edges in a row. -/
def edgeDb : Db :=
  [(tripleRelation, [[number 1, .atom (.keyword ⟨"e"⟩), number 2],
    [number 2, .atom (.keyword ⟨"e"⟩), number 3]])]

/-- The pairs that are reached. -/
def reachPairs : List Tuple := [[number 1, number 2], [number 2, number 3], [number 1, number 3]]

theorem reach_least_model : ((∃ enough, ∀ fuel, enough ≤ fuel → ∀ steps, ∃ final steps',
        fixpointWithCandidates bareDoubles none fuel edgeDb reachRules [] steps =
          .ok (⟨final, none⟩, steps')) ∧
      ∃ n, ∀ steps, ∃ final steps',
        naiveRounds bareDoubles none [] reachRules n edgeDb steps = .ok (final, steps') ∧
          Stores final (model bareDoubles [] (fun _ => []) reachRules edgeDb)) ∧
    visible [] (fun _ => []) (edgeDb ++ [("reach", reachPairs)]) =
      model bareDoubles [] (fun _ => []) reachRules edgeDb := by
  have hpl : PlainRules reachRules := by decide
  have haccepted : validatePlan (fun _ _ => true) 100000 reachPlan = [] := by decide
  have hun : Unlimited none := fun _ hc => absurd hc (by simp)
  have hma := semi_naive_computes_least_model haccepted (i := 0) rfl bareDoubles_lawful
    (registry_nil _ fun _ => []) (hpl.provided []) hun edgeDb
  have hm := hma.1 9 0 (edgeDb ++ [("reach", reachPairs)]) 0 (by decide)
  have hr := hma.2 hpl.not_refused
  refine ⟨⟨hr.2 fun r hrel t ht => ?_, hr.1 edgeDb fun _ _ _ => Iff.rfl⟩, hm⟩
  rw [← hm] at ht
  obtain ⟨u, hu, hal⟩ := ht
  rw [← hal.hasNan_eq]
  have hn : r = "reach" := by
    have : recursiveRelations reachPlan.rules = ["reach", "reach"] := by decide
    rw [this] at hrel
    simpa using hrel
  subst hn
  have hall : ∀ u ∈ reachPairs, tupleHasNan u = false := by decide
  exact hall u hu

/-! ### Strata that are no least model -/

def nanTerm : Term := .atom (.float .nan)

/-- `p` is read back into itself. -/
def loopRules : List Rule :=
  [⟨"p", [.var "x"], [relationLiteral tripleRelation [.var "x", .var "y", .var "z"]]⟩,
    ⟨"p", [.var "x"], [relationLiteral "p" [.var "x"]]⟩]

def nanDb : Db := [(tripleRelation, [[nanTerm, number 1, number 2]])]

theorem contains_nan (db : Db) (r : String) : db.contains r [nanTerm] = false := by
  unfold Db.contains
  refine any_eq_false.mpr fun t _ hs => ?_
  have hb := sameTuple_symm _ _ hs
  cases t with
  | nil => simp [sameTuple] at hb
  | cons v rs =>
    have : nanTerm.same v = false := Term.same_of_hasNan (by decide)
    simp [sameTuple, this] at hb

section

/-- No rows, where no source is registered. -/
def noRows : String → List Tuple := fun _ => []

variable {ar : String → Option Nat} (hstratum : Stratum ar [] loopRules)
include hstratum

/-- A round with a new NaN finds it again. -/
theorem loop_rounds_endless : ∀ (fuel : Nat) (round : Round),
    Keeps bareDoubles (reading [] noRows nanDb) [] noRows loopRules nanDb round → ("p", [nanTerm]) ∈ fresh round.delta →
      Ends (fun stop => stop = .outOfFuel) (fun _ => False)
        (roundsFrom bareDoubles none loopRules fuel round) := by
  have hpl : PlainRules loopRules := by decide
  intro fuel
  induction fuel with
  | zero => intro round _ _; exact Ends.halt rfl
  | succ fuel ih =>
    intro round hround hfresh
    unfold roundsFrom
    cases hemp : deltaEmpty round.delta (deltaRelationNames loopRules) with
    | true =>
      have hnil := all_eq_true.mp hemp "p" (by decide)
      obtain ⟨t, ht, -⟩ := hfresh
      rw [List.isEmpty_iff.mp hnil] at ht
      simp at ht
    | false =>
      rw [if_neg (by simp)]
      refine orKeep_ends ?_ fun error herr => absurd herr (by simp)
      refine Ends.bind (nextRound_ends bareDoubles_lawful (allowsChecks_none _)
        (answered_of_registry (registry_nil ar noRows) hstratum nanDb) (fun stop h => absurd h (hpl.not_refused stop))
        hround) fun next hnext => ih next hnext.1 ?_
      refine hnext.2.2.2 ("p", [nanTerm]) ?_ (contains_nan _ _)
      refine ⟨_, mem_cons_of_mem _ (mem_singleton.mpr rfl), rfl, 0,
        mem_deltaRelationPositions.mpr ⟨_, rfl, rfl, by decide⟩, [("x", nanTerm)], [nanTerm], ?_,
        rfl, AlikeTuple.refl _⟩
      exact .cons (.relation rfl rfl (by decide) hfresh ⟨rfl, rfl⟩) (.nil _)

theorem loop_endless (fuel : Nat) : Ends (fun stop => stop = .outOfFuel) (fun _ => False)
      (fixpointWithCandidates bareDoubles none fuel nanDb loopRules []) := by
  have hpl : PlainRules loopRules := by decide
  have hseed := Ends.and (seedFrom_ends bareDoubles_lawful
    (allowsChecks_none fun stop => stop = .outOfFuel)
    (answered_of_registry (registry_nil ar noRows) hstratum nanDb) (fun stop h => absurd h (hpl.not_refused stop)) loopRules nanDb fun _ h => h)
    (seedFrom_sameOutside bareDoubles none nanDb (initialSources bareDoubles nanDb loopRules [])
      (ruleHeadRelations loopRules) loopRules nanDb fun rule hrule =>
        mem_ruleHeadRelations.mpr (mem_map.mpr ⟨rule, hrule, rfl⟩))
  refine Ends.bind hseed fun seeded hseeded => ?_
  obtain ⟨hres, hfrm⟩ := hseeded
  cases herr : seeded.error with
  | some error =>
    rw [herr] at hres
    simp at hres
  | none =>
    rw [herr] at hres
    refine loop_rounds_endless hstratum fuel _ (firstRound_keeps bareDoubles_lawful
        (answered_of_registry (registry_nil ar noRows) hstratum nanDb) hres hfrm) ?_
    refine has_dbNewOnly_of_new (by decide) ?_ (contains_nan _ _)
    refine (hres "p" [nanTerm]).mpr (Or.inr ⟨_, mem_cons_self, rfl,
      [("z", number 2), ("y", number 1), ("x", nanTerm)], [nanTerm], ?_, rfl, AlikeTuple.refl _⟩)
    have hfact : (tripleRelation, [nanTerm, number 1, number 2]) ∈ visible [] noRows nanDb :=
      HasTuple.of_mem (by decide)
    exact .cons (.relation rfl rfl (by decide) hfact ⟨rfl, rfl⟩) (.nil _)

end

def loopPlan : QueryPlan := queryPlan (relationFind "p") [loopRules]

/-- Twice a number past half of the machine range. -/
def overflowPlan : QueryPlan :=
  queryPlan (relationFind "q")
    [[⟨"q", [.var "s"], [relationLiteral tripleRelation [.var "x", .var "y", .var "n"],
      builtinLiteral addOperator [.var "n", .var "n"] "s"]⟩]]

def largeDb : Db := [(tripleRelation, [[number 1, number 1, number (2 ^ 62)]])]

/-- `b` has no argument; the second stratum reads it, and derives `q` in its absence. -/
def flagRules : List Rule :=
  [⟨"c", [.var "x"], [relationLiteral "b" [], relationLiteral tripleRelation
      [.var "x", .var "y", .var "z"]]⟩,
    ⟨"q", [.var "x"], [relationLiteral tripleRelation [.var "x", .var "y", .var "z"],
      negatedLiteral "b" []]⟩]

def flagPlan : QueryPlan :=
  queryPlan (relationFind "q")
    [[⟨"b", [], [relationLiteral tripleRelation [.var "x", .var "y", .var "z"]]⟩], flagRules]

/-- One fact, and the flag. -/
def flagDb : Db := [(tripleRelation, [[number 1, number 2, number 3]]), ("b", [[]])]

/--
**Three accepted strata without a least model at the end.**  A NaN in a relation that is read
back never stops being new; a sum past the machine range stops the evaluation; and a negated
relation without arguments is always found absent.
-/
theorem strata_without_least_model :
    (validatePlan (fun _ _ => true) 100000 loopPlan = [] ∧ ∀ fuel steps result,
      fixpointWithCandidates bareDoubles none fuel nanDb loopRules [] steps ≠ .ok result) ∧
    (validatePlan (fun _ _ => true) 100000 overflowPlan = [] ∧ ∀ fuel,
      fixpointWithCandidates bareDoubles none fuel largeDb overflowPlan.rules [] 0 =
        .error .overflow) ∧
    validatePlan (fun _ _ => true) 100000 flagPlan = [] ∧ ∃ final,
      fixpointWithCandidates bareDoubles none 9 flagDb flagRules [] 0 = .ok (⟨final, none⟩, 0) ∧
        visible [] noRows final ≠ model bareDoubles [] noRows flagRules flagDb := by
  have hl : validatePlan (fun _ _ => true) 100000 loopPlan = [] := by decide
  have hstratum : Stratum (planArity loopPlan) [] loopRules :=
    stratum_of_accepted hl (i := 0) rfl (PlainRules.provided (by decide) [])
  refine ⟨⟨hl, fun fuel steps result hrun => ?_⟩, ⟨by decide, fun fuel => ?_⟩, by decide, ?_⟩
  · have := loop_endless hstratum fuel steps
    rw [hrun] at this
    exact this
  · refine bind_of_error ?_
    decide
  · refine ⟨flagDb ++ [("c", [[number 1]]), ("q", [[number 1]])], by decide, fun heq => ?_⟩
    have hder : ("q", [number 1]) ∈ model bareDoubles [] noRows flagRules flagDb := by
      rw [← heq]
      exact HasTuple.of_mem (by decide)
    refine SemiNaive.least_subset (I := {fact | fact.1 ≠ "q"}) ?_ ?_ hder rfl
    · rintro ⟨n, t⟩ ⟨u, hu, -⟩ rfl
      have hnil : shown [] noRows flagDb "q" = [] := by decide
      rw [hnil] at hu
      simp at hu
    · rintro ⟨n, t⟩ ⟨rule, hrule, hh, σ, h', hb, -⟩ rfl
      rcases mem_cons.mp hrule with rfl | hrule
      · simp at hh
      rw [mem_singleton.mp hrule] at hb
      cases hb with
      | cons _ hr =>
        cases hr with
        | cons hf _ =>
          -- `b` holds of no argument, so it is not absent
          cases hf with
          | negated _ _ hgr habs =>
            cases hgr
            exact absurd habs (by decide)
          | relation _ hneg => exact absurd hneg (by decide)
          | text _ hneg => exact absurd hneg (by decide)
          | comparison hk => exact absurd hk (by decide)
          | builtin hk => exact absurd hk (by decide)

end Beagle.Query
