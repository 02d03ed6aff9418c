/-
An accepted plan evaluates safely.

What the indexed evaluation reads differs in two places from what the rules mean: a
text relation without a text search is read like any other relation, and a negated
relation without arguments is never found where it has a built source.  Neither
matters here.  Whatever is read, the loop of a stratum ends with facts its rules
derive, so the found relation has the width its rules give it; and the facts are
finitely many, so the loop ends unless a NaN goes around in it.

Accepted plans over any projection: no unbound variable, nothing out of range, and an
end.

Stratum after stratum the evaluation ends with what the rules derive, so every
derived relation keeps the width of its heads.  How much fuel a stratum needs depends
on what the strata below derived; that more fuel changes nothing is what lets the
needs of all of them be taken together.
-/
import Beagle.Proofs.Answers
import Beagle.Proofs.LeastModels

namespace Beagle.Query

open Beagle.Lib Beagle.Store List

/-! ### What the evaluation reads -/

/-- The registered text searches, the tuples of the other text relations, and absence from what
a relation shows or, without arguments, from its built source. -/
def evaluated (candidates : CandidateSources) (rows : String → List Tuple) (rules : List Rule)
    (db : Db) : Reading where
  text relation needle :=
    match candidates.find relation with
    | some (.virtual _ source) => source.rows relation true needle
    | _ => .ok (if relation ∈ textRelations then shown candidates rows db relation else [])
  absent relation tuple :=
    (tuple.isEmpty && (positiveRelationNames rules).contains relation) ||
      !tupleLike.mem (shown candidates rows db relation) tuple

/-- The rules of a stratum can be evaluated over any sources. -/
structure Evaluable (arity : String → Option Nat) (rules : List Rule) : Prop where
  textArity : TextArity arity
  wide : ∀ relation ∈ baseRelations, arity relation ≠ some 0
  safe : ∀ rule ∈ rules, RuleSafe arity rule
  heads : ∀ rule ∈ rules, rule.headRelation ∉ baseRelations
  negated : ∀ rule ∈ rules, ∀ literal ∈ rule.body, literal.kind = .relation →
    literal.negated = true → literal.relation ∉ ruleHeadRelations rules

section

variable {ar : String → Option Nat} {candidates : CandidateSources}
  {rows : String → List Tuple} {rules : List Rule}

theorem evaluated_lawful (h : Registry ar candidates rows) (db : Db) :
    (evaluated candidates rows rules db).Lawful where
  text_congr relation needle needle' hal := by
    unfold evaluated
    dsimp only
    cases hf : candidates.find relation with
    | none => rfl
    | some v =>
      cases v with
      | candidate s => rfl
      | virtual n s =>
        obtain ⟨rfl, -⟩ := h.virtual relation n s hf
        exact h.text_congr _ s hf needle needle' hal
  absent_congr relation tuple tuple' hal := by
    have hemp : tuple.isEmpty = tuple'.isEmpty := by
      rw [Bool.eq_iff_iff, isEmpty_iff_length_eq_zero, isEmpty_iff_length_eq_zero, hal.length_eq]
    unfold evaluated
    dsimp only
    rw [hemp, mem_eq_of_hasTuple_iff (fun t => Iff.rfl) hal]

theorem evaluated_finite (h : Registry ar candidates rows) (db : Db) :
    ∃ corpus, (evaluated candidates rows rules db).Finite corpus := by
  obtain ⟨corpus, hc⟩ := h.text_values
  refine ⟨corpus ++ (textRelations.flatMap (shown candidates rows db)).flatten,
    fun relation nd fd hf row hrow v hv => ?_⟩
  have hsh : ∀ tuples : List Tuple, (Except.ok (if relation ∈ textRelations then
      shown candidates rows db relation else []) : Except QueryEvaluationError (List Tuple)) =
        .ok tuples → row ∈ tuples →
        v ∈ corpus ++ (textRelations.flatMap (shown candidates rows db)).flatten := by
    intro tuples htu hmem
    cases htu
    by_cases ht : relation ∈ textRelations
    · rw [if_pos ht] at hmem
      refine mem_append_right _ (mem_flatten.mpr ⟨row, ?_, hv⟩)
      exact mem_flatMap.mpr ⟨relation, ht, hmem⟩
    · rw [if_neg ht] at hmem
      simp at hmem
  unfold evaluated at hf
  dsimp only at hf
  cases hfi : candidates.find relation with
  | none =>
    rw [hfi] at hf
    exact Or.inl (hsh fd hf hrow)
  | some va =>
    rw [hfi] at hf
    cases va with
    | candidate src => exact Or.inl (hsh fd hf hrow)
    | virtual n src =>
      obtain ⟨rfl, -⟩ := h.virtual _ _ _ hfi
      obtain ⟨s, hs, hall⟩ := hc _ src nd fd hfi hf
      rcases hall row hrow v hv with hmem | hcase
      · exact Or.inl (mem_append_left _ hmem)
      · exact Or.inr ⟨s, hs, hcase⟩

/-- A filed source has no tuple without arguments. -/
theorem Filed.contains_nil {relation : String} {s : CandidateSource} {tuples : List Tuple}
    (h : Filed relation s tuples) (σ : Substitution) :
    sourceContains s relation [] σ = pure false := by
  have hh : sourceHandles s relation [] σ = pure none := by
    unfold sourceHandles
    rw [h.occurrence]
    exact if_neg (by simp)
  unfold sourceContains
  rw [h.rotation]
  dsimp only
  rw [hh]
  rfl

section

variable {D : Doubles} {a : Stop → Prop} {control : Option QueryControl}
  (hch : AllowsChecks control a) (hregistry : Registry ar candidates rows)
  (hru : Evaluable ar rules) {db₀ db : Db} {ss : CandidateSources}
  (hfr : SameOutside (ruleHeadRelations rules) db₀ db)
  (hse : Serves (positiveRelationNames rules) candidates db ss) {rule : Rule}
  (hrul : rule ∈ rules) {literal : Literal} (hl : literal ∈ rule.body)
  (hk : literal.kind = .relation) {b : List String} {σ : Substitution}
  (hsa : LiteralSafe ar b literal)

include hregistry hru hfr hse hrul hl hk hsa

/-- A negated literal without arguments reads what is absent. -/
theorem flag_reads (hneg : literal.negated = true) (ha : literal.arguments = []) :
    Reads D (evaluated candidates rows rules db₀) a (visible candidates rows db)
      (relationResultsIndexed control db ss) literal σ := by
  have hlen := length_of_safe hk hsa
  have hf : candidates.find literal.relation = none := by
    cases hf : candidates.find literal.relation with
    | none => rfl
    | some v =>
      rw [ha] at hlen
      exact absurd hlen (hru.wide _ (hregistry.base _ _ hf))
  have hgr : groundValue σ literal.arguments = some [] := by rw [ha]; rfl
  have hs : shown candidates rows db₀ literal.relation = db.tuples literal.relation := by
    rw [shown_of_find hf]
    exact (hfr _ (hru.negated rule hrul literal hl hk hneg)).symm
  unfold Reads relationResultsIndexed
  rw [if_pos hneg]
  by_cases hmem : literal.relation ∈ positiveRelationNames rules
  · obtain ⟨s, tuples, hsrc, hfi, -⟩ := hse.built _ hmem hf
    have hr : sourceContains s literal.relation literal.arguments σ = pure false := by
      rw [ha]
      exact hfi.contains_nil σ
    rw [hsrc]
    dsimp only
    rw [hr, pure_bind]
    refine Ends.pure (negated_represents hk hneg hgr ?_)
    unfold evaluated
    dsimp only
    rw [contains_iff_mem.mpr hmem]
    rfl
  · have hnot : (positiveRelationNames rules).contains literal.relation = false := by
      simpa using hmem
    rw [hse.unread _ hmem, hf]
    dsimp only
    rw [ground_eq hgr, pure_bind]
    refine Ends.pure (negated_represents hk hneg hgr ?_)
    unfold evaluated
    dsimp only
    rw [hs, hnot]
    rfl

variable (hb : Binds σ b)
  (hst : ∀ stop, LiteralStops D (evaluated candidates rows rules db₀) literal σ stop → a stop)

include hch hb hst

/-- A literal of a relation that is no text relation reads what the relation shows. -/
theorem plain_reads (hpl : literal.relation ∉ textRelations)
    (hne : literal.negated = true → literal.arguments ≠ []) :
    Reads D (evaluated candidates rows rules db₀) a (visible candidates rows db)
      (relationResultsIndexed control db ss) literal σ := by
  refine relationResultsIndexed_reads hch hru.textArity hk (length_of_safe hk hsa)
    (hse.sourcesFor hregistry fun hte => absurd hte hpl) hsa hb (fun hneg => ?_)
    hst
  have hs : shown candidates rows db literal.relation =
      shown candidates rows db₀ literal.relation := by
    unfold shown
    rw [hfr _ (hru.negated rule hrul literal hl hk hneg)]
  refine ⟨hne hneg, shown candidates rows db literal.relation, fun t => mem_visible.symm,
    fun t ht => ?_⟩
  have hf : t.isEmpty = false := by
    rw [isEmpty_eq_false_iff]
    intro hnil
    rw [hnil] at ht
    exact hne hneg (length_eq_zero_iff.mp ht.symm)
  unfold evaluated
  dsimp only
  rw [hf, hs]
  rfl

/-- A literal of a text relation reads the answers of its text search, or what it shows. -/
theorem text_reads (hneg : literal.negated = false) (hte : literal.relation ∈ textRelations) :
    Reads D (evaluated candidates rows rules db₀) a (visible candidates rows db)
      (relationResultsIndexed control db ss) literal σ := by
  have hlen := length_of_safe hk hsa
  obtain ⟨needle, hn⟩ : ∃ needle, literal.arguments[2]? = some needle := by
    have := hru.textArity _ hte _ hlen
    exact ⟨_, getElem?_eq_getElem (by omega)⟩
  -- a source of tuples, registered or built, for a relation without a text search
  have hrr : ∀ s tuples, ss.find literal.relation = some (.candidate s) →
      Presents literal.relation literal.arguments.length s tuples →
      (evaluated candidates rows rules db₀).text literal.relation (termValue needle σ) =
        .ok tuples →
      Reads D (evaluated candidates rows rules db₀) a (visible candidates rows db)
        (relationResultsIndexed control db ss) literal σ := by
    intro s tuples hf hp hok
    obtain ⟨c, hs, hc, heq⟩ := hp.positive control literal.arguments σ rfl
    unfold Reads relationResultsIndexed
    rw [if_neg (by simp [hneg]), hf]
    dsimp only
    rw [heq]
    refine unifyRows_reads hch hk hneg hte hn hok hs fun t ht hfit => ?_
    obtain ⟨u, hu, hal⟩ := ht
    exact (hc u hu (hfit.alike hal.symm)).congr hal
  cases hf : candidates.find literal.relation with
  | none =>
    have hmem : literal.relation ∈ positiveRelationNames rules := mem_positiveRelationNames.mpr
      ⟨rule, hrul, literal, hl, positive_iff.mpr ⟨hk, hneg⟩, rfl⟩
    have hh : literal.relation ∉ ruleHeadRelations rules := fun hh =>
      (heads_unregistered hregistry hru.heads _ hh).2 hte
    obtain ⟨s, tuples, hsrc, hfi, htu⟩ := hse.built _ hmem hf
    refine hrr s (db.tuples literal.relation) hsrc (hfi.presents htu _) ?_
    unfold evaluated
    dsimp only
    rw [hf, if_pos hte, shown_of_find hf, hfr _ hh]
  | some v =>
    cases v with
    | candidate s =>
      refine hrr s (rows literal.relation) (hse.registered _ _ hf)
        (hregistry.candidate _ _ _ hf hlen) ?_
      unfold evaluated
      dsimp only
      rw [hf, if_pos hte, shown_of_some hf]
    | virtual n s =>
      obtain ⟨rfl, -⟩ := hregistry.virtual _ _ _ hf
      refine relationResultsIndexed_reads hch hru.textArity hk hlen
        (hse.sourcesFor hregistry fun _ => ⟨s, hf, fun needle => ?_⟩) hsa hb
        (fun h => absurd h (by simp [hneg])) hst
      unfold evaluated
      dsimp only
      rw [hf]

end

/-- **Every relation literal reads what the evaluation reads.** -/
theorem answered_evaluated {D : Doubles} (hregistry : Registry ar candidates rows)
    (hru : Evaluable ar rules) (db₀ : Db) :
    Answered D (evaluated candidates rows rules db₀) ar candidates rows rules db₀ where
  lawful := evaluated_lawful hregistry db₀
  textArity := hru.textArity
  safe := hru.safe
  unregistered relation h := (heads_unregistered hregistry hru.heads relation h).1
  plain relation h := (heads_unregistered hregistry hru.heads relation h).2
  reads hch hfr hse rule hrul literal hl hk b σ hsa hb hst := by
    cases hneg : literal.negated with
    | true =>
      have hpl : literal.relation ∉ textRelations := by
        unfold LiteralSafe at hsa
        rw [hk] at hsa
        exact (hsa.2 hneg).1
      by_cases ha : literal.arguments = []
      · exact flag_reads hregistry hru hfr hse hrul hl hk hsa hneg ha
      · exact plain_reads hch hregistry hru hfr hse hrul hl hk hsa hb hst hpl fun _ => ha
    | false =>
      by_cases ht : literal.relation ∈ textRelations
      · exact text_reads hch hregistry hru hfr hse hrul hl hk hsa hb hst hneg ht
      · exact plain_reads hch hregistry hru hfr hse hrul hl hk hsa hb
          hst ht fun h => absurd h (by simp [hneg])

end

/-! ### Interruptions -/

/-- What can stop an evaluation: a recorded error, or arithmetic past the machine range. -/
def Interrupts (stop : Stop) : Prop := (∃ error, stop = .error error) ∨ stop = .overflow

variable {stop : Stop}

theorem checkedInt_error {v : Int} (h : checkedInt v = .error stop) :
    stop = .overflow := by
  unfold checkedInt at h
  split at h
  · simp at h
  · cases h
    rfl

theorem integerBuiltinValue_error {o : Keyword} {l r : Int64}
    (h : integerBuiltinValue o l r = .error stop) : stop = .overflow := by
  unfold integerBuiltinValue at h
  split at h
  · exact checkedInt_error h
  · split at h
    · exact checkedInt_error h
    · split at h
      · exact checkedInt_error h
      · exact checkedInt_error h

theorem builtinValue_error {D : Doubles} {o : Keyword} {l r : Term}
    (h : builtinValue D o l r = .error stop) : stop = .overflow := by
  have hint : ∀ {a b : Int64}, (integerBuiltinValue o a b).map
      (fun v => some (Term.atom (.int v))) = .error stop → stop = .overflow := by
    intro a b hab
    cases hr : integerBuiltinValue o a b with
    | error c =>
      rw [hr] at hab
      cases hab
      exact integerBuiltinValue_error hr
    | ok res =>
      rw [hr] at hab
      simp [Except.map] at hab
  unfold builtinValue at h
  dsimp only at h
  split at h
  · split at h
    · split at h
      · simp at h
      · exact hint h
    · simp at h
  · split at h
    · split at h
      · split at h
        · simp at h
        · simp at h
      · simp at h
    · split at h
      · split at h
        · exact hint h
        · split at h
          · simp at h
          · simp at h
      · simp at h

variable {R : Reading}

theorem LiteralStops.interrupts {D : Doubles} {literal : Literal} {σ : Substitution}
    (h : LiteralStops D R literal σ stop) : Interrupts stop := by
  cases h with
  | text _ _ _ _ _ => exact Or.inl ⟨_, rfl⟩
  | builtin _ _ _ _ _ hs => exact Or.inr (builtinValue_error hs)

theorem BodyStops.interrupts {D : Doubles} {fs : Nat → Facts} {p : Nat}
    {body : List Literal} {σ : Substitution}
    (h : BodyStops D R fs p body σ stop) : Interrupts stop := by
  induction h with
  | here hl => exact hl.interrupts
  | later _ _ ih => exact ih

theorem Refused.interrupts {D : Doubles} {I : Facts} {rules : List Rule}
    (h : Refused D R I rules stop) : Interrupts stop := by
  obtain ⟨_, _, hst⟩ := h
  exact hst.interrupts

theorem allowsChecks_interrupts {a : Stop → Prop} (h : ∀ stop, Interrupts stop → a stop)
    (control : Option QueryControl) : AllowsChecks control a :=
  fun _ _ _ _ _ => h _ (Or.inl ⟨_, rfl⟩)

/-! ### More fuel -/

section

variable {D : Doubles} {control : Option QueryControl}

/-- A loop that ends ends the same way with one more round to spend. -/
theorem roundsFrom_succ {rules : List Rule} : ∀ {fuel : Nat} {round : Round} {steps : Nat},
    roundsFrom D control rules fuel round steps ≠ .error .outOfFuel →
      roundsFrom D control rules (fuel + 1) round steps =
        roundsFrom D control rules fuel round steps := by
  intro fuel
  induction fuel with
  | zero => exact fun h => absurd rfl h
  | succ fuel ih =>
    intro round steps h
    unfold roundsFrom at h ⊢
    by_cases hemp : deltaEmpty round.delta (deltaRelationNames rules) = true
    · rw [if_pos hemp, if_pos hemp]
    · rw [if_neg hemp] at h
      rw [if_neg hemp, if_neg hemp]
      unfold orKeep at h ⊢
      cases hnext : nextRound D control rules round steps with
      | error stop => rw [bind_of_error hnext, bind_of_error hnext]
      | ok found =>
        obtain ⟨next, steps'⟩ := found
        rw [bind_of_ok hnext] at h
        rw [bind_of_ok hnext, bind_of_ok hnext]
        have hrest : roundsFrom D control rules fuel next steps' ≠ .error .outOfFuel := by
          intro hout
          rw [hout] at h
          exact h rfl
        rw [ih hrest]

theorem fixpoint_succ {rules : List Rule} {candidates : CandidateSources} {db : Db} {fuel steps : Nat}
    (h : fixpointWithCandidates D control fuel db rules candidates steps ≠ .error .outOfFuel) :
    fixpointWithCandidates D control (fuel + 1) db rules candidates steps =
      fixpointWithCandidates D control fuel db rules candidates steps := by
  unfold fixpointWithCandidates at h ⊢
  cases hseed : seedFrom D control db (initialSources D db rules candidates) rules db steps with
  | error stop => rw [bind_of_error hseed, bind_of_error hseed]
  | ok found =>
    obtain ⟨seeded, steps'⟩ := found
    rw [bind_of_ok hseed] at h
    rw [bind_of_ok hseed, bind_of_ok hseed]
    cases herr : seeded.error with
    | some error => rfl
    | none =>
      rw [herr] at h
      exact roundsFrom_succ h

theorem fixpoint_more {rules : List Rule} {candidates : CandidateSources} {db : Db}
    {k k' steps : Nat} (hle : k ≤ k')
    (h : fixpointWithCandidates D control k db rules candidates steps ≠ .error .outOfFuel) :
    fixpointWithCandidates D control k' db rules candidates steps =
      fixpointWithCandidates D control k db rules candidates steps := by
  induction k', hle using Nat.le_induction with
  | base => rfl
  | succ n _ ih =>
    rw [← ih]
    exact fixpoint_succ (by rw [ih]; exact h)

end

/-! ### The strata of an accepted plan -/

section

variable {needleValid : String → Option Term → Bool} {maxResults : Int} {plan : QueryPlan}
  (haccepted : validatePlan needleValid maxResults plan = [])

theorem planArity_base {relation : String} (h : relation ∈ baseRelations) :
    planArity plan relation = baseRelArity relation := by
  unfold planArity relationArity
  rw [if_pos (baseRelArity_isSome relation h)]

/-- Sources of the declared arities are sources for the plan. -/
theorem registry_of_base {candidates : CandidateSources} {rows : String → List Tuple}
    (h : Registry baseRelArity candidates rows) : Registry (planArity plan) candidates rows where
  base := h.base
  candidate relation source n hfind hn := by
    rw [planArity_base (h.base _ _ hfind)] at hn
    exact h.candidate relation source n hfind hn
  virtual := h.virtual
  text_congr := h.text_congr
  text_values := h.text_values

include haccepted

theorem evaluable_of_accepted {i : Nat} {rules : List Rule} (hi : plan.strata[i]? = some rules) :
    Evaluable (planArity plan) rules where
  textArity := planArity_text plan
  wide relation hrel := by
    have hb : ∀ relation ∈ baseRelations, baseRelArity relation ≠ some 0 := by decide
    rw [planArity_base hrel]
    exact hb relation hrel
  safe _ hrul := ruleSafe_of_accepted haccepted (mem_rules hi hrul)
  heads _ hrul := head_notMem_baseRelations haccepted (mem_rules hi hrul)
  negated rule hrul literal hl hk hneg := by
    rw [mem_ruleHeadRelations]
    refine (negated_of_strataViolations (strataViolations_of_accepted haccepted) hi ?_).1
    refine mem_flatMap.mpr ⟨rule, hrul, mem_map.mpr ⟨literal, ?_, rfl⟩⟩
    exact mem_filter.mpr ⟨hl, by simp [hk, hneg]⟩

/-- The tuples of a relation that is no base relation have the width of its heads. -/
def Sized (plan : QueryPlan) (db : Db) : Prop :=
  ∀ relation, relation ∉ baseRelations → ∀ t ∈ db.tuples relation,
    nameLike.get (headArities plan.rules) relation = some t.length

variable {candidates : CandidateSources} {rows : String → List Tuple}
  (hregistry : Registry baseRelArity candidates rows)

include hregistry

/-- What the rules of a stratum derive has the width of their heads. -/
theorem sized_of_model {i : Nat} {rules : List Rule} (hi : plan.strata[i]? = some rules)
    {D : Doubles} {R : Reading} {db final : Db} (hsz : Sized plan db)
    (hm : visible candidates rows final = modelOf D R candidates rows rules db) :
    Sized plan final := by
  have hun : ∀ relation, relation ∉ baseRelations → candidates.find relation = none := by
    intro relation hb
    cases hfi : candidates.find relation with
    | none => rfl
    | some v => exact absurd (hregistry.base _ _ hfi) hb
  let M : Facts := {fact | fact.1 ∉ baseRelations →
    nameLike.get (headArities plan.rules) fact.1 = some fact.2.length}
  have hb : visible candidates rows db ⊆ M := by
    rintro ⟨relation, t⟩ hf hnot
    rw [mem_visible, shown_of_find (hun relation hnot)] at hf
    obtain ⟨u, hu, hal⟩ := hf
    rw [hsz relation hnot u hu, hal.length_eq]
  have hcl : consequences D R rules M ⊆ M := by
    rintro ⟨relation, t⟩ ⟨rule, hrul, hh, σ, h', -, hgr, hal⟩ -
    dsimp only at hh ⊢
    rw [← hh, arity_of_accepted haccepted (mem_rules hi hrul), ← hal.length_eq,
      length_groundValue hgr]
  intro relation hnot t ht
  have hf : (relation, t) ∈ visible candidates rows final := by
    rw [mem_visible, shown_of_find (hun relation hnot)]
    exact HasTuple.of_mem ht
  rw [hm] at hf
  exact SemiNaive.least_subset hb hcl hf hnot

variable {D : Doubles} (hD : D.Lawful) (control : Option QueryControl)

include hD

/-- However much fuel there is, a plan's strata stop only when interrupted or out of fuel, and
leave every derived relation at the width of its heads. -/
theorem strata_ends (k : Nat) : ∀ (s b : List (List Rule)) {db : Db},
    plan.strata = b ++ s → Sized plan db → Ends (fun stop => Interrupts stop ∨ stop = .outOfFuel)
        (fun res => res.error = none → Sized plan res.db)
        (runStrataFrom D control k candidates s db) := by
  intro s
  induction s with
  | nil => exact fun _ _ _ hsz => Ends.pure fun _ => hsz
  | cons rules r ih =>
    intro b db hs hsz
    have hi : plan.strata[b.length]? = some rules := by
      rw [hs, getElem?_append_right (Nat.le_refl _), Nat.sub_self]
      rfl
    have he := @fixpoint_ends D hD _ (fun stop => Interrupts stop ∨ stop = .outOfFuel) control
      (allowsChecks_interrupts (fun _ => Or.inl) control) _ _ _ _ db
      (answered_evaluated (registry_of_base hregistry) (evaluable_of_accepted haccepted hi) db)
      (fun _ href => Or.inl href.interrupts) [] [] (fun _ => 0) 0
      (fun hnot => absurd (Or.inr rfl) hnot) k fun hnot => absurd (Or.inr rfl) hnot
    refine Ends.bind he fun res hres => ?_
    cases herr : res.error with
    | some e => exact Ends.pure fun hn => absurd (herr.symm.trans hn) (by simp)
    | none =>
      rw [herr] at hres
      refine ih (b ++ [rules]) (by rw [hs]; simp) ?_
      exact sized_of_model haccepted hregistry hi hsz hres

end

/-! ### The end -/

/-- No stratum derives a tuple with a NaN for a recursive relation from what the strata before
it derived. -/
def NanFree (D : Doubles) (control : Option QueryControl) (candidates : CandidateSources)
    (rows : String → List Tuple) (recursive : List String) : List (List Rule) → Db → Prop
  | [], _ => True
  | rules :: rest, db =>
    (∀ relation ∈ recursive, ∀ t,
      (relation, t) ∈ modelOf D (evaluated candidates rows rules db) candidates rows rules db →
        tupleHasNan t = false) ∧
    ∀ fuel steps db' steps',
      fixpointWithCandidates D control fuel db rules candidates steps = .ok (⟨db', none⟩, steps') →
        NanFree D control candidates rows recursive rest db'

section

variable {needleValid : String → Option Term → Bool} {maxResults : Int} {plan : QueryPlan}
  (haccepted : validatePlan needleValid maxResults plan = []) {candidates : CandidateSources}
  {rows : String → List Tuple} (hregistry : Registry baseRelArity candidates rows) {D : Doubles}
  (hD : D.Lawful) (control : Option QueryControl)
include haccepted hregistry hD

/-- With enough fuel a stratum that derives no NaN for a recursive relation ends. -/
theorem stratum_enough {i : Nat} {rules : List Rule} (hi : plan.strata[i]? = some rules) {db : Db}
    (hnan : ∀ relation ∈ recursiveRelations plan.rules, ∀ t,
      (relation, t) ∈ modelOf D (evaluated candidates rows rules db) candidates rows rules db →
        tupleHasNan t = false) (ss : Nat) :
    ∃ e, fixpointWithCandidates D control e db rules candidates ss ≠ .error .outOfFuel := by
  have hr' := @registry_of_base plan _ _ hregistry
  obtain ⟨cs, hc⟩ := @evaluated_finite _ _ _ rules hr' db
  obtain ⟨e, hen⟩ := fixpoint_enough haccepted hi hD hc candidates rows db
    (allowsChecks_interrupts (fun _ h => h) control)
    (answered_evaluated hr' (evaluable_of_accepted haccepted hi) db)
    (fun _ href => href.interrupts) hnan
  refine ⟨e, fun hout => ?_⟩
  rcases (hen e (Nat.le_refl _)).of_error hout with ⟨_, h⟩ | h
  · simp at h
  · simp at h

theorem strata_enough : ∀ (s b : List (List Rule)) (db : Db) (steps : Nat), plan.strata = b ++ s →
      NanFree D control candidates rows (recursiveRelations plan.rules) s db →
      ∃ e, ∀ k, e ≤ k → runStrataFrom D control k candidates s db steps ≠ .error .outOfFuel := by
  intro s
  induction s with
  | nil =>
    intro _ _ _ _ _
    exact ⟨0, fun k _ h => absurd (show Except.ok _ = Except.error _ from h) (by simp)⟩
  | cons rules r ih =>
    intro b db steps hs hf
    have hi : plan.strata[b.length]? = some rules := by
      rw [hs, getElem?_append_right (Nat.le_refl _), Nat.sub_self]
      rfl
    obtain ⟨e, hen⟩ := stratum_enough haccepted hregistry hD control hi hf.1 steps
    have hm : ∀ k, e ≤ k → fixpointWithCandidates D control k db rules candidates steps =
          fixpointWithCandidates D control e db rules candidates steps :=
      fun k hle => fixpoint_more hle hen
    cases hrun : fixpointWithCandidates D control e db rules candidates steps with
    | error stop =>
      refine ⟨e, fun k hle hout => ?_⟩
      unfold runStrataFrom at hout
      rw [bind_of_error ((hm k hle).trans hrun)] at hout
      cases hout
      exact hen hrun
    | ok fd =>
      obtain ⟨⟨db', error⟩, ss'⟩ := fd
      cases error with
      | some error =>
        refine ⟨e, fun k hle hout => ?_⟩
        unfold runStrataFrom at hout
        rw [bind_of_ok ((hm k hle).trans hrun)] at hout
        exact absurd (show Except.ok _ = Except.error _ from hout) (by simp)
      | none =>
        obtain ⟨os, hos⟩ := ih (b ++ [rules]) db' ss' (by rw [hs]; simp) (hf.2 e steps db' ss' hrun)
        refine ⟨max e os, fun k hle hout => ?_⟩
        unfold runStrataFrom at hout
        rw [bind_of_ok ((hm k (le_trans (Nat.le_max_left _ _) hle)).trans hrun)] at hout
        exact hos k (le_trans (Nat.le_max_right _ _) hle) hout

omit hregistry hD in
/-- The rows of the found relation have its width. -/
theorem found_wide {db : Db} (hsz : Sized plan db) : ∃ w,
    nameLike.get (headArities plan.rules) plan.find.relation = some w ∧
      Wide w (db.tuples plan.find.relation) := by
  have hf := found_of_accepted haccepted
  obtain ⟨w, hwd⟩ := headArities_isSome hf
  obtain ⟨rule, hrul, hn⟩ := mem_map.mp hf
  have hb : plan.find.relation ∉ baseRelations := by
    rw [← hn]
    exact head_notMem_baseRelations haccepted hrul
  refine ⟨w, hwd, fun t ht => ?_⟩
  have hlen := hsz _ hb t ht
  rw [hwd] at hlen
  exact (Option.some.inj hlen).symm

omit hregistry hD in
/-- Answering from evaluated strata stops only when interrupted. -/
theorem answer_ends {db : Db} (hsz : Sized plan db) :
    Ends Interrupts (fun _ => True) (planResult D maxResults db plan) := by
  obtain ⟨w, hwd, hr⟩ := found_wide haccepted hsz
  unfold planResult
  cases hagg : plan.find.aggregate with
  | true =>
    rw [if_pos rfl]
    exact aggregateResult_ends haccepted D (Or.inr rfl) hwd hr hagg
  | false =>
    rw [if_neg (by simp)]
    exact rowsResult_ends haccepted D hwd hr hagg

variable {db : Db} (hdb : ∀ relation, relation ∉ baseRelations → db.tuples relation = [])
include hdb

omit haccepted hregistry hD in
theorem sized_of_base : Sized plan db := by
  intro relation hnot t ht
  rw [hdb relation hnot] at ht
  simp at ht

theorem runPlanProjected_ends (k : Nat) :
    Ends (fun stop => Interrupts stop ∨ stop = .outOfFuel) (fun _ => True)
      (runPlanProjected D needleValid maxResults control k db candidates plan) := by
  unfold runPlanProjected
  rw [haccepted]
  refine Ends.bind (strata_ends haccepted hregistry hD control k _ [] rfl (sized_of_base hdb))
    fun ev hsz => ?_
  cases herr : ev.error with
  | some e => exact Ends.done
  | none =>
    exact Ends.bind ((answer_ends haccepted (hsz herr)).weaken fun _ => Or.inl)
      fun _ _ => Ends.done

/--
**Accepted plans evaluate safely.**  Over a projection of base relations and sources of the
declared arities, no variable is found unbound and no position out of range, in the rules, the
aggregates and the order; and with enough fuel the evaluation ends, unless some stratum derives
a NaN for a recursive relation.
-/
theorem accepted_plan_evaluates_safely : (∀ fuel steps stop,
      runPlanProjected D needleValid maxResults control fuel db candidates plan steps =
        .error stop → stop ≠ .unboundVariable ∧ stop ≠ .outOfRange) ∧
    (NanFree D control candidates rows (recursiveRelations plan.rules) plan.strata db →
      ∀ steps, ∃ enough, ∀ fuel, enough ≤ fuel →
        runPlanProjected D needleValid maxResults control fuel db candidates plan steps ≠
          .error .outOfFuel) := by
  refine ⟨fun fuel steps stop hrun => ?_, fun hf steps => ?_⟩
  · rcases (runPlanProjected_ends haccepted hregistry hD control hdb fuel).of_error hrun with
      (⟨error, rfl⟩ | rfl) | rfl
    · exact ⟨by simp, by simp⟩
    · exact ⟨by simp, by simp⟩
    · exact ⟨by simp, by simp⟩
  · obtain ⟨enough, hen⟩ := strata_enough haccepted hregistry hD control _ [] db steps rfl hf
    refine ⟨enough, fun fuel hle hout => ?_⟩
    unfold runPlanProjected at hout
    rw [haccepted] at hout
    have hsz := strata_ends haccepted hregistry hD control fuel _ [] rfl (sized_of_base hdb)
    cases hs : runStrataFrom D control fuel candidates plan.strata db steps with
    | error stop =>
      have hout' := (bind_of_error hs).symm.trans hout
      cases hout'
      exact hen fuel hle hs
    | ok fd =>
      obtain ⟨ev, ss'⟩ := fd
      have hout' := (bind_of_ok hs).symm.trans hout
      cases herr : ev.error with
      | some error =>
        rw [herr] at hout'
        exact absurd (show Except.ok _ = Except.error _ from hout') (by simp)
      | none =>
        rw [herr] at hout'
        have hans := Ends.bind (answer_ends haccepted (D := D) (hsz.of_ok hs herr)) fun res _ =>
            (Ends.done : Ends Interrupts (fun _ => True)
              (pure (⟨some res, none⟩ : QueryExecutionResult) : Eval QueryExecutionResult))
        rcases hans.of_error hout' with ⟨_, h⟩ | h
        · simp at h
        · simp at h

end

/-! ### An end, and none -/

theorem reach_plan_evaluates_safely : (∀ fuel steps stop,
      runPlanProjected bareDoubles (fun _ _ => true) 100000 none fuel edgeDb [] reachPlan steps =
        .error stop → stop ≠ .unboundVariable ∧ stop ≠ .outOfRange) ∧
    ∀ steps, ∃ enough, ∀ fuel, enough ≤ fuel →
      runPlanProjected bareDoubles (fun _ _ => true) 100000 none fuel edgeDb [] reachPlan steps ≠
        .error .outOfFuel := by
  have haccepted : validatePlan (fun _ _ => true) 100000 reachPlan = [] := by decide
  have hregistry := registry_nil baseRelArity noRows
  have hdb : ∀ relation, relation ∉ baseRelations → edgeDb.tuples relation = [] := by
    intro relation hnot
    have hne : ¬tripleRelation = relation := fun h => hnot (h ▸ by decide)
    simp [edgeDb, Db.tuples, Likeness.get, nameLike, Likeness.ofEq, hne]
  have hma := accepted_plan_evaluates_safely haccepted hregistry bareDoubles_lawful none hdb
  refine ⟨hma.1, hma.2 ⟨fun relation hrel t ht => ?_, fun _ _ _ _ _ => True.intro⟩⟩
  have he := @fixpoint_ends bareDoubles bareDoubles_lawful _ (fun _ => True) none
    (allowsChecks_none _) _ _ _ _ edgeDb (answered_evaluated (registry_of_base hregistry)
      (evaluable_of_accepted haccepted (i := 0) rfl) edgeDb) (fun _ _ => True.intro) [] []
    (fun _ => 0) 0 (fun hnot => absurd True.intro hnot) 9 fun hnot => absurd True.intro hnot
  have hrun : fixpointWithCandidates bareDoubles none 9 edgeDb reachRules [] 0 =
      .ok (⟨edgeDb ++ [("reach", reachPairs)], none⟩, 0) := by decide
  have hm := he.of_ok hrun
  dsimp only at hm
  rw [← hm] at ht
  obtain ⟨u, hu, hal⟩ := ht
  rw [← hal.hasNan_eq]
  have hn : relation = "reach" := by
    have : recursiveRelations reachPlan.rules = ["reach", "reach"] := by decide
    rw [this] at hrel
    simpa using hrel
  subst hn
  have hall : ∀ u ∈ reachPairs, tupleHasNan u = false := by decide
  exact hall u hu

/-- **An accepted plan over one proposition that never ends.**  The proposition has a NaN, and a
relation that is read back holds it. -/
theorem nan_plan_endless : validatePlan (fun _ _ => true) 100000 loopPlan = [] ∧ ∀ fuel steps,
      runPlanProjected bareDoubles (fun _ _ => true) 100000 none fuel nanDb [] loopPlan steps =
        .error .outOfFuel := by
  have haccepted : validatePlan (fun _ _ => true) 100000 loopPlan = [] := by decide
  have hs : Stratum (planArity loopPlan) [] loopRules :=
    stratum_of_accepted haccepted (i := 0) rfl (PlainRules.provided (by decide) [])
  refine ⟨haccepted, fun fuel steps => ?_⟩
  have he := loop_endless hs fuel steps
  unfold runPlanProjected
  rw [haccepted]
  refine bind_of_error (m := runStrataFrom bareDoubles none fuel [] loopPlan.strata nanDb) ?_
  refine bind_of_error (m := fixpointWithCandidates bareDoubles none fuel nanDb loopRules []) ?_
  cases hrun : fixpointWithCandidates bareDoubles none fuel nanDb loopRules [] steps with
  | error stop =>
    rw [hrun] at he
    rw [show stop = .outOfFuel from he]
  | ok fd =>
    rw [hrun] at he
    simp at he

end Beagle.Query
