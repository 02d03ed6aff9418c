/-
Negation and the order of strata.

A negated literal is sound when the relation it tests does not grow after the test.
Evaluating a stratum adds tuples to the heads of its rules and to nothing else, so
what has to hold is that no head of the stratum itself, and no head of a later one,
is negated there.  Validation checks the first half: a negated relation is not
derived in its own stratum and is a base relation or derived in a lower one.  It
does not look at the strata above, and a relation derived below may be derived again
there.
-/
import Beagle.Query.Datalog
import Beagle.Query.Plan

namespace Beagle.Query

open Beagle.Lib Beagle.Store List

/-! ### What evaluation leaves alone -/

/-- The databases agree on every relation that is none of the names. -/
def SameOutside (names : List String) (db db' : Db) : Prop :=
  ∀ relation, relation ∉ names → db'.tuples relation = db.tuples relation

theorem SameOutside.refl (ns : List String) (db : Db) : SameOutside ns db db :=
  fun _ _ => rfl

variable {ns : List String}

theorem SameOutside.trans {db db' db'' : Db} (h : SameOutside ns db db')
    (h' : SameOutside ns db' db'') : SameOutside ns db db'' :=
  fun relation hr => (h' relation hr).trans (h relation hr)

variable {relation : String} {rs : List String}

theorem SameOutside.add (db : Db) (ts : List Tuple) (h : relation ∈ ns) :
    SameOutside ns db (db.add relation ts) := by
  intro o ho
  refine Db.tuples_add_of_ne db ts ?_
  intro heq
  rw [heq] at h
  exact ho h

theorem mem_ruleHeadRelations {rules : List Rule} :
    relation ∈ ruleHeadRelations rules ↔ relation ∈ derivedRelations rules := by
  simp [ruleHeadRelations, derivedRelations]

theorem dbNewOnly_tuples_of_notMem (c db : Db) (h : relation ∉ rs) :
    (dbNewOnly c db rs).tuples relation = [] := by
  have hf : ∀ delta : Db, delta.tuples relation = [] →
      Db.tuples (rs.foldl (putNew c db) delta) relation = [] := by
    induction rs with
    | nil => intro delta hd; exact hd
    | cons n ns ih =>
      intro delta hd
      simp only [mem_cons, not_or] at h
      refine ih h.2 _ ?_
      unfold putNew
      split
      · exact hd
      · rw [Db.tuples_set, if_neg (fun heq => h.1 heq.symm)]
        exact hd
  exact hf [] rfl

theorem dbMergeDelta_sameOutside (db delta : Db) (rs : List String) :
    SameOutside rs db (dbMergeDelta db delta rs) := by
  have hf : ∀ (ns : List String) (c : Db), (∀ n ∈ ns, n ∈ rs) →
      SameOutside rs c (ns.foldl (mergeNew delta) c) := by
    intro ns
    induction ns with
    | nil => intro c _; exact SameOutside.refl _ _
    | cons n ns ih =>
      intro c hin
      refine SameOutside.trans ?_ (ih _ fun o ho => hin o (by simp [ho]))
      unfold mergeNew
      split
      · exact SameOutside.refl _ _
      · exact SameOutside.add c _ (hin n (by simp))
  exact hf rs db fun _ h => h

theorem CandidateSources.find_set (ss : CandidateSources) (relation : String)
    (v : CandidateSourceValue) (other : String) :
    CandidateSources.find (nameLike.set ss relation v) other =
      if relation = other then some v else ss.find other := by
  unfold CandidateSources.find
  rw [nameLike.get_set]
  by_cases h : relation = other <;> simp [nameLike, h]

variable {sf : Float64 → String}

theorem find_buildCandidateSources {db : Db} {s : CandidateSources}
    {value : CandidateSourceValue} (h : s.find relation = some value) :
    (buildCandidateSources sf db rs s).find relation = some value := by
  unfold buildCandidateSources
  induction rs generalizing s with
  | nil => exact h
  | cons n ns ih =>
    rw [foldl_cons]
    refine ih ?_
    unfold buildSource
    by_cases hs : (s.find n).isSome = true
    · rw [if_pos hs]
      exact h
    · rw [if_neg hs, CandidateSources.find_set]
      by_cases hn : n = relation
      · rw [hn, h] at hs
        exact absurd rfl hs
      · rw [if_neg hn]
        exact h

theorem find_addDeltaSources {ss : CandidateSources} {delta : Db} (h : delta.tuples relation = []) :
    (addDeltaSources sf ss delta rs).find relation = ss.find relation := by
  unfold addDeltaSources
  induction rs generalizing ss with
  | nil => rfl
  | cons n ns ih =>
    rw [foldl_cons, ih]
    unfold addDeltaSource
    by_cases hemp : (delta.tuples n).isEmpty = true
    · rw [if_pos hemp]
    · rw [if_neg hemp, CandidateSources.find_set]
      by_cases hn : n = relation
      · rw [hn, h] at hemp
        exact absurd rfl hemp
      · rw [if_neg hn]

section

variable (D : Doubles) (control : Option QueryControl)

/-- Everything is allowed: what holds whenever there is a value. -/
def always : Stop → Prop := fun _ => True

theorem orKeep_ends {a : Stop → Prop} {db : Db} {Q : QueryEvaluationResult → Prop}
    {ev : Eval QueryEvaluationResult} (h : Ends a Q ev)
    (hk : ∀ error, a (.error error) → Q ⟨db, some error⟩) :
    Ends a Q (orKeep db ev) := by
  intro s
  have hs := h s
  unfold orKeep
  cases he : ev s with
  | ok res =>
    rw [he] at hs
    exact hs
  | error sp =>
    rw [he] at hs
    cases sp with
    | error error => exact hk error hs
    | unboundVariable | outOfRange | overflow | store f | outOfFuel => exact hs

theorem seedFrom_sameOutside (db : Db) (ss : CandidateSources) (ns : List String) :
    ∀ (rs : List Rule) (c : Db), (∀ r ∈ rs, r.headRelation ∈ ns) →
      Ends always (fun res => SameOutside ns c res.db) (seedFrom D control db ss rs c) := by
  intro rs
  induction rs with
  | nil => intro c _; exact Ends.pure (SameOutside.refl _ _)
  | cons r rs ih =>
    intro c hin
    refine orKeep_ends ?_ fun _ _ => SameOutside.refl _ _
    refine Ends.bind Ends.trivial fun d _ => ?_
    refine Ends.mono (ih _ fun o ho => hin o (by simp [ho])) ?_
    intro res hres
    exact SameOutside.trans (SameOutside.add c d (hin r (by simp))) hres

theorem nextRound_frame (rs : List Rule) (r : Round) : Ends always
      (fun next => SameOutside (ruleHeadRelations rs) r.db next.db ∧
        ∀ relation, relation ∉ ruleHeadRelations rs →
          next.sources.find relation = r.sources.find relation)
      (nextRound D control rs r) := by
  have hd : Ends always
      (fun delta : Db => ∀ relation, relation ∉ ruleHeadRelations rs → delta.tuples relation = [])
      (deriveDelta D control rs r) := by
    refine Ends.bind Ends.trivial fun c _ => Ends.pure ?_
    intro relation hr
    exact dbNewOnly_tuples_of_notMem c r.db hr
  refine Ends.bind hd fun delta h => Ends.pure ⟨dbMergeDelta_sameOutside _ _ _, ?_⟩
  intro relation hr
  exact find_addDeltaSources (h relation hr)

theorem roundsFrom_sameOutside (rules : List Rule) : ∀ (fuel : Nat) (round : Round),
    Ends always (fun result => SameOutside (ruleHeadRelations rules) round.db result.db)
      (roundsFrom D control rules fuel round) := by
  intro fuel
  induction fuel with
  | zero => intro round; exact Ends.halt True.intro
  | succ fuel ih =>
    intro round
    unfold roundsFrom
    split
    · exact Ends.pure (SameOutside.refl _ _)
    · refine orKeep_ends ?_ fun _ _ => SameOutside.refl _ _
      refine Ends.bind (nextRound_frame D control rules round) fun next hnext => ?_
      refine Ends.mono (ih next) ?_
      intro result hres
      exact SameOutside.trans hnext.1 hres

theorem fixpoint_sameOutside (fuel : Nat) (db : Db) (rules : List Rule)
    (candidates : CandidateSources) :
    Ends always (fun result => SameOutside (ruleHeadRelations rules) db result.db)
      (fixpointWithCandidates D control fuel db rules candidates) := by
  refine Ends.bind (seedFrom_sameOutside D control db _ (ruleHeadRelations rules) rules db
    fun r hrule => ?_) fun seeded hseeded => ?_
  · exact mem_ruleHeadRelations.mpr (mem_map.mpr ⟨r, hrule, rfl⟩)
  · split
    · exact Ends.pure hseeded
    · refine Ends.mono (roundsFrom_sameOutside D control rules fuel _) ?_
      intro result hres
      exact SameOutside.trans hseeded hres

theorem runStrataFrom_sameOutside (fuel : Nat) (candidates : CandidateSources)
    (ns : List String) : ∀ (s : List (List Rule)) (db : Db),
      (∀ stratum ∈ s, ∀ relation ∈ derivedRelations stratum, relation ∈ ns) →
      Ends always (fun res => SameOutside ns db res.db)
        (runStrataFrom D control fuel candidates s db) := by
  intro s
  induction s with
  | nil => intro db _; exact Ends.pure (SameOutside.refl _ _)
  | cons stratum r ih =>
    intro db hin
    have hh : ∀ relation, relation ∉ ns → relation ∉ ruleHeadRelations stratum := by
      intro relation hr hmem
      exact hr (hin stratum (by simp) relation (mem_ruleHeadRelations.mp hmem))
    refine Ends.bind (fixpoint_sameOutside D control fuel db stratum candidates)
      fun res hres => ?_
    have hs : SameOutside ns db res.db := fun relation hr =>
      hres relation (hh relation hr)
    split
    · exact Ends.pure hs
    · refine Ends.mono (ih res.db fun o ho => hin o (by simp [ho])) ?_
      intro f hfin
      exact SameOutside.trans hs hfin

end

/-! ### What validation says of negation -/

theorem negated_of_strataViolations : ∀ {ix : Nat} {l : List String}
    {s : List (List Rule)}, strataViolationsFrom ix l s = [] →
    ∀ {i : Nat} {rules : List Rule}, s[i]? = some rules →
    ∀ {relation : String}, relation ∈ negatedRelations rules → relation ∉ derivedRelations rules ∧
        (relation ∈ l ∨ ∃ (j : Nat) (lr : List Rule), j < i ∧ s[j]? = some lr ∧
            relation ∈ derivedRelations lr) := by
  intro ix l s
  induction s generalizing ix l with
  | nil => intro _ i rules hi; simp at hi
  | cons st r ih =>
    intro h i rules hi relation hr
    simp only [strataViolationsFrom, append_eq_nil_iff] at h
    cases i with
    | zero =>
      have hru : st = rules := by simpa using hi
      subst hru
      have hn := filterMap_eq_nil_iff.mp h.1 relation hr
      by_cases hheads : (derivedRelations st).contains relation = true
      · rw [if_pos hheads] at hn
        simp at hn
      · rw [if_neg hheads] at hn
        by_cases hlo : l.contains relation = true
        · exact ⟨by simpa using hheads, Or.inl (by simpa using hlo)⟩
        · rw [if_pos (by simpa using hlo)] at hn
          simp at hn
    | succ i =>
      obtain ⟨hown, hb⟩ := ih h.2 (i := i) (by simpa using hi) hr
      refine ⟨hown, ?_⟩
      rcases hb with hmem | ⟨j, lr, hj, hget, hder⟩
      · rcases List.mem_append.mp hmem with hlo | hheads
        · exact Or.inl hlo
        · exact Or.inr ⟨0, st, by omega, rfl, hheads⟩
      · exact Or.inr ⟨j + 1, lr, by omega, by simpa using hget, hder⟩

section

variable {nv : String → Option Term → Bool} {mr : Int} {p : QueryPlan}
  (h : validatePlan nv mr p = [])
include h

theorem strataViolations_of_accepted : strataViolations p.strata = [] := by
  simp only [validatePlan, append_eq_nil_iff, map_eq_nil_iff] at h
  exact h.1.1.2

variable {r : Rule}

theorem ruleErrors_of_accepted (hr : r ∈ p.rules) :
    ruleErrors nv r (baseRelations ++ derivedRelations p.rules) (headArities p.rules) = [] := by
  simp only [validatePlan, append_eq_nil_iff] at h
  exact flatMap_eq_nil_iff.mp h.1.1.1.1.1.1.2 r hr

theorem head_notMem_baseRelations (hr : r ∈ p.rules) : r.headRelation ∉ baseRelations := by
  intro hb
  have he := ruleErrors_of_accepted h hr
  simp only [ruleErrors, append_eq_nil_iff] at he
  have hs := he.1.1.1.2
  rw [if_pos (by simpa using hb)] at hs
  simp at hs

theorem derived_notMem_baseRelations {j : Nat} {rs : List Rule}
    (hj : p.strata[j]? = some rs) {relation : String} (hr : relation ∈ derivedRelations rs)
    : relation ∉ baseRelations := by
  obtain ⟨r, hru, rfl⟩ := mem_map.mp hr
  refine head_notMem_baseRelations h ?_
  exact mem_flatten.mpr ⟨rs, mem_of_getElem? hj, hru⟩

end

/-! ### Where a negated literal is tested -/

section

variable (D : Doubles) (control : Option QueryControl)

/-- The rounds of a stratum from its seeding on, with the count of checks. -/
inductive RoundOf (db : Db) (rules : List Rule) (candidates : CandidateSources) (steps : Nat) :
    Round → Nat → Prop
  | first {seeded : Db} {steps' : Nat}
      (hseed : seedFrom D control db (initialSources D db rules candidates) rules db steps =
        .ok (⟨seeded, none⟩, steps')) :
      RoundOf db rules candidates steps (firstRound D db rules candidates seeded) steps'
  | next {round next : Round} {steps' steps'' : Nat}
      (hround : RoundOf db rules candidates steps round steps')
      (hmore : deltaEmpty round.delta (deltaRelationNames rules) = false)
      (hnext : nextRound D control rules round steps' = .ok (next, steps'')) :
      RoundOf db rules candidates steps next steps''

/-- The literals of stratum `i` are evaluated against this database and these sources. -/
inductive Tested (fuel : Nat) (db₀ : Db) (strata : List (List Rule)) (candidates : CandidateSources)
    (i : Nat) : Db → CandidateSources → Prop
  | seeding {rules : List Rule} {db : Db} {steps : Nat} (hrules : strata[i]? = some rules)
      (hrun : runStrataFrom D control fuel candidates (strata.take i) db₀ 0 =
        .ok (⟨db, none⟩, steps)) :
      Tested fuel db₀ strata candidates i db (initialSources D db rules candidates)
  | rounds {rules : List Rule} {db : Db} {steps steps' : Nat} {round : Round}
      (hrules : strata[i]? = some rules)
      (hrun : runStrataFrom D control fuel candidates (strata.take i) db₀ 0 =
        .ok (⟨db, none⟩, steps))
      (hround : RoundOf D control db rules candidates steps round steps') :
      Tested fuel db₀ strata candidates i round.db round.sources

end

/-- A negated relation is a base relation or derived in lower strata only. -/
def NegatedBelow (strata : List (List Rule)) : Prop :=
  ∀ (i : Nat) (rules : List Rule), strata[i]? = some rules → ∀ relation ∈ negatedRelations rules,
      relation ∈ baseRelations ∨ ∀ (j : Nat) (others : List Rule), strata[j]? = some others →
          relation ∈ derivedRelations others → j < i

/-- In every finished run, what a relation lacked when a negated literal could test it, it
lacks at the end, and a registered source it was tested against is the registered one. -/
def NegationSettled (strata : List (List Rule)) : Prop :=
  ∀ (D : Doubles) (control : Option QueryControl) (fuel : Nat) (db₀ final : Db)
    (candidates : CandidateSources),
    runStrataDb D control fuel db₀ strata candidates = .ok ⟨final, none⟩ →
    ∀ (i : Nat) (rules : List Rule), strata[i]? = some rules →
      ∀ relation ∈ negatedRelations rules, ∀ (db : Db) (sources : CandidateSources),
        Tested D control fuel db₀ strata candidates i db sources →
          (∀ tuple, db.contains relation tuple = false → final.contains relation tuple = false) ∧
          ∀ source, candidates.find relation = some source → sources.find relation = some source

/-- No stratum derives again what an earlier one negates. -/
def NotRederived (strata : List (List Rule)) : Prop :=
  ∀ (i j : Nat) (rules others : List Rule), strata[i]? = some rules → strata[j]? = some others →
    i < j → ∀ relation ∈ negatedRelations rules, relation ∉ derivedRelations others

theorem negatedBelow_iff {nv : String → Option Term → Bool} {mr : Int}
    {p : QueryPlan} (h : validatePlan nv mr p = []) :
    NegatedBelow p.strata ↔ NotRederived p.strata := by
  constructor
  · intro hb i j rs os hi hj hij relation hneg hder
    rcases hb i rs hi relation hneg with hba | hlow
    · exact derived_notMem_baseRelations h hj hder hba
    · have hji := hlow j os hj hder
      omega
  · intro hnot i rs hi relation hneg
    obtain ⟨hown, hlow⟩ :=
      negated_of_strataViolations (strataViolations_of_accepted h) hi hneg
    refine Or.inr ?_
    intro j os hj hder
    rcases Nat.lt_trichotomy j i with hlt | heq | hgt
    · exact hlt
    · rw [heq, hi] at hj
      cases hj
      exact absurd hder hown
    · exact absurd hder (hnot i j rs os hi hj hgt relation hneg)

section

variable {D : Doubles} {control : Option QueryControl} {fuel : Nat} {candidates : CandidateSources}
  {db : Db} {ss' : Nat}

theorem RoundOf.frame {rules : List Rule} {steps : Nat} {round : Round}
    (h : RoundOf D control db rules candidates steps round ss') :
    SameOutside (ruleHeadRelations rules) db round.db ∧
      ∀ relation, relation ∉ ruleHeadRelations rules → ∀ source,
        candidates.find relation = some source → round.sources.find relation = some source := by
  induction h with
  | first hseed =>
    have hsame := (seedFrom_sameOutside D control db _ (ruleHeadRelations rules) rules db
      fun r hrule =>
        mem_ruleHeadRelations.mpr (mem_map.mpr ⟨r, hrule, rfl⟩)).of_ok hseed
    refine ⟨hsame, ?_⟩
    intro relation hr source hsrc
    unfold firstRound
    rw [find_addDeltaSources (dbNewOnly_tuples_of_notMem _ _ hr)]
    exact find_buildCandidateSources hsrc
  | next hround _ hnext ih =>
    obtain ⟨hdb, hsrcs⟩ := (nextRound_frame D control rules _).of_ok hnext
    refine ⟨SameOutside.trans ih.1 hdb, ?_⟩
    intro relation hr source hsrc
    rw [hsrcs relation hr]
    exact ih.2 relation hr source hsrc

theorem Tested.frame {db₀ : Db} {s : List (List Rule)} {ss : CandidateSources} {i : Nat}
    (h : Tested D control fuel db₀ s candidates i db ss) :
    ∃ (rs : List Rule) (st : Db) (sts : Nat), s[i]? = some rs ∧
      runStrataFrom D control fuel candidates (s.take i) db₀ 0 = .ok (⟨st, none⟩, sts) ∧
      SameOutside (ruleHeadRelations rs) st db ∧
      ∀ relation, relation ∉ ruleHeadRelations rs → ∀ source,
        candidates.find relation = some source → ss.find relation = some source := by
  cases h with
  | seeding hr hrun =>
    exact ⟨_, _, _, hr, hrun, SameOutside.refl _ _,
      fun _ _ _ hsrc => find_buildCandidateSources hsrc⟩
  | rounds hr hrun hro =>
    obtain ⟨hs, hsr⟩ := hro.frame
    exact ⟨_, _, _, hr, hrun, hs, hsr⟩

/-- What the lower strata end with, the others start from. -/
theorem runStrataFrom_append {l u : List (List Rule)} {s : Db} {ss : Nat}
    (h : runStrataFrom D control fuel candidates l db ss = .ok (⟨s, none⟩, ss')) :
    runStrataFrom D control fuel candidates (l ++ u) db ss =
      runStrataFrom D control fuel candidates u s ss' := by
  induction l generalizing db ss with
  | nil =>
    have heq : (⟨db, none⟩, ss) = ((⟨s, none⟩ : QueryEvaluationResult), ss') := by
      injection h
    cases heq
    rfl
  | cons st r ih =>
    obtain ⟨res, ss₁, hfix, hr⟩ := bind_eq_ok h
    refine (bind_of_ok hfix).trans ?_
    cases herr : res.error with
    | some e =>
      rw [herr] at hr
      have heq : (res, ss₁) = ((⟨s, none⟩ : QueryEvaluationResult), ss') := by
        injection hr
      cases heq
      simp at herr
    | none =>
      rw [herr] at hr
      exact ih hr

end

theorem negationSettled_of_notRederived {strata : List (List Rule)}
    (hv : strataViolations strata = []) (hnot : NotRederived strata) :
    NegationSettled strata := by
  intro D control fuel db₀ f candidates hrun i rules hi relation hneg db sos ht
  obtain ⟨rs', s, ss, hi', hst, hsa, hsr⟩ := ht.frame
  rw [hi] at hi'
  cases hi'
  have hown : relation ∉ derivedRelations rules := (negated_of_strataViolations hv hi hneg).1
  have hh : relation ∉ ruleHeadRelations rules := fun hmem =>
    hown (mem_ruleHeadRelations.mp hmem)
  refine ⟨?_, hsr relation hh⟩
  -- neither this stratum nor a later one derives the relation
  have hup : relation ∉ (strata.drop i).flatMap derivedRelations := by
    intro hmem
    obtain ⟨os, hos, hder⟩ := mem_flatMap.mp hmem
    obtain ⟨k, hk⟩ := mem_iff_getElem?.mp hos
    rw [getElem?_drop] at hk
    cases k with
    | zero =>
      rw [Nat.add_zero, hi] at hk
      cases hk
      exact hown hder
    | succ k => exact hnot i (i + (k + 1)) rules os hi hk (by omega) relation hneg hder
  have hfin : f.tuples relation = s.tuples relation := by
    unfold runStrataDb at hrun
    rw [← take_append_drop i strata, runStrataFrom_append hst] at hrun
    cases hd : runStrataFrom D control fuel candidates (strata.drop i) s ss with
    | error sp =>
      rw [hd] at hrun
      simp [Except.map] at hrun
    | ok done =>
      rw [hd] at hrun
      have hdb : done.1 = ⟨f, none⟩ := by simpa [Except.map] using hrun
      have hs' := (runStrataFrom_sameOutside D control fuel candidates
        ((strata.drop i).flatMap derivedRelations) (strata.drop i) s
        fun st hs n hn =>
          mem_flatMap.mpr ⟨st, hs, hn⟩).of_ok hd
      rw [hdb] at hs'
      exact hs' relation hup
  intro t habs
  unfold Db.contains at habs ⊢
  rw [hfin, ← hsa relation hh]
  exact habs

/--
**Accepted plans are stratified exactly when no stratum derives again what an earlier one
negates.**  Then what a negated literal found absent stays absent to the end.
-/
theorem accepted_plan_stratified (needleValid : String → Option Term → Bool) (maxResults : Int)
    (plan : QueryPlan) (h : validatePlan needleValid maxResults plan = []) :
    NegatedBelow plan.strata ∧ NegationSettled plan.strata ↔ NotRederived plan.strata := by
  constructor
  · intro hb
    exact (negatedBelow_iff h).mp hb.1
  · intro hnot
    exact ⟨(negatedBelow_iff h).mpr hnot,
      negationSettled_of_notRederived (strataViolations_of_accepted h) hnot⟩

/-! ### A relation derived below and again above -/

private def subjectVar : QueryTerm := .var "x"
private def valueVar : QueryTerm := .var "y"
private def keywordTerm (spelling : String) : QueryTerm := .constant (.atom (.keyword ⟨spelling⟩))

/-- `name(x)` from the triples of a predicate. -/
def subjectsOf (name predicate : String) (rest : List Literal) : Rule :=
  ⟨name, [subjectVar],
    relationLiteral tripleRelation [subjectVar, keywordTerm predicate, valueVar] :: rest⟩

/-- The second stratum negates `p`; the third derives it again. -/
def rederivingPlan : QueryPlan :=
  queryPlan (relationFind "q")
    [[subjectsOf "p" "a" []], [subjectsOf "q" "b" [negatedLiteral "p" [subjectVar]]],
      [subjectsOf "p" "b" []]]

/-- The same without the third stratum. -/
def layeredPlan : QueryPlan :=
  queryPlan (relationFind "q")
    [[subjectsOf "p" "a" []], [subjectsOf "q" "b" [negatedLiteral "p" [subjectVar]]]]

theorem layeredPlan_stratified :
    NegatedBelow layeredPlan.strata ∧ NegationSettled layeredPlan.strata := by
  refine (accepted_plan_stratified (fun _ _ => true) 100000 layeredPlan (by decide)).mpr ?_
  intro i j rs os hi hj hij relation hneg hder
  match i, j with
  | 0, _ =>
    cases hi
    simp [negatedRelations, subjectsOf, relationLiteral] at hneg
  | 1, 0 => omega
  | 1, 1 => omega
  | 1, j + 2 => simp [layeredPlan, queryPlan] at hj
  | i + 2, _ => simp [layeredPlan, queryPlan] at hi

/-- A host whose doubles are never computed with. -/
def blankDoubles : Doubles where
  ofLong _ := .nan
  parseLong _ := none
  parseDouble _ := none
  add a _ := a
  sub a _ := a
  mul a _ := a
  div a _ := a
  lt _ _ := false
  le _ _ := false
  str _ := ""

/-- One fact, under the predicate `b`. -/
def oneFactDb : Db :=
  [(tripleRelation, [[.atom (.int 1), .atom (.keyword ⟨"b"⟩), .atom (.int 2)]])]

/-- **A plan whose third stratum derives what its second one negates is accepted**, and a run
over one fact ends with a tuple that the negated literal found absent. -/
theorem rederiving_plan_accepted : validatePlan (fun _ _ => true) 100000 rederivingPlan = [] ∧
      ¬NegatedBelow rederivingPlan.strata ∧ ¬NegationSettled rederivingPlan.strata := by
  refine ⟨by decide, ?_, ?_⟩
  · intro hb
    rcases hb 1 [subjectsOf "q" "b" [negatedLiteral "p" [subjectVar]]] rfl "p" (by decide) with
      hba | hlow
    · exact absurd hba (by decide)
    · exact absurd (hlow 2 [subjectsOf "p" "b" []] rfl (by decide)) (by omega)
  · intro hs
    have hlo : runStrataFrom blankDoubles none 9 [] (rederivingPlan.strata.take 1) oneFactDb 0 =
        .ok (⟨oneFactDb ++ [("p", [])], none⟩, 0) := by decide
    have hrun : runStrataDb blankDoubles none 9 oneFactDb rederivingPlan.strata [] =
        .ok ⟨oneFactDb ++ [("p", [[.atom (.int 1)]]), ("q", [[.atom (.int 1)]])], none⟩ := by
      decide
    have habs := (hs blankDoubles none 9 oneFactDb _ [] hrun 1 _ rfl "p" (by decide) _ _
      (Tested.seeding rfl hlo)).1 [.atom (.int 1)] (by decide)
    exact absurd habs (by decide)

end Beagle.Query
