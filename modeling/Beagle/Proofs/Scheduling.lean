/-
What a run of the rule scheduler leaves behind.

The evidence of a run is a log: each record stands for one evaluation, on the facts
known before it, and names what that evaluation added.  A rule that is not on the
worklist was evaluated after the last change, so an empty worklist leaves facts that
are closed under all rules; and facts of a log of monotone rules lie in every closed
set over the initial facts.
-/
import Beagle.Lib.Digits
import Beagle.Native.RuleScheduler

namespace Beagle.RuleScheduler

open List

/-! ### Identities -/

variable {f : RuleFact}

theorem factIdentity_injective {f' : RuleFact} (h : factIdentity f = factIdentity f') : f = f' := by
  unfold factIdentity at h
  obtain ⟨hrel, h⟩ := Lib.Digits.framed_inj h
  obtain ⟨hkey, h⟩ := Lib.Digits.framed_inj h
  have hpay : toString f.payload.utf8ByteSize ++ ":" ++ f.payload ++ "" =
      toString f'.payload.utf8ByteSize ++ ":" ++ f'.payload ++ "" := by rw [h]
  cases f
  cases f'
  rw [RuleFact.mk.injEq]
  exact ⟨hrel, hkey, (Lib.Digits.framed_inj hpay).1⟩

theorem factKnown_iff {facts : List RuleFact} : factKnown facts f = true ↔ f ∈ facts := by
  unfold factKnown
  rw [any_eq_true]
  constructor
  · rintro ⟨g, hg, hs⟩
    rw [factIdentity_injective (beq_iff_eq.mp hs)]
    exact hg
  · intro hf
    exact ⟨f, hf, beq_self_eq_true _⟩

theorem mem_factIdentities {facts : List RuleFact} :
    factIdentity f ∈ facts.map factIdentity ↔ f ∈ facts := by
  rw [mem_map]
  constructor
  · rintro ⟨g, hg, hs⟩
    rw [← factIdentity_injective hs]
    exact hg
  · intro hf
    exact ⟨f, hf, rfl⟩

theorem nodup_factIdentities {facts : List RuleFact} (h : facts.Nodup) :
    (facts.map factIdentity).Nodup := h.map fun _ _ => factIdentity_injective

/-! ### Lists without repetitions -/

/-- Appending what is new keeps a list free of repetitions and loses nothing. -/
theorem foldl_insert {α : Type} [DecidableEq α] (xs sn : List α) (hs : sn.Nodup) :
    (xs.foldl (fun sn x => if x ∈ sn then sn else sn ++ [x]) sn).Nodup ∧
      ∀ x, x ∈ xs.foldl (fun sn x => if x ∈ sn then sn else sn ++ [x]) sn ↔ x ∈ sn ∨ x ∈ xs := by
  induction xs generalizing sn with
  | nil => exact ⟨hs, fun x => by simp⟩
  | cons y ys ih =>
    rw [foldl_cons]
    by_cases hy : y ∈ sn
    · rw [if_pos hy]
      obtain ⟨hnd, hmem⟩ := ih sn hs
      refine ⟨hnd, ?_⟩
      intro x
      rw [hmem, mem_cons]
      constructor
      · rintro (h | h)
        · exact Or.inl h
        · exact Or.inr (Or.inr h)
      · rintro (h | rfl | h)
        · exact Or.inl h
        · exact Or.inl hy
        · exact Or.inr h
    · rw [if_neg hy]
      have hnew : (sn ++ [y]).Nodup := by
        refine nodup_append.mpr ⟨hs, nodup_singleton y, ?_⟩
        intro a ha b hb
        rw [mem_singleton.mp hb]
        exact fun hab => hy (hab ▸ ha)
      obtain ⟨hnd, hmem⟩ := ih (sn ++ [y]) hnew
      refine ⟨hnd, ?_⟩
      intro x
      rw [hmem, List.mem_append, mem_singleton, mem_cons, or_assoc]

theorem dedupeFacts_spec (facts : List RuleFact) :
    (dedupeFacts facts).Nodup ∧ ∀ f, f ∈ dedupeFacts facts ↔ f ∈ facts := by
  have hs : dedupeFacts facts = facts.foldl (fun sn x => if x ∈ sn then sn else sn ++ [x]) [] := by
    unfold dedupeFacts
    congr 1
    funext sn f
    simp only [factKnown_iff]
  obtain ⟨hnd, hmem⟩ := foldl_insert facts [] nodup_nil
  rw [hs]
  exact ⟨hnd, fun f => by rw [hmem]; simp⟩

theorem mem_enqueueAllRules {c : Nat} (worklist : List (Fin c)) (i : Fin c) :
    i ∈ enqueueAllRules worklist := by
  unfold enqueueAllRules
  have hk : ∀ (xs seen : List (Fin c)), (i ∈ seen ∨ i ∈ xs) →
      i ∈ xs.foldl (fun q i => if i ∈ q then q else q ++ [i]) seen := by
    intro xs
    induction xs with
    | nil =>
      intro seen h
      rcases h with h | h
      · exact h
      · exact absurd h not_mem_nil
    | cons x xs ih =>
      intro seen h
      rw [foldl_cons]
      refine ih _ ?_
      by_cases hx : x ∈ seen
      · rw [if_pos hx]
        rcases h with h | h
        · exact Or.inl h
        · rcases mem_cons.mp h with rfl | h
          · exact Or.inl hx
          · exact Or.inr h
      · rw [if_neg hx, List.mem_append, mem_singleton]
        rcases h with h | h
        · exact Or.inl (Or.inl h)
        · rcases mem_cons.mp h with rfl | h
          · exact Or.inl (Or.inr rfl)
          · exact Or.inr h
  exact hk _ _ (Or.inr (mem_finRange i))

/-! ### Merging -/

/-- What a merge adds: new facts, of those produced, in order; all of them, unless it fails. -/
structure Merges (known produced added : List RuleFact) (merged : FactMerge) : Prop where
  facts : merged.facts = known ++ added
  identities : merged.addedIdentities = added.map factIdentity
  among : ∀ f ∈ added, f ∈ produced
  nodup : known.Nodup → (known ++ added).Nodup
  complete : merged.invalidFact = none → ∀ f ∈ produced, f ∈ known ++ added

theorem mergeFrom_spec (allowed : List String) (produced : List RuleFact) :
    ∀ (facts : List RuleFact) (ids : List String), ∃ added,
      (mergeFrom allowed produced facts ids).facts = facts ++ added ∧
      (mergeFrom allowed produced facts ids).addedIdentities = ids ++ added.map factIdentity ∧
      (∀ f ∈ added, f ∈ produced) ∧ (facts.Nodup → (facts ++ added).Nodup) ∧
      ((mergeFrom allowed produced facts ids).invalidFact = none →
        ∀ f ∈ produced, f ∈ facts ++ added) := by
  induction produced with
  | nil =>
    intro facts ids
    refine ⟨[], ?_, ?_, ?_, ?_, ?_⟩
    · exact (append_nil _).symm
    · exact (append_nil _).symm
    · exact fun f hf => hf
    · exact fun h => by rw [append_nil]; exact h
    · exact fun _ f hf => absurd hf not_mem_nil
  | cons g produced ih =>
    intro facts ids
    rw [mergeFrom]
    by_cases hall : (!allowed.contains g.relation) = true
    · rw [if_pos hall]
      refine ⟨[], ?_, ?_, ?_, ?_, ?_⟩
      · exact (append_nil _).symm
      · exact (append_nil _).symm
      · exact forall_mem_nil _
      · exact fun h => by rw [append_nil]; exact h
      · exact fun h => absurd h (by simp)
    · rw [if_neg hall]
      by_cases hknown : factKnown facts g = true
      · rw [if_pos hknown]
        obtain ⟨added, h1, h2, h3, h4, h5⟩ := ih facts ids
        refine ⟨added, h1, h2, fun f hf => mem_cons_of_mem _ (h3 f hf), h4, ?_⟩
        intro hnone f hf
        rcases mem_cons.mp hf with rfl | hf
        · exact mem_append_left _ (factKnown_iff.mp hknown)
        · exact h5 hnone f hf
      · rw [if_neg hknown]
        obtain ⟨added, h1, h2, h3, h4, h5⟩ := ih (facts ++ [g]) (ids ++ [factIdentity g])
        have hassoc : facts ++ [g] ++ added = facts ++ (g :: added) := by simp
        have hfresh : g ∉ facts := fun hg => hknown (factKnown_iff.mpr hg)
        refine ⟨g :: added, h1.trans hassoc, h2.trans (by simp), ?_, ?_, ?_⟩
        · intro f hf
          rcases mem_cons.mp hf with rfl | hf
          · exact mem_cons_self
          · exact mem_cons_of_mem _ (h3 f hf)
        · intro hnd
          rw [← hassoc]
          refine h4 (nodup_append.mpr ⟨hnd, nodup_singleton g, ?_⟩)
          intro a ha b hb
          rw [mem_singleton.mp hb]
          exact fun hab => hfresh (hab ▸ ha)
        · intro hnone f hf
          rw [← hassoc]
          rcases mem_cons.mp hf with rfl | hf
          · simp
          · exact h5 hnone f hf

theorem mergeRuleFacts_spec (ks p : List RuleFact) (a : List String) :
    ∃ ad, Merges ks p ad (mergeRuleFacts ks p a) := by
  obtain ⟨ad, h1, h2, h3, h4, h5⟩ := mergeFrom_spec a p ks []
  exact ⟨ad, h1, h2, h3, h4, h5⟩

/-! ### The log of a run -/

/-- The facts that an evaluation gives. -/
def RuleEvaluation.facts : RuleEvaluation → List RuleFact
  | .produced facts => facts
  | .rejected _ => []

namespace FixedPointResult

def facts : FixedPointResult → List RuleFact
  | reached facts _ _ => facts
  | boundReached facts _ _ _ => facts
  | failed facts _ _ _ => facts

def evidence : FixedPointResult → List RuleEvidence
  | reached _ evidence _ => evidence
  | boundReached _ evidence _ _ => evidence
  | failed _ evidence _ _ => evidence

/-- The number of evaluations. -/
def steps : FixedPointResult → Nat
  | reached _ _ steps => steps
  | boundReached _ _ steps _ => steps
  | failed _ _ steps _ => steps

end FixedPointResult

variable {initialFacts : List RuleFact} {rs : List RuleSpec} {ev : RuleEvaluator}

/-- The step numbered `evidence.length`, on the facts known before it. -/
structure Step (rules : List RuleSpec) (evaluate : RuleEvaluator) (known : List RuleFact)
    (step : Nat) (added : List RuleFact) (record : RuleEvidence) : Prop where
  rule : ∃ rule ∈ rules, record = ⟨step, rule.id, factIdentities (ruleInputFacts rule known),
      added.map factIdentity⟩ ∧
    ∀ f ∈ added, f ∈ (evaluate rule (ruleInputFacts rule known)).facts
  nodup : known.Nodup → (known ++ added).Nodup

/-- The facts that are known after some steps, and the records of the steps. -/
inductive Logged (initialFacts : List RuleFact) (rules : List RuleSpec) (evaluate : RuleEvaluator) :
    List RuleFact → List RuleEvidence → Prop
  | start : Logged initialFacts rules evaluate (dedupeFacts initialFacts) []
  | step {known added : List RuleFact} {evidence : List RuleEvidence} {record : RuleEvidence}
      (before : Logged initialFacts rules evaluate known evidence)
      (taken : Step rules evaluate known evidence.length added record) :
      Logged initialFacts rules evaluate (known ++ added) (evidence ++ [record])

/-- A set of facts is closed when no rule gives a fact outside it. -/
def Closed (rules : List RuleSpec) (evaluate : RuleEvaluator) (facts : List RuleFact) : Prop :=
  ∀ rule ∈ rules, ∀ f ∈ (evaluate rule (ruleInputFacts rule facts)).facts, f ∈ facts

/-- On more facts the rules give no fewer. -/
def Monotone (rules : List RuleSpec) (evaluate : RuleEvaluator) : Prop :=
  ∀ rule ∈ rules, ∀ xs ys : List RuleFact, (∀ f ∈ xs, f ∈ ys) →
    ∀ f ∈ (evaluate rule xs).facts, f ∈ (evaluate rule ys).facts

theorem mem_ruleInputFacts {r : RuleSpec} {facts : List RuleFact} :
    f ∈ ruleInputFacts r facts ↔ f ∈ facts ∧ f.relation ∈ r.inputRelations := by
  unfold ruleInputFacts
  rw [mem_filter, contains_iff_mem]

namespace Logged

variable {facts : List RuleFact} {evidence : List RuleEvidence}
  (h : Logged initialFacts rs ev facts evidence)
include h

theorem nodup : facts.Nodup := by
  induction h with
  | start => exact (dedupeFacts_spec initialFacts).1
  | step _ tk ih => exact tk.nodup ih

theorem initial {f : RuleFact} (hf : f ∈ initialFacts) : f ∈ facts := by
  induction h with
  | start => exact ((dedupeFacts_spec initialFacts).2 f).mpr hf
  | step _ _ ih => exact mem_append_left _ ih

/-- **What monotone rules derive lies in every closed set over the initial facts.** -/
theorem least (hm : Monotone rs ev) {other : List RuleFact}
    (hin : ∀ f ∈ initialFacts, f ∈ other) (hcl : Closed rs ev other) :
    ∀ f ∈ facts, f ∈ other := by
  induction h with
  | start =>
    intro f hf
    exact hin f (((dedupeFacts_spec initialFacts).2 f).mp hf)
  | @step ks a evidence rc _ tk ih =>
    obtain ⟨r, hr, -, hadd⟩ := tk.rule
    have hi : ∀ f ∈ ruleInputFacts r ks, f ∈ ruleInputFacts r other := by
      intro f hf
      rw [mem_ruleInputFacts] at hf ⊢
      exact ⟨ih f hf.1, hf.2⟩
    intro f hf
    rcases List.mem_append.mp hf with hf | hf
    · exact ih f hf
    · exact hcl r hr f (hm r hr _ _ hi f (hadd f hf))

/-- What a record names is known. -/
theorem known_of_named {rc : RuleEvidence} (hrec : rc ∈ evidence) {f : RuleFact}
    (hf : factIdentity f ∈ rc.addedIdentities) : f ∈ facts := by
  induction h with
  | start => exact absurd hrec not_mem_nil
  | step _ tk ih =>
    obtain ⟨r, -, hl, -⟩ := tk.rule
    rcases List.mem_append.mp hrec with hrec | hrec
    · exact mem_append_left _ (ih hrec)
    · rw [mem_singleton.mp hrec, hl] at hf
      exact mem_append_right _ (mem_factIdentities.mp hf)

omit h

/-- `f` was added by step `k`, and is named in the record of that step alone. -/
def AddedAt (initialFacts : List RuleFact) (rules : List RuleSpec) (evaluate : RuleEvaluator)
    (evidence : List RuleEvidence) (f : RuleFact) (k : Nat) : Prop :=
  ∃ known added record, Logged initialFacts rules evaluate known (evidence.take k) ∧
    evidence[k]? = some record ∧ Step rules evaluate known k added record ∧ f ∈ added ∧ f ∉ known ∧
    ∀ j other, evidence[j]? = some other → factIdentity f ∈ other.addedIdentities → j = k

/-- **Every fact that is not initial was added by one step and is named by its record alone.** -/
theorem added (h : Logged initialFacts rs ev facts evidence) {f : RuleFact}
    (hf : f ∈ facts) (hnew : f ∉ initialFacts) :
    ∃ k, AddedAt initialFacts rs ev evidence f k := by
  induction h with
  | start => exact absurd (((dedupeFacts_spec initialFacts).2 f).mp hf) hnew
  | @step known added evidence rc b tk ih =>
    have hnd := tk.nodup b.nodup
    obtain ⟨r, -, hrec, -⟩ := tk.rule
    have hl : ∀ {g : RuleFact}, factIdentity g ∈ rc.addedIdentities → g ∈ added := by
      intro g hg
      rw [hrec] at hg
      exact mem_factIdentities.mp hg
    have hap : f ∈ known → f ∉ added :=
      fun hk ha => (nodup_append.mp hnd).2.2 f hk f ha rfl
    have hat : ∀ {j o}, (evidence ++ [rc])[j]? = some o →
        evidence[j]? = some o ∨ (j = evidence.length ∧ o = rc) := by
      intro j o hj
      rw [getElem?_append] at hj
      by_cases hlt : j < evidence.length
      · rw [if_pos hlt] at hj
        exact Or.inl hj
      · rw [if_neg hlt] at hj
        obtain ⟨hz, ho⟩ := List.getElem?_eq_some_iff.mp hj
        have hj0 : j - evidence.length = 0 := by simpa using hz
        refine Or.inr ⟨by omega, ?_⟩
        rw [← ho]
        simp [hj0]
    rcases List.mem_append.mp hf with hk | ha
    · -- named by an earlier record, and not by the last
      obtain ⟨k, ks', a', rc', hlog, hget, hs, hmem, hfr, hu⟩ := ih hk
      have hlt : k < evidence.length := (List.getElem?_eq_some_iff.mp hget).1
      refine ⟨k, ks', a', rc', ?_, ?_, hs, hmem, hfr, ?_⟩
      · rw [take_append_of_le_length (Nat.le_of_lt hlt)]
        exact hlog
      · rw [getElem?_append_left hlt]
        exact hget
      · intro j o hj hn
        rcases hat hj with hj | ⟨-, rfl⟩
        · exact hu j o hj hn
        · exact absurd (hl hn) (hap hk)
    · -- named by the last record, and not by an earlier one
      have hfr : f ∉ known := fun hk => hap hk ha
      refine ⟨evidence.length, known, added, rc, ?_, ?_, tk, ha, hfr, ?_⟩
      · rw [take_left]
        exact b
      · simp
      · intro j o hj hn
        rcases hat hj with hj | ⟨hj, -⟩
        · exact absurd (b.known_of_named (mem_of_getElem? hj) hn) hfr
        · exact hj

end Logged

/-! ### Runs -/

/-- Where a run stands: its facts are logged, and a rule off the worklist gives nothing new. -/
structure Standing (initialFacts : List RuleFact) (rules : List RuleSpec) (evaluate : RuleEvaluator)
    (known : List RuleFact) (worklist : List (Fin rules.length)) (evidence : List RuleEvidence)
    (steps : Nat) : Prop where
  logged : Logged initialFacts rules evaluate known evidence
  steps_eq : evidence.length = steps
  settled : ∀ i, i ∉ worklist →
    ∀ f ∈ (evaluate (rules.get i) (ruleInputFacts (rules.get i) known)).facts, f ∈ known

/-- How a run ends. -/
structure Ends (initialFacts : List RuleFact) (rules : List RuleSpec) (evaluate : RuleEvaluator)
    (bound : Nat) (result : FixedPointResult) : Prop where
  logged : Logged initialFacts rules evaluate result.facts result.evidence
  evidence_le : result.evidence.length ≤ result.steps
  steps_le : result.steps ≤ bound
  closed : ∀ facts evidence steps, result = .reached facts evidence steps →
    Closed rules evaluate facts

/-- One evaluation that is merged. -/
theorem Standing.step {ks : List RuleFact} {w : List (Fin rs.length)}
    {evidence : List RuleEvidence} {ss : Nat}
    (h : Standing initialFacts rs ev ks w evidence ss)
    (i : Fin rs.length) {p a : List RuleFact}
    (he : ev (rs.get i) (ruleInputFacts (rs.get i) ks) = .produced p)
    {md : FactMerge} (hm : Merges ks p a md) :
    Logged initialFacts rs ev md.facts (evidence ++ [⟨ss, (rs.get i).id,
        factIdentities (ruleInputFacts (rs.get i) ks), md.addedIdentities⟩]) := by
  rw [hm.facts]
  refine h.logged.step ⟨⟨rs.get i, get_mem rs i, ?_, ?_⟩, hm.nodup⟩
  · rw [h.steps_eq, hm.identities]
  · intro f hf
    rw [he]
    exact hm.among f hf

variable {ss : Nat}

/-- An empty worklist ends a run at a closed set. -/
theorem Standing.done {ks : List RuleFact} {evidence : List RuleEvidence}
    (h : Standing initialFacts rs ev ks [] evidence ss) (b : Nat)
    (hb : ss ≤ b) :
    Ends initialFacts rs ev b (.reached ks evidence ss) := by
  refine ⟨h.logged, Nat.le_of_eq h.steps_eq, hb, ?_⟩
  intro facts ev' ss' hr
  cases hr
  intro r hru
  obtain ⟨i, rfl⟩ := mem_iff_get.mp hru
  exact h.settled i not_mem_nil

/-- The worklist after a merge holds every rule that may give something new. -/
theorem Standing.settled_step {known : List RuleFact} {evidence : List RuleEvidence}
    {i : Fin rs.length} {rm : List (Fin rs.length)}
    (h : Standing initialFacts rs ev known (i :: rm) evidence ss)
    {p a : List RuleFact}
    (he : ev (rs.get i) (ruleInputFacts (rs.get i) known) = .produced p)
    {md : FactMerge} (hm : Merges known p a md)
    (hv : md.invalidFact = none) :
    ∀ j, j ∉ (if md.addedIdentities.isEmpty then rm else enqueueAllRules rm) →
      ∀ f ∈ (ev (rs.get j) (ruleInputFacts (rs.get j) md.facts)).facts, f ∈ md.facts := by
  intro j hj
  by_cases hemp : md.addedIdentities.isEmpty = true
  · have hadd : a = [] := by
      rw [hm.identities, List.isEmpty_iff, map_eq_nil_iff] at hemp
      exact hemp
    have hs : md.facts = known := by rw [hm.facts, hadd, append_nil]
    rw [if_pos hemp] at hj
    rw [hs]
    by_cases hji : j = i
    · subst hji
      rw [he]
      intro f hf
      have := hm.complete hv f hf
      rwa [hadd, append_nil] at this
    · exact h.settled j fun hmem => (mem_cons.mp hmem).elim hji hj
  · rw [if_neg hemp] at hj
    exact absurd (mem_enqueueAllRules rm j) hj

/-- **A run ends within its bound, with a log, and closed when it reaches an end.** -/
theorem runFrom_ends {ms : Int} (b : Nat) :
    ∀ (ks : List RuleFact) (w : List (Fin rs.length)) (evidence : List RuleEvidence)
      (ss : Nat), Standing initialFacts rs ev ks w evidence ss →
      Ends initialFacts rs ev (ss + b) (runFrom rs ms ev b ks w evidence ss) := by
  induction b with
  | zero =>
    intro ks w evidence ss h
    cases w with
    | nil => exact h.done _ (Nat.le_refl _)
    | cons i rm =>
      refine ⟨h.logged, Nat.le_of_eq h.steps_eq, Nat.le_refl _, ?_⟩
      intro facts ev' ss' hr
      cases hr
  | succ b ih =>
    intro ks w evidence ss h
    cases w with
    | nil => exact h.done _ (Nat.le_add_right _ _)
    | cons i rm =>
      have hle : ss + 1 ≤ ss + (b + 1) := by omega
      rw [runFrom]
      cases hev : ev (rs.get i) (ruleInputFacts (rs.get i) ks) with
      | rejected e =>
        refine ⟨h.logged, Nat.le_succ_of_le (Nat.le_of_eq h.steps_eq), hle, ?_⟩
        intro facts ev' ss' hr
        cases hr
      | produced produced =>
        obtain ⟨a, hm⟩ :=
          mergeRuleFacts_spec ks produced (rs.get i).outputRelations
        have hlog := h.step i hev hm
        have hlen : (evidence ++ [(⟨ss, (rs.get i).id,
            factIdentities (ruleInputFacts (rs.get i) ks),
            (mergeRuleFacts ks produced
              (rs.get i).outputRelations).addedIdentities⟩ : RuleEvidence)]).length =
            ss + 1 := by
          rw [length_append, h.steps_eq]
          rfl
        cases hinv : (mergeRuleFacts ks produced (rs.get i).outputRelations).invalidFact with
        | some inv =>
          simp only [hinv]
          refine ⟨hlog, Nat.le_of_eq hlen, hle, ?_⟩
          intro facts ev' ss' hr
          cases hr
        | none =>
          simp only [hinv]
          have he := ih _ _ _ _ ⟨hlog, hlen, h.settled_step hev hm hinv⟩
          rw [Nat.add_assoc, Nat.add_comm 1 b] at he
          exact he

theorem duplicateRule_none {p : List String} (hnd : (p ++ rs.map RuleSpec.id).Nodup) :
    duplicateRule p rs = none := by
  induction rs generalizing p with
  | nil => rfl
  | cons r rs ih =>
    have hf : p.contains r.id = false := by
      rw [contains_eq_mem, decide_eq_false_iff_not]
      intro hmem
      exact (nodup_append.mp hnd).2.2 _ hmem _ mem_cons_self rfl
    rw [duplicateRule, hf]
    refine ih ?_
    rw [append_assoc]
    exact hnd

/-- A run of rules with distinct ids under a bound that is not negative. -/
theorem runToFixedPoint_ends {ms : Int} (hb : 0 ≤ ms) (hids : (rs.map RuleSpec.id).Nodup) :
    Ends initialFacts rs ev ms.toNat (runToFixedPoint initialFacts rs ms ev) := by
  unfold runToFixedPoint
  rw [if_neg (Int.not_lt.mpr hb), duplicateRule_none hids]
  have he := @runFrom_ends initialFacts rs ev ms ms.toNat
    (dedupeFacts initialFacts) (enqueueAllRules []) [] 0
    ⟨Logged.start, rfl, fun i hi => absurd (mem_enqueueAllRules [] i) hi⟩
  rw [Nat.zero_add] at he
  exact he

/-- What a run accounts for, however it ends. -/
structure Accounted (initialFacts : List RuleFact) (rules : List RuleSpec)
    (evaluate : RuleEvaluator) (maxSteps : Int) (result : FixedPointResult) : Prop where
  named : ∀ f ∈ result.facts, f ∉ initialFacts →
    ∃ k, Logged.AddedAt initialFacts rules evaluate result.evidence f k
  evidence_le : (result.evidence.length : Int) ≤ maxSteps
  evaluations_le : (result.steps : Int) ≤ maxSteps

/-- What a run that reaches an end has computed. -/
structure ReachesLeast (initialFacts : List RuleFact) (rules : List RuleSpec)
    (evaluate : RuleEvaluator) (facts : List RuleFact) : Prop where
  distinct : (facts.map factIdentity).Nodup
  initial : ∀ f ∈ initialFacts, f ∈ facts
  closed : Closed rules evaluate facts
  least : Monotone rules evaluate → ∀ other : List RuleFact, (∀ f ∈ initialFacts, f ∈ other) →
    Closed rules evaluate other → ∀ f ∈ facts, f ∈ other
  /-- The order of the rules and of the initial facts makes no difference. -/
  orderless : Monotone rules evaluate → ∀ (initialFacts' : List RuleFact) (rules' : List RuleSpec)
    (maxSteps' : Int) (facts' : List RuleFact) (evidence' : List RuleEvidence) (steps' : Nat),
    initialFacts'.Perm initialFacts → rules'.Perm rules →
    runToFixedPoint initialFacts' rules' maxSteps' evaluate = .reached facts' evidence' steps' →
    ∀ f, f ∈ facts' ↔ f ∈ facts

/-- A bound below zero reaches no end. -/
theorem bound_of_reached {maxSteps : Int} {facts : List RuleFact} {evidence : List RuleEvidence}
   
    (h : runToFixedPoint initialFacts rs maxSteps ev = .reached facts evidence ss) :
    0 ≤ maxSteps := by
  by_cases hneg : maxSteps < 0
  · unfold runToFixedPoint at h
    rw [if_pos hneg] at h
    cases h
  · exact Int.not_lt.mp hneg

/-- **Every run is accounted for, and a run that reaches an end has computed the least closed set.** -/
theorem fixed_point_is_least (initialFacts : List RuleFact) (rules : List RuleSpec) (maxSteps : Int)
    (evaluate : RuleEvaluator) (hbound : 0 ≤ maxSteps) (hids : (rules.map RuleSpec.id).Nodup) :
    Accounted initialFacts rules evaluate maxSteps
        (runToFixedPoint initialFacts rules maxSteps evaluate) ∧
      ∀ facts evidence steps,
        runToFixedPoint initialFacts rules maxSteps evaluate = .reached facts evidence steps →
        ReachesLeast initialFacts rules evaluate facts := by
  have he := @runToFixedPoint_ends initialFacts rules evaluate maxSteps hbound hids
  have hc : ((maxSteps.toNat : Nat) : Int) = maxSteps := Int.toNat_of_nonneg hbound
  refine ⟨⟨fun f hf hnew => he.logged.added hf hnew, ?_, ?_⟩, ?_⟩
  · have := he.evidence_le
    have := he.steps_le
    omega
  · have := he.steps_le
    omega
  intro facts evidence steps hre
  have hlog := he.logged
  rw [hre] at hlog
  have hcl := he.closed facts evidence steps hre
  refine ⟨nodup_factIdentities hlog.nodup, fun f => hlog.initial, hcl,
    fun hm o => hlog.least hm, ?_⟩
  intro hm initialFacts' rs' ms' fs' ev' ss' hfa hr hr'
  have hids' : (rs'.map RuleSpec.id).Nodup := (hr.map RuleSpec.id).nodup_iff.mpr hids
  have he' := @runToFixedPoint_ends initialFacts' rs' evaluate ms' (bound_of_reached hr') hids'
  have hlog' := he'.logged
  rw [hr'] at hlog'
  have hcl' := he'.closed fs' ev' ss' hr'
  intro f
  constructor
  · -- the permuted run lies in the first, which is closed under the same rules
    refine hlog'.least (fun r hru => hm r (hr.mem_iff.mp hru)) ?_ ?_ f
    · exact fun g hg => hlog.initial (hfa.mem_iff.mp hg)
    · exact fun r hru => hcl r (hr.mem_iff.mp hru)
  · refine hlog.least hm ?_ ?_ f
    · exact fun g hg => hlog'.initial (hfa.mem_iff.mpr hg)
    · exact fun r hru => hcl' r (hr.mem_iff.mpr hru)

/-- A rule that copies the facts of one relation to another. -/
def copyRule : RuleSpec := ⟨"copy", ["a"], ["b"], ⟨"rules", 0, 1, 1, 0⟩⟩

def copyFacts : RuleEvaluator := fun _ inputs =>
  .produced (inputs.map fun fact => { fact with relation := "b" })

theorem copied_facts_are_least :
    ReachesLeast [⟨"a", "k", "p"⟩] [copyRule] copyFacts [⟨"a", "k", "p"⟩, ⟨"b", "k", "p"⟩] :=
  (fixed_point_is_least [⟨"a", "k", "p"⟩] [copyRule] 4 copyFacts (by decide) (by decide)).2 _ _ _ rfl

end Beagle.RuleScheduler
