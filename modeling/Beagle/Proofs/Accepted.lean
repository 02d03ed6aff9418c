/-
The search for recursive relations finds every one.

The search from a relation keeps, as long as it has not met its target, that each
relation it has expanded has all its successors expanded or queued.  Every relation is
expanded once, so the bound on the steps is never reached, and when the queue is empty
what was expanded is closed: the target is not reached.

What validation promises of the rules of a plan.

The checks of a body walk it with the variables bound so far, and the evaluation
walks it the same way, so that what the checks let pass can be evaluated: relations
take the arguments they are given, and comparisons, builtins, negated literals and
heads find their variables bound.
-/
import Beagle.Proofs.Rounds

namespace Beagle.Query

section

open Beagle.Lib List

/-- A rule for the first relation reads the second positively. -/
def Depends (rules : List Rule) (relation other : String) : Prop :=
  ∃ rule ∈ rules, rule.headRelation = relation ∧ other ∈ positiveRelations rule

/-- The successors of a relation. -/
def successors (edges : List (String × List String)) (relation : String) : List String :=
  (nameLike.get edges relation).getD []

theorem mem_successors {rs : List Rule} {relation other : String} :
    other ∈ successors (dependencyEdges rs) relation ↔ Depends rs relation other := by
  have hf : ∀ (r : List Rule) (es : List (String × List String)),
      other ∈ successors (r.foldl (fun acc rule => nameLike.set acc rule.headRelation
        (((nameLike.get acc rule.headRelation).getD []) ++ positiveRelations rule)) es) relation ↔
      other ∈ successors es relation ∨ Depends r relation other := by
    intro r
    induction r with
    | nil => intro es; simp [Depends]
    | cons rule r ih =>
      intro es
      rw [foldl_cons, ih]
      have hset : other ∈ successors (nameLike.set es rule.headRelation
          (((nameLike.get es rule.headRelation).getD []) ++ positiveRelations rule)) relation ↔
          other ∈ successors es relation ∨
            rule.headRelation = relation ∧ other ∈ positiveRelations rule := by
        unfold successors
        rw [nameLike.get_set]
        by_cases h : rule.headRelation = relation
        · subst h
          simp [nameLike]
        · simp [nameLike, h]
      rw [hset, or_assoc]
      simp [Depends]
  unfold dependencyEdges
  rw [hf]
  simp [successors, Likeness.get]

section

variable {t : String} {es : List (String × List String)}

/-- How many successors the relations that are not expanded yet have. -/
def unexpanded (seen : List String) : List (String × List String) → Nat
  | [] => 0
  | edge :: rest => (if edge.1 ∈ seen then 0 else edge.2.length) + unexpanded seen rest

theorem unexpanded_cons_le {sn : List String} {c : String} :
    unexpanded (c :: sn) es ≤ unexpanded sn es := by
  induction es with
  | nil => exact Nat.le_refl _
  | cons e os ih =>
    unfold unexpanded
    by_cases hmem : e.1 ∈ sn
    · rw [if_pos hmem, if_pos (by simp [hmem])]
      omega
    · rw [if_neg hmem]
      split <;> omega

theorem successors_cons (e : String × List String) (os : List (String × List String))
    (relation : String) : successors (e :: os) relation =
      if e.1 = relation then e.2 else successors os relation := by
  unfold successors
  rw [nameLike.get_cons]
  by_cases h : e.1 = relation <;> simp [nameLike, h]

theorem unexpanded_expand {sn : List String} {c : String} (h : c ∉ sn) :
    unexpanded (c :: sn) es + (successors es c).length ≤ unexpanded sn es := by
  induction es with
  | nil => simp [unexpanded, successors, Likeness.get]
  | cons e os ih =>
    rw [successors_cons]
    unfold unexpanded
    by_cases hcur : e.1 = c
    · have hr := @unexpanded_cons_le os sn c
      rw [if_pos hcur, if_pos (by simp [hcur]), if_neg (by rw [hcur]; exact h)]
      omega
    · rw [if_neg hcur]
      by_cases hmem : e.1 ∈ sn
      · rw [if_pos hmem, if_pos (by simp [hmem])]
        omega
      · rw [if_neg hmem, if_neg (by simp [hmem, hcur])]
        omega

theorem unexpanded_nil : unexpanded [] es = (es.map fun e => e.2.length).sum := by
  induction es with
  | nil => rfl
  | cons e os ih =>
    unfold unexpanded
    rw [if_neg (by simp), ih, map_cons, sum_cons]

theorem length_successors_le (relation : String) :
    (successors es relation).length ≤ (es.map fun e => e.2.length).sum := by
  induction es with
  | nil => simp [successors, Likeness.get]
  | cons e os ih =>
    rw [successors_cons, map_cons, sum_cons]
    split <;> omega

theorem length_dedup_le (ns : List String) : ns.dedup.length ≤ ns.length :=
  (dedup_sublist ns).length_le

/-- A search that does not meet its target leaves a closed set behind, without it. -/
theorem reachesFrom_closed : ∀ (fuel : Nat) (q seen : List String),
    q.length + unexpanded seen es < fuel → t ∉ seen →
      (∀ n ∈ seen, ∀ next ∈ successors es n, next ∈ seen ∨ next ∈ q) →
      reachesFrom t es fuel q seen = false →
      ∃ closed : List String, (∀ n ∈ seen, n ∈ closed) ∧ (∀ n ∈ q, n ∈ closed) ∧
        t ∉ closed ∧ ∀ n ∈ closed, ∀ next ∈ successors es n, next ∈ closed := by
  intro fuel
  induction fuel with
  | zero => intro q seen hfu; omega
  | succ fuel ih =>
    intro q seen hfu htgt hcl hf
    cases q with
    | nil =>
      refine ⟨seen, fun _ h => h, by simp, htgt, fun n hname next hn => ?_⟩
      exact (hcl n hname next hn).resolve_right (by simp)
    | cons c r =>
      unfold reachesFrom at hf
      by_cases hmet : c = t
      · rw [if_pos hmet] at hf
        simp at hf
      rw [if_neg hmet] at hf
      rw [length_cons] at hfu
      cases hs : seen.contains c with
      | true =>
        rw [if_pos hs] at hf
        have hmem : c ∈ seen := by simpa using hs
        obtain ⟨closed, h1, h2, h3, h4⟩ := ih r seen (by omega) htgt (fun n hname next hn => by
            rcases hcl n hname next hn with h | h
            · exact Or.inl h
            · rcases mem_cons.mp h with rfl | h
              · exact Or.inl hmem
              · exact Or.inr h) hf
        refine ⟨closed, h1, fun n hname => ?_, h3, h4⟩
        rcases mem_cons.mp hname with rfl | h
        · exact h1 _ hmem
        · exact h2 n h
      | false =>
        rw [if_neg (by simpa using hs)] at hf
        have hb := @unexpanded_expand es seen c (by simpa using hs)
        have hd := length_dedup_le (successors es c)
        have hf' : (r ++ (successors es c).dedup).length + unexpanded (c :: seen) es < fuel := by
          rw [length_append]
          omega
        obtain ⟨closed, h1, h2, h3, h4⟩ := ih _ (c :: seen) hf' (by simp [Ne.symm hmet, htgt])
          (fun n hname next hn => by
            rcases mem_cons.mp hname with rfl | hname
            · exact Or.inr (by simp [hn])
            · rcases hcl n hname next hn with h | h
              · exact Or.inl (by simp [h])
              · rcases mem_cons.mp h with rfl | h
                · exact Or.inl (by simp)
                · exact Or.inr (by simp [h])) hf
        refine ⟨closed, fun n hname => h1 n (by simp [hname]), fun n hname => ?_, h3, h4⟩
        rcases mem_cons.mp hname with rfl | h
        · exact h1 _ (by simp)
        · exact h2 n (by simp [h])

/-- What is reached in one or more steps is found. -/
theorem reaches_of_transGen {s : String}
    (h : Relation.TransGen (fun a b => b ∈ successors es a) s t) :
    reaches s t es = true := by
  by_contra hnot
  have hf : reaches s t es = false := by simpa using hnot
  have hfu : (successors es s).dedup.length + unexpanded [] es < reachBound es := by
    have h1 := length_dedup_le (successors es s)
    have h2 := @length_successors_le es s
    rw [unexpanded_nil]
    unfold reachBound
    omega
  obtain ⟨closed, -, hq, htgt, hcl⟩ :=
    reachesFrom_closed _ _ [] hfu (by simp) (by simp) hf
  have hin : ∀ {n : String},
      Relation.TransGen (fun a b => b ∈ successors es a) s n → n ∈ closed := by
    intro n hr
    induction hr with
    | single h => exact hq _ (by simpa using h)
    | tail _ h ih => exact hcl _ ih _ h
  exact htgt (hin h)

end

section

variable {nv : String → Option Store.Term → Bool} {mr : Int} {p : QueryPlan}

/-- The recursive relations that validation finds are all of them. -/
theorem mem_recursiveRelations {rules : List Rule} {relation : String}
    (hh : relation ∈ derivedRelations rules) (h : Cycles.OnCycle (Depends rules) relation) :
    relation ∈ recursiveRelations rules := by
  unfold recursiveRelations
  refine mem_filter.mpr ⟨hh, reaches_of_transGen ?_⟩
  have heq : (fun a b => b ∈ successors (dependencyEdges rules) a) = Depends rules := by
    funext a b
    exact propext mem_successors
  rw [heq]
  exact h

theorem recursiveBuiltin_of_accepted (h : validatePlan nv mr p = [])
    {rule : Rule} (hr : rule ∈ p.rules) (hb : recursiveBuiltin rule = true) :
    ¬Cycles.OnCycle (Depends p.rules) rule.headRelation := by
  intro hcyc
  simp only [validatePlan, append_eq_nil_iff] at h
  have he := h.1.1.1.1.2
  unfold recursiveBuiltinErrors at he
  rw [map_eq_nil_iff, filter_eq_nil_iff] at he
  refine he rule hr ?_
  have hmem := mem_recursiveRelations (mem_map.mpr ⟨rule, hr, rfl⟩) hcyc
  simp [hb, hmem]

end

end

section

open Beagle.Lib Beagle.Store List

/-! ### Terms -/

variable {context : String} {ts : List QueryTerm}

theorem wellFormed_of_termErrors (h : termErrors ts context = [])
    {t : QueryTerm} (ht : t ∈ ts) : t.wellFormed = true := by
  unfold termErrors at h
  rw [map_eq_nil_iff, filter_eq_nil_iff] at h
  simpa using h t ht

theorem bound_of_unboundErrors {bound : List String}
    (h : unboundErrors ts bound context = []) {n : String} (hn : n ∈ termVars ts) :
    n ∈ bound := by
  unfold unboundErrors at h
  rw [map_eq_nil_iff, filter_eq_nil_iff] at h
  have hmem : n ∈ orderedNames (termVars ts) := by
    unfold orderedNames
    rw [mem_insertionSort, mem_dedup]
    exact hn
  simpa using h n hmem

/-- A term that passes both checks is a constant or bound. -/
theorem boundIn_of_errors {b : List String} {ctx' : String}
    (hte : termErrors ts context = []) (hu : unboundErrors ts b ctx' = [])
    {term : QueryTerm} (ht : term ∈ ts) : BoundIn b term := by
  have hw := wellFormed_of_termErrors hte ht
  unfold QueryTerm.wellFormed at hw
  unfold BoundIn
  cases hn : term.name with
  | some n =>
    exact bound_of_unboundErrors hu (mem_filterMap.mpr ⟨term, ht, hn⟩)
  | none =>
    rw [hn] at hw
    exact Option.isSome_iff_exists.mp hw

/-! ### Arities -/

/-- The arity of each relation of a plan. -/
def planArity (plan : QueryPlan) (relation : String) : Option Nat :=
  relationArity relation (headArities plan.rules)

variable {relation : String}

theorem headArities_isSome {rs : List Rule} (h : relation ∈ derivedRelations rs) :
    ∃ n, nameLike.get (headArities rs) relation = some n := by
  have hf : ∀ (r : List Rule) (ks : List (String × Nat)),
      (nameLike.get ks relation).isSome ∨ relation ∈ derivedRelations r →
      (nameLike.get (r.foldl (fun acc rule =>
          if (nameLike.get acc rule.headRelation).isSome then acc
          else nameLike.set acc rule.headRelation rule.headArguments.length) ks) relation).isSome := by
    intro r
    induction r with
    | nil =>
      rintro ks (h | h)
      · exact h
      · simp [derivedRelations] at h
    | cons rule r ih =>
      intro ks h
      rw [foldl_cons]
      refine ih _ ?_
      by_cases hs : (nameLike.get ks rule.headRelation).isSome
      · rw [if_pos hs]
        rcases h with h | h
        · exact Or.inl h
        · rcases mem_cons.mp h with rfl | h
          · exact Or.inl hs
          · exact Or.inr h
      · rw [if_neg hs, nameLike.get_set]
        by_cases heq : rule.headRelation = relation
        · left
          simp [nameLike, heq]
        · rcases h with h | h
          · left
            simpa [nameLike, heq] using h
          · rcases mem_cons.mp h with h | h
            · exact absurd h.symm heq
            · exact Or.inr h
  exact Option.isSome_iff_exists.mp (hf rs [] (Or.inr h))

theorem baseRelArity_isSome : ∀ relation ∈ baseRelations, (baseRelArity relation).isSome := by
  decide

theorem planArity_isSome {p : QueryPlan}
    (h : relation ∈ baseRelations ++ derivedRelations p.rules) :
    ∃ n, planArity p relation = some n := by
  unfold planArity relationArity
  by_cases hb : (baseRelArity relation).isSome
  · rw [if_pos hb]
    exact Option.isSome_iff_exists.mp hb
  · rw [if_neg hb]
    rcases mem_append.mp h with hmem | hmem
    · exact absurd (baseRelArity_isSome relation hmem) hb
    · exact headArities_isSome hmem

theorem planArity_text (p : QueryPlan) : TextArity (planArity p) := by
  have ht : ∀ relation ∈ textRelations, ∃ n, baseRelArity relation = some n ∧ 3 ≤ n := by decide
  intro relation hrel n hn
  obtain ⟨m, hm, hle⟩ := ht relation hrel
  unfold planArity relationArity at hn
  rw [hm] at hn
  simp only [Option.isSome_some, if_true, Option.some.injEq] at hn
  omega

/-! ### Rules -/

section

variable {nv : String → Option Term → Bool} {p : QueryPlan}

theorem literalSafe_of_errors {literal : Literal} {b : List String}
    (h : literalErrors literal (baseRelations ++ derivedRelations p.rules)
      (headArities p.rules) b = [])
    (ht : textLiteralErrors nv literal b = []) :
    LiteralSafe (planArity p) b literal := by
  unfold LiteralSafe
  unfold literalErrors at h
  cases hk : literal.kind with
  | other k =>
    rw [hk] at h
    simp at h
  | comparison =>
    rw [hk] at h
    simp only [comparisonLiteralErrors, append_eq_nil_iff] at h
    have hlen := h.2.1.2
    by_contra hne
    rw [if_neg hne] at hlen
    simp at hlen
  | builtin =>
    rw [hk] at h
    simp only [builtinLiteralErrors, append_eq_nil_iff] at h
    have hlen := h.2.1.1.2
    by_contra hne
    rw [if_neg hne] at hlen
    simp at hlen
  | relation =>
    rw [hk] at h
    simp only [relationLiteralErrors, append_eq_nil_iff] at h
    obtain ⟨hte, har, hu⟩ := h
    refine ⟨?_, fun hneg => ⟨fun hmem => ?_, fun a harg => ?_⟩⟩
    · have hkn : literal.relation ∈ baseRelations ++ derivedRelations p.rules := by
        by_contra hnot
        rw [if_pos (by simpa using hnot)] at har
        simp at har
      obtain ⟨n, hn⟩ := planArity_isSome hkn
      rw [if_neg (by rw [contains_iff_mem.mpr hkn]; simp)] at har
      unfold planArity at hn ⊢
      rw [hn] at har ⊢
      dsimp only at har
      by_contra hne
      rw [if_neg fun heq => hne (by rw [heq])] at har
      simp at har
    · unfold textLiteralErrors at ht
      rw [if_pos ⟨hk, hmem⟩, if_pos hneg] at ht
      simp at ht
    · rw [if_pos hneg] at hu
      exact boundIn_of_errors hte hu harg

theorem bodySafe_of_errors : ∀ {body : List Literal} {b : List String},
    bodyErrors nv (baseRelations ++ derivedRelations p.rules) (headArities p.rules)
      b body = [] → BodySafe (planArity p) b body := by
  intro body
  induction body with
  | nil => intro b _; exact True.intro
  | cons l r ih =>
    intro b h
    simp only [bodyErrors, append_eq_nil_iff] at h
    exact ⟨literalSafe_of_errors h.1.1 h.1.2, ih h.2⟩

variable {mr : Int} {rule : Rule} {i : Nat}

/-- **The rules of an accepted plan can be evaluated.** -/
theorem ruleSafe_of_accepted (h : validatePlan nv mr p = [])
    (hr : rule ∈ p.rules) : RuleSafe (planArity p) rule := by
  have he := ruleErrors_of_accepted h hr
  simp only [ruleErrors, append_eq_nil_iff] at he
  exact ⟨bodySafe_of_errors he.1.2,
    fun a harg => boundIn_of_errors he.1.1.2 he.2 harg⟩

theorem mem_rules {rs : List Rule} (hi : p.strata[i]? = some rs) (hr : rule ∈ rs) :
    rule ∈ p.rules :=
  mem_flatten.mpr ⟨rs, mem_of_getElem? hi, hr⟩

/-- What a stratum needs of the sources and of its negated literals beside validation. -/
structure Provided (candidates : CandidateSources) (rules : List Rule) : Prop where
  text : ∀ rule ∈ rules, ∀ literal ∈ rule.body, literal.kind = .relation →
    literal.relation ∈ textRelations →
      ∃ source, candidates.find literal.relation = some (.virtual literal.relation source) ∧
        ∀ needle, source.rows literal.relation false needle = source.rows literal.relation true needle
  negated : ∀ rule ∈ rules, ∀ literal ∈ rule.body, literal.kind = .relation →
    literal.negated = true → literal.arguments ≠ []

theorem stratum_of_accepted (h : validatePlan nv mr p = []) {rs : List Rule}
    (hi : p.strata[i]? = some rs) {cs : CandidateSources}
    (hp : Provided cs rs) : Stratum (planArity p) cs rs where
  textArity := planArity_text p
  safe rule hrule := ruleSafe_of_accepted h (mem_rules hi hrule)
  heads rule hrule := head_notMem_baseRelations h (mem_rules hi hrule)
  text := hp.text
  negated rule hrule literal hlit hkind hneg := by
    refine ⟨hp.negated rule hrule literal hlit hkind hneg, ?_⟩
    rw [mem_ruleHeadRelations]
    refine (negated_of_strataViolations (strataViolations_of_accepted h) hi ?_).1
    refine mem_flatMap.mpr ⟨rule, hrule, mem_map.mpr ⟨literal, ?_, rfl⟩⟩
    exact mem_filter.mpr ⟨hlit, by simp [hkind, hneg]⟩

end

end

end Beagle.Query
