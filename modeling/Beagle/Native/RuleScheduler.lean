/-
The scheduler that runs rules over facts to a fixed point.

Rules are kept on a worklist of their positions.  The first rule is evaluated on the
facts of its input relations and what it produces is merged; as soon as a fact is new
all rules are queued again.  Every evaluation leaves a record of what it added.
-/
import Mathlib

namespace Beagle.RuleScheduler

structure RuleSourceSpan where
  sourceId : String
  start : Int
  stop : Int
  line : Int
  column : Int
deriving DecidableEq

structure RuleFact where
  relation : String
  key : String
  payload : String
deriving DecidableEq

structure RuleSpec where
  id : String
  inputRelations : List String
  outputRelations : List String
  sourceSpan : RuleSourceSpan
deriving DecidableEq

structure RuleError where
  ruleId : String
  sourceSpan : RuleSourceSpan
  code : String
  message : String
deriving DecidableEq

structure RuleEvidence where
  step : Nat
  ruleId : String
  inputIdentities : List String
  addedIdentities : List String
deriving DecidableEq

inductive RuleEvaluation where
  | produced (facts : List RuleFact)
  | rejected (error : RuleError)

inductive FixedPointResult where
  | reached (facts : List RuleFact) (evidence : List RuleEvidence) (steps : Nat)
  | boundReached (facts : List RuleFact) (evidence : List RuleEvidence) (steps : Nat) (bound : Int)
  | failed (facts : List RuleFact) (evidence : List RuleEvidence) (steps : Nat) (error : RuleError)

structure FactMerge where
  facts : List RuleFact
  addedIdentities : List String
  invalidFact : Option RuleFact

abbrev RuleEvaluator := RuleSpec → List RuleFact → RuleEvaluation

/-- `fact-identity`; `count` of a text is its length in bytes. -/
def factIdentity (fact : RuleFact) : String :=
  toString fact.relation.utf8ByteSize ++ ":" ++ fact.relation ++
    (toString fact.key.utf8ByteSize ++ ":" ++ fact.key ++
      (toString fact.payload.utf8ByteSize ++ ":" ++ fact.payload))

/-- `fact-known?`. -/
def factKnown (facts : List RuleFact) (fact : RuleFact) : Bool :=
  facts.any fun known => factIdentity fact == factIdentity known

/-- `dedupe-facts`. -/
def dedupeFacts (facts : List RuleFact) : List RuleFact :=
  facts.foldl (fun unique fact => if factKnown unique fact then unique else unique ++ [fact]) []

/-- `rule-input-facts`. -/
def ruleInputFacts (rule : RuleSpec) (facts : List RuleFact) : List RuleFact :=
  facts.filter fun fact => rule.inputRelations.contains fact.relation

/-- `fact-identities`. -/
def factIdentities (facts : List RuleFact) : List String := facts.map factIdentity

/-- The loop of `merge-rule-facts`. -/
def mergeFrom (allowedRelations : List String) :
    List RuleFact → List RuleFact → List String → FactMerge
  | [], facts, added => ⟨facts, added, none⟩
  | fact :: produced, facts, added =>
    if !allowedRelations.contains fact.relation then ⟨facts, added, some fact⟩
    else if factKnown facts fact then mergeFrom allowedRelations produced facts added
    else mergeFrom allowedRelations produced (facts ++ [fact]) (added ++ [factIdentity fact])

/-- `merge-rule-facts`. -/
def mergeRuleFacts (known produced : List RuleFact) (allowedRelations : List String) : FactMerge :=
  mergeFrom allowedRelations produced known []

/-- `enqueue-all-rules`. -/
def enqueueAllRules {count : Nat} (worklist : List (Fin count)) : List (Fin count) :=
  (List.finRange count).foldl (fun queued i => if i ∈ queued then queued else queued ++ [i]) worklist

/-- `duplicate-rule-index`: the first rule whose id an earlier rule has. -/
def duplicateRule : List String → List RuleSpec → Option RuleSpec
  | _, [] => none
  | prior, rule :: rules =>
    if prior.contains rule.id then some rule else duplicateRule (prior ++ [rule.id]) rules

/-- The error for a fact of a relation that its rule does not declare. -/
def undeclaredOutput (rule : RuleSpec) (invalid : RuleFact) : RuleError :=
  { ruleId := rule.id
    sourceSpan := rule.sourceSpan
    code := "undeclared-output"
    message := "rule produced undeclared relation " ++ invalid.relation }

/-- The loop of `run-to-fixed-point`; `budget` is what is left of the bound on its steps. -/
def runFrom (rules : List RuleSpec) (maxSteps : Int) (evaluate : RuleEvaluator) :
    Nat → List RuleFact → List (Fin rules.length) → List RuleEvidence → Nat → FixedPointResult
  | _, known, [], evidence, steps => .reached known evidence steps
  | 0, known, _ :: _, evidence, steps => .boundReached known evidence steps maxSteps
  | budget + 1, known, ruleIndex :: remaining, evidence, steps =>
    let rule := rules.get ruleIndex
    let inputs := ruleInputFacts rule known
    match evaluate rule inputs with
    | .rejected error => .failed known evidence (steps + 1) error
    | .produced produced =>
      let merged := mergeRuleFacts known produced rule.outputRelations
      let added := merged.addedIdentities
      let nextEvidence := evidence ++ [⟨steps, rule.id, factIdentities inputs, added⟩]
      match merged.invalidFact with
      | some invalid =>
        .failed merged.facts nextEvidence (steps + 1) (undeclaredOutput rule invalid)
      | none =>
        runFrom rules maxSteps evaluate budget merged.facts
          (if added.isEmpty then remaining else enqueueAllRules remaining) nextEvidence
          (steps + 1)

/-- `run-to-fixed-point`. -/
def runToFixedPoint (initialFacts : List RuleFact) (rules : List RuleSpec) (maxSteps : Int)
    (evaluate : RuleEvaluator) : FixedPointResult :=
  let facts := dedupeFacts initialFacts
  if maxSteps < 0 then
    .failed facts [] 0
      { ruleId := ""
        sourceSpan := ⟨"", 0, 0, 1, 0⟩
        code := "invalid-bound"
        message := "fixed-point step bound must be nonnegative" }
  else
    match duplicateRule [] rules with
    | some rule =>
      .failed facts [] 0
        { ruleId := rule.id
          sourceSpan := rule.sourceSpan
          code := "duplicate-rule-id"
          message := "rule identifiers must be unique" }
    | none => runFrom rules maxSteps evaluate maxSteps.toNat facts (enqueueAllRules []) [] 0

end Beagle.RuleScheduler
