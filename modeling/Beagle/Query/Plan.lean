/-
Query plans and the checks a plan passes before it is evaluated.

A plan names what it finds, the rules that derive it, stratum by stratum, and how its
rows are ordered and cut.  Validation walks it with several checkers, each adding its
own errors; a plan is accepted when none adds any.
-/
import Beagle.Query.Ir

namespace Beagle.Query

open Beagle.Lib Beagle.Store

/-! ### Plans -/

structure AggregateSpec where
  operator : Keyword
  argument : Option Int
deriving DecidableEq, Repr

structure HavingClause where
  operator : Keyword
  aggregateIndex : Int
  value : Term
deriving DecidableEq, Repr

structure FindSpec where
  relation : String
  grouping : List Int
  aggregates : List AggregateSpec
  having : List HavingClause
deriving DecidableEq, Repr

structure OrderClause where
  column : Int
  direction : Keyword
deriving DecidableEq, Repr

structure QueryPlan where
  find : FindSpec
  strata : List (List Rule)
  order : List OrderClause
  limit : Option Int
deriving DecidableEq, Repr

structure QueryError where
  code : Keyword
  message : String
deriving DecidableEq, Repr

/-- `relation-find`. -/
def relationFind (relation : String) : FindSpec := ⟨relation, [], [], []⟩

/-- `query-plan`. -/
def queryPlan (find : FindSpec) (strata : List (List Rule)) : QueryPlan := ⟨find, strata, [], none⟩

def QueryPlan.rules (plan : QueryPlan) : List Rule := plan.strata.flatten

/-- The arity of a base relation. -/
def baseRelArity (relation : String) : Option Nat :=
  nameLike.get
    [(tripleRelation, 3), (occurrenceRelation, 3), (withdrawalRelation, 2), (textMatchRelation, 3),
      (textPhraseRelation, 3), (textSubstringRelation, 3), (textStemRelation, 3),
      (textSearchRelation, 4)]
    relation

def countOperator : Keyword := ⟨"count"⟩

/-- `aggregate-argument-operators`. -/
def aggregateArgumentOperators : List Keyword :=
  [⟨"count-distinct"⟩, ⟨"sum"⟩, ⟨"avg"⟩, ⟨"min"⟩, ⟨"max"⟩]

def aggregateOperators : List Keyword := countOperator :: aggregateArgumentOperators

/-! ### Names -/

def orderedNames (names : List String) : List String := names.dedup.insertionSort (· ≤ ·)

/-- The names of the variables. -/
def termVars (terms : List QueryTerm) : List String := terms.filterMap (·.name)

def termErrors (terms : List QueryTerm) (context : String) : List QueryError :=
  (terms.filter fun term => !term.wellFormed).map fun _ =>
    ⟨⟨"query-invalid-term"⟩, context ++ " contains an invalid QueryTerm"⟩

def unboundErrors (terms : List QueryTerm) (bound : List String) (context : String) :
    List QueryError :=
  ((orderedNames (termVars terms)).filter fun name => !bound.contains name).map fun name =>
    ⟨⟨"query-unbound-variable"⟩, context ++ " variable '" ++ name ++ "' is not bound"⟩

/-- The first arity a head relation is given. -/
def headArities (rules : List Rule) : List (String × Nat) :=
  rules.foldl (fun acc rule =>
      if (nameLike.get acc rule.headRelation).isSome then acc
      else nameLike.set acc rule.headRelation rule.headArguments.length)
    []

def derivedRelations (rules : List Rule) : List String := rules.map (·.headRelation)

def relationArity (relation : String) (arities : List (String × Nat)) : Option Nat :=
  if (baseRelArity relation).isSome then baseRelArity relation else nameLike.get arities relation

/-! ### Literals -/

def arityError (message : String) : QueryError := ⟨⟨"query-arity"⟩, message⟩

def relationLiteralErrors (literal : Literal) (known : List String) (arities : List (String × Nat))
    (bound : List String) : List QueryError :=
  let arity := relationArity literal.relation arities
  (if !known.contains literal.relation then
    [⟨⟨"query-unknown-relation"⟩, "unknown relation '" ++ literal.relation ++ "'"⟩]
  else
    match arity with
    | some arity =>
      if arity = literal.arguments.length then []
      else [arityError ("relation '" ++ literal.relation ++ "' takes " ++ toString arity ++
        " arguments")]
    | none => []) ++
  if literal.negated then unboundErrors literal.arguments bound "negated literal" else []

def comparisonLiteralErrors (literal : Literal) (bound : List String) : List QueryError :=
  (if comparisonOperators.contains literal.operator then []
    else [⟨⟨"query-invalid-comparison"⟩, "comparison operator is not supported"⟩]) ++
  (if literal.arguments.length = 2 then []
    else [arityError "comparison literal takes two arguments"]) ++
  unboundErrors literal.arguments bound "comparison"

def builtinLiteralErrors (literal : Literal) (bound : List String) : List QueryError :=
  (if builtinOperators.contains literal.operator then []
    else [⟨⟨"query-invalid-builtin"⟩, "builtin operator is not supported"⟩]) ++
  (if literal.arguments.length = 2 then []
    else [arityError "builtin literal takes two arguments"]) ++
  (if literal.binding.utf8ByteSize = 0 then
    [⟨⟨"query-invalid-builtin"⟩, "builtin binding must be non-empty"⟩]
  else if bound.contains literal.binding then
    [⟨⟨"query-unbound-variable"⟩, "builtin binding '" ++ literal.binding ++ "' is already bound"⟩]
  else []) ++
  unboundErrors literal.arguments bound "builtin"

def literalErrors (literal : Literal) (known : List String) (arities : List (String × Nat))
    (bound : List String) : List QueryError :=
  match literal.kind with
  | .relation =>
    termErrors literal.arguments "literal" ++ relationLiteralErrors literal known arities bound
  | .comparison =>
    termErrors literal.arguments "literal" ++ comparisonLiteralErrors literal bound
  | .builtin =>
    termErrors literal.arguments "literal" ++ builtinLiteralErrors literal bound
  | .other _ => [⟨⟨"query-invalid-literal"⟩, "literal kind is not supported"⟩]

/-- The variables a literal binds. -/
def literalBindings (literal : Literal) : List String :=
  match literal.kind with
  | .relation => if literal.negated then [] else termVars literal.arguments
  | .builtin => [literal.binding]
  | _ => []

section

variable (needleValid : String → Option Term → Bool)

/-- The needle of a text literal is a valid constant or already bound. -/
def textLiteralErrors (literal : Literal) (bound : List String) : List QueryError :=
  if literal.kind = .relation ∧ literal.relation ∈ textRelations then
    if literal.negated then
      [⟨⟨"query-text-negative"⟩, literal.relation ++ " is available only as a positive relation"⟩]
    else if baseRelArity literal.relation ≠ some literal.arguments.length then []
    else
      match literal.arguments[2]? with
      | none => []
      | some needle =>
        match needle.name with
        | some name =>
          if bound.contains name then []
          else [⟨⟨"query-text-unbound-needle"⟩,
            literal.relation ++ " query must be constant or already bound"⟩]
        | none =>
          if needleValid literal.relation needle.value then []
          else [⟨⟨"query-text-invalid-needle"⟩, literal.relation ++ " query is empty or invalid"⟩]
  else []

/-- The errors of a body, with the variables bound so far. -/
def bodyErrors (known : List String) (arities : List (String × Nat)) :
    List String → List Literal → List QueryError
  | _, [] => []
  | bound, literal :: rest =>
    literalErrors literal known arities bound ++ textLiteralErrors needleValid literal bound ++
      bodyErrors known arities (bound ++ literalBindings literal) rest

/-- The variables a whole body binds. -/
def bodyBindings (body : List Literal) : List String := body.flatMap literalBindings

def ruleErrors (rule : Rule) (known : List String) (arities : List (String × Nat)) :
    List QueryError :=
  (if 0 < rule.headRelation.utf8ByteSize then []
    else [⟨⟨"query-invalid-rule"⟩, "rule head relation is empty"⟩]) ++
  (if baseRelations.contains rule.headRelation then
    [⟨⟨"query-base-shadow"⟩,
      "rule head cannot redefine base relation '" ++ rule.headRelation ++ "'"⟩]
    else []) ++
  termErrors rule.headArguments "rule head" ++
  bodyErrors needleValid known arities [] rule.body ++
  unboundErrors rule.headArguments (bodyBindings rule.body) "rule head"

end

def arityErrors (rules : List Rule) : List QueryError :=
  (rules.filter fun rule =>
      nameLike.get (headArities rules) rule.headRelation ≠ some rule.headArguments.length).map
    fun rule => arityError ("relation '" ++ rule.headRelation ++ "' has inconsistent arity")

/-! ### Recursion -/

/-- The relations a rule reads positively. -/
def positiveRelations (rule : Rule) : List String :=
  (rule.body.filter (·.positive)).map (·.relation)

def dependencyEdges (rules : List Rule) : List (String × List String) :=
  rules.foldl (fun acc rule => nameLike.set acc rule.headRelation
      (((nameLike.get acc rule.headRelation).getD []) ++ positiveRelations rule))
    []

/-- Breadth first from the successors of a relation, up to a bound on the steps. -/
def reachesFrom (target : String) (edges : List (String × List String)) :
    Nat → List String → List String → Bool
  | 0, _, _ => false
  | _ + 1, [], _ => false
  | fuel + 1, current :: rest, seen =>
    if current = target then true
    else if seen.contains current then reachesFrom target edges fuel rest seen
    else reachesFrom target edges fuel (rest ++ ((nameLike.get edges current).getD []).dedup)
      (current :: seen)

/-- Enough steps for every relation to be expanded once. -/
def reachBound (edges : List (String × List String)) : Nat :=
  2 * (edges.map fun edge => edge.2.length).sum + 1

def reaches (start target : String) (edges : List (String × List String)) : Bool :=
  reachesFrom target edges (reachBound edges) ((nameLike.get edges start).getD []).dedup []

def recursiveRelations (rules : List Rule) : List String :=
  (rules.map (·.headRelation)).filter fun relation =>
    reaches relation relation (dependencyEdges rules)

def recursiveBuiltin (rule : Rule) : Bool := rule.body.any fun literal => literal.kind == .builtin

def recursiveBuiltinErrors (rules : List Rule) : List QueryError :=
  (rules.filter fun rule =>
      (recursiveRelations rules).contains rule.headRelation && recursiveBuiltin rule).map
    fun rule => ⟨⟨"query-recursive-builtin"⟩,
      "recursive relation '" ++ rule.headRelation ++ "' cannot contain a builtin binding"⟩

/-! ### Strata -/

/-- The positive references of a stratum to relations that only later strata derive. -/
def forwardErrorsFrom (allDerived : List String) : List String → List (List Rule) → List QueryError
  | _, [] => []
  | lower, stratum :: rest =>
    let available := lower ++ derivedRelations stratum
    (stratum.flatMap fun rule =>
      ((orderedNames (positiveRelations rule)).filter fun relation =>
          allDerived.contains relation && !available.contains relation).map fun relation =>
        ⟨⟨"query-forward-reference"⟩,
          "relation '" ++ relation ++ "' is defined only in a later stratum"⟩) ++
    forwardErrorsFrom allDerived available rest

def forwardErrors (strata : List (List Rule)) (allDerived : List String) : List QueryError :=
  forwardErrorsFrom allDerived baseRelations strata

/-- The relations a stratum negates. -/
def negatedRelations (stratum : List Rule) : List String :=
  stratum.flatMap fun rule =>
    (rule.body.filter fun literal => literal.kind == .relation && literal.negated).map (·.relation)

def strataViolationsFrom : Nat → List String → List (List Rule) → List String
  | _, _, [] => []
  | index, lower, stratum :: rest =>
    let heads := derivedRelations stratum
    ((negatedRelations stratum).filterMap fun relation =>
      if heads.contains relation then
        some ("stratum " ++ toString index ++ ": negated '" ++ relation ++
          "' is also derived in the same stratum")
      else if !lower.contains relation then
        some ("stratum " ++ toString index ++ ": negated '" ++ relation ++
          "' is not a base or lower-stratum relation")
      else none) ++
    strataViolationsFrom (index + 1) (lower ++ heads) rest

def strataViolations (strata : List (List Rule)) : List String :=
  strataViolationsFrom 0 baseRelations strata

/-! ### What is found and how it is ordered -/

def FindSpec.aggregate (find : FindSpec) : Bool := !find.aggregates.isEmpty

/-- Is the position one of a relation of this arity? -/
def positionInRange (position : Int) (arity : Option Nat) : Bool :=
  match arity with
  | some arity => decide (0 ≤ position ∧ position < arity)
  | none => false

def aggregateError (message : String) : QueryError := ⟨⟨"query-invalid-aggregate"⟩, message⟩

def aggregateSpecErrors (spec : AggregateSpec) (arity : Option Nat) : List QueryError :=
  if !aggregateOperators.contains spec.operator then
    [aggregateError "aggregate operator is not supported"]
  else if aggregateArgumentOperators.contains spec.operator ∧ spec.argument = none then
    [aggregateError "aggregate operator requires an argument position"]
  else
    match spec.argument with
    | some argument =>
      if positionInRange argument arity then []
      else [aggregateError "aggregate argument position is out of range"]
    | none => []

def havingError (message : String) : QueryError := ⟨⟨"query-invalid-having"⟩, message⟩

/-- `number?`. -/
def isNumber : Term → Bool
  | .atom (.int _) => true
  | .atom (.float _) => true
  | _ => false

def havingErrors (clause : HavingClause) (find : FindSpec) : List QueryError :=
  if !comparisonOperators.contains clause.operator then
    [havingError "having operator is not supported"]
  else if ¬(0 ≤ clause.aggregateIndex ∧ clause.aggregateIndex < find.aggregates.length) then
    [havingError "having aggregate index is out of range"]
  else if !isNumber clause.value then [havingError "having comparison value must be numeric"]
  else []

def findErrors (find : FindSpec) (derived : List String) (arities : List (String × Nat)) :
    List QueryError :=
  let arity := nameLike.get arities find.relation
  (if baseRelations.contains find.relation then
    [⟨⟨"query-invalid-find"⟩, "find cannot name a base relation"⟩]
  else if !derived.contains find.relation then
    [⟨⟨"query-invalid-find"⟩, "find relation '" ++ find.relation ++ "' is not derived"⟩]
  else []) ++
  if find.aggregate then
    ((find.grouping.filter fun position => !positionInRange position arity).map fun _ =>
      aggregateError "aggregate group position is out of range") ++
    (find.aggregates.flatMap fun spec => aggregateSpecErrors spec arity) ++
    find.having.flatMap fun clause => havingErrors clause find
  else if !find.grouping.isEmpty ∨ !find.having.isEmpty then
    [⟨⟨"query-invalid-find"⟩, "plain find cannot contain grouping or having clauses"⟩]
  else []

def resultArity (find : FindSpec) (arities : List (String × Nat)) : Option Nat :=
  if find.aggregate then some (find.grouping.length + find.aggregates.length)
  else nameLike.get arities find.relation

def orderClauseErrors (arity : Option Nat) : List Int → List OrderClause → List QueryError
  | _, [] => []
  | seen, clause :: rest =>
    let outOfRange := clause.column < 0 ∨ (arity.map fun arity => decide (arity ≤ clause.column)) =
      some true
    (if clause.direction ≠ ⟨"asc"⟩ ∧ clause.direction ≠ ⟨"desc"⟩ then
      [⟨⟨"query-invalid-order"⟩, "query order direction must be :asc or :desc"⟩]
    else if outOfRange then
      [⟨⟨"query-invalid-order"⟩, "query order column is out of range"⟩]
    else if seen.contains clause.column then
      [⟨⟨"query-invalid-order"⟩, "query order columns must be unique"⟩]
    else []) ++
    orderClauseErrors arity (clause.column :: seen) rest

section

variable (needleValid : String → Option Term → Bool) (maxResults : Int)

def orderErrors (plan : QueryPlan) (arities : List (String × Nat)) : List QueryError :=
  orderClauseErrors (resultArity plan.find arities) [] plan.order ++
  match plan.limit with
  | some limit =>
    if limit < 1 ∨ maxResults < limit then
      [⟨⟨"query-invalid-limit"⟩, "query limit must be from 1 through " ++ toString maxResults⟩]
    else []
  | none => []

/-- `validate-plan!`. -/
def validatePlan (plan : QueryPlan) : List QueryError :=
  let rules := plan.rules
  let derived := derivedRelations rules
  let arities := headArities rules
  (if rules.isEmpty then
    [⟨⟨"query-invalid-plan"⟩, "query plan must contain at least one rule"⟩] else []) ++
  (rules.flatMap fun rule => ruleErrors needleValid rule (baseRelations ++ derived) arities) ++
  arityErrors rules ++
  recursiveBuiltinErrors rules ++
  forwardErrors plan.strata derived ++
  ((strataViolations plan.strata).map fun message => ⟨⟨"query-stratification"⟩, message⟩) ++
  findErrors plan.find derived arities ++
  orderErrors maxResults plan arities

end

end Beagle.Query
