/-
The evaluator: literals, bodies, rules, the fixpoint of a stratum and the strata.

A body is evaluated left to right over a list of substitutions.  A stratum is
evaluated semi-naively: every rule once over the given database, and then, round by
round, every rule once for each positive literal that reads a relation of the last
round's new tuples, with that literal pinned to the new tuples alone.

The clock and the cancellation cell are read through the control, machine doubles
through `Doubles`, and the loop of rounds carries a bound of its own.
-/
import Beagle.Query.Ir
import Beagle.Store.Transactions

namespace Beagle.Query

open Beagle.Lib Beagle.Store

/-- Double arithmetic and the number syntax of the host. -/
structure Doubles where
  ofLong : Int64 → Float64
  parseLong : String → Option Int64
  parseDouble : String → Option Float64
  add : Float64 → Float64 → Float64
  sub : Float64 → Float64 → Float64
  mul : Float64 → Float64 → Float64
  div : Float64 → Float64 → Float64
  lt : Float64 → Float64 → Bool
  le : Float64 → Float64 → Bool
  str : Float64 → String

/-! ### The budget -/

/-- The error of a failed check. -/
def checkError (control : QueryControl) (steps : Nat) : Option QueryEvaluationError :=
  let stopped (code : String) : QueryEvaluationError :=
    { errorType := ⟨"store-query-abort"⟩
      code := ⟨code⟩
      message := "query evaluation stopped: " ++ code
      reason := control.cancelled steps
      steps := some steps
      maxSteps := some control.maxSteps
      timeoutMs := some control.timeoutMs
      bytes := none
      maximum := none }
  if (control.cancelled steps).isSome then some (stopped "query-cancelled")
  else if control.maxSteps < steps then some (stopped "query-work-limit")
  else if control.deadlineNs ≤ control.now steps then some (stopped "query-time-limit")
  else none

/-- `query-check!`. -/
def queryCheck : Option QueryControl → Eval Unit
  | none => pure ()
  | some control => fun steps =>
    match checkError control (steps + 1) with
    | none => .ok ((), steps + 1)
    | some error => .error (.error error)

/-! ### Numbers -/

section

variable (D : Doubles)

def integerValue : Term → Option Int64
  | .atom (.int value) => some value
  | .atom (.string value) => D.parseLong value
  | _ => none

def numericValue : Term → Option Float64
  | .atom (.int value) => some (D.ofLong value)
  | .atom (.float value) => some value
  | .atom (.string value) =>
    match D.parseLong value with
    | some integer => some (D.ofLong integer)
    | none => D.parseDouble value
  | _ => none

def comparisonValue (operator : Keyword) (left right : Term) : Bool :=
  if operator = eqOperator then left.same right
  else if operator = neOperator then !left.same right
  else
    match numericValue D left, numericValue D right with
    | some leftNumber, some rightNumber =>
      if operator = ltOperator then D.lt leftNumber rightNumber
      else if operator = leOperator then D.le leftNumber rightNumber
      else if operator = gtOperator then D.lt rightNumber leftNumber
      else if operator = geOperator then D.le rightNumber leftNumber
      else false
    | _, _ => false

def comparisonResult (literal : Literal) (subst : Substitution) : Eval Bool := do
  let first ← nth literal.arguments 0
  let second ← nth literal.arguments 1
  match termValue first subst, termValue second subst with
  | some left, some right => pure (comparisonValue D literal.operator left right)
  | _, _ => pure false

/-- An integer result, or a trap past the machine range. -/
def checkedInt (value : Int) : Except Stop Int64 :=
  if -(2 ^ 63) ≤ value ∧ value < 2 ^ 63 then .ok (.ofInt value) else .error .overflow

def integerBuiltinValue (operator : Keyword) (left right : Int64) : Except Stop Int64 :=
  if operator = modOperator then checkedInt (left.toInt.fmod right.toInt)
  else if operator = addOperator then checkedInt (left.toInt + right.toInt)
  else if operator = subtractOperator then checkedInt (left.toInt - right.toInt)
  else checkedInt (left.toInt * right.toInt)

def doubleBuiltinValue (operator : Keyword) (left right : Float64) : Float64 :=
  if operator = divideOperator then D.div left right
  else if operator = addOperator then D.add left right
  else if operator = subtractOperator then D.sub left right
  else D.mul left right

/-- The value of a builtin, none where the arithmetic is invalid. -/
def builtinValue (operator : Keyword) (left right : Term) : Except Stop (Option Term) :=
  let integers (leftInt rightInt : Int64) : Except Stop (Option Term) :=
    (integerBuiltinValue operator leftInt rightInt).map fun value => some (.atom (.int value))
  let doubles (leftNumber rightNumber : Float64) : Except Stop (Option Term) :=
    .ok (some (.atom (.float (doubleBuiltinValue D operator leftNumber rightNumber))))
  if operator = modOperator then
    match integerValue D left, integerValue D right with
    | some leftInt, some rightInt =>
      if rightInt = 0 then .ok none else integers leftInt rightInt
    | _, _ => .ok none
  else if operator = divideOperator then
    match numericValue D left, numericValue D right with
    | some leftNumber, some rightNumber =>
      if rightNumber.isZero then .ok none else doubles leftNumber rightNumber
    | _, _ => .ok none
  else if operator = addOperator ∨ operator = subtractOperator ∨ operator = multiplyOperator then
    match integerValue D left, integerValue D right with
    | some leftInt, some rightInt => integers leftInt rightInt
    | _, _ =>
      match numericValue D left, numericValue D right with
      | some leftNumber, some rightNumber => doubles leftNumber rightNumber
      | _, _ => .ok none
  else .ok none

def builtinResults (literal : Literal) (subst : Substitution) : Eval (List Substitution) := do
  let first ← nth literal.arguments 0
  let second ← nth literal.arguments 1
  match termValue first subst, termValue second subst with
  | some left, some right => do
      let value ← fromExcept (builtinValue D literal.operator left right)
      pure (value.map (subst.bind literal.binding)).toList
  | _, _ => pure []

end

/-! ### Unification -/

def unify (term : QueryTerm) (value : Term) (subst : Substitution) : Option Substitution :=
  match term.name with
  | some name =>
    match subst.value name with
    | some bound => if bound.same value then some subst else none
    | none => some (subst.bind name value)
  | none =>
    match term.value with
    | some constant => if constant.same value then some subst else none
    | none => none

/-- Unify position by position. -/
def unifyAll (subst : Substitution) : List QueryTerm → Tuple → Option Substitution
  | argument :: arguments, value :: values =>
    match unify argument value subst with
    | some next => unifyAll next arguments values
    | none => none
  | _, _ => some subst

/-- The tuple an argument list stands for. -/
def ground (subst : Substitution) : List QueryTerm → Eval Tuple
  | [] => pure []
  | argument :: rest =>
    match termValue argument subst with
    | some value => do
        let values ← ground subst rest
        pure (value :: values)
    | none => halt .unboundVariable

/-- Exclusive lower bound on the sequence of an occurrence. -/
def eventAfterSequence (event : OperationOccurrence) (lowerExclusive : Int) : Bool :=
  if lowerExclusive < 0 then true
  else
    match occurrenceCoordinateOf event.coordinate.term with
    | some (_, sequence, _) => decide (lowerExclusive < sequence.toInt)
    | none => false

def eventsAfterSequence (events : List OperationOccurrence) (lowerExclusive : Int) :
    List OperationOccurrence :=
  if lowerExclusive < 0 then events
  else events.filter fun event => eventAfterSequence event lowerExclusive

def tripleRow (value : Triple) : Tuple := [value.t1, value.t2, value.t3]

def missingCandidateSource (relation : String) : QueryEvaluationError :=
  queryEvaluationError ⟨"store-query-abort"⟩ ⟨"query-text-index-unavailable"⟩
    ("candidate source is unavailable for relation '" ++ relation ++ "'")

/-- The rows a text search answers a needle with. -/
def virtualSourceRowsResult (relation : String) (source : TextSearchSource) (indexed : Bool)
    (needle : Option Term) : Except QueryEvaluationError (List Tuple) :=
  if relation ∈ textRelations then source.rows relation indexed needle
  else .error (missingCandidateSource relation)

/-- The rows of a virtual source, or the error it records. -/
def virtualSourceRows (relation : String) (source : TextSearchSource) (indexed : Bool)
    (arguments : List QueryTerm) (subst : Substitution) : Eval (List Tuple) := do
  let needle ← nth arguments 2
  fromExcept ((virtualSourceRowsResult relation source indexed (termValue needle subst)).mapError
    .error)

section

variable (D : Doubles) (control : Option QueryControl)

/-- One tuple against the arguments of a literal. -/
def unifyArguments (arguments : List QueryTerm) (subst : Substitution) (tuple : Tuple) :
    Eval (List Substitution) := do
  queryCheck control
  if arguments.length = tuple.length then pure (unifyAll subst arguments tuple).toList
  else pure []

def unifyTuples (arguments : List QueryTerm) (tuples : List Tuple) (subst : Substitution) :
    Eval (List Substitution) :=
  collect (unifyArguments control arguments subst) tuples

/-! ### Plain evaluation -/

def relationResults (db : Db) (sources : CandidateSources) (literal : Literal)
    (subst : Substitution) : Eval (List Substitution) :=
  if literal.negated then do
    let wanted ← ground subst literal.arguments
    pure (if db.contains literal.relation wanted then [] else [subst])
  else
    match sources.find literal.relation with
    | some (.virtual relation source) => do
        let rows ← virtualSourceRows relation source false literal.arguments subst
        unifyTuples control literal.arguments rows subst
    | some (.candidate _) =>
      unifyTuples control literal.arguments (db.tuples literal.relation) subst
    | none =>
      if literal.relation ∈ textRelations then
        halt (.error (missingCandidateSource literal.relation))
      else unifyTuples control literal.arguments (db.tuples literal.relation) subst

/-! ### Indexed evaluation -/

def sourceContains (source : CandidateSource) (relation : String) (arguments : List QueryTerm)
    (subst : Substitution) : Eval Bool :=
  match source.rotation with
  | some rotation => do
      let wanted ← ground subst arguments
      let t1 ← nth wanted 0
      let t2 ← nth wanted 1
      let t3 ← nth wanted 2
      let events ← fromStore (rotation.matching (some t1) (some t2) (some t3))
      pure (!(eventsAfterSequence events rotation.lowerExclusive).isEmpty)
  | none => do
      let wanted ← ground subst arguments
      let handles ← sourceHandles source relation arguments subst
      let rows ← collect (fun handle => do
        let row ← sourceRow source handle
        pure [row]) (handles.getD [])
      pure (rows.any fun row => sameTuple wanted row)

/-- The events whose propositions were not met before, with those propositions. -/
def newPropositions : List Triple → List OperationOccurrence → List Triple
  | _, [] => []
  | seen, event :: rest =>
    if seen.any fun other => other.term.same event.proposition.term then
      newPropositions seen rest
    else event.proposition :: newPropositions (event.proposition :: seen) rest

def rotationResultsIndexed (rotation : RotationCandidateSource) (arguments : List QueryTerm)
    (subst : Substitution) : Eval (List Substitution) := do
  let t1 ← nth arguments 0
  let t2 ← nth arguments 1
  let t3 ← nth arguments 2
  let events ← fromStore
    (rotation.matching (termValue t1 subst) (termValue t2 subst) (termValue t3 subst))
  unifyTuples control arguments
    ((newPropositions [] (eventsAfterSequence events rotation.lowerExclusive)).map tripleRow) subst

/-- A positive literal over a candidate source. -/
def candidateResultsIndexed (source : CandidateSource) (relation : String)
    (arguments : List QueryTerm) (subst : Substitution) : Eval (List Substitution) :=
  match source.rotation with
  | some rotation => rotationResultsIndexed control rotation arguments subst
  | none => do
      match ← sourceHandles source relation arguments subst with
      | none => unifyTuples control arguments source.rows subst
      | some handles =>
        collect (fun handle => do
          let tuple ← sourceRow source handle
          unifyArguments control arguments subst tuple) handles

def relationResultsIndexed (db : Db) (sources : CandidateSources) (literal : Literal)
    (subst : Substitution) : Eval (List Substitution) :=
  if literal.negated then
    match sources.find literal.relation with
    | some (.candidate source) => do
        let present ← sourceContains source literal.relation literal.arguments subst
        pure (if present then [] else [subst])
    | _ => do
        let wanted ← ground subst literal.arguments
        pure (if db.contains literal.relation wanted then [] else [subst])
  else
    match sources.find literal.relation with
    | some (.virtual relation source) => do
        let rows ← virtualSourceRows relation source true literal.arguments subst
        unifyTuples control literal.arguments rows subst
    | some (.candidate source) =>
      candidateResultsIndexed control source literal.relation literal.arguments subst
    | none =>
      if literal.relation ∈ textRelations then
        halt (.error (missingCandidateSource literal.relation))
      else unifyTuples control literal.arguments (db.tuples literal.relation) subst

/-! ### Bodies and rules -/

/-- What a literal makes of one substitution, given how relations are read. -/
def literalResults (read : Literal → Substitution → Eval (List Substitution)) (literal : Literal)
    (subst : Substitution) : Eval (List Substitution) := do
  queryCheck control
  match literal.kind with
  | .relation => read literal subst
  | .comparison => do
      let holds ← comparisonResult D literal subst
      pure (if holds then [subst] else [])
  | .builtin => builtinResults D literal subst
  | .other _ => pure []

/-- A body from left to right, given how each position reads relations. -/
def bodyResultsFrom (read : Nat → Literal → Substitution → Eval (List Substitution)) :
    Nat → List Literal → List Substitution → Eval (List Substitution)
  | _, [], substitutions => pure substitutions
  | position, literal :: rest, substitutions => do
      let next ← collect (literalResults D control (read position) literal) substitutions
      bodyResultsFrom read (position + 1) rest next

def bodyResults (db : Db) (sources : CandidateSources) (body : List Literal) :
    Eval (List Substitution) :=
  bodyResultsFrom D control (fun _ => relationResults control db sources) 0 body [[]]

def bodyResultsIndexed (db : Db) (sources : CandidateSources) (body : List Literal) :
    Eval (List Substitution) :=
  bodyResultsFrom D control (fun _ => relationResultsIndexed control db sources) 0 body [[]]

/-- The pinned literal reads the new tuples, the others the whole database. -/
def bodyResultsPinned (db : Db) (sources : CandidateSources) (delta : Db)
    (deltaSources : CandidateSources) (body : List Literal) (pin : Nat) :
    Eval (List Substitution) :=
  bodyResultsFrom D control
    (fun position literal =>
      if position = pin ∧ literal.positive then
        relationResultsIndexed control delta deltaSources literal
      else relationResultsIndexed control db sources literal)
    0 body [[]]

/-- The heads of a rule under the substitutions of its body. -/
def groundHeads (head : List QueryTerm) (substitutions : List Substitution) : Eval (List Tuple) :=
  collect (fun subst => do
    let tuple ← ground subst head
    pure [tuple]) substitutions

def deriveRule (db : Db) (sources : CandidateSources) (rule : Rule) : Eval (List Tuple) := do
  let substitutions ← bodyResults D control db sources rule.body
  let tuples ← groundHeads rule.headArguments substitutions
  pure (tupleLike.into [] tuples)

def deriveRuleIndexed (db : Db) (sources : CandidateSources) (rule : Rule) : Eval (List Tuple) := do
  let substitutions ← bodyResultsIndexed D control db sources rule.body
  let tuples ← groundHeads rule.headArguments substitutions
  pure (tupleLike.into [] tuples)

/-- The positions of the positive literals that read one of the relations. -/
def deltaRelationPositions (body : List Literal) (deltaRelations : List String) : List Nat :=
  (body.zipIdx.filter fun entry =>
    entry.1.positive && deltaRelations.contains entry.1.relation).map (·.2)

def deriveRuleDelta (db : Db) (sources : CandidateSources) (delta : Db)
    (deltaSources : CandidateSources) (deltaRelations : List String) (rule : Rule) :
    Eval (List Tuple) := do
  let tuples ← collect (fun pin => do
    let substitutions ← bodyResultsPinned D control db sources delta deltaSources rule.body pin
    groundHeads rule.headArguments substitutions) (deltaRelationPositions rule.body deltaRelations)
  pure (tupleLike.into [] tuples)

end

/-! ### The fixpoint of a stratum -/

def ruleHeadRelations (rules : List Rule) : List String :=
  (rules.map (·.headRelation)).dedup

def positiveRelationNames (rules : List Rule) : List String :=
  ((rules.flatMap fun rule => (rule.body.filter (·.positive)).map (·.relation)).dedup).insertionSort
    (· ≤ ·)

/-- The tuples of one relation that the database does not have. -/
def newTuples (candidate db : Db) (relation : String) : List Tuple :=
  tupleLike.into []
    ((candidate.tuples relation).filter fun tuple => !db.contains relation tuple)

def putNew (candidate db delta : Db) (relation : String) : Db :=
  if (newTuples candidate db relation).isEmpty then delta
  else nameLike.set delta relation (newTuples candidate db relation)

def dbNewOnly (candidate db : Db) (relations : List String) : Db :=
  relations.foldl (putNew candidate db) []

def mergeNew (delta current : Db) (relation : String) : Db :=
  if (delta.tuples relation).isEmpty then current
  else current.add relation (delta.tuples relation)

def dbMergeDelta (db delta : Db) (relations : List String) : Db :=
  relations.foldl (mergeNew delta) db

def deltaEmpty (delta : Db) (relations : List String) : Bool :=
  relations.all fun relation => (delta.tuples relation).isEmpty

section

variable (D : Doubles) (control : Option QueryControl)

/-- A database, with the error that cut the evaluation short if one did. -/
structure QueryEvaluationResult where
  db : Db
  error : Option QueryEvaluationError
deriving DecidableEq, Repr

/-- Keep this database when an error is recorded. -/
def orKeep (db : Db) (evaluation : Eval QueryEvaluationResult) : Eval QueryEvaluationResult :=
  fun steps =>
    match evaluation steps with
    | .error (.error error) => .ok (⟨db, some error⟩, steps)
    | result => result

/-- The state of the loop of rounds. -/
structure Round where
  db : Db
  sources : CandidateSources
  delta : Db

/-- The relations read positively that the rules also derive. -/
def deltaRelationNames (rules : List Rule) : List String :=
  (positiveRelationNames rules).filter fun relation => (ruleHeadRelations rules).contains relation

def initialSources (db : Db) (rules : List Rule) (candidates : CandidateSources) :
    CandidateSources :=
  buildCandidateSources D.str db (positiveRelationNames rules) candidates

/-- Every rule once over the given database, up to the first error. -/
def seedFrom (db : Db) (sources : CandidateSources) : List Rule → Db → Eval QueryEvaluationResult
  | [], current => pure ⟨current, none⟩
  | rule :: rest, current => orKeep current do
      let derived ← deriveRuleIndexed D control db sources rule
      seedFrom db sources rest (current.add rule.headRelation derived)

/-- The round after the seeding. -/
def firstRound (db : Db) (rules : List Rule) (candidates : CandidateSources) (seeded : Db) : Round :=
  let delta := dbNewOnly seeded db (ruleHeadRelations rules)
  ⟨seeded, addDeltaSources D.str (initialSources D db rules candidates) delta
    (positiveRelationNames rules), delta⟩

/-- Add to a database what each rule derives from the new tuples. -/
def deriveDeltaFrom (round : Round) (deltaSources : CandidateSources)
    (deltaRelations : List String) : List Rule → Db → Eval Db
  | [], current => pure current
  | rule :: rest, current => do
      let derived ← deriveRuleDelta D control round.db round.sources round.delta deltaSources
        deltaRelations rule
      deriveDeltaFrom round deltaSources deltaRelations rest (current.add rule.headRelation derived)

def deriveDelta (rules : List Rule) (round : Round) : Eval Db := do
  let deltaSources := buildCandidateSources D.str round.delta (deltaRelationNames rules) []
  let candidate ← deriveDeltaFrom D control round deltaSources (deltaRelationNames rules) rules []
  pure (dbNewOnly candidate round.db (ruleHeadRelations rules))

/-- Every rule once for each of its literals pinned to the new tuples. -/
def nextRound (rules : List Rule) (round : Round) : Eval Round := do
  let delta ← deriveDelta D control rules round
  pure ⟨dbMergeDelta round.db delta (ruleHeadRelations rules),
    addDeltaSources D.str round.sources delta (positiveRelationNames rules), delta⟩

/-- The loop of rounds, until no relation that is read has a new tuple. -/
def roundsFrom (rules : List Rule) : Nat → Round → Eval QueryEvaluationResult
  | 0, _ => halt .outOfFuel
  | fuel + 1, round =>
    if deltaEmpty round.delta (deltaRelationNames rules) then pure ⟨round.db, none⟩
    else orKeep round.db do
      let next ← nextRound D control rules round
      roundsFrom rules fuel next

def fixpointWithCandidates (fuel : Nat) (db : Db) (rules : List Rule)
    (candidates : CandidateSources) : Eval QueryEvaluationResult := do
  let seeded ← seedFrom D control db (initialSources D db rules candidates) rules db
  match seeded.error with
  | some _ => pure seeded
  | none => roundsFrom D control rules fuel (firstRound D db rules candidates seeded.db)

/-! ### The strata -/

def runStrataFrom (fuel : Nat) (candidates : CandidateSources) :
    List (List Rule) → Db → Eval QueryEvaluationResult
  | [], db => pure ⟨db, none⟩
  | stratum :: rest, db => do
      let result ← fixpointWithCandidates D control fuel db stratum candidates
      match result.error with
      | some _ => pure result
      | none => runStrataFrom fuel candidates rest result.db

/-- `run-strata-db-with-candidates-result!`. -/
def runStrataDb (fuel : Nat) (db : Db) (strata : List (List Rule))
    (candidates : CandidateSources) : Except Stop QueryEvaluationResult :=
  (runStrataFrom D control fuel candidates strata db 0).map (·.1)

end

end Beagle.Query
