/-
What an accepted plan answers: the rows of the relation it finds, or their
aggregates, in its order.

Every access to a row goes by a position of the plan, so each function runs as an
evaluation that may stop out of range.
-/
import Beagle.Query.Datalog
import Beagle.Query.Plan

namespace Beagle.Query

open Beagle.Lib Beagle.Store

/-- The value of a row at a position. -/
def column (row : Tuple) (position : Int) : Eval Term :=
  if position < 0 then halt .outOfRange else nth row position.toNat

/-! ### The order of rows -/

def termRank : Term → Int
  | .atom (.bool _) => 0
  | .atom (.int _) => 1
  | .atom (.float _) => 1
  | .atom (.string _) => 2
  | .atom (.keyword _) => 3
  | .atom (.instant _) => 4
  | .triple _ _ _ => 5

def intCompare (left right : Int) : Int := if left < right then -1 else if right < left then 1 else 0

def boolCompare (left right : Bool) : Int := if left = right then 0 else if left then 1 else -1

/-- `compare`, on strings. -/
def textCompare (left right : String) : Int :=
  if left < right then -1 else if right < left then 1 else 0

section

variable (D : Doubles)

def floatCompare (left right : Float64) : Int :=
  if D.lt left right then -1 else if D.lt right left then 1 else 0

def termCompare (left right : Term) : Int :=
  let rankOrder := intCompare (termRank left) (termRank right)
  if rankOrder ≠ 0 then rankOrder
  else
    match left, right with
    | .atom (.bool leftBool), .atom (.bool rightBool) => boolCompare leftBool rightBool
    | .atom (.int leftInt), .atom (.int rightInt) => intCompare leftInt.toInt rightInt.toInt
    | .atom (.int leftInt), .atom (.float rightFloat) => floatCompare D (D.ofLong leftInt) rightFloat
    | .atom (.float leftFloat), .atom (.int rightInt) => floatCompare D leftFloat (D.ofLong rightInt)
    | .atom (.float leftFloat), .atom (.float rightFloat) => floatCompare D leftFloat rightFloat
    | .atom (.string leftText), .atom (.string rightText) => textCompare leftText rightText
    | .atom (.keyword leftKeyword), .atom (.keyword rightKeyword) =>
      textCompare (":" ++ leftKeyword.spelling) (":" ++ rightKeyword.spelling)
    | .atom (.instant leftInstant), .atom (.instant rightInstant) =>
      let secondsOrder :=
        intCompare leftInstant.epochSeconds.toInt rightInstant.epochSeconds.toInt
      if secondsOrder = 0 then intCompare leftInstant.nanos rightInstant.nanos else secondsOrder
    | .triple left1 left2 left3, .triple right1 right2 right3 =>
      let firstOrder := termCompare left1 right1
      let secondOrder := if firstOrder = 0 then termCompare left2 right2 else firstOrder
      if secondOrder = 0 then termCompare left3 right3 else secondOrder
    | left, right => textCompare (termKey D.str left) (termKey D.str right)

def orderedRowCompare (left right : Tuple) : List OrderClause → Eval Int
  | [] => pure (textCompare (rowKey D.str left) (rowKey D.str right))
  | clause :: rest => do
      let leftValue ← column left clause.column
      let rightValue ← column right clause.column
      let columnOrder := termCompare D leftValue rightValue
      let directedOrder := if clause.direction = ⟨"desc"⟩ then 0 - columnOrder else columnOrder
      if directedOrder = 0 then orderedRowCompare left right rest else pure directedOrder

variable (order : List OrderClause)

/-- The front of the left rows goes first unless it is after the front of the right ones. -/
def mergeOrderedRowVectors : List Tuple → List Tuple → Eval (List Tuple)
  | [], right => pure right
  | left, [] => pure left
  | left :: lefts, right :: rights => do
      let rowOrder ← orderedRowCompare D left right order
      if rowOrder ≤ 0 then do
        let merged ← mergeOrderedRowVectors lefts (right :: rights)
        pure (left :: merged)
      else do
        let merged ← mergeOrderedRowVectors (left :: lefts) rights
        pure (right :: merged)
termination_by left right => left.length + right.length

def mergeSortOrderedRows (rows : List Tuple) : Eval (List Tuple) :=
  if rows.length ≤ 1 then pure rows
  else do
    let middle := rows.length / 2
    let left ← mergeSortOrderedRows (rows.take middle)
    let right ← mergeSortOrderedRows (rows.drop middle)
    mergeOrderedRowVectors D order left right
termination_by rows.length
decreasing_by all_goals (simp only [List.length_take, List.length_drop]; omega)

end

/-- The rows in the plan's order, up to its limit. -/
def orderedPlanRows (D : Doubles) (plan : QueryPlan) (rows : List Tuple) : Eval (List Tuple) := do
  let ordered ←
    if plan.order.isEmpty then pure (orderRowVector D.str rows)
    else mergeSortOrderedRows D plan.order rows
  pure (match plan.limit with
    | some limit => ordered.take limit.toNat
    | none => ordered)

/-! ### Aggregates -/

def numericAggregateOperators : List Keyword := [⟨"sum"⟩, ⟨"avg"⟩, ⟨"min"⟩, ⟨"max"⟩]

inductive NumericAtom where
  | int (value : Int64)
  | float (value : Float64)
deriving DecidableEq, Repr

def NumericAtom.term : NumericAtom → Term
  | .int value => .atom (.int value)
  | .float value => .atom (.float value)

def NumericAtom.isInteger : NumericAtom → Bool
  | .int _ => true
  | .float _ => false

def numericInt : NumericAtom → Int64
  | .int value => value
  | .float _ => 0

structure AggregateGroup where
  key : Tuple
  members : List Tuple

structure AggregateGroups where
  byKey : List (String × AggregateGroup)
  order : List String

section

variable (D : Doubles)

def numberAtom : Term → Option NumericAtom
  | .atom (.int value) => some (.int value)
  | .atom (.float value) => some (.float value)
  | .atom (.string text) =>
    match D.parseLong text with
    | some value => some (.int value)
    | none => (D.parseDouble text).map .float
  | _ => none

def requiredNumber (value : Term) : NumericAtom := (numberAtom D value).getD (.int 0)

def numericFloat : NumericAtom → Float64
  | .int value => D.ofLong value
  | .float value => value

/-- Is there a row whose value at the position passes the test? -/
def anyColumn (position : Int) (test : Term → Bool) : List Tuple → Eval Bool
  | [] => pure false
  | row :: rest => do
      let value ← column row position
      if test value then pure true else anyColumn position test rest

/-- Fold the values of the rows at the position. -/
def foldColumn {β : Type} (position : Int) (step : β → Term → Eval β) : List Tuple → β → Eval β
  | [], acc => pure acc
  | row :: rest, acc => do
      let value ← column row position
      let next ← step acc value
      foldColumn position step rest next

/-- `nonnumeric-row?`. -/
def nonnumericRow (rows : List Tuple) (position : Int) : Eval Bool :=
  anyColumn position (fun value => decide (numberAtom D value = none)) rows

def numericColumnError (rows : List Tuple) : List AggregateSpec → Eval (Option QueryError)
  | [] => pure none
  | spec :: rest =>
    if numericAggregateOperators.contains spec.operator then do
      let position := spec.argument.getD 0
      let bad ← nonnumericRow D rows position
      if bad then
        pure (some ⟨⟨"query-nonnumeric-aggregate"⟩,
          "aggregate position " ++ toString position ++ " contains a non-numeric Term"⟩)
      else numericColumnError rows rest
    else numericColumnError rows rest

/-- The values of a row at some positions. -/
def columns (row : Tuple) : List Int → Eval Tuple
  | [] => pure []
  | position :: rest => do
      let value ← column row position
      let values ← columns row rest
      pure (value :: values)

def addToGroup (groups : AggregateGroups) (key row : Tuple) : AggregateGroups :=
  let keyText := rowKey D.str key
  match nameLike.get groups.byKey keyText with
  | some group =>
    ⟨nameLike.set groups.byKey keyText ⟨group.key, group.members ++ [row]⟩, groups.order⟩
  | none => ⟨nameLike.set groups.byKey keyText ⟨key, [row]⟩, groups.order ++ [keyText]⟩

def groupRows (grouping : List Int) : List Tuple → AggregateGroups → Eval AggregateGroups
  | [], groups => pure groups
  | row :: rest, groups => do
      let key ← columns row grouping
      groupRows grouping rest (addToGroup D groups key row)

/-- `all-integers?`. -/
def allIntegers (rows : List Tuple) (position : Int) : Eval Bool := do
  let other ← anyColumn position (fun value => !(requiredNumber D value).isInteger) rows
  pure (!other)

def sumValues (rows : List Tuple) (position : Int) : Eval NumericAtom := do
  let integers ← allIntegers D rows position
  if integers then do
    let total ← foldColumn position (fun (acc : Int64) value => fromExcept
      (checkedInt (acc.toInt + (numericInt (requiredNumber D value)).toInt))) rows 0
    pure (.int total)
  else do
    let total ← foldColumn position (fun acc value =>
      pure (D.add acc (numericFloat D (requiredNumber D value)))) rows (.ofBits 0)
    pure (.float total)

/-- The better of two numbers, the first one unless the second is past it. -/
def better (maximum : Bool) (present candidate : NumericAtom) : NumericAtom :=
  if (if maximum then D.lt (numericFloat D present) (numericFloat D candidate)
    else D.lt (numericFloat D candidate) (numericFloat D present)) then candidate
  else present

def extremeValue (rows : List Tuple) (position : Int) (maximum : Bool) :
    Eval (Option NumericAtom) :=
  foldColumn position (fun best value =>
    let candidate := requiredNumber D value
    pure (some (match best with
      | none => candidate
      | some present => better D maximum present candidate))) rows none

def distinctColumnCount (rows : List Tuple) (position : Int) : Eval Nat := do
  let keys ← foldColumn position
    (fun keys value => pure (nameLike.conj keys (termKey D.str value))) rows []
  pure keys.length

def aggregateValue (rows : List Tuple) (spec : AggregateSpec) : Eval NumericAtom :=
  let position := spec.argument.getD 0
  if spec.operator = countOperator then pure (.int (Int64.ofNat rows.length))
  else if spec.operator = ⟨"count-distinct"⟩ then do
    let distinct ← distinctColumnCount D rows position
    pure (.int (Int64.ofNat distinct))
  else if spec.operator = ⟨"sum"⟩ then sumValues D rows position
  else if spec.operator = ⟨"avg"⟩ then do
    let total ← sumValues D rows position
    pure (.float (D.div (numericFloat D total) (D.ofLong (Int64.ofNat rows.length))))
  else if spec.operator = ⟨"min"⟩ then do
    let extreme ← extremeValue D rows position false
    pure (extreme.getD (.int 0))
  else if spec.operator = ⟨"max"⟩ then do
    let extreme ← extremeValue D rows position true
    pure (extreme.getD (.int 0))
  else pure (.int 0)

def comparisonNumber (operator : Keyword) (left right : NumericAtom) : Bool :=
  let leftNumber := numericFloat D left
  let rightNumber := numericFloat D right
  if operator = eqOperator then leftNumber.same rightNumber
  else if operator = neOperator then !leftNumber.same rightNumber
  else if operator = ltOperator then D.lt leftNumber rightNumber
  else if operator = leOperator then D.le leftNumber rightNumber
  else if operator = gtOperator then D.lt rightNumber leftNumber
  else if operator = geOperator then D.le rightNumber leftNumber
  else false

def aggregateValues (rows : List Tuple) : List AggregateSpec → Eval (List NumericAtom)
  | [] => pure []
  | spec :: rest => do
      let value ← aggregateValue D rows spec
      let values ← aggregateValues rows rest
      pure (value :: values)

def appendAggregateValues (row : Tuple) (values : List NumericAtom) : Tuple :=
  row ++ values.map (·.term)

/-- `having-passes?`. -/
def havingPasses (row : Tuple) (groupingCount : Nat) : List HavingClause → Eval Bool
  | [] => pure true
  | clause :: rest => do
      let value ← column row (groupingCount + clause.aggregateIndex)
      if comparisonNumber D clause.operator (requiredNumber D value)
        (requiredNumber D clause.value) then havingPasses row groupingCount rest
      else pure false

def aggregateRow (find : FindSpec) (groups : AggregateGroups) (keyText : String) :
    Eval (List Tuple) := do
  let group := (nameLike.get groups.byKey keyText).getD ⟨[], []⟩
  let values ← aggregateValues D group.members find.aggregates
  pure [appendAggregateValues group.key values]

def keepPassing (find : FindSpec) (row : Tuple) : Eval (List Tuple) := do
  let passes ← havingPasses D row find.grouping.length find.having
  pure (if passes then [row] else [])

end

/-! ### Results -/

structure QueryResult where
  rows : List Tuple
  errors : List QueryError
  overLimit : Option Int
  maximum : Option Int
deriving DecidableEq, Repr

def successResult (rows : List Tuple) : QueryResult := ⟨rows, [], none, none⟩

def failureResult (errors : List QueryError) : QueryResult := ⟨[], errors, none, none⟩

def limitedResult (error : QueryError) (countValue maximum : Int) : QueryResult :=
  ⟨[], [error], some countValue, some maximum⟩

structure QueryExecutionResult where
  queryResult : Option QueryResult
  error : Option QueryEvaluationError
deriving DecidableEq, Repr

section

variable (D : Doubles) (needleValid : String → Option Term → Bool) (maxResults : Int)

def aggregateResult (db : Db) (plan : QueryPlan) : Eval QueryResult := do
  let rows := db.tuples plan.find.relation
  if rows.isEmpty then pure (successResult [])
  else do
    match ← numericColumnError D rows plan.find.aggregates with
    | some error => pure (failureResult [error])
    | none => do
        let groups ← groupRows D plan.find.grouping rows ⟨[], []⟩
        let aggregated ← collect (aggregateRow D plan.find groups) groups.order
        let survivors ← collect (keepPassing D plan.find) aggregated
        let countValue : Int := survivors.length
        if plan.limit = none ∧ maxResults < countValue then
          pure (limitedResult ⟨⟨"query-result-limit"⟩, "aggregate result has " ++ toString countValue ++
            " groups, over limit " ++ toString maxResults⟩ countValue maxResults)
        else do
          let ordered ← orderedPlanRows D plan survivors
          pure (successResult ordered)

def rowsResult (db : Db) (plan : QueryPlan) : Eval QueryResult := do
  let rows := db.tuples plan.find.relation
  let countValue : Int := rows.length
  if plan.limit = none ∧ maxResults < countValue then
    pure (limitedResult ⟨⟨"query-result-limit"⟩, "result has " ++ toString countValue ++
      " rows, over limit " ++ toString maxResults⟩ countValue maxResults)
  else do
    let ordered ← orderedPlanRows D plan rows
    pure (successResult ordered)

def planResult (db : Db) (plan : QueryPlan) : Eval QueryResult :=
  if plan.find.aggregate then aggregateResult D maxResults db plan else rowsResult D maxResults db plan

/-- `run-plan-projected-result!`. -/
def runPlanProjected (control : Option QueryControl) (fuel : Nat) (db : Db)
    (candidates : CandidateSources) (plan : QueryPlan) : Eval QueryExecutionResult :=
  let errors := validatePlan needleValid maxResults plan
  if !errors.isEmpty then pure ⟨some (failureResult errors), none⟩
  else do
    let evaluation ← runStrataFrom D control fuel candidates plan.strata db
    match evaluation.error with
    | some error => pure ⟨none, some error⟩
    | none => do
        let result ← planResult D maxResults evaluation.db plan
        pure ⟨some result, none⟩

end

end Beagle.Query
