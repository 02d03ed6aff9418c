/-
The intermediate form of queries and the values rules run over.

A rule has one head and an ordered body of literals: a relation literal, perhaps
negated, a comparison, or a builtin that binds one fresh variable.  A tuple is a
list of Terms, a database a set of tuples for each relation name, and both tuples
and the sets of them are compared with the language's `=`.

Candidate sources: where a relation literal looks for its tuples.

A materialised source numbers the rows of a relation and files the numbers by the
value at each position, or, for the three columns of `triple`, in three tries.  The
other sources are objects of the store: an occurrence source answers with positions
of the operation log, a rotation source matches live propositions, and a virtual
source asks the text search.  What the evaluator uses of those objects is their
answers, so here they are their answers.
-/
import Beagle.Lib.Computations
import Beagle.Lib.Keyed
import Beagle.Store.TermStore

namespace Beagle.Query

open Beagle.Lib Beagle.Store

/-! ### Rules -/

/-- A variable by its name, or a constant; what the compiler hands over may be neither. -/
structure QueryTerm where
  name : Option String
  value : Option Term
deriving DecidableEq, Repr

/-- `query-term?`. -/
def QueryTerm.wellFormed (term : QueryTerm) : Bool :=
  match term.name with
  | some name => decide (0 < name.utf8ByteSize) && term.value.isNone
  | none => term.value.isSome

inductive LiteralKind where
  | relation
  | comparison
  | builtin
  | other (kind : Keyword)
deriving DecidableEq, Repr

structure Literal where
  kind : LiteralKind
  relation : String
  arguments : List QueryTerm
  negated : Bool
  operator : Keyword
  binding : String
deriving DecidableEq, Repr

structure Rule where
  headRelation : String
  headArguments : List QueryTerm
  body : List Literal
deriving DecidableEq, Repr

def QueryTerm.var (name : String) : QueryTerm := ⟨some name, none⟩

def QueryTerm.constant (value : Term) : QueryTerm := ⟨none, some value⟩

def relationLiteral (relation : String) (arguments : List QueryTerm) : Literal :=
  ⟨.relation, relation, arguments, false, ⟨"none"⟩, ""⟩

def negatedLiteral (relation : String) (arguments : List QueryTerm) : Literal :=
  ⟨.relation, relation, arguments, true, ⟨"none"⟩, ""⟩

def comparisonLiteral (operator : Keyword) (arguments : List QueryTerm) : Literal :=
  ⟨.comparison, "", arguments, false, operator, ""⟩

def builtinLiteral (operator : Keyword) (arguments : List QueryTerm) (binding : String) : Literal :=
  ⟨.builtin, "", arguments, false, operator, binding⟩

/-- A relation literal that is not negated. -/
def Literal.positive (literal : Literal) : Bool :=
  literal.kind == .relation && !literal.negated

/-! ### Relations and operators -/

def tripleRelation : String := "triple"
def occurrenceRelation : String := "occurrence"
def withdrawalRelation : String := "withdrawal"
def textMatchRelation : String := "text-match"
def textPhraseRelation : String := "text-phrase"
def textSubstringRelation : String := "text-substring"
def textStemRelation : String := "text-stem"
def textSearchRelation : String := "text-search"

def textRelations : List String :=
  [textMatchRelation, textPhraseRelation, textSubstringRelation, textStemRelation,
    textSearchRelation]

def baseRelations : List String :=
  textRelations ++ [tripleRelation, occurrenceRelation, withdrawalRelation]

def eqOperator : Keyword := ⟨"eq"⟩
def neOperator : Keyword := ⟨"ne"⟩
def ltOperator : Keyword := ⟨"lt"⟩
def leOperator : Keyword := ⟨"le"⟩
def gtOperator : Keyword := ⟨"gt"⟩
def geOperator : Keyword := ⟨"ge"⟩

def comparisonOperators : List Keyword :=
  [eqOperator, neOperator, ltOperator, leOperator, gtOperator, geOperator]

def addOperator : Keyword := ⟨"+"⟩
def subtractOperator : Keyword := ⟨"-"⟩
def multiplyOperator : Keyword := ⟨"*"⟩
def divideOperator : Keyword := ⟨"/"⟩
def modOperator : Keyword := ⟨"mod"⟩

def builtinOperators : List Keyword :=
  [addOperator, subtractOperator, multiplyOperator, divideOperator, modOperator]

/-! ### Tuples and databases -/

abbrev Tuple := List Term

/-- Two tuples are equal when they are equal position by position. -/
def sameTuple : Tuple → Tuple → Bool
  | [], [] => true
  | a :: as, b :: bs => a.same b && sameTuple as bs
  | _, _ => false

theorem sameTuple_symm : ∀ a b : Tuple, sameTuple a b = true → sameTuple b a = true
  | [], [], _ => rfl
  | a :: as, b :: bs, h => by
    simp only [sameTuple, Bool.and_eq_true] at h ⊢
    exact ⟨Term.same_symm h.1, sameTuple_symm as bs h.2⟩
  | [], _ :: _, h => by simp [sameTuple] at h
  | _ :: _, [], h => by simp [sameTuple] at h

theorem sameTuple_trans :
    ∀ a b c : Tuple, sameTuple a b = true → sameTuple b c = true → sameTuple a c = true
  | [], [], [], _, _ => rfl
  | a :: as, b :: bs, c :: cs, hab, hbc => by
    simp only [sameTuple, Bool.and_eq_true] at hab hbc ⊢
    exact ⟨Term.same_trans hab.1 hbc.1, sameTuple_trans as bs cs hab.2 hbc.2⟩
  | [], _ :: _, _, h, _ => by simp [sameTuple] at h
  | _ :: _, [], _, h, _ => by simp [sameTuple] at h
  | _ :: _, _ :: _, [], _, h => by simp [sameTuple] at h
  | [], [], _ :: _, _, h => by simp [sameTuple] at h

def termLike : Likeness Term where
  same := Term.same
  symm _ _ := Term.same_symm
  trans _ _ _ := Term.same_trans

def tupleLike : Likeness Tuple where
  same := sameTuple
  symm := sameTuple_symm
  trans := sameTuple_trans

def nameLike : Likeness String := Likeness.ofEq String

/-- The tuples of each relation. -/
abbrev Db := List (String × List Tuple)

/-- The tuples of a relation, none when the name is absent. -/
def Db.tuples (db : Db) (relation : String) : List Tuple := (nameLike.get db relation).getD []

/-- Is the tuple in the relation? -/
def Db.contains (db : Db) (relation : String) (tuple : Tuple) : Bool :=
  tupleLike.mem (db.tuples relation) tuple

/-- Put tuples into a relation. -/
def Db.add (db : Db) (relation : String) (tuples : List Tuple) : Db :=
  nameLike.set db relation (tupleLike.into (db.tuples relation) tuples)

theorem Db.tuples_set (db : Db) (r : String) (ts : List Tuple) (other : String) :
    Db.tuples (nameLike.set db r ts) other =
      if r = other then ts else db.tuples other := by
  unfold Db.tuples
  rw [nameLike.get_set]
  by_cases h : r = other <;> simp [nameLike, h]

theorem Db.tuples_add_of_ne (db : Db) {r other : String} (ts : List Tuple)
    (h : r ≠ other) : (db.add r ts).tuples other = db.tuples other := by
  unfold Db.add
  rw [Db.tuples_set, if_neg h]

/-! ### Errors and controls -/

structure QueryEvaluationError where
  errorType : Keyword
  code : Keyword
  message : String
  reason : Option Keyword
  steps : Option Nat
  maxSteps : Option Nat
  timeoutMs : Option Nat
  bytes : Option Nat
  maximum : Option Nat
deriving DecidableEq, Repr

/-- `query-evaluation-error`. -/
def queryEvaluationError (errorType code : Keyword) (message : String) : QueryEvaluationError :=
  ⟨errorType, code, message, none, none, none, none, none, none⟩

/-- The budget of an evaluation.  What it reads of the world, the clock and the
cancellation cell, is given for each of its checks. -/
structure QueryControl where
  maxSteps : Nat
  deadlineNs : Int
  timeoutMs : Nat
  cancelled : Nat → Option Keyword
  now : Nat → Int

/-- What ends an evaluation short of a result. -/
inductive Stop where
  /-- An error recorded in the evaluation context. -/
  | error (error : QueryEvaluationError)
  /-- "store: unbound query variable reached evaluation". -/
  | unboundVariable
  /-- An element past the end of a vector. -/
  | outOfRange
  /-- Integer arithmetic past the machine range. -/
  | overflow
  /-- A fault of the store a source reads from. -/
  | store (fault : Fault)
  /-- The model's loop bound. -/
  | outOfFuel
deriving DecidableEq, Repr

/-- An evaluation: it counts its checks and may stop. -/
abbrev Eval := Run Nat Stop

/-- `nth`. -/
def nth {α : Type} (values : List α) (position : Nat) : Eval α :=
  match values[position]? with
  | some value => pure value
  | none => halt .outOfRange

/-! ### The sources -/

abbrev HandleBucket := List (Term × List Nat)
abbrev HandleTrieLeaf := List (Term × List Nat)
abbrev HandleTrieBranch := List (Term × HandleTrieLeaf)
abbrev HandleTrie := List (Term × HandleTrieBranch)

/-- The operations in a window of the log: `operation-candidate-positions` by the
coordinate and the proposition asked for, and `occurrence-tuple-at`. -/
structure OccurrenceCandidateSource where
  candidatePositions : Option Term → Option Term → Except Fault (List Nat)
  tupleAt : Nat → Except Fault Tuple

/-- A projected rotation under a lower bound: `matching` by the three values asked for. -/
structure RotationCandidateSource where
  matching : Option Term → Option Term → Option Term → Except Fault (List OperationOccurrence)
  lowerExclusive : Int

/-- The text search over a corpus: the rows of a text relation for a needle, by the
index or by a scan. -/
structure TextSearchSource where
  rows : String → Bool → Option Term → Except QueryEvaluationError (List Tuple)

structure CandidateSource where
  rows : List Tuple
  positions : List (Nat × HandleBucket)
  spo : HandleTrie
  pos : HandleTrie
  osp : HandleTrie
  occurrence : Option OccurrenceCandidateSource
  rotation : Option RotationCandidateSource

inductive CandidateSourceValue where
  | candidate (source : CandidateSource)
  | virtual (relation : String) (source : TextSearchSource)

abbrev CandidateSources := List (String × CandidateSourceValue)

def CandidateSources.find (sources : CandidateSources) (relation : String) :
    Option CandidateSourceValue := nameLike.get sources relation

def emptyCandidateSource : CandidateSource := ⟨[], [], [], [], [], none, none⟩

/-! ### The order of rows -/

def lengthKey (tag value : String) : String :=
  tag ++ toString value.utf8ByteSize ++ ":" ++ value

section

variable (showFloat : Float64 → String)

/-- The stable order of rows compares these keys. -/
def termKey : Term → String
  | .atom (.string value) => lengthKey "s" value
  | .atom (.int value) => "i" ++ toString value.toInt ++ ";"
  | .atom (.float value) => "f" ++ showFloat value ++ ";"
  | .atom (.bool value) => if value then "b1;" else "b0;"
  | .atom (.keyword value) => lengthKey "k" (":" ++ value.spelling)
  | .atom (.instant value) =>
    "m" ++ toString value.epochSeconds.toInt ++ ":" ++ toString value.nanos ++ ";"
  | .triple t1 t2 t3 =>
    lengthKey "t" (termKey t1) ++ lengthKey "" (termKey t2) ++ lengthKey "" (termKey t3)

def rowKey (row : Tuple) : String :=
  row.foldl (fun acc value => acc ++ lengthKey "" (termKey showFloat value)) "r"

/-- The rows by their keys: a key held by several rows gives its last one each time. -/
def orderRowVector (rows : List Tuple) : List Tuple :=
  let byKey := rows.foldl (fun acc row => nameLike.set acc (rowKey showFloat row) row) []
  ((rows.map (rowKey showFloat)).insertionSort (· ≤ ·)).map fun key =>
    (nameLike.get byKey key).getD []

end

/-! ### Filing a row -/

def appendHandle (index : HandleBucket) (key : Term) (handle : Nat) : HandleBucket :=
  termLike.set index key (((termLike.get index key).getD []) ++ [handle])

/-- `get` on an index by position. -/
def bucketAt (index : List (Nat × HandleBucket)) (position : Nat) : HandleBucket :=
  ((Likeness.ofEq Nat).get index position).getD []

def addPositionHandles (index : List (Nat × HandleBucket)) (handle : Nat) :
    Nat → Tuple → List (Nat × HandleBucket)
  | _, [] => index
  | position, value :: rest =>
    addPositionHandles
      ((Likeness.ofEq Nat).set index position (appendHandle (bucketAt index position) value handle))
      handle (position + 1) rest

/-- File a handle under three keys. -/
def trieAdd (trie : HandleTrie) (firstKey secondKey thirdKey : Term) (handle : Nat) : HandleTrie :=
  let firstNode := (termLike.get trie firstKey).getD []
  let secondNode := (termLike.get firstNode secondKey).getD []
  termLike.set trie firstKey
    (termLike.set firstNode secondKey (appendHandle secondNode thirdKey handle))

def candidateSourceAdd (relation : String) (source : CandidateSource) (tuple : Tuple) :
    CandidateSource :=
  let handle := source.rows.length
  let withRow := { source with rows := source.rows ++ [tuple] }
  match tuple with
  | [t1, t2, t3] =>
    if relation = tripleRelation then
      { withRow with
        spo := trieAdd source.spo t1 t2 t3 handle
        pos := trieAdd source.pos t2 t3 t1 handle
        osp := trieAdd source.osp t3 t1 t2 handle }
    else
      { withRow with positions := addPositionHandles source.positions handle 0 tuple }
  | _ => { withRow with positions := addPositionHandles source.positions handle 0 tuple }

def candidateSourceAddRows (relation : String) (source : CandidateSource) (tuples : List Tuple) :
    CandidateSource :=
  tuples.foldl (candidateSourceAdd relation) source

section

variable (showFloat : Float64 → String)

/-- A source over the rows of a relation of the database, unless there is one. -/
def buildSource (db : Db) (sources : CandidateSources) (relation : String) : CandidateSources :=
  if (sources.find relation).isSome then sources
  else nameLike.set sources relation (.candidate (candidateSourceAddRows relation
    emptyCandidateSource (orderRowVector showFloat (db.tuples relation))))

def buildCandidateSources (db : Db) (relations : List String) (seed : CandidateSources) :
    CandidateSources :=
  relations.foldl (buildSource showFloat db) seed

/-- What a relation's rows are added to. -/
def CandidateSources.base (sources : CandidateSources) (relation : String) : CandidateSource :=
  match sources.find relation with
  | some (.candidate source) => source
  | _ => emptyCandidateSource

/-- The new rows of a relation added to its source, if there are any. -/
def addDeltaSource (delta : Db) (sources : CandidateSources) (relation : String) :
    CandidateSources :=
  if (delta.tuples relation).isEmpty then sources
  else nameLike.set sources relation (.candidate (candidateSourceAddRows relation
    (sources.base relation) (orderRowVector showFloat (delta.tuples relation))))

def addDeltaSources (sources : CandidateSources) (delta : Db) (relations : List String) :
    CandidateSources :=
  relations.foldl (addDeltaSource showFloat delta) sources

end

/-! ### Probing -/

def addHandleValues (handles values : List Nat) : List Nat := (Likeness.ofEq Nat).into handles values

def orderedHandles (handles : List Nat) : List Nat := handles.insertionSort (· ≤ ·)

def trieLeafHandles (node : HandleTrieLeaf) : List Nat :=
  orderedHandles (node.foldl (fun handles entry => addHandleValues handles entry.2) [])

def trieBranchHandles (node : HandleTrieBranch) : List Nat :=
  orderedHandles (node.foldl (fun handles entry => addHandleValues handles (trieLeafHandles entry.2)) [])

def trieNodeHandles (node : HandleTrie) : List Nat :=
  orderedHandles
    (node.foldl (fun handles entry => addHandleValues handles (trieBranchHandles entry.2)) [])

/-- The handles filed under the leading keys. -/
def trieProbe (trie : HandleTrie) : List Term → List Nat
  | [] => trieNodeHandles trie
  | [k1] =>
    match termLike.get trie k1 with
    | some branch => trieBranchHandles branch
    | none => []
  | [k1, k2] =>
    match termLike.get trie k1 with
    | some branch =>
      match termLike.get branch k2 with
      | some leaf => trieLeafHandles leaf
      | none => []
    | none => []
  | [k1, k2, k3] =>
    match termLike.get trie k1 with
    | some branch =>
      match termLike.get branch k2 with
      | some leaf => (termLike.get leaf k3).getD []
      | none => []
    | none => []
  | _ => []

/-! ### Substitutions -/

abbrev Substitution := List (String × Term)

def Substitution.value (subst : Substitution) (name : String) : Option Term :=
  nameLike.get subst name

/-- `assoc`: the newest binding of a name stands in front. -/
def Substitution.bind (subst : Substitution) (name : String) (value : Term) : Substitution :=
  (name, value) :: subst

/-- `term-value`, and `bound-term-value`: the value bound, if any. -/
def termValue (term : QueryTerm) (subst : Substitution) : Option Term :=
  match term.name with
  | some name => subst.value name
  | none => term.value

/-- The values bound at the leading positions of an order. -/
def boundPositions (arguments : List QueryTerm) (subst : Substitution) : List Nat → Eval (List Term)
  | [] => pure []
  | position :: rest => do
      let argument ← nth arguments position
      match termValue argument subst with
      | none => pure []
      | some value =>
        let values ← boundPositions arguments subst rest
        pure (value :: values)

def triplePositionHandles (source : CandidateSource) (arguments : List QueryTerm)
    (subst : Substitution) : Eval (Option (List Nat)) := do
  let spoKey ← boundPositions arguments subst [0, 1, 2]
  let posKey ← boundPositions arguments subst [1, 2, 0]
  let ospKey ← boundPositions arguments subst [2, 0, 1]
  if spoKey.length = 0 ∧ posKey.length = 0 ∧ ospKey.length = 0 then pure none
  else if spoKey.length ≥ posKey.length ∧ spoKey.length ≥ ospKey.length then
    pure (some (trieProbe source.spo spoKey))
  else if posKey.length ≥ ospKey.length then pure (some (trieProbe source.pos posKey))
  else pure (some (trieProbe source.osp ospKey))

/-- The smallest bucket of a bound position, if a position is bound. -/
def positionalHandles (source : CandidateSource) (subst : Substitution) :
    Nat → Option (List Nat) → List QueryTerm → Option (List Nat)
  | _, best, [] => best
  | position, best, argument :: rest =>
    match termValue argument subst with
    | none => positionalHandles source subst (position + 1) best rest
    | some value =>
      let candidate := (termLike.get (bucketAt source.positions position) value).getD []
      match best with
      | none => positionalHandles source subst (position + 1) (some candidate) rest
      | some found =>
        if candidate.length < found.length then
          positionalHandles source subst (position + 1) (some candidate) rest
        else positionalHandles source subst (position + 1) best rest

/-- Run what does not count checks. -/
def fromExcept {α : Type} : Except Stop α → Eval α
  | .ok value => pure value
  | .error stop => halt stop

/-- Run a read of the store. -/
def fromStore {α : Type} (read : Except Fault α) : Eval α := fromExcept (read.mapError .store)

def sourceHandles (source : CandidateSource) (relation : String) (arguments : List QueryTerm)
    (subst : Substitution) : Eval (Option (List Nat)) :=
  match source.occurrence with
  | some occurrence => do
      let coordinate ← nth arguments 0
      let proposition ← nth arguments 2
      let positions ← fromStore
        (occurrence.candidatePositions (termValue coordinate subst) (termValue proposition subst))
      pure (some positions)
  | none =>
    if relation = tripleRelation ∧ arguments.length = 3 then
      triplePositionHandles source arguments subst
    else pure (positionalHandles source subst 0 none arguments)

def sourceRow (source : CandidateSource) (handle : Nat) : Eval Tuple :=
  match source.occurrence with
  | some occurrence => fromStore (occurrence.tupleAt handle)
  | none => nth source.rows handle

end Beagle.Query
