/-
The occurrence-ordered transaction history.

A transaction appends one transaction row and its operation rows, and every
operation row is folded at once into the derived state: its withdrawal target, and
the live positions of its proposition.  Those positions are kept in buckets, one a
proposition handle; while a fold is open they are kept in cells beside the
buckets, and closing the fold puts them back.

Reading the history back.

Transactions are found by their sequence with a binary search, and an operation is
live when its position is among the live positions of its proposition, which
another binary search decides because those positions ascend.
-/
import Beagle.Lib.Bisect
import Beagle.Store.TermStore

namespace Beagle.Store

open Beagle.Lib

def maxTransactionSequence : Int := 9223372036854775806

/-- `inc` on the machine's 64-bit integers. -/
def incInt (value : Int) : Except Fault Int :=
  if value = 9223372036854775807 then .error .trap else .ok (value + 1)

/-! ### What a transaction is made of -/

def validCommitOperation (operation : CommitOperation) : Bool :=
  operation.action = .assert || operation.action = .retract

def validOperations (operations : List CommitOperation) : Bool :=
  !operations.isEmpty && operations.all validCommitOperation

inductive AttestationResult where
  | pending
  | accepted
deriving DecidableEq, Repr

structure CommitValidationAttestation where
  validator : String
  result : AttestationResult
  attestation : String
deriving DecidableEq, Repr

structure CommitMetadata where
  producer : String
  shapeSchemaId : String
  profile : Option String
  validationAttestation : CommitValidationAttestation
deriving DecidableEq, Repr

def canonicalValidator : String := "store/canonical-validator-v1"
def canonicalShapeSchemaId : String := "store/CommitOperationV1"

def commitMetadata (producer shapeSchemaId : String) (profile : Option String) : CommitMetadata :=
  { producer, shapeSchemaId, profile
    validationAttestation := ⟨canonicalValidator, .pending, canonicalValidator⟩ }

section

variable (H : Hashing)

/-! ### The live positions of a proposition -/

def findActiveBucketPosition (root : Root) (handle : Int) : Option Nat :=
  KeyIndex.probe H.handleKeys (root.store.activeBuckets.map (·.tripleHandle))
    (KeyIndex.slotFor H.handleKeys root.activeTable handle) handle

def activePositions (root : Root) (handle : Int) : List Nat :=
  match findActiveBucketPosition H root handle with
  | some position =>
    if root.store.foldOpen then root.store.activeCells.getD position []
    else (root.store.activeBuckets[position]?.map (·.positions)).getD []
  | none => []

/-- `build-active-slots!`. -/
def buildActiveSlots (buckets : List ActiveBucket) (width : Nat) : TermSlots :=
  buildSlots H.handleKeys (buckets.map (·.tripleHandle)) width

def setActivePositions (root : Root) (handle : Int) (positions : List Nat) : Root :=
  let store := root.store
  match findActiveBucketPosition H root handle with
  | some known =>
    if store.foldOpen then
      { root with store := { store with activeCells := store.activeCells.set known positions } }
    else
      { root with store :=
          { store with activeBuckets := store.activeBuckets.set known ⟨handle, positions⟩ } }
  | none =>
    let buckets := store.activeBuckets ++ [⟨handle, if store.foldOpen then [] else positions⟩]
    let width := root.activeTable.length
    let cells := root.cells.slotAdd store.activeSlots (H.handle handle % width)
      store.activeBuckets.length
    let store := { store with
      activeBuckets := buckets
      activeCells := if store.foldOpen then store.activeCells ++ [positions]
        else store.activeCells }
    if buckets.length > slotLoad * width then
      { cells := cells ++ [buildActiveSlots H buckets (2 * width)]
        store := { store with activeSlots := cells.length } }
    else { cells, store }

end

/-- `open-fold-state!`: move the positions out of the buckets into cells. -/
def openFold (root : Root) : Root :=
  if root.store.foldOpen then root
  else
    { root with store :=
        { root.store with
          activeBuckets := root.store.activeBuckets.map fun bucket => ⟨bucket.tripleHandle, []⟩
          activeCells := root.store.activeBuckets.map (·.positions)
          foldOpen := true } }

/-- `close-fold-state!`: put them back. -/
def closeFold (root : Root) : Root :=
  if !root.store.foldOpen then root
  else
    { root with store :=
        { root.store with
          activeBuckets := root.store.activeBuckets.zipWith
            (fun bucket positions => ⟨bucket.tripleHandle, positions⟩) root.store.activeCells
          activeCells := []
          foldOpen := false } }

section

variable (H : Hashing)

/-- Fold one operation row into the derived state.  Whatever is not an assertion withdraws the
    newest live position of its proposition, if there is one. -/
def applyOperationState (root : Root) (operationPosition : Nat) (row : OperationRow) : Root :=
  let active := activePositions H root row.tripleHandle
  let withTarget (target : Option Nat) : Root :=
    { root with store :=
        { root.store with withdrawalTargets := root.store.withdrawalTargets ++ [target] } }
  if row.action = .assert then
    setActivePositions H (withTarget none) row.tripleHandle (active ++ [operationPosition])
  else
    match active.getLast? with
    | none => withTarget none
    | some target =>
      setActivePositions H (withTarget (some target)) row.tripleHandle active.dropLast

/-! ### Appending a transaction -/

def operationHandles (root : Root) : List CommitOperation → Root × List Int
  | [] => (root, [])
  | operation :: rest =>
    let interned := internHandle H root operation.proposition
    let others := operationHandles interned.1 rest
    (others.1, interned.2 :: others.2)

/-- The loop over the ordinals: one operation row after the other, each folded at once. -/
def appendOperationRows (sequence : Int) (firstOperation : Nat) :
    Nat → List (Action × Int) → Root → Root
  | _, [], root => root
  | ordinal, (action, handle) :: rest, root =>
    let row : OperationRow := ⟨sequence, ordinal, action, handle⟩
    let appended := { root with store :=
      { root.store with operations := root.store.operations ++ [row] } }
    appendOperationRows sequence firstOperation (ordinal + 1) rest
      (applyOperationState H appended (firstOperation + ordinal) row)

/-- The rows of one transaction, and the sequence after it. -/
def appendTransactionRows (root : Root) (sequence : Int) (acts : List (Action × Int)) :
    Except Fault Root := do
  let firstOperation := root.store.operations.length
  let row : TransactionRow := ⟨sequence, firstOperation, acts.length⟩
  let started := { root with store :=
    { root.store with transactions := root.store.transactions ++ [row] } }
  let appended := appendOperationRows H sequence firstOperation 0 acts started
  let next ← incInt sequence
  .ok { appended with store := { appended.store with nextSequence := next } }

def appendValidTransaction (root : Root) (sequence : Int) (operations : List CommitOperation) :
    Except Fault Root :=
  let handles := operationHandles H root operations
  appendTransactionRows H handles.1 sequence ((operations.map CommitOperation.action).zip handles.2)

/-- How a replay reports a refused record. -/
structure ReplayError where
  code : Option Keyword
  message : Option String
deriving DecidableEq, Repr

def ReplayError.of (code message : String) : ReplayError := ⟨some ⟨code⟩, some message⟩

def nonemptyMessage : String := "store: transaction requires at least one valid operation"
def advanceMessage : String := "store: transaction sequence must advance within its space"

/-- `append-transaction-result!`: the root after the transaction, or what refused it. -/
def appendTransactionResult (root : Root) (sequence : Int) (operations : List CommitOperation) :
    Except Fault (Except ReplayError Root) :=
  if !validOperations operations then
    .ok (.error (.of "invalid-transaction-record" nonemptyMessage))
  else if sequence < root.store.nextSequence then
    .ok (.error (.of "nonmonotonic-transaction-sequence" advanceMessage))
  else if sequence > maxTransactionSequence then .ok (.error ⟨none, none⟩)
  else (appendValidTransaction H root sequence operations).map .ok

/-- `append-transaction!`; the coordinate it returns needs a SpaceId and a sequence of at least
    zero. -/
def appendTransaction (root : Root) (sequence : Int) (operations : List CommitOperation) :
    Except Fault (Root × Triple) :=
  if !validOperations operations then .error (.thrown nonemptyMessage)
  else if sequence < root.store.nextSequence then .error (.thrown advanceMessage)
  else do
    let final ← appendValidTransaction H root sequence operations
    if validSpaceId final.store.spaceId ∧ 0 ≤ sequence then
      .ok (final, transactionCoordinate final.store.spaceId sequence)
    else
      .error (.thrown
        "store: transaction coordinate requires a non-empty space and non-negative sequence")

def canonicalValidateCommit (operations : List CommitOperation) (metadata : CommitMetadata) :
    Except Fault CommitMetadata :=
  if validOperations operations && metadata.producer ≠ "" && metadata.shapeSchemaId ≠ "" &&
      metadata.profile ≠ some "" then
    .ok { metadata with
      validationAttestation := ⟨canonicalValidator, .accepted, canonicalValidator⟩ }
  else .error (.thrown "store: canonical commit validation rejected the write")

def commitBoundary (root : Root) (operations : List CommitOperation) (metadata : CommitMetadata) :
    Except Fault (Root × Triple) := do
  let _validated ← canonicalValidateCommit operations metadata
  appendTransaction H root root.store.nextSequence operations

def commitTransaction (root : Root) (operations : List CommitOperation) :
    Except Fault (Root × Triple) :=
  commitBoundary H root operations
    (commitMetadata "store.txn/v1" canonicalShapeSchemaId (some "store-schema-v1"))

def validTransactionRecord (record : TransactionRecord) : Bool :=
  0 ≤ record.sequence.toInt && validOperations record.operations

def replayTransactionResult (root : Root) (record : TransactionRecord) :
    Except Fault (Except ReplayError Root) :=
  if validTransactionRecord record then
    appendTransactionResult H root record.sequence.toInt record.operations
  else .ok (.error (.of "invalid-transaction-record" "store: invalid transaction record"))

/-- `append-replayed-transaction!`: a record that arrives as two columns, actions and handles
    already interned. -/
def appendReplayedTransaction (root : Root) (sequence : Int) (actions : List Action)
    (handles : List Int) : Except Fault (Except ReplayError Root) :=
  if actions.isEmpty || actions.length ≠ handles.length then
    .ok (.error (.of "invalid-transaction-record" nonemptyMessage))
  else if sequence < root.store.nextSequence then
    .ok (.error (.of "nonmonotonic-transaction-sequence" advanceMessage))
  else if sequence > maxTransactionSequence then .ok (.error ⟨none, none⟩)
  else (appendTransactionRows H root sequence (actions.zip handles)).map .ok

def replayTransaction (root : Root) (record : TransactionRecord) : Except Fault (Root × Triple) :=
  if validTransactionRecord record then
    appendTransaction H root record.sequence.toInt record.operations
  else .error (.thrown "store: invalid transaction record")

end

def firstTransactionAfter (transactions : List TransactionRow) (sequence : Int) : Nat :=
  bisect (fun middle => (transactions[middle]?.map fun row => decide (row.sequence ≤ sequence)) =
      some true)
    transactions.length 0 transactions.length

def lowerBoundPosition (positions : List Nat) (target : Nat) : Nat :=
  bisect (fun middle => (positions[middle]?.map fun position => decide (position < target)) =
      some true)
    positions.length 0 positions.length

/-- `subvec` from a start to an end. -/
def subvec {α : Type} (values : List α) (start stop : Nat) : List α :=
  (values.drop start).take (stop - start)

/-- `subvec`, which traps where the bounds are no range of the values. -/
def subvecWithin {α : Type} (values : List α) (start stop : Nat) : Except Fault (List α) :=
  if start ≤ stop ∧ stop ≤ values.length then .ok (subvec values start stop) else .error .trap

/-- The sequence of a record, as the machine integer it is. -/
def sequenceInt (sequence : Int) : Int64 := Int64.ofInt sequence

def resolveOperations (store : TermStore) : List OperationRow → Except Fault (List CommitOperation)
  | [] => .ok []
  | row :: rest => do
      let proposition ← resolveTripleHandle store row.tripleHandle
      let others ← resolveOperations store rest
      .ok (⟨row.action, proposition⟩ :: others)

def transactionRecordAt (store : TermStore) (row : TransactionRow) :
    Except Fault TransactionRecord := do
  let start := row.firstOperation.toNat
  let operations ← resolveOperations store
    (subvec store.operations start (start + row.operationCount.toNat))
  .ok ⟨sequenceInt row.sequence, operations⟩

theorem subvecWithin_ok {α : Type} {vs : List α} {s sp : Nat} (h : s ≤ sp)
    (hs : sp ≤ vs.length) : subvecWithin vs s sp = .ok (subvec vs s sp) :=
  if_pos ⟨h, hs⟩

/-- The records whose sequence lies in `(lowerExclusive, upperInclusive]`. -/
def transactionRecordsBetween (store : TermStore) (lowerExclusive upperInclusive : Int) :
    Except Fault (List TransactionRecord) := do
  let first := firstTransactionAfter store.transactions lowerExclusive
  let stop := firstTransactionAfter store.transactions upperInclusive
  let rows ← subvecWithin store.transactions first stop
  rows.mapM (transactionRecordAt store)

/-! ### Occurrences -/

def occurrenceAt (store : TermStore) (row : OperationRow) : Except Fault Triple :=
  if validSpaceId store.spaceId ∧ 0 ≤ row.txSequence then
    if 0 ≤ row.ordinal then
      .ok (occurrenceCoordinate (transactionCoordinate store.spaceId row.txSequence) row.ordinal)
    else
      .error (.thrown
        "store: occurrence coordinate requires a transaction coordinate and non-negative ordinal")
  else
    .error (.thrown
      "store: transaction coordinate requires a non-empty space and non-negative sequence")

def operationOccurrenceAt (store : TermStore) (row : OperationRow) :
    Except Fault OperationOccurrence := do
  let coordinate ← occurrenceAt store row
  let proposition ← resolveTripleHandle store row.tripleHandle
  if row.action = .assert ∨ row.action = .retract then
    .ok ⟨coordinate, row.action, proposition⟩
  else
    .error (.thrown
      "store: operation occurrence requires a coordinate, action, and Triple proposition")

/-! ### Withdrawals -/

/-- The space and sequence of a transaction coordinate. -/
def transactionCoordinateOf : Term → Option (String × Int64)
  | .triple (.atom (.string space)) (.atom (.keyword predicate)) (.atom (.int sequence)) =>
    if space ≠ "" ∧ predicate = txSequence ∧ 0 ≤ sequence.toInt then some (space, sequence)
    else none
  | _ => none

/-- The space, sequence and ordinal of an occurrence coordinate. -/
def occurrenceCoordinateOf : Term → Option (String × Int64 × Int64)
  | .triple tx (.atom (.keyword predicate)) (.atom (.int ordinal)) =>
    match transactionCoordinateOf tx with
    | some (space, sequence) =>
      if predicate = opOrdinal ∧ 0 ≤ ordinal.toInt then some (space, sequence, ordinal)
      else none
    | none => none
  | _ => none

/-- A retraction and the assertion it withdrew. -/
structure Withdrawal where
  retraction : OperationOccurrence
  assertion : OperationOccurrence
deriving DecidableEq, Repr

def withdrawal (retraction assertion : OperationOccurrence) : Except Fault Withdrawal :=
  match occurrenceCoordinateOf retraction.coordinate.term,
    occurrenceCoordinateOf assertion.coordinate.term with
  | some (space, sequence, ordinal), some (space', sequence', ordinal') =>
    if retraction.action = .retract ∧ assertion.action = .assert ∧
        retraction.proposition.term.same assertion.proposition.term ∧ space = space' ∧
        (sequence' < sequence ∨ sequence' = sequence ∧ ordinal' < ordinal) then
      .ok ⟨retraction, assertion⟩
    else
      .error (.thrown
        "store: withdrawal requires a later retraction of the same asserted proposition")
  | _, _ =>
    .error (.thrown
      "store: withdrawal requires a later retraction of the same asserted proposition")

/-- The positions of the retractions that withdrew something, and of what they withdrew. -/
def withdrawnRows (store : TermStore) : List (OperationRow × Nat) :=
  store.operations.zipIdx.filterMap fun (row, position) =>
    store.withdrawalTargets[position]?.join.map fun target => (row, target)

def withdrawals (store : TermStore) : Except Fault (List Withdrawal) :=
  (withdrawnRows store).mapM fun (row, target) => do
    let retraction ← operationOccurrenceAt store row
    match store.operations[target]? with
    | some asserted => withdrawal retraction (← operationOccurrenceAt store asserted)
    | none => .error .trap

section

variable (H : Hashing)

/-- Is the operation at this position live? -/
def operationLive (root : Root) (position : Nat) (row : OperationRow) : Bool :=
  row.action = .assert &&
    let positions := activePositions H root row.tripleHandle
    let offset := lowerBoundPosition positions position
    positions[offset]? = some position

/-- The rows of the live operations, in commit order, with their positions. -/
def liveRows (root : Root) : List (Nat × OperationRow) :=
  (root.store.operations.zipIdx.filter fun (row, position) => operationLive H root position row).map
    fun (row, position) => (position, row)

def liveOccurrences (root : Root) : Except Fault (List OperationOccurrence) :=
  (liveRows H root).mapM fun (_, row) => operationOccurrenceAt root.store row

def livePropositions (root : Root) : Except Fault (List Triple) :=
  (liveRows H root).mapM fun (_, row) => resolveTripleHandle root.store row.tripleHandle

end

end Beagle.Store
