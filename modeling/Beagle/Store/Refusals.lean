/-
The cells that a call leaves when it refuses.

An append changes the cells of a store one after another.  Where it throws or traps on the way, the
changes before that stay.  The calls here are those of the transaction history, with the root that
they leave beside what they return.
-/
import Beagle.Store.Transactions

namespace Beagle.Store

open Beagle.Lib

/-- What a call leaves in the cells, and what it returns or throws. -/
structure Left (α : Type) where
  root : Root
  outcome : Except Fault α

/-- The root and what is returned, if the call returns. -/
def Left.result {α : Type} (left : Left α) : Except Fault (Root × α) :=
  left.outcome.map fun value => (left.root, value)

/-- A call that throws before it changes anything. -/
def refuse {α : Type} (root : Root) (fault : Fault) : Left α := ⟨root, .error fault⟩

section

variable (H : Hashing)

/-- The rows are in the cells before the sequence after them is computed. -/
def appendTransactionRowsLeft (root : Root) (sequence : Int) (acts : List (Action × Int)) :
    Left Unit :=
  let firstOperation := root.store.operations.length
  let row : TransactionRow := ⟨sequence, firstOperation, acts.length⟩
  let started := { root with store :=
    { root.store with transactions := root.store.transactions ++ [row] } }
  let appended := appendOperationRows H sequence firstOperation 0 acts started
  match incInt sequence with
  | .ok next => ⟨{ appended with store := { appended.store with nextSequence := next } }, .ok ()⟩
  | .error fault => ⟨appended, .error fault⟩

def appendValidTransactionLeft (root : Root) (sequence : Int)
    (operations : List CommitOperation) : Left Unit :=
  let handles := operationHandles H root operations
  appendTransactionRowsLeft H handles.1 sequence
    ((operations.map CommitOperation.action).zip handles.2)

/-- `append-transaction-result!`. -/
def appendTransactionResultLeft (root : Root) (sequence : Int)
    (operations : List CommitOperation) : Left (Except ReplayError Unit) :=
  if !validOperations operations then
    ⟨root, .ok (.error (.of "invalid-transaction-record" nonemptyMessage))⟩
  else if sequence < root.store.nextSequence then
    ⟨root, .ok (.error (.of "nonmonotonic-transaction-sequence" advanceMessage))⟩
  else if sequence > maxTransactionSequence then ⟨root, .ok (.error ⟨none, none⟩)⟩
  else
    let appended := appendValidTransactionLeft H root sequence operations
    ⟨appended.root, appended.outcome.map .ok⟩

/-- `append-transaction!`; the coordinate is built when the rows are in. -/
def appendTransactionLeft (root : Root) (sequence : Int) (operations : List CommitOperation) :
    Left Triple :=
  if !validOperations operations then refuse root (.thrown nonemptyMessage)
  else if sequence < root.store.nextSequence then refuse root (.thrown advanceMessage)
  else
    let appended := appendValidTransactionLeft H root sequence operations
    match appended.outcome with
    | .error fault => ⟨appended.root, .error fault⟩
    | .ok () =>
      if validSpaceId appended.root.store.spaceId ∧ 0 ≤ sequence then
        ⟨appended.root, .ok (transactionCoordinate appended.root.store.spaceId sequence)⟩
      else
        ⟨appended.root, .error (.thrown
          "store: transaction coordinate requires a non-empty space and non-negative sequence")⟩

/-- `replay-transaction-result!`. -/
def replayTransactionResultLeft (root : Root) (record : TransactionRecord) :
    Left (Except ReplayError Unit) :=
  if validTransactionRecord record then
    appendTransactionResultLeft H root record.sequence.toInt record.operations
  else
    ⟨root, .ok (.error (.of "invalid-transaction-record" "store: invalid transaction record"))⟩

/-- `append-replayed-transaction!`. -/
def appendReplayedTransactionLeft (root : Root) (sequence : Int) (actions : List Action)
    (handles : List Int) : Left (Except ReplayError Unit) :=
  if actions.isEmpty || actions.length ≠ handles.length then
    ⟨root, .ok (.error (.of "invalid-transaction-record" nonemptyMessage))⟩
  else if sequence < root.store.nextSequence then
    ⟨root, .ok (.error (.of "nonmonotonic-transaction-sequence" advanceMessage))⟩
  else if sequence > maxTransactionSequence then ⟨root, .ok (.error ⟨none, none⟩)⟩
  else
    let appended := appendTransactionRowsLeft H root sequence (actions.zip handles)
    ⟨appended.root, appended.outcome.map .ok⟩

/-- `replay-transaction!`. -/
def replayTransactionLeft (root : Root) (record : TransactionRecord) : Left Triple :=
  if validTransactionRecord record then
    appendTransactionLeft H root record.sequence.toInt record.operations
  else refuse root (.thrown "store: invalid transaction record")

/-! ### The calls without what they leave -/

theorem appendTransactionRows_left (r : Root) (sq : Int) (a : List (Action × Int)) :
    appendTransactionRows H r sq a = (appendTransactionRowsLeft H r sq a).result.map Prod.fst := by
  unfold appendTransactionRows appendTransactionRowsLeft Left.result
  dsimp only
  cases incInt sq <;> rfl

theorem appendTransaction_left (r : Root) (sq : Int) (ops : List CommitOperation) :
    appendTransaction H r sq ops = (appendTransactionLeft H r sq ops).result := by
  unfold appendTransaction appendTransactionLeft appendValidTransaction appendValidTransactionLeft
  dsimp only
  split
  · rfl
  split
  · rfl
  rw [appendTransactionRows_left]
  cases h : (appendTransactionRowsLeft H (operationHandles H r ops).1 sq
      ((ops.map CommitOperation.action).zip (operationHandles H r ops).2)).outcome with
  | error f =>
    unfold Left.result
    rw [h]
    rfl
  | ok v =>
    unfold Left.result
    rw [h]
    show (if _ then _ else _) = _
    dsimp only
    split <;> rfl

theorem replayTransaction_left (r : Root) (rc : TransactionRecord) :
    replayTransaction H r rc = (replayTransactionLeft H r rc).result := by
  unfold replayTransaction replayTransactionLeft
  split
  · exact appendTransaction_left H _ _ _
  · rfl

/-- The root that a call leaves with its verdict, in place of a bare root. -/
def Left.replayed (left : Left (Except ReplayError Unit)) :
    Except Fault (Except ReplayError Root) :=
  left.outcome.map fun verdict => verdict.map fun _ => left.root

theorem appendTransactionRows_replayed (r : Root) (sq : Int) (a : List (Action × Int)) :
    (appendTransactionRows H r sq a).map Except.ok =
      Left.replayed ⟨(appendTransactionRowsLeft H r sq a).root,
        (appendTransactionRowsLeft H r sq a).outcome.map Except.ok⟩ := by
  rw [appendTransactionRows_left]
  unfold Left.result Left.replayed
  cases (appendTransactionRowsLeft H r sq a).outcome <;> rfl

theorem replayTransactionResult_left (r : Root) (rc : TransactionRecord) :
    replayTransactionResult H r rc = (replayTransactionResultLeft H r rc).replayed := by
  unfold replayTransactionResult replayTransactionResultLeft appendTransactionResult
    appendTransactionResultLeft
  split
  · split
    · rfl
    split
    · rfl
    split
    · rfl
    · exact appendTransactionRows_replayed H _ _ _
  · rfl

theorem appendReplayedTransaction_left (r : Root) (sq : Int) (acs : List Action) (hs' : List Int) :
    appendReplayedTransaction H r sq acs hs' =
      (appendReplayedTransactionLeft H r sq acs hs').replayed := by
  unfold appendReplayedTransaction appendReplayedTransactionLeft
  split
  · rfl
  split
  · rfl
  split
  · rfl
  · exact appendTransactionRows_replayed H _ _ _

end

end Beagle.Store
