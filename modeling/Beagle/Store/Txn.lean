/-
The transaction builder.

A builder is opened at the next transaction coordinate of a store and collects
operations; a commit refuses it once the store went on.  The update of a single-valued
predicate is compiled against a rotation: what is live under the subject and the
predicate is retracted, newest first, and the new value is asserted behind it.
-/
import Beagle.Store.Rotation

namespace Beagle.Store

structure Builder where
  coordinate : Triple
  operations : List CommitOperation
deriving DecidableEq, Repr

/-- `open`. -/
def openBuilder (root : Root) : Except Fault Builder :=
  if validSpaceId root.store.spaceId ∧ 0 ≤ root.store.nextSequence then
    .ok ⟨transactionCoordinate root.store.spaceId root.store.nextSequence, []⟩
  else
    .error (.thrown
      "store: transaction coordinate requires a non-empty space and non-negative sequence")

/-- `append!`: the builder with more operations, and the occurrence coordinate that the last of
    them will carry. -/
def Builder.append (builder : Builder) (appended : List CommitOperation) :
    Except Fault (Builder × Triple) :=
  if appended.isEmpty then
    .error (.thrown "store: an empty operation vector has no write identity")
  else
    let start := builder.operations.length
    let ordinal : Int := start + (appended.length - 1)
    if (transactionCoordinateOf builder.coordinate.term).isSome ∧ 0 ≤ ordinal then
      .ok ({ builder with operations := builder.operations ++ appended },
        occurrenceCoordinate builder.coordinate ordinal)
    else
      .error (.thrown
        "store: occurrence coordinate requires a transaction coordinate and non-negative ordinal")

def newestFirst (events : List OperationOccurrence) : List OperationOccurrence := events.reverse

def assertOperation (proposition : Triple) : CommitOperation := ⟨.assert, proposition⟩

def retractOperation (proposition : Triple) : CommitOperation := ⟨.retract, proposition⟩

section

variable (K : KeyHashing)

def compileSingleUpdate (view : Rotation) (subject predicate value : Term) : List CommitOperation :=
  ((newestFirst (view.byT12 K subject predicate)).map fun event =>
      retractOperation event.proposition) ++
    [assertOperation ⟨subject, predicate, value⟩]

def Builder.updateSingle (builder : Builder) (view : Rotation) (subject predicate value : Term) :
    Except Fault (Builder × Triple) :=
  builder.append (compileSingleUpdate K view subject predicate value)

end

/-- Is the builder pinned to the next transaction of the store? -/
def Builder.current (builder : Builder) (root : Root) : Bool :=
  builder.coordinate.t1.same (.atom (.string root.store.spaceId)) &&
    builder.coordinate.t3.same (.atom (.int (.ofInt root.store.nextSequence)))

/-- `commit!`. -/
def Builder.commit (H : Hashing) (root : Root) (builder : Builder) : Except Fault (Root × Triple) :=
  if !builder.coordinate.t1.same (.atom (.string root.store.spaceId)) then
    .error (.thrown "store: transaction belongs to a different space")
  else if !builder.coordinate.t3.same (.atom (.int (.ofInt root.store.nextSequence))) then
    .error (.thrown "store: the store advanced under this transaction")
  else
    commitBoundary H root builder.operations
      (commitMetadata "store.txn/v1" "store/CommitOperationV1" (some "store-schema-v1"))

end Beagle.Store
