/-
Dumping a store, checking its rows, and building a store from a dump.

A dump is the four row lists; everything else a store holds is rebuilt from them.
The row checks are the same for a dump that is loaded and for a store a boot has
just built.

A family of stores grown from one by `fork-store`.

Each member has cells of its own; the slot tables live in the one heap they all
share.  A call is made on one member, with that member's cells and the shared heap
in hand, and leaves both behind.
-/
import Beagle.Store.Transactions

namespace Beagle.Store

section

open Beagle.Lib

def termStoreDumpVersion : Int := 2

def dumpTermStore (store : TermStore) : TermStoreDump :=
  { version := termStoreDumpVersion
    spaceId := store.spaceId
    nextSequence := store.nextSequence
    atoms := store.atoms
    triples := store.triples
    transactions := store.transactions
    operations := store.operations }

/-! ### The checks -/

/-- Does the handle name a row before this triple row? -/
def validPriorHandle (atomCount triplePosition : Nat) (handle : Int) : Bool :=
  0 ≤ handle ∧
    if isAtomHandle handle then handlePosition handle < atomCount
    else handlePosition handle < triplePosition

def validTripleRowsFrom (atomCount : Nat) : Nat → List TripleRow → Bool
  | _, [] => true
  | position, row :: rest =>
    validPriorHandle atomCount position row.t1 &&
      (validPriorHandle atomCount position row.t2 &&
        validPriorHandle atomCount position row.t3) &&
      validTripleRowsFrom atomCount (position + 1) rest

def validTripleRows (atomCount : Nat) (rows : List TripleRow) : Bool :=
  validTripleRowsFrom atomCount 0 rows

def validDumpOperation (tripleCount : Nat) (sequence ordinal : Int) (row : OperationRow) : Bool :=
  sequence = row.txSequence && (ordinal = row.ordinal &&
    ((row.action = .assert || row.action = .retract) &&
      (0 ≤ row.tripleHandle && (!isAtomHandle row.tripleHandle &&
        handlePosition row.tripleHandle < tripleCount))))

/-- The operations of one transaction, counted from an ordinal on. -/
def validOperationSliceFrom (tripleCount : Nat) (sequence : Int) : Nat → List OperationRow → Bool
  | _, [] => true
  | ordinal, row :: rest =>
    validDumpOperation tripleCount sequence ordinal row &&
      validOperationSliceFrom tripleCount sequence (ordinal + 1) rest

def validOperationSlice (operations : List OperationRow) (tripleCount : Nat) (sequence : Int)
    (firstOperation operationCount : Nat) : Bool :=
  validOperationSliceFrom tripleCount sequence 0
    (subvec operations firstOperation (firstOperation + operationCount))

def validHistoryFrom (operations : List OperationRow) (tripleCount : Nat) (nextSequence : Int) :
    List TransactionRow → Nat → Int → Bool
  | [], operationPosition, previousSequence =>
    operationPosition = operations.length &&
      if previousSequence < 0 then nextSequence = 1
      else 0 < nextSequence ∧ nextSequence - 1 = previousSequence
  | row :: rest, operationPosition, previousSequence =>
    if row.sequence > previousSequence ∧ row.firstOperation = operationPosition ∧
        0 < row.operationCount ∧
        row.operationCount ≤ operations.length - row.firstOperation ∧
        validOperationSlice operations tripleCount row.sequence operationPosition
          row.operationCount.toNat = true then
      validHistoryFrom operations tripleCount nextSequence rest
        (operationPosition + row.operationCount.toNat) row.sequence
    else false

def validHistoryRows (transactions : List TransactionRow) (operations : List OperationRow)
    (tripleCount : Nat) (nextSequence : Int) : Bool :=
  validHistoryFrom operations tripleCount nextSequence transactions 0 (-1)

/-- The row checks a dump load and a finished boot share. -/
def validRows (dump : TermStoreDump) : Bool :=
  validSpaceId dump.spaceId && 1 ≤ dump.nextSequence && dump.atoms.all validAtomRow &&
    validTripleRows dump.atoms.length dump.triples &&
    validHistoryRows dump.transactions dump.operations dump.triples.length dump.nextSequence

section

variable (H : Hashing)

/-! ### Loading -/

def applyOperationRows : Nat → List OperationRow → Root → Root
  | _, [], root => root
  | position, row :: rest, root =>
    applyOperationRows (position + 1) rest (applyOperationState H root position row)

/-- `rebuild-operation-state!`: forget the derived state and fold the operation rows again. -/
def rebuildOperationState (root : Root) : Root :=
  let emptied : Root :=
    { cells := root.cells ++ [freshSlots (termSlotsWidthFor root.store.operations.length)]
      store :=
        { root.store with
          withdrawalTargets := []
          activeBuckets := []
          activeCells := []
          foldOpen := false
          activeSlots := root.cells.length } }
  closeFold (applyOperationRows H 0 root.store.operations (openFold emptied))

structure LoadError where
  code : Keyword
  message : String
deriving DecidableEq, Repr

/-- The store a dump describes, with new slot tables, before its derived state is rebuilt. -/
def loadedRoot (cells : SlotCells) (dump : TermStoreDump) : Root :=
  { cells := cells ++
      [buildSlots H.atomKeys dump.atoms (termSlotsWidthFor dump.atoms.length),
        buildSlots H.tripleKeys dump.triples (termSlotsWidthFor dump.triples.length),
        freshSlots initialSlots]
    store :=
      { spaceId := dump.spaceId
        nextSequence := dump.nextSequence
        atoms := dump.atoms
        triples := dump.triples
        transactions := dump.transactions
        operations := dump.operations
        withdrawalTargets := []
        activeBuckets := []
        activeCells := []
        foldOpen := false
        atomSlots := cells.length
        tripleSlots := cells.length + 1
        activeSlots := cells.length + 2 } }

/-- `load-term-store-result!`: the owner's root afterwards, or why it keeps the one it has. -/
def loadTermStoreResult (root : Root) (dump : TermStoreDump) : Except LoadError Root :=
  if termStoreDumpVersion ≠ dump.version then
    .error ⟨⟨"invalid-term-store-dump"⟩, "store: invalid TermStore dump"⟩
  else if !validRows dump then
    .error ⟨⟨"invalid-term-store-dump"⟩, "store: invalid TermStore dump"⟩
  else if root.store.spaceId ≠ dump.spaceId then
    .error ⟨⟨"space-mismatch"⟩, "store: TermStore dump belongs to a different space"⟩
  else .ok (rebuildOperationState H (loadedRoot H root.cells dump))

end

/-- `validated-store!`: the checks of a dump load, on a store this process just built. -/
def validatedStore (root : Root) : Except Fault Root :=
  if validRows (dumpTermStore root.store) then .ok root
  else .error (.thrown "store: invalid TermStore dump")

end

structure Family where
  cells : SlotCells
  members : List TermStore
deriving DecidableEq, Repr

namespace Family

/-- One store on its own. -/
def single (root : Root) : Family := ⟨root.cells, [root.store]⟩

/-- What a member's owner sees. -/
def member? (family : Family) (i : Nat) : Option Root :=
  family.members[i]?.map fun store => ⟨family.cells, store⟩

/-- Put back what a call on a member left behind. -/
def put (family : Family) (i : Nat) (root : Root) : Family :=
  ⟨root.cells, family.members.set i root.store⟩

end Family

/-- A call on a member of the family. -/
inductive FamilyCall where
  | fork (member : Nat)
  | intern (member : Nat) (term : Term)
  | internAtom (member : Nat) (value : AtomValue)
  | internTriple (member : Nat) (t1 t2 t3 : Int)
deriving DecidableEq, Repr

def FamilyCall.member : FamilyCall → Nat
  | .fork i => i
  | .intern i _ => i
  | .internAtom i _ => i
  | .internTriple i _ _ _ => i

section

variable (H : Hashing)

/-- One interning call, on the member's own view; a refused call changes nothing. -/
def FamilyCall.run (root : Root) : FamilyCall → Root
  | .fork _ => root
  | .intern _ term => (internHandle H root term).1
  | .internAtom _ value => (internAtomHandle H root value).1
  | .internTriple _ t1 t2 t3 =>
    match internTripleHandle H root t1 t2 t3 with
    | .ok interned => interned.1
    | .error _ => root

/-- The handle a call returns. -/
def FamilyCall.returned (root : Root) : FamilyCall → Option Int
  | .fork _ => none
  | .intern _ term => some (internHandle H root term).2
  | .internAtom _ value => some (internAtomHandle H root value).2
  | .internTriple _ t1 t2 t3 => (internTripleHandle H root t1 t2 t3).toOption.map (·.2)

def Family.step (family : Family) (call : FamilyCall) : Family :=
  match family.member? call.member with
  | none => family
  | some root =>
    match call with
    | .fork _ => { family with members := family.members ++ [forkState root.store] }
    | call => family.put call.member (call.run H root)

def Family.run (family : Family) (calls : List FamilyCall) : Family :=
  calls.foldl (Family.step H) family

/-! ### Whose Terms were interned -/

/-- The Term a call interns, as its member resolves it. -/
def FamilyCall.term? (root : Root) : FamilyCall → Option Term
  | .fork _ => none
  | .intern _ term => some term
  | .internAtom _ value => some (.atom value)
  | .internTriple _ t1 t2 t3 =>
    match resolveHandle root.store t1, resolveHandle root.store t2,
      resolveHandle root.store t3 with
    | .ok u1, .ok u2, .ok u3 => some (.triple u1 u2 u3)
    | _, _, _ => none

/-- The Terms a call interns in its member: the Term and its parts. -/
def FamilyCall.terms (root : Root) (call : FamilyCall) : List Term :=
  match call.term? root with
  | none => []
  | some term => term.parts

/-- A family with, for each member, the Terms interned in its own history; a fork starts from
    the history of the store it was forked from. -/
structure TracedFamily where
  family : Family
  histories : List (List Term)

def TracedFamily.single (root : Root) : TracedFamily := ⟨Family.single root, [[]]⟩

def TracedFamily.step (traced : TracedFamily) (call : FamilyCall) : TracedFamily :=
  match traced.family.member? call.member, traced.histories[call.member]? with
  | some root, some history =>
    { family := traced.family.step H call
      histories :=
        match call with
        | .fork _ => traced.histories ++ [history]
        | call => traced.histories.set call.member (history ++ call.terms root) }
  | _, _ => traced

def TracedFamily.run (traced : TracedFamily) (calls : List FamilyCall) : TracedFamily :=
  calls.foldl (TracedFamily.step H) traced

end

end Beagle.Store
