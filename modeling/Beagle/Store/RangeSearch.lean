/-
Searching the history in a range of sequences.

A query over occurrences asks for the operations of the transactions in a range, with
the coordinate or the proposition that it has bound already.  The range is two binary
searches over the transactions, a proposition is looked up in the postings of its
handle, and a coordinate is decoded to the one position it can name.
-/
import Beagle.Lib.Keyed
import Beagle.Store.Transactions

namespace Beagle.Store

open Beagle.Lib

/-- A bound value: a Term, or a value that is none. -/
inductive BoundValue where
  | term (value : Term)
  | foreign
deriving DecidableEq, Repr

/-- The first operation of the transactions past a sequence. -/
def firstOperationAfter (store : TermStore) (sequence : Int) : Nat :=
  match store.transactions[firstTransactionAfter store.transactions sequence]? with
  | none => store.operations.length
  | some row => row.firstOperation.toNat

/-- `[start end]`. -/
def operationRangeBounds (store : TermStore) (lowerExclusive upperInclusive : Int) : Nat × Nat :=
  (firstOperationAfter store lowerExclusive, firstOperationAfter store upperInclusive)

/-! ### Postings -/

/-- The positions of the operations on each triple handle. -/
abbrev Postings := List (Int × List Nat)

/-- The positions under a handle, or none. -/
def Postings.at (postings : Postings) (handle : Int) : List Nat :=
  ((Likeness.ofEq Int).get postings handle).getD []

def Postings.post (postings : Postings) (handle : Int) (position : Nat) : Postings :=
  (Likeness.ofEq Int).set postings handle (postings.at handle ++ [position])

theorem Postings.at_post (ps : Postings) (h' : Int) (p : Nat) (other : Int) :
    (ps.post h' p).at other =
      if h' = other then ps.at other ++ [p] else ps.at other := by
  unfold Postings.post
  conv => lhs; unfold Postings.at
  rw [Likeness.get_set, Likeness.ofEq_same]
  by_cases h : h' = other
  · rw [if_pos (by simpa using h), if_pos h, h]
    rfl
  · rw [if_neg (by simpa using h), if_neg h]
    rfl

/-- The loop of `operation-postings`, from a position on. -/
def operationPostingsFrom : Nat → List OperationRow → Postings → Postings
  | _, [], postings => postings
  | position, row :: rest, postings =>
    operationPostingsFrom (position + 1) rest (postings.post row.tripleHandle position)

def operationPostings (store : TermStore) : Postings :=
  operationPostingsFrom 0 store.operations []

/-! ### Candidates -/

/-- The position of the operation that a coordinate names; `none` is the source's -1. -/
def exactOccurrencePosition (store : TermStore) (coordinate : BoundValue) : Option Nat :=
  match coordinate with
  | .foreign => none
  | .term coordinate =>
    match occurrenceCoordinateOf coordinate with
    | none => none
    | some (space, sequence, ordinal) =>
      let position := firstTransactionAfter store.transactions (sequence.toInt - 1)
      if space ≠ store.spaceId then none
      else
        match store.transactions[position]? with
        | none => none
        | some row =>
          if sequence.toInt = row.sequence ∧ ordinal.toInt < row.operationCount then
            some (row.firstOperation + ordinal.toInt).toNat
          else none

section

variable (H : Hashing)

/-- The handle a bound proposition is known by. -/
def boundHandle (root : Root) : BoundValue → Option Int
  | .foreign => none
  | .term proposition => knownTermHandle H root proposition

/-- The positions in range of the operations with a coordinate and a proposition, where these are
    bound. -/
def operationCandidatePositions (root : Root) (lowerExclusive upperInclusive : Int)
    (coordinate proposition : Option BoundValue) (postings : Postings) :
    Except Fault (List Nat) := do
  let store := root.store
  let (start, stop) := operationRangeBounds store lowerExclusive upperInclusive
  let propositionHandle := proposition.bind (boundHandle H root)
  let posted := match propositionHandle with
    | some handle => postings.at handle
    | none => []
  let first := lowerBoundPosition posted start
  let last := lowerBoundPosition posted stop
  let candidates ← match coordinate with
    | some coordinate =>
      match exactOccurrencePosition store coordinate with
      | some exact => .ok (if start ≤ exact ∧ exact < stop then [exact] else [])
      | none => .ok []
    | none =>
      match proposition with
      | some _ =>
        if propositionHandle.isSome then subvecWithin posted first last else .ok []
      | none => .ok (List.range' start (stop - start))
  if coordinate.isSome ∧ proposition.isSome then
    .ok (candidates.filter fun position =>
      store.operations[position]?.any fun row => propositionHandle = some row.tripleHandle)
  else .ok candidates

end

end Beagle.Store
