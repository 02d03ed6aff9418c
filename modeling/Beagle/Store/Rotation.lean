/-
Rotations: the live occurrences of a store, indexed.

A rotation is pinned to a SpaceId and a version.  It has the live occurrences of some
version as its base, with buckets over four shapes of key, and the operations committed
since as its pending tail; every read folds the tail over what a bucket gives.  A key
is not kept: it is named by the event that first had it and the shape, packed into a
code.
-/
import Beagle.Lib.HashChain
import Beagle.Lib.Standing
import Beagle.Store.Transactions

namespace Beagle.Store

open Beagle.Lib

/-- `hash` on the key records of one and of two Terms; equal keys hash alike. -/
structure KeyHashing where
  one : Term → Int
  two : Term → Term → Int
  one_same : ∀ a b : Term, a.same b = true → one a = one b
  two_same : ∀ a b c d : Term, a.same c = true → b.same d = true → two a b = two c d

/-- The bytes of an atom, its kind first. -/
def fnvAtom (state : UInt64) : AtomValue → UInt64
  | .string value => fnvText (fnvWord state 1#64) value
  | .int value => fnvWord (fnvWord state 2#64) value.toBitVec
  | .float value => fnvWord (fnvWord state 3#64) value.hashBits
  | .bool value => fnvWord (fnvWord state 4#64) (if value then 1#64 else 0#64)
  | .keyword value => fnvText (fnvWord state 5#64) value.spelling
  | .instant value =>
    fnvWord (fnvWord (fnvWord state 6#64) value.epochSeconds.toBitVec) (.ofNat 64 value.nanos)

def fnvTerm (state : UInt64) : Term → UInt64
  | .atom value => fnvAtom state value
  | .triple t1 t2 t3 => fnvTerm (fnvTerm (fnvTerm (fnvWord state 7#64) t1) t2) t3

theorem fnvAtom_same {a b : AtomValue} (h : a.same b = true) (s : UInt64) :
    fnvAtom s a = fnvAtom s b := by
  by_cases heq : a = b
  · rw [heq]
  · cases a with
    | float x =>
      cases b with
      | float y =>
        show fnvWord (fnvWord s 3#64) x.hashBits = fnvWord (fnvWord s 3#64) y.hashBits
        rw [Float64.hashBits_same h]
      | _ => exact absurd (beq_iff_eq.mp h) heq
    | _ => exact absurd (beq_iff_eq.mp h) heq

theorem fnvTerm_same {a b : Term} (h : a.same b = true) (s : UInt64) :
    fnvTerm s a = fnvTerm s b := by
  induction a generalizing b s with
  | atom a =>
    cases b with
    | triple => cases h
    | atom b => exact fnvAtom_same h s
  | triple a1 a2 a3 ih1 ih2 ih3 =>
    cases b with
    | atom => cases h
    | triple b1 b2 b3 =>
      simp only [Term.same, Bool.and_eq_true] at h
      unfold fnvTerm
      rw [ih1 h.1.1, ih2 h.1.2, ih3 h.2]

/-- FNV-1a over the Terms of a key, cut to 63 bits. -/
def KeyHashing.fnv : KeyHashing where
  one a := (fnvTerm 14695981039346656037 a).toNat % 2 ^ 63
  two a b := (fnvTerm (fnvTerm 14695981039346656037 a) b).toNat % 2 ^ 63
  one_same a b h := by rw [fnvTerm_same h]
  two_same a b c d hac hbd := by rw [fnvTerm_same hac, fnvTerm_same hbd]

/-- `mod` of a hash and a width. -/
def slotOf (hash : Int) (width : Nat) : Nat := (hash % width).toNat

/-! ### The records -/

/-- Leaves by key.  A code names the key of a leaf by the position of its first event and its
    shape. -/
structure Bucket where
  width : Nat
  codes : List Nat
  events : List (List OperationOccurrence)
  heads : List Int
  chain : List Int
deriving DecidableEq, Repr

/-- Events by occurrence; key `k` is the event at position `k`. -/
structure OccurrenceIndex where
  width : Nat
  heads : List Int
  chain : List Int
deriving DecidableEq, Repr

structure Rotation where
  spaceId : String
  version : Int
  events : List OperationOccurrence
  byOccurrence : OccurrenceIndex
  spo : Bucket
  pos : Bucket
  osp : Bucket
  pending : List OperationOccurrence
deriving DecidableEq, Repr

def Bucket.links (bucket : Bucket) : HashChain := ⟨bucket.heads, bucket.chain⟩
def OccurrenceIndex.links (index : OccurrenceIndex) : HashChain := ⟨index.heads, index.chain⟩

def bucketInitialSlots : Nat := 64
def bucketSlotLoad : Nat := 4
def pendingFoldCap : Nat := 512

/-! ### Shapes and codes -/

def shapeT1 : Nat := 0
def shapeT12 : Nat := 1
def shapeT2 : Nat := 2
def shapeT3 : Nat := 3

def shapeMask : Nat := 3
def shapeBits : Nat := 2

def keyCode (position shape : Nat) : Nat := position <<< shapeBits ||| shape

def codePosition (code : Nat) : Nat := code >>> shapeBits

def codeShape (code : Nat) : Nat := code &&& shapeMask

def sameShapeKey (shape : Nat) (left right : OperationOccurrence) : Bool :=
  let lp := left.proposition
  let rp := right.proposition
  if shape = shapeT1 then lp.t1.same rp.t1
  else if shape = shapeT12 then lp.t1.same rp.t1 && lp.t2.same rp.t2
  else if shape = shapeT2 then lp.t2.same rp.t2
  else lp.t3.same rp.t3

/-- The one Term that a shape of one Term binds. -/
def shapeTerm (shape : Nat) (event : OperationOccurrence) : Term :=
  if shape = shapeT1 then event.proposition.t1
  else if shape = shapeT2 then event.proposition.t2
  else event.proposition.t3

/-! ### The pending tail -/

def slotMatches (pattern : Option Term) (term : Term) : Bool :=
  match pattern with
  | none => true
  | some bound => bound.same term

/-- Does the proposition have the Terms that are bound? -/
def patternMatch (proposition : Triple) (t1 t2 t3 : Option Term) : Bool :=
  slotMatches t1 proposition.t1 && (slotMatches t2 proposition.t2 && slotMatches t3 proposition.t3)

/-- The events of a leaf that have the Terms that are bound. -/
def narrowed (base : List OperationOccurrence) (t1 t2 t3 : Option Term) :
    List OperationOccurrence :=
  base.filter fun event => patternMatch event.proposition t1 t2 t3

/-- Without the newest event of the proposition, if there is one. -/
def withoutNewestOf (events : List OperationOccurrence) (proposition : Triple) :
    List OperationOccurrence :=
  eraseLast (fun event => proposition.term.same event.proposition.term) events

/-- Fold the tail over a base answer: an assertion of the pattern is put at the end, a retraction
    takes the newest event of its proposition away. -/
def mergedMatching (base pending : List OperationOccurrence) (t1 t2 t3 : Option Term) :
    List OperationOccurrence :=
  pending.foldl (fun events op =>
    if op.action = .assert then
      if patternMatch op.proposition t1 t2 t3 then events ++ [op] else events
    else withoutNewestOf events op.proposition) base

def Rotation.allOccurrences (rotation : Rotation) : List OperationOccurrence :=
  mergedMatching rotation.events rotation.pending none none none

section

variable (K : KeyHashing)

def shapeHash (shape : Nat) (event : OperationOccurrence) : Int :=
  let proposition := event.proposition
  if shape = shapeT1 then K.one proposition.t1
  else if shape = shapeT12 then K.two proposition.t1 proposition.t2
  else if shape = shapeT2 then K.one proposition.t2
  else K.one proposition.t3

/-! ### Probes -/

def bucketLeafOne (bucket : Bucket) (source : List OperationOccurrence) (shape : Nat) (a : Term) :
    List OperationOccurrence :=
  let found := bucket.links.find (slotOf (K.one a) bucket.width) fun key =>
    bucket.codes[key]?.any fun code =>
      shape == codeShape code &&
        source[codePosition code]?.any fun event => a.same (shapeTerm shape event)
  match found with
  | some key => bucket.events.getD key []
  | none => []

def bucketLeafTwo (bucket : Bucket) (source : List OperationOccurrence) (a b : Term) :
    List OperationOccurrence :=
  let found := bucket.links.find (slotOf (K.two a b) bucket.width) fun key =>
    bucket.codes[key]?.any fun code =>
      shapeT12 == codeShape code && source[codePosition code]?.any fun event =>
          a.same event.proposition.t1 && b.same event.proposition.t2
  match found with
  | some key => bucket.events.getD key []
  | none => []

def occurrenceEvent (index : OccurrenceIndex) (source : List OperationOccurrence)
    (occurrence : Triple) : Option OperationOccurrence :=
  let found := index.links.find (slotOf (K.one occurrence.term) index.width) fun position =>
    source[position]?.any fun event => occurrence.term.same event.coordinate.term
  found.bind fun position => source[position]?

namespace Rotation

variable (rotation : Rotation)

def byT1 (t1 : Term) : List OperationOccurrence :=
  mergedMatching (bucketLeafOne K rotation.spo rotation.events shapeT1 t1) rotation.pending
    (some t1) none none

def byT12 (t1 t2 : Term) : List OperationOccurrence :=
  mergedMatching (bucketLeafTwo K rotation.spo rotation.events t1 t2) rotation.pending
    (some t1) (some t2) none

def byT2 (t2 : Term) : List OperationOccurrence :=
  mergedMatching (bucketLeafOne K rotation.pos rotation.events shapeT2 t2) rotation.pending
    none (some t2) none

def byT23 (t2 t3 : Term) : List OperationOccurrence :=
  mergedMatching
    (narrowed (bucketLeafOne K rotation.osp rotation.events shapeT3 t3) none (some t2) none)
    rotation.pending none (some t2) (some t3)

def byT3 (t3 : Term) : List OperationOccurrence :=
  mergedMatching (bucketLeafOne K rotation.osp rotation.events shapeT3 t3) rotation.pending
    none none (some t3)

def byT13 (t1 t3 : Term) : List OperationOccurrence :=
  mergedMatching
    (narrowed (bucketLeafOne K rotation.osp rotation.events shapeT3 t3) (some t1) none none)
    rotation.pending (some t1) none (some t3)

def byProposition (proposition : Triple) : List OperationOccurrence :=
  mergedMatching
    (narrowed (bucketLeafTwo K rotation.spo rotation.events proposition.t1 proposition.t2)
      none none (some proposition.t3))
    rotation.pending (some proposition.t1) (some proposition.t2) (some proposition.t3)

/-- The live occurrences of a pattern; a slot without a Term is unbound. -/
def matching (t1 t2 t3 : Option Term) : List OperationOccurrence :=
  match t1, t2, t3 with
  | some t1, some t2, some t3 => rotation.byProposition K ⟨t1, t2, t3⟩
  | some t1, some t2, none => rotation.byT12 K t1 t2
  | none, some t2, some t3 => rotation.byT23 K t2 t3
  | some t1, none, some t3 => rotation.byT13 K t1 t3
  | some t1, none, none => rotation.byT1 K t1
  | none, some t2, none => rotation.byT2 K t2
  | none, none, some t3 => rotation.byT3 K t3
  | none, none, none => rotation.allOccurrences

/-- The newest assertion with this occurrence, in the base or the tail. -/
def candidate (occurrence : Triple) : Option OperationOccurrence :=
  rotation.pending.foldl (fun found op =>
    if op.action = .assert ∧ occurrence.term.same op.coordinate.term then some op else found)
    (occurrenceEvent K rotation.byOccurrence rotation.events occurrence)

/-- That assertion, if the live occurrences of its own proposition have it. -/
def eventAt (occurrence : Triple) : Option OperationOccurrence :=
  match rotation.candidate K occurrence with
  | none => none
  | some present =>
    if (rotation.byProposition K present.proposition).any fun event =>
        occurrence.term.same event.coordinate.term then some present
    else none

def liveOccurrence (occurrence : Triple) : Bool := (rotation.eventAt K occurrence).isSome

end Rotation

/-! ### The full projection -/

/-- `relinked-chain!`: link every key again, over that many slots. -/
def relinkedChain (codes : List Nat) (source : List OperationOccurrence) (width : Nat) :
    HashChain :=
  codes.foldl (fun links code =>
    links.push (match source[codePosition code]? with
      | some event => slotOf (shapeHash K (codeShape code) event) width
      | none => 0)) (HashChain.fresh width)

def checkedAssertion (event : OperationOccurrence) : Except Fault OperationOccurrence :=
  if (occurrenceCoordinateOf event.coordinate.term).isSome ∧ event.action = .assert then .ok event
  else .error (.thrown "store: rotations cover assertion occurrences only")

/-- Double a width until it is enough for the events; the first argument bounds the doublings. -/
def widenBucket (eventCount : Nat) : Nat → Nat → Nat
  | 0, width => width
  | fuel + 1, width =>
    if bucketSlotLoad * width ≥ eventCount then width else widenBucket eventCount fuel (2 * width)

def initialBucketWidth (eventCount : Nat) : Nat :=
  widenBucket eventCount eventCount bucketInitialSlots

def bucketKeyAt (bucket : Bucket) (source : List OperationOccurrence) (slot shape : Nat)
    (event : OperationOccurrence) : Option Nat :=
  bucket.links.find slot fun key =>
    bucket.codes[key]?.any fun code =>
      shape == codeShape code &&
        source[codePosition code]?.any fun named => sameShapeKey shape event named

/-- The bucket with a leaf for one event, relinked over twice the slots when it has grown too
    full. -/
def withLeaf (bucket : Bucket) (source : List OperationOccurrence) (slot position shape : Nat)
    (event : OperationOccurrence) : Bucket :=
  let codes := bucket.codes ++ [keyCode position shape]
  let events := bucket.events ++ [[event]]
  if codes.length > bucketSlotLoad * bucket.width then
    let width := 2 * bucket.width
    let links := relinkedChain K codes source width
    { width, codes, events, heads := links.heads, chain := links.chain }
  else
    let links := bucket.links.push slot
    { width := bucket.width, codes, events, heads := links.heads, chain := links.chain }

/-- Put one event under its key of a shape. -/
def bucketStep (source : List OperationOccurrence) (position : Nat) (event : OperationOccurrence)
    (bucket : Bucket) (shape : Nat) : Except Fault Bucket := do
  let event ← checkedAssertion event
  let slot := slotOf (shapeHash K shape event) bucket.width
  match bucketKeyAt bucket source slot shape event with
  | some at_ => .ok { bucket with events := bucket.events.modify at_ (· ++ [event]) }
  | none => .ok (withLeaf K bucket source slot position shape event)

def freshBucket (width : Nat) : Bucket :=
  let links := HashChain.fresh width
  { width, codes := [], events := [], heads := links.heads, chain := links.chain }

/-- `projected-bucket!`: event after event, the shapes of each from the first to the last. -/
def projectedBucketFrom (source : List OperationOccurrence) (shapes : List Nat) :
    Nat → List OperationOccurrence → Bucket → Except Fault Bucket
  | _, [], bucket => .ok bucket
  | position, event :: rest, bucket => do
      let filled ← shapes.foldlM (bucketStep K source position event) bucket
      projectedBucketFrom source shapes (position + 1) rest filled

def projectedBucket (events : List OperationOccurrence) (firstShape lastShape initialWidth : Nat) :
    Except Fault Bucket :=
  projectedBucketFrom K events (List.range' firstShape (lastShape + 1 - firstShape)) 0 events
    (freshBucket initialWidth)

/-- `projected-occurrences!`. -/
def projectedOccurrences (events : List OperationOccurrence) (width : Nat) :
    Except Fault OccurrenceIndex := do
  let links ← events.foldlM (fun links event => do
    let event ← checkedAssertion event
    .ok (links.push (slotOf (K.one event.coordinate.term) width))) (HashChain.fresh width)
  .ok { width, heads := links.heads, chain := links.chain }

/-- `projected!`. -/
def projected (spaceId : String) (version : Int) (events : List OperationOccurrence) :
    Except Fault Rotation := do
  let total := events.length
  let byOccurrence ← projectedOccurrences K events (initialBucketWidth total)
  let spo ← projectedBucket K events shapeT1 shapeT12 (initialBucketWidth (2 * total))
  let pos ← projectedBucket K events shapeT2 shapeT2 (initialBucketWidth total)
  let osp ← projectedBucket K events shapeT3 shapeT3 (initialBucketWidth total)
  .ok { spaceId, version, events, byOccurrence, spo, pos, osp, pending := [] }

/-- `project!`. -/
def project (H : Hashing) (root : Root) : Except Fault Rotation := do
  let events ← liveOccurrences H root
  projected K root.store.spaceId (currentSequence root.store) events

/-! ### Keeping up with the store -/

/-- The occurrence of one operation of a record. -/
def recordOccurrence (spaceId : String) (sequence : Int64) (operation : CommitOperation)
    (ordinal : Nat) : Except Fault OperationOccurrence :=
  if operation.action = .assert ∨ operation.action = .retract then
    .ok ⟨occurrenceCoordinate (transactionCoordinate spaceId sequence.toInt) ordinal,
      operation.action, operation.proposition⟩
  else
    .error (.thrown
      "store: operation occurrence requires a coordinate, action, and Triple proposition")

def pendingWithRecord (pending : List OperationOccurrence) (spaceId : String)
    (record : TransactionRecord) : Except Fault (List OperationOccurrence) :=
  if validSpaceId spaceId ∧ 0 ≤ record.sequence.toInt then
    (record.operations.zipIdx.mapM fun (operation, ordinal) =>
      recordOccurrence spaceId record.sequence operation ordinal).map (pending ++ ·)
  else
    .error (.thrown
      "store: transaction coordinate requires a non-empty space and non-negative sequence")

/-- Operations that are not committed yet, as if they were. -/
def staged (rotation : Rotation) (spaceId : String) (sequence : Int64)
    (operations : List CommitOperation) : Except Fault Rotation := do
  let pending ← pendingWithRecord rotation.pending spaceId ⟨sequence, operations⟩
  .ok { rotation with pending }

/-- The rotation with the committed records in its tail, or folded down when the tail is long. -/
def refresh (rotation : Rotation) (root : Root) : Except Fault Rotation :=
  let space := root.store.spaceId
  let target := currentSequence root.store
  let pinned := rotation.version
  if space ≠ rotation.spaceId then
    .error (.thrown "store: rotation belongs to a different space")
  else if pinned > target then
    .error (.thrown "store: rotation is ahead of the store it projects")
  else if pinned = target then .ok rotation
  else do
    let records ← transactionRecordsBetween root.store pinned target
    let pending ← records.foldlM (fun built record => pendingWithRecord built space record)
      rotation.pending
    let advanced := { rotation with version := target, pending }
    if pending.length > pendingFoldCap then projected K space target advanced.allOccurrences
    else .ok advanced

end

/-- `pinned?`: is this a rotation of the store as it is? -/
def Rotation.pinned (rotation : Rotation) (root : Root) : Bool :=
  root.store.spaceId == rotation.spaceId && currentSequence root.store == rotation.version

end Beagle.Store
