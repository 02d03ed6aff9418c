/-
The layout rules of a segment chain.

A chain is some sealed segments and a tail.  The rules say of one member, once it
has been folded, what is wrong with it, if anything.

The three ways a log is booted.

`consumeTransactionLogHeader` replays a log record by record as it walks it.
`bootStoreLog` decodes every record first and replays it.  `bootStoreLogChain` does
the same over a chain of sealed segments and a tail.  All three stop without an
error at a tail that ends inside a record.
-/
import Beagle.Store.LogCodec

namespace Beagle.Store

/-- What is known of a sealed segment when it has been folded. -/
structure SealedMember where
  index : Nat
  expectedSpace : String
  actualSpace : String
  recordedStart : Int
  actualStart : Int
  recordedEnd : Int
  actualEnd : Int
  recordedBytes : Int
  actualBytes : Int
  continuation : Bool
  torn : Bool
  expectedNext : Int
deriving DecidableEq, Repr

def sealedMemberFault (m : SealedMember) : Option String :=
  if m.expectedSpace ≠ m.actualSpace then
    some "Store transaction log segment belongs to a different SpaceId"
  else if m.recordedBytes ≠ m.actualBytes then
    some "Store transaction log segment size does not match its branch ref record"
  else if m.recordedStart ≠ m.actualStart then
    some "Store transaction log segment does not begin at its recorded transaction sequence"
  else if m.recordedEnd ≠ m.actualEnd then
    some "Store transaction log segment does not end at its recorded transaction sequence"
  else if m.torn then
    some "Store transaction log segment ends inside a transaction record"
  else if 0 < m.index ∧ !m.continuation then
    some "Store transaction log chain segment after the base segment must carry the continuation flag"
  else if m.index = 0 ∧ m.continuation then
    some "Store transaction log base chain segment must not carry the continuation flag"
  else if 0 < m.actualStart ∧ m.expectedNext ≠ m.actualStart then
    some "Store transaction log chain segment does not continue the previous transaction sequence"
  else none

/-- What is known of the tail when it has been folded. -/
structure TailMember where
  sealedCount : Nat
  expectedSpace : String
  actualSpace : String
  actualStart : Int
  continuation : Bool
  expectedNext : Int
deriving DecidableEq, Repr

def tailMemberFault (m : TailMember) : Option String :=
  if m.expectedSpace ≠ m.actualSpace then
    some "Store transaction log tail belongs to a different SpaceId"
  else if 0 < m.sealedCount ∧ !m.continuation then
    some "Store transaction log branch tail must carry the continuation flag"
  else if m.sealedCount = 0 ∧ m.continuation then
    some "Store transaction log version or flags are unsupported"
  else if 0 < m.actualStart ∧ m.expectedNext ≠ m.actualStart then
    some "Store transaction log branch tail does not continue the sealed chain"
  else none

/-- The sequence after a member; an empty member changes nothing. -/
def nextExpected (actualEnd expectedNext : Int) : Except Fault Int :=
  if 0 < actualEnd then incInt actualEnd else .ok expectedNext

/-! ### What the rules pass -/

theorem tailMemberFault_none {m : TailMember} :
    tailMemberFault m = none ↔ m.expectedSpace = m.actualSpace ∧
      (m.continuation = true ↔ 0 < m.sealedCount) ∧
      (0 < m.actualStart → m.expectedNext = m.actualStart) := by
  unfold tailMemberFault
  cases m.continuation <;> grind

theorem sealedMemberFault_none {m : SealedMember} :
    sealedMemberFault m = none ↔ m.expectedSpace = m.actualSpace ∧
      m.recordedBytes = m.actualBytes ∧ m.recordedStart = m.actualStart ∧
      m.recordedEnd = m.actualEnd ∧ m.torn = false ∧ (m.continuation = true ↔ 0 < m.index) ∧
      (0 < m.actualStart → m.expectedNext = m.actualStart) := by
  unfold sealedMemberFault
  cases m.continuation <;> cases m.torn <;> grind

section

open Beagle.Lib Beagle.Lib.Reader

theorem frameAt_after_lt {mp : Nat} {r pl a : List UInt8} {sc : Nat}
    (h : frameAt mp r = .record pl sc a) :
    a.length < r.length := by
  unfold frameAt at h
  split at h
  · cases h
  · split at h
    · cases h
    · dsimp only at h
      split at h
      · cases h
      · split at h
        · cases h
        · cases h
          rw [List.length_drop]
          omega

def crcMessage : String := "Store transaction log record CRC does not match"
def oversizedMessage : String :=
  "Store transaction log record exceeds the supported byte range"
def notAdvancingMessage : String :=
  "Store transaction log transaction sequence does not advance"

structure BootStream where
  configuredSpaceId : String
  store : Root
  validLogBytes : Nat
  bootAppend : List UInt8

structure BootResult where
  store : Root
  validLogBytes : Nat
  bootAppend : List UInt8

section

variable (H : Hashing)

/-! ### The fused walk -/

def consumeTransactionLogRecords (stream : BootStream) (rest : List UInt8) :
    Except Failure BootStream :=
  match _h : frameAt storeLogStreamMaxPayloadBytes rest with
  | .ended => .ok stream
  | .short => .ok stream
  | .oversized => .error (.error oversizedMessage)
  | .torn => .ok stream
  | .record payload storedCrc after =>
    if storedCrc ≠ crc32 payload then .error (.error crcMessage)
    else
      match replayRecordFused H stream.store payload with
      | .error fault => .error (.fault fault)
      | .ok (.error refused) => .error (.error (refused.message.getD notAdvancingMessage))
      | .ok (.ok root) =>
        consumeTransactionLogRecords
          { configuredSpaceId := stream.configuredSpaceId
            store := root
            validLogBytes := stream.validLogBytes + (payload.length + 8)
            bootAppend := [] } after
termination_by rest.length
decreasing_by exact frameAt_after_lt (by assumption)

/-- A fault of the store, as the boot reports it. -/
def liftFault {α : Type} (result : Except Fault α) : Except Failure α := result.mapError .fault

def liftError {α : Type} (result : Except String α) : Except Failure α := result.mapError .error

def consumeTransactionLogHeader (configuredSpaceId : String) (bytes : List UInt8) :
    Except Failure BootStream :=
  if bytes.length = 0 then do
    let header ← liftError (encodeHeader configuredSpaceId)
    let root ← liftFault (newTermStore configuredSpaceId)
    .ok ⟨configuredSpaceId, root, 0, header⟩
  else if bytes.length < minimumHeaderBytes then
    .error (.error "Store transaction log header is truncated")
  else if !magicAtStart bytes then
    .error (.error "Store transaction log magic does not match")
  else do
    let header ← liftError
      (headerFieldsAt storeLogStreamMaxSpaceBytes (· = storeLogFlags) bytes)
    if configuredSpaceId ≠ "" ∧ configuredSpaceId ≠ header.spaceId then
      .error (.error "Store transaction log belongs to a different SpaceId")
    else do
      let root ← liftFault (newTermStoreForLog header.spaceId bytes.length)
      consumeTransactionLogRecords H ⟨configuredSpaceId, openFold root, header.headerBytes, []⟩
        (bytes.drop header.headerBytes)

end

/-! ### Decoding and then replaying -/

def successfulBoot (root : Root) (validLogBytes : Nat) (bootAppend : List UInt8) :
    Except Failure BootResult := do
  let store ← liftFault (validatedStore (closeFold root))
  .ok ⟨store, validLogBytes, bootAppend⟩

section

variable (H : Hashing)

def replayCompleteRecords (root : Root) (validLogBytes : Nat) (rest : List UInt8) :
    Except Failure BootResult :=
  match _h : frameAt maxCodecCount rest with
  | .ended => successfulBoot root validLogBytes []
  | .short => successfulBoot root validLogBytes []
  | .oversized => .error (.error oversizedMessage)
  | .torn => successfulBoot root validLogBytes []
  | .record payload storedCrc after =>
    if storedCrc ≠ crc32 payload then .error (.error crcMessage)
    else
      match decodeRecordPayload payload with
      | .error (.error message) =>
        .error (.error ("Store transaction log record decode failed: " ++ message))
      | .error (.fault fault) => .error (.fault fault)
      | .ok record =>
        if record.sequence.toInt < root.store.nextSequence then
          .error (.error notAdvancingMessage)
        else
          match replayTransaction H root record with
          | .error fault => .error (.fault fault)
          | .ok replayed =>
            replayCompleteRecords replayed.1 (validLogBytes + (payload.length + 8)) after
termination_by rest.length
decreasing_by exact frameAt_after_lt (by assumption)

def bootStoreLog (configuredSpaceId : String) (bytes : List UInt8) : Except Failure BootResult :=
  if bytes.length = 0 then do
    let header ← liftError (encodeHeader configuredSpaceId)
    let root ← liftFault (newTermStore configuredSpaceId)
    successfulBoot root 0 header
  else if !magicAtStart bytes then
    .error (.error "Store transaction log magic does not match")
  else if bytes.length < minimumHeaderBytes then
    .error (.error "Store transaction log header is truncated")
  else do
    let header ← liftError (headerFieldsAt maxCodecCount (· = storeLogFlags) bytes)
    if configuredSpaceId ≠ "" ∧ configuredSpaceId ≠ header.spaceId then
      .error (.error "Store transaction log belongs to a different SpaceId")
    else do
      let root ← liftFault (newTermStoreForLog header.spaceId bytes.length)
      replayCompleteRecords H (openFold root) header.headerBytes (bytes.drop header.headerBytes)

end

/-! ### Chains -/

/-- One member of a chain, with the span its branch records for it. -/
structure ChainPiece where
  bytes : List UInt8
  startSequence : Int
  endSequence : Int
  byteCount : Int
deriving DecidableEq, Repr

/-- What folding a member found. -/
structure ChainFold where
  validBytes : Nat
  startSequence : Int
  endSequence : Int
  torn : Bool
deriving DecidableEq, Repr

def decodeStoreLogHeader (bytes : List UInt8) : Except String HeaderFields :=
  if bytes.length < minimumHeaderBytes then .error "Store transaction log header is truncated"
  else if !magicAtStart bytes then .error "Store transaction log magic does not match"
  else
    headerFieldsAt storeLogStreamMaxSpaceBytes
      (fun flags => flags = storeLogFlags ∨ flags = storeLogContinuationFlag) bytes

section

variable (H : Hashing)

/-- The records of a member, from a position on. -/
def foldChainRecords (isSealed : Bool) (root : Root) (firstRecord : Bool) (fold : ChainFold)
    (rest : List UInt8) : Except Failure (Root × ChainFold) :=
  let shortPiece : Except Failure (Root × ChainFold) :=
    if isSealed then
      .error (.error "Store transaction log segment ends inside a transaction record")
    else .ok (root, { fold with torn := true })
  match _h : frameAt storeLogStreamMaxPayloadBytes rest with
  | .ended => .ok (root, { fold with torn := false })
  | .short => shortPiece
  | .oversized => .error (.error oversizedMessage)
  | .torn => shortPiece
  | .record payload storedCrc after =>
    if storedCrc ≠ crc32 payload then .error (.error crcMessage)
    else
      match decodeRecordPayload payload with
      | .error (.error message) =>
        .error (.error ("Store transaction log record decode failed: " ++ message))
      | .error (.fault fault) => .error (.fault fault)
      | .ok record =>
        match replayTransactionResult H root record with
        | .error fault => .error (.fault fault)
        | .ok (.error refused) => .error (.error (refused.message.getD notAdvancingMessage))
        | .ok (.ok replayed) =>
          foldChainRecords isSealed replayed false
            { validBytes := fold.validBytes + (payload.length + 8)
              startSequence :=
                if firstRecord then record.sequence.toInt else fold.startSequence
              endSequence := record.sequence.toInt
              torn := false } after
termination_by rest.length
decreasing_by exact frameAt_after_lt (by assumption)

def foldChainPiece (isSealed : Bool) (root : Root) (bytes : List UInt8) (headerBytes : Nat) :
    Except Failure (Root × ChainFold) :=
  foldChainRecords H isSealed root true ⟨headerBytes, 0, 0, false⟩ (bytes.drop headerBytes)

/-- A member's header and its records. -/
def foldMember (isSealed : Bool) (root : Root) (piece : ChainPiece) :
    Except Failure (HeaderFields × Root × ChainFold) := do
  let header ← liftError (decodeStoreLogHeader piece.bytes)
  let folded ← foldChainPiece H isSealed root piece.bytes header.headerBytes
  .ok (header, folded)

/-- The tail, once the sealed segments are folded. -/
def foldTail (sealedCount : Nat) (root : Root) (expectedNext : Int) (tail : ChainPiece) :
    Except Failure BootResult := do
  let (header, folded, fold) ← foldMember H false root tail
  match tailMemberFault
      { sealedCount
        expectedSpace := folded.store.spaceId
        actualSpace := header.spaceId
        actualStart := fold.startSequence
        continuation := header.flags = storeLogContinuationFlag
        expectedNext } with
  | some message => .error (.error message)
  | none => do
      let _ ← liftFault (nextExpected fold.endSequence expectedNext)
      successfulBoot folded fold.validBytes []

/-- The sealed segments from an index on, and then the tail. -/
def foldMembers (tail : ChainPiece) :
    Nat → Root → Int → List ChainPiece → Except Failure BootResult
  | index, root, expectedNext, [] => foldTail H index root expectedNext tail
  | index, root, expectedNext, piece :: rest => do
      let (header, folded, fold) ← foldMember H true root piece
      match sealedMemberFault
          { index
            expectedSpace := folded.store.spaceId
            actualSpace := header.spaceId
            recordedStart := piece.startSequence
            actualStart := fold.startSequence
            recordedEnd := piece.endSequence
            actualEnd := fold.endSequence
            recordedBytes := piece.byteCount
            actualBytes := piece.bytes.length
            continuation := header.flags = storeLogContinuationFlag
            torn := fold.torn
            expectedNext } with
      | some message => .error (.error message)
      | none => do
          let next ← liftFault (nextExpected fold.endSequence expectedNext)
          foldMembers tail (index + 1) folded next rest

def bootStoreLogChain (configuredSpaceId : String) (segments : List ChainPiece)
    (tail : ChainPiece) : Except Failure BootResult := do
  let pieces := segments ++ [tail]
  let firstHeader ← liftError (decodeStoreLogHeader (pieces.headD tail).bytes)
  if configuredSpaceId ≠ "" ∧ configuredSpaceId ≠ firstHeader.spaceId then
    .error (.error "Store transaction log belongs to a different SpaceId")
  else do
    let chainBytes := (pieces.map (·.bytes.length)).sum
    let root ← liftFault (newTermStoreForLog firstHeader.spaceId chainBytes)
    foldMembers H tail 0 (openFold root) 1 segments

end

end

end Beagle.Store
