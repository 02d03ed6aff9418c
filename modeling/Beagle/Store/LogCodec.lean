/-
The transaction log's bytes: its header and its records.

A log is a header and then records, one a transaction, each a length, a payload and
the check of the payload.  A payload is read in two ways.  `decodeRecordPayload`
builds the record; `replayRecordFused` interns the propositions while it walks the
bytes, and appends the transaction to the store.
-/
import Beagle.Store.Dump
import Beagle.Store.WireCodec

namespace Beagle.Store

open Beagle.Lib Beagle.Lib.Reader

def storeLogVersion : Nat := 1
def storeLogFlags : Nat := 0

/-- The header flag of a file that continues a sealed segment chain. -/
def storeLogContinuationFlag : Nat := 2

def maxCodecCount : Nat := 2147483647
def maxTermDepth : Nat := 256
def storeLogStreamMaxSpaceBytes : Nat := 4096
def storeLogStreamMaxPayloadBytes : Nat := 1048576
def crc32Polynomial : BitVec 32 := 3988292384#32

/-- "STORELOG". -/
def storeLogMagic : List UInt8 := [83, 84, 79, 82, 69, 76, 79, 71]

def minimumHeaderBytes : Nat := storeLogMagic.length + 8

def crc32 (bytes : List UInt8) : Nat := (Crc.check crc32Polynomial bytes).toNat

/-- Some bytes from a position on. -/
def bytesAt (bytes : List UInt8) (position width : Nat) : List UInt8 :=
  (bytes.drop position).take width

def u16LeAt (bytes : List UInt8) (position : Nat) : Nat := leValue (bytesAt bytes position 2)
def u32LeAt (bytes : List UInt8) (position : Nat) : Nat := leValue (bytesAt bytes position 4)

def magicAtStart (bytes : List UInt8) : Bool := bytes.take storeLogMagic.length = storeLogMagic

/-! ### Headers -/

/-- The bytes a finished encoder holds, or its error. -/
def encoded (write : Encode Unit) : Except String (List UInt8) :=
  (write ⟨[], 0⟩).map fun out => out.2.bytes

/-- The magic and the header fields. -/
def appendHeader (flags : Nat) (spaceId : String) : Encode Unit := do
  appendBytes storeLogMagic
  appendU16Le storeLogVersion
  appendU16Le flags
  appendSizedText spaceId maxCodecCount "Store transaction log SpaceId"

def encodeHeader (spaceId : String) : Except String (List UInt8) :=
  if spaceId = "" then .error "Store transaction log SpaceId must be nonempty"
  else
    (encoded (appendHeader storeLogFlags spaceId)).mapError
      ("Store transaction log header encode failed: " ++ ·)

structure HeaderFields where
  spaceId : String
  flags : Nat
  headerBytes : Nat
deriving DecidableEq, Repr

/-- The header fields after the magic, under a bound on the SpaceId and a test of the flags. -/
def headerFieldsAt (maxSpaceBytes : Nat) (flagsSupported : Nat → Bool) (bytes : List UInt8) :
    Except String HeaderFields :=
  let version := u16LeAt bytes storeLogMagic.length
  let flags := u16LeAt bytes (storeLogMagic.length + 2)
  let spaceLength := u32LeAt bytes (storeLogMagic.length + 4)
  let headerBytes := minimumHeaderBytes + spaceLength
  if version ≠ storeLogVersion ∨ !flagsSupported flags then
    .error "Store transaction log version or flags are unsupported"
  else if spaceLength = 0 ∨ spaceLength > maxSpaceBytes then
    .error "Store transaction log SpaceId length is invalid"
  else if bytes.length < headerBytes then
    .error "Store transaction log header is truncated inside SpaceId"
  else
    match Utf8.decode (bytesAt bytes minimumHeaderBytes spaceLength) with
    | none => .error "Store transaction log SpaceId is not valid UTF-8"
    | some spaceId =>
      if spaceId = "" then .error "Store transaction log SpaceId must be nonempty"
      else .ok ⟨spaceId, flags, headerBytes⟩

/-! ### The propositions of a payload -/

def appendStoreLogTerm (term : Triple) : Encode Unit := do
  resetEncoderNodes
  appendTermLimited maxCodecCount maxCodecCount (maxTermDepth + 1) term.term

section

variable {ρ : Type}

def readStoreLogTerm : Decode ρ Triple := do
  resetNodes
  let proposition ← readTermLimited maxCodecCount maxCodecCount (maxTermDepth + 1)
  match termAsTriple proposition with
  | some triple => pure triple
  | none => decoderError "Store transaction log operation proposition is not a Triple"

/-- The sequence and the operation count at the front of a payload. -/
def readTransactionPayload : Decode ρ (Int64 × Nat) := do
  let sequence ← readI64Le "Store transaction log transaction sequence"
  let operationCount ← readU32Le "Store transaction log operation count"
  pure (sequence, operationCount)

/-! ### Decoding a payload -/

/-- The operations from an ordinal on, `n` of them. -/
def decodeOperations : Nat → Nat → Decode ρ (List CommitOperation)
  | 0, _ => pure []
  | n + 1, ordinal => do
      let actual ← readU32Le "Store transaction log operation ordinal"
      let action ← readU8 "Store transaction log operation action"
      let triple ← readStoreLogTerm
      if actual ≠ ordinal then
        decoderError "Store transaction log operation ordinals are not contiguous"
      else if action = 1 then do
        let rest ← decodeOperations n (ordinal + 1)
        pure (⟨.assert, triple⟩ :: rest)
      else if action = 2 then do
        let rest ← decodeOperations n (ordinal + 1)
        pure (⟨.retract, triple⟩ :: rest)
      else decoderError "Store transaction log contains an unknown operation action"

/-- A payload, up to the end of its last operation. -/
def readRecord : Decode ρ TransactionRecord := do
  let (sequence, operationCount) ← readTransactionPayload
  if sequence.toInt < 0 then decoderError "Store transaction log sequence is negative"
  else if operationCount = 0 ∨ operationCount > maxCodecCount then
    decoderError "Store transaction log record operation count is invalid"
  else do
    let operations ← decodeOperations operationCount 0
    pure ⟨sequence, operations⟩

end

def decodeRecordPayload (payload : List UInt8) : Except Failure TransactionRecord :=
  if payload.length < 12 then
    .error (.error "Store transaction log record header is truncated")
  else
    match (readRecord : Decode Unit TransactionRecord) ⟨payload, ⟨0, ()⟩⟩ with
    | .error failure => .error failure
    | .ok (record, out) =>
      if out.rest ≠ [] then
        .error (.error "Store transaction log record has trailing payload bytes")
      else .ok record

/-! ### Replaying a payload as it is read -/

section

variable (H : Hashing)

/-- `intern-atom-handle!` on the store beside the bytes. -/
def internAtomStep (value : AtomValue) : Decode Root Int := do
  let decoder ← getState
  let interned := internAtomHandle H decoder.root value
  setState { decoder with root := interned.1 }
  pure interned.2

/-- `intern-triple-handle!` on the store beside the bytes. -/
def internTripleStep (t1 t2 t3 : Int) : Decode Root Int := do
  let decoder ← getState
  match internTripleHandle H decoder.root t1 t2 t3 with
  | .error fault => fail (.fault fault)
  | .ok interned => do
      setState { decoder with root := interned.1 }
      pure interned.2

/-- `intern-wire-term!`: the walk of `readTermLimited`, with every Term interned as it is read. -/
def internWireTerm : Nat → Decode Root Int
  | 0 => decoderError recursiveTermDepthError
  | levels + 1 => do
      decoderNode maxCodecCount
      let tag ← readU8 "Term tag"
      match tag with
      | 1 => do
          let text ← readSizedText maxCodecCount "String atom"
          internAtomStep H (.string text)
      | 2 => do
          let value ← readI64Le "Int atom"
          internAtomStep H (.int value)
      | 3 => do
          let bits ← readI64Le "Float atom"
          internAtomStep H (.float (.ofBits bits.toBitVec))
      | 4 => internAtomStep H (.bool false)
      | 5 => internAtomStep H (.bool true)
      | 6 => do
          let spelling ← readSizedText maxCodecCount "Keyword atom"
          if spelling = "" then decoderError "Keyword atom spelling must be nonempty"
          else internAtomStep H (.keyword ⟨spelling⟩)
      | 7 => do
          let t1 ← internWireTerm levels
          let t2 ← internWireTerm levels
          let t3 ← internWireTerm levels
          internTripleStep H t1 t2 t3
      | 8 => do
          let seconds ← readI64Le "Instant atom"
          let nanos ← readU32Le "Instant nanos"
          if h : nanos < 1000000000 then internAtomStep H (.instant ⟨seconds, nanos, h⟩)
          else decoderError "Instant nanoseconds are outside the canonical range"
      | _ => decoderError "TermCodecV1 contains an unknown tag"

/-- What an error of the walk is reported as. -/
def recordDecodeFailed {α : Type} (read : Decode Root α) : Decode Root α := fun input =>
  match read input with
  | .error (.error message) =>
    .error (.error ("Store transaction log record decode failed: " ++ message))
  | result => result

/-- The actions and handles of the operations from an ordinal on, `n` of them. -/
def replayOperations : Nat → Nat → Decode Root (List (Action × Int))
  | 0, _ => pure []
  | n + 1, ordinal => do
      let (actual, action, handle) ← recordDecodeFailed do
        let actual ← readU32Le "Store transaction log operation ordinal"
        let action ← readU8 "Store transaction log operation action"
        resetNodes
        let handle ← internWireTerm H (maxTermDepth + 1)
        pure (actual, action, handle)
      if actual ≠ ordinal then
        decoderError "Store transaction log operation ordinals are not contiguous"
      else if !tripleHandleShape handle then
        decoderError "Store transaction log operation proposition is not a Triple"
      else if action = 1 then do
        let rest ← replayOperations n (ordinal + 1)
        pure ((.assert, handle) :: rest)
      else if action = 2 then do
        let rest ← replayOperations n (ordinal + 1)
        pure ((.retract, handle) :: rest)
      else decoderError "Store transaction log contains an unknown operation action"

/-- A payload, up to the end of its last operation. -/
def replayRecord : Decode Root (Int64 × List (Action × Int)) := do
  let (sequence, operationCount) ← readTransactionPayload
  if sequence.toInt < 0 then decoderError "Store transaction log sequence is negative"
  else if operationCount = 0 ∨ operationCount > maxCodecCount then
    decoderError "Store transaction log record operation count is invalid"
  else do
    let acts ← replayOperations H operationCount 0
    pure (sequence, acts)

def replayRecordFused (root : Root) (payload : List UInt8) :
    Except Fault (Except ReplayError Root) :=
  let refused (message : String) : Except Fault (Except ReplayError Root) :=
    .ok (.error (.of "invalid-transaction-record" message))
  if payload.length < 12 then refused "Store transaction log record header is truncated"
  else
    match replayRecord H ⟨payload, ⟨0, root⟩⟩ with
    | .error (.fault fault) => .error fault
    | .error (.error message) => refused message
    | .ok ((sequence, acts), out) =>
      if out.rest ≠ [] then refused "Store transaction log record has trailing payload bytes"
      else
        appendReplayedTransaction H out.state.root sequence.toInt (acts.map (·.1)) (acts.map (·.2))

end

/-! ### Records -/

/-- How the bytes from a position on begin. -/
inductive Frame where
  /-- Nothing is left. -/
  | ended
  /-- A length does not fit. -/
  | short
  /-- The length is past the bound. -/
  | oversized
  /-- The record does not fit. -/
  | torn
  | record (payload : List UInt8) (storedCrc : Nat) (after : List UInt8)
deriving DecidableEq, Repr

def frameAt (maxPayload : Nat) (rest : List UInt8) : Frame :=
  if rest.length = 0 then .ended
  else if rest.length < 4 then .short
  else
    let payloadLength := u32LeAt rest 0
    if payloadLength > maxPayload then .oversized
    else if rest.length < payloadLength + 8 then .torn
    else
      .record (bytesAt rest 4 payloadLength) (u32LeAt rest (4 + payloadLength))
        (rest.drop (payloadLength + 8))

def actionTag : Action → Nat
  | .assert => 1
  | .retract => 2
  | .other _ => 0

def appendOperations : Nat → List CommitOperation → Encode Unit
  | _, [] => pure ()
  | ordinal, operation :: rest => do
      if actionTag operation.action = 0 then
        encoderError "Store transaction log operation action must be assert or retract"
      else do
        appendU32Le ordinal
        appendU8 (actionTag operation.action)
        appendStoreLogTerm operation.proposition
      appendOperations (ordinal + 1) rest

/-- The payload of a record. -/
def appendPayload (record : TransactionRecord) : Encode Unit := do
  appendI64Le record.sequence
  appendU32Le record.operations.length
  appendOperations 0 record.operations

/-- A payload between its length and its check. -/
def frameBytes (payload : List UInt8) : Encode Unit := do
  appendU32Le payload.length
  appendBytes payload
  appendU32Le (crc32 payload)

def appendRecordBytes (record : TransactionRecord) : Except String (List UInt8) :=
  if record.sequence.toInt < 0 ∨ record.operations = [] then
    .error "Store transaction log transaction record is invalid"
  else do
    let failed := ("Store transaction log record encode failed: " ++ ·)
    let payload ← (encoded (appendPayload record)).mapError failed
    (encoded (frameBytes payload)).mapError failed

/-- `encode-store-append!`: the bytes of the one transaction past a sequence, or none. -/
def encodeStoreAppend (root : Root) (lowerExclusive : Int) : Except Failure (List UInt8) :=
  let current := currentSequence root.store
  if lowerExclusive < 0 ∨ lowerExclusive > current then
    .error (.error "Store transaction log append lower bound is outside store history")
  else if lowerExclusive = current then .ok []
  else if current ≠ lowerExclusive + 1 then
    .error (.error "Store transaction log dispatch produced more than one transaction")
  else
    match transactionRecordsBetween root.store lowerExclusive current with
    | .error fault => .error (.fault fault)
    | .ok [record] => (appendRecordBytes record).mapError .error
    | .ok _ =>
      .error (.error "Store transaction log append did not resolve exactly one transaction")

end Beagle.Store
