/-
The Term codec over its cells.

A decoder walks a byte string with cells for its position, the nodes it has met and
its first error, and an encoder pushes bytes with such cells of its own.  An error
does not stop a walk: the message is kept if it is the first, some value is given
back, and the walk goes on to its end, where the error cell decides.  Recursion is
bounded by the depth alone.
-/
import Beagle.Store.Transactions
import Beagle.Store.WireCodec

namespace Beagle.Store.Cells

open Beagle.Lib

/-! ### Reading -/

structure Decoder where
  bytes : List UInt8
  position : Nat
  limit : Nat
  nodes : Nat
  error : Option String
deriving DecidableEq, Repr

abbrev Walk := StateM Decoder

/-- `decoder-error!`: the first error stays. -/
def decoderError (message : String) : Walk Unit := fun decoder =>
  ((), { decoder with error := decoder.error.or (some message) })

def decoderRemaining (decoder : Decoder) : Int := decoder.limit - decoder.position

def ensureBytes (amount : Nat) (context : String) : Walk Bool := fun decoder =>
  if decoderRemaining decoder ≥ amount then (true, decoder)
  else (false, (decoderError ("Store RPC ended inside " ++ context) decoder).2)

/-- The byte at the position, which moves past it. -/
def nextByte : Walk Nat := fun decoder =>
  ((decoder.bytes.getD decoder.position 0).toNat, { decoder with position := decoder.position + 1 })

def readU8 (context : String) : Walk Nat := do
  let here ← ensureBytes 1 context
  if here then nextByte else pure 0

/-- The loop of `read-u32-le!` and `read-i64-le!`: that many bytes more, from an offset. -/
def readLeFrom (context : String) : Nat → Nat → BitVec 64 → Walk (BitVec 64)
  | 0, _, value => pure value
  | width + 1, offset, value => do
      let byte ← readU8 context
      readLeFrom context width (offset + 1) (value ||| BitVec.ofNat 64 byte <<< (offset * 8))

/-- Four bytes do not reach the sign. -/
def readU32Le (context : String) : Walk Nat := do
  let value ← readLeFrom context 4 0 0
  pure value.toNat

def readI64Le (context : String) : Walk Int64 := do
  let value ← readLeFrom context 8 0 0
  pure (.ofBitVec value)

/-- The next byte of a scalar that is wider than so many bytes. -/
def readPast (least width : Nat) (label : String) : Walk Nat :=
  if width > least then readU8 label else pure 0

/-- One scalar at the position, which must end by `stop`. -/
def readScalar (label : String) (stop : Nat) : Walk Bool := fun decoder =>
  let b0 := readU8 label decoder
  let width := Utf8.width b0.1
  if width = 0 ∨ decoder.position + width > stop then
    (false, (decoderError (label ++ " is not valid UTF-8") b0.2).2)
  else
    let b1 := readPast 1 width label b0.2
    let b2 := readPast 2 width label b1.2
    let b3 := readPast 3 width label b2.2
    if Utf8.scalarValid width b0.1 b1.1 b2.1 b3.1 then (true, b3.2)
    else (false, (decoderError (label ++ " is not valid UTF-8") b3.2).2)

/-- The loop of `read-utf8!` from the position to `stop`.  A turn reads at least one byte, so there
    are no more turns than bytes. -/
def readScalars (label : String) (start stop : Nat) : Nat → Walk String
  | 0 => pure ""
  | turns + 1 => fun decoder =>
    if decoder.position ≥ stop then
      ((Utf8.decode (subvec decoder.bytes start stop)).getD "", decoder)
    else
      let scalar := readScalar label stop decoder
      if scalar.1 then readScalars label start stop turns scalar.2 else ("", scalar.2)

def readUtf8 (length : Nat) (label : String) : Walk String := do
  let here ← ensureBytes length label
  if here then fun decoder =>
    readScalars label decoder.position (decoder.position + length) (length + 1) decoder
  else pure ""

def readSizedText (maximum : Nat) (label : String) : Walk String := do
  let length ← readU32Le label
  if length > maximum then do
    decoderError (label ++ " exceeds the UTF-8 byte limit")
    pure ""
  else readUtf8 length label

/-- `swap!` of the node count. -/
def countNode : Walk Nat := fun decoder =>
  (decoder.nodes + 1, { decoder with nodes := decoder.nodes + 1 })

def decoderNodeLimited (depth maxNodes maxDepth : Nat) : Walk Bool :=
  if depth > maxDepth then do
    decoderError recursiveTermDepthError
    pure false
  else do
    let nodeCount ← countNode
    if nodeCount > maxNodes then do
      decoderError termNodeCountError
      pure false
    else pure true

/-- `:rpc/invalid`, which stands where there is no Term to give. -/
def rpcInvalid : Term := .atom (.keyword ⟨"rpc/invalid"⟩)

/-- A Term, by its tag; `child` reads the Terms inside a triple. -/
def readTagged (maxStringBytes : Nat) (child : Walk Term) : Walk Term := do
  let tag ← readU8 "Term tag"
  match tag with
  | 1 => do
      let text ← readSizedText maxStringBytes "String atom"
      pure (.atom (.string text))
  | 2 => do
      let value ← readI64Le "Int atom"
      pure (.atom (.int value))
  | 3 => do
      let bits ← readI64Le "Float atom"
      pure (.atom (.float (.ofBits bits.toBitVec)))
  | 4 => pure (.atom (.bool false))
  | 5 => pure (.atom (.bool true))
  | 6 => do
      let spelling ← readSizedText maxStringBytes "Keyword atom"
      if spelling = "" then do
        decoderError "Keyword atom spelling must be nonempty"
        pure rpcInvalid
      else pure (.atom (.keyword ⟨spelling⟩))
  | 7 => do
      let t1 ← child
      let t2 ← child
      let t3 ← child
      pure (.triple t1 t2 t3)
  | 8 => do
      let seconds ← readI64Le "Instant atom"
      let nanos ← readU32Le "Instant nanos"
      if h : nanos < 1000000000 then pure (.atom (.instant ⟨seconds, nanos, h⟩))
      else do
        decoderError "Instant nanoseconds are outside the canonical range"
        pure (.atom (.instant ⟨0, 0, by decide⟩))
  | _ => do
      decoderError "TermCodecV1 contains an unknown tag"
      pure rpcInvalid

/-- `read-term-limited!`.  Past the depth bound the node check refuses, so the depth of the
    recursion is bounded. -/
def readTermLimited (maxStringBytes maxNodes maxDepth depth : Nat) : Walk Term := do
  let node ← decoderNodeLimited depth maxNodes maxDepth
  if depth ≤ maxDepth then
    if node then
      readTagged maxStringBytes (readTermLimited maxStringBytes maxNodes maxDepth (depth + 1))
    else pure rpcInvalid
  else pure rpcInvalid
termination_by maxDepth + 1 - depth

/-! ### Writing -/

structure Encoder where
  bytes : List UInt8
  nodes : Nat
  error : Option String
deriving DecidableEq, Repr

abbrev Push := StateM Encoder

/-- `encoder-error!`. -/
def encoderError (message : String) : Push Unit := fun encoder =>
  ((), { encoder with error := encoder.error.or (some message) })

def appendU8 (value : Nat) : Push Unit := fun encoder =>
  if value ≤ 255 then ((), { encoder with bytes := encoder.bytes ++ [.ofNat value] })
  else encoderError "Store RPC encoder produced a value outside u8" encoder

/-- The loop of `append-u32-le!` and `append-i64-le!`. -/
def appendLeFrom (value : BitVec 64) : Nat → Nat → Push Unit
  | 0, _ => pure ()
  | width + 1, offset => do
      appendU8 (255#64 &&& value >>> (offset * 8)).toNat
      appendLeFrom value width (offset + 1)

def appendU32Le (value : Nat) : Push Unit :=
  if value ≤ 4294967295 then appendLeFrom (.ofNat 64 value) 4 0
  else encoderError "Store RPC u32 value is out of range"

def appendI64Le (value : Int64) : Push Unit := appendLeFrom value.toBitVec 8 0

def appendBytes : List UInt8 → Push Unit
  | [] => pure ()
  | byte :: rest => do
      appendU8 byte.toNat
      appendBytes rest

def utf8Bytes (value : String) (maximum : Nat) (label : String) : Push (List UInt8) :=
  let bytes := Utf8.encode value
  if bytes.length > maximum then do
    encoderError (label ++ " exceeds the UTF-8 byte limit")
    pure []
  else pure bytes

def appendSizedText (value : String) (maximum : Nat) (label : String) : Push Unit := do
  let bytes ← utf8Bytes value maximum label
  let encoder ← get
  if encoder.error = none then do
    appendU32Le bytes.length
    appendBytes bytes
  else pure ()

/-- `swap!` of the node count. -/
def countPushed : Push Nat := fun encoder =>
  (encoder.nodes + 1, { encoder with nodes := encoder.nodes + 1 })

def encoderNodeLimited (depth maxNodes maxDepth : Nat) : Push Bool :=
  if depth > maxDepth then do
    encoderError recursiveTermDepthError
    pure false
  else do
    let nodeCount ← countPushed
    if nodeCount > maxNodes then do
      encoderError termNodeCountError
      pure false
    else pure true

def appendAtom (maxStringBytes : Nat) : AtomValue → Push Unit
  | .string text => do
      appendU8 1
      appendSizedText text maxStringBytes "String atom"
  | .int value => do
      appendU8 2
      appendI64Le value
  | .float value => do
      appendU8 3
      appendI64Le (.ofBitVec value.toBits)
  | .bool false => appendU8 4
  | .bool true => appendU8 5
  | .keyword keyword =>
    if keyword.spelling = "" then encoderError "Keyword atom spelling must be nonempty"
    else do
      appendU8 6
      appendSizedText keyword.spelling maxStringBytes "Keyword atom"
  | .instant instant => do
      appendU8 8
      appendI64Le instant.epochSeconds
      appendU32Le instant.nanos

/-- `append-term-limited!`. -/
def appendTermLimited (maxStringBytes maxNodes maxDepth : Nat) : Term → Nat → Push Unit
  | .triple t1 t2 t3, depth => do
      let node ← encoderNodeLimited depth maxNodes maxDepth
      if node then do
        appendU8 7
        appendTermLimited maxStringBytes maxNodes maxDepth t1 (depth + 1)
        appendTermLimited maxStringBytes maxNodes maxDepth t2 (depth + 1)
        appendTermLimited maxStringBytes maxNodes maxDepth t3 (depth + 1)
      else pure ()
  | .atom value, depth => do
      let node ← encoderNodeLimited depth maxNodes maxDepth
      if node then appendAtom maxStringBytes value else pure ()

/-! ### Digests -/

def rpcV2MaxStringBytes : Nat := 1048576
def rpcV2MaxTermNodes : Nat := 65536
def termCodecV1MaxDepth : Nat := 256

/-- `append-term!`. -/
def appendTerm (term : Term) (depth : Nat) : Push Unit :=
  appendTermLimited rpcV2MaxStringBytes rpcV2MaxTermNodes termCodecV1MaxDepth term depth

structure TermDigestResult where
  ok : Bool
  digest : String
  code : String
  message : String
deriving DecidableEq, Repr

/-- `canonical-term-sha256-result!`, for the digest of a byte string. -/
def canonicalTermSha256Result (sha256Bytes : List UInt8 → String) (term : Term) :
    TermDigestResult :=
  let encoder := (appendTerm term 0 ⟨[], 0, none⟩).2
  match encoder.error with
  | some error => ⟨false, "", "term-codec-encode-failed", error⟩
  | none => ⟨true, sha256Bytes encoder.bytes, "rpc/none", ""⟩

end Beagle.Store.Cells
