/-
The wire codec of Terms.

A decoder walks the bytes up to its limit with a count of the Term nodes it has
met, and stops at its first error; an encoder pushes bytes, with such a count of its
own.  The depth bound is counted down: `levels` is how many levels of Terms may
still be entered, one more than the depth that is left.

What a decoder builds beside the bytes is left open: reading a Term builds nothing,
and a replay builds the store.
-/
import Beagle.Lib.Bytes
import Beagle.Lib.Reader
import Beagle.Lib.Utf8
import Beagle.Store.TermStore

namespace Beagle.Store

open Beagle.Lib Beagle.Lib.Reader

/-- Why a codec stopped: the message in its error cell, or a fault in what it called. -/
inductive Failure where
  | error (message : String)
  | fault (fault : Fault)
deriving DecidableEq, Repr

/-- What a decoder keeps beside the bytes: the nodes it has met, and what it is building. -/
structure Decoder (ρ : Type) where
  nodes : Nat
  root : ρ

abbrev Decode (ρ α : Type) := Reader UInt8 (Decoder ρ) Failure α

def recursiveTermDepthError : String := "recursive Term exceeds the TermCodecV1 depth bound"
def termNodeCountError : String := "TermCodecV1 node count exceeds the configured bound"

section

variable {ρ : Type}

/-! ### Reading -/

/-- `decoder-error!`. -/
def decoderError {α : Type} (message : String) : Decode ρ α := fail (.error message)

/-- `ensure-bytes!` and the bytes it ensures. -/
def readBytes (amount : Nat) (context : String) : Decode ρ (List UInt8) :=
  takeN amount (.error ("Store RPC ended inside " ++ context))

def readLe (width : Nat) (context : String) : Decode ρ Nat := do
  let bytes ← readBytes width context
  pure (leValue bytes)

def readU8 (context : String) : Decode ρ Nat := readLe 1 context
def readU32Le (context : String) : Decode ρ Nat := readLe 4 context

def readI64Le (context : String) : Decode ρ Int64 := do
  let value ← readLe 8 context
  pure (.ofBitVec (.ofNat 64 value))

def readUtf8 (length : Nat) (label : String) : Decode ρ String := do
  let bytes ← readBytes length label
  match Utf8.decode bytes with
  | some text => pure text
  | none => decoderError (label ++ " is not valid UTF-8")

def readSizedText (maximum : Nat) (label : String) : Decode ρ String := do
  let length ← readU32Le label
  if length > maximum then decoderError (label ++ " exceeds the UTF-8 byte limit")
  else readUtf8 length label

/-- `decoder-node-limited!`, inside the depth bound. -/
def decoderNode (maxNodes : Nat) : Decode ρ Unit := do
  let decoder ← getState
  setState { decoder with nodes := decoder.nodes + 1 }
  if decoder.nodes + 1 > maxNodes then decoderError termNodeCountError else pure ()

/-- `(reset! (decoder-nodes decoder) 0)`. -/
def resetNodes : Decode ρ Unit := do
  let decoder ← getState
  setState { decoder with nodes := 0 }

def readTermLimited (maxStringBytes maxNodes : Nat) : Nat → Decode ρ Term
  | 0 => decoderError recursiveTermDepthError
  | levels + 1 => do
      decoderNode maxNodes
      let tag ← readU8 "Term tag"
      match tag with
      | 1 => do
          let text ← readSizedText maxStringBytes "String atom"
          pure (.atom (.string text))
      | 2 => do
          let value ← readI64Le "Int atom"
          pure (.atom (.int value))
      | 3 => do
          let bits ← readI64Le "Float atom"
          pure (.atom (.float (.ofBits bits.toBitVec)))
      | 4 => pure (.atom (.bool false))
      | 5 => pure (.atom (.bool true))
      | 6 => do
          let spelling ← readSizedText maxStringBytes "Keyword atom"
          if spelling = "" then decoderError "Keyword atom spelling must be nonempty"
          else pure (.atom (.keyword ⟨spelling⟩))
      | 7 => do
          let t1 ← readTermLimited maxStringBytes maxNodes levels
          let t2 ← readTermLimited maxStringBytes maxNodes levels
          let t3 ← readTermLimited maxStringBytes maxNodes levels
          pure (.triple t1 t2 t3)
      | 8 => do
          let seconds ← readI64Le "Instant atom"
          let nanos ← readU32Le "Instant nanos"
          if h : nanos < 1000000000 then pure (.atom (.instant ⟨seconds, nanos, h⟩))
          else decoderError "Instant nanoseconds are outside the canonical range"
      | _ => decoderError "TermCodecV1 contains an unknown tag"

end

/-! ### Writing -/

structure Encoder where
  bytes : List UInt8
  nodes : Nat
deriving DecidableEq, Repr

abbrev Encode := StateT Encoder (Except String)

/-- `encoder-error!`. -/
def encoderError (message : String) : Encode Unit := fun _ => .error message

def appendBytes (bytes : List UInt8) : Encode Unit :=
  fun encoder => .ok ((), { encoder with bytes := encoder.bytes ++ bytes })

def appendU8 (value : Nat) : Encode Unit :=
  if value ≤ 255 then appendBytes (leBytes 1 value)
  else encoderError "Store RPC encoder produced a value outside u8"

def appendU16Le (value : Nat) : Encode Unit := appendBytes (leBytes 2 value)

def appendU32Le (value : Nat) : Encode Unit :=
  if value ≤ 4294967295 then appendBytes (leBytes 4 value)
  else encoderError "Store RPC u32 value is out of range"

def appendI64Le (value : Int64) : Encode Unit := appendBytes (leBytes 8 value.toBitVec.toNat)

def appendSizedText (value : String) (maximum : Nat) (label : String) : Encode Unit :=
  let bytes := Utf8.encode value
  if bytes.length > maximum then encoderError (label ++ " exceeds the UTF-8 byte limit")
  else do
    appendU32Le bytes.length
    appendBytes bytes

/-- `encoder-node-limited!`, inside the depth bound. -/
def encoderNode (maxNodes : Nat) : Encode Unit := fun encoder =>
  if encoder.nodes + 1 > maxNodes then .error termNodeCountError
  else .ok ((), { encoder with nodes := encoder.nodes + 1 })

/-- `(reset! (encoder-nodes encoder) 0)`. -/
def resetEncoderNodes : Encode Unit := fun encoder => .ok ((), { encoder with nodes := 0 })

def appendAtom (maxStringBytes : Nat) : AtomValue → Encode Unit
  | .string text => do
      appendU8 1
      appendSizedText text maxStringBytes "String atom"
  | .int value => do
      appendU8 2
      appendI64Le value
  | .float value => do
      appendU8 3
      appendI64Le (.ofBitVec value.toBits)
  | .bool false => appendU8 4
  | .bool true => appendU8 5
  | .keyword keyword =>
    if keyword.spelling = "" then encoderError "Keyword atom spelling must be nonempty"
    else do
      appendU8 6
      appendSizedText keyword.spelling maxStringBytes "Keyword atom"
  | .instant instant => do
      appendU8 8
      appendI64Le instant.epochSeconds
      appendU32Le instant.nanos

def appendTermLimited (maxStringBytes maxNodes : Nat) : Nat → Term → Encode Unit
  | 0, _ => encoderError recursiveTermDepthError
  | levels + 1, term => do
      encoderNode maxNodes
      match term with
      | .triple t1 t2 t3 => do
          appendU8 7
          appendTermLimited maxStringBytes maxNodes levels t1
          appendTermLimited maxStringBytes maxNodes levels t2
          appendTermLimited maxStringBytes maxNodes levels t3
      | .atom value => appendAtom maxStringBytes value

end Beagle.Store
