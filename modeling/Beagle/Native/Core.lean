/-
Functions of the native core.

A function is its blocks, a block its parameters, its instructions and how it ends.  Every
instruction gives one result; the values that it reads are its references, in the order of
the core.
-/
import Beagle.Native.Text

namespace Beagle.NativeCore

open List

structure NativeId where
  value : String
deriving DecidableEq

def canonicalParts (parts : List String) : String :=
  String.join (parts.map fun part => toString part.length ++ ":" ++ part)

def canonicalId (domain : String) (parts : List String) : NativeId :=
  ⟨"native-id-v0:" ++ toString domain.length ++ ":" ++ domain ++ ":" ++ canonicalParts parts⟩

structure Parameter where
  id : NativeId
  typeId : NativeId
deriving DecidableEq

structure SsaValue where
  id : NativeId
  typeId : NativeId
deriving DecidableEq

/-! ### Operations -/

inductive StoreOp where
  | storeBool (address value : NativeId)
  | storeI64 (address value : NativeId)
  | storeF64 (address value : NativeId)
  | storeText (address value : NativeId)
  | storeRef (address value : NativeId)

def storeOpSsaRefs : StoreOp → List NativeId
  | .storeBool address value => [address, value]
  | .storeI64 address value => [address, value]
  | .storeF64 address value => [address, value]
  | .storeText address value => [address, value]
  | .storeRef address value => [address, value]

inductive CheckedOperation where
  | checkedAddI64 (leftId rightId : NativeId)
  | checkedSubI64 (leftId rightId : NativeId)
  | checkedMulI64 (leftId rightId : NativeId)
  | checkedQuotI64 (leftId rightId : NativeId)
  | checkedRemI64 (leftId rightId : NativeId)
  | checkedModI64 (leftId rightId : NativeId)
  | checkedBounds (indexId lengthId : NativeId)

def checkedOperationSsaRefs : CheckedOperation → List NativeId
  | .checkedAddI64 leftId rightId => [leftId, rightId]
  | .checkedSubI64 leftId rightId => [leftId, rightId]
  | .checkedMulI64 leftId rightId => [leftId, rightId]
  | .checkedQuotI64 leftId rightId => [leftId, rightId]
  | .checkedRemI64 leftId rightId => [leftId, rightId]
  | .checkedModI64 leftId rightId => [leftId, rightId]
  | .checkedBounds indexId lengthId => [indexId, lengthId]

inductive BitwiseOperation where
  | bitAndI64 (leftId rightId : NativeId)
  | bitOrI64 (leftId rightId : NativeId)
  | bitXorI64 (leftId rightId : NativeId)
  | bitShiftLeftI64 (valueId distanceId : NativeId)
  | unsignedBitShiftRightI64 (valueId distanceId : NativeId)

def bitwiseOperationSsaRefs : BitwiseOperation → List NativeId
  | .bitAndI64 leftId rightId => [leftId, rightId]
  | .bitOrI64 leftId rightId => [leftId, rightId]
  | .bitXorI64 leftId rightId => [leftId, rightId]
  | .bitShiftLeftI64 valueId distanceId => [valueId, distanceId]
  | .unsignedBitShiftRightI64 valueId distanceId => [valueId, distanceId]

inductive TextBuiltinOp where
  | textCompare (leftId rightId : NativeId)
  | textLastIndexOf (sourceId needleId : NativeId)
  | textEndsWith (sourceId suffixId : NativeId)
  | textTrim (arenaId sourceId : NativeId)
  | textLower (arenaId sourceId : NativeId)
  | textLetterDecimalRuns (arenaId sourceId patternId : NativeId)
  | textRegexReplace (arenaId sourceId patternId replacementId : NativeId)
  | textRegexMatches (sourceId patternId : NativeId)
  | textRegexFind (arenaId sourceId patternId : NativeId)
  | textFormatInt (arenaId formatId sourceId : NativeId)
  | textSplit (arenaId sourceId patternId : NativeId)
  | textVectorTrim (arenaId sourceId : NativeId)
  | textVectorRemoveBlank (arenaId sourceId : NativeId)
  | textJoin (arenaId separatorId sourceId : NativeId)
  | textRepeat (arenaId sourceId countId : NativeId)

def textBuiltinSsaRefs : TextBuiltinOp → List NativeId
  | .textCompare leftId rightId => [leftId, rightId]
  | .textLastIndexOf sourceId needleId => [sourceId, needleId]
  | .textEndsWith sourceId suffixId => [sourceId, suffixId]
  | .textTrim arenaId sourceId => [arenaId, sourceId]
  | .textLower arenaId sourceId => [arenaId, sourceId]
  | .textLetterDecimalRuns arenaId sourceId patternId => [arenaId, sourceId, patternId]
  | .textRegexReplace arenaId sourceId patternId replacementId =>
    [arenaId, sourceId, patternId, replacementId]
  | .textRegexMatches sourceId patternId => [sourceId, patternId]
  | .textRegexFind arenaId sourceId patternId => [arenaId, sourceId, patternId]
  | .textFormatInt arenaId formatId sourceId => [arenaId, formatId, sourceId]
  | .textSplit arenaId sourceId patternId => [arenaId, sourceId, patternId]
  | .textVectorTrim arenaId sourceId => [arenaId, sourceId]
  | .textVectorRemoveBlank arenaId sourceId => [arenaId, sourceId]
  | .textJoin arenaId separatorId sourceId => [arenaId, separatorId, sourceId]
  | .textRepeat arenaId sourceId countId => [arenaId, sourceId, countId]

inductive ValueSemanticsOp where
  | valueEqual (leftId rightId : NativeId)
  | valueHash (valueId : NativeId)
  | valueCompare (leftId rightId : NativeId)
  | dynamicValueEqual (leftId rightId : NativeId)
  | dynamicValueHash (valueId : NativeId)
  | dynamicValueCompare (leftId rightId : NativeId)

/-- The values of an operation of value semantics, a match inside `instruction-ssa-refs`. -/
def valueSemanticsSsaRefs : ValueSemanticsOp → List NativeId
  | .valueEqual leftId rightId => [leftId, rightId]
  | .valueHash valueId => [valueId]
  | .valueCompare leftId rightId => [leftId, rightId]
  | .dynamicValueEqual leftId rightId => [leftId, rightId]
  | .dynamicValueHash valueId => [valueId]
  | .dynamicValueCompare leftId rightId => [leftId, rightId]

inductive CodecPrimitiveOp where
  | charFromCodepoint (arenaId sourceId : NativeId)
  | utf8Encode (arenaId sourceId : NativeId)
  | utf8Decode (arenaId sourceId : NativeId)
  | utf8DecodeSource (arenaId sourceId : NativeId)
  | nativeBytesFromIntsBounded (arenaId sourceId maxBytesId : NativeId)
  | sha256Bytes (arenaId sourceId : NativeId)
  | floatToBits (sourceId : NativeId)
  | floatFromBits (sourceId : NativeId)

def codecPrimitiveSsaRefs : CodecPrimitiveOp → List NativeId
  | .charFromCodepoint arenaId sourceId => [arenaId, sourceId]
  | .utf8Encode arenaId sourceId => [arenaId, sourceId]
  | .utf8Decode arenaId sourceId => [arenaId, sourceId]
  | .utf8DecodeSource arenaId sourceId => [arenaId, sourceId]
  | .nativeBytesFromIntsBounded arenaId sourceId maxBytesId => [arenaId, sourceId, maxBytesId]
  | .sha256Bytes arenaId sourceId => [arenaId, sourceId]
  | .floatToBits sourceId => [sourceId]
  | .floatFromBits sourceId => [sourceId]

/-- What an instruction does, with the values it reads; what else it names (types, regions,
capabilities, tokens, functions, literals) no use of a value depends on. -/
inductive Operation where
  | atom
  | copy (sourceId : NativeId)
  | addF64 (leftId rightId : NativeId)
  | subF64 (leftId rightId : NativeId)
  | mulF64 (leftId rightId : NativeId)
  | divF64 (leftId rightId : NativeId)
  | i64ToF64 (sourceId : NativeId)
  | f64ToI64 (sourceId : NativeId)
  | checked (operation : CheckedOperation)
  | bitwise (operation : BitwiseOperation)
  | store (storeOp : StoreOp)
  | allocate (byteCountId : NativeId)
  | call (arguments : List NativeId) (arenaId : Option NativeId)
  | closure (environmentId : NativeId)
  | closureCall (closureId : NativeId) (arguments : List NativeId) (arenaId : NativeId)
  | externCall (arguments : List NativeId) (arenaId : Option NativeId)
  | compare (leftId rightId : NativeId)
  | field (sourceId : NativeId)
  | variantValue (sourceId : NativeId)
  | record (fieldIds : List NativeId)
  | recordAssoc (sourceId valueId arenaId : NativeId)
  | boxRecord (sourceId arenaId : NativeId)
  | recordMaterialize (sourceId : NativeId)
  | unionConstruct (payloadId : Option NativeId)
  | unionExtract (sourceId : NativeId)
  | vecLength (sourceId : NativeId)
  | vecGet (sourceId indexId : NativeId)
  | vecAssoc (sourceId indexId valueId arenaId : NativeId)
  | vecPush (sourceId valueId arenaId : NativeId)
  | vecEmpty (capacityId arenaId : NativeId)
  | vecConcat (leftId rightId arenaId : NativeId)
  | vecSlice (sourceId startId endId arenaId : NativeId)
  | vecReverse (sourceId arenaId : NativeId)
  | bufferAllocate (lengthId arenaId : NativeId)
  | bufferLength (sourceId : NativeId)
  | bufferGetChecked (sourceId indexId : NativeId)
  | bufferSetChecked (sourceId indexId valueId : NativeId)
  | tiledStepF64 (currentId nextId : NativeId)
  | f64BufferSum (sourceId : NativeId)
  | byteSourceLength (sourceId : NativeId)
  | byteSourceGet (sourceId indexId : NativeId)
  | byteSourceSlice (sourceId startId endId arenaId : NativeId)
  | vecSort (sourceId arenaId : NativeId)
  | mapLiteral (keyIds valueIds : List NativeId) (arenaId : NativeId)
  | setLiteral (valueIds : List NativeId) (arenaId : NativeId)
  | mapCount (sourceId : NativeId)
  | mapGet (sourceId keyId : NativeId) (defaultId : Option NativeId)
  | mapContains (sourceId keyId : NativeId)
  | mapAssoc (sourceId keyId valueId arenaId : NativeId)
  | mapDissoc (sourceId keyId arenaId : NativeId)
  | mapKeys (sourceId arenaId : NativeId)
  | mapValues (sourceId arenaId : NativeId)
  | setCount (sourceId : NativeId)
  | setContains (sourceId valueId : NativeId)
  | setConj (sourceId valueId arenaId : NativeId)
  | setDisj (sourceId valueId arenaId : NativeId)
  | setVector (sourceId arenaId : NativeId)
  | collectionTransientOpen (sourceId arenaId : NativeId)
  | collectionPersistentClose (sourceId arenaId : NativeId)
  | transientVecPush (sourceId valueId : NativeId)
  | transientMapAssoc (sourceId keyId valueId arenaId : NativeId)
  | transientSetConj (sourceId valueId arenaId : NativeId)
  | arena
  | arenaClose (sourceId : NativeId)
  | promote (sourceId arenaId : NativeId)
  | atomState
  | atomCreate (initialId arenaId stateId : NativeId)
  | atomDeref (cellId stateId : NativeId)
  | atomReset (cellId stateId valueId : NativeId)
  | atomCompareExchange (cellId stateId expectedId replacementId : NativeId)
  | atomSwap (cellId stateId : NativeId) (arguments : List NativeId)
  | textLength (sourceId : NativeId)
  | textIndexOf (sourceId needleId : NativeId)
  | textBlank (sourceId : NativeId)
  | textParseI64 (sourceId : NativeId)
  | textParseF64 (sourceId : NativeId)
  | textSlice (arenaId sourceId startId endId : NativeId)
  | textConcat (arenaId : NativeId) (operandIds : List NativeId)
  | textBuiltin (operation : TextBuiltinOp)
  | valueSemantics (operation : ValueSemanticsOp)
  | valueToText (valueId arenaId : NativeId)
  | codecPrimitive (operation : CodecPrimitiveOp)

/-- `instruction-ssa-refs`, of the operation. -/
def Operation.ssaRefs : Operation → List NativeId
  | .atom => []
  | .copy sourceId => [sourceId]
  | .addF64 leftId rightId => [leftId, rightId]
  | .subF64 leftId rightId => [leftId, rightId]
  | .mulF64 leftId rightId => [leftId, rightId]
  | .divF64 leftId rightId => [leftId, rightId]
  | .i64ToF64 sourceId => [sourceId]
  | .f64ToI64 sourceId => [sourceId]
  | .checked operation => checkedOperationSsaRefs operation
  | .bitwise operation => bitwiseOperationSsaRefs operation
  | .store storeOp => storeOpSsaRefs storeOp
  | .allocate byteCountId => [byteCountId]
  | .call arguments arenaId => arguments ++ arenaId.toList
  | .closure environmentId => [environmentId]
  | .closureCall closureId arguments arenaId => [closureId, arenaId] ++ arguments
  | .externCall arguments arenaId => arguments ++ arenaId.toList
  | .compare leftId rightId => [leftId, rightId]
  | .field sourceId => [sourceId]
  | .variantValue sourceId => [sourceId]
  | .record fieldIds => fieldIds
  | .recordAssoc sourceId valueId arenaId => [arenaId, sourceId, valueId]
  | .boxRecord sourceId arenaId => [arenaId, sourceId]
  | .recordMaterialize sourceId => [sourceId]
  | .unionConstruct payloadId => payloadId.toList
  | .unionExtract sourceId => [sourceId]
  | .vecLength sourceId => [sourceId]
  | .vecGet sourceId indexId => [sourceId, indexId]
  | .vecAssoc sourceId indexId valueId arenaId => [arenaId, sourceId, indexId, valueId]
  | .vecPush sourceId valueId arenaId => [arenaId, sourceId, valueId]
  | .vecEmpty capacityId arenaId => [arenaId, capacityId]
  | .vecConcat leftId rightId arenaId => [arenaId, leftId, rightId]
  | .vecSlice sourceId startId endId arenaId => [arenaId, sourceId, startId, endId]
  | .vecReverse sourceId arenaId => [arenaId, sourceId]
  | .bufferAllocate lengthId arenaId => [arenaId, lengthId]
  | .bufferLength sourceId => [sourceId]
  | .bufferGetChecked sourceId indexId => [sourceId, indexId]
  | .bufferSetChecked sourceId indexId valueId => [sourceId, indexId, valueId]
  | .tiledStepF64 currentId nextId => [currentId, nextId]
  | .f64BufferSum sourceId => [sourceId]
  | .byteSourceLength sourceId => [sourceId]
  | .byteSourceGet sourceId indexId => [sourceId, indexId]
  | .byteSourceSlice sourceId startId endId arenaId => [arenaId, sourceId, startId, endId]
  | .vecSort sourceId arenaId => [arenaId, sourceId]
  | .mapLiteral keyIds valueIds arenaId => [arenaId] ++ (keyIds ++ valueIds)
  | .setLiteral valueIds arenaId => [arenaId] ++ valueIds
  | .mapCount sourceId => [sourceId]
  | .mapGet sourceId keyId defaultId => [sourceId, keyId] ++ defaultId.toList
  | .mapContains sourceId keyId => [sourceId, keyId]
  | .mapAssoc sourceId keyId valueId arenaId => [arenaId, sourceId, keyId, valueId]
  | .mapDissoc sourceId keyId arenaId => [arenaId, sourceId, keyId]
  | .mapKeys sourceId arenaId => [arenaId, sourceId]
  | .mapValues sourceId arenaId => [arenaId, sourceId]
  | .setCount sourceId => [sourceId]
  | .setContains sourceId valueId => [sourceId, valueId]
  | .setConj sourceId valueId arenaId => [arenaId, sourceId, valueId]
  | .setDisj sourceId valueId arenaId => [arenaId, sourceId, valueId]
  | .setVector sourceId arenaId => [arenaId, sourceId]
  | .collectionTransientOpen sourceId arenaId => [arenaId, sourceId]
  | .collectionPersistentClose sourceId arenaId => [arenaId, sourceId]
  | .transientVecPush sourceId valueId => [sourceId, valueId]
  | .transientMapAssoc sourceId keyId valueId arenaId => [arenaId, sourceId, keyId, valueId]
  | .transientSetConj sourceId valueId arenaId => [arenaId, sourceId, valueId]
  | .arena => []
  | .arenaClose sourceId => [sourceId]
  | .promote sourceId arenaId => [sourceId, arenaId]
  | .atomState => []
  | .atomCreate initialId arenaId stateId => [initialId, arenaId, stateId]
  | .atomDeref cellId stateId => [cellId, stateId]
  | .atomReset cellId stateId valueId => [cellId, stateId, valueId]
  | .atomCompareExchange cellId stateId expectedId replacementId =>
    [cellId, stateId, expectedId, replacementId]
  | .atomSwap cellId stateId arguments => [cellId, stateId] ++ arguments
  | .textLength sourceId => [sourceId]
  | .textIndexOf sourceId needleId => [sourceId, needleId]
  | .textBlank sourceId => [sourceId]
  | .textParseI64 sourceId => [sourceId]
  | .textParseF64 sourceId => [sourceId]
  | .textSlice arenaId sourceId startId endId => [arenaId, sourceId, startId, endId]
  | .textConcat arenaId operandIds => [arenaId] ++ operandIds
  | .textBuiltin operation => textBuiltinSsaRefs operation
  | .valueSemantics operation => valueSemanticsSsaRefs operation
  | .valueToText valueId arenaId => [arenaId, valueId]
  | .codecPrimitive operation => codecPrimitiveSsaRefs operation

/-! ### Blocks and functions -/

/-- An instruction; its result, which every kind has, stands beside its operation. -/
structure Instruction where
  result : SsaValue
  operation : Operation

def instructionSsaRefs (instruction : Instruction) : List NativeId := instruction.operation.ssaRefs

structure SwitchCase where
  variantId : NativeId
  blockId : NativeId
  arguments : List NativeId

inductive Terminator where
  | returns (value : Option NativeId)
  | jump (blockId : NativeId) (arguments : List NativeId)
  | branch (condition trueBlock falseBlock : NativeId)
  | switch (valueId : NativeId) (cases : List SwitchCase)
  | trap (failureId : NativeId)

def switchCaseSsaRefs (cases : List SwitchCase) : List NativeId := cases.flatMap (·.arguments)

def terminatorSsaRefs : Terminator → List NativeId
  | .returns value => value.toList
  | .jump _ arguments => arguments
  | .branch condition _ _ => [condition]
  | .switch valueId cases => [valueId] ++ switchCaseSsaRefs cases
  | .trap failureId => [failureId]

/-- A block.  No identity is the empty text: they are made by `canonicalId` or read by a decoder
that refuses it. -/
structure BasicBlock where
  id : NativeId
  parameters : List Parameter
  instructions : List Instruction
  terminators : List Terminator
  named : id.value ≠ ""

structure FunctionDef where
  parameters : List Parameter
  blocks : List BasicBlock
  entryBlock : NativeId

def blockValueIds (block : BasicBlock) : List NativeId :=
  block.parameters.map (·.id) ++ block.instructions.map (·.result.id)

def functionValueIds (function : FunctionDef) : List NativeId :=
  function.parameters.map (·.id) ++ function.blocks.flatMap blockValueIds

/-- The loop of `unique-ids?`, with the identities seen so far. -/
def uniqueFrom (seen : List NativeId) : List NativeId → Bool
  | [] => true
  | id :: rest => if id ∈ seen then false else uniqueFrom (id :: seen) rest

def uniqueIds (ids : List NativeId) : Bool := uniqueFrom [] ids

theorem uniqueFrom_iff {seen ids : List NativeId} :
    uniqueFrom seen ids = true ↔ ids.Nodup ∧ ∀ id ∈ ids, id ∉ seen := by
  induction ids generalizing seen with
  | nil => simp [uniqueFrom]
  | cons id r ih =>
    rw [uniqueFrom, nodup_cons]
    by_cases hs : id ∈ seen
    · rw [if_pos hs]
      exact ⟨fun h => absurd h Bool.false_ne_true,
        fun h => absurd hs (h.2 id mem_cons_self)⟩
    · rw [if_neg hs, ih]
      constructor
      · rintro ⟨hnd, hnew⟩
        refine ⟨⟨fun h => hnew id h mem_cons_self, hnd⟩, ?_⟩
        intro o ho
        rcases mem_cons.mp ho with rfl | ho
        · exact hs
        · exact fun h => hnew o ho (mem_cons_of_mem _ h)
      · rintro ⟨⟨hh, hnd⟩, hnew⟩
        refine ⟨hnd, fun o ho h => ?_⟩
        rcases mem_cons.mp h with rfl | h
        · exact hh ho
        · exact hnew o (mem_cons_of_mem _ ho) h

theorem uniqueIds_iff {ids : List NativeId} : uniqueIds ids = true ↔ ids.Nodup := by
  simp [uniqueIds, uniqueFrom_iff]

def idsIn (ids allowed : List NativeId) : Bool := ids.all fun id => decide (id ∈ allowed)

theorem idsIn_iff {ids allowed : List NativeId} : idsIn ids allowed = true ↔ ids ⊆ allowed := by
  simp [idsIn, subset_def]

end Beagle.NativeCore
