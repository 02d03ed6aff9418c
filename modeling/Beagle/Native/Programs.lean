/-
Programs of the native core, with what their instructions name besides values.

An instruction that works on storage names its region and the capability it uses, a call names its
function, a tiled step its kernel and its widths.  Instructions that only read their operands, and
those that only put a new value into an arena, are alike to the obligations here and stand for
their whole kind.
-/
import Beagle.Native.Layouts
import Beagle.Native.Resources

namespace Beagle.NativePrograms

open Beagle.NativeCore (NativeId Parameter SsaValue CheckedOperation BitwiseOperation Terminator
  idsIn)
open Beagle.Layouts (TypeDef LayoutDef)
open Beagle.Resources (RegionDef)

/-! ### Instructions -/

inductive NativeAtom where
  | boolAtom (value : Bool)
  | i64Atom (value : Int64)
  | f64Atom (value : BitVec 64)
  | textAtom (value : String)
  | keywordAtom (value : String)
  | refAtom (target : NativeId)

inductive CompareOp where
  | eqI64
  | ltI64
  | leI64
  | eqF64
  | ltF64
  | leF64
  | eqBool
  | eqText

inductive ParallelBoundary where
  | bounded
  | periodic

/-- The one way to reduce, pair by adjacent pair. -/
inductive ParallelReductionPolicy where
  | adjacentPairwise

/-- The operands of a store; its kinds differ in the type of the value. -/
structure StoreOp where
  address : NativeId
  value : NativeId
  region : NativeId
  capability : NativeId

structure TiledStep where
  currentId : NativeId
  nextId : NativeId
  tileWidth : Int
  leftHalo : Int
  rightHalo : Int
  boundary : ParallelBoundary
  kernelId : NativeId
  region : NativeId
  readCapability : NativeId
  writeCapability : NativeId

structure BufferSum where
  sourceId : NativeId
  tileWidth : Int
  policy : ParallelReductionPolicy
  region : NativeId
  readCapability : NativeId

inductive Operation where
  | atom (atom : NativeAtom)
  | copy (sourceId : NativeId)
  | addF64 (leftId rightId : NativeId)
  | subF64 (leftId rightId : NativeId)
  | mulF64 (leftId rightId : NativeId)
  | divF64 (leftId rightId : NativeId)
  | i64ToF64 (sourceId : NativeId)
  | f64ToI64 (sourceId : NativeId)
  | checked (operation : CheckedOperation)
  | bitwise (operation : BitwiseOperation)
  | compare (comparison : CompareOp) (leftId rightId : NativeId)
  | variantValue (sourceId variantId : NativeId)
  | unionConstruct (variantId : NativeId) (payloadId : Option NativeId)
  | store (store : StoreOp)
  | allocate (region capability byteCountId : NativeId)
  | call (functionId : NativeId) (arguments : List NativeId) (arenaId : Option NativeId)
  | closure (functionId environmentId : NativeId)
  | closureCall (closureId : NativeId) (arguments : List NativeId) (arenaId : NativeId)
  | externCall (abiId : NativeId) (arguments : List NativeId) (arenaId : Option NativeId)
  | bufferAllocate (lengthId arenaId region capability : NativeId)
  | bufferLength (sourceId region capability : NativeId)
  | bufferGetChecked (sourceId indexId region capability : NativeId)
  | bufferSetChecked (sourceId indexId valueId region capability : NativeId)
  | tiledStepF64 (step : TiledStep)
  | f64BufferSum (sum : BufferSum)
  | arena (region capability : NativeId)
  | arenaClose (sourceId : NativeId)
  | atomState (region capability : NativeId)
  | atomCreate (initialId arenaId stateId : NativeId)
  | atomDeref (cellId stateId : NativeId)
  | atomReset (cellId stateId valueId : NativeId)
  | atomCompareExchange (cellId stateId expectedId replacementId : NativeId)
  | atomSwap (cellId stateId updaterId : NativeId) (arguments : List NativeId)
  /-- A kind whose result is put into an arena: a vector, a map, a text, a promotion. -/
  | allocating (arenaId : NativeId) (operands : List NativeId)
  /-- A kind that reads its operands and nothing else. -/
  | reading (operands : List NativeId)

structure Instruction where
  result : SsaValue
  operation : Operation

structure BasicBlock where
  id : NativeId
  parameters : List Parameter
  instructions : List Instruction
  terminators : List Terminator

structure FunctionDef where
  id : NativeId
  parameters : List Parameter
  blocks : List BasicBlock
  returnType : Option NativeId
  effects : List NativeId
  regions : List NativeId
  capabilities : List NativeId

/-! ### Programs -/

inductive EffectKind where
  | pureEffect
  | allocateEffect (region : NativeId)
  | readEffect (region : NativeId)
  | writeEffect (region : NativeId)
  | capabilityEffect (capability : NativeId)
  | ioEffect (capability : NativeId)
  | socketEffect (capability : NativeId)
  | clockEffect (capability : NativeId)
  | atomicEffect (region capability : NativeId)
deriving DecidableEq

/-- `(get kind :region nil)` -/
def EffectKind.region : EffectKind → Option NativeId
  | .allocateEffect region => some region
  | .readEffect region => some region
  | .writeEffect region => some region
  | .atomicEffect region _ => some region
  | _ => none

structure EffectDef where
  id : NativeId
  kind : EffectKind

inductive CapabilityKind where
  | readCapability
  | writeCapability
  | allocateCapability
  | hostCapability
deriving DecidableEq

structure CapabilityDef where
  id : NativeId
  kind : CapabilityKind
  region : Option NativeId

inductive AbiDirection where
  | imports
  | exports
deriving DecidableEq

structure AbiDecl where
  id : NativeId
  functionId : NativeId
  direction : AbiDirection
  requiredEffects : List NativeId
  requiredCapabilities : List NativeId

structure NativeCoreProgram where
  types : List TypeDef
  effects : List EffectDef
  regions : List RegionDef
  capabilities : List CapabilityDef
  layouts : List LayoutDef
  functions : List FunctionDef
  abis : List AbiDecl

/-- `find-function` and `find-function-by-id`. -/
def findFunction (functions : List FunctionDef) (functionId : NativeId) : Option FunctionDef :=
  functions.find? fun function => function.id == functionId

def findAbi (abis : List AbiDecl) (abiId : NativeId) : Option AbiDecl :=
  abis.find? fun abi => abi.id == abiId

def findEffect (effects : List EffectDef) (effectId : NativeId) : Option EffectDef :=
  effects.find? fun effect => effect.id == effectId

/-- `find-capability` and `capability-definition-with-id`. -/
def findCapability (capabilities : List CapabilityDef) (capabilityId : NativeId) :
    Option CapabilityDef :=
  capabilities.find? fun capability => capability.id == capabilityId

/-- `region-definition-with-id` -/
def findRegion (regions : List RegionDef) (regionId : NativeId) : Option RegionDef :=
  regions.find? fun region => region.id == regionId

def findBlock (blocks : List BasicBlock) (blockId : NativeId) : Option BasicBlock :=
  blocks.find? fun block => block.id == blockId

/-- `parameters-value-type` -/
def parametersValueType (parameters : List Parameter) (target : NativeId) : Option NativeId :=
  (parameters.find? fun parameter => parameter.id == target).map (·.typeId)

def blockValueType (block : BasicBlock) (target : NativeId) : Option NativeId :=
  match parametersValueType block.parameters target with
  | some typeId => some typeId
  | none =>
    (block.instructions.find? fun instruction => instruction.result.id == target).map
      (·.result.typeId)

def functionValueType (function : FunctionDef) (target : NativeId) : Option NativeId :=
  match parametersValueType function.parameters target with
  | some typeId => some typeId
  | none => function.blocks.findSome? fun block => blockValueType block target

end Beagle.NativePrograms
