/-
Tiled steps over buffers.

The obligation looks at every tiled step and its kernel: the kernel takes the two buffers, the
number of its tile and the bounds of the tile, it calls nothing, it gets elements of the first
buffer and sets elements of the second.  Which elements these are the obligation cannot see.  When
the step runs, each tile has an access: the spans of the current buffer that it may read and the
span of the next one that it may write.  Anything else traps, and what is written goes to a shadow
of the next buffer, which is copied over it when every element is covered.

A trap ends the program, and so does what the emitted text gives no meaning to.
-/
import Beagle.Lib.Turns
import Beagle.Native.Programs

namespace Beagle.Tiles

open Beagle.Lib
open Beagle.NativeCore (NativeId Parameter SsaValue CheckedOperation BitwiseOperation SwitchCase
  Terminator canonicalId)
open Beagle.Layouts (LayoutDef TypeDef findType findLayout)
open Beagle.Resources (RegionDef RegionKind)
open Beagle.NativePrograms

/-! ### The obligation -/

def bufferElementType (types : List TypeDef) (target : NativeId) : Option NativeId :=
  match findType types target with
  | some ⟨_, _, .bufferType elementType⟩ => some elementType
  | _ => none

def typeIdIsF64 (types : List TypeDef) (target : NativeId) : Bool :=
  match findType types target with
  | some ⟨_, _, .atomType .f64Kind⟩ => true
  | _ => false

def typeIdIsI64 (types : List TypeDef) (target : NativeId) : Bool :=
  match findType types target with
  | some ⟨_, _, .atomType .i64Kind⟩ => true
  | _ => false

def typeIdIsBool (types : List TypeDef) (target : NativeId) : Bool :=
  match findType types target with
  | some ⟨_, _, .atomType .boolKind⟩ => true
  | _ => false

def f64BufferTypeId (types : List TypeDef) (target : NativeId) : Bool :=
  match bufferElementType types target with
  | some element => typeIdIsF64 types element
  | none => false

def rootArenaRegion (regions : List RegionDef) (target : NativeId) : Bool :=
  match findRegion regions target with
  | some region => region.parent.isNone && region.kind == .arenaRegion
  | none => false

/-- The capability is of the kind and for the region. -/
def bufferCapabilityValid (capabilities : List CapabilityDef) (target region : NativeId)
    (kind : CapabilityKind) : Bool :=
  match findCapability capabilities target with
  | some capability => capability.region == some region && capability.kind == kind
  | none => false

def bufferFunctionResourceValid (function : FunctionDef) (region capability : NativeId) : Bool :=
  decide (region ∈ function.regions) && decide (capability ∈ function.capabilities)

/-- `buffer-instruction-valid?`, of a tiled step. -/
def tiledStepValid (program : NativeCoreProgram) (owner : FunctionDef) (result : SsaValue)
    (step : TiledStep) : Bool :=
  match functionValueType owner step.currentId, functionValueType owner step.nextId with
  | some currentType, some nextType =>
    currentType == nextType && !(step.currentId == step.nextId) &&
      f64BufferTypeId program.types currentType && typeIdIsBool program.types result.typeId &&
      decide (step.tileWidth > 0) && decide (step.leftHalo ≥ 0) && decide (step.rightHalo ≥ 0) &&
      rootArenaRegion program.regions step.region &&
      bufferFunctionResourceValid owner step.region step.readCapability &&
      bufferFunctionResourceValid owner step.region step.writeCapability &&
      bufferCapabilityValid program.capabilities step.readCapability step.region .readCapability &&
      bufferCapabilityValid program.capabilities step.writeCapability step.region .writeCapability
  | _, _ => false

/-- `buffer-instruction-valid?`, of a sum. -/
def bufferSumValid (program : NativeCoreProgram) (owner : FunctionDef) (result : SsaValue)
    (sum : BufferSum) : Bool :=
  match functionValueType owner sum.sourceId with
  | some sourceType =>
    f64BufferTypeId program.types sourceType && typeIdIsF64 program.types result.typeId &&
      decide (sum.tileWidth > 0) && rootArenaRegion program.regions sum.region &&
      bufferFunctionResourceValid owner sum.region sum.readCapability &&
      bufferCapabilityValid program.capabilities sum.readCapability sum.region .readCapability
  | none => false

def typeIdIsUnit (types : List TypeDef) (target : NativeId) : Bool :=
  match findType types target with
  | some definition => definition.name == "Unit"
  | none => false

def tileKernelSignatureValid (types : List TypeDef) (kernel : FunctionDef) : Bool :=
  match kernel.parameters, kernel.returnType with
  | [current, next, tile, lo, hi], some result =>
    f64BufferTypeId types current.typeId && f64BufferTypeId types next.typeId &&
      typeIdIsI64 types tile.typeId && typeIdIsI64 types lo.typeId &&
      typeIdIsI64 types hi.typeId && typeIdIsUnit types result
  | _, _ => false

/-- The kernel's parameter at the position. -/
def parameterId (kernel : FunctionDef) (position : Nat) : Option NativeId :=
  kernel.parameters[position]?.map (·.id)

def tileKernelInstructionValid (types : List TypeDef) (kernel : FunctionDef)
    (instruction : Instruction) : Bool :=
  let current := parameterId kernel 0
  let next := parameterId kernel 1
  match instruction.operation with
  | .atom (.refAtom _) => false
  | .atom _ => true
  | .arena _ _ => true
  | .copy _ => true
  | .addF64 _ _ => true
  | .subF64 _ _ => true
  | .mulF64 _ _ => true
  | .divF64 _ _ => true
  | .i64ToF64 _ => true
  | .f64ToI64 _ => true
  | .checked _ => true
  | .bitwise _ => true
  | .compare _ _ _ => true
  | .variantValue _ _ => true
  | .unionConstruct _ payloadId =>
    payloadId.isNone && typeIdIsUnit types instruction.result.typeId
  | .bufferLength sourceId _ _ => some sourceId == current || some sourceId == next
  | .bufferGetChecked sourceId _ _ _ => some sourceId == current
  | .bufferSetChecked sourceId _ _ _ _ => some sourceId == next
  | _ => false

def tileKernelLeafValid (types : List TypeDef) (kernel : FunctionDef) : Bool :=
  kernel.blocks.all fun block =>
    block.instructions.all fun instruction => tileKernelInstructionValid types kernel instruction

def functionIdAbiVisible (abis : List AbiDecl) (target : NativeId) : Bool :=
  abis.any fun abi => abi.functionId == target

/-- The instruction calls the function or swaps with it. -/
def callsFunction (target : NativeId) (instruction : Instruction) : Bool :=
  match instruction.operation with
  | .call functionId _ _ => functionId == target
  | .atomSwap _ _ updaterId _ => updaterId == target
  | _ => false

def functionIdOrdinaryReachable (functions : List FunctionDef) (target : NativeId) : Bool :=
  functions.any fun function => function.blocks.any fun block =>
    block.instructions.any (callsFunction target)

def parallelInstructionValid (program : NativeCoreProgram) (owner : FunctionDef)
    (instruction : Instruction) : Bool :=
  match instruction.operation with
  | .tiledStepF64 step =>
    tiledStepValid program owner instruction.result step &&
      match findFunction program.functions step.kernelId with
      | some kernel =>
        tileKernelSignatureValid program.types kernel && tileKernelLeafValid program.types kernel &&
          !functionIdAbiVisible program.abis kernel.id &&
          !functionIdOrdinaryReachable program.functions kernel.id
      | none => false
  | .f64BufferSum sum => bufferSumValid program owner instruction.result sum
  | _ => true

/-- The function of the diagnostic, or nothing when the obligation passes. -/
def deterministicParallelism (program : NativeCoreProgram) : Option NativeId :=
  (program.functions.find? fun function =>
    !function.blocks.all fun block =>
      block.instructions.all fun instruction =>
        parallelInstructionValid program function instruction).map (·.id)

/-! ### Values -/

inductive Value where
  | bool (value : Bool)
  | int (value : Int64)
  | float (bits : BitVec 64)
  | text (value : String)
  | keyword (value : String)
  | unit
  | tagged (tag : Int) (payload : Value)
  | buffer (handle : Nat)
  | arena
deriving DecidableEq

abbrev Values := List (NativeId × Value)

/-- The value assigned last. -/
def Values.get (values : Values) (id : NativeId) : Option Value :=
  (values.find? fun entry => entry.1 == id).map (·.2)

def Values.bool (values : Values) (id : NativeId) : Option Bool :=
  match values.get id with
  | some (.bool value) => some value
  | _ => none

def Values.int (values : Values) (id : NativeId) : Option Int64 :=
  match values.get id with
  | some (.int value) => some value
  | _ => none

def Values.float (values : Values) (id : NativeId) : Option (BitVec 64) :=
  match values.get id with
  | some (.float bits) => some bits
  | _ => none

def Values.text (values : Values) (id : NativeId) : Option String :=
  match values.get id with
  | some (.text value) => some value
  | _ => none

def Values.buffer (values : Values) (id : NativeId) : Option Nat :=
  match values.get id with
  | some (.buffer handle) => some handle
  | _ => none

/-- A buffer of doubles, with the capability that owns it. -/
structure Buffer where
  owner : Nat
  elements : List (BitVec 64)
deriving DecidableEq

/-- What the tiles of a step share. -/
structure Storage (W : Type) where
  buffers : List Buffer
  shadow : Int → Option (BitVec 64)
  world : W

/-- The double arithmetic of the host, and the instructions that a kernel may not have: they may
do anything to what the tiles share. -/
structure Host (W : Type) where
  add : BitVec 64 → BitVec 64 → BitVec 64
  sub : BitVec 64 → BitVec 64 → BitVec 64
  mul : BitVec 64 → BitVec 64 → BitVec 64
  div : BitVec 64 → BitVec 64 → BitVec 64
  isZero : BitVec 64 → Bool
  ofInt : Int64 → BitVec 64
  /-- Truncation, of what is neither out of range nor a NaN. -/
  toInt : BitVec 64 → Option Int64
  eq : BitVec 64 → BitVec 64 → Bool
  lt : BitVec 64 → BitVec 64 → Bool
  le : BitVec 64 → BitVec 64 → Bool
  foreign : Operation → Values → Storage W → Option (Value × Storage W)

/-! ### Scalar instructions -/

def checkedId (parts : List String) : NativeId := canonicalId "native-core-v0/checked" parts

def checkedOkVariantId : NativeId := checkedId ["CheckedI64Result", "ok"]

def checkedOverflowVariantId : NativeId := checkedId ["CheckedI64Result", "overflow"]

def checkedDivisionOkVariantId : NativeId := checkedId ["CheckedDivisionI64Result", "ok"]

def checkedDivisionZeroVariantId : NativeId :=
  checkedId ["CheckedDivisionI64Result", "division-by-zero"]

def variantTag (layouts : List LayoutDef) (owner variant : NativeId) : Int :=
  match findLayout layouts owner with
  | some ⟨_, _, _, _, .unionShape _ _ variants⟩ =>
    ((variants.find? fun layout => layout.variantId == variant).map (·.tag)).getD (-1)
  | _ => -1

def i64OfInt (value : Int) : Option Int64 :=
  if -2 ^ 63 ≤ value ∧ value < 2 ^ 63 then some (Int64.ofInt value) else none

/-- A checked sum, difference or product: its overflow is a variant, or a trap where the type of
the result has none. -/
def checkedOutcome (layouts : List LayoutDef) (outcome : NativeId) (value : Int) : Option Value :=
  let okTag := variantTag layouts outcome checkedOkVariantId
  let overflowTag := variantTag layouts outcome checkedOverflowVariantId
  match i64OfInt value with
  | some result => some (if okTag < 0 then .int result else .tagged okTag (.int result))
  | none => if okTag < 0 then none else some (.tagged overflowTag .unit)

/-- A checked division: `edge` is what the least number gives by minus one. -/
def divisionOutcome (layouts : List LayoutDef) (outcome : NativeId) (left right : Int64)
    (edge : Int64) (ordinary : Int → Int → Int) : Option Value :=
  let okTag := variantTag layouts outcome checkedDivisionOkVariantId
  let zeroTag := variantTag layouts outcome checkedDivisionZeroVariantId
  if okTag < 0 ∨ zeroTag < 0 then none
  else if right = 0 then some (.tagged zeroTag .unit)
  else if left = Int64.minValue ∧ right = -1 then some (.tagged okTag (.int edge))
  else some (.tagged okTag (.int (Int64.ofInt (ordinary left.toInt right.toInt))))

def checkedValue (layouts : List LayoutDef) (outcome : NativeId) (values : Values) :
    CheckedOperation → Option Value
  | .checkedAddI64 leftId rightId => do
      checkedOutcome layouts outcome ((← values.int leftId).toInt + (← values.int rightId).toInt)
  | .checkedSubI64 leftId rightId => do
      checkedOutcome layouts outcome ((← values.int leftId).toInt - (← values.int rightId).toInt)
  | .checkedMulI64 leftId rightId => do
      checkedOutcome layouts outcome ((← values.int leftId).toInt * (← values.int rightId).toInt)
  | .checkedQuotI64 leftId rightId => do
      divisionOutcome layouts outcome (← values.int leftId) (← values.int rightId) Int64.minValue
        Int.tdiv
  | .checkedRemI64 leftId rightId => do
      divisionOutcome layouts outcome (← values.int leftId) (← values.int rightId) 0 Int.tmod
  | .checkedModI64 leftId rightId => do
      divisionOutcome layouts outcome (← values.int leftId) (← values.int rightId) 0 Int.fmod
  | .checkedBounds _ _ => none

def bitwiseValue (values : Values) : BitwiseOperation → Option Value
  | .bitAndI64 leftId rightId => do
      some (.int ((← values.int leftId) &&& (← values.int rightId)))
  | .bitOrI64 leftId rightId => do
      some (.int ((← values.int leftId) ||| (← values.int rightId)))
  | .bitXorI64 leftId rightId => do
      some (.int ((← values.int leftId) ^^^ (← values.int rightId)))
  | .bitShiftLeftI64 valueId distanceId => do
      let distance := (← values.int distanceId).toUInt64 &&& 63
      some (.int ((← values.int valueId).toUInt64 <<< distance).toInt64)
  | .unsignedBitShiftRightI64 valueId distanceId => do
      let distance := (← values.int distanceId).toUInt64 &&& 63
      some (.int ((← values.int valueId).toUInt64 >>> distance).toInt64)

def compareValue {W : Type} (host : Host W) (values : Values) (comparison : CompareOp)
    (leftId rightId : NativeId) : Option Value :=
  match comparison with
  | .eqI64 => do some (.bool (decide ((← values.int leftId) = (← values.int rightId))))
  | .ltI64 => do some (.bool (decide ((← values.int leftId) < (← values.int rightId))))
  | .leI64 => do some (.bool (decide ((← values.int leftId) ≤ (← values.int rightId))))
  | .eqF64 => do some (.bool (host.eq (← values.float leftId) (← values.float rightId)))
  | .ltF64 => do some (.bool (host.lt (← values.float leftId) (← values.float rightId)))
  | .leF64 => do some (.bool (host.le (← values.float leftId) (← values.float rightId)))
  | .eqBool => do some (.bool ((← values.bool leftId) == (← values.bool rightId)))
  | .eqText => do some (.bool ((← values.text leftId) == (← values.text rightId)))

def atomValue : NativeAtom → Option Value
  | .boolAtom value => some (.bool value)
  | .i64Atom value => some (.int value)
  | .f64Atom value => some (.float value)
  | .textAtom value => some (.text value)
  | .keywordAtom value => some (.keyword value)
  | .refAtom _ => none

/-- The payload of the variant asked for, of a value that has it. -/
def variantPayload (layouts : List LayoutDef) (function : FunctionDef) (values : Values)
    (sourceId variantId : NativeId) : Option Value :=
  match values.get sourceId, functionValueType function sourceId with
  | some (.tagged tag payload), some owner =>
    if variantTag layouts owner variantId = tag then some payload else none
  | _, _ => none

section

variable {W : Type} (host : Host W) (layouts : List LayoutDef) (function : FunctionDef)

/-- The value of an instruction that reads no storage; nothing for the others. -/
def scalarValue (instruction : Instruction) (values : Values) : Option Value :=
  match instruction.operation with
  | .atom atom => atomValue atom
  | .arena _ _ => some .arena
  | .copy sourceId => values.get sourceId
  | .addF64 leftId rightId => do
      some (.float (host.add (← values.float leftId) (← values.float rightId)))
  | .subF64 leftId rightId => do
      some (.float (host.sub (← values.float leftId) (← values.float rightId)))
  | .mulF64 leftId rightId => do
      some (.float (host.mul (← values.float leftId) (← values.float rightId)))
  | .divF64 leftId rightId => do
      let right ← values.float rightId
      if host.isZero right then none
      else some (.float (host.div (← values.float leftId) right))
  | .i64ToF64 sourceId => do some (.float (host.ofInt (← values.int sourceId)))
  | .f64ToI64 sourceId => do some (.int (← host.toInt (← values.float sourceId)))
  | .checked operation => checkedValue layouts instruction.result.typeId values operation
  | .bitwise operation => bitwiseValue values operation
  | .compare comparison leftId rightId => compareValue host values comparison leftId rightId
  | .variantValue sourceId variantId => variantPayload layouts function values sourceId variantId
  | .unionConstruct variantId none =>
    some (.tagged (variantTag layouts instruction.result.typeId variantId) .unit)
  | .unionConstruct variantId (some payloadId) => do
      some (.tagged (variantTag layouts instruction.result.typeId variantId)
        (← values.get payloadId))
  | _ => none

end

/-- The kinds whose value is a scalar one. -/
def isScalar : Operation → Bool
  | .atom (.refAtom _) => false
  | .atom _ => true
  | .arena _ _ => true
  | .copy _ => true
  | .addF64 _ _ => true
  | .subF64 _ _ => true
  | .mulF64 _ _ => true
  | .divF64 _ _ => true
  | .i64ToF64 _ => true
  | .f64ToI64 _ => true
  | .checked _ => true
  | .bitwise _ => true
  | .compare _ _ _ => true
  | .variantValue _ _ => true
  | .unionConstruct _ _ => true
  | _ => false

/-! ### Access to buffers -/

/-- `native_parallel_access_v0`: the buffers of a step and the spans of one of its tiles. -/
structure Access where
  current : Nat
  next : Nat
  owner : Nat
  readLo0 : Int
  readHi0 : Int
  readLo1 : Int
  readHi1 : Int
  writeLo : Int
  writeHi : Int
deriving DecidableEq

def readAllowed (access : Access) (handle : Nat) (index : Int) : Bool :=
  access.current == handle && (decide (access.readLo0 ≤ index ∧ index < access.readHi0) ||
      decide (access.readLo1 ≤ index ∧ index < access.readHi1))

def writeAllowed (access : Access) (handle : Nat) (index : Int) : Bool :=
  access.next == handle && decide (access.writeLo ≤ index ∧ index < access.writeHi)

/-- `native_buffer_require`: the buffer is there and the capability owns it. -/
def bufferRequire (buffers : List Buffer) (handle owner : Nat) : Option Buffer :=
  match buffers[handle]? with
  | some buffer => if buffer.owner = owner then some buffer else none
  | none => none

def bufferLength (access : Access) (buffers : List Buffer) (handle : Nat) : Option Value :=
  match bufferRequire buffers handle access.owner with
  | some buffer =>
    if handle = access.current ∨ handle = access.next then
      some (.int (Int64.ofInt buffer.elements.length))
    else none
  | none => none

def bufferAt (access : Access) (buffers : List Buffer) (handle : Nat) (index : Int) :
    Option Value :=
  match bufferRequire buffers handle access.owner with
  | some buffer =>
    if 0 ≤ index ∧ index < buffer.elements.length ∧ readAllowed access handle index = true then
      buffer.elements[index.toNat]?.map .float
    else none
  | none => none

/-- `native_buffer_set`, of a tile: the element goes to the shadow. -/
def bufferSet {W : Type} (access : Access) (storage : Storage W) (handle : Nat) (index : Int)
    (bits : BitVec 64) : Option (Storage W) :=
  match bufferRequire storage.buffers handle access.owner with
  | some buffer =>
    if 0 ≤ index ∧ index < buffer.elements.length ∧ writeAllowed access handle index = true then
      some { storage with shadow := Function.update storage.shadow index (some bits) }
    else none
  | none => none

/-! ### Tiles -/

/-- What is left of the block of a tile, and the values assigned. -/
structure Frame where
  instructions : List Instruction
  terminators : List Terminator
  values : Values

inductive Progress where
  | running (frame : Frame)
  | returned
  | trapped

def Progress.isTrapped : Progress → Bool
  | .trapped => true
  | _ => false

/-- The tile has returned or is trapped. -/
def Progress.resting : Progress → Bool
  | .running _ => false
  | _ => true

section

variable {W : Type} (host : Host W) (layouts : List LayoutDef) (kernel : FunctionDef)
  (access : Access)

def execute (instruction : Instruction) (values : Values) (storage : Storage W) :
    Option (Value × Storage W) :=
  match instruction.operation with
  | .bufferLength sourceId _ _ => do
      let length ← bufferLength access storage.buffers (← values.buffer sourceId)
      some (length, storage)
  | .bufferGetChecked sourceId indexId _ _ => do
      let element ← bufferAt access storage.buffers (← values.buffer sourceId)
        (← values.int indexId).toInt
      some (element, storage)
  | .bufferSetChecked sourceId indexId valueId _ _ => do
      let bits ← values.float valueId
      let written ← bufferSet access storage (← values.buffer sourceId)
        (← values.int indexId).toInt bits
      some (.float bits, written)
  | operation =>
    if isScalar operation then do
      let value ← scalarValue host layouts kernel instruction values
      some (value, storage)
    else host.foreign operation values storage

/-- The assignments of `emit-jump`, one after another. -/
def passArguments (values : Values) : List Parameter → List NativeId → Option Values
  | _, [] => some values
  | parameter :: parameters, argumentId :: arguments =>
    match values.get argumentId with
    | some value => passArguments ((parameter.id, value) :: values) parameters arguments
    | none => none
  | [], _ :: _ => none

def enterBlock (values : Values) (blockId : NativeId) (arguments : List NativeId) : Progress :=
  match findBlock kernel.blocks blockId with
  | some block =>
    match passArguments values block.parameters arguments with
    | some passed => .running ⟨block.instructions, block.terminators, passed⟩
    | none => .trapped
  | none => .trapped

/-- The case whose variant has the tag. -/
def switchCase (owner : NativeId) (tag : Int) (cases : List SwitchCase) : Option SwitchCase :=
  cases.find? fun candidate => variantTag layouts owner candidate.variantId == tag

def terminate (values : Values) : List Terminator → Progress
  | .returns none :: _ => .returned
  | .returns (some valueId) :: _ => if (values.get valueId).isSome then .returned else .trapped
  | .jump blockId arguments :: _ => enterBlock kernel values blockId arguments
  | .branch condition trueBlock falseBlock :: _ =>
    match values.bool condition with
    | some true => enterBlock kernel values trueBlock []
    | some false => enterBlock kernel values falseBlock []
    | none => .trapped
  | .switch valueId cases :: _ =>
    match values.get valueId, functionValueType kernel valueId with
    | some (.tagged tag _), some owner =>
      match switchCase layouts owner tag cases with
      | some found => enterBlock kernel values found.blockId found.arguments
      | none => .trapped
    | _, _ => .trapped
  | .trap _ :: _ => .trapped
  | [] => .trapped

/-- One instruction of a tile, or the end of its block. -/
def tileMove (storage : Storage W) : Progress → Storage W × Progress
  | .running ⟨instruction :: rest, terminators, values⟩ =>
    match execute host layouts kernel access instruction values storage with
    | some (value, written) =>
      (written, .running ⟨rest, terminators, (instruction.result.id, value) :: values⟩)
    | none => (storage, .trapped)
  | .running ⟨[], terminators, values⟩ => (storage, terminate layouts kernel values terminators)
  | finished => (storage, finished)

end

/-! ### A tiled step -/

def int64Max : Int := 2 ^ 63 - 1

/-- `native_parallel_add_clamped` -/
def addClamped (value amount limit : Int) : Option Int :=
  if amount < 0 ∨ value < 0 ∨ value > limit then none
  else some (if amount > limit - value then limit else value + amount)

/-- `native_parallel_partition_count` -/
def partitionCount (length width : Int) : Nat :=
  if length = 0 then 0 else (1 + (length - 1) / width).toNat

/-- The buffers that a step is run over, the capability and their length. -/
structure Dispatch where
  step : TiledStep
  current : Nat
  next : Nat
  owner : Nat
  length : Int

def Dispatch.writeLo (dispatch : Dispatch) (tile : Nat) : Int := tile * dispatch.step.tileWidth

def Dispatch.writeHi (dispatch : Dispatch) (tile : Nat) : Int :=
  if dispatch.length - dispatch.writeLo tile < dispatch.step.tileWidth then dispatch.length
  else dispatch.writeLo tile + dispatch.step.tileWidth

/-- The spans to read in a periodic buffer. -/
def Dispatch.periodicSpans (dispatch : Dispatch) (lo hi : Int) : Int × Int × Int × Int :=
  let length := dispatch.length
  let left := dispatch.step.leftHalo
  let right := dispatch.step.rightHalo
  let spanLo := lo - left
  let spanHi := (addClamped hi right int64Max).getD hi
  if left ≥ length ∨ right ≥ length ∨ left + right ≥ length - (hi - lo) then (0, length, 0, 0)
  else if spanLo < 0 then (0, spanHi, length + spanLo, length)
  else if spanHi > length then (spanLo, length, 0, spanHi - length)
  else (spanLo, spanHi, 0, 0)

def Dispatch.readSpans (dispatch : Dispatch) (lo hi : Int) : Int × Int × Int × Int :=
  match dispatch.step.boundary with
  | .bounded =>
    (if dispatch.step.leftHalo > lo then 0 else lo - dispatch.step.leftHalo,
      (addClamped hi dispatch.step.rightHalo dispatch.length).getD 0, 0, 0)
  | .periodic => dispatch.periodicSpans lo hi

/-- `native_parallel_partition_access` -/
def Dispatch.access (dispatch : Dispatch) (tile : Nat) : Access :=
  let lo := dispatch.writeLo tile
  let hi := dispatch.writeHi tile
  let spans := dispatch.readSpans lo hi
  ⟨dispatch.current, dispatch.next, dispatch.owner, spans.1, spans.2.1, spans.2.2.1, spans.2.2.2,
    lo, hi⟩

def Dispatch.tiles (dispatch : Dispatch) : Nat :=
  partitionCount dispatch.length dispatch.step.tileWidth

/-- The step is run: its buffers are two, of one length, and its spans do not overflow. -/
def dispatch? (buffers : List Buffer) (step : TiledStep) (current next owner : Nat) :
    Option Dispatch :=
  match bufferRequire buffers current owner, bufferRequire buffers next owner with
  | some currentBuffer, some nextBuffer =>
    let length : Int := currentBuffer.elements.length
    if step.leftHalo < 0 ∨ step.rightHalo < 0 ∨ step.tileWidth ≤ 0 ∨
        step.leftHalo > int64Max - step.rightHalo ∨
        currentBuffer.elements.length ≠ nextBuffer.elements.length ∨ current = next ∨
        length > 0 ∧ step.leftHalo + step.rightHalo > int64Max - step.tileWidth then none
    else some ⟨step, current, next, owner, length⟩
  | _, _ => none

/-- The call of the kernel by its adapter, for one tile. -/
def Dispatch.start (dispatch : Dispatch) (kernel : FunctionDef) (tile : Nat) : Progress :=
  match kernel.parameters, kernel.blocks with
  | [current, next, partition, lo, hi], block :: _ =>
    .running ⟨block.instructions, block.terminators,
      [(hi.id, .int (Int64.ofInt (dispatch.writeHi tile))),
        (lo.id, .int (Int64.ofInt (dispatch.writeLo tile))),
        (partition.id, .int (Int64.ofInt tile)), (next.id, .buffer dispatch.next),
        (current.id, .buffer dispatch.current)]⟩
  | _, _ => .trapped

section

variable {W : Type} (host : Host W) (program : NativeCoreProgram) (kernel : FunctionDef)

/-- The tiles of a step, over what they share. -/
def tileSystem (dispatch : Dispatch) : Turns.System Nat (Storage W) Progress where
  move tile := tileMove host program.layouts kernel (dispatch.access tile)

def tileStart (dispatch : Dispatch) (buffers : List Buffer) (world : W) :
    Turns.State Nat (Storage W) Progress where
  store := ⟨buffers, fun _ => none, world⟩
  parts tile := if tile < dispatch.tiles then dispatch.start kernel tile else .returned

/-- How a step ends: with its result and what it leaves in the buffers and the world. -/
inductive Outcome (W : Type) where
  | trapped
  | unfinished
  | done (result : Bool) (buffers : List Buffer) (world : W)

/-- The shadow, if every element of it is covered. -/
def covered (length : Int) (shadow : Int → Option (BitVec 64)) : Option (List (BitVec 64)) :=
  (List.range length.toNat).mapM fun index : Nat => shadow index

/-- What is made of the tiles after the turns they had. -/
def settle (dispatch : Dispatch) (final : Turns.State Nat (Storage W) Progress) : Outcome W :=
  let progress := (List.range dispatch.tiles).map final.parts
  if progress.any Progress.isTrapped then .trapped
  else if !progress.all Progress.resting then .unfinished
  else
    match covered dispatch.length final.store.shadow with
    | some elements =>
      .done true (final.store.buffers.set dispatch.next ⟨dispatch.owner, elements⟩)
        final.store.world
    | none => .trapped

/-- A tiled step, its tiles taking turns by the schedule. -/
def tiledStep (step : TiledStep) (current next owner : Nat) (cancelled : Bool)
    (buffers : List Buffer) (world : W) (schedule : List Nat) : Outcome W :=
  match dispatch? buffers step current next owner with
  | none => .trapped
  | some dispatch =>
    if cancelled then .done false buffers world
    else
      settle dispatch ((tileSystem host program kernel dispatch).run
        (tileStart kernel dispatch buffers world) schedule)

end

/-! ### What a turn touches -/

/-- An element that an instruction reads or writes. -/
structure Touch where
  handle : Nat
  index : Int
  writes : Bool

def touched (values : Values) : Operation → Option Touch
  | .bufferGetChecked sourceId indexId _ _ => do
      some ⟨← values.buffer sourceId, (← values.int indexId).toInt, false⟩
  | .bufferSetChecked sourceId indexId _ _ _ => do
      some ⟨← values.buffer sourceId, (← values.int indexId).toInt, true⟩
  | _ => none

section

variable {W : Type} (host : Host W) (program : NativeCoreProgram) (kernel : FunctionDef)
  (dispatch : Dispatch)

/-- The element touched by the next turn of a tile, if the turn does not trap. -/
def touchedBy (state : Turns.State Nat (Storage W) Progress) (tile : Nat) : Option Touch :=
  match state.parts tile with
  | .running ⟨instruction :: _, _, values⟩ =>
    match execute host program.layouts kernel (dispatch.access tile) instruction values
        state.store with
    | some _ => touched values instruction.operation
    | none => none
  | _ => none

/-- The elements that the turns of a schedule touch, each with its tile. -/
def touches : Turns.State Nat (Storage W) Progress → List Nat → List (Nat × Touch)
  | _, [] => []
  | state, tile :: rest =>
    ((touchedBy host program kernel dispatch state tile).map (tile, ·)).toList ++
      touches ((tileSystem host program kernel dispatch).turn state tile) rest

end

end Beagle.Tiles
