/-
The effects of functions, declared and performed.

A function declares effects, regions and capabilities.  The obligation compares each instruction
with them: storage that it names must be declared, a function that it calls or makes a closure of
may export no effect that is not declared, and effects on the regions of epochs are not exported.
Instructions that name no storage and no function pass.

A run is a stack of activations, the youngest first.  An instruction that enters a function stays at
the head of its activation until the function returns.  Values that no effect depends on are not
followed: an instruction may give any of them.
-/
import Beagle.Native.Programs

namespace Beagle.Effects

open Beagle.NativeCore (NativeId Parameter Terminator idsIn)
open Beagle.Resources (RegionDef)
open Beagle.NativePrograms

/-! ### The obligation -/

def effectCoversStore (kind : EffectKind) (region capability : NativeId) : Bool :=
  kind == .writeEffect region || kind == .atomicEffect region capability

def effectCoversRead (kind : EffectKind) (region : NativeId) : Bool := kind == .readEffect region

def effectCoversAllocation (kind : EffectKind) (region : NativeId) : Bool :=
  kind == .allocateEffect region

def effectCoversAtomState (kind : EffectKind) (region capability : NativeId) : Bool :=
  kind == .atomicEffect region capability

section

variable (program : NativeCoreProgram)

/-- The function declares an effect whose kind passes. -/
def declares (function : FunctionDef) (test : EffectKind → Bool) : Bool :=
  function.effects.any fun effectId =>
    match findEffect program.effects effectId with
    | some effect => test effect.kind
    | none => false

def declaredEffectCovers (function : FunctionDef) (region capability : NativeId)
    (allocation : Bool) : Bool :=
  declares program function fun kind =>
    if allocation then effectCoversAllocation kind region
    else effectCoversStore kind region capability

def declaredReadEffectCovers (function : FunctionDef) (region : NativeId) : Bool :=
  declares program function fun kind => effectCoversRead kind region

def capabilityAuthorizes (capabilityId region : NativeId) (mode : CapabilityKind) : Bool :=
  match findCapability program.capabilities capabilityId with
  | some capability => capability.region == some region && capability.kind == mode
  | none => false

def bufferRootRegion (regionId : NativeId) : Bool :=
  program.regions.any fun region =>
    region.id == regionId && region.parent.isNone && region.kind == .arenaRegion

def epochLocalRegion (regions : List RegionDef) (regionId : Option NativeId) : Bool :=
  match regionId with
  | some id => regions.any fun region =>
    id == region.id && region.kind == .arenaRegion && region.parent.isSome
  | none => false

def calleeExportedEffects (callee : FunctionDef) : List NativeId :=
  callee.effects.filter fun effectId =>
    match findEffect program.effects effectId with
    | some effect => !epochLocalRegion program.regions effect.kind.region
    | none => true

/-- The function declares the region and the capability. -/
def holdsResources (function : FunctionDef) (region capability : NativeId) : Bool :=
  decide (region ∈ function.regions) && decide (capability ∈ function.capabilities)

/-- What is asked of a function that is called or made a closure of. -/
def calleeBounded (function : FunctionDef) (calleeId : NativeId) : Bool :=
  match findFunction program.functions calleeId with
  | some callee =>
    idsIn (calleeExportedEffects program callee) function.effects &&
      idsIn callee.capabilities function.capabilities
  | none => false

/-- What is asked of the function of a swap: it has no effect at all. -/
def updaterPure (updaterId : NativeId) : Bool :=
  match findFunction program.functions updaterId with
  | some updater =>
    updater.regions.isEmpty && updater.capabilities.isEmpty && updater.effects.all fun effectId =>
        match findEffect program.effects effectId with
        | some effect => effect.kind == .pureEffect
        | none => false
  | none => false

def instructionEffectsBounded (function : FunctionDef) (instruction : Instruction) : Bool :=
  match instruction.operation with
  | .bufferAllocate _ _ region capability =>
    bufferRootRegion program region && holdsResources function region capability &&
      capabilityAuthorizes program capability region .allocateCapability &&
      declaredEffectCovers program function region capability true
  | .bufferLength _ region capability =>
    bufferRootRegion program region && holdsResources function region capability &&
      capabilityAuthorizes program capability region .readCapability &&
      declaredReadEffectCovers program function region
  | .bufferGetChecked _ _ region capability =>
    bufferRootRegion program region && holdsResources function region capability &&
      capabilityAuthorizes program capability region .readCapability &&
      declaredReadEffectCovers program function region
  | .bufferSetChecked _ _ _ region capability =>
    bufferRootRegion program region && holdsResources function region capability &&
      capabilityAuthorizes program capability region .writeCapability &&
      declaredEffectCovers program function region capability false
  | .atomState region capability =>
    holdsResources function region capability &&
      declares program function fun kind => effectCoversAtomState kind region capability
  | .atomSwap _ _ updaterId _ => updaterPure program updaterId
  | .store store =>
    holdsResources function store.region store.capability &&
      declaredEffectCovers program function store.region store.capability false
  | .arena region capability =>
    holdsResources function region capability &&
      (declaredEffectCovers program function region capability true ||
        (declaredEffectCovers program function region capability false ||
          declaredReadEffectCovers program function region))
  | .allocate region capability _ =>
    holdsResources function region capability &&
      declaredEffectCovers program function region capability true
  | .externCall abiId _ _ =>
    match findAbi program.abis abiId with
    | some abi =>
      abi.direction == .imports && idsIn abi.requiredEffects function.effects &&
        idsIn abi.requiredCapabilities function.capabilities
    | none => false
  | .call functionId _ _ => calleeBounded program function functionId
  | .closure functionId _ => calleeBounded program function functionId
  | _ => true

def functionEffectsBounded (function : FunctionDef) : Bool :=
  function.blocks.all fun block =>
    block.instructions.all fun instruction => instructionEffectsBounded program function instruction

/-- The function of the diagnostic, or nothing when the obligation passes. -/
def boundedEffects : Option NativeId :=
  (program.functions.find? fun function => !functionEffectsBounded program function).map (·.id)

end

/-! ### Activations -/

/-- A value, as far as an effect can depend on it. -/
inductive Value where
  | closure (functionId : NativeId) (environment : Value)
  | arena (region capability : NativeId)
  | state (region capability : NativeId)
  | plain
deriving DecidableEq

abbrev Values := List (NativeId × Value)

/-- The value assigned last. -/
def Values.get (values : Values) (id : NativeId) : Option Value :=
  (values.find? fun entry => entry.1 == id).map (·.2)

def Values.all (values : Values) (ids : List NativeId) : Option (List Value) :=
  ids.mapM values.get

/-- An activation of a function: what is left of its block, its values, and the regions that it
has opened and not closed. -/
structure Frame where
  function : FunctionDef
  instructions : List Instruction
  terminators : List Terminator
  values : Values
  opened : List NativeId

/-- The activation of a function at the start of its first block. -/
def enter (function : FunctionDef) (arguments : List Value) : Frame :=
  match function.blocks with
  | block :: _ => ⟨function, block.instructions, block.terminators,
      (function.parameters.map (·.id)).zip arguments, []⟩
  | [] => ⟨function, [], [], [], []⟩

/-- The value that an instruction may give. -/
def Gives (values : Values) (operation : Operation) (value : Value) : Prop :=
  match operation with
  | .arena region capability => value = .arena region capability
  | .atomState region capability => value = .state region capability
  | .closure functionId environmentId =>
    ∃ environment, values.get environmentId = some environment ∧
      value = .closure functionId environment
  | .copy sourceId => values.get sourceId = some value
  | .bufferLength _ _ _ => value = .plain
  | .f64BufferSum _ => value = .plain
  | .tiledStepF64 _ => value = .plain
  | .checked _ => value = .plain
  | .bitwise _ => value = .plain
  | .compare _ _ _ => value = .plain
  | _ => True

/-- The regions open after an instruction. -/
def openedAfter (values : Values) (opened : List NativeId) : Operation → List NativeId
  | .arena region _ => region :: opened
  | .arenaClose sourceId =>
    match values.get sourceId with
    | some (.arena region _) => opened.erase region
    | _ => opened
  | _ => opened

/-- The function that an instruction enters, by its identity, with its arguments. -/
def Enters (values : Values) (operation : Operation) (calleeId : NativeId)
    (arguments : List Value) : Prop :=
  match operation with
  | .call functionId ids _ => calleeId = functionId ∧ values.all ids = some arguments
  | .closureCall closureId ids _ =>
    ∃ environment rest, values.get closureId = some (.closure calleeId environment) ∧
      values.all ids = some rest ∧ arguments = environment :: rest
  | .atomSwap _ _ updaterId ids =>
    ∃ old rest, calleeId = updaterId ∧ values.all ids = some rest ∧ arguments = old :: rest
  | .tiledStepF64 step =>
    ∃ current next, calleeId = step.kernelId ∧ values.get step.currentId = some current ∧
      values.get step.nextId = some next ∧
      arguments = [current, next, .plain, .plain, .plain]
  | _ => False

/-- An instruction that gives its value without a function being entered, or after its tiles. -/
def computes : Operation → Bool
  | .call _ _ _ => false
  | .closureCall _ _ _ => false
  | .atomSwap _ _ _ _ => false
  | _ => true

/-- A tiled step enters its kernel again until its tiles are done. -/
def repeats : Operation → Bool
  | .tiledStepF64 _ => true
  | _ => false

/-- The blocks that a terminator goes on to, with the values that are passed. -/
def Goes (terminator : Terminator) (blockId : NativeId) (arguments : List NativeId) : Prop :=
  match terminator with
  | .jump target ids => blockId = target ∧ arguments = ids
  | .branch _ trueBlock falseBlock =>
    (blockId = trueBlock ∨ blockId = falseBlock) ∧ arguments = []
  | .switch _ cases => ∃ found ∈ cases, blockId = found.blockId ∧ arguments = found.arguments
  | _ => False

/-- One step of a run: the state is the stack of activations, the youngest first. -/
inductive Step (program : NativeCoreProgram) : List Frame → List Frame → Prop
  | compute {function : FunctionDef} {instruction : Instruction} {rest : List Instruction}
      {terminators : List Terminator} {values : Values} {opened : List NativeId}
      {callers : List Frame} {value : Value} (hcomputes : computes instruction.operation = true)
      (hgives : Gives values instruction.operation value) :
      Step program (⟨function, instruction :: rest, terminators, values, opened⟩ :: callers)
        (⟨function, rest, terminators, (instruction.result.id, value) :: values,
          openedAfter values opened instruction.operation⟩ :: callers)
  | enter {frame : Frame} {instruction : Instruction} {rest : List Instruction}
      {callers : List Frame} {calleeId : NativeId} {callee : FunctionDef} {arguments : List Value}
      (hhead : frame.instructions = instruction :: rest)
      (henters : Enters frame.values instruction.operation calleeId arguments)
      (hcallee : findFunction program.functions calleeId = some callee) :
      Step program (frame :: callers) (enter callee arguments :: frame :: callers)
  | returns {callee frame : Frame} {instruction : Instruction} {rest : List Instruction}
      {valueId : Option NativeId} {terminators : List Terminator} {callers : List Frame}
      {value : Value} (hdone : callee.instructions = [])
      (hreturn : callee.terminators = .returns valueId :: terminators)
      (hvalue : ∀ id, valueId = some id → callee.values.get id = some value)
      (hhead : frame.instructions = instruction :: rest)
      (honce : repeats instruction.operation = false) :
      Step program (callee :: frame :: callers) ({ frame with
          instructions := rest
          values := (instruction.result.id, value) :: frame.values } :: callers)
  | tile {callee frame : Frame} {instruction : Instruction} {rest : List Instruction}
      {valueId : Option NativeId} {terminators : List Terminator} {callers : List Frame}
      (hdone : callee.instructions = [])
      (hreturn : callee.terminators = .returns valueId :: terminators)
      (hhead : frame.instructions = instruction :: rest)
      (hrepeats : repeats instruction.operation = true) :
      Step program (callee :: frame :: callers) (frame :: callers)
  | go {frame : Frame} {terminator : Terminator} {terminators : List Terminator}
      {callers : List Frame} {blockId : NativeId} {ids : List NativeId} {block : BasicBlock}
      {arguments : List Value} (hdone : frame.instructions = [])
      (hterminator : frame.terminators = terminator :: terminators)
      (hgoes : Goes terminator blockId ids)
      (hblock : findBlock frame.function.blocks blockId = some block)
      (harguments : frame.values.all ids = some arguments) :
      Step program (frame :: callers) ({ frame with
          instructions := block.instructions
          terminators := block.terminators
          values := (block.parameters.map (·.id)).zip arguments ++ frame.values } :: callers)

/-! ### Effects performed -/

/-- An effect as an instruction performs it. -/
inductive Deed where
  | reads (region capability : NativeId)
  | writes (region capability : NativeId)
  | allocates (region capability : NativeId)
  | atomic (region capability : NativeId)
  /-- An effect that an imported function requires. -/
  | foreign (effectId : NativeId)
  | uses (capability : NativeId)
deriving DecidableEq

/-- The deeds of an instruction that names its storage or its import. -/
def namedDeeds (program : NativeCoreProgram) : Operation → List Deed
  | .store store => [.writes store.region store.capability]
  | .allocate region capability _ => [.allocates region capability]
  | .bufferAllocate _ _ region capability => [.allocates region capability]
  | .bufferLength _ region capability => [.reads region capability]
  | .bufferGetChecked _ _ region capability => [.reads region capability]
  | .bufferSetChecked _ _ _ region capability => [.writes region capability]
  | .arena _ capability => [.uses capability]
  | .atomState region capability => [.atomic region capability]
  | .externCall abiId _ _ =>
    match findAbi program.abis abiId with
    | some abi =>
      (abi.requiredEffects.filter fun effectId =>
        (findEffect program.effects effectId).map (·.kind) != some .pureEffect).map .foreign ++
        abi.requiredCapabilities.map .uses
    | none => []
  | _ => []

/-- The deed of putting something into the arena that a value is. -/
def arenaDeeds (values : Values) (arenaId : NativeId) : List Deed :=
  match values.get arenaId with
  | some (.arena region capability) => [.allocates region capability]
  | _ => []

/-- The deed of using the state that a value is. -/
def stateDeeds (values : Values) (stateId : NativeId) : List Deed :=
  match values.get stateId with
  | some (.state region capability) => [.atomic region capability]
  | _ => []

/-- The deeds of an instruction that the obligation does not look at: it works through a handle, or
on whole buffers. -/
def handleDeeds (values : Values) : Operation → List Deed
  | .tiledStepF64 step =>
    [.reads step.region step.readCapability, .writes step.region step.writeCapability]
  | .f64BufferSum sum => [.reads sum.region sum.readCapability]
  | .atomCreate _ arenaId stateId => arenaDeeds values arenaId ++ stateDeeds values stateId
  | .atomDeref _ stateId => stateDeeds values stateId
  | .atomReset _ stateId _ => stateDeeds values stateId
  | .atomCompareExchange _ stateId _ _ => stateDeeds values stateId
  | .atomSwap _ stateId _ _ => stateDeeds values stateId
  | .allocating arenaId _ => arenaDeeds values arenaId
  | _ => []

/-- What the next instruction of an activation performs. -/
def Frame.deeds (program : NativeCoreProgram) (frame : Frame) : List Deed :=
  match frame.instructions with
  | instruction :: _ =>
    namedDeeds program instruction.operation ++ handleDeeds frame.values instruction.operation
  | [] => []

def Deed.region (program : NativeCoreProgram) : Deed → Option NativeId
  | .reads region _ => some region
  | .writes region _ => some region
  | .allocates region _ => some region
  | .atomic region _ => some region
  | .foreign effectId => (findEffect program.effects effectId).bind (·.kind.region)
  | .uses _ => none

/-- A deed is covered by the effects and the capabilities that the function declares. -/
def covers (program : NativeCoreProgram) (function : FunctionDef) : Deed → Bool
  | .reads region capability =>
    declaredReadEffectCovers program function region &&
      decide (capability ∈ function.capabilities)
  | .writes region capability =>
    declaredEffectCovers program function region capability false &&
      decide (capability ∈ function.capabilities)
  | .allocates region capability =>
    declaredEffectCovers program function region capability true &&
      decide (capability ∈ function.capabilities)
  | .atomic region capability =>
    (declares program function fun kind => effectCoversAtomState kind region capability) &&
      decide (capability ∈ function.capabilities)
  | .foreign effectId => decide (effectId ∈ function.effects)
  | .uses capability => decide (capability ∈ function.capabilities)

/-- The deed is on the region of an epoch that one of the activations has opened. -/
def Confined (program : NativeCoreProgram) (frames : List Frame) (deed : Deed) : Prop :=
  ∃ region, deed.region program = some region ∧
    epochLocalRegion program.regions (some region) = true ∧ ∃ frame ∈ frames, region ∈ frame.opened

/-- Whatever the next instruction performs is covered by the function of every activation of the
stack, unless it is confined to an epoch that a function called by it has opened. -/
def Accounted (program : NativeCoreProgram) (state : List Frame) : Prop :=
  ∀ top rest, state = top :: rest → ∀ deed ∈ top.deeds program,
    ∀ above frame below, state = above ++ frame :: below →
      covers program frame.function deed = true ∨ Confined program above deed

end Beagle.Effects
