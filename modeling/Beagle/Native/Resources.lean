/-
What a function does with its tokens and its epochs.

Two obligations walk over the blocks of a function.  Discharge carries the tokens that are live
and the tokens that were ever seen: consuming takes live ones away, producing adds ones that are
new, and nothing may be live at an exit.  Leak freedom carries the stack of open epochs: opening
pushes, closing pops the top, and nothing may be open at an exit.

Of an instruction only its result, its tokens and its part in the epochs are read.
-/
import Beagle.Lib.Trails
import Beagle.Native.Obligations

namespace Beagle.Resources

open Beagle.Lib
open Beagle.Lib.Dominators
open Beagle.NativeCore
open Beagle.Obligations (terminatorSuccessors obligationId)

/-! ### Functions with their resources -/

inductive RegionKind where
  | stackRegion
  | arenaRegion
  | externalRegion
deriving DecidableEq

structure RegionDef where
  id : NativeId
  kind : RegionKind
  parent : Option NativeId

structure CapabilityDef where
  id : NativeId
  affine : Bool

inductive ResourceTokenKind where
  | regionToken (region : NativeId)
  | capabilityToken (capability : NativeId)

structure ResourceToken where
  id : NativeId
  kind : ResourceTokenKind

structure TokenFlow where
  consumed : List NativeId
  produced : List ResourceToken

/-- The part of an instruction in the epochs. -/
inductive EpochUse where
  | arena (region : NativeId)
  | arenaClose (sourceId : NativeId)
  | other

structure Instruction where
  result : SsaValue
  tokens : Option TokenFlow
  epoch : EpochUse

structure BasicBlock where
  id : NativeId
  parameters : List Parameter
  instructions : List Instruction
  terminators : List Terminator

structure FunctionDef where
  parameters : List Parameter
  blocks : List BasicBlock
  entryBlock : NativeId
  regions : List NativeId
  capabilities : List NativeId

structure NativeCoreProgram where
  regions : List RegionDef
  capabilities : List CapabilityDef

def blockValueIds (block : BasicBlock) : List NativeId :=
  block.parameters.map (·.id) ++ block.instructions.map (·.result.id)

def functionValueIds (function : FunctionDef) : List NativeId :=
  function.parameters.map (·.id) ++ function.blocks.flatMap blockValueIds

def findBlock (blocks : List BasicBlock) (blockId : NativeId) : Option BasicBlock :=
  blocks.find? fun block => block.id == blockId

def blockSuccessors (block : BasicBlock) : List NativeId :=
  match block.terminators with
  | [terminator] => terminatorSuccessors terminator
  | _ => []

/-! ### Discharge of tokens -/

structure TokenState where
  live : List NativeId
  seen : List NativeId
  valid : Bool

def removeId (ids : List NativeId) (target : NativeId) : List NativeId :=
  ids.filter fun candidate => !(candidate == target)

def tokenStateConsume (state : TokenState) (consumed : List NativeId) : TokenState :=
  if !state.valid || !uniqueIds consumed || !idsIn consumed state.live then
    ⟨state.live, state.seen, false⟩
  else ⟨consumed.foldl removeId state.live, state.seen, true⟩

def producedTokenIds (produced : List ResourceToken) : List NativeId := produced.map (·.id)

def tokenStateProduce (state : TokenState) (produced : List ResourceToken) : TokenState :=
  let producedIds := producedTokenIds produced
  if !state.valid || !uniqueIds producedIds ||
      producedIds.any fun tokenId => decide (tokenId ∈ state.seen) then
    ⟨state.live, state.seen, false⟩
  else ⟨state.live ++ producedIds, state.seen ++ producedIds, true⟩

def applyTokenFlow (state : TokenState) (flow : TokenFlow) : TokenState :=
  tokenStateProduce (tokenStateConsume state flow.consumed) flow.produced

def instructionTokenState (state : TokenState) (instruction : Instruction) : TokenState :=
  match instruction.tokens with
  | none => state
  | some flow => applyTokenFlow state flow

/-- The loop of `block-token-state`, up to the first state that is not valid. -/
def blockTokenState (current : TokenState) : List Instruction → TokenState
  | [] => current
  | instruction :: rest =>
    if !current.valid then current
    else blockTokenState (instructionTokenState current instruction) rest

def tokenSetsEqual (left right : List NativeId) : Bool :=
  left.length == right.length && idsIn left right

def tokenVisitMatches (visit state : TokenState) : Bool :=
  tokenSetsEqual visit.live state.live && tokenSetsEqual visit.seen state.seen

/-- What `token-paths-valid?` does with a block and a state. -/
def tokenWalker (function : FunctionDef) : Trails.Walker NativeId TokenState Bool where
  visit currentId currentState :=
    match findBlock function.blocks currentId with
    | none => .error false
    | some block =>
      let nextState := blockTokenState currentState block.instructions
      let successors := blockSuccessors block
      if !nextState.valid then .error false
      else if successors.length = 0 then
        if nextState.live.length = 0 then .ok (nextState, []) else .error false
      else .ok (nextState, successors)
  agrees entered current := tokenSetsEqual entered.live current.live
  differ _ _ := false
  same := tokenVisitMatches
  done := true

def tokenPathsValid (fuel : Nat) (function : FunctionDef) (blockId : NativeId)
    (state : TokenState) (visited : List (NativeId × TokenState)) : Option Bool :=
  Trails.explore (tokenWalker function) fuel [⟨blockId, state, visited⟩] []

def findCapability (capabilities : List CapabilityDef) (capabilityId : NativeId) :
    Option CapabilityDef :=
  capabilities.find? fun capability => capability.id == capabilityId

def affineFunctionCapabilities (program : NativeCoreProgram) (function : FunctionDef) :
    List NativeId :=
  function.capabilities.filter fun capabilityId =>
    match findCapability program.capabilities capabilityId with
    | none => false
    | some capability => capability.affine

/-- The tokens that a function starts with. -/
def initialTokens (program : NativeCoreProgram) (function : FunctionDef) : List NativeId :=
  function.regions ++ affineFunctionCapabilities program function

def functionTokensDischarged (fuel : Nat) (program : NativeCoreProgram) (function : FunctionDef) :
    Option Bool :=
  let initial := initialTokens program function
  if uniqueIds initial then
    tokenPathsValid fuel function function.entryBlock ⟨initial, initial, true⟩ []
  else some false

/-! ### Leak freedom -/

def findRegion (regions : List RegionDef) (regionId : NativeId) : Option RegionDef :=
  regions.find? fun region => region.id == regionId

def rootRegion (regions : List RegionDef) (regionId : NativeId) : Bool :=
  match findRegion regions regionId with
  | none => false
  | some region => region.parent.isNone

def epochRegion (regions : List RegionDef) (regionId : NativeId) : Bool :=
  match findRegion regions regionId with
  | none => false
  | some region => region.kind == .arenaRegion && region.parent.isSome

/-- The region of an instruction that acquires it as the value. -/
def arenaOf (arenaValueId : NativeId) (instruction : Instruction) : Option NativeId :=
  match instruction.epoch with
  | .arena region => if arenaValueId = instruction.result.id then some region else none
  | _ => none

def functionArenaRegion (function : FunctionDef) (arenaValueId : NativeId) : Option NativeId :=
  function.blocks.findSome? fun block => block.instructions.findSome? (arenaOf arenaValueId)

def epochStackTop (stack : List NativeId) : Option NativeId := stack.getLast?

def epochStackPop (stack : List NativeId) : List NativeId := stack.dropLast

/-- The loop of `epoch-block-step`: the stack behind the instructions, or the violation. -/
def epochBlockStep (regions : List RegionDef) (function : FunctionDef) (current : List NativeId) :
    List Instruction → Except NativeId (List NativeId)
  | [] => .ok current
  | instruction :: rest =>
    match instruction.epoch with
    | .arena region =>
      if epochRegion regions region then
        let parent := (findRegion regions region).bind (·.parent)
        if region ∈ current then .error region
        else
          match parent with
          | none => .error region
          | some parent =>
            if !(rootRegion regions parent || decide (parent ∈ current)) then .error region
            else epochBlockStep regions function (current ++ [region]) rest
      else epochBlockStep regions function current rest
    | .arenaClose sourceId =>
      match functionArenaRegion function sourceId with
      | none => .error (obligationId "epoch-close-unresolved")
      | some region =>
        if !epochRegion regions region then .error region
        else if current.length = 0 then .error region
        else if epochStackTop current ≠ some region then .error region
        else epochBlockStep regions function (epochStackPop current) rest
    | .other => epochBlockStep regions function current rest

/-- What `function-leak-violation` does with a block and a stack. -/
def leakWalker (regions : List RegionDef) (function : FunctionDef) :
    Trails.Walker NativeId (List NativeId) (Option NativeId) where
  visit currentId currentStack :=
    match findBlock function.blocks currentId with
    | none => .error (some (obligationId "epoch-missing-block"))
    | some block =>
      match epochBlockStep regions function currentStack block.instructions with
      | .error violation => .error (some violation)
      | .ok nextStack =>
        let successors := blockSuccessors block
        if successors.length = 0 then
          if nextStack.length = 0 then .ok (nextStack, []) else .error (epochStackTop nextStack)
        else .ok (nextStack, successors)
  agrees entered current := entered == current
  differ entered current :=
    match epochStackTop current with
    | none => epochStackTop entered
    | some top => some top
  same visited current := visited == current
  done := none

def functionLeakViolation (fuel : Nat) (regions : List RegionDef) (function : FunctionDef) :
    Option (Option NativeId) :=
  Trails.explore (leakWalker regions function) fuel [⟨function.entryBlock, [], []⟩] []

/-! ### Walks -/

/-- An edge of the blocks of a function. -/
def Edge (function : FunctionDef) (a b : NativeId) : Prop :=
  ∃ block, findBlock function.blocks a = some block ∧ b ∈ blockSuccessors block

/-- A walk from the entry of a function: the blocks it has left behind, and where it stands. -/
abbrev FunctionWalk (function : FunctionDef) : List NativeId → NativeId → Prop :=
  Walk (Edge function) function.entryBlock

/-- The entry and every target are blocks of the function. -/
structure TargetsExist (function : FunctionDef) : Prop where
  entry : function.entryBlock ∈ function.blocks.map (·.id)
  targets : ∀ block ∈ function.blocks, ∀ target ∈ blockSuccessors block,
    target ∈ function.blocks.map (·.id)

variable {blockId : NativeId}

theorem findBlock_ne_none {bs : List BasicBlock} (h : blockId ∈ bs.map (·.id)) :
    findBlock bs blockId ≠ none := by
  obtain ⟨b, hmem, rfl⟩ := List.mem_map.mp h
  intro hn
  exact absurd (List.find?_eq_none.mp hn b hmem) (by simp)

theorem exists_of_walk {fn : FunctionDef} (ht : TargetsExist fn)
    {l : List NativeId} (w : FunctionWalk fn l blockId) :
    findBlock fn.blocks blockId ≠ none := by
  refine findBlock_ne_none ?_
  cases w with
  | start => exact ht.entry
  | step _ he =>
    obtain ⟨b, hf, hmem⟩ := he
    exact ht.targets b (List.mem_of_find?_eq_some hf) _ hmem

end Beagle.Resources
