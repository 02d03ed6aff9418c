/-
The obligation of valid SSA.

Every value has one definition, and its definition lies before each of its uses: earlier in the
same block, among the parameters of the function, in the entry block, or in a block that
dominates the use.  Dominators are parents of blocks that are met and met again until a pass
changes none of them.

The loops that follow parents, and the passes, run on fuel; a run that ends is the same for
every fuel that is enough.
-/
import Beagle.Lib.Keyed
import Beagle.Native.Core

namespace Beagle.Obligations

open Beagle.Lib
open Beagle.NativeCore

/-! ### Definitions -/

structure DefSite where
  found : Bool
  functionParameter : Bool
  blockId : NativeId
  position : Int
  typeId : NativeId

/-- A map whose keys are the texts of identities. -/
abbrev Table (β : Type) := List (String × β)

def Table.get {β : Type} (table : Table β) (key : String) : Option β :=
  (Likeness.ofEq String).get table key

/-- `assoc`: an entry that is there is replaced where it stands. -/
def Table.assoc {β : Type} (table : Table β) (key : String) (value : β) : Table β :=
  (Likeness.ofEq String).set table key value

def obligationId (name : String) : NativeId := canonicalId "native-obligations-v0" [name]

def missingDefSite : DefSite :=
  ⟨false, false, obligationId "missing-block", -1, obligationId "missing-type"⟩

def indexParameterSites (definitions : Table DefSite) (parameters : List Parameter)
    (functionParameter : Bool) (blockId : NativeId) : Table DefSite :=
  parameters.foldl (fun current parameter =>
      Table.assoc current parameter.id.value ⟨true, functionParameter, blockId, -1, parameter.typeId⟩)
    definitions

/-- The loop over the instructions of a block, from an index on. -/
def indexInstructionsFrom (blockId : NativeId) (index : Nat) (current : Table DefSite) :
    List Instruction → Table DefSite
  | [] => current
  | instruction :: rest =>
    indexInstructionsFrom blockId (index + 1) (Table.assoc current instruction.result.id.value
        ⟨true, false, blockId, index, instruction.result.typeId⟩) rest

def indexInstructionSites (definitions : Table DefSite) (block : BasicBlock) : Table DefSite :=
  indexInstructionsFrom block.id 0 definitions block.instructions

def definitionIndex (function : FunctionDef) : Table DefSite :=
  function.blocks.foldl (fun current block =>
      indexInstructionSites (indexParameterSites current block.parameters false block.id) block)
    (indexParameterSites [] function.parameters true (obligationId "function-parameter"))

/-! ### Blocks and their order -/

def findBlock (blocks : List BasicBlock) (blockId : NativeId) : Option BasicBlock :=
  blocks.find? fun block => block.id == blockId

def terminatorSuccessors : Terminator → List NativeId
  | .jump blockId _ => [blockId]
  | .branch _ trueBlock falseBlock => [trueBlock, falseBlock]
  | .switch _ cases => cases.map (·.blockId)
  | .returns _ => []
  | .trap _ => []

def blockSuccessors (block : BasicBlock) : List NativeId :=
  match block.terminators with
  | [terminator] => terminatorSuccessors terminator
  | _ => []

/-- The first block of each identity. -/
def blockIndex (blocks : List BasicBlock) : Table BasicBlock :=
  blocks.foldl (fun current block =>
      match Table.get current block.id.value with
      | none => Table.assoc current block.id.value block
      | some _ => current)
    []

def addPredecessor (blockId : NativeId) (current : Table (List NativeId)) (successor : NativeId) :
    Table (List NativeId) :=
  Table.assoc current successor.value ((Table.get current successor.value).getD [] ++ [blockId])

def predecessorIndex (blocks : List BasicBlock) : Table (List NativeId) :=
  blocks.foldl
    (fun predecessors block => (blockSuccessors block).foldl (addPredecessor block.id) predecessors)
    []

/-- The loop over the pending blocks, from the position on. -/
def reachableFrom (blocks : Table BasicBlock) :
    (fuel : Nat) → (pending : List NativeId) → (seen : List String) → (order : List NativeId) →
      Option (List NativeId)
  | 0, _, _, _ => none
  | _ + 1, [], _, order => some order
  | fuel + 1, current :: pending, seen, order =>
    if current.value ∈ seen then reachableFrom blocks fuel pending seen order
    else
      match Table.get blocks current.value with
      | none => reachableFrom blocks fuel pending (current.value :: seen) order
      | some block =>
        reachableFrom blocks fuel (pending ++ blockSuccessors block) (current.value :: seen)
          (order ++ [current])

def reachableBlockOrder (fuel : Nat) (blocks : Table BasicBlock) (entry : NativeId) :
    Option (List NativeId) :=
  reachableFrom blocks fuel [entry] [] []

/-- The loop of `block-order-index`, from a position on. -/
def orderFrom (position : Nat) (order : Table Int) : List NativeId → Table Int
  | [] => order
  | block :: rest => orderFrom (position + 1) (Table.assoc order block.value position) rest

def blockOrderIndex (blocks : List NativeId) : Table Int := orderFrom 0 [] blocks

/-! ### Dominators -/

def intersectDominatorChains (dominators : Table String) (order : Table Int) :
    (fuel : Nat) → (left right : String) → Option String
  | 0, _, _ => none
  | fuel + 1, left, right =>
    if left = right then some left
    else if (Table.get order left).getD (-1) > (Table.get order right).getD (-1) then
      intersectDominatorChains dominators order fuel ((Table.get dominators left).getD "") right
    else
      intersectDominatorChains dominators order fuel left ((Table.get dominators right).getD "")

/-- The loop of `common-predecessor-dominator`, with its candidate. -/
def commonFrom (fuel : Nat) (dominators : Table String) (order : Table Int) (candidate : String) :
    List NativeId → Option String
  | [] => some candidate
  | predecessor :: rest =>
    if (Table.get dominators predecessor.value).isSome then
      if candidate = "" then commonFrom fuel dominators order predecessor.value rest
      else do
        let met ← intersectDominatorChains dominators order fuel predecessor.value candidate
        commonFrom fuel dominators order met rest
    else commonFrom fuel dominators order candidate rest

def commonPredecessorDominator (fuel : Nat) (predecessors : List NativeId)
    (dominators : Table String) (order : Table Int) : Option String :=
  commonFrom fuel dominators order "" predecessors

/-- A pass over the reachable blocks behind the entry. -/
def dominatorPass (fuel : Nat) (predecessors : Table (List NativeId)) (order : Table Int) :
    List NativeId → Table String → Option (Table String)
  | [], current => some current
  | block :: rest, current => do
      let candidate ← commonPredecessorDominator fuel
        ((Table.get predecessors block.value).getD []) current order
      dominatorPass fuel predecessors order rest
        (if candidate = "" then current else Table.assoc current block.value candidate)

/-- The passes until one of them changes nothing. -/
def dominatorPasses (fuel : Nat) (predecessors : Table (List NativeId)) (order : Table Int)
    (reachable : List NativeId) : (passes : Nat) → Table String → Option (Table String)
  | 0, _ => none
  | passes + 1, dominators => do
      let next ← dominatorPass fuel predecessors order reachable dominators
      if dominators = next then some dominators
      else dominatorPasses fuel predecessors order reachable passes next

def dominatorIndex (fuel : Nat) (function : FunctionDef) : Option (Table String) := do
  let blocksById := blockIndex function.blocks
  let entry := function.entryBlock
  let reachable ← reachableBlockOrder fuel blocksById entry
  if reachable.length = 0 then some []
  else
    dominatorPasses fuel (predecessorIndex function.blocks) (blockOrderIndex reachable)
      reachable.tail fuel [(entry.value, entry.value)]

/-- The loop of `block-dominates?` from a block upwards. -/
def dominatesFrom (dominators : Table String) (definitionKey : String) :
    (fuel : Nat) → (current : String) → Option Bool
  | 0, _ => none
  | fuel + 1, current =>
    if current = definitionKey then some true
    else
      let parent := (Table.get dominators current).getD ""
      if parent = "" ∨ parent = current then some false
      else dominatesFrom dominators definitionKey fuel parent

def blockDominates (fuel : Nat) (dominators : Table String) (definitionBlock useBlock : NativeId) :
    Option Bool :=
  -- a use that is not reachable is dominated by every block
  if (Table.get dominators useBlock.value).isNone then some true
  else if (Table.get dominators definitionBlock.value).isNone then some false
  else dominatesFrom dominators definitionBlock.value fuel useBlock.value

/-! ### Uses -/

structure SsaValidationIndex where
  definitions : Table DefSite
  dominators : Table String

def ssaValidationIndex (fuel : Nat) (function : FunctionDef) : Option SsaValidationIndex := do
  let dominators ← dominatorIndex fuel function
  return ⟨definitionIndex function, dominators⟩

def indexedDefSite (index : SsaValidationIndex) (valueId : NativeId) : DefSite :=
  (Table.get index.definitions valueId.value).getD missingDefSite

def valueDominatesUse (fuel : Nat) (index : SsaValidationIndex) (function : FunctionDef)
    (useBlock : NativeId) (usePosition : Int) (valueId : NativeId) : Option Bool :=
  let site := indexedDefSite index valueId
  if site.found = false then some false
  else if site.functionParameter = true then some true
  else if site.blockId = useBlock then some (decide (site.position < usePosition))
  else if site.blockId = function.entryBlock then some true
  else blockDominates fuel index.dominators site.blockId useBlock

/-- `every?`: the test of each element in turn, up to the first that fails. -/
def everyTrue {α : Type} (test : α → Option Bool) : List α → Option Bool
  | [] => some true
  | a :: rest => do if ← test a then everyTrue test rest else some false

def refsDominate (fuel : Nat) (index : SsaValidationIndex) (function : FunctionDef)
    (blockId : NativeId) (position : Int) (refs : List NativeId) : Option Bool :=
  everyTrue (valueDominatesUse fuel index function blockId position) refs

/-- The loop over the instructions of a block, from a position on. -/
def instructionUsesFrom (fuel : Nat) (index : SsaValidationIndex) (function : FunctionDef)
    (blockId : NativeId) (position : Nat) : List Instruction → Option Bool
  | [] => some true
  | instruction :: rest => do
      if ← refsDominate fuel index function blockId position (instructionSsaRefs instruction) then
        instructionUsesFrom fuel index function blockId (position + 1) rest
      else some false

def blockUsesDominated (fuel : Nat) (index : SsaValidationIndex) (function : FunctionDef)
    (block : BasicBlock) : Option Bool := do
  if ← instructionUsesFrom fuel index function block.id 0 block.instructions then
    everyTrue (fun terminator => refsDominate fuel index function block.id
      block.instructions.length (terminatorSsaRefs terminator)) block.terminators
  else some false

/-- The loop over the arguments of an edge beside the parameters of its target. -/
def argumentsMatchFrom (index : SsaValidationIndex) : List Parameter → List NativeId → Bool
  | parameter :: parameters, argument :: arguments =>
    let site := indexedDefSite index argument
    if site.found && site.typeId == parameter.typeId then
      argumentsMatchFrom index parameters arguments
    else false
  | _, _ => true

def argumentsMatchParameters (index : SsaValidationIndex) (function : FunctionDef)
    (targetId : NativeId) (arguments : List NativeId) : Bool :=
  match findBlock function.blocks targetId with
  | none => false
  | some target =>
    target.parameters.length == arguments.length &&
      argumentsMatchFrom index target.parameters arguments

def terminatorArgumentsValid (index : SsaValidationIndex) (function : FunctionDef) :
    Terminator → Bool
  | .returns _ => true
  | .jump blockId arguments => argumentsMatchParameters index function blockId arguments
  | .branch _ trueBlock falseBlock =>
    argumentsMatchParameters index function trueBlock [] &&
      argumentsMatchParameters index function falseBlock []
  | .switch _ cases =>
    cases.all fun switchCase =>
      argumentsMatchParameters index function switchCase.blockId switchCase.arguments
  | .trap _ => true

def functionValidSsa (fuel : Nat) (function : FunctionDef) : Option Bool :=
  if !uniqueIds (functionValueIds function) then some false
  else do
    let index ← ssaValidationIndex fuel function
    everyTrue (fun block => do
        if ← blockUsesDominated fuel index function block then
          some (block.terminators.all (terminatorArgumentsValid index function))
        else some false)
      function.blocks

end Beagle.Obligations
