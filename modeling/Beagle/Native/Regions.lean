/-
Region declarations, their schedule, and the identities of what is stored for them.

A region declares inputs, each an output of another region, and outputs.  The regions of
a graph are checked and put in an order in which providers come first.  Identities are
digests of framed parts with the kind of the identity as the last part; spans and the
order of declarations are no parts of them.

Identities of what is stored for regions.

Every identity is the digest of framed parts of which the last is the kind of the
identity.  Inputs, outputs, interfaces and resolved inputs are put in order before they
become parts; spans, payload positions and fences are no parts of any identity.
-/
import Beagle.Lib.KeySort
import Beagle.Native.Text

namespace Beagle.Regions

open Beagle.Lib (Utf8.encode)
open Beagle.Lib.KeySort

structure RegionSourceSpan where
  sourceContentId : String
  startByte : Int
  endByte : Int
deriving DecidableEq

structure SourceSlice where
  sourceContentId : String
  startByte : Int
  endByte : Int
  payloadByteDigest : String
deriving DecidableEq

structure TypedInput where
  localPort : String
  providerRegion : String
  providerPort : String
  expectedTypeId : String
  edgeSpan : RegionSourceSpan
deriving DecidableEq

structure TypedOutput where
  port : String
  typeId : String
  declarationSpan : RegionSourceSpan
deriving DecidableEq

structure RegionDecl where
  moduleId : String
  regionName : String
  capsuleId : String
  inputs : List TypedInput
  outputs : List TypedOutput
  payload : SourceSlice
  headerSpan : RegionSourceSpan
  fenceSpan : RegionSourceSpan
deriving DecidableEq

structure ResolvedInput where
  localPort : String
  providerOutputId : String
  checkedTypeId : String
deriving DecidableEq

inductive ProblemCode where
  | duplicateName
  | mainCount
  | duplicateInputPort
  | duplicateOutputPort
  | missingProviderRegion
  | missingProviderOutput
  | providerTypeMismatch
  | cycle
deriving DecidableEq

structure RegionGraphProblem where
  code : ProblemCode
  regionName : String
  portName : String
  evidence : List String
deriving DecidableEq

structure RegionSchedule where
  regions : List RegionDecl
  regionNames : List String
deriving DecidableEq

inductive RegionGraphValidation where
  | ready (schedule : RegionSchedule)
  | rejected (problem : RegionGraphProblem)
deriving DecidableEq

/-! ### Sorting -/

def sortedStrings (values : List String) : List String := sortBy id values

def sortedRegions (regions : List RegionDecl) : List RegionDecl :=
  sortBy RegionDecl.regionName regions

def sortedInputs (inputs : List TypedInput) : List TypedInput := sortBy TypedInput.localPort inputs

def sortedOutputs (outputs : List TypedOutput) : List TypedOutput := sortBy TypedOutput.port outputs

/-- The port and the identity of the provider's output with a zero byte between them. -/
def resolvedInputKey (input : ResolvedInput) : String :=
  input.localPort ++ "\x00" ++ input.providerOutputId

def sortedResolvedInputs (inputs : List ResolvedInput) : List ResolvedInput :=
  sortBy resolvedInputKey inputs

/-! ### Checks -/

def regionForName (regions : List RegionDecl) (name : String) : Option RegionDecl :=
  regions.find? fun region => name == region.regionName

def outputForPort (outputs : List TypedOutput) (port : String) : Option TypedOutput :=
  outputs.find? fun output => port == output.port

/-- Of regions in order. -/
def firstDuplicateRegionName (regions : List RegionDecl) : Option String :=
  firstRepeat RegionDecl.regionName regions

def firstDuplicateInputPort (inputs : List TypedInput) : Option String :=
  firstRepeat TypedInput.localPort (sortedInputs inputs)

def firstDuplicateOutputPort (outputs : List TypedOutput) : Option String :=
  firstRepeat TypedOutput.port (sortedOutputs outputs)

def mainCount (regions : List RegionDecl) : Nat :=
  regions.foldl (fun total region => if "main" = region.regionName then total + 1 else total) 0

def portProblem (region : RegionDecl) : Option RegionGraphProblem :=
  match firstDuplicateInputPort region.inputs, firstDuplicateOutputPort region.outputs with
  | some inputPort, _ =>
    some ⟨.duplicateInputPort, region.regionName, inputPort, [region.regionName, inputPort]⟩
  | none, some outputPort =>
    some ⟨.duplicateOutputPort, region.regionName, outputPort, [region.regionName, outputPort]⟩
  | none, none => none

def duplicatePortProblem (regions : List RegionDecl) : Option RegionGraphProblem :=
  regions.findSome? portProblem

def inputReferenceProblem (region : RegionDecl) (input : TypedInput) (regions : List RegionDecl) :
    Option RegionGraphProblem :=
  match regionForName regions input.providerRegion with
  | none =>
    some ⟨.missingProviderRegion, region.regionName, input.localPort,
      [region.regionName, input.localPort, input.providerRegion]⟩
  | some provider =>
    match outputForPort provider.outputs input.providerPort with
    | none =>
      some ⟨.missingProviderOutput, region.regionName, input.localPort,
        [region.regionName, input.localPort, input.providerRegion, input.providerPort]⟩
    | some output =>
      if input.expectedTypeId ≠ output.typeId then
        some ⟨.providerTypeMismatch, region.regionName, input.localPort,
          [region.regionName, input.localPort, input.providerRegion, input.providerPort,
            input.expectedTypeId, output.typeId]⟩
      else none

def regionReferenceProblem (region : RegionDecl) (regions : List RegionDecl) :
    Option RegionGraphProblem :=
  (sortedInputs region.inputs).findSome? fun input => inputReferenceProblem region input regions

def referenceProblem (regions : List RegionDecl) : Option RegionGraphProblem :=
  regions.findSome? fun region => regionReferenceProblem region regions

/-! ### Scheduling -/

def regionReady (region : RegionDecl) (scheduledNames : List String) : Bool :=
  region.inputs.all fun input => scheduledNames.contains input.providerRegion

def firstReadyRegion (remaining : List RegionDecl) (scheduledNames : List String) :
    Option RegionDecl :=
  remaining.find? fun region => regionReady region scheduledNames

def removeRegion (regions : List RegionDecl) (name : String) : List RegionDecl :=
  regions.filter fun region => name != region.regionName

/-- The providers that still remain, each once. -/
def unresolvedProviders (region : RegionDecl) (remaining : List RegionDecl) : List String :=
  region.inputs.foldl (fun names input =>
      if (regionForName remaining input.providerRegion).isSome &&
          !names.contains input.providerRegion then
        names ++ [input.providerRegion]
      else names)
    []

def smallestUnresolvedProvider (region : RegionDecl) (remaining : List RegionDecl) :
    Option String :=
  (sortedStrings (unresolvedProviders region remaining)).head?

variable {name : String} {remaining : List RegionDecl}

theorem mem_unresolvedProviders {region : RegionDecl} :
    name ∈ unresolvedProviders region remaining ↔
      (∃ input ∈ region.inputs, input.providerRegion = name) ∧
        (regionForName remaining name).isSome = true := by
  have hfold : ∀ (inputs : List TypedInput) (names : List String), name ∈ inputs.foldl
        (fun names input =>
          if (regionForName remaining input.providerRegion).isSome &&
              !names.contains input.providerRegion then
            names ++ [input.providerRegion]
          else names) names ↔
        name ∈ names ∨ (∃ input ∈ inputs, input.providerRegion = name) ∧
          (regionForName remaining name).isSome = true := by
    intro inputs
    induction inputs with
    | nil =>
      intro names
      simp
    | cons input inputs ih =>
      intro names
      rw [List.foldl_cons, ih]
      simp only [List.mem_cons, exists_eq_or_imp]
      by_cases hname : input.providerRegion = name
      · subst hname
        by_cases hsome : (regionForName remaining input.providerRegion).isSome = true
        · by_cases hmem : input.providerRegion ∈ names
          · simp [hmem]
          · simp [hsome, hmem]
        · simp [hsome]
      · split
        · simp [hname, Ne.symm hname]
        · simp [hname]
  unfold unresolvedProviders
  rw [hfold]
  simp

theorem smallestUnresolvedProvider_mem {rg : RegionDecl}
    (h : smallestUnresolvedProvider rg remaining = some name) :
    name ∈ unresolvedProviders rg remaining :=
  mem_sortBy.mp (List.mem_of_mem_head? (Option.mem_def.mpr h))

theorem regionForName_isSome {rs : List RegionDecl} :
    (regionForName rs name).isSome = true ↔ name ∈ rs.map RegionDecl.regionName := by
  unfold regionForName
  rw [List.find?_isSome, List.mem_map]
  constructor
  · rintro ⟨rg, hreg, hn⟩
    exact ⟨rg, hreg, (beq_iff_eq.mp hn).symm⟩
  · rintro ⟨rg, hreg, hn⟩
    exact ⟨rg, hreg, beq_iff_eq.mpr hn.symm⟩

/-- The names from the first that comes again on; every name on the path is that of a
region. -/
def followCycle (remaining : List RegionDecl) (current : String) (path : List String) :
    List String :=
  match regionForName remaining current with
  | none => path
  | some region =>
    match _hnext : smallestUnresolvedProvider region remaining with
    | none => path
    | some nextName =>
      match _hseen : path.idxOf? nextName with
      | some seenAt => path.drop seenAt ++ [nextName]
      | none => followCycle remaining nextName (path ++ [nextName])
termination_by (remaining.filter fun region => !path.contains region.regionName).length
decreasing_by
  have hname := (mem_unresolvedProviders.mp (smallestUnresolvedProvider_mem _hnext)).2
  obtain ⟨provider, hprovider, hsame⟩ := List.mem_map.mp (regionForName_isSome.mp hname)
  have hunseen : nextName ∉ path := List.idxOf?_eq_none_iff.mp _hseen
  have hsub : (remaining.filter fun region => !(path ++ [nextName]).contains region.regionName) =
      (remaining.filter fun region => !path.contains region.regionName).filter
        fun region => region.regionName != nextName := by
    rw [List.filter_filter]
    refine List.filter_congr fun region _ => ?_
    simp [bne, Bool.and_comm, beq_eq_decide]
  rw [hsub]
  refine List.length_filter_lt_length_iff_exists.mpr ⟨provider, ?_, by simp [hsame]⟩
  rw [List.mem_filter]
  exact ⟨hprovider, by simp [hsame, hunseen]⟩

def deterministicCycleEvidence (remaining : List RegionDecl) : List String :=
  match remaining with
  | [] => []
  | first :: _ => followCycle remaining first.regionName [first.regionName]

/-- The loop: what remains, and what is scheduled with its names. -/
def scheduleFrom (remaining scheduled : List RegionDecl) (names : List String) :
    RegionGraphValidation :=
  if remaining.isEmpty then .ready ⟨scheduled, names⟩
  else
    match _hfirst : firstReadyRegion remaining names with
    | none => .rejected ⟨.cycle, "", "", deterministicCycleEvidence remaining⟩
    | some ready =>
      scheduleFrom (removeRegion remaining ready.regionName) (scheduled ++ [ready])
        (names ++ [ready.regionName])
termination_by remaining.length
decreasing_by
  refine List.length_filter_lt_length_iff_exists.mpr ⟨ready, ?_, by simp⟩
  exact List.mem_of_find?_eq_some _hfirst

def scheduleRegions (regions : List RegionDecl) : RegionGraphValidation := scheduleFrom regions [] []

def validateAndScheduleRegions (regions : List RegionDecl) : RegionGraphValidation :=
  let ordered := sortedRegions regions
  match firstDuplicateRegionName ordered with
  | some duplicate => .rejected ⟨.duplicateName, duplicate, "", [duplicate]⟩
  | none =>
    if mainCount ordered ≠ 1 then
      .rejected ⟨.mainCount, "main", "", [toString (mainCount ordered)]⟩
    else
      match duplicatePortProblem ordered with
      | some problem => .rejected problem
      | none =>
        match referenceProblem ordered with
        | some problem => .rejected problem
        | none => scheduleRegions ordered

section

open Beagle.Native (Sha256)

structure ReaderExecutionStoreQuery where
  readerArtifactId : String
  readerClosureId : String
  readerProtocolId : String
  payloadByteDigest : String
  immutableReaderResourcesId : String
  grantedCapabilitySetId : String
deriving DecidableEq

structure ExpandedStoreQuery where
  canonicalReaderIrId : String
  readerExecutionId : String
  expanderArtifactId : String
  expanderClosureId : String
  interfaceIds : List String
  resolvedInputs : List ResolvedInput
deriving DecidableEq

structure CheckedStoreQuery where
  expandedId : String
  checkerArtifactId : String
  checkerClosureId : String
  typeRuleId : String
  schemaId : String
  stdlibId : String
  inputInterfaceId : String
  outputInterfaceId : String
deriving DecidableEq

structure LoweredStoreQuery where
  checkedId : String
  lowererArtifactId : String
  lowererClosureId : String
  targetAbiId : String
  targetLayoutId : String
  deterministicOptionsId : String
  materializerId : String
  toolchainId : String
deriving DecidableEq

structure RegionStoreResult where
  regionId : String
  derivationId : String
  outputInterfaceId : String
  resolvedInputs : List ResolvedInput
deriving DecidableEq

def encodePart (value : String) : String := toString (Utf8.encode value).length ++ ":" ++ value

def encodeParts (parts : List String) : String :=
  parts.foldl (fun encoding part => encoding ++ encodePart part) ""

/-- The bytes of which an identity is the digest. -/
def contentBytes (domain : String) (parts : List String) : List UInt8 :=
  Utf8.encode (encodeParts (parts ++ [domain]))

def canonicalContentId (sha : Sha256) (domain : String) (parts : List String) : String :=
  "sha256:" ++ sha.bytes (contentBytes domain parts)

def inputSemanticEncoding (input : TypedInput) : String :=
  encodeParts [input.localPort, input.providerRegion, input.providerPort, input.expectedTypeId]

def outputSemanticEncoding (output : TypedOutput) : String :=
  encodeParts [output.port, output.typeId]

def inputInterfaceParts (region : RegionDecl) : List String :=
  (sortedInputs region.inputs).map inputSemanticEncoding

def inputInterfaceId (sha : Sha256) (region : RegionDecl) : String :=
  canonicalContentId sha "beagle.region-decl/input-interface/v1" (inputInterfaceParts region)

def outputInterfaceParts (region : RegionDecl) : List String :=
  (sortedOutputs region.outputs).map outputSemanticEncoding

def outputInterfaceId (sha : Sha256) (region : RegionDecl) : String :=
  canonicalContentId sha "beagle.region-decl/output-interface/v1" (outputInterfaceParts region)

def regionParts (region : RegionDecl) : List String :=
  [region.moduleId, region.regionName, region.capsuleId]

def regionId (sha : Sha256) (region : RegionDecl) : String :=
  canonicalContentId sha "beagle.region-decl/region/v1" (regionParts region)

def providerOutputParts (sha : Sha256) (provider : RegionDecl) (output : TypedOutput) :
    List String :=
  [regionId sha provider, output.port, output.typeId]

def providerOutputId (sha : Sha256) (provider : RegionDecl) (output : TypedOutput) : String :=
  canonicalContentId sha "beagle.region-decl/provider-output/v1"
    (providerOutputParts sha provider output)

def resolveInput (sha : Sha256) (regions : List RegionDecl) (input : TypedInput) :
    Option ResolvedInput :=
  match regionForName regions input.providerRegion with
  | none => none
  | some provider =>
    match outputForPort provider.outputs input.providerPort with
    | none => none
    | some output => some ⟨input.localPort, providerOutputId sha provider output, output.typeId⟩

def resolveRegionInputs (sha : Sha256) (region : RegionDecl) (regions : List RegionDecl) :
    List ResolvedInput :=
  sortedResolvedInputs (region.inputs.filterMap (resolveInput sha regions))

def resolvedInputEncoding (input : ResolvedInput) : String :=
  encodeParts [input.localPort, input.providerOutputId, input.checkedTypeId]

def resolvedInputEncodings (inputs : List ResolvedInput) : List String :=
  (sortedResolvedInputs inputs).map resolvedInputEncoding

def readerExecutionParts (query : ReaderExecutionStoreQuery) : List String :=
  [query.readerArtifactId, query.readerClosureId, query.readerProtocolId, query.payloadByteDigest,
    query.immutableReaderResourcesId, query.grantedCapabilitySetId]

def readerExecutionId (sha : Sha256) (query : ReaderExecutionStoreQuery) : String :=
  canonicalContentId sha "beagle.region-decl/reader-execution/v1" (readerExecutionParts query)

def expandedParts (query : ExpandedStoreQuery) : List String :=
  [query.canonicalReaderIrId, query.readerExecutionId, query.expanderArtifactId,
    query.expanderClosureId, encodeParts (sortedStrings query.interfaceIds),
    encodeParts (resolvedInputEncodings query.resolvedInputs)]

def expandedId (sha : Sha256) (query : ExpandedStoreQuery) : String :=
  canonicalContentId sha "beagle.region-decl/expanded/v1" (expandedParts query)

def checkedParts (query : CheckedStoreQuery) : List String :=
  [query.expandedId, query.checkerArtifactId, query.checkerClosureId, query.typeRuleId,
    query.schemaId, query.stdlibId, query.inputInterfaceId, query.outputInterfaceId]

def checkedId (sha : Sha256) (query : CheckedStoreQuery) : String :=
  canonicalContentId sha "beagle.region-decl/checked/v1" (checkedParts query)

def loweredParts (query : LoweredStoreQuery) : List String :=
  [query.checkedId, query.lowererArtifactId, query.lowererClosureId, query.targetAbiId,
    query.targetLayoutId, query.deterministicOptionsId, query.materializerId, query.toolchainId]

def loweredId (sha : Sha256) (query : LoweredStoreQuery) : String :=
  canonicalContentId sha "beagle.region-decl/lowered/v1" (loweredParts query)

def outputParts (result : RegionStoreResult) : List String :=
  [result.regionId, result.derivationId, result.outputInterfaceId,
    encodeParts (resolvedInputEncodings result.resolvedInputs)]

def outputId (sha : Sha256) (result : RegionStoreResult) : String :=
  canonicalContentId sha "beagle.region-decl/output/v1" (outputParts result)

/-- The identities, kind by kind, with what each is built from. -/
inductive StoreKey where
  | inputInterface (region : RegionDecl)
  | outputInterface (region : RegionDecl)
  | region (region : RegionDecl)
  | providerOutput (provider : RegionDecl) (output : TypedOutput)
  | readerExecution (query : ReaderExecutionStoreQuery)
  | expanded (query : ExpandedStoreQuery)
  | checked (query : CheckedStoreQuery)
  | lowered (query : LoweredStoreQuery)
  | output (result : RegionStoreResult)

def StoreKey.id (sha : Sha256) : StoreKey → String
  | .inputInterface decl => inputInterfaceId sha decl
  | .outputInterface decl => outputInterfaceId sha decl
  | .region decl => regionId sha decl
  | .providerOutput provider port => providerOutputId sha provider port
  | .readerExecution query => readerExecutionId sha query
  | .expanded query => expandedId sha query
  | .checked query => checkedId sha query
  | .lowered query => loweredId sha query
  | .output result => outputId sha result

end

end Beagle.Regions
