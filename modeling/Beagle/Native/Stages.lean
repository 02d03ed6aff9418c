/-
Stages of the native compiler and their texts.

A stage is a graph of terms, which name each other by identity, with what the stage adds to it.
Its text is a record of records and of sets, and its digest is the digest of its text.
-/
import Beagle.Lib.Records
import Beagle.Native.Core

namespace Beagle.Stages

open Beagle.Native (Sha256)
open Beagle.NativeCore
open Beagle.Lib (Utf8.encode)
open Beagle.Lib.Records (record set)

inductive Term where
  | nil (token : Bool)
  | bool (value : Bool)
  | i64 (value : Int)
  | f64 (canonicalValue : String)
  | text (value : String)
  | ref (target : NativeId)
  | triple (subject predicate object : NativeId)
deriving DecidableEq

structure TermNode where
  identity : NativeId
  term : Term
deriving DecidableEq

structure TermGraph where
  root : NativeId
  nodes : List TermNode

structure SourceLocation where
  moduleId : NativeId
  relativePath : String
  line : Int
  column : Int
deriving DecidableEq

structure SourceModule where
  id : NativeId
  name : String
  relativePath : String
  sourceDigest : String
  projectionDigest : String
  interfaceDigest : String
  rootTerm : NativeId
deriving DecidableEq

structure SourceUnit where
  id : NativeId
  moduleId : NativeId
  kind : String
  name : String
  semanticDigest : String
  rootTerm : NativeId
  readSet : List NativeId

structure SourceStage where
  terms : TermGraph
  modules : List SourceModule
  units : List SourceUnit
  imports : List NativeId
  locations : List SourceLocation

structure TypedStage where
  terms : TermGraph
  sourceDigest : String
  typeRoots : List NativeId
  functionRoots : List NativeId
  effectRoots : List NativeId
  regionRoots : List NativeId
  capabilityTokenRoots : List NativeId
  refinementRoots : List NativeId

inductive RegionKind where
  | stack (token : Bool)
  | arena (token : Bool)
  | external

structure RegionDef where
  id : NativeId
  kind : RegionKind
  parent : Option NativeId

/-- `Fri2Observation`, the one kind there is. -/
structure ExternalObservation where
  artifactId : NativeId
  digest : String
  byteCount : Int

/-- A program of the core, with what its text shows. -/
structure NativeCoreProgram where
  id : NativeId
  parent : Option NativeId
  compilerPass : String
  regions : List RegionDef
  allowedEffects : List NativeId
  allowedRegions : List NativeId
  allowedCapabilities : List NativeId
  observations : List ExternalObservation

structure NativeStage where
  terms : TermGraph
  typedDigest : String
  program : NativeCoreProgram
  obligationRoots : List NativeId

/-! ### Texts -/

def encodeBool (value : Bool) : String := if value then "1" else "0"

def encodeId (id : NativeId) : String := record "id" [id.value]

def encodeInt (value : Int) : String := record "int" [toString value]

def encodeString (value : String) : String := record "string" [value]

def encodeOptionalId : Option NativeId → String
  | none => record "none" []
  | some id => record "some" [encodeId id]

def encodeIds (tag : String) (ids : List NativeId) : String := set tag (ids.map encodeId)

def encodeTerm : Term → String
  | .nil token => record "term-nil-v0" [encodeBool token]
  | .bool value => record "term-bool-v0" [encodeBool value]
  | .i64 value => record "term-i64-v0" [encodeInt value]
  | .f64 canonicalValue => record "term-f64-v0" [canonicalValue]
  | .text value => record "term-text-v0" [value]
  | .ref target => record "term-ref-v0" [encodeId target]
  | .triple subject predicate object =>
    record "term-triple-v0" [encodeId subject, encodeId predicate, encodeId object]

def encodeTermNode (node : TermNode) : String :=
  record "term-node-v0" [encodeId node.identity, encodeTerm node.term]

def encodeTermGraph (graph : TermGraph) : String :=
  record "term-graph-v0" [encodeId graph.root, set "nodes" (graph.nodes.map encodeTermNode)]

def encodeSourceLocation (location : SourceLocation) : String :=
  record "source-location-v0"
    [encodeId location.moduleId, encodeString location.relativePath, encodeInt location.line,
      encodeInt location.column]

def encodeSourceModule (module : SourceModule) : String :=
  record "source-module-v1"
    [encodeId module.id, encodeString module.name, encodeString module.relativePath,
      encodeString module.sourceDigest, encodeString module.projectionDigest,
      encodeString module.interfaceDigest, encodeId module.rootTerm]

def encodeSourceUnit (unit : SourceUnit) : String :=
  record "source-unit-v0"
    [encodeId unit.id, encodeId unit.moduleId, encodeString unit.kind, encodeString unit.name,
      encodeString unit.semanticDigest, encodeId unit.rootTerm,
      encodeIds "read-set" unit.readSet]

def encodeSourceStage (stage : SourceStage) : String :=
  record "source-stage-v1" [encodeTermGraph stage.terms,
      set "modules" (stage.modules.map encodeSourceModule),
      set "units" (stage.units.map encodeSourceUnit),
      encodeIds "imports" stage.imports,
      set "locations" (stage.locations.map encodeSourceLocation)]

def encodeTypedStage (stage : TypedStage) : String :=
  record "typed-stage-v0" [encodeTermGraph stage.terms, encodeString stage.sourceDigest,
      encodeIds "type-roots" stage.typeRoots,
      encodeIds "function-roots" stage.functionRoots,
      encodeIds "effect-roots" stage.effectRoots,
      encodeIds "region-roots" stage.regionRoots,
      encodeIds "capability-token-roots" stage.capabilityTokenRoots,
      encodeIds "refinement-roots" stage.refinementRoots]

def encodeRegionKind : RegionKind → String
  | .stack token => record "region-stack-v0" [encodeBool token]
  | .arena token => record "region-arena-v0" [encodeBool token]
  | .external => record "region-external-v0" []

def encodeRegion (region : RegionDef) : String :=
  record "region-def-v0"
    [encodeId region.id, encodeRegionKind region.kind, encodeOptionalId region.parent]

def encodeObservation (observation : ExternalObservation) : String :=
  record "observation-fri2-v0" [encodeId observation.artifactId, encodeString observation.digest,
      encodeInt observation.byteCount]

def encodeNativeCoreProgram (program : NativeCoreProgram) : String :=
  record "native-core-program-v0" [encodeId program.id, encodeOptionalId program.parent,
      encodeString program.compilerPass,
      encodeIds "allowed-effects" program.allowedEffects,
      encodeIds "allowed-regions" program.allowedRegions,
      encodeIds "allowed-capabilities" program.allowedCapabilities,
      set "regions" (program.regions.map encodeRegion),
      set "observations" (program.observations.map encodeObservation)]

def encodeNativeStage (stage : NativeStage) : String :=
  record "native-stage-v0" [encodeTermGraph stage.terms, encodeString stage.typedDigest,
      encodeNativeCoreProgram stage.program,
      encodeIds "obligation-roots" stage.obligationRoots]

def contentDigest (sha : Sha256) (encoding : String) : String :=
  "sha256:" ++ sha.bytes (Utf8.encode encoding)

end Beagle.Stages
