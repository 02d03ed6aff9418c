/-
The compiler driver at the Store.

A program is admitted, its query is looked up, and a cold answer leads to an artifact whose
result is appended before it is linked; a warm one is checked and its artifact linked.  The
Store and the linker are asked and may answer as they like.
-/
import Beagle.Lib.Computations
import Beagle.Native.ArtifactLinker
import Beagle.Native.FactProfile
import Beagle.Native.FrontendFacts
import Beagle.Store.Types

namespace Beagle.CompilerDriver

open Beagle.Native (Sha256)
open Beagle.Lib
open Beagle.Lib (Utf8.encode)
open Beagle.FactProfile
open Beagle.FrontendFacts
open Beagle.ArtifactLinker (TargetArtifact encodeArtifactEnvelope Failure)

structure CompileBundleRequest where
  storeLog : String
  spaceId : String
  compilerContext : String
  profile : String
  targets : List String
  ruleSetId : String
  schemaContentId : String
  sourcePaths : List String
  syntaxClosure : SyntaxFactClosure

structure CompileQuery where
  admitted : AdmittedQueryClosure
  request : CompileBundleRequest

inductive CompileQueryAdmissionResult where
  | ready (query : CompileQuery)
  | rejected (code detail : String)

inductive CompileBundleResult where
  | warm (contentId artifactId executablePath : String)
  | materialized (contentId artifactId executablePath : String)
  | error (code : Int) (detail : String)
deriving DecidableEq

/-- A value of any type; only atoms and triples are told apart. -/
inductive AnyValue where
  | atom (value : Store.AtomValue)
  | triple (t1 t2 t3 : AnyValue)
  | other

/-- `term?`. -/
def AnyValue.term : AnyValue → Bool
  | .atom _ => true
  | .triple t1 t2 t3 => t1.term && (t2.term && t3.term)
  | .other => false

/-- The plan of a program; its profile is a keyword, by its name. -/
structure ProgramAdmissionPlan where
  storeLog : String
  spaceId : String
  compilerContext : String
  closureDigest : String
  profile : String
  initialRootCandidate : Store.Term
  propositions : List Store.Triple

inductive CompileStoreRequest where
  | admitProgram (plan : ProgramAdmissionPlan)
  | lookup (storeLog spaceId : String) (query : AdmittedQueryClosure)
  | append (storeLog spaceId : String) (result : AdmittedResultClosure) (artifact : TargetArtifact)

inductive CompileStoreResponse where
  | cold
  | warm (result : AdmittedResultClosure) (artifact : TargetArtifact)
  | warmRejected (result : AdmittedResultClosure) (detail : String)
  | programAdmitted (rootResource : AnyValue) (rootVersion : Int)
  | persisted
  | failure (code : Int) (detail : String)

structure ArtifactLinkConfig where
  artifactDirectory : String
  executablePath : String
  cCompiler : String
  qbeCompiler : String

inductive ArtifactLinkResult where
  | linked (executablePath : String)
  | error (code : Int) (detail : String)

/-! ### What the driver asks -/

/-- A request to the Store, or to write the files of an artifact and link them. -/
inductive Question where
  | store (request : CompileStoreRequest)
  | writeAndLink (config : ArtifactLinkConfig) (artifact : TargetArtifact)

def Answer : Question → Type
  | .store _ => CompileStoreResponse
  | .writeAndLink _ _ => ArtifactLinkResult

abbrev Driver := Asking Question Answer

/-- Hand a request to the Store. -/
def askStore (request : CompileStoreRequest) : Driver CompileStoreResponse :=
  .ask (.store request) .done

def writeAndLink (config : ArtifactLinkConfig) (artifact : TargetArtifact) :
    Driver ArtifactLinkResult :=
  .ask (.writeAndLink config artifact) .done

section

variable (sha : Sha256)

def materializerCapabilityDescriptor : String :=
  "beagle-native-seed-capability-v1|materializer"

def materializerCapabilityContentId : String :=
  "sha256:" ++ sha.bytes (Utf8.encode materializerCapabilityDescriptor)

def compileQuery (request : CompileBundleRequest) : CompileQueryAdmissionResult :=
  match admitAndIdentifyQuery sha
      { sourceClosureDigest := request.syntaxClosure.closureDigest
        compilerContext := request.compilerContext
        profile := request.profile
        targets := request.targets
        rulesContentId := request.ruleSetId
        schemaContentId := request.schemaContentId } with
  | .rejected code detail => .rejected code detail
  | .admitted admitted => .ready ⟨admitted, request⟩

def compileQueryId (query : CompileQuery) : String := query.admitted.queryDigest

/-- The detail of an error; making an envelope never raises. -/
def failureDetail : Failure → String
  | .error detail => detail
  | .raised => ""

def linkQueryArtifact (query : CompileQuery) (config : ArtifactLinkConfig)
    (artifact : TargetArtifact) : Driver CompileBundleResult :=
  match encodeArtifactEnvelope sha.bytes artifact with
  | .error failure => .done (.error 65 (failureDetail failure))
  | .ok envelope =>
    (writeAndLink config artifact).andThen fun
      | .linked executablePath =>
        .done (.materialized (compileQueryId query) envelope.contentId executablePath)
      | .error code detail => .done (.error code detail)

def linkWarmQueryArtifact (query : CompileQuery) (config : ArtifactLinkConfig)
    (artifact : TargetArtifact) : Driver CompileBundleResult :=
  (linkQueryArtifact sha query config artifact).andThen fun
    | .error code detail => .done (.error code detail)
    | .warm contentId artifactId executablePath =>
      .done (.warm contentId artifactId executablePath)
    | .materialized contentId artifactId executablePath =>
      .done (.warm contentId artifactId executablePath)

def warmResultValid (query : CompileQuery) (result : AdmittedResultClosure)
    (artifact : TargetArtifact) : Bool :=
  match admitCanonicalResult sha result with
  | .rejected _ _ => false
  | .admitted admitted =>
    match encodeArtifactEnvelope sha.bytes artifact with
    | .error _ => false
    | .ok envelope =>
      "ok" == admitted.status &&
        compileQueryId query == admitted.query.queryDigest &&
        artifact.target == admitted.target &&
        some envelope.contentId == admitted.artifactContentId

def appendQueryArtifact (query : CompileQuery) (result : AdmittedResultClosure)
    (artifact : TargetArtifact) (config : ArtifactLinkConfig) : Driver CompileBundleResult :=
  (askStore (.append query.request.storeLog query.request.spaceId result artifact)).andThen fun
    | .persisted => linkQueryArtifact sha query config artifact
    | .failure code detail => .done (.error code detail)
    | .cold => .done (.error 74 "Store did not acknowledge the compile result append")
    | .warm _ _ => .done (.error 74 "Store returned a warm result during append")
    | .warmRejected _ _ => .done (.error 74 "Store returned a rejection during result append")
    | .programAdmitted _ _ =>
      .done (.error 74 "Store returned a program admission during result append")

def compileAdmittedArtifact (query : CompileQuery) (artifact : TargetArtifact)
    (config : ArtifactLinkConfig) : Driver CompileBundleResult :=
  match encodeArtifactEnvelope sha.bytes artifact with
  | .error failure => .done (.error 65 (failureDetail failure))
  | .ok envelope =>
    match admitAndIdentifyResult sha
        { query := query.admitted
          target := artifact.target
          materializerContentId := materializerCapabilityContentId sha
          status := "ok"
          artifactContentId := some envelope.contentId
          diagnosticContentId := none } with
    | .rejected _ detail => .done (.error 65 detail)
    | .admitted result => appendQueryArtifact sha query result artifact config

/-- A program whose facts are checked, and what is made of it: an artifact for a query and a
target, and whether the query's rules reach their fixed point with it. -/
structure Stages (Checked : Type) where
  materialize : (queryId target : String) → Checked → (entryNamespace entryDefinition : String) →
    Except (Int × String) TargetArtifact
  evaluateMaterializedQuery : CompileQuery → TargetArtifact → Except (Int × String) Unit

variable {Checked : Type} (stages : Stages Checked)

def materializeQuery (query : CompileQuery) (checked : Checked)
    (entryNamespace entryDefinition : String) : Except (Int × String) TargetArtifact :=
  match query.request.targets with
  | [target] =>
    stages.materialize (compileQueryId query) target checked entryNamespace entryDefinition
  | _ => .error (64, "native compile requires exactly one materialization target")

def compileColdQuery (query : CompileQuery) (checked : Checked)
    (entryNamespace entryDefinition : String) (config : ArtifactLinkConfig) :
    Driver CompileBundleResult :=
  match materializeQuery stages query checked entryNamespace entryDefinition with
  | .error (code, detail) => .done (.error code detail)
  | .ok artifact =>
    match stages.evaluateMaterializedQuery query artifact with
    | .error (code, detail) => .done (.error code detail)
    | .ok _ => compileAdmittedArtifact sha query artifact config

def lookupAdmittedProgram (plan : ProgramAdmissionPlan) (query : CompileQuery) :
    Driver CompileStoreResponse :=
  (askStore (.admitProgram plan)).andThen fun
    | .failure code detail => .done (.failure code detail)
    | .programAdmitted rootResource rootVersion =>
      if rootResource.term = true ∧ rootVersion ≥ 0 then
        askStore (.lookup plan.storeLog plan.spaceId query.admitted)
      else
        .done (.failure 74 "Store returned an invalid ProgramRoot or a negative version")
    | .cold => .done (.failure 74 "Store omitted ProgramRoot admission before compile lookup")
    | .warm _ _ =>
      .done (.failure 74 "Store returned a warm compile result during ProgramRoot admission")
    | .warmRejected _ _ =>
      .done (.failure 74 "Store returned a compile rejection during ProgramRoot admission")
    | .persisted =>
      .done (.failure 74 "Store returned a persistence receipt during ProgramRoot admission")

def compileStoredQuery (query : CompileQuery) (checked : Checked)
    (entryNamespace entryDefinition : String) (config : ArtifactLinkConfig)
    (programPlan : ProgramAdmissionPlan) : Driver CompileBundleResult :=
  (lookupAdmittedProgram programPlan query).andThen fun
    | .failure code detail => .done (.error code detail)
    | .warm result artifact =>
      if warmResultValid sha query result artifact then
        linkWarmQueryArtifact sha query config artifact
      else .done (.error 65 "Store returned a noncanonical warm result")
    | .warmRejected result detail =>
      match admitCanonicalResult sha result with
      | .rejected _ invalidDetail => .done (.error 65 invalidDetail)
      | .admitted admitted =>
        if "rejected" = admitted.status then .done (.error 65 detail)
        else .done (.error 65 "Store returned a non-rejected result as a rejection")
    | .cold =>
      compileColdQuery sha stages query checked entryNamespace entryDefinition config
    | .persisted => .done (.error 74 "Store returned an append acknowledgment during lookup")
    | .programAdmitted _ _ =>
      .done (.error 74 "Store returned a second ProgramRoot admission during lookup")

end

end Beagle.CompilerDriver
