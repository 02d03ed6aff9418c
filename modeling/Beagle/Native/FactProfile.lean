/-
Compile queries and their results, admitted and identified.

An admitted closure is its request with its targets in order, the digest of its dimensions,
and facts that name each of them once.  A closure that comes from elsewhere is admitted when
its own dimensions, taken as a request, lead to the same digest, targets and facts.
-/
import Beagle.Lib.KeySort
import Beagle.Native.Text

namespace Beagle.FactProfile

open Beagle.Native (Sha256)
open Beagle.Lib (Utf8.encode)
open Beagle.Lib.KeySort

/-- A fact; its relation is a keyword, by its name. -/
structure CompileQueryFact where
  order : Int
  relation : String
  subject : String
  slot : Int
  value : String
deriving DecidableEq

structure QueryAdmissionRequest where
  sourceClosureDigest : String
  compilerContext : String
  profile : String
  targets : List String
  rulesContentId : String
  schemaContentId : String
deriving DecidableEq

structure AdmittedQueryClosure where
  queryDigest : String
  sourceClosureDigest : String
  compilerContext : String
  profile : String
  targets : List String
  rulesContentId : String
  schemaContentId : String
  facts : List CompileQueryFact
deriving DecidableEq

inductive QueryAdmission where
  | admitted (closure : AdmittedQueryClosure)
  | rejected (code detail : String)
deriving DecidableEq

/-- `sha256:` and 64 digits of lower case. -/
def contentId (value : String) : Bool :=
  value.toList.length == 71 && value.toList.take 7 == "sha256:".toList &&
    (value.toList.drop 7).all fun c => "0123456789abcdef".toList.contains c

def supportedProfile (profile : String) : Bool := profile == "lp64" || profile == "wasm32"

def queryPart (value : String) : String := toString (Utf8.encode value).length ++ ":" ++ value

def targetsEncoding (targets : List String) : String :=
  targets.foldl (fun encoding target => encoding ++ queryPart target) ""

def queryEncoding (request : QueryAdmissionRequest) (targets : List String) : String :=
  queryPart "compile" ++ queryPart request.sourceClosureDigest ++
    queryPart request.compilerContext ++ queryPart request.profile ++
    queryPart (targetsEncoding targets) ++ queryPart request.rulesContentId ++
    queryPart request.schemaContentId

def queryDigest (sha : Sha256) (request : QueryAdmissionRequest) (targets : List String) : String :=
  "sha256:" ++ sha.bytes (Utf8.encode (queryEncoding request targets))

def sortedUniqueTargets (targets : List String) : List String := sortBy id targets

/-- No target is empty, and none was seen before. -/
def unseenTargets (seen : List String) : List String → Bool
  | [] => true
  | target :: rest =>
    if target = "" ∨ target ∈ seen then false else unseenTargets (seen ++ [target]) rest

def validTargets (targets : List String) : Bool :=
  unseenTargets [] targets && targets.length != 0

def canonicalQueryFacts (digest : String) (request : QueryAdmissionRequest)
    (targets : List String) : List CompileQueryFact :=
  [⟨0, "query/kind", digest, 0, "compile"⟩,
    ⟨1, "query/source", digest, 0, request.sourceClosureDigest⟩,
    ⟨2, "query/compiler", digest, 0, request.compilerContext⟩,
    ⟨3, "query/profile", digest, 0, request.profile⟩] ++
  targets.mapIdx (fun position target => ⟨4 + position, "query/target", digest, 0, target⟩) ++
  [⟨4 + targets.length, "query/rules", digest, 0, request.rulesContentId⟩,
    ⟨5 + targets.length, "query/schema", digest, 0, request.schemaContentId⟩]

def admitAndIdentifyQuery (sha : Sha256) (request : QueryAdmissionRequest) : QueryAdmission :=
  if !contentId request.sourceClosureDigest then
    .rejected "query/invalid-source" "source closure digest must be a lower-case sha256 content ID"
  else if !contentId request.compilerContext then
    .rejected "query/invalid-compiler" "compiler context must be a lower-case sha256 content ID"
  else if !contentId request.rulesContentId then
    .rejected "query/invalid-rules" "rules content ID must be a lower-case sha256 content ID"
  else if !contentId request.schemaContentId then
    .rejected "query/invalid-schema" "schema content ID must be a lower-case sha256 content ID"
  else if !supportedProfile request.profile then
    .rejected "query/unknown-profile" "profile must be lp64 or wasm32"
  else if !validTargets request.targets then
    .rejected "query/invalid-targets"
      "targets must be non-empty, non-empty strings with no duplicates"
  else
    let ordered := sortedUniqueTargets request.targets
    let digest := queryDigest sha request ordered
    .admitted
      { queryDigest := digest
        sourceClosureDigest := request.sourceClosureDigest
        compilerContext := request.compilerContext
        profile := request.profile
        targets := ordered
        rulesContentId := request.rulesContentId
        schemaContentId := request.schemaContentId
        facts := canonicalQueryFacts digest request ordered }

/-- The dimensions of a closure, as a request. -/
def AdmittedQueryClosure.request (closure : AdmittedQueryClosure) : QueryAdmissionRequest where
  sourceClosureDigest := closure.sourceClosureDigest
  compilerContext := closure.compilerContext
  profile := closure.profile
  targets := closure.targets
  rulesContentId := closure.rulesContentId
  schemaContentId := closure.schemaContentId

def admitCanonicalQuery (sha : Sha256) (closure : AdmittedQueryClosure) : QueryAdmission :=
  match admitAndIdentifyQuery sha closure.request with
  | .rejected code detail => .rejected code detail
  | .admitted admitted =>
    if closure.queryDigest = admitted.queryDigest ∧ closure.targets = admitted.targets ∧
        closure.facts = admitted.facts then
      .admitted admitted
    else
      .rejected "query/canonical-mismatch"
        "canonical query closure does not match its admitted dimensions"

/-! ### Results -/

structure ResultAdmissionRequest where
  query : AdmittedQueryClosure
  target : String
  materializerContentId : String
  status : String
  artifactContentId : Option String
  diagnosticContentId : Option String
deriving DecidableEq

structure AdmittedResultClosure where
  resultDigest : String
  query : AdmittedQueryClosure
  target : String
  materializerContentId : String
  status : String
  artifactContentId : Option String
  diagnosticContentId : Option String
  facts : List CompileQueryFact
deriving DecidableEq

inductive ResultAdmission where
  | admitted (closure : AdmittedResultClosure)
  | rejected (code detail : String)
deriving DecidableEq

def resultEncoding (request : ResultAdmissionRequest) : String :=
  queryPart "result" ++ queryPart request.query.queryDigest ++ queryPart request.target ++
    queryPart request.materializerContentId ++ queryPart request.status ++
    queryPart (request.artifactContentId.getD "") ++
    queryPart (request.diagnosticContentId.getD "")

def resultDigest (sha : Sha256) (request : ResultAdmissionRequest) : String :=
  "sha256:" ++ sha.bytes (Utf8.encode (resultEncoding request))

def canonicalResultFacts (digest : String) (request : ResultAdmissionRequest) :
    List CompileQueryFact :=
  [⟨0, "result/query", digest, 0, request.query.queryDigest⟩,
    ⟨1, "result/target", digest, 0, request.target⟩,
    ⟨2, "result/materializer", digest, 0, request.materializerContentId⟩,
    ⟨3, "result/status", digest, 0, request.status⟩] ++
  if request.status = "ok" then
    [⟨4, "result/artifact", digest, 0, request.artifactContentId.getD ""⟩]
  else [⟨4, "result/diagnostic", digest, 0, request.diagnosticContentId.getD ""⟩]

/-- One identity is there and fit, and the other is not there. -/
def exactlyOne (present absent : Option String) : Bool :=
  absent.isNone && match present with
    | none => false
    | some value => contentId value

def admitAndIdentifyResult (sha : Sha256) (request : ResultAdmissionRequest) : ResultAdmission :=
  match admitCanonicalQuery sha request.query with
  | .rejected code detail => .rejected code detail
  | .admitted query =>
    if request.target ∉ query.targets then
      .rejected "result/unknown-target" "result target is not admitted by its query"
    else if !contentId request.materializerContentId then
      .rejected "result/invalid-materializer"
        "materializer must be a lower-case sha256 content ID"
    else if ¬ (request.status = "ok" ∨ request.status = "rejected") then
      .rejected "result/invalid-status" "result status must be ok or rejected"
    else if request.status = "ok" ∧
        exactlyOne request.artifactContentId request.diagnosticContentId = false then
      .rejected "result/invalid-artifact" "ok results require exactly one artifact content ID"
    else if request.status = "rejected" ∧
        exactlyOne request.diagnosticContentId request.artifactContentId = false then
      .rejected "result/invalid-diagnostic"
        "rejected results require exactly one diagnostic content ID"
    else
      let normalized := { request with query }
      let digest := resultDigest sha normalized
      .admitted
        { resultDigest := digest
          query
          target := normalized.target
          materializerContentId := normalized.materializerContentId
          status := request.status
          artifactContentId := request.artifactContentId
          diagnosticContentId := request.diagnosticContentId
          facts := canonicalResultFacts digest normalized }

def AdmittedResultClosure.request (closure : AdmittedResultClosure) : ResultAdmissionRequest where
  query := closure.query
  target := closure.target
  materializerContentId := closure.materializerContentId
  status := closure.status
  artifactContentId := closure.artifactContentId
  diagnosticContentId := closure.diagnosticContentId

def admitCanonicalResult (sha : Sha256) (closure : AdmittedResultClosure) : ResultAdmission :=
  match admitAndIdentifyResult sha closure.request with
  | .rejected code detail => .rejected code detail
  | .admitted admitted =>
    if closure.resultDigest = admitted.resultDigest ∧ closure.facts = admitted.facts then
      .admitted admitted
    else
      .rejected "result/canonical-mismatch"
        "canonical result closure does not match its admitted dimensions"

end Beagle.FactProfile
