/-
Products of custom readers.

A reader is asked to read a slice of a source.  It answers with events, their canonical bytes,
and a map that says for every event where in the slice and where in the bytes it stands.  A
product is accepted only when it could not have been made for another request.  A sum that is
no word, and a decoding of bytes that are no UTF-8, stop the program: the answer is `none`.
-/
import Beagle.Native.Text

namespace Beagle.ReaderProtocol

open Beagle.Native (Sha256 Long Long.ofInt?)
open Beagle.Lib (Utf8.encode Utf8.decode)

/-! ### Identities -/

@[ext] structure SemanticIdentity where
  contentId : String
deriving DecidableEq

/-- The role is a keyword, by its name. -/
@[ext] structure ComponentIdentity where
  identity : SemanticIdentity
  role : String
  artifactContentId : String
  dependencyClosureId : String
deriving DecidableEq

@[ext] structure ProtocolIdentity where
  identity : SemanticIdentity
  role : String
  protocolContentId : String
  abiContentId : String
deriving DecidableEq

/-- `str` of a keyword. -/
def keywordText (keyword : String) : String := ":" ++ keyword

def canonicalPart (value : String) : String := toString (Utf8.encode value).length ++ ":" ++ value

def canonicalParts (encoded : String) (parts : List String) : String :=
  parts.foldl (fun encoded part => encoded ++ canonicalPart part) encoded

/-- The text whose digest a semantic identity is. -/
def semanticEncoding (domain : String) (parts : List String) : String :=
  canonicalParts ("beagle-domain-separated-identity/v1" ++ canonicalPart domain) parts

def semanticIdentity (sha : Sha256) (domain : String) (parts : List String) : SemanticIdentity :=
  ⟨"sha256:" ++ sha.bytes (Utf8.encode (semanticEncoding domain parts))⟩

def componentIdentity (sha : Sha256) (role artifactContentId dependencyClosureId : String) :
    ComponentIdentity where
  identity := semanticIdentity sha "beagle/language-capsule/component/v1"
    [keywordText role, artifactContentId, dependencyClosureId]
  role
  artifactContentId
  dependencyClosureId

def protocolIdentity (sha : Sha256) (role protocolContentId abiContentId : String) :
    ProtocolIdentity where
  identity := semanticIdentity sha "beagle/language-capsule/protocol/v1"
    [keywordText role, protocolContentId, abiContentId]
  role
  protocolContentId
  abiContentId

/-! ### Requests and products -/

structure ReaderByteSpan where
  startByte : Int
  endByte : Int
deriving DecidableEq

structure SourceSlice where
  payload : String
  payloadContentId : String
  startByte : Int
  endByte : Int
  provenanceReceiptIdentity : SemanticIdentity
  bounded : Bool
deriving DecidableEq

structure ReaderRequest where
  sourceSlice : SourceSlice
  capsuleIdentity : SemanticIdentity
  readerComponent : ComponentIdentity
  readerProtocol : ProtocolIdentity
deriving DecidableEq

structure ReaderIrEvent where
  kind : String
  value : String
  literal : String
  depth : Int
deriving DecidableEq

structure ReaderDiagnostic where
  code : String
  severity : String
  message : String
  originalOrigin : ReaderByteSpan
deriving DecidableEq

structure ReaderSourceMapEntry where
  eventIndex : Int
  originalOrigin : ReaderByteSpan
  generatedOrigin : ReaderByteSpan
deriving DecidableEq

structure ReaderProductCandidate where
  canonicalIrId : SemanticIdentity
  canonicalIrBytes : List Int
  canonicalIrEvents : List ReaderIrEvent
  provenanceMapId : SemanticIdentity
  sourceMap : List ReaderSourceMapEntry
  diagnostics : List ReaderDiagnostic
deriving DecidableEq

structure ReaderProduct where
  canonicalIrId : SemanticIdentity
  canonicalIrBytes : List Int
  canonicalIrEvents : List ReaderIrEvent
  provenanceMapId : SemanticIdentity
  sourceMap : List ReaderSourceMapEntry
  diagnostics : List ReaderDiagnostic
deriving DecidableEq

inductive ReaderAcceptance where
  | accepted (product : ReaderProduct)
  | rejected (diagnostics : List ReaderDiagnostic)
deriving DecidableEq

/-! ### Encodings -/

/-- `utf8-encode`: the bytes as integers. -/
def utf8Encode (text : String) : List Int := (Utf8.encode text).map fun byte => (byte.toNat : Int)

/-- `utf8-decode` on integers that are bytes. -/
def utf8Decode (bytes : List Int) : Option String :=
  Utf8.decode (bytes.map fun byte => UInt8.ofNat byte.toNat)

def sourcePayloadContentId (sha : Sha256) (payload : String) : String :=
  (semanticIdentity sha "beagle/reader/source-payload/v1" [payload]).contentId

def readerIrPrefix (eventCount : Nat) : String :=
  "beagle-reader-ir/v1" ++ canonicalPart (toString eventCount)

def readerIrEventEncoding (event : ReaderIrEvent) : String :=
  canonicalPart (keywordText event.kind) ++ canonicalPart event.value ++
    canonicalPart event.literal ++ canonicalPart (toString event.depth)

def readerIrEncoding (events : List ReaderIrEvent) : String :=
  events.foldl (fun encoding event => encoding ++ readerIrEventEncoding event)
    (readerIrPrefix events.length)

def readerIrBytes (events : List ReaderIrEvent) : List Int := utf8Encode (readerIrEncoding events)

def readerIrIdentity (sha : Sha256) (events : List ReaderIrEvent) : SemanticIdentity :=
  semanticIdentity sha "beagle/reader/canonical-ir/v1" [readerIrEncoding events]

def sourceMapEntryEncoding (entry : ReaderSourceMapEntry) : String :=
  canonicalPart (toString entry.eventIndex) ++
    canonicalPart (toString entry.originalOrigin.startByte) ++
    canonicalPart (toString entry.originalOrigin.endByte) ++
    canonicalPart (toString entry.generatedOrigin.startByte) ++
    canonicalPart (toString entry.generatedOrigin.endByte)

def sourceMapEncoding (entries : List ReaderSourceMapEntry) : String :=
  entries.foldl (fun encoding entry => encoding ++ sourceMapEntryEncoding entry)
    ("beagle-reader-source-map/v1" ++ canonicalPart (toString entries.length))

/-- What a map of provenance is identified by. -/
def provenanceMapParts (request : ReaderRequest) (entries : List ReaderSourceMapEntry) :
    List String :=
  [request.sourceSlice.provenanceReceiptIdentity.contentId,
    request.sourceSlice.payloadContentId,
    toString request.sourceSlice.startByte,
    toString request.sourceSlice.endByte,
    request.capsuleIdentity.contentId,
    request.readerComponent.identity.contentId,
    request.readerProtocol.identity.contentId,
    sourceMapEncoding entries]

def provenanceMapIdentity (sha : Sha256) (request : ReaderRequest)
    (entries : List ReaderSourceMapEntry) : SemanticIdentity :=
  semanticIdentity sha "beagle/reader/provenance-map/v1" (provenanceMapParts request entries)

/-! ### Checks -/

def canonicalByteVector (bytes : List Int) : Option Bool :=
  if bytes.all fun byte => 0 ≤ byte ∧ byte ≤ 255 then
    (utf8Decode bytes).map fun text => bytes == utf8Encode text
  else some false

/-- The byte at the offset begins a character, or there is none. -/
def utf8ByteBoundary (bytes : List Int) (offset : Int) : Bool :=
  0 ≤ offset && offset ≤ bytes.length &&
    (offset = 0 || offset = bytes.length ||
      (let byte := bytes.getD offset.toNat 0
       decide (byte < 128) || decide (byte > 191)))

def sourceByteBoundary (slice : SourceSlice) (absoluteByte : Int) : Bool :=
  utf8ByteBoundary (utf8Encode slice.payload) (absoluteByte - slice.startByte)

def sourceSliceValid (sha : Sha256) (slice : SourceSlice) : Option Bool :=
  if slice.bounded && 0 ≤ slice.startByte then
    (Long.ofInt? (slice.startByte + (utf8Encode slice.payload).length)).map fun finish =>
      decide (slice.endByte = finish.val) &&
        slice.payloadContentId == sourcePayloadContentId sha slice.payload
  else some false

def readerRequestValid (sha : Sha256) (request : ReaderRequest) : Option Bool :=
  let component := request.readerComponent
  let protocol := request.readerProtocol
  (sourceSliceValid sha request.sourceSlice).map fun valid =>
    valid && component.role == "reader" && protocol.role == "reader" &&
      component.identity == (componentIdentity sha component.role component.artifactContentId
        component.dependencyClosureId).identity &&
      protocol.identity == (protocolIdentity sha protocol.role protocol.protocolContentId
        protocol.abiContentId).identity

def originalOriginValid (slice : SourceSlice) (span : ReaderByteSpan) : Bool :=
  span.startByte ≥ slice.startByte && span.endByte ≤ slice.endByte &&
    span.startByte ≤ span.endByte && sourceByteBoundary slice span.startByte &&
    sourceByteBoundary slice span.endByte

def generatedOriginValid (bytes : List Int) (span : ReaderByteSpan) : Bool :=
  0 ≤ span.startByte && span.startByte ≤ span.endByte && span.endByte ≤ bytes.length &&
    utf8ByteBoundary bytes span.startByte && utf8ByteBoundary bytes span.endByte

/-- The entries from one index on, behind the spans before them. -/
def sourceMapEntriesValid (slice : SourceSlice) (bytes : List Int) (index : Nat)
    (previousOriginalStart previousGeneratedEnd : Int) : List ReaderSourceMapEntry → Bool
  | [] => true
  | entry :: entries =>
    let original := entry.originalOrigin
    let generated := entry.generatedOrigin
    if index = entry.eventIndex ∧ original.startByte ≥ previousOriginalStart ∧
        generated.startByte ≥ previousGeneratedEnd ∧ originalOriginValid slice original ∧
        generatedOriginValid bytes generated then
      sourceMapEntriesValid slice bytes (index + 1) original.startByte generated.endByte entries
    else false

def sourceMapValid (slice : SourceSlice) (bytes : List Int) (events : List ReaderIrEvent)
    (entries : List ReaderSourceMapEntry) : Bool :=
  entries.length == events.length && sourceMapEntriesValid slice bytes 0 slice.startByte 0 entries

/-- The diagnostics behind a span: in order, and inside the slice. -/
def diagnosticsFromValid (slice : SourceSlice) (previousStart previousEnd : Int) :
    List ReaderDiagnostic → Bool
  | [] => true
  | diagnostic :: diagnostics =>
    let span := diagnostic.originalOrigin
    if originalOriginValid slice span ∧ (span.startByte > previousStart ∨
        span.startByte = previousStart ∧ span.endByte ≥ previousEnd) then
      diagnosticsFromValid slice span.startByte span.endByte diagnostics
    else false

def diagnosticsValid (slice : SourceSlice) (diagnostics : List ReaderDiagnostic) : Bool :=
  diagnosticsFromValid slice slice.startByte slice.startByte diagnostics

def containsErrorDiagnostic (diagnostics : List ReaderDiagnostic) : Bool :=
  diagnostics.any fun diagnostic => diagnostic.severity = "error"

/-- The checks behind the one on the bytes. -/
def readerProductBound (sha : Sha256) (request : ReaderRequest)
    (candidate : ReaderProductCandidate) : Bool :=
  candidate.canonicalIrBytes == readerIrBytes candidate.canonicalIrEvents &&
    candidate.canonicalIrId == readerIrIdentity sha candidate.canonicalIrEvents &&
    sourceMapValid request.sourceSlice candidate.canonicalIrBytes candidate.canonicalIrEvents
      candidate.sourceMap &&
    candidate.provenanceMapId == provenanceMapIdentity sha request candidate.sourceMap &&
    diagnosticsValid request.sourceSlice candidate.diagnostics

def readerProductCandidateValid (sha : Sha256) (request : ReaderRequest)
    (candidate : ReaderProductCandidate) : Option Bool := do
  if !(← readerRequestValid sha request) then return false
  if !(← canonicalByteVector candidate.canonicalIrBytes) then return false
  return readerProductBound sha request candidate

def protocolRejectionDiagnostic (request : ReaderRequest) : ReaderDiagnostic where
  code := "reader/invalid-product"
  severity := "error"
  message := "reader product failed canonical encoding, UTF-8, ordering, identity, " ++
    "or containment validation"
  originalOrigin := ⟨request.sourceSlice.startByte, request.sourceSlice.startByte⟩

def acceptReaderProduct (sha : Sha256) (request : ReaderRequest)
    (candidate : ReaderProductCandidate) : Option ReaderAcceptance :=
  (readerProductCandidateValid sha request candidate).map fun valid =>
    if valid then
      if containsErrorDiagnostic candidate.diagnostics then .rejected candidate.diagnostics
      else
        .accepted
          { canonicalIrId := candidate.canonicalIrId
            canonicalIrBytes := candidate.canonicalIrBytes
            canonicalIrEvents := candidate.canonicalIrEvents
            provenanceMapId := candidate.provenanceMapId
            sourceMap := candidate.sourceMap
            diagnostics := candidate.diagnostics }
    else .rejected [protocolRejectionDiagnostic request]

end Beagle.ReaderProtocol
