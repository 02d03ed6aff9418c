/-
Sources collected along imports.

A cursor runs over the sources found so far, and every import of the source under it is put to
a resolver.  An answer is a new source at the end, the source that its namespace has already,
an interface of the compiler, or a failure; and it is taken only with a receipt that fits it.
What is left when the cursor has passed the last source is closed without the imports that
interfaces answered.
-/
import Beagle.Lib.KeySort
import Beagle.Native.Parser

namespace Beagle.CompilerDriver

open Beagle.Native (Sha256)
open Beagle.FrontendFacts
open Beagle.Lib.KeySort
open Beagle.Parser (ModuleAuthority ExplicitFactSource parseExplicitBundle)

structure ImportResolutionDependency where
  candidatePath : String
  present : Bool
  contentId : String
deriving DecidableEq

structure ImportResolutionRequest where
  importerPath : String
  importOrder : Int
  requiredNamespace : String
deriving DecidableEq

structure ImportResolutionReceipt where
  importerPath : String
  importOrder : Int
  requiredNamespace : String
  dependencies : List ImportResolutionDependency
  selectedPath : Option String
deriving DecidableEq

structure ResolvedSourceFacts where
  raw : SyntaxFactBundle
  normalized : SyntaxFactBundle
  authority : ModuleAuthority
deriving DecidableEq

structure ExternalImportResolution where
  importerPath : String
  importOrder : Int
  requiredNamespace : String
  interfaceContentId : String
deriving DecidableEq

inductive ImportResolutionResponse where
  | found (receipt : ImportResolutionReceipt) (source : ResolvedSourceFacts)
  | missing (receipt : ImportResolutionReceipt)
  | external (receipt : ImportResolutionReceipt) (interfaceContentId : String)
  | failed (receipt : ImportResolutionReceipt) (code : Int) (detail : String)

/-- A resolver answers a request. -/
abbrev ImportResolver := ImportResolutionRequest → ImportResolutionResponse

structure CollectedSourceFacts where
  closure : SyntaxFactClosure
  rawModules : List SyntaxFactBundle
  receipts : List ImportResolutionReceipt
  externalImports : List ExternalImportResolution

inductive CollectSourceFactsResult where
  | collected (collected : CollectedSourceFacts)
  | rejected (code : Int) (detail : String) (receipts : List ImportResolutionReceipt)

structure SourceCollectionState where
  sources : List ResolvedSourceFacts
  receipts : List ImportResolutionReceipt
  externalImports : List ExternalImportResolution

inductive ResolveImportStep where
  | resolved (state : SourceCollectionState)
  | rejected (code : Int) (detail : String) (receipts : List ImportResolutionReceipt)

inductive CloseSourceFactsResult where
  | closed (closure : SyntaxFactClosure)
  | rejected (code : Int) (detail : String)

def ResolvedSourceFacts.path (source : ResolvedSourceFacts) : String := source.normalized.path

def ResolvedSourceFacts.namespaceName (source : ResolvedSourceFacts) : Option String :=
  source.normalized.namespaceName

def ResolvedSourceFacts.imports (source : ResolvedSourceFacts) : List ImportEdgeFact :=
  source.normalized.imports

def factErrorsDetail : List FactError → String
  | [] => "source fact projection rejected without an error"
  | first :: _ => first.message

def closeSourceFacts (sha : Sha256) (entryPath : String) (sources : List ExplicitFactSource) :
    CloseSourceFactsResult :=
  match parseExplicitBundle sha ⟨entryPath, sources⟩ with
  | .parsed closure => .closed closure
  | .rejected errors => .rejected 65 (factErrorsDetail errors)

/-! ### Receipts -/

def canonicalResolutionDependencies (dependencies : List ImportResolutionDependency) :
    List ImportResolutionDependency :=
  sortBy ImportResolutionDependency.candidatePath dependencies

/-- Is a path the one before it? -/
def duplicateResolutionPathFrom (previous : Option String) :
    List ImportResolutionDependency → Bool
  | [] => false
  | dependency :: rest =>
    if previous = some dependency.candidatePath then true
    else duplicateResolutionPathFrom (some dependency.candidatePath) rest

def duplicateResolutionPath (dependencies : List ImportResolutionDependency) : Bool :=
  duplicateResolutionPathFrom none dependencies

def canonicalResolutionReceipt (receipt : ImportResolutionReceipt) : ImportResolutionReceipt :=
  { receipt with dependencies := canonicalResolutionDependencies receipt.dependencies }

def receiptMatchesRequest (receipt : ImportResolutionReceipt) (request : ImportResolutionRequest) :
    Bool :=
  receipt.importerPath == request.importerPath && receipt.importOrder == request.importOrder &&
    receipt.requiredNamespace == request.requiredNamespace &&
    !duplicateResolutionPath receipt.dependencies && !receipt.dependencies.isEmpty &&
    receipt.dependencies.all fun dependency =>
      dependency.candidatePath != "" && dependency.contentId != ""

def presentResolutionDependencies (receipt : ImportResolutionReceipt) :
    List ImportResolutionDependency :=
  receipt.dependencies.filter ImportResolutionDependency.present

def foundReceiptValid (receipt : ImportResolutionReceipt) (request : ImportResolutionRequest)
    (source : ResolvedSourceFacts) : Bool :=
  receiptMatchesRequest receipt request &&
    match receipt.selectedPath, presentResolutionDependencies receipt with
    | some selected, [first] =>
      selected == first.candidatePath && selected == source.normalized.path &&
        selected == source.raw.path &&
        source.normalized.sourceDigest == source.raw.sourceDigest &&
        source.normalized.sourceDigest == first.contentId &&
        source.normalized.namespaceName == some request.requiredNamespace
    | _, _ => false

def missingReceiptValid (receipt : ImportResolutionReceipt) (request : ImportResolutionRequest) :
    Bool :=
  receiptMatchesRequest receipt request && receipt.selectedPath.isNone &&
    (presentResolutionDependencies receipt).isEmpty

def externalReceiptValid (receipt : ImportResolutionReceipt) (request : ImportResolutionRequest)
    (interfaceContentId : String) : Bool :=
  receiptMatchesRequest receipt request && receipt.dependencies.length == 1 &&
    match receipt.selectedPath, presentResolutionDependencies receipt with
    | some selected, [first] =>
      selected == first.candidatePath && interfaceContentId == first.contentId
    | _, _ => false

/-! ### Imports -/

def resolvedSourceForNamespace (sources : List ResolvedSourceFacts) (name : String) :
    Option ResolvedSourceFacts :=
  sources.find? fun source => some name == source.namespaceName

/-- Sources are told apart by their paths and the digests of their texts. -/
def sameResolvedSource (left right : ResolvedSourceFacts) : Bool :=
  left.path == right.path && left.normalized.sourceDigest == right.normalized.sourceDigest

def importRequest (importerPath : String) (edge : ImportEdgeFact) : ImportResolutionRequest :=
  ⟨importerPath, edge.order, edge.required⟩

def resolveImportStep (state : SourceCollectionState) (importerPath : String)
    (edge : ImportEdgeFact) (resolver : ImportResolver) : ResolveImportStep :=
  let request := importRequest importerPath edge
  match resolver request with
  | .failed receipt code detail =>
    let canonical := canonicalResolutionReceipt receipt
    if receiptMatchesRequest canonical request then
      .rejected code detail (state.receipts ++ [canonical])
    else
      .rejected 65 "import resolver failure receipt does not match its request"
        (state.receipts ++ [canonical])
  | .missing receipt =>
    let canonical := canonicalResolutionReceipt receipt
    if missingReceiptValid canonical request then
      .rejected 66 ("unresolved namespace: " ++ edge.required) (state.receipts ++ [canonical])
    else
      .rejected 65 "missing import receipt is not a closed negative resolution"
        (state.receipts ++ [canonical])
  | .external receipt interfaceContentId =>
    let canonical := canonicalResolutionReceipt receipt
    if !externalReceiptValid canonical request interfaceContentId then
      .rejected 65 "external import does not match its compiler interface receipt"
        (state.receipts ++ [canonical])
    else
      .resolved
        { state with
          receipts := state.receipts ++ [canonical]
          externalImports := state.externalImports ++
            [⟨importerPath, edge.order, edge.required, interfaceContentId⟩] }
  | .found receipt source =>
    let canonical := canonicalResolutionReceipt receipt
    if !foundReceiptValid canonical request source then
      .rejected 65 "resolved import source does not match its causal receipt"
        (state.receipts ++ [canonical])
    else
      match resolvedSourceForNamespace state.sources edge.required with
      | some existing =>
        if !sameResolvedSource existing source then
          .rejected 65 ("namespace resolved to conflicting sources: " ++ edge.required)
            (state.receipts ++ [canonical])
        else .resolved { state with receipts := state.receipts ++ [canonical] }
      | none =>
        .resolved
          { state with
            sources := state.sources ++ [source]
            receipts := state.receipts ++ [canonical] }

def resolveImports (importerPath : String) (resolver : ImportResolver) :
    List ImportEdgeFact → SourceCollectionState → ResolveImportStep
  | [], state => .resolved state
  | edge :: rest, state =>
    match resolveImportStep state importerPath edge resolver with
    | .rejected code detail receipts => .rejected code detail receipts
    | .resolved next => resolveImports importerPath resolver rest next

def resolveModuleImports (state : SourceCollectionState) (source : ResolvedSourceFacts)
    (resolver : ImportResolver) : ResolveImportStep :=
  resolveImports source.path resolver source.imports state

def externalImportMatchesEdge (external : ExternalImportResolution) (importerPath : String)
    (edge : ImportEdgeFact) : Bool :=
  importerPath == external.importerPath && edge.order == external.importOrder &&
    edge.required == external.requiredNamespace

def externallyResolvedImport (externalImports : List ExternalImportResolution)
    (importerPath : String) (edge : ImportEdgeFact) : Bool :=
  externalImports.any fun external => externalImportMatchesEdge external importerPath edge

def sourceImportsForParser (bundle : SyntaxFactBundle)
    (externalImports : List ExternalImportResolution) : List ImportEdgeFact :=
  bundle.imports.filter fun edge => !externallyResolvedImport externalImports bundle.path edge

def sourceBundleForParser (bundle : SyntaxFactBundle)
    (externalImports : List ExternalImportResolution) : SyntaxFactBundle :=
  { bundle with imports := sourceImportsForParser bundle externalImports }

def explicitFactSources (state : SourceCollectionState) : List ExplicitFactSource :=
  state.sources.map fun source =>
    ⟨sourceBundleForParser source.normalized state.externalImports, source.authority⟩

/-- What was collected, closed. -/
def closeCollected (sha : Sha256) (entry : ResolvedSourceFacts) (state : SourceCollectionState) :
    CollectSourceFactsResult :=
  match closeSourceFacts sha entry.path (explicitFactSources state) with
  | .rejected code detail => .rejected code detail state.receipts
  | .closed closure =>
    .collected
      { closure
        rawModules := state.sources.map ResolvedSourceFacts.raw
        receipts := state.receipts
        externalImports := state.externalImports }

/-- The loop of `collect-source-facts`, for as many sources as there is fuel. -/
def collectFrom (sha : Sha256) (entry : ResolvedSourceFacts) (resolver : ImportResolver) :
    (fuel : Nat) → (cursor : Nat) → SourceCollectionState → Option CollectSourceFactsResult
  | 0, _, _ => none
  | fuel + 1, cursor, state =>
    match state.sources[cursor]? with
    | none => some (closeCollected sha entry state)
    | some source =>
      match resolveModuleImports state source resolver with
      | .rejected code detail receipts => some (.rejected code detail receipts)
      | .resolved next => collectFrom sha entry resolver fuel (cursor + 1) next

def collectSourceFacts (sha : Sha256) (entry : ResolvedSourceFacts) (resolver : ImportResolver)
    (fuel : Nat) : Option CollectSourceFactsResult :=
  collectFrom sha entry resolver fuel 0 ⟨[entry], [], []⟩

end Beagle.CompilerDriver
