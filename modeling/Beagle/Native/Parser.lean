/-
Explicit bundles of sources, checked and put in order.

A bundle is closed when its sources have paths and namespaces of their own, are valid, and
are all reached from the entry by imports; then the sources are taken one after another,
each time the one of least path whose imports have been taken.  The digests of the closure
are of the modules written out as lines of text.
-/
import Beagle.Lib.Graphs
import Beagle.Native.FrontendFacts

namespace Beagle.Parser

open Beagle.FrontendFacts
open Beagle.Native (Sha256)
open Beagle.Lib (Utf8.encode)
open Beagle.Lib.Cycles (length_filter_lt)

inductive ModuleAuthority where
  | package
  | trusted
deriving DecidableEq

structure ExplicitFactSource where
  bundle : SyntaxFactBundle
  authority : ModuleAuthority
deriving DecidableEq

structure ExplicitFactBundle where
  entryPath : String
  sources : List ExplicitFactSource

inductive ParseExplicitBundleResult where
  | parsed (closure : SyntaxFactClosure)
  | rejected (errors : List FactError)
deriving DecidableEq

def ExplicitFactSource.path (source : ExplicitFactSource) : String := source.bundle.path

def ExplicitFactSource.namespaceName (source : ExplicitFactSource) : Option String :=
  source.bundle.namespaceName

def ExplicitFactSource.imports (source : ExplicitFactSource) : List ImportEdgeFact :=
  source.bundle.imports

def defaultSpan (path : String) : SourceSpan := ⟨path, 0, 0, 0, 0⟩

def factError (path code message : String) : FactError := ⟨defaultSpan path, code, message⟩

def sourceForPath (sources : List ExplicitFactSource) (path : String) :
    Option ExplicitFactSource :=
  sources.find? fun source => path == source.path

def sourceForNamespace (sources : List ExplicitFactSource) (name : String) :
    Option ExplicitFactSource :=
  sources.find? fun source => source.namespaceName == some name

/-- The first path that comes twice, behind the paths seen. -/
def duplicatePathFrom (seen : List String) : List ExplicitFactSource → Option String
  | [] => none
  | source :: rest =>
    if source.path ∈ seen then some source.path
    else duplicatePathFrom (seen ++ [source.path]) rest

def duplicatePath (sources : List ExplicitFactSource) : Option String :=
  duplicatePathFrom [] sources

/-- The first namespace that comes twice, unless a source without one comes before it. -/
def duplicateNamespaceFrom (seen : List String) : List ExplicitFactSource → Option String
  | [] => none
  | source :: rest =>
    match source.namespaceName with
    | none => none
    | some name =>
      if name ∈ seen then some name else duplicateNamespaceFrom (seen ++ [name]) rest

def duplicateNamespace (sources : List ExplicitFactSource) : Option String :=
  duplicateNamespaceFrom [] sources

def authorityTrusted (authority : ModuleAuthority) : Bool := authority == .trusted

/-! ### Valid sources -/

def spanValid (span : SourceSpan) (path : String) : Bool :=
  path == span.path && decide (0 ≤ span.startByte) && decide (span.startByte ≤ span.endByte) &&
    decide (0 ≤ span.line) && decide (0 ≤ span.column)

def nodeDefined (rows : List CompilerFact) (nodeId : String) : Bool :=
  rows.any fun row => nodeId == row.subject

def factValueNodeValid (rows : List CompilerFact) : FactValue → Bool
  | .nodeRef nodeId => nodeDefined rows nodeId
  | .text _ => true
  | .bool _ => true
  | .int _ => true
  | .nil => true

def factsValid (bundle : SyntaxFactBundle) : Bool :=
  bundle.facts.all fun row =>
    decide (0 ≤ row.order) && decide (0 ≤ row.slot) &&
      (match row.span with
        | none => false
        | some span => spanValid span bundle.path) &&
      factValueNodeValid bundle.facts row.value

def importsValid (source : ExplicitFactSource) (sources : List ExplicitFactSource) : Bool :=
  match source.namespaceName with
  | none => false
  | some name =>
    source.imports.all fun edge =>
      name == edge.importer && spanValid edge.span source.path &&
        match sourceForNamespace sources edge.required with
        | none => false
        | some required =>
          !authorityTrusted source.authority || authorityTrusted required.authority

/-- Does a text end with the bytes of another? -/
def endsIn (value suffix : String) : Bool :=
  let width := (Utf8.encode suffix).length
  decide (width ≤ (Utf8.encode value).length) &&
    (Utf8.encode value).drop ((Utf8.encode value).length - width) == Utf8.encode suffix

def profileMatchesPath (bundle : SyntaxFactBundle) : Bool :=
  if endsIn bundle.path ".bgl" then bundle.profile == "native-core"
  else if endsIn bundle.path ".bclj" then bundle.profile == "clj"
  else if endsIn bundle.path ".bjs" then bundle.profile == "js"
  else if endsIn bundle.path ".bnix" then bundle.profile == "nix"
  else false

def sourceValid (source : ExplicitFactSource) (sources : List ExplicitFactSource) : Bool :=
  source.namespaceName.isSome && profileMatchesPath source.bundle && factsValid source.bundle &&
    importsValid source sources

/-! ### Reachability -/

/-- A path behind those reached, unless it is among them. -/
def addRequired (sources : List ExplicitFactSource) (paths : List String)
    (edge : ImportEdgeFact) : List String :=
  match sourceForNamespace sources edge.required with
  | none => paths
  | some required => if required.path ∈ paths then paths else paths ++ [required.path]

/-- How many sources are not reached. -/
def unreached (sources : List ExplicitFactSource) (reached : List String) : Nat :=
  (sources.filter fun source => source.path ∉ reached).length

theorem unreached_add {ss : List ExplicitFactSource} {reached : List String}
    {s : ExplicitFactSource} (hsrc : s ∈ ss) (hnew : s.path ∉ reached) :
    unreached ss (reached ++ [s.path]) < unreached ss reached := by
  refine length_filter_lt ?_ ⟨s, hsrc, by simpa using hnew, by simp⟩
  intro o _ ho
  rw [decide_eq_true_eq] at ho ⊢
  exact fun h => ho (List.mem_append_left _ h)

theorem addRequired_measure (ss : List ExplicitFactSource) (ps : List String) (e : ImportEdgeFact) :
    unreached ss (addRequired ss ps e) + (addRequired ss ps e).length ≤
        unreached ss ps + ps.length := by
  unfold addRequired
  split
  · exact Nat.le_refl _
  · rename_i rq hreq
    split
    · exact Nat.le_refl _
    · rename_i hnew
      have hlt := unreached_add (List.mem_of_find?_eq_some hreq) hnew
      rw [List.length_append, List.length_singleton]
      omega

theorem foldl_addRequired_measure (ss : List ExplicitFactSource)
    (ims : List ImportEdgeFact) (ps : List String) :
    unreached ss (ims.foldl (addRequired ss) ps) + (ims.foldl (addRequired ss) ps).length ≤
      unreached ss ps + ps.length := by
  induction ims generalizing ps with
  | nil => exact Nat.le_refl _
  | cons e ims ih => exact (ih _).trans (addRequired_measure ss ps e)

/-- The paths reached, of which those before the cursor have been visited. -/
def reachableFrom (sources : List ExplicitFactSource) (cursor : Nat) (reached : List String) :
    List String :=
  match hpath : reached[cursor]? with
  | none => reached
  | some path =>
    match sourceForPath sources path with
    | none => reached
    | some source =>
      reachableFrom sources (cursor + 1) (source.imports.foldl (addRequired sources) reached)
termination_by unreached sources reached + reached.length - cursor
decreasing_by
  have hle := foldl_addRequired_measure sources source.imports reached
  have hcursor := (List.getElem?_eq_some_iff.mp hpath).1
  omega

def reachablePaths (sources : List ExplicitFactSource) (entryPath : String) : List String :=
  reachableFrom sources 0 [entryPath]

/-! ### Order -/

def dependenciesSelected (source : ExplicitFactSource) (sources : List ExplicitFactSource)
    (selectedPaths : List String) : Bool :=
  source.imports.all fun edge =>
    match sourceForNamespace sources edge.required with
    | none => false
    | some required => selectedPaths.contains required.path

/-- The source itself, if it is ready and nothing before it has a path as small. -/
def lexicalReadyStep (sources : List ExplicitFactSource) (selectedPaths : List String)
    (best : Option ExplicitFactSource) (source : ExplicitFactSource) :
    Option ExplicitFactSource :=
  if source.path ∈ selectedPaths ∨ dependenciesSelected source sources selectedPaths = false then
    best
  else
    match best with
    | none => some source
    | some found => if source.path < found.path then some source else some found

def lexicalReadySource (sources : List ExplicitFactSource) (selectedPaths : List String) :
    Option ExplicitFactSource :=
  sources.foldl (lexicalReadyStep sources selectedPaths) none

/-- The sources in order, behind those taken; as many are left as there are rounds. -/
def topologicalFrom (sources : List ExplicitFactSource) :
    (rounds : Nat) → (ordered : List ExplicitFactSource) → (selectedPaths : List String) →
      Option (List ExplicitFactSource)
  | 0, ordered, _ => some ordered
  | rounds + 1, ordered, selectedPaths =>
    match lexicalReadySource sources selectedPaths with
    | none => none
    | some next =>
      topologicalFrom sources rounds (ordered ++ [next]) (selectedPaths ++ [next.path])

def topologicalSources (sources : List ExplicitFactSource) : Option (List ExplicitFactSource) :=
  topologicalFrom sources sources.length [] []

/-! ### Digests -/

def encodeSpan (span : SourceSpan) : String :=
  span.path ++ ":" ++ toString span.startByte ++ ":" ++ toString span.endByte ++ ":" ++
    toString span.line ++ ":" ++ toString span.column

def encodeValue : FactValue → String
  | .nodeRef nodeId => "n:" ++ nodeId
  | .text text => "t:" ++ toString (Utf8.encode text).length ++ ":" ++ text
  | .bool value => if value then "b:1" else "b:0"
  | .int value => "i:" ++ toString value
  | .nil => "z:"

def encodeOptionalSpan : Option SourceSpan → String
  | none => "-"
  | some span => encodeSpan span

def encodeFact (row : CompilerFact) : String :=
  toString row.order ++ "|" ++ (":" ++ row.relation) ++ "|" ++ row.subject ++ "|" ++
    toString row.slot ++ "|" ++ encodeValue row.value ++ "|" ++ encodeOptionalSpan row.span ++ "\n"

def encodeImport (edge : ImportEdgeFact) : String :=
  toString edge.order ++ "|" ++ edge.importer ++ "|" ++ edge.required ++ "|" ++
    edge.aliasName.getD "" ++ "|" ++ ",".intercalate edge.referred ++ "|" ++
    encodeSpan edge.span ++ "\n"

def encodeRewrite (rewrite : MacroRewriteFact) : String :=
  toString rewrite.order ++ "|" ++ rewrite.macroId ++ "|" ++ rewrite.inputNode ++ "|" ++
    rewrite.resultNode ++ "|" ++ encodeSpan rewrite.span ++ "\n"

/-- The texts of some lines, one behind the other. -/
def encodeAll {α : Type} (encodeLine : α → String) (rows : List α) : String :=
  rows.foldl (fun text row => text ++ encodeLine row) ""

def encodeModule (bundle : SyntaxFactBundle) : String :=
  "module|" ++ bundle.path ++ "|" ++ bundle.namespaceName.getD "" ++ "|" ++
    toString (Utf8.encode bundle.sourceText).length ++ ":" ++ bundle.sourceText ++ "|" ++
    bundle.sourceDigest ++ "|" ++ bundle.profile ++ "\n" ++ encodeAll encodeFact bundle.facts ++
    encodeAll encodeImport bundle.imports ++ encodeAll encodeRewrite bundle.rewrites

def digestText (sha : Sha256) (text : String) : String := "sha256:" ++ sha.bytes (Utf8.encode text)

def closureFrom (sha : Sha256) (entryPath : String) (ordered : List ExplicitFactSource) :
    SyntaxFactClosure :=
  let modules := ordered.map ExplicitFactSource.bundle
  let encodings := modules.map encodeModule
  { entryPath
    modules
    closureDigest := digestText sha (String.join encodings)
    interfaceDigests := encodings.map (digestText sha) }

def parseExplicitBundle (sha : Sha256) (request : ExplicitFactBundle) :
    ParseExplicitBundleResult :=
  let sources := request.sources
  let entryPath := request.entryPath
  if sources.length = 0 then
    .rejected [factError entryPath "parser/empty-bundle" "explicit source bundle is empty"]
  else
    match duplicatePath sources with
    | some path =>
      .rejected
        [factError path "parser/duplicate-source" "explicit source path appears more than once"]
    | none =>
      match duplicateNamespace sources with
      | some name =>
        .rejected
          [factError entryPath "parser/duplicate-namespace"
            ("namespace appears more than once: " ++ name)]
      | none =>
        if (sourceForPath sources entryPath).isNone then
          .rejected
            [factError entryPath "parser/entry-absent"
              "entry path is absent from explicit source bundle"]
        else if !sources.all fun source => sourceValid source sources then
          .rejected
            [factError entryPath "parser/invalid-source-facts"
              "source facts, imports, spans, authority, or profile are invalid"]
        else if sources.length ≠ (reachablePaths sources entryPath).length then
          .rejected
            [factError entryPath "parser/unreachable-source"
              "explicit bundle contains a module unreachable from its entry"]
        else
          match topologicalSources sources with
          | none =>
            .rejected
              [factError entryPath "parser/import-cycle"
                "explicit import graph contains a cycle"]
          | some ordered => .parsed (closureFrom sha entryPath ordered)

end Beagle.Parser
