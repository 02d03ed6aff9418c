/-
Lineages of the native compiler.

A lineage names what a compiler was built from and, but for the first, its parent: the
digest of the executable and of the parent's own lineage.  It is written as one line of
EDN with its keys in order, and read back by the general reader and by position.
-/
import Beagle.Native.Edn

namespace Beagle.Bootstrap

open Beagle.Native (Text Long Sha256)
open Beagle.Edn
open Beagle.Lib (Utf8.encode)

def compilerLineageFormat : Text := Utf8.encode "beagle-native-compiler-lineage/v2"

def defaultTargetId : Text := Utf8.encode "c17"

def compilerSchemaDescriptor : String :=
  "beagle-native-compiler-schema-v1|query/kind|query/source|query/compiler|query/profile|" ++
    "query/target|query/rules|query/schema|compiler/syntax|compiler/expanded|compiler/typed|" ++
    "compiler/native|compiler/artifact"

def grammarRuleDescriptor : String :=
  "beagle-native-rule-module-v1|grammar|query/source|compiler/syntax"

def macroRuleDescriptor : String :=
  "beagle-native-rule-module-v1|macro|compiler/syntax|compiler/expanded"

def typeRuleDescriptor : String :=
  "beagle-native-rule-module-v1|type|compiler/expanded|compiler/typed"

def loweringRuleDescriptor : String :=
  "beagle-native-rule-module-v1|lowering|compiler/typed|compiler/native"

def materializerRuleDescriptor : String :=
  "beagle-native-rule-module-v1|materializer|compiler/native|compiler/artifact"

def clojureStringInterfaceDescriptor : String :=
  "beagle-native-external-interface/v1|clojure.string|join:(Any,rest Any)->String|" ++
    "split:(String,Regex,rest Int)->Vec<String>|" ++
    "replace:(String,U<String,Regex>,String)->String|trim:(String)->String|" ++
    "triml:(String)->String|trimr:(String)->String|upper-case:(String)->String|" ++
    "lower-case:(String)->String|capitalize:(String)->String|blank?:(Any)->Bool|" ++
    "includes?:(String,String)->Bool|starts-with?:(String,String)->Bool|" ++
    "ends-with?:(String,String)->Bool|reverse:(String)->String|escape:(String,Any)->String|" ++
    "re-quote-replacement:(String)->String|index-of:(String,Any,rest Int)->U<Int,Nil>|" ++
    "last-index-of:(String,Any,rest Int)->U<Int,Nil>|split-lines:(String)->Vec<String>|" ++
    "replace-first:(String,Any,Any)->String"

/-- A lineage; the first of a line has no parent. -/
structure NativeCompilerLineage where
  format : Text
  generation : Long
  semanticContentId : Text
  materializationContentId : Text
  executableContentId : Text
  parentExecutableContentId : Option Text
  parentLineageContentId : Option Text
  compilerContextId : Text
  schemaContentId : Text
  ruleSetContentId : Text
  targetId : Text
deriving DecidableEq

inductive LineageDecode where
  | decoded (lineage : NativeCompilerLineage)
  | rejected (message : Text)
deriving DecidableEq

section

variable (sha : Sha256)

def contentId (payload : Text) : Text := Utf8.encode ("sha256:" ++ sha.bytes payload)

def compilerSchemaContentId : Text := contentId sha (Utf8.encode compilerSchemaDescriptor)

def compilerRuleSetDescriptor : Text :=
  Utf8.encode "beagle-native-compiler-rules-v1|" ++
    compilerSchemaContentId sha ++ Utf8.encode "|" ++
    contentId sha (Utf8.encode clojureStringInterfaceDescriptor) ++ Utf8.encode "|" ++
    contentId sha (Utf8.encode grammarRuleDescriptor) ++ Utf8.encode "|" ++
    contentId sha (Utf8.encode macroRuleDescriptor) ++ Utf8.encode "|" ++
    contentId sha (Utf8.encode typeRuleDescriptor) ++ Utf8.encode "|" ++
    contentId sha (Utf8.encode loweringRuleDescriptor) ++ Utf8.encode "|" ++
    contentId sha (Utf8.encode materializerRuleDescriptor)

def defaultRuleSetContentId : Text := contentId sha (compilerRuleSetDescriptor sha)

def compilerContextDescriptor : Text :=
  Utf8.encode "beagle-native-compiler-context-v1|" ++
    compilerSchemaContentId sha ++ Utf8.encode "|" ++ defaultRuleSetContentId sha

def defaultCompilerContextId : Text := contentId sha (compilerContextDescriptor sha)

/-- `sha256:` and 64 hexadecimal digits. -/
def exactContentId (value : Text) : Bool :=
  value.length == 71 && value.take 7 == Utf8.encode "sha256:" &&
    (value.drop 7).all fun byte => (Utf8.encode "0123456789abcdef").contains byte

def optionalContentIdText (value : Option Text) : Text :=
  match value with
  | none => Utf8.encode "nil"
  | some value => Utf8.encode "\"" ++ value ++ Utf8.encode "\""

def lineagePayload (lineage : NativeCompilerLineage) : Text :=
  Utf8.encode "\x7b:compiler-context-id \"" ++ lineage.compilerContextId ++
    Utf8.encode "\" :executable-content-id \"" ++ lineage.executableContentId ++
    Utf8.encode "\" :format \"" ++ lineage.format ++
    Utf8.encode "\" :generation " ++ Utf8.encode (toString lineage.generation.val) ++
    Utf8.encode " :materialization-content-id \"" ++ lineage.materializationContentId ++
    Utf8.encode "\" :parent-executable-content-id " ++
    optionalContentIdText lineage.parentExecutableContentId ++
    Utf8.encode " :parent-lineage-content-id " ++
    optionalContentIdText lineage.parentLineageContentId ++
    Utf8.encode " :rule-set-content-id \"" ++ lineage.ruleSetContentId ++
    Utf8.encode "\" :schema-content-id \"" ++ lineage.schemaContentId ++
    Utf8.encode "\" :semantic-content-id \"" ++ lineage.semanticContentId ++
    Utf8.encode "\" :target-id \"" ++ lineage.targetId ++
    Utf8.encode "\"\x7d\n"

def lineageContentId (lineage : NativeCompilerLineage) : Text :=
  contentId sha (lineagePayload lineage)

def rootLineage (semanticContentId materializationContentId executableContentId : Text) :
    NativeCompilerLineage where
  format := compilerLineageFormat
  generation := ⟨0, by decide, by decide⟩
  semanticContentId
  materializationContentId
  executableContentId
  parentExecutableContentId := none
  parentLineageContentId := none
  compilerContextId := defaultCompilerContextId sha
  schemaContentId := compilerSchemaContentId sha
  ruleSetContentId := defaultRuleSetContentId sha
  targetId := defaultTargetId

/-- The child of a parent, unless its generation is no `Int`. -/
def childLineage (semanticContentId materializationContentId executableContentId : Text)
    (parent : NativeCompilerLineage) : Option NativeCompilerLineage :=
  (Long.ofInt? (1 + parent.generation.val)).map fun generation =>
    { format := compilerLineageFormat
      generation
      semanticContentId
      materializationContentId
      executableContentId
      parentExecutableContentId := some parent.executableContentId
      parentLineageContentId := some (lineageContentId sha parent)
      compilerContextId := defaultCompilerContextId sha
      schemaContentId := compilerSchemaContentId sha
      ruleSetContentId := defaultRuleSetContentId sha
      targetId := defaultTargetId }

/-- The first has no parent and every other one has both its identities. -/
def parentsValid (lineage : NativeCompilerLineage) : Bool :=
  if lineage.generation.val = 0 then
    lineage.parentExecutableContentId.isNone && lineage.parentLineageContentId.isNone
  else
    lineage.parentExecutableContentId.isSome && lineage.parentLineageContentId.isSome &&
      exactContentId (lineage.parentExecutableContentId.getD []) &&
      exactContentId (lineage.parentLineageContentId.getD [])

def lineageValid (lineage : NativeCompilerLineage) : Bool :=
  lineage.format == compilerLineageFormat && decide (0 ≤ lineage.generation.val) &&
    exactContentId lineage.semanticContentId &&
    exactContentId lineage.materializationContentId &&
    exactContentId lineage.executableContentId &&
    lineage.compilerContextId == defaultCompilerContextId sha &&
    lineage.schemaContentId == compilerSchemaContentId sha &&
    lineage.ruleSetContentId == defaultRuleSetContentId sha &&
    lineage.targetId == defaultTargetId && parentsValid lineage

/-! ### Reading by position -/

def ednMapStart (events : List EdnEvent) (index : Nat) : Bool :=
  match events[index]? with
  | some (.mapStart _) => true
  | _ => false

def ednMapEnd (events : List EdnEvent) (index : Nat) : Bool :=
  match events[index]? with
  | some (.mapEnd _) => true
  | _ => false

def ednKeywordAt (events : List EdnEvent) (index : Nat) (expected : String) : Bool :=
  match events[index]? with
  | some (.keyword _ value) => value == Utf8.encode expected
  | _ => false

def ednStringAt (events : List EdnEvent) (index : Nat) : Option Text :=
  match events[index]? with
  | some (.string _ value) => some value
  | _ => none

def ednIntAt (events : List EdnEvent) (index : Nat) : Option Long :=
  match events[index]? with
  | some (.integer _ value) => some value
  | _ => none

def ednNilAt (events : List EdnEvent) (index : Nat) : Bool :=
  match events[index]? with
  | some (.nil _) => true
  | _ => false

/-- A parent's identity, which is `nil` in generation 0. -/
def parentShape (events : List EdnEvent) (generation : Int) (index : Nat) : Bool :=
  if generation = 0 then ednNilAt events index else (ednStringAt events index).isSome

def lineageEventsShape (events : List EdnEvent) (generation : Int) : Bool :=
  events.length == 24 && ednMapStart events 0 &&
    ednKeywordAt events 1 "compiler-context-id" && (ednStringAt events 2).isSome &&
    ednKeywordAt events 3 "executable-content-id" && (ednStringAt events 4).isSome &&
    ednKeywordAt events 5 "format" && (ednStringAt events 6).isSome &&
    ednKeywordAt events 7 "generation" && (ednIntAt events 8).isSome &&
    ednKeywordAt events 9 "materialization-content-id" && (ednStringAt events 10).isSome &&
    ednKeywordAt events 11 "parent-executable-content-id" && parentShape events generation 12 &&
    ednKeywordAt events 13 "parent-lineage-content-id" && parentShape events generation 14 &&
    ednKeywordAt events 15 "rule-set-content-id" && (ednStringAt events 16).isSome &&
    ednKeywordAt events 17 "schema-content-id" && (ednStringAt events 18).isSome &&
    ednKeywordAt events 19 "semantic-content-id" && (ednStringAt events 20).isSome &&
    ednKeywordAt events 21 "target-id" && (ednStringAt events 22).isSome &&
    ednMapEnd events 23

/-- The `Int` that stands for no generation. -/
def noGeneration : Long := ⟨-1, by decide, by decide⟩

def lineageOf (events : List EdnEvent) (generation : Long) : NativeCompilerLineage where
  format := (ednStringAt events 6).getD []
  generation
  semanticContentId := (ednStringAt events 20).getD []
  materializationContentId := (ednStringAt events 10).getD []
  executableContentId := (ednStringAt events 4).getD []
  parentExecutableContentId := ednStringAt events 12
  parentLineageContentId := ednStringAt events 14
  compilerContextId := (ednStringAt events 2).getD []
  schemaContentId := (ednStringAt events 18).getD []
  ruleSetContentId := (ednStringAt events 16).getD []
  targetId := (ednStringAt events 22).getD []

def decodeLineage (payload : Text) : LineageDecode :=
  match decode payload with
  | .failed offset message =>
    .rejected (Utf8.encode "invalid compiler lineage at " ++ Utf8.encode (toString offset) ++
      Utf8.encode ": " ++ message)
  | .decoded events =>
    let generation := (ednIntAt events 8).getD noGeneration
    if !lineageEventsShape events generation.val then
      .rejected (Utf8.encode "compiler lineage is not the canonical v2 map")
    else
      let lineage := lineageOf events generation
      if lineageValid sha lineage && payload == lineagePayload lineage then .decoded lineage
      else
        .rejected (Utf8.encode "compiler lineage IDs or canonical bytes are invalid")

def lineageChildOf (child parent : NativeCompilerLineage) : Bool :=
  lineageValid sha child && lineageValid sha parent &&
    child.generation.val == 1 + parent.generation.val &&
    child.parentExecutableContentId == some parent.executableContentId &&
    child.parentLineageContentId == some (lineageContentId sha parent)

end

end Beagle.Bootstrap
