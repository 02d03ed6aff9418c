/-
The slice driver: rows of facts, their index, and the projection for C17.

Every lookup of the source program is answered from an index that one pass over the rows builds.
The projection keeps the records whose fields it can spell, and what these fields are.
-/
import Beagle.Lib.Records
import Beagle.Native.Layouts
import Beagle.Native.Obligations

namespace Beagle.Slice

open Beagle.Layouts
open Beagle.Lib.Records (framed)
open Beagle.NativeCore
open Beagle.Obligations (Table Table.get Table.assoc)

/-! ### Rows -/

structure SliceFact where
  subject : String
  predicate : String
  kind : String
  object : String

/-- What stands for a character behind a backslash. -/
def escapeText : Char → List Char
  | 's' => [' ']
  | 't' => ['\t']
  | 'n' => ['\n']
  | 'r' => ['\r']
  | 'z' => []
  | '\\' => ['\\']
  | escape => ['\\', escape]

def escapedFrom : List Char → List Char
  | [] => []
  | ['\\'] => ['\\']
  | '\\' :: escape :: rest => escapeText escape ++ escapedFrom rest
  | character :: rest => character :: escapedFrom rest

def escapedText (value : String) : String := String.ofList (escapedFrom value.toList)

def textRow (row : SliceFact) : Bool := "t" == row.kind || "e" == row.kind

def rowText (row : SliceFact) : String :=
  if row.kind = "e" then escapedText row.object else row.object

structure UniqueStrings where
  values : List String
  seen : Table Bool

def addUniqueString (unique : UniqueStrings) (candidate : String) : UniqueStrings :=
  if Table.get unique.seen candidate = some true then unique
  else ⟨unique.values ++ [candidate], Table.assoc unique.seen candidate true⟩

/-! ### Lookups that scan -/

def rowFirstText (rows : List SliceFact) (subject predicate : String) : Option String :=
  rows.findSome? fun row =>
    if subject = row.subject ∧ predicate = row.predicate ∧ textRow row then some (rowText row)
    else none

def rowNodeObjects (rows : List SliceFact) (subject predicate : String) : List String :=
  rows.foldl (fun objects row =>
      if subject = row.subject ∧ predicate = row.predicate ∧ !textRow row then
        objects ++ [row.object]
      else objects)
    []

def formNodeNames (rows : List SliceFact) (kind : String) : List String :=
  rows.foldl (fun selected row =>
      if "form-kind" = row.predicate ∧ textRow row ∧ kind = rowText row then
        selected ++ [row.subject]
      else selected)
    []

def semanticUnits (rows : List SliceFact) : UniqueStrings :=
  rows.foldl (fun unique row =>
      if "semantic-unit-sha256" = row.predicate ∧ textRow row then
        addUniqueString unique row.subject
      else unique)
    ⟨[], []⟩

def semanticUnitNodeNames (rows : List SliceFact) : List String := (semanticUnits rows).values

/-! ### The index -/

def rowKey (subject predicate : String) : String := framed subject ++ predicate

structure SliceRowIndex where
  firstTexts : Table String
  nodeObjects : Table (List String)
  formNodes : Table (List String)
  semanticRoots : List String

/-- The loop over the rows, with the subjects that are semantic roots already. -/
structure RowIndexLoop extends SliceRowIndex where
  semanticSeen : Table Bool

def indexRow (index : RowIndexLoop) (row : SliceFact) : RowIndexLoop :=
  let text := textRow row
  let value := if text then rowText row else ""
  let key := rowKey row.subject row.predicate
  let objects := (Table.get index.nodeObjects key).getD []
  let forms := (Table.get index.formNodes value).getD []
  let newSemanticRoot := text && "semantic-unit-sha256" == row.predicate &&
    !(Table.get index.semanticSeen row.subject == some true)
  { firstTexts :=
      if text && (Table.get index.firstTexts key).isNone then
        Table.assoc index.firstTexts key value
      else index.firstTexts
    nodeObjects :=
      if text then index.nodeObjects
      else Table.assoc index.nodeObjects key (objects ++ [row.object])
    formNodes :=
      if text && "form-kind" == row.predicate then
        Table.assoc index.formNodes value (forms ++ [row.subject])
      else index.formNodes
    semanticRoots :=
      if newSemanticRoot then index.semanticRoots ++ [row.subject] else index.semanticRoots
    semanticSeen :=
      if newSemanticRoot then Table.assoc index.semanticSeen row.subject true
      else index.semanticSeen }

def rowIndexLoop (rows : List SliceFact) : RowIndexLoop :=
  rows.foldl indexRow ⟨⟨[], [], [], []⟩, []⟩

def buildRowIndex (rows : List SliceFact) : SliceRowIndex := (rowIndexLoop rows).toSliceRowIndex

def indexedFirstText (index : SliceRowIndex) (subject predicate : String) : Option String :=
  Table.get index.firstTexts (rowKey subject predicate)

def indexedNodeObjects (index : SliceRowIndex) (subject predicate : String) : List String :=
  (Table.get index.nodeObjects (rowKey subject predicate)).getD []

def indexedFormNodeNames (index : SliceRowIndex) (kind : String) : List String :=
  (Table.get index.formNodes kind).getD []

/-! ### Supported types -/

def atomKindSupported : AtomKind → Bool
  | .boolKind | .i64Kind | .f64Kind => true
  | .textKind | .bytesKind | .keywordKind | .refKind _ => false

def layoutScalar (layout : LayoutDef) : Bool :=
  match layout.shape with
  | .scalarShape _ => true
  | _ => false

def layoutRecord (layout : LayoutDef) : Bool :=
  match layout.shape with
  | .recordShape _ => true
  | _ => false

def typeSupported (typeDef : TypeDef) (layouts : List LayoutDef) : Bool :=
  let layout := findLayout layouts typeDef.id
  match typeDef.shape with
  | .atomType kind => layout.any layoutScalar && atomKindSupported kind
  | .recordType _ => layout.any layoutRecord
  | _ => false

def typeFieldRefs (definition : TypeDef) : List NativeId :=
  match definition.shape with
  | .recordType fields => fields.map (·.typeId)
  | _ => []

def recordType (definition : TypeDef) : Bool :=
  match definition.shape with
  | .recordType _ => true
  | _ => false

/-! ### The projection -/

def supportedRecordIds (types : List TypeDef) (layouts : List LayoutDef) : List NativeId :=
  (types.filter fun definition => recordType definition && typeSupported definition layouts).map
    (·.id)

/-- A field reference that a record among the candidates may have. -/
def referenceKept (types : List TypeDef) (layouts : List LayoutDef) (candidates : List NativeId)
    (reference : NativeId) : Bool :=
  match findType types reference with
  | none => false
  | some referenced =>
    if recordType referenced then decide (reference ∈ candidates)
    else typeSupported referenced layouts

def candidateKept (types : List TypeDef) (layouts : List LayoutDef) (candidates : List NativeId)
    (candidate : NativeId) : Bool :=
  match findType types candidate with
  | none => false
  | some definition => (typeFieldRefs definition).all (referenceKept types layouts candidates)

/-- The candidates that stay. -/
def nextCandidates (types : List TypeDef) (layouts : List LayoutDef)
    (candidates : List NativeId) : List NativeId :=
  candidates.filter (candidateKept types layouts candidates)

def closedRecordIds (types : List TypeDef) (layouts : List LayoutDef)
    (candidates : List NativeId) : List NativeId :=
  let next := nextCandidates types layouts candidates
  if _ : next.length = candidates.length then next else closedRecordIds types layouts next
termination_by candidates.length
decreasing_by exact Nat.lt_of_le_of_ne (List.length_filter_le _ _) ‹_›

def scalarIdsFor (types : List TypeDef) (records : List NativeId) : List NativeId :=
  records.foldl (fun ids record =>
      (((findType types record).map typeFieldRefs).getD []).foldl (fun collected reference =>
          if reference ∈ records ∨ reference ∈ collected then collected
          else collected ++ [reference])
        ids)
    []

structure SliceProjection where
  types : List TypeDef
  layouts : List LayoutDef

def c17Projection (types : List TypeDef) (layouts : List LayoutDef) : SliceProjection :=
  let records := closedRecordIds types layouts (supportedRecordIds types layouts)
  let kept := records ++ scalarIdsFor types records
  ⟨types.filter fun definition => decide (definition.id ∈ kept),
    layouts.filter fun layout => decide (layout.typeId ∈ kept)⟩

end Beagle.Slice
