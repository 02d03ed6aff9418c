/-
The layouts of types.

A layout gives a type its size, its alignment and its shape: where a record has its fields, where a
union has its tag and its payloads, what the handles refer to.  Closed layouts are checked type by
type: there is just one layout, and its shape is exact for the shape of the type.

Dynamic reads of a shape that has no such key give what the source gives for them.
-/
import Beagle.Native.Core

namespace Beagle.Layouts

open Beagle.NativeCore

/-! ### Types -/

inductive AtomKind where
  | boolKind
  | i64Kind
  | f64Kind
  | textKind
  | bytesKind
  | keywordKind
  | refKind (target : NativeId)

structure TypeField where
  id : NativeId
  name : String
  typeId : NativeId

structure TypeVariant where
  id : NativeId
  name : String
  payloadType : Option NativeId

/-- The one order of collections, by insertion. -/
structure CollectionOrder where
  token : Bool
deriving DecidableEq

inductive TypeShape where
  | atomType (kind : AtomKind)
  | recordType (fields : List TypeField)
  | unionType (variants : List TypeVariant)
  | vectorType (elementType : NativeId)
  | bufferType (elementType : NativeId)
  | mapType (keyType valueType : NativeId) (iterationOrder : CollectionOrder)
  | setType (elementType : NativeId) (iterationOrder : CollectionOrder)
  | referenceType (targetType : NativeId)
  | atomCellType (contentType : NativeId)
  | functionType (parameterTypes : List NativeId) (restType : Option NativeId)
      (returnType : NativeId)
  | outcomeType (valueType failureType : NativeId)

structure TypeDef where
  id : NativeId
  name : String
  shape : TypeShape

def typeShapeOwnedIds : TypeShape → List NativeId
  | .recordType fields => fields.map (·.id)
  | .unionType variants => variants.map (·.id)
  | _ => []

def typeIds (types : List TypeDef) : List NativeId := types.map (·.id)

def typeMemberIds (types : List TypeDef) : List NativeId :=
  types.flatMap fun typeDef => typeShapeOwnedIds typeDef.shape

def findType (types : List TypeDef) (typeId : NativeId) : Option TypeDef :=
  types.find? fun typeDef => typeDef.id == typeId

/-- `(get type-shape :variants [])` -/
def TypeShape.variants : TypeShape → List TypeVariant
  | .unionType variants => variants
  | _ => []

/-! ### Layouts -/

inductive ScalarRepr where
  | boolRepr (bitWidth : Int)
  | signedIntRepr (bitWidth : Int)
  | unsignedIntRepr (bitWidth : Int)
  | floatRepr (bitWidth : Int)

def ScalarRepr.bitWidth : ScalarRepr → Int
  | .boolRepr bitWidth => bitWidth
  | .signedIntRepr bitWidth => bitWidth
  | .unsignedIntRepr bitWidth => bitWidth
  | .floatRepr bitWidth => bitWidth

structure FieldLayout where
  fieldId : NativeId
  typeId : NativeId
  offsetBytes : Int
  alignBytes : Int

structure UnionVariantLayout where
  variantId : NativeId
  tag : Int
  payloadType : Option NativeId
  payloadOffsetBytes : Int

inductive LayoutShape where
  | scalarShape (representation : ScalarRepr)
  | bytesShape
  | recordShape (fields : List FieldLayout)
  | unionShape (tagType : NativeId) (tagOffsetBytes : Int) (variants : List UnionVariantLayout)
  | vectorShape (elementType : NativeId) (strideBytes : Int)
  | bufferShape (elementType : NativeId) (strideBytes alignBytes : Int)
  | mapShape (keyType : NativeId) (keyStrideBytes keyAlignBytes : Int) (valueType : NativeId)
      (valueStrideBytes valueAlignBytes : Int) (iterationOrder : CollectionOrder)
  | setShape (elementType : NativeId) (strideBytes alignBytes : Int)
      (iterationOrder : CollectionOrder)
  | closureShape
  | referenceShape (targetType : NativeId)
  | atomCellShape (contentType : NativeId)

structure LayoutDef where
  id : NativeId
  typeId : NativeId
  sizeBytes : Int
  alignBytes : Int
  shape : LayoutShape

structure AbiProfile where
  id : String
  pointerBytes : Int
  pointerAlign : Int
  sizeTBytes : Int
  sizeTAlign : Int

structure NativeCoreProgram where
  types : List TypeDef
  layouts : List LayoutDef

def abiProfileLp64 : AbiProfile := ⟨"lp64", 8, 8, 8, 8⟩

def abiAlignUp (offset alignment : Int) : Int :=
  if alignment ≤ 1 then offset else alignment * (offset + (alignment - 1)).tdiv alignment

def abiBytesSpanSize (abi : AbiProfile) : Int :=
  abiAlignUp abi.pointerBytes abi.sizeTAlign + abi.sizeTBytes

def abiBytesSpanAlign (abi : AbiProfile) : Int :=
  if abi.pointerAlign > abi.sizeTAlign then abi.pointerAlign else abi.sizeTAlign

/-! ### References of layouts -/

def optionalIdIn (candidate : Option NativeId) (allowed : List NativeId) : Bool :=
  match candidate with
  | none => true
  | some id => decide (id ∈ allowed)

def fieldLayoutRefsClosed (field : FieldLayout) (knownMembers knownTypes : List NativeId) : Bool :=
  decide (field.fieldId ∈ knownMembers) && decide (field.typeId ∈ knownTypes) &&
    decide (field.offsetBytes ≥ 0) && decide (field.alignBytes > 0)

def unionVariantLayoutRefsClosed (variant : UnionVariantLayout)
    (knownMembers knownTypes : List NativeId) : Bool :=
  decide (variant.variantId ∈ knownMembers) && optionalIdIn variant.payloadType knownTypes &&
    decide (variant.payloadOffsetBytes ≥ 0)

def layoutShapeRefsClosed (shape : LayoutShape) (knownMembers knownTypes : List NativeId) : Bool :=
  match shape with
  | .scalarShape _ => true
  | .bytesShape => true
  | .recordShape fields => fields.all fun field => fieldLayoutRefsClosed field knownMembers knownTypes
  | .unionShape tagType tagOffsetBytes variants =>
    decide (tagType ∈ knownTypes) && decide (tagOffsetBytes ≥ 0) &&
      variants.all fun variant => unionVariantLayoutRefsClosed variant knownMembers knownTypes
  | .vectorShape elementType strideBytes =>
    decide (elementType ∈ knownTypes) && decide (strideBytes > 0)
  | .bufferShape elementType strideBytes alignBytes =>
    decide (elementType ∈ knownTypes) && decide (strideBytes > 0) && decide (alignBytes > 0)
  | .mapShape keyType keyStrideBytes keyAlignBytes valueType valueStrideBytes valueAlignBytes _ =>
    decide (keyType ∈ knownTypes) && decide (keyStrideBytes > 0) && decide (keyAlignBytes > 0) &&
      decide (valueType ∈ knownTypes) && decide (valueStrideBytes > 0) &&
      decide (valueAlignBytes > 0)
  | .setShape elementType strideBytes alignBytes _ =>
    decide (elementType ∈ knownTypes) && decide (strideBytes > 0) && decide (alignBytes > 0)
  | .closureShape => true
  | .referenceShape targetType => decide (targetType ∈ knownTypes)
  | .atomCellShape contentType => decide (contentType ∈ knownTypes)

def layoutRefsClosed (layout : LayoutDef) (knownMembers knownTypes : List NativeId) : Bool :=
  decide (layout.typeId ∈ knownTypes) && decide (layout.sizeBytes ≥ 0) &&
    decide (layout.alignBytes > 0) && layoutShapeRefsClosed layout.shape knownMembers knownTypes

def layoutsRefsClosed (layouts : List LayoutDef) (types : List TypeDef) : Bool :=
  let knownTypes := typeIds types
  let knownMembers := typeMemberIds types
  layouts.all fun layout => layoutRefsClosed layout knownMembers knownTypes

/-! ### Exact shapes -/

def findLayout (layouts : List LayoutDef) (typeId : NativeId) : Option LayoutDef :=
  layouts.find? fun layout => layout.typeId == typeId

def layoutCount (layouts : List LayoutDef) (typeId : NativeId) : Nat :=
  layouts.countP fun layout => layout.typeId == typeId

def aligned (offset alignment : Int) : Bool :=
  decide (alignment > 0) && decide (0 = offset % alignment)

def fieldLayoutValid (layouts : List LayoutDef) (parentSize : Int) (field : FieldLayout) : Bool :=
  match findLayout layouts field.typeId with
  | none => false
  | some child =>
    aligned field.offsetBytes field.alignBytes && field.alignBytes == child.alignBytes &&
      decide (field.offsetBytes + child.sizeBytes ≤ parentSize)

/-- The loop of `fields-nonoverlapping?` over the fields behind the left one. -/
def clearOf (layouts : List LayoutDef) (leftStart leftEnd : Int) : List FieldLayout → Bool
  | [] => true
  | right :: rest =>
    match findLayout layouts right.typeId with
    | none => false
    | some rightLayout =>
      let rightStart := right.offsetBytes
      let rightEnd := rightStart + rightLayout.sizeBytes
      if leftEnd ≤ rightStart ∨ rightEnd ≤ leftStart then
        clearOf layouts leftStart leftEnd rest
      else false

def fieldsNonoverlapping (layouts : List LayoutDef) : List FieldLayout → Bool
  | [] => true
  | left :: rest =>
    match findLayout layouts left.typeId with
    | none => false
    | some leftLayout =>
      let leftStart := left.offsetBytes
      let leftEnd := leftStart + leftLayout.sizeBytes
      if clearOf layouts leftStart leftEnd rest then fieldsNonoverlapping layouts rest
      else false

/-- The loop of `unique-ints?`, with the values seen so far. -/
def uniqueInts (seen : List Int) : List Int → Bool
  | [] => true
  | value :: rest => if value ∈ seen then false else uniqueInts (seen ++ [value]) rest

def recordLayoutValid (typeFields : List TypeField) (fields : List FieldLayout)
    (layouts : List LayoutDef) (parentSize : Int) : Bool :=
  let expectedIds := typeFields.map (·.id)
  let fieldIds := fields.map (·.fieldId)
  expectedIds.length == fieldIds.length && uniqueIds fieldIds && idsIn expectedIds fieldIds &&
    fields.all (fieldLayoutValid layouts parentSize) && fieldsNonoverlapping layouts fields

def unionPayloadValid (layouts : List LayoutDef) (parentSize : Int)
    (variant : UnionVariantLayout) : Bool :=
  match variant.payloadType with
  | none => decide (variant.payloadOffsetBytes ≥ 0)
  | some payloadType =>
    match findLayout layouts payloadType with
    | none => false
    | some payloadLayout =>
      aligned variant.payloadOffsetBytes payloadLayout.alignBytes &&
        decide (variant.payloadOffsetBytes + payloadLayout.sizeBytes ≤ parentSize)

def unionLayoutValid (typeVariants : List TypeVariant) (tagType : NativeId) (tagOffset : Int)
    (variants : List UnionVariantLayout) (layouts : List LayoutDef) (parentSize : Int) : Bool :=
  let expectedIds := typeVariants.map (·.id)
  let variantIds := variants.map (·.variantId)
  match findLayout layouts tagType with
  | none => false
  | some tagLayout =>
    aligned tagOffset tagLayout.alignBytes &&
      decide (tagOffset + tagLayout.sizeBytes ≤ parentSize) &&
      expectedIds.length == variantIds.length && uniqueIds variantIds &&
      idsIn expectedIds variantIds && uniqueInts [] (variants.map (·.tag)) &&
      variants.all (unionPayloadValid layouts parentSize)

def mapLayoutValid (keyType valueType : NativeId) (order : CollectionOrder) (shape : LayoutShape)
    (layouts : List LayoutDef) (parentSize : Int) : Bool :=
  match findLayout layouts keyType, findLayout layouts valueType, shape with
  | some keyLayout, some valueLayout,
      .mapShape layoutKey keyStride keyAlign layoutValue valueStride valueAlign layoutOrder =>
      keyType == layoutKey && valueType == layoutValue && keyStride == keyLayout.sizeBytes &&
        keyAlign == keyLayout.alignBytes && valueStride == valueLayout.sizeBytes &&
        valueAlign == valueLayout.alignBytes && order == layoutOrder && decide (parentSize > 0)
  | _, _, _ => false

def setLayoutValid (elementType : NativeId) (order : CollectionOrder) (shape : LayoutShape)
    (layouts : List LayoutDef) (parentSize : Int) : Bool :=
  match findLayout layouts elementType, shape with
  | some elementLayout, .setShape layoutElement stride align layoutOrder =>
    elementType == layoutElement && stride == elementLayout.sizeBytes &&
      align == elementLayout.alignBytes && order == layoutOrder && decide (parentSize > 0)
  | _, _ => false

/-- `(get layout-shape :element-type nil)` and `(get layout-shape :stride-bytes 0)`. -/
def LayoutShape.elements : LayoutShape → Option NativeId × Int
  | .vectorShape elementType strideBytes => (some elementType, strideBytes)
  | .bufferShape elementType strideBytes _ => (some elementType, strideBytes)
  | .setShape elementType strideBytes _ _ => (some elementType, strideBytes)
  | _ => (none, 0)

def layoutShapeExact (types : List TypeDef) (typeShape : TypeShape) (layoutShape : LayoutShape)
    (layouts : List LayoutDef) (parentSize : Int) (abi : AbiProfile) : Bool :=
  match typeShape with
  | .functionType _ _ _ =>
    match layoutShape with
    | .closureShape => parentSize == 2 * abi.pointerBytes
    | _ => false
  | .atomType .bytesKind =>
    match layoutShape with
    | .bytesShape => parentSize == abiBytesSpanSize abi
    | _ => false
  | .atomType _ =>
    match layoutShape with
    | .scalarShape representation =>
      decide (representation.bitWidth > 0) && decide (0 = representation.bitWidth % 8) &&
        decide (representation.bitWidth.tdiv 8 ≤ parentSize)
    | _ => false
  | .recordType typeFields =>
    match layoutShape with
    | .recordShape fields => recordLayoutValid typeFields fields layouts parentSize
    | _ => false
  | .unionType typeVariants =>
    match layoutShape with
    | .unionShape tagType tagOffset variants =>
      unionLayoutValid typeVariants tagType tagOffset variants layouts parentSize
    | _ => false
  | .mapType keyType valueType order =>
    mapLayoutValid keyType valueType order layoutShape layouts parentSize
  | .setType elementType order => setLayoutValid elementType order layoutShape layouts parentSize
  | .bufferType elementType =>
    match layoutShape, findLayout layouts elementType with
    | .bufferShape layoutElement stride align, some elementLayout =>
      elementType == layoutElement && stride == elementLayout.sizeBytes &&
        align == elementLayout.alignBytes && decide (parentSize > 0)
    | _, _ => false
  | .vectorType elementType =>
    match findLayout layouts elementType with
    | none => false
    | some elementLayout =>
      some elementType == layoutShape.elements.1 && decide (layoutShape.elements.2 > 0) &&
        aligned layoutShape.elements.2 elementLayout.alignBytes &&
        decide (elementLayout.sizeBytes ≤ layoutShape.elements.2)
  | .referenceType targetType =>
    match layoutShape with
    | .referenceShape layoutTarget =>
      targetType == layoutTarget && (findLayout layouts targetType).isSome &&
        decide (parentSize > 0)
    | _ => false
  | .atomCellType contentType =>
    match layoutShape with
    | .atomCellShape layoutContent =>
      contentType == layoutContent && (findLayout layouts contentType).isSome &&
        decide (parentSize > 0)
    | _ => false
  | .outcomeType _ failureType =>
    match findType types failureType, layoutShape with
    | some failureDef, .unionShape tagType tagOffset variants =>
      unionLayoutValid failureDef.shape.variants tagType tagOffset variants layouts parentSize
    | _, _ => false

/-! ### Closed layouts -/

def abiWidthsDeclared (abi : AbiProfile) (layout : LayoutDef) : Bool :=
  match layout.shape with
  | .referenceShape _ | .atomCellShape _ | .vectorShape _ _ | .bufferShape _ _ _
  | .mapShape _ _ _ _ _ _ _ | .setShape _ _ _ _ =>
    layout.sizeBytes == abi.pointerBytes && layout.alignBytes == abi.pointerAlign
  | .closureShape =>
    layout.sizeBytes == 2 * abi.pointerBytes && layout.alignBytes == abi.pointerAlign
  | .bytesShape =>
    layout.sizeBytes == abiBytesSpanSize abi && layout.alignBytes == abiBytesSpanAlign abi
  | _ => true

def typeLayoutClosed (types : List TypeDef) (layouts : List LayoutDef) (typeDef : TypeDef)
    (abi : AbiProfile) : Bool :=
  1 == layoutCount layouts typeDef.id &&
    match findLayout layouts typeDef.id with
    | none => false
    | some layout =>
      decide (layout.sizeBytes > 0) && decide (layout.alignBytes > 0) &&
        decide (0 = layout.sizeBytes % layout.alignBytes) && abiWidthsDeclared abi layout &&
        layoutShapeExact types typeDef.shape layout.shape layouts layout.sizeBytes abi

/-- The obligation passes, or names the first type whose layout is not closed. -/
def closedLayouts (program : NativeCoreProgram) (abi : AbiProfile) : Except NativeId Unit :=
  match program.types.find? fun typeDef =>
      !typeLayoutClosed program.types program.layouts typeDef abi with
  | none => .ok ()
  | some typeDef => .error typeDef.id

end Beagle.Layouts
