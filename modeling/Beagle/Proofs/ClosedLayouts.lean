/-
Closed layouts keep fields apart, but not a tag from its payloads.

What the obligations accept has one layout for every type, whose shape is exact.  So the fields of
a record lie aligned inside it and apart from each other, and so does everything inside of them.
The tag and the payloads of a union lie aligned inside it; that they lie apart is the one pair of
ranges that is never compared.
-/
import Beagle.Lib.Bytes
import Beagle.Native.Layouts

namespace Beagle.Layouts

open Beagle.Lib.ByteRanges List
open Beagle.NativeCore

/-! ### Sound layouts -/

/-- A layout lies aligned inside another, at an offset. -/
structure Lies (outer : LayoutDef) (offset : Int) (inner : LayoutDef) : Prop where
  nonneg : 0 ≤ offset
  aligned : inner.alignBytes ∣ offset
  within : offset + inner.sizeBytes ≤ outer.sizeBytes

/-- Where a layout is found inside another, at any depth. -/
inductive Inside (layouts : List LayoutDef) (outer : LayoutDef) : Int → LayoutDef → Prop where
  | here : Inside layouts outer 0 outer
  | field {offset : Int} {record inner : LayoutDef} (outside : Inside layouts outer offset record)
      {fields : List FieldLayout} (shape : record.shape = .recordShape fields) {field : FieldLayout}
      (mem : field ∈ fields) (found : findLayout layouts field.typeId = some inner) :
      Inside layouts outer (offset + field.offsetBytes) inner
  | payload {offset : Int} {union inner : LayoutDef} (outside : Inside layouts outer offset union)
      {tagType : NativeId} {tagOffset : Int} {variants : List UnionVariantLayout}
      (shape : union.shape = .unionShape tagType tagOffset variants) {variant : UnionVariantLayout}
      (mem : variant ∈ variants) {payloadType : NativeId}
      (payload : variant.payloadType = some payloadType)
      (found : findLayout layouts payloadType = some inner) :
      Inside layouts outer (offset + variant.payloadOffsetBytes) inner

/-- A write of anything inside one layout keeps what is read of anything inside another. -/
def WriteKeeps (layouts : List LayoutDef) (offset : Int) (written : LayoutDef) (offset' : Int)
    (kept : LayoutDef) : Prop :=
  ∀ inner part, Inside layouts written inner part →
    ∀ inner' part', Inside layouts kept inner' part' →
    ∀ (memory : Memory) (base : Int) (bytes : List UInt8), bytes.length = part.sizeBytes →
      read (write memory (base + offset + inner) bytes) (base + offset' + inner') part'.sizeBytes =
        read memory (base + offset' + inner') part'.sizeBytes

/-- Two fields share no byte, and neither changes when the other is written. -/
def FieldsApart (layouts : List LayoutDef) (left right : FieldLayout) : Prop :=
  ∀ leftLayout rightLayout, findLayout layouts left.typeId = some leftLayout →
    findLayout layouts right.typeId = some rightLayout →
      Disjoint (range left.offsetBytes leftLayout.sizeBytes)
          (range right.offsetBytes rightLayout.sizeBytes) ∧
        WriteKeeps layouts left.offsetBytes leftLayout right.offsetBytes rightLayout ∧
        WriteKeeps layouts right.offsetBytes rightLayout left.offsetBytes leftLayout

structure RecordSound (layouts : List LayoutDef) (layout : LayoutDef) (fields : List FieldLayout) :
    Prop where
  placed : ∀ field ∈ fields, ∃ child, findLayout layouts field.typeId = some child ∧
    Lies layout field.offsetBytes child
  apart : fields.Pairwise (FieldsApart layouts)

structure UnionSound (layouts : List LayoutDef) (layout : LayoutDef) (tagType : NativeId)
    (tagOffset : Int) (variants : List UnionVariantLayout) : Prop where
  tag : ∃ tagLayout, findLayout layouts tagType = some tagLayout ∧ Lies layout tagOffset tagLayout
  payloads : ∀ variant ∈ variants, ∀ payloadType, variant.payloadType = some payloadType →
    ∃ payload, findLayout layouts payloadType = some payload ∧
      Lies layout variant.payloadOffsetBytes payload
  clear : ∀ variant ∈ variants, ∀ payloadType payload tagLayout,
    variant.payloadType = some payloadType → findLayout layouts payloadType = some payload →
    findLayout layouts tagType = some tagLayout → Disjoint (range tagOffset tagLayout.sizeBytes)
          (range variant.payloadOffsetBytes payload.sizeBytes) ∧
        WriteKeeps layouts variant.payloadOffsetBytes payload tagOffset tagLayout
  tags : (variants.map (·.tag)).Nodup

/-- Every record and every union of the program is laid out soundly. -/
structure LayoutsSound (program : NativeCoreProgram) : Prop where
  records : ∀ layout ∈ program.layouts, ∀ fields, layout.shape = .recordShape fields →
    RecordSound program.layouts layout fields
  unions : ∀ layout ∈ program.layouts, ∀ tagType tagOffset variants,
    layout.shape = .unionShape tagType tagOffset variants →
      UnionSound program.layouts layout tagType tagOffset variants

/-- The payload of a variant passes beside the tag as a field beside a field. -/
def payloadClear (layouts : List LayoutDef) (tagType : NativeId) (tagOffset : Int)
    (variant : UnionVariantLayout) : Bool :=
  match variant.payloadType with
  | none => true
  | some payloadType =>
    fieldsNonoverlapping layouts [⟨variant.variantId, tagType, tagOffset, 1⟩,
      ⟨variant.variantId, payloadType, variant.payloadOffsetBytes, 1⟩]

def tagsClear (layouts : List LayoutDef) : Bool :=
  layouts.all fun layout =>
    match layout.shape with
    | .unionShape tagType tagOffset variants =>
      variants.all (payloadClear layouts tagType tagOffset)
    | _ => true

/-! ### What the checks accept -/

section

variable {layouts : List LayoutDef}

theorem eq_of_layoutCount {layout fd : LayoutDef} (hmem : layout ∈ layouts)
    (hcnt : layoutCount layouts layout.typeId = 1)
    (hf : findLayout layouts layout.typeId = some fd) : fd = layout := by
  have hlen : (layouts.filter fun o => o.typeId == layout.typeId).length = 1 := by
    rw [← countP_eq_length_filter]
    exact hcnt
  obtain ⟨only, hon⟩ := length_eq_one_iff.mp hlen
  have hone : ∀ o ∈ layouts, o.typeId = layout.typeId → o = only := by
    intro o ho heq
    have hin : o ∈ layouts.filter fun o => o.typeId == layout.typeId :=
      mem_filter.mpr ⟨ho, by simpa using heq⟩
    rw [hon] at hin
    exact mem_singleton.mp hin
  rw [hone layout hmem rfl, hone fd (mem_of_find?_eq_some hf) (by simpa using find?_some hf)]

theorem fieldsNonoverlapping_cons {l : FieldLayout} {r : List FieldLayout}
    (h : fieldsNonoverlapping layouts (l :: r) = true) :
    (∃ ll, findLayout layouts l.typeId = some ll ∧
        clearOf layouts l.offsetBytes (l.offsetBytes + ll.sizeBytes) r = true) ∧
      fieldsNonoverlapping layouts r = true := by
  rw [fieldsNonoverlapping] at h
  cases hl : findLayout layouts l.typeId with
  | none => simp [hl] at h
  | some ll =>
    simp only [hl] at h
    by_cases hc : clearOf layouts l.offsetBytes (l.offsetBytes + ll.sizeBytes) r = true
    · rw [if_pos hc] at h
      exact ⟨⟨ll, rfl, hc⟩, h⟩
    · rw [if_neg hc] at h
      exact absurd h Bool.false_ne_true

variable {fields : List FieldLayout} {types : List TypeDef} {typeShape : TypeShape}
  {ps : Int}

theorem clearOf_iff {ls lee : Int} : clearOf layouts ls lee fields = true ↔
      ∀ r ∈ fields, ∃ rl, findLayout layouts r.typeId = some rl ∧
        (lee ≤ r.offsetBytes ∨ r.offsetBytes + rl.sizeBytes ≤ ls) := by
  induction fields with
  | nil => simp [clearOf]
  | cons r rs ih =>
    rw [clearOf, forall_mem_cons, ← ih]
    cases hr : findLayout layouts r.typeId with
    | none => simp
    | some rl =>
      by_cases ha : lee ≤ r.offsetBytes ∨ r.offsetBytes + rl.sizeBytes ≤ ls
      · simp [ha]
      · simp [ha]

theorem uniqueInts_iff {seen vs : List Int} :
    uniqueInts seen vs = true ↔ vs.Nodup ∧ ∀ v ∈ vs, v ∉ seen := by
  induction vs generalizing seen with
  | nil => simp [uniqueInts]
  | cons v r ih =>
    rw [uniqueInts, nodup_cons]
    by_cases hs : v ∈ seen
    · rw [if_pos hs]
      exact ⟨fun h => absurd h Bool.false_ne_true,
        fun h => absurd hs (h.2 v mem_cons_self)⟩
    · rw [if_neg hs, ih]
      constructor
      · rintro ⟨hnd, hnew⟩
        refine ⟨⟨fun hin => hnew v hin (mem_append_right _ (mem_singleton_self _)), hnd⟩, ?_⟩
        intro o ho
        rcases mem_cons.mp ho with rfl | ho
        · exact hs
        · exact fun hin => hnew o ho (mem_append_left _ hin)
      · rintro ⟨⟨hh, hnd⟩, hnew⟩
        refine ⟨hnd, fun o ho hin => ?_⟩
        rcases List.mem_append.mp hin with hin | hin
        · exact hnew o (mem_cons_of_mem _ ho) hin
        · exact hh (mem_singleton.mp hin ▸ ho)

theorem aligned_dvd {off a : Int} (h : aligned off a = true) : a ∣ off := by
  simp only [aligned, Bool.and_eq_true, decide_eq_true_eq] at h
  exact Int.dvd_of_emod_eq_zero h.2.symm

theorem record_of_exact {a : AbiProfile}
    (h : layoutShapeExact types typeShape (.recordShape fields) layouts ps a = true) :
    ∃ tf, recordLayoutValid tf fields layouts ps = true := by
  cases typeShape with
  | recordType tf => exact ⟨tf, h⟩
  | atomType k => cases k <;> simp [layoutShapeExact] at h
  | unionType _ => simp [layoutShapeExact] at h
  | vectorType et =>
    cases hf : findLayout layouts et <;>
      simp [layoutShapeExact, hf, LayoutShape.elements] at h
  | bufferType _ => simp [layoutShapeExact] at h
  | mapType _ _ _ => simp [layoutShapeExact, mapLayoutValid] at h
  | setType _ _ => simp [layoutShapeExact, setLayoutValid] at h
  | referenceType _ | atomCellType _ | functionType _ _ _ | outcomeType _ _ =>
    simp [layoutShapeExact] at h

theorem union_of_exact {tagType : NativeId} {tagOffset : Int} {vs : List UnionVariantLayout}
    {a : AbiProfile}
    (h : layoutShapeExact types typeShape (.unionShape tagType tagOffset vs) layouts ps a = true) :
    ∃ tv, unionLayoutValid tv tagType tagOffset vs layouts ps = true := by
  cases typeShape with
  | unionType tv => exact ⟨tv, h⟩
  | outcomeType vt ft =>
    cases hf : findType types ft with
    | none => simp [layoutShapeExact, hf] at h
    | some fd => exact ⟨fd.shape.variants, by simpa [layoutShapeExact, hf] using h⟩
  | atomType k => cases k <;> simp [layoutShapeExact] at h
  | recordType _ => simp [layoutShapeExact] at h
  | vectorType et =>
    cases hf : findLayout layouts et <;>
      simp [layoutShapeExact, hf, LayoutShape.elements] at h
  | bufferType _ => simp [layoutShapeExact] at h
  | mapType _ _ _ => simp [layoutShapeExact, mapLayoutValid] at h
  | setType _ _ => simp [layoutShapeExact, setLayoutValid] at h
  | referenceType _ | atomCellType _ | functionType _ _ _ => simp [layoutShapeExact] at h

end

/-! ### Programs that pass -/

/-- Both obligations on layouts pass. -/
structure LayoutsPass (program : NativeCoreProgram) (abi : AbiProfile) : Prop where
  refs : layoutsRefsClosed program.layouts program.types = true
  closed : closedLayouts program abi = .ok ()

section

variable {pr : NativeCoreProgram} {a : AbiProfile}

/-- What the obligations know of a layout. -/
structure Known (program : NativeCoreProgram) (abi : AbiProfile) (layout : LayoutDef) : Prop where
  size : 0 < layout.sizeBytes
  refs : layoutShapeRefsClosed layout.shape (typeMemberIds program.types)
    (typeIds program.types) = true
  exact_ : ∃ typeShape, layoutShapeExact program.types typeShape layout.shape program.layouts
    layout.sizeBytes abi = true

variable {layout : LayoutDef} {tagType : NativeId} {tagOffset : Int}

theorem LayoutsPass.known (h : LayoutsPass pr a) (hmem : layout ∈ pr.layouts) :
    Known pr a layout := by
  have hr := all_eq_true.mp h.refs layout hmem
  simp only [layoutRefsClosed, Bool.and_eq_true, decide_eq_true_eq] at hr
  obtain ⟨⟨⟨ht, _⟩, _⟩, hsh⟩ := hr
  obtain ⟨td, htd, hid⟩ := mem_map.mp ht
  have hcl : typeLayoutClosed pr.types pr.layouts td a = true := by
    have hok := h.closed
    rw [closedLayouts] at hok
    cases hfi : pr.types.find? fun td =>
        !typeLayoutClosed pr.types pr.layouts td a with
    | none => simpa using find?_eq_none.mp hfi td htd
    | some r => simp [hfi] at hok
  rw [typeLayoutClosed, hid] at hcl
  cases hf : findLayout pr.layouts layout.typeId with
  | none => simp [hf] at hcl
  | some fd =>
    simp only [hf, Bool.and_eq_true, decide_eq_true_eq, beq_iff_eq] at hcl
    obtain ⟨hcnt, ⟨⟨⟨hs, _⟩, _⟩, _⟩, he⟩ := hcl
    rw [eq_of_layoutCount hmem hcnt.symm hf] at hs he
    exact ⟨hs, hsh, td.shape, he⟩

theorem mem_of_findLayout {layouts : List LayoutDef} {ti : NativeId}
    (h : findLayout layouts ti = some layout) : layout ∈ layouts :=
  mem_of_find?_eq_some h

variable {fields : List FieldLayout} {off : Int} (h : LayoutsPass pr a)
include h

theorem LayoutsPass.fields_placed (hmem : layout ∈ pr.layouts)
    (hs : layout.shape = .recordShape fields) {f : FieldLayout} (hf : f ∈ fields) :
    ∃ child, findLayout pr.layouts f.typeId = some child ∧ Lies layout f.offsetBytes child := by
  have hk := h.known hmem
  obtain ⟨typeShape, he⟩ := hk.exact_
  have hr := hk.refs
  rw [hs] at he hr
  obtain ⟨tf, hv⟩ := record_of_exact he
  simp only [recordLayoutValid, Bool.and_eq_true] at hv
  have hp := all_eq_true.mp hv.1.2 f hf
  have hcl := all_eq_true.mp hr f hf
  simp only [fieldLayoutRefsClosed, Bool.and_eq_true, decide_eq_true_eq] at hcl
  rw [fieldLayoutValid] at hp
  cases hfi : findLayout pr.layouts f.typeId with
  | none => simp [hfi] at hp
  | some child =>
    simp only [hfi, Bool.and_eq_true, beq_iff_eq, decide_eq_true_eq] at hp
    obtain ⟨⟨ha, hsa⟩, hw⟩ := hp
    exact ⟨child, rfl, hcl.1.2, hsa ▸ aligned_dvd ha, hw⟩

variable {vs : List UnionVariantLayout}

/-- What the obligations know of a union. -/
theorem LayoutsPass.union (hmem : layout ∈ pr.layouts)
    (hs : layout.shape = .unionShape tagType tagOffset vs) :
    (∃ tl, findLayout pr.layouts tagType = some tl ∧ Lies layout tagOffset tl) ∧
      (∀ v ∈ vs, ∀ pt, v.payloadType = some pt → ∃ pl, findLayout pr.layouts pt = some pl ∧
          Lies layout v.payloadOffsetBytes pl) ∧
      (vs.map (·.tag)).Nodup := by
  have hk := h.known hmem
  obtain ⟨typeShape, he⟩ := hk.exact_
  have hr := hk.refs
  rw [hs] at he hr
  simp only [layoutShapeRefsClosed, Bool.and_eq_true, decide_eq_true_eq] at hr
  obtain ⟨tv, hv⟩ := union_of_exact he
  rw [unionLayoutValid] at hv
  cases htag : findLayout pr.layouts tagType with
  | none => simp [htag] at hv
  | some tl =>
    simp only [htag, Bool.and_eq_true, decide_eq_true_eq] at hv
    obtain ⟨⟨⟨⟨⟨⟨ha, hw⟩, _⟩, _⟩, _⟩, ht⟩, hp⟩ := hv
    refine ⟨⟨tl, rfl, hr.1.2, aligned_dvd ha, hw⟩, ?_, (uniqueInts_iff.mp ht).1⟩
    intro v hvar pt hpt
    have hpay := all_eq_true.mp hp v hvar
    have hcl := all_eq_true.mp hr.2 v hvar
    simp only [unionVariantLayoutRefsClosed, Bool.and_eq_true, decide_eq_true_eq] at hcl
    rw [unionPayloadValid, hpt] at hpay
    cases hf : findLayout pr.layouts pt with
    | none => simp [hf] at hpay
    | some pl =>
      simp only [hf, Bool.and_eq_true, decide_eq_true_eq] at hpay
      exact ⟨pl, rfl, hcl.2, aligned_dvd hpay.1, hpay.2⟩

/-- What is found inside a layout lies in its range. -/
theorem LayoutsPass.inside {o i : LayoutDef}
    (hins : Inside pr.layouts o off i) (ho : o ∈ pr.layouts) :
    i ∈ pr.layouts ∧ 0 ≤ off ∧ off + i.sizeBytes ≤ o.sizeBytes := by
  induction hins with
  | here => exact ⟨ho, le_refl _, by omega⟩
  | field _ sh mem fd ih =>
    obtain ⟨hrec, hnn, hw⟩ := ih
    obtain ⟨c, hc, hl⟩ := h.fields_placed hrec sh mem
    obtain rfl := Option.some.inj (fd.symm.trans hc)
    have hst := hl.nonneg
    have hend := hl.within
    exact ⟨mem_of_findLayout fd, by omega, by omega⟩
  | payload _ sh mem payload fd ih =>
    obtain ⟨hun, hnn, hw⟩ := ih
    obtain ⟨c, hc, hl⟩ := (h.union hun sh).2.1 _ mem _ payload
    obtain rfl := Option.some.inj (fd.symm.trans hc)
    have hst := hl.nonneg
    have hend := hl.within
    exact ⟨mem_of_findLayout fd, by omega, by omega⟩

/-- Layouts that share no byte keep each other when they are written. -/
theorem LayoutsPass.writeKeeps {w kept : LayoutDef} {off' : Int}
    (hw : w ∈ pr.layouts) (hk : kept ∈ pr.layouts)
    (hd : Disjoint (range off w.sizeBytes) (range off' kept.sizeBytes)) :
    WriteKeeps pr.layouts off w off' kept := by
  intro i p hins i' p' hins' m b bs hlen
  obtain ⟨_, hst, hend⟩ := h.inside hins hw
  obtain ⟨_, hst', hend'⟩ := h.inside hins' hk
  refine read_write_of_disjoint ?_
  rw [hlen]
  exact (disjoint_range_shift b hd).mono (range_subset (by omega) (by omega))
    (range_subset (by omega) (by omega))

theorem LayoutsPass.pairwise : ∀ {fields : List FieldLayout},
    fieldsNonoverlapping pr.layouts fields = true → fields.Pairwise (FieldsApart pr.layouts) := by
  intro fields
  induction fields with
  | nil => exact fun _ => .nil
  | cons l rs ih =>
    intro hc
    obtain ⟨⟨fd, hf, hre⟩, hm⟩ := fieldsNonoverlapping_cons hc
    refine .cons ?_ (ih hm)
    intro r hr ll rl hl hrl
    obtain rfl := Option.some.inj (hf.symm.trans hl)
    obtain ⟨o, ho, ha⟩ := clearOf_iff.mp hre r hr
    obtain rfl := Option.some.inj (ho.symm.trans hrl)
    have hd := disjoint_range_of_apart ha
    exact ⟨hd, h.writeKeeps (mem_of_findLayout hl) (mem_of_findLayout hrl) hd,
      h.writeKeeps (mem_of_findLayout hrl) (mem_of_findLayout hl) hd.symm⟩

/-- **The records of a program that passes are sound.** -/
theorem LayoutsPass.recordSound (hmem : layout ∈ pr.layouts)
    (hs : layout.shape = .recordShape fields) : RecordSound pr.layouts layout fields := by
  refine ⟨fun f hf => h.fields_placed hmem hs hf, ?_⟩
  obtain ⟨typeShape, he⟩ := (h.known hmem).exact_
  rw [hs] at he
  obtain ⟨tf, hv⟩ := record_of_exact he
  simp only [recordLayoutValid, Bool.and_eq_true] at hv
  exact h.pairwise hv.2

/-- A payload passes beside the tag just where they share no byte. -/
theorem LayoutsPass.payloadClear_iff {pt : NativeId} {v : UnionVariantLayout}
    {tl pl : LayoutDef} (htag : findLayout pr.layouts tagType = some tl)
    (ht : v.payloadType = some pt)
    (hpay : findLayout pr.layouts pt = some pl) :
    payloadClear pr.layouts tagType tagOffset v = true ↔
      Disjoint (range tagOffset tl.sizeBytes) (range v.payloadOffsetBytes pl.sizeBytes) := by
  rw [disjoint_range_iff (h.known (mem_of_findLayout htag)).size
    (h.known (mem_of_findLayout hpay)).size]
  simp [payloadClear, ht, fieldsNonoverlapping, clearOf, htag, hpay]

theorem LayoutsPass.tagsClear_of_sound (hso : LayoutsSound pr) : tagsClear pr.layouts = true := by
  refine all_eq_true.mpr fun layout hmem => ?_
  cases hs : layout.shape with
  | unionShape tagType tagOffset vs =>
    refine all_eq_true.mpr fun v hvar => ?_
    obtain ⟨⟨tl, htag, _⟩, hp, _⟩ := h.union hmem hs
    cases ht : v.payloadType with
    | none => simp [payloadClear, ht]
    | some pt =>
      obtain ⟨pl, hpay, _⟩ := hp v hvar pt ht
      rw [h.payloadClear_iff htag ht hpay]
      exact ((hso.unions layout hmem _ _ _ hs).clear v hvar pt pl tl ht hpay htag).1
  | _ => rfl

theorem LayoutsPass.unionSound (hc : tagsClear pr.layouts = true)
    (hmem : layout ∈ pr.layouts)
    (hs : layout.shape = .unionShape tagType tagOffset vs) :
    UnionSound pr.layouts layout tagType tagOffset vs := by
  obtain ⟨htag, hp, ht⟩ := h.union hmem hs
  refine ⟨htag, hp, ?_, ht⟩
  intro v hvar pt pl tl hty hpay htl
  have hl := all_eq_true.mp hc layout hmem
  rw [hs] at hl
  have hvc := all_eq_true.mp hl v hvar
  have hd := (h.payloadClear_iff htl hty hpay).mp hvc
  exact ⟨hd, h.writeKeeps (mem_of_findLayout hpay) (mem_of_findLayout htl) hd.symm⟩

end

/-- **Closed layouts**: the layouts of a program that passes are sound just where no union lays a
payload over its tag. -/
theorem layoutsSound_iff_tagsClear (program : NativeCoreProgram) (abi : AbiProfile)
    (h : LayoutsPass program abi) :
    LayoutsSound program ↔ tagsClear program.layouts = true := by
  constructor
  · exact h.tagsClear_of_sound
  · exact fun hc => ⟨fun layout hmem fields hs => h.recordSound hmem hs,
      fun layout hmem tagType tagOffset vs hs => h.unionSound hc hmem hs⟩

/-- A word, and a union whose only payload lies behind its tag. -/
def payloadBehindTag : NativeCoreProgram where
  types := [⟨⟨"word"⟩, "I64", .atomType .i64Kind⟩,
    ⟨⟨"box"⟩, "Box", .unionType [⟨⟨"full"⟩, "Full", some ⟨"word"⟩⟩]⟩]
  layouts := [⟨⟨"word-layout"⟩, ⟨"word"⟩, 8, 8, .scalarShape (.signedIntRepr 64)⟩,
    ⟨⟨"box-layout"⟩, ⟨"box"⟩, 16, 8, .unionShape ⟨"word"⟩ 0 [⟨⟨"full"⟩, 0, some ⟨"word"⟩, 8⟩]⟩]

theorem layoutsSound_payloadBehindTag : LayoutsSound payloadBehindTag :=
  (layoutsSound_iff_tagsClear payloadBehindTag abiProfileLp64 ⟨by decide, by rfl⟩).mpr (by decide)

/-- A word, and a union whose only payload lies where its tag does. -/
def tagUnderPayload : NativeCoreProgram where
  types := [⟨⟨"word"⟩, "I64", .atomType .i64Kind⟩,
    ⟨⟨"box"⟩, "Box", .unionType [⟨⟨"full"⟩, "Full", some ⟨"word"⟩⟩]⟩]
  layouts := [⟨⟨"word-layout"⟩, ⟨"word"⟩, 8, 8, .scalarShape (.signedIntRepr 64)⟩,
    ⟨⟨"box-layout"⟩, ⟨"box"⟩, 8, 8, .unionShape ⟨"word"⟩ 0 [⟨⟨"full"⟩, 0, some ⟨"word"⟩, 0⟩]⟩]

/-- The obligations accept a union whose payload overwrites its tag. -/
theorem payload_over_tag :
    ¬∀ (program : NativeCoreProgram) (abi : AbiProfile), LayoutsPass program abi →
      LayoutsSound program := by
  intro h
  have hp : LayoutsPass tagUnderPayload abiProfileLp64 := ⟨by decide, by rfl⟩
  have hc := hp.tagsClear_of_sound (h _ _ hp)
  exact absurd hc (by decide)

end Beagle.Layouts
