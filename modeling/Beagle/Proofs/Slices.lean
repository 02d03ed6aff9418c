/-
What the slice driver computes.

The index answers as a scan of the rows does: a key tells its subject and its predicate, and each
row puts into the tables what the scans add for it.  The records of the projection shrink to the
largest closed set: a set that is closed stays among the candidates through every round.
-/
import Beagle.Native.Slice
import Beagle.Proofs.Dominance

namespace Beagle.Slice

open Beagle.Layouts List
open Beagle.NativeCore
open Beagle.Obligations

/-! ### The row index -/

theorem rowKey_eq {s p s' p' : String} : rowKey s p = rowKey s' p' ↔ s = s' ∧ p = p' := by
  constructor
  · exact Beagle.Lib.Records.framed_inj
  · intro h
    rw [h.1, h.2]

/-- The tables hold what the scans of the rows find. -/
structure Agrees (rows : List SliceFact) (index : RowIndexLoop) : Prop where
  firstTexts : ∀ s p, Table.get index.firstTexts (rowKey s p) = rowFirstText rows s p
  nodeObjects : ∀ s p,
    (Table.get index.nodeObjects (rowKey s p)).getD [] = rowNodeObjects rows s p
  formNodes : ∀ kind, (Table.get index.formNodes kind).getD [] = formNodeNames rows kind
  units : ⟨index.semanticRoots, index.semanticSeen⟩ = semanticUnits rows

variable {rs : List SliceFact} {i : RowIndexLoop}

theorem Agrees.step (h : Agrees rs i) (row : SliceFact) :
    Agrees (rs ++ [row]) (indexRow i row) := by
  constructor
  · intro s p
    have hold := h.firstTexts s p
    rw [rowFirstText, findSome?_append, ← rowFirstText, ← hold]
    by_cases ht : textRow row = true
    · by_cases hk : rowKey row.subject row.predicate = rowKey s p
      · have hsp := rowKey_eq.mp hk.symm
        rw [← hk]
        cases hget : Table.get i.firstTexts (rowKey row.subject row.predicate) with
        | none => simp [indexRow, ht, hget, Table.get_assoc, hsp.1, hsp.2]
        | some v => simp [indexRow, ht, hget]
      · have hsp := mt rowKey_eq.mpr (Ne.symm hk)
        have hnew : ¬ (s = row.subject ∧ p = row.predicate ∧ textRow row = true) :=
          fun heq => hsp ⟨heq.1, heq.2.1⟩
        simp only [indexRow, findSome?_cons, findSome?_nil, if_neg hnew, Option.or_none]
        split
        · rw [Table.get_assoc_of_ne hk]
        · rfl
    · simp [indexRow, ht]
  · intro s p
    have hold := h.nodeObjects s p
    rw [rowNodeObjects, foldl_append, ← rowNodeObjects, ← hold]
    by_cases ht : textRow row = true
    · simp [indexRow, ht]
    · by_cases hk : rowKey row.subject row.predicate = rowKey s p
      · obtain ⟨rfl, rfl⟩ := rowKey_eq.mp hk
        simp [indexRow, ht, Table.get_assoc]
      · have hsp := mt rowKey_eq.mpr (Ne.symm hk)
        have hnew : s = row.subject → ¬ p = row.predicate := fun hs hp => hsp ⟨hs, hp⟩
        simpa [indexRow, ht, Table.get_assoc_of_ne hk] using hnew
  · intro k
    have hold := h.formNodes k
    rw [formNodeNames, foldl_append, ← formNodeNames, ← hold]
    by_cases ht : textRow row = true ∧ "form-kind" = row.predicate
    · by_cases hv : rowText row = k
      · simp [indexRow, ← ht.2, ht.1, hv, Table.get_assoc]
      · simp [indexRow, ← ht.2, ht.1, Ne.symm hv, Table.get_assoc, hv]
    · have hnew : ¬ ("form-kind" = row.predicate ∧ textRow row = true ∧ k = rowText row) :=
        fun heq => ht ⟨heq.2.1, heq.1⟩
      have hb : (textRow row && "form-kind" == row.predicate) = false := by
        simpa using ht
      simp only [indexRow, hb, foldl_cons, foldl_nil, if_neg hnew]
      rfl
  · rw [semanticUnits, foldl_append, ← semanticUnits, ← h.units]
    by_cases ht : "semantic-unit-sha256" = row.predicate ∧ textRow row = true
    · by_cases hs : Table.get i.semanticSeen row.subject = some true
      · simp [indexRow, addUniqueString, ← ht.1, ht.2, hs]
      · simp [indexRow, addUniqueString, ← ht.1, ht.2, hs]
    · have hb : (textRow row && "semantic-unit-sha256" == row.predicate) = false := by
        simpa using fun hte heq => ht ⟨heq, hte⟩
      simp only [indexRow, hb, foldl_cons, foldl_nil, if_neg ht]
      rfl

theorem agrees_rowIndexLoop (rs : List SliceFact) : Agrees rs (rowIndexLoop rs) := by
  induction rs using List.reverseRecOn with
  | nil => exact ⟨fun _ _ => rfl, fun _ _ => rfl, fun _ => rfl, rfl⟩
  | append_singleton rs row ih =>
    rw [rowIndexLoop, foldl_append]
    exact ih.step row

/-- **Every lookup of the index gives what a scan of the rows gives.** -/
theorem index_agrees (rows : List SliceFact) :
    (∀ sb pd, indexedFirstText (buildRowIndex rows) sb pd = rowFirstText rows sb pd ∧
      indexedNodeObjects (buildRowIndex rows) sb pd = rowNodeObjects rows sb pd) ∧
    (∀ k, indexedFormNodeNames (buildRowIndex rows) k = formNodeNames rows k) ∧
    (buildRowIndex rows).semanticRoots = semanticUnitNodeNames rows := by
  have h := agrees_rowIndexLoop rows
  refine ⟨fun s p => ⟨h.firstTexts s p, h.nodeObjects s p⟩, h.formNodes, ?_⟩
  exact congrArg UniqueStrings.values h.units

/-! ### The largest closed set -/

/-- Records that are supported, whose fields are of records among them or of types that are
supported and no records. -/
def ClosedRecords (types : List TypeDef) (layouts : List LayoutDef) (ids : Set NativeId) : Prop :=
  ∀ id ∈ ids, ∃ definition ∈ types, definition.id = id ∧ recordType definition = true ∧
    typeSupported definition layouts = true ∧ ∀ reference ∈ typeFieldRefs definition,
      reference ∈ ids ∨ ∃ referenced ∈ types, referenced.id = reference ∧
        recordType referenced = false ∧ typeSupported referenced layouts = true

variable {tys : List TypeDef} {ls : List LayoutDef} {id : NativeId}

/-- With distinct identities a type is found by its identity. -/
theorem findType_iff (hnd : (typeIds tys).Nodup) {d : TypeDef} :
    findType tys id = some d ↔ d ∈ tys ∧ d.id = id := by
  unfold typeIds at hnd
  unfold findType
  induction tys with
  | nil => simp
  | cons t ts ih =>
    rw [map_cons, nodup_cons] at hnd
    rw [find?_cons, mem_cons]
    by_cases hid : t.id = id
    · rw [beq_iff_eq.mpr hid]
      constructor
      · intro h
        obtain rfl := Option.some.inj h
        exact ⟨.inl rfl, hid⟩
      · rintro ⟨rfl | hmem, heq⟩
        · rfl
        · exact absurd (mem_map.mpr ⟨d, hmem, heq.trans hid.symm⟩) hnd.1
    · rw [beq_eq_false_iff_ne.mpr hid, ih hnd.2]
      constructor
      · exact fun h => ⟨.inr h.1, h.2⟩
      · rintro ⟨rfl | hmem, heq⟩
        · exact absurd heq hid
        · exact ⟨hmem, heq⟩

variable {ids : List NativeId}

theorem referenceKept_iff (hnd : (typeIds tys).Nodup) {r : NativeId} :
    referenceKept tys ls ids r = true ↔ ∃ o ∈ tys, o.id = r ∧
      if recordType o then r ∈ ids else typeSupported o ls = true := by
  unfold referenceKept
  cases hf : findType tys r with
  | none =>
    refine ⟨fun h => absurd h Bool.false_ne_true, fun ⟨o, ho, hid, _⟩ => ?_⟩
    rw [(findType_iff hnd).mpr ⟨ho, hid⟩] at hf
    cases hf
  | some d =>
    have hd := (findType_iff hnd).mp hf
    constructor
    · intro h
      refine ⟨d, hd.1, hd.2, ?_⟩
      by_cases hr : recordType d = true
      · simpa [hr] using h
      · simpa [hr] using h
    · rintro ⟨o, ho, hid, h⟩
      rw [(findType_iff hnd).mpr ⟨ho, hid⟩] at hf
      obtain rfl := Option.some.inj hf
      by_cases hr : recordType o = true
      · simpa [hr] using h
      · simpa [hr] using h

theorem mem_supportedRecordIds : id ∈ supportedRecordIds tys ls ↔
    ∃ d ∈ tys, d.id = id ∧ recordType d = true ∧ typeSupported d ls = true := by
  simp only [supportedRecordIds, mem_map, mem_filter, Bool.and_eq_true]
  constructor
  · rintro ⟨d, ⟨hmem, hr, hs⟩, hid⟩
    exact ⟨d, hmem, hid, hr, hs⟩
  · rintro ⟨d, hmem, hid, hr, hs⟩
    exact ⟨d, ⟨hmem, hr, hs⟩, hid⟩

/-- The loop ends with candidates that all stay, and loses no set that every round keeps. -/
theorem closedRecordIds_spec (ids : List NativeId) : closedRecordIds tys ls ids ⊆ ids ∧
    (∀ id ∈ closedRecordIds tys ls ids,
      candidateKept tys ls (closedRecordIds tys ls ids) id = true) ∧
    ∀ S : Set NativeId,
      (∀ os : List NativeId, (∀ id ∈ S, id ∈ os) → ∀ id ∈ S, id ∈ nextCandidates tys ls os) →
      (∀ id ∈ S, id ∈ ids) → ∀ id ∈ S, id ∈ closedRecordIds tys ls ids := by
  induction ids using closedRecordIds.induct tys ls with
  | case1 ids next h =>
    have hsame : nextCandidates tys ls ids = ids := filter_sublist.eq_of_length h
    rw [closedRecordIds, dif_pos h, hsame]
    exact ⟨Subset.refl ids, filter_eq_self.mp hsame, fun S _ hS => hS⟩
  | case2 ids next h ih =>
    rw [closedRecordIds, dif_neg h]
    exact ⟨Subset.trans ih.1 filter_sublist.subset, ih.2.1,
      fun S hkeep hS => ih.2.2 S hkeep (hkeep ids hS)⟩

theorem ClosedRecords.keeps (hnd : (typeIds tys).Nodup) {S : Set NativeId}
    (h : ClosedRecords tys ls S) (hS : ∀ id ∈ S, id ∈ ids) :
    ∀ id ∈ S, id ∈ nextCandidates tys ls ids := by
  intro id hid
  obtain ⟨d, hd, heq, -, -, hrefs⟩ := h id hid
  refine mem_filter.mpr ⟨hS id hid, ?_⟩
  rw [candidateKept, (findType_iff hnd).mpr ⟨hd, heq⟩]
  refine all_eq_true.mpr fun r hr => (referenceKept_iff hnd).mpr ?_
  rcases hrefs r hr with hmem | ⟨o, ho, hoid, hrec, hs⟩
  · obtain ⟨o, ho, hoid, hrec, -⟩ := h r hmem
    exact ⟨o, ho, hoid, by rw [if_pos hrec]; exact hS r hmem⟩
  · exact ⟨o, ho, hoid, by rw [if_neg (by simp [hrec])]; exact hs⟩

def recordsLeft (types : List TypeDef) (layouts : List LayoutDef) : List NativeId :=
  closedRecordIds types layouts (supportedRecordIds types layouts)

/-- **The records that are left are the largest closed set.** -/
theorem closedRecordIds_greatest (hnd : (typeIds tys).Nodup) :
    IsGreatest {ids | ClosedRecords tys ls ids} {id | id ∈ recordsLeft tys ls} := by
  obtain ⟨hsub, hkept, hmax⟩ := @closedRecordIds_spec tys ls (supportedRecordIds tys ls)
  constructor
  · intro id hid
    obtain ⟨d, hd, heq, hr, hs⟩ := mem_supportedRecordIds.mp (hsub hid)
    have hk := hkept id hid
    rw [candidateKept, (findType_iff hnd).mpr ⟨hd, heq⟩] at hk
    refine ⟨d, hd, heq, hr, hs, fun r hmem => ?_⟩
    obtain ⟨o, ho, hoid, h⟩ := (referenceKept_iff hnd).mp (all_eq_true.mp hk r hmem)
    by_cases hrec : recordType o = true
    · rw [if_pos hrec] at h
      exact .inl h
    · rw [if_neg hrec] at h
      exact .inr ⟨o, ho, hoid, by simpa using hrec, h⟩
  · intro S hS
    refine hmax S (fun os => ClosedRecords.keeps hnd hS) fun id hid => ?_
    obtain ⟨d, hd, heq, hr, hs, -⟩ := hS id hid
    exact mem_supportedRecordIds.mpr ⟨d, hd, heq, hr, hs⟩

/-! ### What the projection keeps -/

theorem mem_scalarIdsFor {records : List NativeId} :
    id ∈ scalarIdsFor tys records ↔ id ∉ records ∧
      ∃ record ∈ records, ∃ d, findType tys record = some d ∧ id ∈ typeFieldRefs d := by
  have hinner : ∀ (refs ids : List NativeId), id ∈ refs.foldl (fun collected reference =>
        if reference ∈ records ∨ reference ∈ collected then collected
        else collected ++ [reference]) ids ↔ id ∈ ids ∨ id ∈ refs ∧ id ∉ records := by
    intro refs
    induction refs with
    | nil => simp
    | cons r refs ih =>
      intro ids
      rw [foldl_cons, ih]
      by_cases h : r ∈ records ∨ r ∈ ids
      · rw [if_pos h]
        grind
      · rw [if_neg h]
        grind
  have houter : ∀ (rs ids : List NativeId), id ∈ rs.foldl (fun ids record =>
        (((findType tys record).map typeFieldRefs).getD []).foldl (fun collected reference =>
            if reference ∈ records ∨ reference ∈ collected then collected
            else collected ++ [reference]) ids) ids ↔
      id ∈ ids ∨ id ∉ records ∧ ∃ r ∈ rs, ∃ d, findType tys r = some d ∧ id ∈ typeFieldRefs d := by
    intro rs
    induction rs with
    | nil => simp
    | cons r rs ih =>
      intro ids
      rw [foldl_cons, ih, hinner]
      cases hf : findType tys r with
      | none => simp [hf]
      | some d => simp [hf]; tauto
  rw [scalarIdsFor, houter]
  simp

/-- A record that is kept, or what a field of one refers to. -/
def Kept (types : List TypeDef) (records : List NativeId) (id : NativeId) : Prop :=
  id ∈ records ∨ ∃ definition ∈ types, definition.id ∈ records ∧ id ∈ typeFieldRefs definition

/-- **The projection keeps, in their order, the types and the layouts of the largest closed set of
records and of what their fields refer to; every field of a record that it keeps is kept.** -/
theorem c17Projection_closed (types : List TypeDef) (layouts : List LayoutDef)
    (hnd : (typeIds types).Nodup) :
    IsGreatest {ids | ClosedRecords types layouts ids} {id | id ∈ recordsLeft types layouts} ∧
    ∃ keep : NativeId → Bool, (∀ id, keep id = true ↔ Kept types (recordsLeft types layouts) id) ∧
      (c17Projection types layouts).types = types.filter (fun definition => keep definition.id) ∧
      (c17Projection types layouts).layouts = layouts.filter (fun layout => keep layout.typeId) ∧
      (∀ id, keep id = true → ∃ definition ∈ (c17Projection types layouts).types,
        definition.id = id) ∧
      ∀ definition ∈ (c17Projection types layouts).types,
        ∀ reference ∈ typeFieldRefs definition, keep reference = true := by
  have hgr := @closedRecordIds_greatest types layouts hnd
  refine ⟨hgr, ?_⟩
  generalize hR : recordsLeft types layouts = R at hgr ⊢
  have hclosed : ClosedRecords types layouts {id | id ∈ R} := hgr.1
  have hkeep : ∀ id, decide (id ∈ R ++ scalarIdsFor types R) = true ↔ Kept types R id := by
    intro id
    rw [decide_eq_true_iff, mem_append, mem_scalarIdsFor, Kept]
    by_cases h : id ∈ R
    · simp [h]
    · simp only [h, false_or, not_false_eq_true, true_and]
      constructor
      · rintro ⟨r, hr, d, hd, href⟩
        obtain ⟨hmem, rfl⟩ := (findType_iff hnd).mp hd
        exact ⟨d, hmem, hr, href⟩
      · rintro ⟨d, hmem, hr, href⟩
        exact ⟨d.id, hr, d, (findType_iff hnd).mpr ⟨hmem, rfl⟩, href⟩
  have hproj : c17Projection types layouts =
      ⟨types.filter fun d => decide (d.id ∈ R ++ scalarIdsFor types R),
        layouts.filter fun l => decide (l.typeId ∈ R ++ scalarIdsFor types R)⟩ := by
    rw [← hR]
    rfl
  -- a definition with the identity of a record that is kept is the record
  have hrecord : ∀ d ∈ types, d.id ∈ R → recordType d = true ∧ ∀ r ∈ typeFieldRefs d, r ∈ R ∨
      ∃ o ∈ types, o.id = r ∧ recordType o = false ∧ typeSupported o layouts = true := by
    intro d hd hr
    obtain ⟨o, ho, hid, hrec, -, hrefs⟩ := hclosed d.id hr
    have hsame := (findType_iff hnd).mpr ⟨ho, hid⟩
    rw [(findType_iff hnd).mpr ⟨hd, rfl⟩] at hsame
    obtain rfl := Option.some.inj hsame
    exact ⟨hrec, hrefs⟩
  refine ⟨fun id => decide (id ∈ R ++ scalarIdsFor types R), hkeep, by rw [hproj], by rw [hproj],
    ?_, ?_⟩
  · intro id hid
    have htype : ∃ d ∈ types, d.id = id := by
      have hR' : ∀ r ∈ R, ∃ d ∈ types, d.id = r := by
        intro r hr
        obtain ⟨d, hd, heq, -⟩ := hclosed r hr
        exact ⟨d, hd, heq⟩
      rcases (hkeep id).mp hid with hr | ⟨d, hd, hr, href⟩
      · exact hR' id hr
      · rcases (hrecord d hd hr).2 id href with hmem | ⟨o, ho, heq, -⟩
        · exact hR' id hmem
        · exact ⟨o, ho, heq⟩
    obtain ⟨d, hd, rfl⟩ := htype
    rw [hproj]
    exact ⟨d, mem_filter.mpr ⟨hd, hid⟩, rfl⟩
  · intro d hd r href
    rw [hproj] at hd
    obtain ⟨hmem, hkept⟩ := mem_filter.mp hd
    refine (hkeep r).mpr (.inr ⟨d, hmem, ?_, href⟩)
    rcases (hkeep d.id).mp hkept with hr | ⟨o, ho, hr, hid⟩
    · exact hr
    · -- what a field refers to is a record of the set, or has no fields
      rcases (hrecord o ho hr).2 d.id hid with hr | ⟨o', ho', heq, hrec, -⟩
      · exact hr
      · have hsame := (findType_iff hnd).mpr ⟨ho', heq⟩
        rw [(findType_iff hnd).mpr ⟨hmem, rfl⟩] at hsame
        obtain rfl := Option.some.inj hsame
        cases hshape : d.shape with
        | recordType fs => simp [recordType, hshape] at hrec
        | _ => simp [typeFieldRefs, hshape] at href

/-- A point of whole numbers. -/
def pointTypes : List TypeDef :=
  [⟨⟨"point"⟩, "Point", .recordType [⟨⟨"x"⟩, "x", ⟨"i64"⟩⟩]⟩, ⟨⟨"i64"⟩, "Int", .atomType .i64Kind⟩]

def pointLayouts : List LayoutDef :=
  [⟨⟨"layout"⟩, ⟨"point"⟩, 8, 8, .recordShape [⟨⟨"x"⟩, ⟨"i64"⟩, 0, 8⟩]⟩,
    ⟨⟨"word"⟩, ⟨"i64"⟩, 8, 8, .scalarShape (.signedIntRepr 64)⟩]

theorem point_records : IsGreatest {ids | ClosedRecords pointTypes pointLayouts ids}
    {id | id ∈ recordsLeft pointTypes pointLayouts} :=
  (c17Projection_closed pointTypes pointLayouts (by simp [typeIds, pointTypes])).1

end Beagle.Slice
