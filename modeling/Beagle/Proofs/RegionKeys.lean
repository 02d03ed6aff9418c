/-
What identities say.

Framed parts are told by their text, and the last of them is the kind.  So without a
collision two equal identities are of one kind and have the same parts; and since every
field without an order is put in order by keys that differ, the parts do not depend on
how a graph was written down.
-/
import Beagle.Proofs.RegionOrder

namespace Beagle.Regions

open Beagle.Native (Sha256)
open Beagle.Lib (Utf8.encode)
open Beagle.Lib.Frames List
open Beagle.Lib.KeySort

/-! ### Parts -/

theorem encodeParts_eq (parts : List String) : encodeParts parts = framedAll parts := rfl

variable {ps' : List String} {i i' : TypedInput} {output output' : TypedOutput} {s : Sha256}
  {other : RegionDecl} {regions others : List RegionDecl} {ps : List String}

theorem encodeParts_injective (h : encodeParts ps = encodeParts ps') :
    ps = ps' :=
  framedAll_injective h

variable {d domain' : String}

/-- The parts and the kind are told by the bytes. -/
theorem contentBytes_injective
    (h : contentBytes d ps = contentBytes domain' ps') :
    ps = ps' ∧ d = domain' := by
  have hp := encodeParts_injective (Beagle.Lib.Utf8.encode_injective h)
  obtain ⟨hfr, hl⟩ := append_inj' hp rfl
  exact ⟨hfr, singleton_inj.mp hl⟩

theorem inputSemanticEncoding_injective (h : inputSemanticEncoding i = inputSemanticEncoding i') :
    inputFields i = inputFields i' := by
  have hp := encodeParts_injective h
  simp only [List.cons.injEq, and_true] at hp
  obtain ⟨hpo, hpr, hpp, ht⟩ := hp
  unfold inputFields
  rw [hpo, hpr, hpp, ht]

theorem outputSemanticEncoding_injective
    (h : outputSemanticEncoding output = outputSemanticEncoding output') :
    outputFields output = outputFields output' := by
  have hp := encodeParts_injective h
  simp only [List.cons.injEq, and_true] at hp
  unfold outputFields
  rw [hp.1, hp.2]

theorem resolvedInputEncoding_injective : Function.Injective resolvedInputEncoding := by
  intro i i' h
  have hp := encodeParts_injective h
  simp only [List.cons.injEq, and_true] at hp
  obtain ⟨hpo, hpr, ht⟩ := hp
  cases i
  cases i'
  simp only at hpo hpr ht
  rw [hpo, hpr, ht]

/-- Equal texts of what was put in order come from the same, up to the order. -/
theorem perm_of_map_sortBy {α κ γ δ : Type} [LinearOrder κ] {key : α → κ} {e : α → γ}
    {fields : α → δ} (hinj : ∀ a b, e a = e b → fields a = fields b)
    {vs others : List α}
    (h : (sortBy key vs).map e = (sortBy key others).map e) :
    (vs.map fields).Perm (others.map fields) := by
  have hf : (sortBy key vs).map fields = (sortBy key others).map fields :=
    map_eq_of_map_eq hinj h
  have hv : ((sortBy key vs).map fields).Perm (vs.map fields) :=
    (sortBy_perm vs).map fields
  rw [hf] at hv
  exact hv.symm.trans ((sortBy_perm others).map fields)

theorem perm_of_resolvedInputEncodings {ins inputs' : List ResolvedInput}
    (h : encodeParts (resolvedInputEncodings ins) =
      encodeParts (resolvedInputEncodings inputs')) : ins.Perm inputs' := by
  have hp : (ins.map id).Perm (inputs'.map id) :=
    perm_of_map_sortBy (fun _ _ hab => resolvedInputEncoding_injective hab)
      (encodeParts_injective h)
  rwa [map_id, map_id] at hp

theorem perm_of_sortedStrings {values values' : List String}
    (h : encodeParts (sortedStrings values) = encodeParts (sortedStrings values')) :
    values.Perm values' := by
  have hsrt : sortedStrings values = sortedStrings values' := encodeParts_injective h
  have hv : (sortedStrings values).Perm values := sortBy_perm values
  rw [hsrt] at hv
  exact hv.symm.trans (sortBy_perm values')

/-! ### From identities to fields -/

/-- The kind of an identity. -/
def StoreKey.domain : StoreKey → String
  | .inputInterface _ => "beagle.region-decl/input-interface/v1"
  | .outputInterface _ => "beagle.region-decl/output-interface/v1"
  | .region _ => "beagle.region-decl/region/v1"
  | .providerOutput _ _ => "beagle.region-decl/provider-output/v1"
  | .readerExecution _ => "beagle.region-decl/reader-execution/v1"
  | .expanded _ => "beagle.region-decl/expanded/v1"
  | .checked _ => "beagle.region-decl/checked/v1"
  | .lowered _ => "beagle.region-decl/lowered/v1"
  | .output _ => "beagle.region-decl/output/v1"

def StoreKey.parts (sha : Sha256) : StoreKey → List String
  | .inputInterface decl => inputInterfaceParts decl
  | .outputInterface decl => outputInterfaceParts decl
  | .region decl => regionParts decl
  | .providerOutput provider port => providerOutputParts sha provider port
  | .readerExecution query => readerExecutionParts query
  | .expanded query => expandedParts query
  | .checked query => checkedParts query
  | .lowered query => loweredParts query
  | .output result => outputParts result

theorem StoreKey.id_eq (s : Sha256) (key : StoreKey) :
    key.id s = canonicalContentId s key.domain (key.parts s) := by
  cases key <;> rfl

/-- The bytes that are hashed for an identity, those of the region in it included. -/
def StoreKey.encodings (sha : Sha256) : StoreKey → Set (List UInt8)
  | .providerOutput provider port =>
    {contentBytes "beagle.region-decl/provider-output/v1" (providerOutputParts sha provider port),
      contentBytes "beagle.region-decl/region/v1" (regionParts provider)}
  | key => {contentBytes key.domain (key.parts sha)}

/-- The same kind and the same fields; fields without an order are the same up to it. -/
def SameFields : StoreKey → StoreKey → Prop
  | .inputInterface region, .inputInterface other =>
    (region.inputs.map inputFields).Perm (other.inputs.map inputFields)
  | .outputInterface region, .outputInterface other =>
    (region.outputs.map outputFields).Perm (other.outputs.map outputFields)
  | .region region, .region other => regionParts region = regionParts other
  | .providerOutput provider output, .providerOutput provider' output' =>
    regionParts provider = regionParts provider' ∧ outputFields output = outputFields output'
  | .readerExecution query, .readerExecution query' => query = query'
  | .expanded query, .expanded query' =>
    { query with interfaceIds := [], resolvedInputs := [] } =
        { query' with interfaceIds := [], resolvedInputs := [] } ∧
      query.interfaceIds.Perm query'.interfaceIds ∧
      query.resolvedInputs.Perm query'.resolvedInputs
  | .checked query, .checked query' => query = query'
  | .lowered query, .lowered query' => query = query'
  | .output result, .output result' =>
    { result with resolvedInputs := [] } = { result' with resolvedInputs := [] } ∧
      result.resolvedInputs.Perm result'.resolvedInputs
  | _, _ => False

theorem contentBytes_of_id
    {i : Set (List UInt8)} (hinj : Set.InjOn s.bytes i)
    (hmem : contentBytes d ps ∈ i) (hmem' : contentBytes domain' ps' ∈ i)
    (h : canonicalContentId s d ps = canonicalContentId s domain' ps') :
    ps = ps' ∧ d = domain' := by
  have hdig : s.bytes (contentBytes d ps) = s.bytes (contentBytes domain' ps') := by
    have hc := congrArg String.toList h
    unfold canonicalContentId at hc
    rw [String.toList_append, String.toList_append] at hc
    exact String.toList_injective (append_cancel_left hc)
  exact contentBytes_injective (hinj hmem hmem' hdig)

theorem StoreKey.mem_encodings (s : Sha256) (key : StoreKey) :
    contentBytes key.domain (key.parts s) ∈ key.encodings s := by
  cases key <;> first
    | exact Set.mem_singleton _
    | exact Set.mem_insert _ _

/-- Without a collision equal identities have the same kind and the same fields. -/
theorem sameFields_of_id {key key' : StoreKey}
    (hinj : Set.InjOn s.bytes (key.encodings s ∪ key'.encodings s))
    (h : key.id s = key'.id s) : SameFields key key' := by
  rw [StoreKey.id_eq, StoreKey.id_eq] at h
  obtain ⟨hp, hdo⟩ := contentBytes_of_id hinj
    (Set.mem_union_left _ (key.mem_encodings s)) (Set.mem_union_right _ (key'.mem_encodings s)) h
  -- the domain tells the kind of a key
  cases key <;> cases key' <;> try (simp [StoreKey.domain] at hdo; done)
  all_goals simp only [StoreKey.parts, providerOutputParts, readerExecutionParts, expandedParts,
    checkedParts, loweredParts, outputParts, List.cons.injEq, and_true] at hp
  case inputInterface.inputInterface =>
    exact perm_of_map_sortBy (fun _ _ hab => inputSemanticEncoding_injective hab) hp
  case outputInterface.outputInterface =>
    exact perm_of_map_sortBy (fun _ _ hab => outputSemanticEncoding_injective hab) hp
  case region.region => exact hp
  case providerOutput.providerOutput p output p' output' =>
    obtain ⟨hreg, hpo, ht⟩ := hp
    obtain ⟨hpr, -⟩ := contentBytes_of_id hinj
      (Set.mem_union_left _ (Set.mem_insert_of_mem _ (Set.mem_singleton _)))
      (Set.mem_union_right _ (Set.mem_insert_of_mem _ (Set.mem_singleton _))) hreg
    refine ⟨hpr, ?_⟩
    unfold outputFields
    rw [hpo, ht]
  case readerExecution.readerExecution q q' =>
    cases q
    cases q'
    simp only at hp
    show ReaderExecutionStoreQuery.mk _ _ _ _ _ _ = _
    rw [hp.1, hp.2.1, hp.2.2.1, hp.2.2.2.1, hp.2.2.2.2.1, hp.2.2.2.2.2]
  case expanded.expanded q q' =>
    obtain ⟨hir, he, hart, hc, hi, hr⟩ := hp
    refine ⟨?_, perm_of_sortedStrings hi, perm_of_resolvedInputEncodings hr⟩
    rw [hir, he, hart, hc]
  case checked.checked q q' =>
    cases q
    cases q'
    simp only at hp
    obtain ⟨rfl, rfl, rfl, rfl, rfl, rfl, rfl, rfl⟩ := hp
    rfl
  case lowered.lowered q q' =>
    cases q
    cases q'
    simp only at hp
    obtain ⟨rfl, rfl, rfl, rfl, rfl, rfl, rfl, rfl⟩ := hp
    rfl
  case output.output res res' =>
    obtain ⟨hreg, hd, hin, hr⟩ := hp
    refine ⟨?_, perm_of_resolvedInputEncodings hr⟩
    rw [hreg, hd, hin]

/-! ### From graphs to identities -/

/-- Regions that are the same but for spans, payloads and the order of inputs and outputs. -/
structure SameRegion (region other : RegionDecl) : Prop extends Alike region other where
  moduleId : region.moduleId = other.moduleId
  capsuleId : region.capsuleId = other.capsuleId

theorem SameRegion.parts {region : RegionDecl} (h : SameRegion region other) :
    regionParts region = regionParts other := by
  unfold regionParts
  rw [h.moduleId, h.name, h.capsuleId]

variable {rg : RegionDecl}

theorem SameRegion.regionId_eq (h : SameRegion rg other) (s : Sha256) :
    regionId s rg = regionId s other := by
  unfold regionId
  rw [h.parts]

theorem inputSemanticEncoding_of_fields (h : inputFields i = inputFields i') :
    inputSemanticEncoding i = inputSemanticEncoding i' := by
  simp only [inputFields, Prod.mk.injEq] at h
  unfold inputSemanticEncoding
  rw [h.1, h.2.1, h.2.2.1, h.2.2.2]

theorem outputSemanticEncoding_of_fields (h : outputFields output = outputFields output') :
    outputSemanticEncoding output = outputSemanticEncoding output' := by
  simp only [outputFields, Prod.mk.injEq] at h
  unfold outputSemanticEncoding
  rw [h.1, h.2]

theorem Alike.inputInterfaceParts_eq (h : Alike rg other)
    (hp : (rg.inputs.map TypedInput.localPort).Nodup) :
    inputInterfaceParts rg = inputInterfaceParts other :=
  map_eq_of_forall₂ (fun _ _ hab => inputSemanticEncoding_of_fields hab) (h.sortedInputs_eq hp)

theorem Alike.outputInterfaceParts_eq (h : Alike rg other)
    (hp : (rg.outputs.map TypedOutput.port).Nodup) :
    outputInterfaceParts rg = outputInterfaceParts other := by
  have hsrt : Forall₂ (fun a b => outputFields a = outputFields b)
      (sortedOutputs rg.outputs) (sortedOutputs other.outputs) :=
    sortBy_forall₂ (fun _ _ hab => congrArg Prod.fst hab) (reordered_of_perm_map h.outputs) hp
  exact map_eq_of_forall₂ (fun _ _ hab => outputSemanticEncoding_of_fields hab) hsrt

theorem providerOutputId_of_fields {p p' : RegionDecl}
    (hpr : SameRegion p p') (hp : output.port = output'.port)
    (ht : output.typeId = output'.typeId) :
    providerOutputId s p output = providerOutputId s p' output' := by
  unfold providerOutputId providerOutputParts
  rw [hpr.regionId_eq, hp, ht]

/-- In graphs with unique names the regions of one name are the same. -/
theorem regionForName_same (hn : (regions.map RegionDecl.regionName).Nodup)
    (h : Reordered SameRegion regions others) (n : String) :
    Option.Rel SameRegion (regionForName regions n) (regionForName others n) := by
  have hp : (regions.map RegionDecl.regionName).Perm (others.map RegionDecl.regionName) :=
    perm_map_of_reordered (fun _ _ hab => hab.name) h
  obtain ⟨m, hmid, hall⟩ := h
  cases hf : regionForName regions n with
  | none =>
    have hm : ¬ (regionForName others n).isSome = true := by
      rw [regionForName_isSome, ← hp.mem_iff, ← regionForName_isSome, hf]
      exact Bool.false_ne_true
    rw [Option.not_isSome_iff_eq_none.mp hm]
    exact Option.Rel.none
  | some rg =>
    obtain ⟨hmem, rfl⟩ := regionForName_eq hf
    obtain ⟨other, ho, hs⟩ := exists_of_mem_forall₂ hall (hmid.mem_iff.mp hmem)
    have hf' := regionForName_of_mem (hp.nodup_iff.mp hn) ho
    rw [← hs.name] at hf'
    rw [hf']
    exact Option.Rel.some hs

theorem resolveInput_same (hr : Resolved regions) (h : Reordered SameRegion regions others)
    (hfl : inputFields i = inputFields i') :
    resolveInput s regions i = resolveInput s others i' := by
  simp only [inputFields, Prod.mk.injEq] at hfl
  obtain ⟨hpo, hpr, hpp, -⟩ := hfl
  unfold resolveInput
  rw [← hpr, ← hpo, ← hpp]
  have hrel := regionForName_same hr.names h i.providerRegion
  cases hf : regionForName regions i.providerRegion with
  | none =>
    rw [hf] at hrel
    rw [eq_none_of_rel hrel]
  | some p =>
    rw [hf] at hrel
    obtain ⟨p', hf', hs⟩ := exists_of_rel hrel
    have ht := hs.outputForPort_type_eq (hr.outputPorts p (regionForName_eq hf).1) i.providerPort
    rw [hf']
    dsimp only
    cases hout : outputForPort p.outputs i.providerPort with
    | none =>
      rw [hout] at ht
      rw [Option.map_eq_none_iff.mp ht.symm]
    | some output =>
      rw [hout] at ht
      obtain ⟨output', hout', hti⟩ := Option.map_eq_some_iff.mp ht.symm
      rw [hout']
      dsimp only
      have hp : output.port = output'.port := by
        rw [(outputForPort_eq hout).2, (outputForPort_eq hout').2]
      rw [providerOutputId_of_fields hs hp hti.symm, hti]

theorem length_providerOutputId (s : Sha256) (p : RegionDecl) (output : TypedOutput) :
    (providerOutputId s p output).length = 71 := by
  unfold providerOutputId canonicalContentId
  rw [String.length_append, s.size]
  rfl

/-- Identities of one length leave the port in the key. -/
theorem localPort_of_resolvedInputKey {i i' : ResolvedInput}
    (hlen : i.providerOutputId.length = i'.providerOutputId.length)
    (h : resolvedInputKey i = resolvedInputKey i') : i.localPort = i'.localPort := by
  have hc := congrArg String.toList h
  unfold resolvedInputKey at hc
  rw [String.toList_append, String.toList_append, String.toList_append, String.toList_append] at hc
  obtain ⟨hfr, -⟩ := append_inj' hc hlen
  exact String.toList_injective (append_cancel_right hfr)

theorem resolveInput_eq {rd : ResolvedInput} (h : resolveInput s regions i = some rd) :
    rd.localPort = i.localPort ∧ rd.providerOutputId.length = 71 := by
  unfold resolveInput at h
  split at h
  · cases h
  · split at h
    · cases h
    · cases h
      exact ⟨rfl, length_providerOutputId _ _ _⟩

/-- No two resolved inputs of a region have one key. -/
theorem resolved_keys_nodup {s : Sha256} {regions : List RegionDecl} {ins : List TypedInput}
    (hp : (ins.map TypedInput.localPort).Nodup) :
    ((ins.filterMap (resolveInput s regions)).map resolvedInputKey).Nodup := by
  have hr : ∀ rd ∈ ins.filterMap (resolveInput s regions), rd.providerOutputId.length = 71 := by
    intro rd hmem
    obtain ⟨i, -, hi⟩ := mem_filterMap.mp hmem
    exact (resolveInput_eq hi).2
  refine nodup_map_of_determines (g := ResolvedInput.localPort) ?_ ?_
  · intro a ha b hb hkey
    exact localPort_of_resolvedInputKey ((hr a ha).trans (hr b hb).symm) hkey
  · refine Nodup.sublist ?_ hp
    clear hp hr
    induction ins with
    | nil => exact Sublist.refl _
    | cons i ins ih =>
      rw [filterMap_cons]
      split
      · exact ih.cons _
      · rename_i rd hi
        rw [map_cons, map_cons, (resolveInput_eq hi).1]
        exact ih.cons_cons _

theorem resolveRegionInputs_same (hr : Resolved regions)
    (h : Reordered SameRegion regions others) (hreg : rg ∈ regions)
    (hs : SameRegion rg other) :
    resolveRegionInputs s rg regions = resolveRegionInputs s other others := by
  obtain ⟨m, hmid, hall⟩ := reordered_of_perm_map hs.inputs
  have hp : (rg.inputs.filterMap (resolveInput s regions)).Perm
      (other.inputs.filterMap (resolveInput s others)) := by
    refine (hmid.filterMap _).trans ?_
    rw [filterMap_of_forall₂ hall fun _ _ hab => resolveInput_same hr h hab]
  exact sortBy_of_perm hp (resolved_keys_nodup (hr.inputPorts rg hreg))

/-- The order of the resolved inputs of a region does not matter. -/
theorem resolvedInputEncodings_perm (hr : Resolved regions)
    (hreg : rg ∈ regions) {rd : List ResolvedInput}
    (h : rd.Perm (resolveRegionInputs s rg regions)) :
    resolvedInputEncodings rd = resolvedInputEncodings (resolveRegionInputs s rg regions) := by
  have hk : ((resolveRegionInputs s rg regions).map resolvedInputKey).Nodup := by
    have hnd := @resolved_keys_nodup s regions _ (hr.inputPorts rg hreg)
    exact ((sortBy_perm _).map resolvedInputKey).nodup_iff.mpr hnd
  unfold resolvedInputEncodings sortedResolvedInputs
  rw [sortBy_of_perm h.symm hk]

/-- What a caller chooses for the identities of a region. -/
structure Tools where
  expander : ExpandedStoreQuery
  checker : CheckedStoreQuery
  lowerer : LoweredStoreQuery
  interfaceIds : List String
  derivationId : String

/-- The identities of what is expanded, checked, lowered and put out for a region, each
built from those before. -/
def storeIds (sha : Sha256) (tools : Tools) (region : RegionDecl) (resolved : List ResolvedInput) :
    List String :=
  let expanded := expandedId sha
    { tools.expander with interfaceIds := tools.interfaceIds, resolvedInputs := resolved }
  let checked := checkedId sha
    { tools.checker with
      expandedId := expanded
      inputInterfaceId := inputInterfaceId sha region
      outputInterfaceId := outputInterfaceId sha region }
  let lowered := loweredId sha { tools.lowerer with checkedId := checked }
  let output (derivationId : String) := outputId sha
    ⟨regionId sha region, derivationId, outputInterfaceId sha region, resolved⟩
  [expanded, checked, lowered, output tools.derivationId, output expanded, output checked,
    output lowered]

/-- The digest of the identity of `loneMain`. -/
def loneMainSha : Sha256 :=
  ⟨fun _ => "94c567fd27c133ab51ad09a30ae79fbc2f1de88c7fc044a220034e170cbdb3f9", fun _ => by decide,
    fun _ => all_iff_forall_prop.mp (by decide)⟩

end Beagle.Regions
