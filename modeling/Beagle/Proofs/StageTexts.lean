/-
The texts of stages are canonical.

The text of each part tells the part, for a set up to the order of its elements.  So two stages
have one text exactly when they are the same up to the order of what is written as sets, and
unless a digest collides the same holds of their digests.
-/
import Beagle.Native.Stages

namespace Beagle.Stages

open Beagle.Native (Sha256)
open Beagle.NativeCore
open Beagle.Lib (Utf8.encode Utf8.encode_injective)
open Beagle.Lib.Digits
open Beagle.Lib.KeySort (Reordered)
open Beagle.Lib.Records

/-! ### Stages up to order -/

structure TermGraph.Same (graph other : TermGraph) : Prop where
  root : graph.root = other.root
  nodes : graph.nodes.Perm other.nodes

/-- The same unit, its read set in any order. -/
structure SourceUnit.Same (unit other : SourceUnit) : Prop where
  rest : { unit with readSet := [] } = { other with readSet := [] }
  readSet : unit.readSet.Perm other.readSet

structure SourceStage.Same (stage other : SourceStage) : Prop where
  terms : stage.terms.Same other.terms
  modules : stage.modules.Perm other.modules
  units : Reordered SourceUnit.Same stage.units other.units
  imports : stage.imports.Perm other.imports
  locations : stage.locations.Perm other.locations

structure TypedStage.Same (stage other : TypedStage) : Prop where
  terms : stage.terms.Same other.terms
  sourceDigest : stage.sourceDigest = other.sourceDigest
  typeRoots : stage.typeRoots.Perm other.typeRoots
  functionRoots : stage.functionRoots.Perm other.functionRoots
  effectRoots : stage.effectRoots.Perm other.effectRoots
  regionRoots : stage.regionRoots.Perm other.regionRoots
  capabilityTokenRoots : stage.capabilityTokenRoots.Perm other.capabilityTokenRoots
  refinementRoots : stage.refinementRoots.Perm other.refinementRoots

/-! ### Parts -/

theorem encodeBool_inj {v other : Bool} : encodeBool v = encodeBool other ↔ v = other := by
  cases v with
  | false =>
    cases other with
    | false => simp
    | true => simp [encodeBool]
  | true =>
    cases other with
    | false => simp [encodeBool]
    | true => simp

theorem encodeId_inj {id other : NativeId} : encodeId id = encodeId other ↔ id = other := by
  unfold encodeId
  rw [record_inj, List.cons.injEq]
  cases id
  cases other
  simp

theorem encodeString_inj {v other : String} : encodeString v = encodeString other ↔ v = other := by
  unfold encodeString
  rw [record_inj, List.cons.injEq]
  simp

theorem encodeInt_inj {v other : Int} : encodeInt v = encodeInt other ↔ v = other := by
  unfold encodeInt
  rw [record_inj, List.cons.injEq]
  constructor
  · exact fun h => toString_int_injective h.2.1
  · rintro rfl
    exact ⟨rfl, rfl, rfl⟩

theorem encodeIds_inj {tag : String} {ids others : List NativeId} :
    encodeIds tag ids = encodeIds tag others ↔ ids.Perm others :=
  set_map_perm fun _ _ h => encodeId_inj.mp h

theorem encodeTerm_inj {t other : Term} : encodeTerm t = encodeTerm other ↔ t = other := by
  refine ⟨fun h => ?_, fun h => congrArg encodeTerm h⟩
  -- the tags tell the kinds
  cases t <;> cases other <;> unfold encodeTerm at h <;> rw [record_inj] at h <;>
    first
    | exact absurd h.1 (by decide)
    | obtain ⟨-, h⟩ := h
      simp only [List.cons.injEq, and_true, encodeBool_inj, encodeInt_inj, encodeId_inj] at h
      simp only [h]

theorem encodeTermNode_inj {n other : TermNode} :
    encodeTermNode n = encodeTermNode other ↔ n = other := by
  unfold encodeTermNode
  rw [record_inj, List.cons.injEq, List.cons.injEq, encodeId_inj, encodeTerm_inj]
  cases n
  cases other
  simp

theorem encodeTermGraph_inj {g other : TermGraph} :
    encodeTermGraph g = encodeTermGraph other ↔ g.Same other := by
  unfold encodeTermGraph
  rw [record_inj, List.cons.injEq, List.cons.injEq, encodeId_inj,
    set_map_perm fun _ _ h => encodeTermNode_inj.mp h]
  constructor
  · rintro ⟨-, hr, hn, -⟩
    exact ⟨hr, hn⟩
  · rintro ⟨hr, hn⟩
    exact ⟨rfl, hr, hn, rfl⟩

theorem encodeSourceLocation_inj {l other : SourceLocation}
    (h : encodeSourceLocation l = encodeSourceLocation other) : l = other := by
  unfold encodeSourceLocation at h
  rw [record_inj] at h
  simp only [List.cons.injEq, encodeId_inj, encodeString_inj, encodeInt_inj] at h
  obtain ⟨-, hm, hp, hl, hcol, -⟩ := h
  cases l
  cases other
  simp only at hm hp hl hcol
  rw [hm, hp, hl, hcol]

theorem encodeSourceModule_inj {m other : SourceModule}
    (h : encodeSourceModule m = encodeSourceModule other) : m = other := by
  unfold encodeSourceModule at h
  rw [record_inj] at h
  simp only [List.cons.injEq, encodeId_inj, encodeString_inj] at h
  obtain ⟨-, hid, hn, hp, hsrc, hpr, hi, hr, -⟩ := h
  cases m
  cases other
  simp only at hid hn hp hsrc hpr hi hr
  rw [hid, hn, hp, hsrc, hpr, hi, hr]

theorem encodeSourceUnit_inj (u other : SourceUnit) :
    encodeSourceUnit u = encodeSourceUnit other ↔ u.Same other := by
  unfold encodeSourceUnit
  rw [record_inj]
  simp only [List.cons.injEq, encodeId_inj, encodeString_inj, encodeIds_inj]
  constructor
  · rintro ⟨-, hid, hm, hk, hn, hdig, hro, hr, -⟩
    refine ⟨?_, hr⟩
    rw [hid, hm, hk, hn, hdig, hro]
  · rintro ⟨hre, hr⟩
    rw [SourceUnit.mk.injEq] at hre
    obtain ⟨hid, hm, hk, hn, hdig, hro, -⟩ := hre
    exact ⟨trivial, hid, hm, hk, hn, hdig, hro, hr, trivial⟩

/-! ### Stages -/

theorem encodeSourceStage_inj {s other : SourceStage} :
    encodeSourceStage s = encodeSourceStage other ↔ s.Same other := by
  unfold encodeSourceStage
  rw [record_inj]
  simp only [List.cons.injEq, encodeTermGraph_inj, encodeIds_inj]
  rw [set_map_perm fun _ _ h => encodeSourceModule_inj h, set_map_inj encodeSourceUnit_inj,
    set_map_perm fun _ _ h => encodeSourceLocation_inj h]
  constructor
  · rintro ⟨-, ht, hm, hu, hi, hl, -⟩
    exact ⟨ht, hm, hu, hi, hl⟩
  · rintro ⟨ht, hm, hu, hi, hl⟩
    exact ⟨trivial, ht, hm, hu, hi, hl, trivial⟩

theorem encodeTypedStage_inj {s other : TypedStage} :
    encodeTypedStage s = encodeTypedStage other ↔ s.Same other := by
  unfold encodeTypedStage
  rw [record_inj]
  simp only [List.cons.injEq, encodeTermGraph_inj, encodeString_inj, encodeIds_inj]
  constructor
  · rintro ⟨-, ht, hsrc, hty, hfns, he, hre, hc, hr, -⟩
    exact ⟨ht, hsrc, hty, hfns, he, hre, hc, hr⟩
  · rintro ⟨ht, hsrc, hty, hfns, he, hre, hc, hr⟩
    exact ⟨trivial, ht, hsrc, hty, hfns, he, hre, hc, hr, trivial⟩

theorem contentDigest_inj {sha : Sha256} {e other : String}
    (hinj : Set.InjOn sha.bytes {Utf8.encode e, Utf8.encode other}) :
    contentDigest sha e = contentDigest sha other ↔ e = other := by
  refine ⟨fun h => ?_, fun h => congrArg (contentDigest sha) h⟩
  exact Sha256.eq_of_digest hinj (Set.mem_insert _ _)
    (Set.mem_insert_of_mem _ (Set.mem_singleton _)) h

end Beagle.Stages
