/-
The order of declarations does not matter.

Two graphs whose regions agree up to spans, payloads and the order of their inputs and
outputs get the same verdict.  Regions in order of their names agree one by one, and so
does what each check finds, what the loop takes, and where the walk along the providers
goes.
-/
import Beagle.Proofs.Schedules

namespace Beagle.Regions

open Beagle.Lib.KeySort List

/-- What an input says, without its span. -/
def inputFields (input : TypedInput) : String × String × String × String :=
  (input.localPort, input.providerRegion, input.providerPort, input.expectedTypeId)

/-- What an output says, without its span. -/
def outputFields (output : TypedOutput) : String × String := (output.port, output.typeId)

/-- Regions of one name with the same inputs and the same outputs, in any order. -/
structure Alike (region other : RegionDecl) : Prop where
  name : region.regionName = other.regionName
  inputs : (region.inputs.map inputFields).Perm (other.inputs.map inputFields)
  outputs : (region.outputs.map outputFields).Perm (other.outputs.map outputFields)

/-- The same verdict: the same problem, or schedules that agree region by region. -/
inductive SameVerdict : RegionGraphValidation → RegionGraphValidation → Prop
  | ready {schedule schedule' : RegionSchedule}
      (regions : Forall₂ Alike schedule.regions schedule'.regions)
      (names : schedule.regionNames = schedule'.regionNames) :
      SameVerdict (.ready schedule) (.ready schedule')
  | rejected (problem : RegionGraphProblem) : SameVerdict (.rejected problem) (.rejected problem)

section

variable {rg ot : RegionDecl} {regions others : List RegionDecl}

theorem Alike.ports (h : Alike rg ot) :
    (rg.inputs.map TypedInput.localPort).Perm (ot.inputs.map TypedInput.localPort) := by
  have hp := h.inputs.map Prod.fst
  rwa [map_map, map_map] at hp

theorem Alike.outputPorts (h : Alike rg ot) :
    (rg.outputs.map TypedOutput.port).Perm (ot.outputs.map TypedOutput.port) := by
  have hp := h.outputs.map Prod.fst
  rwa [map_map, map_map] at hp

theorem Alike.providers (h : Alike rg ot) : (rg.inputs.map TypedInput.providerRegion).Perm
      (ot.inputs.map TypedInput.providerRegion) := by
  have hp := h.inputs.map fun fs => fs.2.1
  rwa [map_map, map_map] at hp

theorem names_of_alike (h : Forall₂ Alike regions others) :
    regions.map RegionDecl.regionName = others.map RegionDecl.regionName :=
  map_eq_of_forall₂ (fun _ _ hab => hab.name) h

/-! ### Lookups -/

theorem regionForName_alike (h : Forall₂ Alike regions others) (n : String) :
    Option.Rel Alike (regionForName regions n) (regionForName others n) := by
  unfold regionForName
  induction h with
  | nil => exact Option.Rel.none
  | @cons rg ot regions others hh _ ih =>
    rw [find?_cons, find?_cons, hh.name]
    cases n == ot.regionName with
    | true => exact Option.Rel.some hh
    | false => exact ih

/-- The type of an output is told by what the outputs say. -/
theorem outputForPort_type {os : List TypedOutput}
    (hp : (os.map TypedOutput.port).Nodup) (p ti : String) :
    (outputForPort os p).map TypedOutput.typeId = some ti ↔ (p, ti) ∈ os.map outputFields := by
  rw [Option.map_eq_some_iff, mem_map]
  constructor
  · rintro ⟨o, hout, rfl⟩
    obtain ⟨hmem, rfl⟩ := outputForPort_eq hout
    exact ⟨o, hmem, rfl⟩
  · rintro ⟨o, hmem, hf⟩
    obtain ⟨rfl, rfl⟩ := Prod.mk.inj hf
    exact ⟨o, outputForPort_of_mem hp hmem, rfl⟩

theorem Alike.outputForPort_type_eq (h : Alike rg ot)
    (hp : (rg.outputs.map TypedOutput.port).Nodup) (p : String) :
    (outputForPort rg.outputs p).map TypedOutput.typeId =
      (outputForPort ot.outputs p).map TypedOutput.typeId := by
  refine Option.ext fun ti => ?_
  rw [outputForPort_type hp, outputForPort_type (h.outputPorts.nodup_iff.mp hp)]
  exact h.outputs.mem_iff

/-! ### The checks -/

theorem Alike.portProblem_eq (h : Alike rg ot) : portProblem rg = portProblem ot := by
  have hi : firstDuplicateInputPort rg.inputs = firstDuplicateInputPort ot.inputs :=
    firstRepeat_sortBy_of_perm h.ports
  have ho : firstDuplicateOutputPort rg.outputs =
      firstDuplicateOutputPort ot.outputs := firstRepeat_sortBy_of_perm h.outputPorts
  unfold portProblem
  rw [hi, ho, h.name]

theorem inputReferenceProblem_alike (h : Forall₂ Alike regions others)
    (hp : ∀ rg ∈ regions, (rg.outputs.map TypedOutput.port).Nodup)
    (hn : rg.regionName = ot.regionName) {i i' : TypedInput}
    (hi : inputFields i = inputFields i') :
    inputReferenceProblem rg i regions = inputReferenceProblem ot i' others := by
  simp only [inputFields, Prod.mk.injEq] at hi
  obtain ⟨hpo, hpr, hpp, hty⟩ := hi
  unfold inputReferenceProblem
  rw [← hpr, ← hpo, ← hpp, ← hty, ← hn]
  have hrel := regionForName_alike h i.providerRegion
  cases hf : regionForName regions i.providerRegion with
  | none =>
    rw [hf] at hrel
    rw [eq_none_of_rel hrel]
  | some p =>
    rw [hf] at hrel
    obtain ⟨p', hf', hal⟩ := exists_of_rel hrel
    have ht := hal.outputForPort_type_eq (hp p (regionForName_eq hf).1) i.providerPort
    rw [hf']
    dsimp only
    cases hout : outputForPort p.outputs i.providerPort with
    | none =>
      rw [hout] at ht
      rw [Option.map_eq_none_iff.mp ht.symm]
    | some o =>
      rw [hout] at ht
      obtain ⟨o', hout', hti⟩ := Option.map_eq_some_iff.mp ht.symm
      rw [hout']
      dsimp only
      rw [hti]

theorem Alike.sortedInputs_eq (h : Alike rg ot) (hp : (rg.inputs.map TypedInput.localPort).Nodup) :
    Forall₂ (fun a b => inputFields a = inputFields b) (sortedInputs rg.inputs)
      (sortedInputs ot.inputs) :=
  sortBy_forall₂ (fun _ _ hab => congrArg Prod.fst hab) (reordered_of_perm_map h.inputs) hp

theorem referenceProblem_alike (h : Forall₂ Alike regions others)
    (hp : ∀ rg ∈ regions, (rg.inputs.map TypedInput.localPort).Nodup ∧
      (rg.outputs.map TypedOutput.port).Nodup) :
    referenceProblem regions = referenceProblem others := by
  unfold referenceProblem
  refine findSome?_of_forall₂ h fun rg hreg ot hab => ?_
  exact findSome?_of_forall₂ (hab.sortedInputs_eq (hp rg hreg).1)
    fun i _ i' hi =>
      inputReferenceProblem_alike h (fun r hr => (hp r hr).2) hab.name hi

/-! ### The run -/

theorem Alike.regionReady_eq (h : Alike rg ot) (names : List String) :
    regionReady rg names = regionReady ot names := by
  have hall : ∀ r : RegionDecl, regionReady r names =
      (r.inputs.map TypedInput.providerRegion).all fun name => names.contains name := by
    intro r
    rw [all_map]
    rfl
  rw [hall, hall, Bool.eq_iff_iff, all_eq_true, all_eq_true]
  exact forall_congr' fun name => imp_congr h.providers.mem_iff Iff.rfl

theorem firstReadyRegion_alike (h : Forall₂ Alike regions others) (ns : List String) :
    Option.Rel Alike (firstReadyRegion regions ns) (firstReadyRegion others ns) := by
  unfold firstReadyRegion
  induction h with
  | nil => exact Option.Rel.none
  | @cons rg ot regions others hh _ ih =>
    rw [find?_cons, find?_cons, hh.regionReady_eq]
    cases regionReady ot ns with
    | true => exact Option.Rel.some hh
    | false => exact ih

theorem removeRegion_alike (h : Forall₂ Alike regions others) (n : String) :
    Forall₂ Alike (removeRegion regions n) (removeRegion others n) := by
  unfold removeRegion
  induction h with
  | nil => exact Forall₂.nil
  | @cons rg ot regions others hh _ ih =>
    rw [filter_cons, filter_cons, hh.name]
    split
    · exact Forall₂.cons hh ih
    · exact ih

theorem unresolvedProviders_nodup (rg : RegionDecl) (remaining : List RegionDecl) :
    (unresolvedProviders rg remaining).Nodup := by
  have hfold : ∀ (inputs : List TypedInput) (names : List String), names.Nodup → (inputs.foldl
        (fun names input =>
          if (regionForName remaining input.providerRegion).isSome &&
              !names.contains input.providerRegion then
            names ++ [input.providerRegion]
          else names) names).Nodup := by
    intro inputs
    induction inputs with
    | nil => exact fun _ hnames => hnames
    | cons input inputs ih =>
      intro names hnames
      rw [foldl_cons]
      apply ih
      split
      · rename_i hnew
        rw [Bool.and_eq_true, Bool.not_eq_true', contains_eq_mem, decide_eq_false_iff_not] at hnew
        exact nodup_append.mpr ⟨hnames, nodup_singleton _, fun a ha b hb hab =>
          hnew.2 (mem_singleton.mp hb ▸ hab ▸ ha)⟩
      · exact hnames
  exact hfold rg.inputs [] nodup_nil

theorem smallestUnresolvedProvider_alike (h : Alike rg ot) (hrem : Forall₂ Alike regions others) :
    smallestUnresolvedProvider rg regions = smallestUnresolvedProvider ot others := by
  have hp : (unresolvedProviders rg regions).Perm (unresolvedProviders ot others) := by
    refine (perm_ext_iff_of_nodup (unresolvedProviders_nodup _ _)
      (unresolvedProviders_nodup _ _)).mpr fun n => ?_
    rw [mem_unresolvedProviders, mem_unresolvedProviders, regionForName_isSome,
      regionForName_isSome, names_of_alike hrem, ← mem_map, ← mem_map,
      h.providers.mem_iff]
  unfold smallestUnresolvedProvider sortedStrings
  rw [sortBy_id_of_perm hp]

theorem followCycle_alike (h : Forall₂ Alike regions others) (c : String)
    (path : List String) : followCycle regions c path = followCycle others c path := by
  induction c, path using followCycle.induct regions with
  | case1 c path hno =>
    have hrel := regionForName_alike h c
    rw [hno] at hrel
    rw [followCycle_none hno, followCycle_none (eq_none_of_rel hrel)]
  | case2 c path rg hreg hno =>
    have hrel := regionForName_alike h c
    rw [hreg] at hrel
    obtain ⟨ot, ho, hal⟩ := exists_of_rel hrel
    rw [followCycle_free hreg hno, followCycle_free ho]
    rw [← smallestUnresolvedProvider_alike hal h, hno]
  | case3 c path rg hreg nn hn sa hs =>
    have hrel := regionForName_alike h c
    rw [hreg] at hrel
    obtain ⟨ot, ho, hal⟩ := exists_of_rel hrel
    rw [followCycle_seen hreg hn hs, followCycle_seen ho _ hs]
    rw [← smallestUnresolvedProvider_alike hal h, hn]
  | case4 c path rg hreg nn hn hu ih =>
    have hrel := regionForName_alike h c
    rw [hreg] at hrel
    obtain ⟨ot, ho, hal⟩ := exists_of_rel hrel
    rw [followCycle_unseen hreg hn hu, followCycle_unseen ho _ hu, ih]
    rw [← smallestUnresolvedProvider_alike hal h, hn]

theorem deterministicCycleEvidence_alike (h : Forall₂ Alike regions others) :
    deterministicCycleEvidence regions = deterministicCycleEvidence others := by
  have hw := followCycle_alike h
  cases h with
  | nil => rfl
  | @cons rg ot regions others hh _ =>
    show followCycle _ rg.regionName [rg.regionName] = _
    rw [hw, hh.name]
    rfl

/-- Regions that agree one by one are scheduled alike. -/
theorem scheduleFrom_alike (rm s : List RegionDecl) (ns : List String)
    {rm' s' : List RegionDecl} (hrem : Forall₂ Alike rm rm')
    (hs : Forall₂ Alike s s') :
    SameVerdict (scheduleFrom rm s ns) (scheduleFrom rm' s' ns) := by
  induction rm, s, ns using scheduleFrom.induct generalizing rm' s' with
  | case1 rm s ns hemp =>
    obtain rfl := List.isEmpty_iff.mp hemp
    cases hrem
    rw [scheduleFrom_empty, scheduleFrom_empty]
    exact SameVerdict.ready hs rfl
  | case2 rm s ns hso hn =>
    have hrel := firstReadyRegion_alike hrem ns
    rw [hn] at hrel
    have hs' : ¬ rm'.isEmpty = true := by
      cases hrem with
      | nil => exact absurd rfl hso
      | cons => exact Bool.false_ne_true
    rw [scheduleFrom_stuck _ hso hn, scheduleFrom_stuck _ hs' (eq_none_of_rel hrel),
      deterministicCycleEvidence_alike hrem]
    exact SameVerdict.rejected _
  | case3 rm s ns hso r hr ih =>
    have hrel := firstReadyRegion_alike hrem ns
    rw [hr] at hrel
    obtain ⟨r', hr', hal⟩ := exists_of_rel hrel
    have hs' : ¬ rm'.isEmpty = true := by
      cases hrem with
      | nil => exact absurd rfl hso
      | cons => exact Bool.false_ne_true
    rw [scheduleFrom_turn _ hso hr, scheduleFrom_turn _ hs' hr', ← hal.name]
    exact ih (removeRegion_alike hrem _) (rel_append hs (Forall₂.cons hal Forall₂.nil))

/-- Graphs that agree up to their order get the same verdict. -/
theorem validate_alike (h : Reordered Alike regions others) :
    SameVerdict (validateAndScheduleRegions regions) (validateAndScheduleRegions others) := by
  have hn : (regions.map RegionDecl.regionName).Perm (others.map RegionDecl.regionName) :=
    perm_map_of_reordered (fun _ _ hab => hab.name) h
  have hdup : firstDuplicateRegionName (sortedRegions regions) =
      firstDuplicateRegionName (sortedRegions others) := firstRepeat_sortBy_of_perm hn
  have hnd : firstDuplicateRegionName (sortedRegions regions) = none →
      (regions.map RegionDecl.regionName).Nodup := firstRepeat_sortBy_eq_none.mp
  unfold validateAndScheduleRegions
  dsimp only
  rw [← hdup]
  split
  · exact SameVerdict.rejected _
  rename_i hno
  have hord : Forall₂ Alike (sortedRegions regions) (sortedRegions others) :=
    sortBy_forall₂ (fun _ _ hab => hab.name) h (hnd hno)
  have hcnt : mainCount (sortedRegions regions) = mainCount (sortedRegions others) := by
    rw [mainCount_eq, mainCount_eq, names_of_alike hord]
  have hp : duplicatePortProblem (sortedRegions regions) =
      duplicatePortProblem (sortedRegions others) :=
    findSome?_of_forall₂ hord fun _ _ _ hab => hab.portProblem_eq
  rw [← hcnt, ← hp]
  split
  · exact SameVerdict.rejected _
  split
  · exact SameVerdict.rejected _
  rename_i hpn
  rw [← referenceProblem_alike hord (duplicatePortProblem_eq_none.mp hpn)]
  split
  · exact SameVerdict.rejected _
  exact scheduleFrom_alike _ _ _ hord Forall₂.nil

end

/-- A span for regions that stand nowhere. -/
def noSpan : RegionSourceSpan := ⟨"", 0, 0⟩

/-- `main`, without inputs and outputs. -/
def loneMain : RegionDecl := ⟨"m", "main", "c", [], [], ⟨"", 0, 0, ""⟩, noSpan, noSpan⟩

/-- `main`, with its own output as input. -/
def selfMain : RegionDecl :=
  { loneMain with
    inputs := [⟨"in", "main", "out", "t", noSpan⟩]
    outputs := [⟨"out", "t", noSpan⟩] }

theorem loneMain_resolved : Resolved [loneMain] where
  names := by decide
  main := by decide
  inputPorts := by decide
  outputPorts := by decide
  provided := fun rg hreg i hi => by
    obtain rfl := mem_singleton.mp hreg
    exact absurd hi not_mem_nil

theorem selfMain_resolved : Resolved [selfMain] where
  names := by decide
  main := by decide
  inputPorts := by decide
  outputPorts := by decide
  provided := fun rg hreg i hi => by
    obtain rfl := mem_singleton.mp hreg
    obtain rfl := mem_singleton.mp hi
    exact ⟨selfMain, mem_cons_self, rfl, _, mem_cons_self, rfl, rfl⟩

theorem loneMain_acyclic : Acyclic [loneMain] := by
  intro n hcyc
  obtain ⟨_, ⟨rg, hreg, -, i, hi, -⟩, -⟩ := Relation.TransGen.head'_iff.mp hcyc
  obtain rfl := mem_singleton.mp hreg
  exact absurd hi not_mem_nil

end Beagle.Regions
