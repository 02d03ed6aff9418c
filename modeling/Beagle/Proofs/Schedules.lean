/-
What a schedule of regions is.

The checks leave regions whose inputs all lead to regions of the graph.  As long as one of
these is ready it is taken, and if none is, every one of them has a provider among them,
so that the walk along the smallest of these comes back to a name it has seen.
-/
import Beagle.Native.Regions

namespace Beagle.Regions

open Beagle.Lib.KeySort List

/-! ### Graphs -/

/-- A region of one name takes an input from a region of the other. -/
def Consumes (regions : List RegionDecl) (consumer provider : String) : Prop :=
  ∃ region ∈ regions, region.regionName = consumer ∧
    ∃ input ∈ region.inputs, input.providerRegion = provider

/-- No region is a provider of its own providers. -/
def Acyclic (regions : List RegionDecl) : Prop :=
  ∀ name, ¬ Relation.TransGen (Consumes regions) name name

/-- An input names an output of its type. -/
def Provided (regions : List RegionDecl) (input : TypedInput) : Prop :=
  ∃ provider ∈ regions, provider.regionName = input.providerRegion ∧
    ∃ output ∈ provider.outputs, output.port = input.providerPort ∧
      output.typeId = input.expectedTypeId

/-- Everything but the order: names and ports are unique, `main` is there, and every input
is provided. -/
structure Resolved (regions : List RegionDecl) : Prop where
  names : (regions.map RegionDecl.regionName).Nodup
  main : (regions.map RegionDecl.regionName).count "main" = 1
  inputPorts : ∀ region ∈ regions, (region.inputs.map TypedInput.localPort).Nodup
  outputPorts : ∀ region ∈ regions, (region.outputs.map TypedOutput.port).Nodup
  provided : ∀ region ∈ regions, ∀ input ∈ region.inputs, Provided regions input

/-- Names from one to itself, each a consumer of the next. -/
structure IsCycle (regions : List RegionDecl) (names : List String) : Prop where
  closed : ∃ first middle, names = first :: (middle ++ [first])
  linked : names.IsChain (Consumes regions)

variable {rs others : List RegionDecl} {names : List String}

theorem Consumes.mono (h : ∀ region ∈ rs, region ∈ others) {a b : String}
    (hab : Consumes rs a b) : Consumes others a b := by
  obtain ⟨region, hreg, hn, hi⟩ := hab
  exact ⟨region, h region hreg, hn, hi⟩

theorem IsCycle.mono (h : ∀ region ∈ rs, region ∈ others) (hcyc : IsCycle rs names) :
    IsCycle others names :=
  ⟨hcyc.closed, hcyc.linked.imp fun _ _ => Consumes.mono h⟩

theorem transGen_of_isChain {first last : String}
    (h : (first :: (names ++ [last])).IsChain (Consumes rs)) :
    Relation.TransGen (Consumes rs) first last := by
  induction names generalizing first with
  | nil => exact Relation.TransGen.single (isChain_cons_cons.mp h).1
  | cons n names ih =>
    obtain ⟨hs, hr⟩ := isChain_cons_cons.mp h
    exact Relation.TransGen.head hs (ih hr)

/-- A graph with a cycle is not acyclic. -/
theorem IsCycle.not_acyclic (h : IsCycle rs names) : ¬ Acyclic rs := by
  obtain ⟨first, m, rfl⟩ := h.closed
  exact fun ha => ha first (transGen_of_isChain h.linked)

/-! ### Lookups -/

theorem regionForName_eq {name : String} {region : RegionDecl}
    (h : regionForName rs name = some region) :
    region ∈ rs ∧ region.regionName = name := by
  unfold regionForName at h
  have hn := find?_some h
  exact ⟨mem_of_find?_eq_some h, (beq_iff_eq.mp hn).symm⟩

variable {outputs : List TypedOutput} {output : TypedOutput} {input : TypedInput}

theorem outputForPort_eq {port : String} (h : outputForPort outputs port = some output) :
    output ∈ outputs ∧ output.port = port := by
  unfold outputForPort at h
  have hp := find?_some h
  exact ⟨mem_of_find?_eq_some h, (beq_iff_eq.mp hp).symm⟩

/-- Where names are unique a region is found under its name. -/
theorem regionForName_of_mem (hn : (rs.map RegionDecl.regionName).Nodup)
    {region : RegionDecl} (h : region ∈ rs) :
    regionForName rs region.regionName = some region := by
  have hs : (regionForName rs region.regionName).isSome = true :=
    regionForName_isSome.mpr (mem_map_of_mem h)
  obtain ⟨fd, hf⟩ := Option.isSome_iff_exists.mp hs
  obtain ⟨hmem, hna⟩ := regionForName_eq hf
  rw [hf, inj_on_of_nodup_map hn hmem h hna]

theorem outputForPort_of_mem (hp : (outputs.map TypedOutput.port).Nodup) (h : output ∈ outputs) :
    outputForPort outputs output.port = some output := by
  have hs : (outputForPort outputs output.port).isSome = true := by
    unfold outputForPort
    rw [find?_isSome]
    exact ⟨output, h, beq_self_eq_true _⟩
  obtain ⟨fd, hf⟩ := Option.isSome_iff_exists.mp hs
  obtain ⟨hmem, hpo⟩ := outputForPort_eq hf
  rw [hf, inj_on_of_nodup_map hp hmem h hpo]

/-! ### The checks -/

theorem foldl_mainCount (rs : List RegionDecl) (t : Nat) :
    rs.foldl (fun t region => if "main" = region.regionName then t + 1 else t)
        t = t + (rs.map RegionDecl.regionName).count "main" := by
  induction rs generalizing t with
  | nil => rfl
  | cons region rs ih =>
    rw [foldl_cons, ih, map_cons, count_cons]
    by_cases h : "main" = region.regionName
    · rw [if_pos h, if_pos (beq_iff_eq.mpr h.symm)]
      omega
    · rw [if_neg h, if_neg fun heq => h (beq_iff_eq.mp heq).symm]
      omega

theorem mainCount_eq (rs : List RegionDecl) :
    mainCount rs = (rs.map RegionDecl.regionName).count "main" := by
  unfold mainCount
  rw [foldl_mainCount, Nat.zero_add]

theorem portProblem_eq_none {region : RegionDecl} :
    portProblem region = none ↔ (region.inputs.map TypedInput.localPort).Nodup ∧
      (region.outputs.map TypedOutput.port).Nodup := by
  have hi : firstDuplicateInputPort region.inputs = none ↔ _ := firstRepeat_sortBy_eq_none
  have ho : firstDuplicateOutputPort region.outputs = none ↔ _ := firstRepeat_sortBy_eq_none
  rw [← hi, ← ho]
  unfold portProblem
  cases firstDuplicateInputPort region.inputs with
  | some => exact ⟨nofun, nofun⟩
  | none =>
    cases firstDuplicateOutputPort region.outputs with
    | some => exact ⟨nofun, nofun⟩
    | none => exact ⟨fun _ => ⟨rfl, rfl⟩, fun _ => rfl⟩

theorem duplicatePortProblem_eq_none : duplicatePortProblem rs = none ↔ ∀ region ∈ rs,
      (region.inputs.map TypedInput.localPort).Nodup ∧
        (region.outputs.map TypedOutput.port).Nodup := by
  unfold duplicatePortProblem
  rw [findSome?_eq_none_iff]
  exact ⟨fun h region hreg => portProblem_eq_none.mp (h region hreg),
    fun h region hreg => portProblem_eq_none.mpr (h region hreg)⟩

/-- Where names and ports are unique, an input has no problem when it is provided. -/
theorem inputReferenceProblem_eq_none (hna : (rs.map RegionDecl.regionName).Nodup)
    (hpo : ∀ region ∈ rs, (region.outputs.map TypedOutput.port).Nodup) {region : RegionDecl}
    :
    inputReferenceProblem region input rs = none ↔ Provided rs input := by
  unfold inputReferenceProblem
  constructor
  · intro h
    split at h
    · cases h
    · rename_i p hpr
      split at h
      · cases h
      · rename_i output ho
        split at h
        · cases h
        · rename_i ht
          obtain ⟨hmem, hn⟩ := regionForName_eq hpr
          obtain ⟨hout, hp⟩ := outputForPort_eq ho
          exact ⟨p, hmem, hn, output, hout, hp, (not_not.mp ht).symm⟩
  · rintro ⟨p, hmem, hn, output, hout, hp, ht⟩
    rw [← hn, regionForName_of_mem hna hmem]
    dsimp only
    rw [← hp, outputForPort_of_mem (hpo p hmem) hout]
    dsimp only
    rw [ht, if_neg (not_not_intro rfl)]

theorem referenceProblem_eq_none (hn : (rs.map RegionDecl.regionName).Nodup)
    (hp : ∀ region ∈ rs, (region.outputs.map TypedOutput.port).Nodup) :
    referenceProblem rs = none ↔ ∀ region ∈ rs, ∀ input ∈ region.inputs, Provided rs input := by
  unfold referenceProblem
  rw [findSome?_eq_none_iff]
  refine forall₂_congr fun region _ => ?_
  unfold regionReferenceProblem
  rw [findSome?_eq_none_iff]
  constructor
  · intro h input hi
    exact (inputReferenceProblem_eq_none hn hp).mp (h input (mem_sortBy.mpr hi))
  · intro h input hi
    exact (inputReferenceProblem_eq_none hn hp).mpr (h input (mem_sortBy.mp hi))

/-- The order of the declarations does not matter to the checks. -/
theorem Resolved.perm (hp : rs.Perm others) (h : Resolved rs) : Resolved others where
  names := (hp.map _).nodup_iff.mp h.names
  main := by rw [← (hp.map RegionDecl.regionName).count_eq]; exact h.main
  inputPorts := fun region hreg => h.inputPorts region (hp.mem_iff.mpr hreg)
  outputPorts := fun region hreg => h.outputPorts region (hp.mem_iff.mpr hreg)
  provided := by
    intro region hreg input hi
    obtain ⟨p, hmem, hr⟩ := h.provided region (hp.mem_iff.mpr hreg) input hi
    exact ⟨p, hp.mem_iff.mp hmem, hr⟩

theorem sortedRegions_perm (rs : List RegionDecl) : (sortedRegions rs).Perm rs :=
  sortBy_perm rs

/-- The verdict is that of the schedule when everything is resolved, and otherwise a
problem that is no cycle. -/
theorem validate_cases (rs : List RegionDecl) : (Resolved rs ∧
      validateAndScheduleRegions rs = scheduleRegions (sortedRegions rs)) ∨
    (¬ Resolved rs ∧ ∃ p, validateAndScheduleRegions rs = .rejected p) := by
  have hpe := sortedRegions_perm rs
  have hn : firstDuplicateRegionName (sortedRegions rs) = none ↔
      (rs.map RegionDecl.regionName).Nodup := firstRepeat_sortBy_eq_none
  unfold validateAndScheduleRegions
  dsimp only
  split
  · rename_i d hdup
    refine Or.inr ⟨fun h => ?_, _, rfl⟩
    rw [hn.mpr h.names] at hdup
    cases hdup
  rename_i hdup
  have hnd := hn.mp hdup
  have hcnt : mainCount (sortedRegions rs) = (rs.map RegionDecl.regionName).count "main" := by
    rw [mainCount_eq]
    exact (hpe.map _).count_eq _
  split
  · rename_i hm
    exact Or.inr ⟨fun h => hm (hcnt.trans h.main), _, rfl⟩
  rename_i hm
  split
  · rename_i p hpr
    refine Or.inr ⟨fun h => ?_, _, rfl⟩
    have hno := duplicatePortProblem_eq_none.mpr fun region hreg =>
      ⟨(h.perm hpe.symm).inputPorts region hreg, (h.perm hpe.symm).outputPorts region hreg⟩
    rw [hno] at hpr
    cases hpr
  rename_i hp
  have hp := duplicatePortProblem_eq_none.mp hp
  have hnd' := (hpe.symm.map RegionDecl.regionName).nodup_iff.mp hnd
  have hr := referenceProblem_eq_none hnd' fun region hreg => (hp region hreg).2
  split
  · rename_i p hpr
    refine Or.inr ⟨fun h => ?_, _, rfl⟩
    rw [hr.mpr (h.perm hpe.symm).provided] at hpr
    cases hpr
  rename_i hpro
  refine Or.inl ⟨?_, rfl⟩
  have hre : Resolved (sortedRegions rs) :=
    { names := hnd'
      main := by rw [← mainCount_eq]; exact not_not.mp hm
      inputPorts := fun region hreg => (hp region hreg).1
      outputPorts := fun region hreg => (hp region hreg).2
      provided := hr.mp hpro }
  exact hre.perm hpe

/-! ### Cycles -/

/-- Every region takes an input from one of them. -/
def Stuck (remaining : List RegionDecl) : Prop :=
  ∀ region ∈ remaining, ∃ input ∈ region.inputs,
    input.providerRegion ∈ remaining.map RegionDecl.regionName

theorem smallestUnresolvedProvider_of_mem {region : RegionDecl} {rm : List RegionDecl}
    (hi : input ∈ region.inputs)
    (hp : input.providerRegion ∈ rm.map RegionDecl.regionName) :
    smallestUnresolvedProvider region rm ≠ none := by
  have hmem : input.providerRegion ∈ sortedStrings (unresolvedProviders region rm) :=
    mem_sortBy.mpr (mem_unresolvedProviders.mpr ⟨⟨input, hi, rfl⟩, regionForName_isSome.mpr hp⟩)
  intro hn
  rw [smallestUnresolvedProvider, head?_eq_none_iff] at hn
  rw [hn] at hmem
  exact absurd hmem not_mem_nil

/-- One more step of the walk. -/
theorem isChain_append_provider {rm : List RegionDecl} {c nn : String}
    {path : List String} {region : RegionDecl} (hl : path.getLast? = some c)
    (hc : path.IsChain (Consumes rm))
    (hreg : regionForName rm c = some region)
    (hne : smallestUnresolvedProvider region rm = some nn) :
    (path ++ [nn]).IsChain (Consumes rm) := by
  obtain ⟨hmem, hn⟩ := regionForName_eq hreg
  obtain ⟨hi, -⟩ := mem_unresolvedProviders.mp (smallestUnresolvedProvider_mem hne)
  refine isChain_append.mpr ⟨hc, isChain_singleton _, ?_⟩
  intro a ha b hb
  rw [hl, Option.mem_some_iff] at ha
  rw [head?_cons, Option.mem_some_iff] at hb
  rw [← ha, ← hb]
  exact ⟨region, hmem, hn, hi⟩

section

variable {rm : List RegionDecl} {c nn : String} {path : List String}
  {region : RegionDecl}

theorem followCycle_none (hreg : regionForName rm c = none) : followCycle rm c path = path := by
  rw [followCycle, hreg]

variable (hreg : regionForName rm c = some region)
include hreg

theorem followCycle_free (hn : smallestUnresolvedProvider region rm = none) :
    followCycle rm c path = path := by
  rw [followCycle, hreg]
  dsimp only
  split
  · rfl
  · rename_i o ho
    rw [hn] at ho
    cases ho

theorem followCycle_seen {sa : Nat} (hn : smallestUnresolvedProvider region rm = some nn)
    (hs : path.idxOf? nn = some sa) :
    followCycle rm c path = path.drop sa ++ [nn] := by
  rw [followCycle, hreg]
  dsimp only
  split
  · rename_i hno
    rw [hn] at hno
    cases hno
  · rename_i o ho
    obtain rfl := Option.some.inj (hn.symm.trans ho)
    split
    · rename_i sa' hs'
      rw [Option.some.inj (hs.symm.trans hs')]
    · rename_i hu
      rw [hs] at hu
      cases hu

theorem followCycle_unseen (hn : smallestUnresolvedProvider region rm = some nn)
    (hu : path.idxOf? nn = none) :
    followCycle rm c path = followCycle rm nn (path ++ [nn]) := by
  rw [followCycle, hreg]
  dsimp only
  split
  · rename_i hno
    rw [hn] at hno
    cases hno
  · rename_i o ho
    obtain rfl := Option.some.inj (hn.symm.trans ho)
    split
    · rename_i sa' hs'
      rw [hu] at hs'
      cases hs'
    · rfl

end

/-- Among regions that are all stuck the walk ends in a cycle. -/
theorem followCycle_isCycle {rm : List RegionDecl} (hst : Stuck rm)
    (c : String) (path : List String)
    (hcur : c ∈ rm.map RegionDecl.regionName)
    (hl : path.getLast? = some c) (hc : path.IsChain (Consumes rm)) :
    IsCycle rm (followCycle rm c path) := by
  induction c, path using followCycle.induct rm with
  | case1 c path hno =>
    have hso := regionForName_isSome.mpr hcur
    rw [hno] at hso
    cases hso
  | case2 c path region hreg hno =>
    obtain ⟨hmem, -⟩ := regionForName_eq hreg
    obtain ⟨input, hi, hp⟩ := hst region hmem
    exact absurd hno (smallestUnresolvedProvider_of_mem hi hp)
  | case3 c path region hreg nn hn sa hs =>
    have hlo := isChain_append_provider hl hc hreg hn
    obtain ⟨hlt, hat, -⟩ := idxOf?_eq_some_iff.mp hs
    have hdr : path.drop sa = nn :: path.drop (sa + 1) := by
      rw [drop_eq_getElem_cons hlt, hat]
    rw [followCycle_seen hreg hn hs]
    refine ⟨⟨nn, path.drop (sa + 1), by rw [hdr, cons_append]⟩, ?_⟩
    have hd := hlo.drop sa
    rwa [drop_append_of_le_length (Nat.le_of_lt hlt)] at hd
  | case4 c path region hreg nn hn hu ih =>
    have hna := (mem_unresolvedProviders.mp (smallestUnresolvedProvider_mem hn)).2
    rw [followCycle_unseen hreg hn hu]
    exact ih (regionForName_isSome.mp hna) getLast?_concat (isChain_append_provider hl hc hreg hn)

/-! ### The run -/

/-- All providers of a region are among those in front. -/
def ReadyAfter (front : List RegionDecl) (region : RegionDecl) : Prop :=
  ∀ input ∈ region.inputs, ∃ provider ∈ front, provider.regionName = input.providerRegion

/-- Every region comes when it is ready, before every region of a larger name that is. -/
def InOrder (scheduled rest : List RegionDecl) : Prop :=
  ∀ front region back, scheduled = front ++ region :: back →
    ReadyAfter front region ∧
      ∀ other ∈ back ++ rest, ReadyAfter front other → region.regionName < other.regionName

/-- What holds before every turn of the loop. -/
structure Scheduling (regions remaining scheduled : List RegionDecl) (names : List String) :
    Prop where
  perm : (scheduled ++ remaining).Perm regions
  names : names = scheduled.map RegionDecl.regionName
  sorted : remaining.Pairwise fun a b => a.regionName < b.regionName
  inOrder : InOrder scheduled remaining

/-- What a schedule is. -/
structure IsSchedule (regions : List RegionDecl) (schedule : RegionSchedule) : Prop where
  perm : schedule.regions.Perm regions
  names : schedule.regionNames = schedule.regions.map RegionDecl.regionName
  inOrder : InOrder schedule.regions []

variable {s : List RegionDecl}

theorem regionReady_iff {region : RegionDecl} :
    regionReady region (s.map RegionDecl.regionName) = true ↔ ReadyAfter s region := by
  unfold regionReady ReadyAfter
  rw [all_eq_true]
  refine forall₂_congr fun input _ => ?_
  rw [contains_iff_mem, mem_map]

variable {ready : RegionDecl} {sc : RegionSchedule}

/-- The first ready region splits what remains. -/
theorem firstReadyRegion_eq {rm : List RegionDecl}
    (hsrt : rm.Pairwise fun a b => a.regionName < b.regionName)
    (h : firstReadyRegion rm (s.map RegionDecl.regionName) = some ready) :
    ∃ pre af, rm = pre ++ ready :: af ∧
      removeRegion rm ready.regionName = pre ++ af ∧ ReadyAfter s ready ∧
      ∀ o ∈ pre ++ af, ReadyAfter s o → ready.regionName < o.regionName := by
  unfold firstReadyRegion at h
  obtain ⟨hr, pre, af, rfl, hpre⟩ := find?_eq_some_iff_append.mp h
  obtain ⟨-, hpost, hc⟩ := pairwise_append.mp hsrt
  replace hpost := (pairwise_cons.mp hpost).1
  have hk : ∀ o ∈ pre ++ af, (ready.regionName != o.regionName) = true := by
    intro o ho
    rw [bne_iff_ne]
    rcases List.mem_append.mp ho with ho | ho
    · exact (hc o ho ready mem_cons_self).ne'
    · exact (hpost o ho).ne
  refine ⟨pre, af, rfl, ?_, regionReady_iff.mp hr, ?_⟩
  · unfold removeRegion
    have hs : (ready.regionName != ready.regionName) = false := by simp
    rw [filter_append, filter_cons_of_neg (by simp), ← filter_append]
    exact filter_eq_self.mpr hk
  · intro o ho hpr
    rcases List.mem_append.mp ho with ho | ho
    · have hnot := hpre o ho
      rw [regionReady_iff.mpr hpr] at hnot
      cases hnot
    · exact hpost o ho

/-- One turn of the loop. -/
theorem Scheduling.step {rs rm s : List RegionDecl} {names : List String}
    {ready : RegionDecl} (h : Scheduling rs rm s names)
    (hre : firstReadyRegion rm names = some ready) :
    Scheduling rs (removeRegion rm ready.regionName) (s ++ [ready])
      (names ++ [ready.regionName]) := by
  rw [h.names] at hre
  obtain ⟨pre, a, hrem, hr, hp, hs⟩ :=
    firstReadyRegion_eq h.sorted hre
  have hmid : rm.Perm (ready :: (pre ++ a)) := by
    rw [hrem]
    exact perm_middle
  rw [hr]
  refine ⟨?_, ?_, ?_, ?_⟩
  · rw [append_assoc, singleton_append]
    exact (hmid.symm.append_left s).trans h.perm
  · rw [h.names, map_append]
    rfl
  · rw [← hr]
    exact h.sorted.filter _
  · intro fr region b hsp
    rcases eq_nil_or_concat b with rfl | ⟨b, l, rfl⟩
    · obtain ⟨rfl, hl⟩ := append_inj' hsp rfl
      obtain rfl := singleton_inj.mp hl
      exact ⟨hp, hs⟩
    · rw [concat_eq_append, ← cons_append, ← append_assoc] at hsp
      obtain ⟨hfr, hl⟩ := append_inj' hsp rfl
      obtain rfl := singleton_inj.mp hl
      obtain ⟨hreg, hos⟩ := h.inOrder fr region b hfr
      refine ⟨hreg, fun o ho => hos o ?_⟩
      rw [concat_eq_append, append_assoc, List.mem_append] at ho
      rw [List.mem_append, hmid.mem_iff]
      exact ho

/-- When no region is ready all are stuck. -/
theorem Scheduling.stuck {rm : List RegionDecl} (h : Scheduling rs rm s names) (hr : Resolved rs)
    (hno : firstReadyRegion rm names = none) : Stuck rm := by
  intro region hreg
  have hnot := find?_eq_none.mp hno region hreg
  rw [h.names, regionReady_iff] at hnot
  unfold ReadyAfter at hnot
  simp only [not_forall] at hnot
  obtain ⟨input, hi, hm⟩ := hnot
  refine ⟨input, hi, ?_⟩
  have hmem : region ∈ rs := h.perm.mem_iff.mp (mem_append_right _ hreg)
  obtain ⟨p, hprov, hn, -⟩ := hr.provided region hmem input hi
  rcases List.mem_append.mp (h.perm.mem_iff.mpr hprov) with hprov | hprov
  · exact absurd ⟨p, hprov, hn⟩ hm
  · exact mem_map.mpr ⟨p, hprov, hn⟩

theorem deterministicCycleEvidence_isCycle {rm : List RegionDecl} (hs : Stuck rm)
    (hso : rm ≠ []) : IsCycle rm (deterministicCycleEvidence rm) := by
  cases rm with
  | nil => exact absurd rfl hso
  | cons first r =>
    exact followCycle_isCycle hs _ _ (mem_map_of_mem mem_cons_self) rfl (isChain_singleton _)

theorem scheduleFrom_empty (s : List RegionDecl) (names : List String) :
    scheduleFrom [] s names = .ready ⟨s, names⟩ := by
  rw [scheduleFrom]
  rfl

theorem scheduleFrom_stuck {rm : List RegionDecl} (s : List RegionDecl)
    (hs : ¬ rm.isEmpty = true) (hn : firstReadyRegion rm names = none) :
    scheduleFrom rm s names = .rejected ⟨.cycle, "", "", deterministicCycleEvidence rm⟩ := by
  rw [scheduleFrom, if_neg hs]
  split
  · rfl
  · rename_i hr
    rw [hn] at hr
    cases hr

theorem scheduleFrom_turn {rm : List RegionDecl} (s : List RegionDecl)
    (hs : ¬ rm.isEmpty = true) (hr : firstReadyRegion rm names = some ready) :
    scheduleFrom rm s names = scheduleFrom (removeRegion rm ready.regionName) (s ++ [ready])
        (names ++ [ready.regionName]) := by
  rw [scheduleFrom, if_neg hs]
  split
  · rename_i hn
    rw [hr] at hn
    cases hn
  · rename_i o ho
    rw [Option.some.inj (hr.symm.trans ho)]

/-- The loop ends with a schedule, or with a cycle of the graph. -/
theorem scheduleFrom_cases (hre : Resolved rs) (rm s : List RegionDecl)
    (names : List String) (h : Scheduling rs rm s names) :
    (∃ sc, scheduleFrom rm s names = .ready sc ∧ IsSchedule rs sc) ∨
    (∃ ev, scheduleFrom rm s names = .rejected ⟨.cycle, "", "", ev⟩ ∧ IsCycle rs ev) := by
  induction rm, s, names using scheduleFrom.induct with
  | case1 rm s names hemp =>
    obtain rfl := List.isEmpty_iff.mp hemp
    refine Or.inl ⟨⟨s, names⟩, scheduleFrom_empty _ _, ?_, h.names, h.inOrder⟩
    have hp := h.perm
    rwa [append_nil] at hp
  | case2 rm s names hs hn =>
    refine Or.inr ⟨_, scheduleFrom_stuck s hs hn, ?_⟩
    have hcyc := deterministicCycleEvidence_isCycle (h.stuck hre hn)
      fun hnil => hs (List.isEmpty_iff.mpr hnil)
    exact hcyc.mono fun region hreg =>
      h.perm.mem_iff.mp (mem_append_right _ hreg)
  | case3 rm s names hs ready hr ih =>
    rw [scheduleFrom_turn s hs hr]
    exact ih (h.step hr)

/-- In a schedule every provider comes before its consumers, so there is no cycle. -/
theorem IsSchedule.acyclic (hr : Resolved rs) (h : IsSchedule rs sc) : Acyclic rs := by
  have hnd : (sc.regions.map RegionDecl.regionName).Nodup :=
    (h.perm.map _).nodup_iff.mpr hr.names
  have he : ∀ a b, Consumes rs a b → (sc.regions.map RegionDecl.regionName).idxOf b <
        (sc.regions.map RegionDecl.regionName).idxOf a := by
    rintro a b ⟨region, hreg, rfl, input, hi, rfl⟩
    obtain ⟨fr, bk, hsp⟩ := append_of_mem (h.perm.mem_iff.mpr hreg)
    obtain ⟨p, hp, hn⟩ := (h.inOrder fr region bk hsp).1 input hi
    rw [hsp, map_append, map_cons] at hnd ⊢
    have hu : region.regionName ∉ fr.map RegionDecl.regionName := by
      intro hmem
      exact (nodup_append.mp hnd).2.2 _ hmem _ mem_cons_self rfl
    have hse : input.providerRegion ∈ fr.map RegionDecl.regionName :=
      mem_map.mpr ⟨p, hp, hn⟩
    rw [idxOf_append_of_mem hse, idxOf_append_of_notMem hu]
    exact Nat.lt_add_right _ (idxOf_lt_length_iff.mpr hse)
  intro n hcyc
  have hl : ∀ a b, Relation.TransGen (Consumes rs) a b →
      (sc.regions.map RegionDecl.regionName).idxOf b <
        (sc.regions.map RegionDecl.regionName).idxOf a := by
    intro a b hab
    induction hab with
    | single hs => exact he _ _ hs
    | tail _ hs ih => exact Nat.lt_trans (he _ _ hs) ih
  exact Nat.lt_irrefl _ (hl n n hcyc)

/-- The loop over the regions in order of their names. -/
theorem scheduleRegions_cases (hr : Resolved rs) :
    (∃ sc, scheduleRegions (sortedRegions rs) = .ready sc ∧ IsSchedule rs sc) ∨
    (∃ ev, scheduleRegions (sortedRegions rs) =
        .rejected ⟨.cycle, "", "", ev⟩ ∧ IsCycle rs ev) := by
  refine scheduleFrom_cases hr _ _ _ ⟨sortedRegions_perm rs, rfl, ?_, ?_⟩
  · refine strict_of_nodup (sortBy_sorted rs) ?_
    exact ((sortedRegions_perm rs).map _).nodup_iff.mpr hr.names
  · intro fr region b hsp
    simp at hsp

/-- There is a schedule exactly when everything is resolved and there is no cycle. -/
theorem validate_ready_iff (rs : List RegionDecl) :
    (∃ sc, validateAndScheduleRegions rs = .ready sc) ↔ Resolved rs ∧ Acyclic rs := by
  rcases validate_cases rs with ⟨hr, hv⟩ | ⟨hu, p, hv⟩
  · rw [hv]
    rcases scheduleRegions_cases hr with ⟨sc, hs, h⟩ | ⟨ev, hcyc, h⟩
    · exact ⟨fun _ => ⟨hr, h.acyclic hr⟩, fun _ => ⟨sc, hs⟩⟩
    · rw [hcyc]
      exact ⟨nofun, fun ha => absurd ha.2 h.not_acyclic⟩
  · rw [hv]
    exact ⟨nofun, fun hr => absurd hr.1 hu⟩

theorem isSchedule_of_validate (h : validateAndScheduleRegions rs = .ready sc) :
    IsSchedule rs sc := by
  rcases validate_cases rs with ⟨hr, hv⟩ | ⟨-, p, hv⟩
  · rw [hv] at h
    rcases scheduleRegions_cases hr with ⟨s', hs, h'⟩ | ⟨ev, hcyc, -⟩
    · rw [hs] at h
      cases h
      exact h'
    · rw [hcyc] at h
      cases h
  · rw [hv] at h
    cases h

theorem isCycle_of_validate (hr : Resolved rs) (hc : ¬ Acyclic rs) :
    ∃ evidence, validateAndScheduleRegions rs = .rejected ⟨.cycle, "", "", evidence⟩ ∧
      IsCycle rs evidence := by
  rcases validate_cases rs with ⟨-, hv⟩ | ⟨hu, -⟩
  · rw [hv]
    rcases scheduleRegions_cases hr with ⟨sc, -, h⟩ | hcyc
    · exact absurd (h.acyclic hr) hc
    · exact hcyc
  · exact absurd hr hu

end Beagle.Regions
