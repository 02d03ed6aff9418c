/-
Effects are accounted for along the stack.

A program that passes the obligation checks each instruction that names its storage, and each
function that a call or a closure names.  What a caller declares then contains what its callee
declares, except effects on epochs, so a deed of the youngest activation is covered all the way
down.  The obligation does not look at instructions that work through handles or on whole buffers,
nor at what a closure or a kernel exports where it is entered, nor at epochs of a caller.
-/
import Beagle.Lib.Activations
import Beagle.Native.Effects

namespace Beagle.Effects

open Beagle.NativeCore (NativeId Terminator idsIn idsIn_iff)
open Beagle.NativePrograms List
open Beagle.Lib.Activations

section

variable {program : NativeCoreProgram}

/-! ### What the obligation says of an instruction -/

variable {function callee caller : FunctionDef} {instruction : Instruction} {deed : Deed}
  {top : Frame} {callers state : List Frame} {t : EffectKind → Bool}

theorem declares_iff : declares program function t = true ↔
      ∃ ei ∈ function.effects, ∃ e, findEffect program.effects ei = some e ∧ t e.kind = true := by
  unfold declares
  rw [any_eq_true]
  constructor
  · rintro ⟨ei, hmem, h⟩
    split at h
    · exact ⟨ei, hmem, _, by assumption, h⟩
    · exact absurd h Bool.false_ne_true
  · rintro ⟨ei, hmem, e, hf, ht⟩
    refine ⟨ei, hmem, ?_⟩
    rw [hf]
    exact ht

theorem bounded_of_boundedEffects (h : boundedEffects program = none)
    (hfn : function ∈ program.functions) {b : BasicBlock}
    (hblk : b ∈ function.blocks) (hi : instruction ∈ b.instructions) :
    instructionEffectsBounded program function instruction = true := by
  unfold boundedEffects at h
  rw [Option.map_eq_none_iff, find?_eq_none] at h
  have hbd : functionEffectsBounded program function = true := by
    simpa using h function hfn
  unfold functionEffectsBounded at hbd
  rw [all_eq_true] at hbd
  exact all_eq_true.mp (hbd b hblk) instruction hi

/-- **What an instruction names is covered by its function.** -/
theorem covers_named (h : instructionEffectsBounded program function instruction = true)
    (hd : deed ∈ namedDeeds program instruction.operation) :
    covers program function deed = true := by
  obtain ⟨res, op⟩ := instruction
  cases op with
  | store | allocate | bufferAllocate | bufferLength | bufferGetChecked | bufferSetChecked | arena
  | atomState =>
    rw [mem_singleton.mp hd]
    simp [instructionEffectsBounded, holdsResources] at h
    simp [covers, h]
  | externCall ai ars ari =>
    cases habi : findAbi program.abis ai with
    | none => simp [namedDeeds, habi] at hd
    | some abi =>
      simp [instructionEffectsBounded, habi, idsIn_iff, subset_def] at h
      simp only [namedDeeds, habi, List.mem_append, mem_map] at hd
      rcases hd with ⟨ei, heff, rfl⟩ | ⟨c, hcap, rfl⟩
      · simp [covers, h.1.2 (mem_of_mem_filter heff)]
      · simp [covers, h.2 hcap]
  | _ => exact absurd hd not_mem_nil

/-! ### What a caller declares of its callee -/

def effectRegion (program : NativeCoreProgram) (effectId : NativeId) : Option NativeId :=
  (findEffect program.effects effectId).bind (·.kind.region)

/-- A region that is opened and closed is one of those. -/
def Within (program : NativeCoreProgram) (opened : List NativeId) (region : Option NativeId) : Prop :=
  epochLocalRegion program.regions region = true → ∃ id ∈ opened, region = some id

/-- The caller declares the capabilities and the effects of the callee, those on epochs that are
not open left out. -/
def Shares (program : NativeCoreProgram) (opened : List NativeId) (caller callee : FunctionDef) :
    Prop :=
  callee.capabilities ⊆ caller.capabilities ∧
    ∀ effectId ∈ callee.effects, Within program opened (effectRegion program effectId) →
      effectId ∈ caller.effects

def Pure (program : NativeCoreProgram) (function : FunctionDef) : Prop :=
  function.capabilities = [] ∧ ∀ effectId ∈ function.effects,
    (findEffect program.effects effectId).map (·.kind) = some .pureEffect

/-- The deed is not an effect that is none. -/
def Deed.Proper (program : NativeCoreProgram) : Deed → Prop
  | .foreign effectId => (findEffect program.effects effectId).map (·.kind) ≠ some .pureEffect
  | _ => True

theorem mem_calleeExportedEffects {ei : NativeId} :
    ei ∈ calleeExportedEffects program callee ↔ ei ∈ callee.effects ∧
      epochLocalRegion program.regions (effectRegion program ei) = false := by
  unfold calleeExportedEffects effectRegion
  rw [mem_filter]
  cases findEffect program.effects ei with
  | none => simp [epochLocalRegion]
  | some e => simp

theorem pure_of_updaterPure {ui : NativeId} {updater : FunctionDef}
    (hu : findFunction program.functions ui = some updater)
    (h : updaterPure program ui = true) : Pure program updater := by
  unfold updaterPure at h
  rw [hu] at h
  simp only [Bool.and_eq_true, List.isEmpty_iff, all_eq_true] at h
  refine ⟨h.1.2, fun ei heff => ?_⟩
  have hp := h.2 ei heff
  split at hp
  · rename_i e hf
    rw [hf, Option.map_some, beq_iff_eq.mp hp]
  · exact absurd hp Bool.false_ne_true

variable {od : List NativeId}

theorem declares_shared (hs : Shares program od caller callee)
    {region : NativeId}
    (ht : ∀ k, t k = true → k.region = some region)
    (hw : Within program od (some region)) (h : declares program callee t = true) :
    declares program caller t = true := by
  obtain ⟨ei, hmem, e, hf, hk⟩ := declares_iff.mp h
  have hreg : effectRegion program ei = some region := by
    unfold effectRegion
    rw [hf]
    exact ht _ hk
  refine declares_iff.mpr ⟨ei, hs.2 ei hmem ?_, e, hf, hk⟩
  rw [hreg]
  exact hw

/-- A function that has no effect covers no deed. -/
theorem not_covers_pure (hpu : Pure program function) (hp : deed.Proper program) :
    covers program function deed = false := by
  cases deed with
  | foreign ei =>
    have hmem : ei ∉ function.effects := fun h => hp (hpu.2 ei h)
    simp [covers, hmem]
  | _ => simp [covers, hpu.1]

/-- **A caller that shares with its callee covers what the callee covers.** -/
theorem covers_shared (hs : Shares program od caller callee)
    (hw : Within program od (deed.region program))
    (h : covers program callee deed = true) : covers program caller deed = true := by
  cases deed with
  | reads | allocates | atomic =>
    simp only [covers, Bool.and_eq_true, decide_eq_true_iff] at h ⊢
    refine ⟨declares_shared hs (fun k hkind => ?_) hw h.1, hs.1 h.2⟩
    simp [effectCoversRead, effectCoversAllocation, effectCoversAtomState] at hkind
    rw [hkind, EffectKind.region]
  | writes rg c =>
    simp only [covers, Bool.and_eq_true, decide_eq_true_iff] at h ⊢
    refine ⟨declares_shared hs (fun k hkind => ?_) hw h.1, hs.1 h.2⟩
    simp [effectCoversStore] at hkind
    rcases hkind with hkind | hkind <;> rw [hkind, EffectKind.region]
  | foreign ei =>
    simp only [covers, decide_eq_true_iff] at h ⊢
    exact hs.2 ei h hw
  | uses c =>
    simp only [covers, decide_eq_true_iff] at h ⊢
    exact hs.1 h

/-! ### The stack -/

def opens (frames : List Frame) : List NativeId := frames.flatMap (·.opened)

/-- What activations answer for. -/
def accounts (program : NativeCoreProgram) : Accounts Frame Deed where
  covers frame deed := deed.Proper program ∧ covers program frame.function deed = true
  transient deed := epochLocalRegion program.regions (deed.region program) = true
  opened frame deed := ∃ id ∈ frame.opened, deed.region program = some id

/-- An activation of a function of the program, whose caller shares with it. -/
structure Linked (program : NativeCoreProgram) (top : Frame) (callers : List Frame) : Prop where
  member : top.function ∈ program.functions
  bounded : ∀ instruction ∈ top.instructions,
    instructionEffectsBounded program top.function instruction = true
  shared : ∀ caller ∈ callers.head?,
    Shares program (opens callers) caller.function top.function ∨ Pure program top.function

variable {fs s' : List Frame} {calleeId : NativeId}

theorem within_of_open (h : (accounts program).Open fs deed) :
    Within program (opens fs) (deed.region program) := by
  intro ht
  obtain ⟨f, hfrm, id, hid, hreg⟩ := h ht
  exact ⟨id, mem_flatMap.mpr ⟨f, hfrm, hid⟩, hreg⟩

theorem Linked.passes (h : Linked program top callers) : (accounts program).Passes top callers := by
  intro caller hc deed ho hcov
  rcases h.shared caller hc with hs | hpure
  · exact ⟨hcov.1, covers_shared hs (within_of_open ho) hcov.2⟩
  · have hn := not_covers_pure hpure hcov.1
    rw [hcov.2] at hn
    exact absurd hn.symm Bool.false_ne_true

theorem confined_of_confined (h : (accounts program).Confined fs deed) :
    Confined program fs deed := by
  obtain ⟨ht, f, hfrm, id, hid, hreg⟩ := h
  have hl : epochLocalRegion program.regions (deed.region program) = true := ht
  rw [hreg] at hl
  exact ⟨id, hreg, hl, f, hfrm, hid⟩

/-! ### The condition on a step -/

/-- Instructions that enter a function without the obligation having compared it. -/
def entersUnchecked : Operation → Bool
  | .closureCall _ _ _ => true
  | .tiledStepF64 _ => true
  | _ => false

/-- What the next instruction works on through a handle is covered, the epochs that it names are
open, and a function that it enters exports what its own function declares and has no other effect
on epochs that are open. -/
structure Meets (program : NativeCoreProgram) (top : Frame) (callers : List Frame) : Prop where
  handles : ∀ instruction ∈ top.instructions.head?,
    ∀ deed ∈ handleDeeds top.values instruction.operation, covers program top.function deed = true
  places : ∀ deed ∈ top.deeds program, (accounts program).Open (top :: callers) deed
  exported : ∀ instruction ∈ top.instructions.head?, entersUnchecked instruction.operation = true →
    ∀ calleeId arguments, Enters top.values instruction.operation calleeId arguments →
      calleeBounded program top.function calleeId = true
  epochs : ∀ instruction ∈ top.instructions.head?,
    ∀ calleeId arguments, Enters top.values instruction.operation calleeId arguments →
      ∀ callee, findFunction program.functions calleeId = some callee →
        ∀ effectId ∈ callee.effects, ∀ region ∈ opens (top :: callers),
          effectRegion program effectId = some region → effectId ∈ top.function.effects

def MeetsState (program : NativeCoreProgram) (state : List Frame) : Prop :=
  ∀ top callers, state = top :: callers → Meets program top callers

/-- Where no epoch is open or named, an instruction that is compared and works on no handle meets
the condition. -/
theorem meets_of_compared {rest : List Instruction} (hhead : top.instructions = instruction :: rest)
    (hhandles : handleDeeds top.values instruction.operation = [])
    (hchk : entersUnchecked instruction.operation = false)
    (hopens : opens (top :: callers) = []) (hplaces : ∀ deed ∈ top.deeds program,
      epochLocalRegion program.regions (deed.region program) = false) :
    MeetsState program (top :: callers) := by
  rintro _ _ ⟨rfl, rfl⟩
  constructor
  case places =>
    intro deed hdeed htran
    change epochLocalRegion program.regions (deed.region program) = true at htran
    rw [hplaces deed hdeed] at htran
    exact absurd htran Bool.false_ne_true
  case handles =>
    intro found hf
    rw [hhead, head?_cons, Option.mem_some_iff] at hf
    rw [← hf, hhandles]
    exact nofun
  case exported =>
    intro found hf hunchecked
    rw [hhead, head?_cons, Option.mem_some_iff] at hf
    rw [← hf, hchk] at hunchecked
    exact absurd hunchecked Bool.false_ne_true
  case epochs =>
    rw [hopens]
    exact fun _ _ _ _ _ _ _ _ _ _ hreg => absurd hreg not_mem_nil

/-! ### What a step keeps -/

theorem mem_of_findFunction {functions : List FunctionDef} {fi : NativeId}
    (h : findFunction functions fi = some function) :
    function ∈ functions := mem_of_find?_eq_some h

theorem bounded_enter (hcheck : boundedEffects program = none)
    (hfn : function ∈ program.functions) (arguments : List Value) :
    ∀ instruction ∈ (enter function arguments).instructions,
      instructionEffectsBounded program (enter function arguments).function instruction = true := by
  intro instruction hinst
  unfold enter at hinst ⊢
  split at hinst
  · rename_i block blocks hblocks
    have hblk : block ∈ function.blocks := hblocks ▸ mem_cons_self
    dsimp only
    exact bounded_of_boundedEffects hcheck hfn hblk hinst
  · exact absurd hinst not_mem_nil

@[simp] theorem enter_function (function : FunctionDef) (ars : List Value) :
    (enter function ars).function = function := by
  unfold enter
  split <;> rfl

theorem shares_of_calleeBounded
    (hcal : findFunction program.functions calleeId = some callee)
    (h : calleeBounded program caller calleeId = true)
    (he : ∀ ei ∈ callee.effects, ∀ rg ∈ od,
      effectRegion program ei = some rg → ei ∈ caller.effects) :
    Shares program od caller callee := by
  unfold calleeBounded at h
  simp only [hcal, Bool.and_eq_true, idsIn_iff] at h
  refine ⟨h.2, fun ei heff hw => ?_⟩
  by_cases hl : epochLocalRegion program.regions (effectRegion program ei) = true
  · obtain ⟨rg, hreg, heq⟩ := hw hl
    exact he ei heff rg hreg heq
  · exact h.1 (mem_calleeExportedEffects.mpr ⟨heff, Bool.not_eq_true _ ▸ hl⟩)

/-- A function that an instruction enters shares with the function that it is entered from, or has
no effect. -/
theorem shares_of_enters {r : List Instruction} (hh : top.instructions = instruction :: r)
    (hm : Meets program top callers)
    (hbd : instructionEffectsBounded program top.function instruction = true)
    {ars : List Value} (he : Enters top.values instruction.operation calleeId ars)
    (hcal : findFunction program.functions calleeId = some callee) :
    Shares program (opens (top :: callers)) top.function callee ∨ Pure program callee := by
  have hmem : instruction ∈ top.instructions.head? := by rw [hh]; rfl
  have hep := hm.epochs instruction hmem calleeId ars he callee hcal
  have hex := hm.exported instruction hmem
  obtain ⟨res, op⟩ := instruction
  cases op with
  | call fi ids ai =>
    obtain ⟨rfl, -⟩ := he
    exact Or.inl (shares_of_calleeBounded hcal hbd hep)
  | closureCall | tiledStepF64 =>
    exact Or.inl (shares_of_calleeBounded hcal (hex rfl _ _ he) hep)
  | atomSwap ci si ui ids =>
    obtain ⟨old, os, rfl, -⟩ := he
    exact Or.inr (pure_of_updaterPure hcal hbd)
  | _ => exact he.elim

/-- **A step that meets the condition keeps the activations linked.** -/
theorem stacked_step (hcheck : boundedEffects program = none) (hstep : Step program state s')
    (hmeets : MeetsState program state) (h : Stacked (Linked program) state) :
    Stacked (Linked program) s' := by
  cases hstep with
  | compute hcomputes hgives =>
    refine ⟨⟨h.1.member, fun instruction hmem => ?_, h.1.shared⟩, h.2⟩
    exact h.1.bounded instruction (mem_cons_of_mem _ hmem)
  | @enter frame instruction rest callers calleeId callee arguments hhead henters hcal =>
    have hfn := mem_of_findFunction hcal
    have hbd := h.1.bounded instruction (hhead ▸ mem_cons_self)
    refine ⟨⟨by simpa using hfn, bounded_enter hcheck hfn arguments, ?_⟩, h⟩
    intro caller hcall
    rw [head?_cons, Option.mem_some_iff] at hcall
    rw [← hcall, enter_function]
    exact shares_of_enters hhead (hmeets frame callers rfl) hbd henters hcal
  | returns hdone hreturn hval hhead honce =>
    obtain ⟨-, hcall, hrest⟩ := h
    refine ⟨⟨hcall.member, fun instruction hmem => ?_, hcall.shared⟩, hrest⟩
    exact hcall.bounded instruction (hhead ▸ mem_cons_of_mem _ hmem)
  | tile hdone hreturn hhead hrepeats => exact h.2
  | go hdone hterm hgoes hblk hargs =>
    refine ⟨⟨h.1.member, fun instruction hmem => ?_, h.1.shared⟩, h.2⟩
    have hblocks := mem_of_find?_eq_some hblk
    exact bounded_of_boundedEffects hcheck h.1.member hblocks hmem

/-! ### Runs -/

theorem proper_named {op : Operation} (h : deed ∈ namedDeeds program op) : deed.Proper program := by
  cases op with
  | externCall ai ars ari =>
    cases habi : findAbi program.abis ai with
    | none => simp [namedDeeds, habi] at h
    | some abi =>
      simp only [namedDeeds, habi, List.mem_append, mem_map] at h
      rcases h with ⟨ei, heff, rfl⟩ | ⟨c, hcap, rfl⟩
      · exact bne_iff_ne.mp (mem_filter.mp heff).2
      · exact trivial
  | _ =>
    first
      | exact absurd h not_mem_nil
      | rw [mem_singleton.mp h]
        exact trivial

theorem proper_handle {values : Values} {operation : Operation}
    (h : deed ∈ handleDeeds values operation) : deed.Proper program := by
  have harena : ∀ id, deed ∈ arenaDeeds values id → deed.Proper program := by
    intro id hid
    unfold arenaDeeds at hid
    split at hid
    · rw [mem_singleton.mp hid]
      exact trivial
    · exact absurd hid not_mem_nil
  have hst : ∀ id, deed ∈ stateDeeds values id → deed.Proper program := by
    intro id hid
    unfold stateDeeds at hid
    split at hid
    · rw [mem_singleton.mp hid]
      exact trivial
    · exact absurd hid not_mem_nil
  cases operation with
  | tiledStepF64 step =>
    rcases mem_pair.mp h with rfl | rfl <;> exact trivial
  | f64BufferSum sum =>
    rw [mem_singleton.mp h]
    exact trivial
  | atomCreate initialId arenaId stateId =>
    rcases List.mem_append.mp h with h | h
    · exact harena _ h
    · exact hst _ h
  | atomDeref cellId stateId | atomReset cellId stateId valueId
  | atomCompareExchange cellId stateId expectedId replacementId
  | atomSwap cellId stateId updaterId ids => exact hst _ h
  | allocating arenaId operands => exact harena _ h
  | _ => exact absurd h not_mem_nil

/-- An activation covers what its next instruction performs. -/
theorem covers_deeds (hl : Linked program top callers) (hm : Meets program top callers)
    (hd : deed ∈ top.deeds program) : (accounts program).covers top deed := by
  unfold Frame.deeds at hd
  split at hd
  · rename_i instruction r hh
    rcases List.mem_append.mp hd with hn | hhandle
    · have hbd := hl.bounded instruction (hh ▸ mem_cons_self)
      exact ⟨proper_named hn, covers_named hbd hn⟩
    · have hmem : instruction ∈ top.instructions.head? := by rw [hh]; rfl
      exact ⟨proper_handle hhandle, hm.handles instruction hmem deed hhandle⟩
  · exact absurd hd not_mem_nil

theorem accounted_of_stacked (h : Stacked (Linked program) state)
    (hm : MeetsState program state) : Accounted program state := by
  rintro top r rfl deed hd a f b hsp
  have hmet := hm top r rfl
  have hp := h.mono fun _ _ => Linked.passes
  have hcov := covers_deeds h.1 hmet hd
  rcases Accounts.covered_or_confined hp (hmet.places deed hd) hcov hsp with
    hfrm | hconf
  · exact Or.inl hfrm.2
  · exact Or.inr (confined_of_confined hconf)

/-- The steps of a run that meet the condition. -/
def MeetingStep (program : NativeCoreProgram) (state state' : List Frame) : Prop :=
  MeetsState program state ∧ Step program state state'

theorem stacked_run (hc : boundedEffects program = none) (h : Stacked (Linked program) state)
    (hrun : Relation.ReflTransGen (MeetingStep program) state s') :
    Stacked (Linked program) s' := by
  induction hrun with
  | refl => exact h
  | tail _ hs ih => exact stacked_step hc hs.2 hs.1 ih

end

/-! ### A function that is called, and one that is handed over -/

/-- A function that writes to memory. -/
def writer : FunctionDef where
  id := ⟨"writer"⟩
  parameters := [⟨⟨"environment"⟩, ⟨"place"⟩⟩]
  blocks := [⟨⟨"start"⟩, [], [⟨⟨⟨"stored"⟩, ⟨"unit"⟩⟩,
    .store ⟨⟨"environment"⟩, ⟨"environment"⟩, ⟨"memory"⟩, ⟨"write"⟩⟩⟩], [.returns none]⟩]
  returnType := none
  effects := [⟨"writes"⟩]
  regions := [⟨"memory"⟩]
  capabilities := [⟨"write"⟩]

/-- A function that calls what it is handed and declares nothing. -/
def applier : FunctionDef where
  id := ⟨"applier"⟩
  parameters := [⟨⟨"callback"⟩, ⟨"function"⟩⟩]
  blocks := [⟨⟨"start"⟩, [], [⟨⟨⟨"called"⟩, ⟨"unit"⟩⟩,
    .closureCall ⟨"callback"⟩ [] ⟨"arena"⟩⟩], [.returns none]⟩]
  returnType := none
  effects := []
  regions := []
  capabilities := []

def handingCall : Instruction :=
  ⟨⟨⟨"handed"⟩, ⟨"unit"⟩⟩, .call ⟨"applier"⟩ [⟨"callback"⟩] none⟩

/-- A function that declares the effect of the writer and hands the writer over. -/
def handing : FunctionDef where
  id := ⟨"handing"⟩
  parameters := [⟨⟨"environment"⟩, ⟨"place"⟩⟩]
  blocks := [⟨⟨"start"⟩, [], [⟨⟨⟨"callback"⟩, ⟨"function"⟩⟩, .closure ⟨"writer"⟩ ⟨"environment"⟩⟩,
    handingCall], [.returns none]⟩]
  returnType := none
  effects := [⟨"writes"⟩]
  regions := [⟨"memory"⟩]
  capabilities := [⟨"write"⟩]

/-- A function that calls the writer itself. -/
def calling : FunctionDef where
  id := ⟨"calling"⟩
  parameters := [⟨⟨"environment"⟩, ⟨"place"⟩⟩]
  blocks := [⟨⟨"start"⟩, [], [⟨⟨⟨"called"⟩, ⟨"unit"⟩⟩,
    .call ⟨"writer"⟩ [⟨"environment"⟩] none⟩], [.returns none]⟩]
  returnType := none
  effects := [⟨"writes"⟩]
  regions := [⟨"memory"⟩]
  capabilities := [⟨"write"⟩]

def writingProgram : NativeCoreProgram where
  types := []
  effects := [⟨⟨"writes"⟩, .writeEffect ⟨"memory"⟩⟩]
  regions := [⟨⟨"memory"⟩, .arenaRegion, none⟩]
  capabilities := [⟨⟨"write"⟩, .writeCapability, some ⟨"memory"⟩⟩]
  layouts := []
  functions := [writer, applier, handing, calling]
  abis := []

theorem enters_call {frame : Frame} {instruction : Instruction} {rest : List Instruction}
    {program : NativeCoreProgram} {callers : List Frame} {functionId : NativeId}
    {ids : List NativeId} {arenaId : Option NativeId} {callee : FunctionDef}
    {arguments : List Value} (hhead : frame.instructions = instruction :: rest)
    (hop : instruction.operation = .call functionId ids arenaId)
    (hcal : findFunction program.functions functionId = some callee)
    (hargs : frame.values.all ids = some arguments) :
    Step program (frame :: callers) (enter callee arguments :: frame :: callers) := by
  refine Step.enter hhead ?_ hcal
  rw [hop]
  exact ⟨rfl, hargs⟩

/-- The activation that hands the writer over, at its call. -/
def handed : Frame where
  function := handing
  instructions := [handingCall]
  terminators := [.returns none]
  values := [(⟨"callback"⟩, .closure ⟨"writer"⟩ .plain), (⟨"environment"⟩, .plain)]
  opened := []

end Beagle.Effects
