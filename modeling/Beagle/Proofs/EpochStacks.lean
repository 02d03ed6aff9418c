/-
Epochs are opened and closed as a stack, on every walk.

What an epoch close names is the one region that some instruction acquires under that value, so a
list of instructions has an effect on the stack that does not depend on it.  A loop that every walk
can go round for ever leaves the stack as it is, which is why no walk comes back to a block with
another stack although the check may have passed that walk over.
-/
import Beagle.Lib.StackEffects
import Beagle.Native.Resources

namespace Beagle.Resources

open Beagle.Lib List
open Beagle.Lib.Dominators
open Beagle.Lib.StackEffects
open Beagle.Lib.Trails
open Beagle.NativeCore
open Beagle.Obligations (obligationId)

/-! ### Epochs along a walk -/

/-- Some instruction acquires the region as the value. -/
def NamesRegion (function : FunctionDef) (valueId region : NativeId) : Prop :=
  ∃ block ∈ function.blocks, ∃ instruction ∈ block.instructions,
    instruction.epoch = .arena region ∧ instruction.result.id = valueId

def HasParent (regions : List RegionDef) (region parent : NativeId) : Prop :=
  ∃ definition, findRegion regions region = some definition ∧ definition.parent = some parent

/-- What an instruction may do with the open epochs, the youngest last. -/
inductive EpochStep (regions : List RegionDef) (function : FunctionDef) :
    List NativeId → Instruction → List NativeId → Prop where
  /-- An epoch is opened that is not open, below a root region or an open epoch. -/
  | opens {stack : List NativeId} {instruction : Instruction} (region parent : NativeId)
      (arena : instruction.epoch = .arena region) (epoch : epochRegion regions region = true)
      (closed : region ∉ stack) (below : HasParent regions region parent)
      (within : rootRegion regions parent = true ∨ parent ∈ stack) :
      EpochStep regions function stack instruction (stack ++ [region])
  /-- A region that is no epoch is acquired. -/
  | acquires {stack : List NativeId} {instruction : Instruction} (region : NativeId)
      (arena : instruction.epoch = .arena region) (plain : epochRegion regions region = false) :
      EpochStep regions function stack instruction stack
  /-- The epoch is closed that was opened last of those that are open. -/
  | closes {stack : List NativeId} {instruction : Instruction} (sourceId region : NativeId)
      (close : instruction.epoch = .arenaClose sourceId)
      (names : NamesRegion function sourceId region) (epoch : epochRegion regions region = true) :
      EpochStep regions function (stack ++ [region]) instruction stack
  | other {stack : List NativeId} {instruction : Instruction} (plain : instruction.epoch = .other) :
      EpochStep regions function stack instruction stack

/-- What a list of instructions may do with the open epochs. -/
inductive EpochRun (regions : List RegionDef) (function : FunctionDef) :
    List NativeId → List Instruction → List NativeId → Prop where
  | nil {stack : List NativeId} : EpochRun regions function stack [] stack
  | cons {stack between next : List NativeId} {instruction : Instruction} {rest : List Instruction}
      (step : EpochStep regions function stack instruction between)
      (run : EpochRun regions function between rest next) :
      EpochRun regions function stack (instruction :: rest) next

/-- What a visit of each block does, in turn. -/
def walkInstructions (function : FunctionDef) (walk : List NativeId) : List Instruction :=
  walk.flatMap fun blockId =>
    match findBlock function.blocks blockId with
    | none => []
    | some block => block.instructions

/-- Epochs are opened and closed last in, first out, on every walk from the entry. -/
structure LastInFirstOut (regions : List RegionDef) (function : FunctionDef) : Prop where
  legal : ∀ left blockId, FunctionWalk function left blockId →
    ∃ stack, EpochRun regions function [] (walkInstructions function (left ++ [blockId])) stack
  /-- None is open behind a block without successors. -/
  closed : ∀ left blockId block stack, FunctionWalk function left blockId →
    findBlock function.blocks blockId = some block → blockSuccessors block = [] →
    EpochRun regions function [] (walkInstructions function (left ++ [blockId])) stack → stack = []
  /-- A walk that comes back to a block has the same epochs open. -/
  returns : ∀ left middle blockId before after, FunctionWalk function left blockId →
    FunctionWalk function (left ++ blockId :: middle) blockId →
    EpochRun regions function [] (walkInstructions function left) before →
    EpochRun regions function [] (walkInstructions function (left ++ blockId :: middle)) after →
    after = before

/-! ### The step of the check -/

section

variable {regions : List RegionDef} {fn : FunctionDef} {vi blockId : NativeId}
  {instruction : Instruction} {stack : List NativeId} {rg : NativeId}

theorem arenaOf_eq_some : arenaOf vi instruction = some rg ↔
      instruction.epoch = .arena rg ∧ instruction.result.id = vi := by
  cases he : instruction.epoch with
  | arena a =>
    simp only [arenaOf, he]
    by_cases hid : vi = instruction.result.id
    · simp [hid]
    · simp [hid, Ne.symm hid]
  | arenaClose si => simp [arenaOf, he]
  | other => simp [arenaOf, he]

variable {region : NativeId}

theorem namesRegion_of_eq_some (h : functionArenaRegion fn vi = some region) :
    NamesRegion fn vi region := by
  obtain ⟨block, hblk, hf⟩ := exists_of_findSome?_eq_some h
  obtain ⟨instruction, hins, ha⟩ := exists_of_findSome?_eq_some hf
  exact ⟨block, hblk, instruction, hins, arenaOf_eq_some.mp ha⟩

variable {block : BasicBlock} {l ri : List Instruction} {fuel : Nat}

/-- Two instructions with one result are one. -/
theorem eq_of_result_eq (hva : (functionValueIds fn).Nodup) {o : BasicBlock}
    (hblk : block ∈ fn.blocks) (ho : o ∈ fn.blocks)
    {instruction' : Instruction} (hins : instruction ∈ block.instructions)
    (hins' : instruction' ∈ o.instructions)
    (heq : instruction.result.id = instruction'.result.id) : instruction = instruction' := by
  have hi : ((fn.blocks.flatMap (·.instructions)).map (·.result.id)).Nodup := by
    rw [map_flatMap]
    refine Nodup.sublist ?_ (nodup_append.mp hva).2.1
    exact Sublist.flatMap_right _ fun _ _ => sublist_append_right _ _
  exact inj_on_of_nodup_map hi (mem_flatMap.mpr ⟨block, hblk, hins⟩)
    (mem_flatMap.mpr ⟨o, ho, hins'⟩) heq

theorem functionArenaRegion_iff (hva : (functionValueIds fn).Nodup) :
    functionArenaRegion fn vi = some region ↔ NamesRegion fn vi region := by
  refine ⟨namesRegion_of_eq_some, ?_⟩
  rintro ⟨block, hblk, instruction, hins, ha, hid⟩
  cases hreg : functionArenaRegion fn vi with
  | some fd =>
    obtain ⟨o, ho, ins', hins', ha', hid'⟩ :=
      namesRegion_of_eq_some hreg
    have hs := eq_of_result_eq hva hblk ho hins hins' (hid.trans hid'.symm)
    rw [← hs, ha] at ha'
    rw [EpochUse.arena.inj ha']
  | none =>
    have hn := findSome?_eq_none_iff.mp hreg block hblk
    have hao := findSome?_eq_none_iff.mp hn instruction hins
    rw [arenaOf_eq_some.mpr ⟨ha, hid⟩] at hao
    simp at hao

theorem epochRegion_parent (h : epochRegion regions rg = true) :
    ∃ parent, HasParent regions rg parent := by
  cases hf : findRegion regions rg with
  | none => simp [epochRegion, hf] at h
  | some d =>
    simp only [epochRegion, hf, Bool.and_eq_true] at h
    obtain ⟨parent, hpar⟩ := Option.isSome_iff_exists.mp h.2
    exact ⟨parent, d, hf, hpar⟩

variable {next : List NativeId}

/-- What a step does, by the use that the instruction makes of epochs. -/
theorem epochStep_iff : EpochStep regions fn stack instruction next ↔
      match instruction.epoch with
      | .arena rg =>
        if epochRegion regions rg = true then
          rg ∉ stack ∧ (∃ p, HasParent regions rg p ∧
            (rootRegion regions p = true ∨ p ∈ stack)) ∧ next = stack ++ [rg]
        else next = stack
      | .arenaClose si => ∃ rg, NamesRegion fn si rg ∧
          epochRegion regions rg = true ∧ stack = next ++ [rg]
      | .other => next = stack := by
  constructor
  · intro h
    cases h with
    | opens rg p arena e c b w =>
      simp only [arena, if_pos e]
      exact ⟨c, ⟨p, b, w⟩, trivial⟩
    | acquires rg arena pl => simp [arena, pl]
    | closes si rg cl ns e =>
      simp only [cl]
      exact ⟨rg, ns, e, rfl⟩
    | other pl => simp [pl]
  · intro h
    cases he : instruction.epoch with
    | arena rg =>
      simp only [he] at h
      split at h
      · next e =>
        obtain ⟨c, ⟨p, b, w⟩, rfl⟩ := h
        exact .opens rg p he e c b w
      · next pl =>
        obtain rfl := h
        exact .acquires rg he (Bool.eq_false_of_not_eq_true pl)
    | arenaClose si =>
      simp only [he] at h
      obtain ⟨rg, ns, e, rfl⟩ := h
      exact .closes si rg he ns e
    | other =>
      simp only [he] at h
      obtain rfl := h
      exact .other he

/-- **What the check lets an instruction do is what it may do.** -/
theorem epochBlockStep_cons (hva : (functionValueIds fn).Nodup)
    {c next : List NativeId} {r : List Instruction} :
    epochBlockStep regions fn c (instruction :: r) = .ok next ↔
      ∃ b, EpochStep regions fn c instruction b ∧ epochBlockStep regions fn b r = .ok next := by
  simp only [epochStep_iff, epochBlockStep]
  cases he : instruction.epoch with
  | other => simp
  | arena rg =>
    cases hreg : epochRegion regions rg with
    | false => simp [hreg]
    | true =>
      obtain ⟨parent, d, hf, hpar⟩ := epochRegion_parent hreg
      have hb : ∀ a, HasParent regions rg a ↔ a = parent := by
        intro a
        simp [HasParent, hf, hpar, eq_comm]
      by_cases ho : rg ∈ c
      · simp [hreg, ho]
      by_cases hw : rootRegion regions parent = true ∨ parent ∈ c
      · have hl : (rootRegion regions parent || decide (parent ∈ c)) = true := by
          simpa using hw
        simp [hreg, hf, hpar, ho, hb, hw, hl]
      · have hl : (rootRegion regions parent || decide (parent ∈ c)) = false := by
          simpa using hw
        simp [hreg, hf, hpar, ho, hb, hw, hl]
  | arenaClose si =>
    simp only [← functionArenaRegion_iff hva]
    cases hreg : functionArenaRegion fn si with
    | none => simp
    | some rg =>
      by_cases her : epochRegion regions rg = true
      · rcases eq_nil_or_concat c with rfl | ⟨fr, l, rfl⟩
        · simp [her]
        · by_cases htop : l = rg
          · simp [her, htop, epochStackTop, epochStackPop]
          · simp [her, htop, epochStackTop]
      · simp [her]

variable {ins : List Instruction}

theorem epochBlockStep_iff (hva : (functionValueIds fn).Nodup)
    {c next : List NativeId} :
    epochBlockStep regions fn c ins = .ok next ↔ EpochRun regions fn c ins next := by
  induction ins generalizing c with
  | nil =>
    simp only [epochBlockStep, Except.ok.injEq]
    constructor
    · rintro rfl
      exact .nil
    · rintro ⟨⟩
      rfl
  | cons instruction r ih =>
    rw [epochBlockStep_cons hva]
    constructor
    · rintro ⟨b, hs, h⟩
      exact .cons hs (ih.mp h)
    · rintro (_ | ⟨hs, hrun⟩)
      exact ⟨_, hs, ih.mpr hrun⟩

/-! ### Runs and their effects -/

theorem EpochRun.append {b next : List NativeId} (h : EpochRun regions fn stack l b)
    (h' : EpochRun regions fn b ri next) :
    EpochRun regions fn stack (l ++ ri) next := by
  induction h with
  | nil => exact h'
  | cons s _ ih => exact .cons s (ih h')

theorem EpochRun.split (h : EpochRun regions fn stack (l ++ ri) next) :
    ∃ b, EpochRun regions fn stack l b ∧ EpochRun regions fn b ri next := by
  induction l generalizing stack with
  | nil => exact ⟨stack, .nil, h⟩
  | cons instruction r ih =>
    rcases h with _ | ⟨s, run⟩
    obtain ⟨b, hl, hr⟩ := ih run
    exact ⟨b, .cons s hl, hr⟩

theorem EpochRun.unique (hva : (functionValueIds fn).Nodup) {next other : List NativeId}
    (h : EpochRun regions fn stack ins next)
    (h' : EpochRun regions fn stack ins other) : next = other := by
  have hn := (epochBlockStep_iff hva).mpr h
  rw [(epochBlockStep_iff hva).mpr h'] at hn
  exact (Except.ok.inj hn).symm

theorem EpochStep.nodup
    (h : EpochStep regions fn stack instruction next) (hnd : stack.Nodup) :
    next.Nodup := by
  cases h with
  | opens rg p _ _ c =>
    refine nodup_append.mpr ⟨hnd, nodup_singleton _, ?_⟩
    intro a ha b hb hab
    rw [hab, mem_singleton.mp hb] at ha
    exact c ha
  | acquires _ _ _ => exact hnd
  | closes _ _ _ _ _ => exact (nodup_append.mp hnd).1
  | other _ => exact hnd

theorem EpochRun.nodup
    (h : EpochRun regions fn stack ins next) (hnd : stack.Nodup) :
    next.Nodup := by
  induction h with
  | nil => exact hnd
  | cons s _ ih => exact ih (s.nodup hnd)

/-- Every open epoch was opened by an instruction. -/
theorem EpochRun.opened {stack next : List NativeId}
    (h : EpochRun regions fn stack ins next) :
    ∀ region ∈ next, region ∈ stack ∨ ∃ instruction ∈ ins, instruction.epoch = .arena region := by
  induction h with
  | nil => exact fun region hreg => Or.inl hreg
  | @cons stack b next instruction r s _ ih =>
    intro region hreg
    rcases ih region hreg with hb | ⟨other, hmem, ho⟩
    · cases s with
      | opens od _ a =>
        rcases List.mem_append.mp hb with hold | hnew
        · exact Or.inl hold
        · rw [mem_singleton.mp hnew]
          exact Or.inr ⟨instruction, mem_cons_self, a⟩
      | acquires _ _ _ => exact Or.inl hb
      | closes _ _ _ _ _ => exact Or.inl (mem_append_left _ hb)
      | other _ => exact Or.inl hb
    · exact Or.inr ⟨other, mem_cons_of_mem _ hmem, ho⟩

theorem shift_of_instruction (regions : List RegionDef)
    (hva : (functionValueIds fn).Nodup) (instruction : Instruction) :
    Shift fun stack next => EpochStep regions fn stack instruction next := by
  simp only [epochStep_iff, ← functionArenaRegion_iff hva]
  cases instruction.epoch with
  | other => exact .keep fun stack next h => h
  | arena rg =>
    cases hreg : epochRegion regions rg with
    | false => exact .keep fun stack next h => by simpa [hreg] using h
    | true => exact .push rg fun stack next h => by simp_all
  | arenaClose si =>
    refine .pop ((functionArenaRegion fn si).getD ⟨""⟩) fun stack next h => ?_
    obtain ⟨rg, hn, -, rfl⟩ := h
    simp [hn]

/-- A list of instructions takes the same from every stack on which it runs. -/
theorem exists_takes (regions : List RegionDef) (hva : (functionValueIds fn).Nodup)
    (ins : List Instruction) :
    ∃ p pushes, Takes (fun stack next => EpochRun regions fn stack ins next) p pushes := by
  induction ins using reverseRecOn with
  | nil =>
    refine ⟨[], [], fun stack next h => ?_⟩
    cases h
    exact takes_refl _ _ rfl
  | append_singleton r instruction ih =>
    obtain ⟨p, pushes, ht⟩ := ih
    refine exists_takes_comp ht (shift_of_instruction regions hva instruction) ?_
    intro stack next h
    obtain ⟨b, hr, hl⟩ := h.split
    rcases hl with _ | ⟨s, run⟩
    cases run
    exact ⟨b, hr, s⟩

/-! ### Visits of the check -/

theorem walkInstructions_append {l ri : List NativeId} : walkInstructions fn (l ++ ri) =
      walkInstructions fn l ++ walkInstructions fn ri :=
  flatMap_append

theorem walkInstructions_singleton (h : findBlock fn.blocks blockId = some block) :
    walkInstructions fn [blockId] = block.instructions := by
  simp [walkInstructions, h]

/-- What a visit of the check that goes well has found. -/
structure EpochVisit (regions : List RegionDef) (function : FunctionDef) (blockId : NativeId)
    (stack next : List NativeId) (successors : List NativeId) (block : BasicBlock) : Prop where
  found : findBlock function.blocks blockId = some block
  run : EpochRun regions function stack (walkInstructions function [blockId]) next
  leads : successors = blockSuccessors block
  exit : successors = [] → next = []

/-- What a visit of the check that fails has found. -/
inductive EpochFault (regions : List RegionDef) (function : FunctionDef) (blockId : NativeId)
    (stack : List NativeId) : Prop where
  | missing (h : findBlock function.blocks blockId = none)
  | illegal (h : ∀ next,
      ¬EpochRun regions function stack (walkInstructions function [blockId]) next)
  | leak (block : BasicBlock) (found : findBlock function.blocks blockId = some block)
      (exit : blockSuccessors block = []) (next : List NativeId)
      (run : EpochRun regions function stack (walkInstructions function [blockId]) next)
      (h : next ≠ [])

theorem leakWalker_visit (hva : (functionValueIds fn).Nodup) :
    (∀ next ss, (leakWalker regions fn).visit blockId stack = .ok (next, ss) →
        ∃ block, EpochVisit regions fn blockId stack next ss block) ∧
      ∀ a, (leakWalker regions fn).visit blockId stack = .error a →
        a ≠ none ∧ EpochFault regions fn blockId stack := by
  simp only [leakWalker]
  cases hf : findBlock fn.blocks blockId with
  | none =>
    refine ⟨fun _ _ h => absurd h (by simp), fun a h => ?_⟩
    rw [← Except.error.inj h]
    exact ⟨by simp, .missing hf⟩
  | some block =>
    have hw := walkInstructions_singleton hf
    cases hs : epochBlockStep regions fn stack block.instructions with
    | error v =>
      refine ⟨fun _ _ h => absurd h (by simp [hs]), fun a h => ?_⟩
      simp only [hs, Except.error.injEq] at h
      rw [← h]
      refine ⟨by simp, .illegal fun next hrun => ?_⟩
      rw [hw, ← epochBlockStep_iff hva, hs] at hrun
      simp at hrun
    | ok nextStack =>
      have hrun : EpochRun regions fn stack (walkInstructions fn [blockId])
          nextStack := by
        rw [hw, ← epochBlockStep_iff hva]
        exact hs
      simp only [hs]
      by_cases he : (blockSuccessors block).length = 0
      case neg =>
        rw [if_neg he]
        refine ⟨fun next ss h => ?_, fun a h => absurd h (by simp)⟩
        obtain ⟨rfl, rfl⟩ := Prod.mk.inj (Except.ok.inj h)
        exact ⟨block, hf, hrun, rfl, fun hnil => absurd (by rw [hnil]; rfl) he⟩
      rw [if_pos he]
      by_cases hemp : nextStack.length = 0
      · rw [if_pos hemp]
        refine ⟨fun next ss h => ?_, fun a h => absurd h (by simp)⟩
        obtain ⟨rfl, rfl⟩ := Prod.mk.inj (Except.ok.inj h)
        exact ⟨block, hf, hrun, (length_eq_zero_iff.mp he).symm,
          fun _ => length_eq_zero_iff.mp hemp⟩
      · rw [if_neg hemp]
        refine ⟨fun _ _ h => absurd h (by simp), fun a h => ?_⟩
        rw [← Except.error.inj h]
        refine ⟨fun htop => hemp ?_, .leak block hf (length_eq_zero_iff.mp he)
          nextStack hrun fun hnil => hemp (by rw [hnil]; rfl)⟩
        rw [getLast?_eq_none_iff.mp htop]
        rfl

variable {p : List (NativeId × List NativeId)}

theorem ne_none_of_stops (hva : (functionValueIds fn).Nodup)
    {a : Option NativeId}
    (h : Stops (leakWalker regions fn) p blockId stack a) : a ≠ none := by
  rcases h with ⟨met, _, hd, rfl⟩ | ⟨_, hv⟩
  · have hne : met ≠ stack := by simpa [leakWalker] using hd
    intro hn
    simp only [leakWalker] at hn
    cases htop : epochStackTop stack with
    | some top => simp [htop] at hn
    | none =>
      simp only [htop] at hn
      exact hne ((getLast?_eq_none_iff.mp hn).trans (getLast?_eq_none_iff.mp htop).symm)
  · exact ((leakWalker_visit hva).2 a hv).1

theorem eq_of_covers {met : List NativeId}
    (h : met = stack ∨ (leakWalker regions fn).agrees met stack = true ∨
      (leakWalker regions fn).same met stack = true) : met = stack := by
  rcases h with rfl | hagree | hsame
  · rfl
  · simpa [leakWalker] using hagree
  · simpa [leakWalker] using hsame

variable (hva : (functionValueIds fn).Nodup)
include hva

/-- The check carries the stack of a walk. -/
theorem run_of_trail
    (h : Trail (leakWalker regions fn) fn.entryBlock [] p blockId stack) :
    FunctionWalk fn (p.map Prod.fst) blockId ∧
      EpochRun regions fn [] (walkInstructions fn (p.map Prod.fst)) stack := by
  induction h with
  | start => exact ⟨.start, .nil⟩
  | step _ _ v o ih =>
    obtain ⟨block, hv⟩ := (leakWalker_visit hva).1 _ _ v
    rw [map_append, map_singleton]
    refine ⟨.step ih.1 ⟨block, hv.found, hv.leads ▸ o⟩, ?_⟩
    rw [walkInstructions_append]
    exact ih.2.append hv.run

/-! ### No violation -/

/-- **A function without a violation opens and closes its epochs last in, first out.** -/
theorem lastInFirstOut_of_none (h : functionLeakViolation fuel regions fn = some none) :
    LastInFirstOut regions fn := by
  obtain ⟨me, ⟨first, hfst, hcov⟩, hs, _⟩ :=
    closed_of_done (w := leakWalker regions fn) (fun _ _ _ _ => ne_none_of_stops hva) h
  rw [eq_of_covers hcov] at hfst
  -- every walk is at a visit of its block with its stack
  have hsta : ∀ l blockId, FunctionWalk fn l blockId → ∃ stack, (blockId, stack) ∈ me ∧
        EpochRun regions fn [] (walkInstructions fn l) stack := by
    intro l blockId wk
    induction wk with
    | start => exact ⟨[], hfst, .nil⟩
    | @step l blockId t wk he ih =>
      obtain ⟨stack, hmem, hrun⟩ := ih
      obtain ⟨next, ss, hv, hall⟩ := hs _ hmem
      obtain ⟨block, hvis⟩ := (leakWalker_visit hva).1 _ _ hv
      obtain ⟨b', hf, htgt⟩ := he
      obtain rfl : b' = block := Option.some.inj (hf.symm.trans hvis.found)
      obtain ⟨other, ho, hstand⟩ := hall t (hvis.leads ▸ htgt)
      rw [eq_of_covers hstand] at ho
      refine ⟨next, ho, ?_⟩
      rw [walkInstructions_append]
      exact hrun.append hvis.run
  have hvi : ∀ l blockId, FunctionWalk fn l blockId → ∃ next ss block,
      EpochRun regions fn [] (walkInstructions fn (l ++ [blockId])) next ∧
        findBlock fn.blocks blockId = some block ∧ ss = blockSuccessors block ∧
          (ss = [] → next = []) := by
    intro l blockId wk
    obtain ⟨stack, hmem, hrun⟩ := hsta l blockId wk
    obtain ⟨next, ss, hv, _⟩ := hs _ hmem
    obtain ⟨block, hvis⟩ := (leakWalker_visit hva).1 _ _ hv
    refine ⟨next, ss, block, ?_, hvis.found, hvis.leads, hvis.exit⟩
    rw [walkInstructions_append]
    exact hrun.append hvis.run
  refine ⟨?_, ?_, ?_⟩
  · intro l blockId wk
    obtain ⟨next, _, _, hrun, _⟩ := hvi l blockId wk
    exact ⟨next, hrun⟩
  · intro l blockId block stack wk hf hex hst
    obtain ⟨next, ss, other, hrun, ho, hle, hcl⟩ := hvi l blockId wk
    obtain rfl : block = other := Option.some.inj (hf.symm.trans ho)
    rw [hst.unique hva hrun]
    exact hcl (hle.trans hex)
  · intro l m blockId pre a wk b hpre hp
    have hcyc := (Walk.split b).2
    rw [walkInstructions_append] at hp
    obtain ⟨be, hfst, hr⟩ := hp.split
    obtain rfl := hpre.unique hva hfst
    obtain ⟨p, ps, ht⟩ :=
      exists_takes regions hva (walkInstructions fn (blockId :: m))
    refine fixed_of_repeats ht (fun stack => ∃ l, FunctionWalk fn l blockId ∧
        EpochRun regions fn [] (walkInstructions fn l) stack)
      ?_ ?_ ⟨l, wk, hpre⟩ hr ⟨_, b, ?_⟩
    · rintro stack ⟨l, _, hrun⟩
      exact hrun.nodup nodup_nil
    · rintro stack ⟨l, hl, hrun⟩
      have ha := hl.append hcyc
      obtain ⟨next, _, hn⟩ := hsta _ _ ha
      have hsp := hn
      rw [walkInstructions_append] at hsp
      obtain ⟨st', hst, hste⟩ := hsp.split
      obtain rfl := hrun.unique hva hst
      exact ⟨next, ⟨_, ha, hn⟩, hste⟩
    · rw [walkInstructions_append]
      exact hpre.append hr

/-- **A violation shows on a walk.** -/
theorem violates_of_some (htg : TargetsExist fn) {v : NativeId}
    (h : functionLeakViolation fuel regions fn = some (some v)) :
    ¬LastInFirstOut regions fn := by
  intro hl
  obtain ⟨p, blockId, stack, ht, hs⟩ :=
    stops_of_not_done (w := leakWalker regions fn) h (Option.some_ne_none _)
  obtain ⟨hw, hrun⟩ := run_of_trail hva ht
  rcases hs with ⟨met, hmem, hd, _⟩ | ⟨_, hv⟩
  · obtain ⟨b, a, rfl, hpre⟩ := ht.of_mem hmem
    obtain ⟨hwm, hrm⟩ := run_of_trail hva hpre
    have hp : (b ++ (blockId, met) :: a).map Prod.fst =
        b.map Prod.fst ++ blockId :: a.map Prod.fst := by simp
    rw [hp] at hw hrun
    have heq := hl.returns _ _ _ _ _ hwm hw hrm hrun
    rw [heq] at hd
    simp [leakWalker] at hd
  · obtain ⟨f, hfin⟩ := hl.legal _ _ hw
    have hsp := hfin
    rw [walkInstructions_append] at hsp
    obtain ⟨be, hfst, hla⟩ := hsp.split
    obtain rfl := hrun.unique hva hfst
    cases ((leakWalker_visit hva).2 _ hv).2 with
    | missing hn => exact exists_of_walk htg hw hn
    | illegal hnot => exact hnot _ hla
    | leak block fd e next run hne =>
      obtain rfl := run.unique hva hla
      exact hne (hl.closed _ _ block _ hw fd e hfin)

omit hva

/-! ### The check ends -/

/-- The regions that the instructions of a function acquire. -/
def acquiredRegions (function : FunctionDef) : List NativeId :=
  function.blocks.flatMap fun block => block.instructions.flatMap fun instruction =>
    match instruction.epoch with
    | .arena region => [region]
    | _ => []

theorem mem_acquiredRegions {l : List NativeId}
    (hmem : instruction ∈ walkInstructions fn l)
    (he : instruction.epoch = .arena rg) : rg ∈ acquiredRegions fn := by
  obtain ⟨blockId, _, hins⟩ := mem_flatMap.mp hmem
  cases hf : findBlock fn.blocks blockId with
  | none => simp [hf] at hins
  | some block =>
    simp only [hf] at hins
    refine mem_flatMap.mpr ⟨block, mem_of_find?_eq_some hf, mem_flatMap.mpr ⟨instruction, hins, ?_⟩⟩
    simp [he]

/-- **The check ends on every graph of blocks.** -/
theorem functionLeakViolation_ends (hva : (functionValueIds fn).Nodup) :
    ∃ fuel violation, ∀ m ≥ fuel, functionLeakViolation m regions fn = some violation := by
  refine ends (fun blockId stack => (blockId, stack)) ((fn.blocks.map (·.id)).toFinset ×ˢ
      ((acquiredRegions fn).sublists.flatMap permutations).toFinset : Finset _)
    (Finset.finite_toSet _) ⟨?_, ?_, ?_⟩
  · intro p blockId stack res ht hv
    obtain ⟨_, hrun⟩ := run_of_trail hva ht
    obtain ⟨block, hvis⟩ := (leakWalker_visit hva).1 res.1 res.2 hv
    have hid : block.id = blockId := by simpa using find?_some hvis.found
    have hsub : stack ⊆ acquiredRegions fn := by
      intro rg hreg
      rcases hrun.opened rg hreg with hnil | ⟨instruction, hmem, he⟩
      · exact absurd hnil not_mem_nil
      · exact mem_acquiredRegions hmem he
    obtain ⟨tk, hp, hs⟩ := subperm_of_subset (hrun.nodup nodup_nil) hsub
    simp only [Finset.mem_coe, Finset.mem_product, mem_toFinset]
    exact ⟨hid ▸ mem_map_of_mem (mem_of_find?_eq_some hvis.found),
      mem_flatMap.mpr ⟨tk, mem_sublists.mpr hs, mem_permutations.mpr hp.symm⟩⟩
  · intro p blockId met o stack _ _ hkey
    simp only [leakWalker]
    simpa using (Prod.mk.inj hkey).2
  · intro blockId met o stack hkey
    exact (Prod.mk.inj hkey).1

/-! ### Leak freedom -/

/-- **Leak freedom**: the check ends, and it finds no violation just where every walk opens and
closes its epochs last in, first out. -/
theorem leak_free_iff_lastInFirstOut (regions : List RegionDef) (function : FunctionDef)
    (hvalues : (functionValueIds function).Nodup) (htargets : TargetsExist function) :
    (∃ fuel violation, ∀ more ≥ fuel,
        functionLeakViolation more regions function = some violation) ∧
      ∀ fuel violation, functionLeakViolation fuel regions function = some violation →
        (violation = none ↔ LastInFirstOut regions function) := by
  refine ⟨functionLeakViolation_ends hvalues, fun fuel violation h => ⟨?_, ?_⟩⟩
  · rintro rfl
    exact lastInFirstOut_of_none hvalues h
  · intro hl
    cases violation with
    | none => rfl
    | some rg => exact absurd hl (violates_of_some hvalues htargets h)

/-- A loop that opens an epoch below the root and closes it again. -/
def epochLoop : FunctionDef where
  parameters := []
  blocks := [ ⟨⟨"entry"⟩, [], [], [.jump ⟨"loop"⟩ []]⟩,
    ⟨⟨"loop"⟩, [], [⟨⟨⟨"arena"⟩, ⟨"handle"⟩⟩, none, .arena ⟨"epoch"⟩⟩,
      ⟨⟨⟨"closed"⟩, ⟨"unit"⟩⟩, none, .arenaClose ⟨"arena"⟩⟩],
      [.branch ⟨"again"⟩ ⟨"loop"⟩ ⟨"exit"⟩]⟩,
    ⟨⟨"exit"⟩, [], [], [.returns none]⟩]
  entryBlock := ⟨"entry"⟩
  regions := []
  capabilities := []

theorem epochLoop_lastInFirstOut :
    LastInFirstOut [⟨⟨"root"⟩, .arenaRegion, none⟩, ⟨⟨"epoch"⟩, .arenaRegion, some ⟨"root"⟩⟩]
      epochLoop :=
  ((leak_free_iff_lastInFirstOut _ epochLoop (by decide) ⟨by decide, by decide⟩).2 6 none
    (by decide)).mp rfl

end

end Beagle.Resources
