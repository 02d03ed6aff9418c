/-
Values along the walks of a function.

A walk starts at the entry with the parameters of the function, passes the instructions and the
terminators of a block, and takes an edge, which binds the parameters of its target.  A function
that is valid binds every value before it is read, but for the parameters of the entry block:
no edge has bound them when a walk starts, and their uses are accepted all the same.

Valid SSA is sound, but for the parameters of the entry block.

What dominates a use has been passed on every walk to it, so it is bound; an edge has bound the
parameters of every block but the entry.  Where a block that is reached reads a parameter of the
entry block, the walk that has not come back to the entry reads a value that nothing has bound.
-/
import Beagle.Proofs.Dominance

namespace Beagle.Obligations

open Beagle.Lib List
open Beagle.Lib.Dominators
open Beagle.NativeCore

/-! ### Walks and what they bind -/

inductive Event where
  | bound (id : NativeId)
  | used (id : NativeId)

/-- Every value that is used was bound before. -/
def EveryUseBound (events : List Event) : Prop :=
  ∀ front id back, events = front ++ .used id :: back → .bound id ∈ front

def instructionEvents (instruction : Instruction) : List Event :=
  (instructionSsaRefs instruction).map .used ++ [.bound instruction.result.id]

def terminatorEvents (terminator : Terminator) : List Event :=
  (terminatorSsaRefs terminator).map .used

def blockEvents (block : BasicBlock) : List Event :=
  block.instructions.flatMap instructionEvents ++ block.terminators.flatMap terminatorEvents

/-- The edges of a terminator: their targets with the arguments they pass. -/
def terminatorEdges : Terminator → List (NativeId × List NativeId)
  | .jump blockId arguments => [(blockId, arguments)]
  | .branch _ trueBlock falseBlock => [(trueBlock, []), (falseBlock, [])]
  | .switch _ cases => cases.map fun switchCase => (switchCase.blockId, switchCase.arguments)
  | .returns _ => []
  | .trap _ => []

def blockEdges (block : BasicBlock) : List (NativeId × List NativeId) :=
  block.terminators.flatMap terminatorEdges

/-- An edge binds the parameters that it has arguments for. -/
def edgeEvents (parameters : List Parameter) (arguments : List NativeId) : List Event :=
  (parameters.zip arguments).map fun pair => .bound pair.1.id

/-- A walk that arrives at a block: the blocks it has left and all that it has bound and used. -/
inductive Path (function : FunctionDef) : List BasicBlock → BasicBlock → List Event → Prop where
  | start {block : BasicBlock}
      (found : findBlock function.blocks function.entryBlock = some block) :
      Path function [] block (function.parameters.map fun parameter => .bound parameter.id)
  | step {left : List BasicBlock} {block target : BasicBlock} {events : List Event}
      {targetId : NativeId} {arguments : List NativeId} (path : Path function left block events)
      (edge : (targetId, arguments) ∈ blockEdges block)
      (found : findBlock function.blocks targetId = some target) :
      Path function (left ++ [block]) target
        (events ++ blockEvents block ++ edgeEvents target.parameters arguments)

/-- A value is defined in the function, with this type. -/
inductive Defines (function : FunctionDef) : NativeId → NativeId → Prop where
  | functionParameter {parameter : Parameter} (h : parameter ∈ function.parameters) :
      Defines function parameter.id parameter.typeId
  | blockParameter {block : BasicBlock} {parameter : Parameter} (hblock : block ∈ function.blocks)
      (h : parameter ∈ block.parameters) : Defines function parameter.id parameter.typeId
  | result {block : BasicBlock} {instruction : Instruction} (hblock : block ∈ function.blocks)
      (h : instruction ∈ block.instructions) :
      Defines function instruction.result.id instruction.result.typeId

/-- What validity is for: no walk reads a value that is not bound, every edge binds the parameters
of its target with values of their types, and no value is defined twice. -/
structure Sound (function : FunctionDef) : Prop where
  uses : ∀ left block events, Path function left block events →
    EveryUseBound (events ++ blockEvents block)
  edges : ∀ block ∈ function.blocks, ∀ targetId arguments,
    (targetId, arguments) ∈ blockEdges block →
    ∃ target, findBlock function.blocks targetId = some target ∧
      Forall₂ (fun parameter argument => Defines function argument parameter.typeId)
        target.parameters arguments
  distinct : (functionValueIds function).Nodup

def blockReads (block : BasicBlock) : List NativeId :=
  block.instructions.flatMap instructionSsaRefs ++ block.terminators.flatMap terminatorSsaRefs

/-- No block that is reached from the entry reads a parameter of the entry block. -/
def EntryParametersUnread (function : FunctionDef) : Prop :=
  ∀ entry, findBlock function.blocks function.entryBlock = some entry →
    ∀ left, ∀ block ∈ function.blocks,
      Walk (Edge function) function.entryBlock.value left block.id.value →
      ∀ parameter ∈ entry.parameters, parameter.id ∉ blockReads block

/-! ### Lists of events -/

variable {events : List Event} {block : BasicBlock}

theorem everyUseBound_bound (h : EveryUseBound events) (id : NativeId) :
    EveryUseBound (events ++ [.bound id]) := by
  intro fr u b hsp
  rcases eq_nil_or_concat b with rfl | ⟨os, l, rfl⟩
  · exact absurd (append_inj' hsp rfl).2 (by simp)
  · rw [concat_eq_append, ← cons_append, ← append_assoc] at hsp
    exact h fr u os (append_inj' hsp rfl).1

variable {id : NativeId}

theorem everyUseBound_used (h : EveryUseBound events)
    (hb : .bound id ∈ events) : EveryUseBound (events ++ [.used id]) := by
  intro fr u b hsp
  rcases eq_nil_or_concat b with rfl | ⟨os, l, rfl⟩
  · obtain ⟨rfl, hs⟩ := append_inj' hsp rfl
    rw [singleton_inj, Event.used.injEq] at hs
    rw [← hs]
    exact hb
  · rw [concat_eq_append, ← cons_append, ← append_assoc] at hsp
    exact h fr u os (append_inj' hsp rfl).1

theorem everyUseBound_nil : EveryUseBound [] := by
  intro fr u b hsp
  simp at hsp

variable {α : Type} {site : DefSite}

theorem everyUseBound_allBound (h : EveryUseBound events) (id : α → NativeId) (m : List α) :
    EveryUseBound (events ++ m.map fun a => .bound (id a)) := by
  induction m generalizing events with
  | nil => rwa [map_nil, append_nil]
  | cons a m ih =>
    have hn := ih (everyUseBound_bound h (id a))
    rwa [append_assoc] at hn

theorem everyUseBound_allUsed (h : EveryUseBound events) {ids : List NativeId}
    (hb : ∀ id ∈ ids, .bound id ∈ events) : EveryUseBound (events ++ ids.map .used) := by
  induction ids generalizing events with
  | nil => rwa [map_nil, append_nil]
  | cons id ids ih =>
    have hn := ih (everyUseBound_used h (hb id mem_cons_self))
      fun o ho => mem_append_left _ (hb o (mem_cons_of_mem _ ho))
    rwa [append_assoc] at hn

theorem bound_of_used (h : EveryUseBound events) (hu : .used id ∈ events) :
    .bound id ∈ events := by
  obtain ⟨fr, b, rfl⟩ := append_of_mem hu
  exact mem_append_left _ (h fr id b rfl)

theorem used_mem_blockEvents (h : id ∈ blockReads block) :
    .used id ∈ blockEvents block := by
  rcases List.mem_append.mp h with h | h
  · obtain ⟨ins, hi, hid⟩ := mem_flatMap.mp h
    refine mem_append_left _ (mem_flatMap.mpr ⟨ins, hi, ?_⟩)
    exact mem_append_left _ (mem_map_of_mem hid)
  · obtain ⟨t, ht, hid⟩ := mem_flatMap.mp h
    refine mem_append_right _ (mem_flatMap.mpr ⟨t, ht, ?_⟩)
    exact mem_map_of_mem hid

theorem bound_mem_blockEvents :
    .bound id ∈ blockEvents block ↔ ∃ ins ∈ block.instructions, ins.result.id = id := by
  constructor
  · intro h
    rcases List.mem_append.mp h with h | h
    · obtain ⟨ins, hi, h⟩ := mem_flatMap.mp h
      rcases List.mem_append.mp h with h | h
      · obtain ⟨o, -, h⟩ := mem_map.mp h
        simp at h
      · rw [mem_singleton, Event.bound.injEq] at h
        exact ⟨ins, hi, h.symm⟩
    · obtain ⟨t, -, h⟩ := mem_flatMap.mp h
      obtain ⟨o, -, h⟩ := mem_map.mp h
      simp at h
  · rintro ⟨ins, hi, rfl⟩
    refine mem_append_left _ (mem_flatMap.mpr ⟨ins, hi, ?_⟩)
    exact mem_append_right _ (mem_singleton_self _)

/-! ### Definition sites -/

/-- Where a value is defined, as the index records it. -/
inductive SiteOf (function : FunctionDef) : NativeId → DefSite → Prop where
  | functionParameter {parameter : Parameter} (h : parameter ∈ function.parameters) :
      SiteOf function parameter.id
        ⟨true, true, obligationId "function-parameter", -1, parameter.typeId⟩
  | blockParameter {block : BasicBlock} {parameter : Parameter} (hblock : block ∈ function.blocks)
      (h : parameter ∈ block.parameters) :
      SiteOf function parameter.id ⟨true, false, block.id, -1, parameter.typeId⟩
  | result {block : BasicBlock} {position : Nat} {instruction : Instruction}
      (hblock : block ∈ function.blocks) (h : block.instructions[position]? = some instruction) :
      SiteOf function instruction.result.id
        ⟨true, false, block.id, position, instruction.result.typeId⟩

theorem SiteOf.defines {function : FunctionDef} (h : SiteOf function id site) :
    Defines function id site.typeId := by
  cases h with
  | functionParameter h => exact .functionParameter h
  | blockParameter hblk h => exact .blockParameter hblk h
  | result hblk h => exact .result hblk (mem_of_getElem? h)

/-- Every entry of a table is a site of the function. -/
def Sites (function : FunctionDef) (table : Table DefSite) : Prop :=
  ∀ key site, Table.get table key = some site → SiteOf function ⟨key⟩ site

variable {t : Table DefSite}

theorem Sites.assoc {function : FunctionDef} (h : Sites function t)
    (hsi : SiteOf function id site) :
    Sites function (Table.assoc t id.value site) := by
  intro key o hget
  rw [Table.get_assoc] at hget
  by_cases hs : id.value = key
  · rw [if_pos hs, Option.some.injEq] at hget
    subst hget
    subst hs
    exact hsi
  · rw [if_neg hs] at hget
    exact h key o hget

theorem Sites.parameters {function : FunctionDef}
    (h : Sites function t) {ps : List Parameter} {fp : Bool}
    {bi : NativeId} (hs : ∀ parameter ∈ ps,
      SiteOf function parameter.id ⟨true, fp, bi, -1, parameter.typeId⟩) :
    Sites function (indexParameterSites t ps fp bi) := by
  unfold indexParameterSites
  induction ps generalizing t with
  | nil => exact h
  | cons parameter r ih =>
    exact ih (h.assoc (hs parameter mem_cons_self))
      fun o ho => hs o (mem_cons_of_mem _ ho)

theorem Sites.instructions {function : FunctionDef}
    (h : Sites function t) (hblk : block ∈ function.blocks) :
    Sites function (indexInstructionSites t block) := by
  have hf : ∀ (r : List Instruction) (p : Nat) (t : Table DefSite),
      Sites function t → (∀ off ins, r[off]? = some ins → block.instructions[p + off]? = some ins) →
      Sites function (indexInstructionsFrom block.id p t r) := by
    intro r
    induction r with
    | nil => exact fun _ _ h _ => h
    | cons ins r ih =>
      intro p t h hr
      refine ih (p + 1) _ (h.assoc (.result hblk (hr 0 ins rfl))) ?_
      intro off o ho
      rw [Nat.add_assoc, Nat.add_comm 1 off]
      exact hr (off + 1) o ho
  refine hf block.instructions 0 t h fun off ins hget => ?_
  rwa [Nat.zero_add]

theorem sites_definitionIndex (function : FunctionDef) :
    Sites function (definitionIndex function) := by
  unfold definitionIndex
  refine foldlRecOn function.blocks _ ?_ ?_
  · refine Sites.parameters (fun key site h => absurd h (by simp)) fun parameter h => ?_
    exact .functionParameter h
  · intro t h block hblk
    exact (h.parameters fun parameter hpar => .blockParameter hblk hpar).instructions hblk

theorem site_of_found {function : FunctionDef} {dominators : Table String}
    (h : (indexedDefSite ⟨definitionIndex function, dominators⟩ id).found = true) :
    SiteOf function id (indexedDefSite ⟨definitionIndex function, dominators⟩ id) := by
  unfold indexedDefSite at h ⊢
  dsimp only at h ⊢
  cases hget : Table.get (definitionIndex function) id.value with
  | none =>
    rw [hget] at h
    exact absurd h (by decide)
  | some site => exact sites_definitionIndex function id.value site hget

/-! ### What the checks accept -/

theorem everyTrue_iff {t : α → Option Bool} {es : List α} :
    everyTrue t es = some true ↔ ∀ a ∈ es, t a = some true := by
  induction es with
  | nil => simp [everyTrue]
  | cons a r ih =>
    rw [everyTrue, forall_mem_cons, ← ih]
    cases t a with
    | none => simp
    | some res =>
      cases res with
      | false | true => simp

/-- What validity has checked, with the index it has made. -/
structure Checked (fuel : Nat) (function : FunctionDef) (dominators : Table String) : Prop where
  index : dominatorIndex fuel function = some dominators
  distinct : (functionValueIds function).Nodup
  instructions : ∀ block ∈ function.blocks,
    instructionUsesFrom fuel ⟨definitionIndex function, dominators⟩ function block.id 0
      block.instructions = some true
  terminators : ∀ block ∈ function.blocks, ∀ terminator ∈ block.terminators,
    ∀ id ∈ terminatorSsaRefs terminator,
      valueDominatesUse fuel ⟨definitionIndex function, dominators⟩ function block.id
        block.instructions.length id = some true
  arguments : ∀ block ∈ function.blocks, ∀ terminator ∈ block.terminators,
    terminatorArgumentsValid ⟨definitionIndex function, dominators⟩ function terminator = true

theorem checked_of_valid {fuel : Nat} {function : FunctionDef}
    (h : functionValidSsa fuel function = some true) :
    ∃ dominators, Checked fuel function dominators := by
  unfold functionValidSsa at h
  split at h
  · simp at h
  · rename_i hun
    rw [Bool.not_eq_true', Bool.not_eq_false] at hun
    rw [Option.bind_eq_bind, Option.bind_eq_some_iff] at h
    obtain ⟨i, hidx, h⟩ := h
    unfold ssaValidationIndex at hidx
    rw [Option.bind_eq_bind, Option.bind_eq_some_iff] at hidx
    obtain ⟨dominators, hd, hidx⟩ := hidx
    rw [Option.pure_def, Option.some.injEq] at hidx
    subst hidx
    have hb := everyTrue_iff.mp h
    have hsp : ∀ block ∈ function.blocks,
        blockUsesDominated fuel ⟨definitionIndex function, dominators⟩ function block = some true ∧
        block.terminators.all (terminatorArgumentsValid ⟨definitionIndex function, dominators⟩
          function) = true := by
      intro block hblk
      have hchk := hb block hblk
      rw [Option.bind_eq_bind, Option.bind_eq_some_iff] at hchk
      obtain ⟨u, hu, hr⟩ := hchk
      cases u with
      | false => simp at hr
      | true => exact ⟨hu, Option.some.inj hr⟩
    have hu : ∀ block ∈ function.blocks,
        instructionUsesFrom fuel ⟨definitionIndex function, dominators⟩ function block.id 0
          block.instructions = some true ∧
        everyTrue (fun t => refsDominate fuel ⟨definitionIndex function, dominators⟩
          function block.id block.instructions.length (terminatorSsaRefs t))
          block.terminators = some true := by
      intro block hblk
      have hchk := (hsp block hblk).1
      unfold blockUsesDominated at hchk
      rw [Option.bind_eq_bind, Option.bind_eq_some_iff] at hchk
      obtain ⟨first, hfst, hr⟩ := hchk
      cases first with
      | false => simp at hr
      | true => exact ⟨hfst, hr⟩
    exact ⟨dominators, hd, (uniqueFrom_iff.mp hun).1,
      fun block hblk => (hu block hblk).1,
      fun block hblk t ht =>
        everyTrue_iff.mp (everyTrue_iff.mp (hu block hblk).2 t ht),
      fun block hblk => all_eq_true.mp (hsp block hblk).2⟩

/-! ### Edges -/

section

variable {function : FunctionDef} {block : BasicBlock} {dominators : Table String}
  {arguments : List NativeId} {targetId : NativeId}

theorem findBlock_some {bs : List BasicBlock} {blockId : NativeId}
    (h : findBlock bs blockId = some block) : block ∈ bs ∧ block.id = blockId :=
  ⟨mem_of_find?_eq_some h, by simpa using find?_some h⟩

theorem findBlock_of_mem (hids : (function.blocks.map (·.id)).Nodup)
    (hblk : block ∈ function.blocks) : findBlock function.blocks block.id = some block := by
  cases hf : findBlock function.blocks block.id with
  | none =>
    have hn := find?_eq_none.mp hf block hblk
    exact absurd (beq_self_eq_true block.id) hn
  | some fd =>
    obtain ⟨hmem, hid⟩ := findBlock_some hf
    rw [eq_of_id hids hmem hblk hid]

theorem argumentsMatchFrom_defines {ps : List Parameter} (hlen : ps.length = arguments.length)
    (h : argumentsMatchFrom ⟨definitionIndex function, dominators⟩ ps arguments = true) :
    Forall₂ (fun parameter a => Defines function a parameter.typeId) ps arguments := by
  induction ps generalizing arguments with
  | nil =>
    rw [length_nil] at hlen
    rw [eq_nil_of_length_eq_zero hlen.symm]
    exact .nil
  | cons parameter ps ih =>
    cases arguments with
    | nil => simp at hlen
    | cons a arguments =>
      rw [argumentsMatchFrom] at h
      split at h
      · rename_i hs
        rw [Bool.and_eq_true, beq_iff_eq] at hs
        refine .cons ?_ (ih (Nat.succ.inj hlen) h)
        rw [← hs.2]
        exact (site_of_found hs.1).defines
      · exact absurd h Bool.false_ne_true

theorem argumentsMatchParameters_defines
    (h : argumentsMatchParameters ⟨definitionIndex function, dominators⟩
      function targetId arguments = true) :
    ∃ t, findBlock function.blocks targetId = some t ∧
      Forall₂ (fun parameter a => Defines function a parameter.typeId) t.parameters arguments := by
  unfold argumentsMatchParameters at h
  split at h
  · exact absurd h Bool.false_ne_true
  · rename_i t hf
    rw [Bool.and_eq_true, beq_iff_eq] at h
    exact ⟨t, hf, argumentsMatchFrom_defines h.1 h.2⟩

theorem terminatorArgumentsValid_edges {t : Terminator}
    (h : terminatorArgumentsValid ⟨definitionIndex function, dominators⟩ function t = true)
    (he : (targetId, arguments) ∈ terminatorEdges t) :
    argumentsMatchParameters ⟨definitionIndex function, dominators⟩ function targetId arguments =
      true := by
  cases t with
  | returns v | trap fi => exact absurd he not_mem_nil
  | jump bi p =>
    rw [terminatorEdges, mem_singleton, Prod.mk.injEq] at he
    rw [he.1, he.2]
    exact h
  | branch c tb fb =>
    rw [terminatorArgumentsValid, Bool.and_eq_true] at h
    rw [terminatorEdges, mem_cons, mem_singleton, Prod.mk.injEq, Prod.mk.injEq] at he
    rcases he with ⟨rfl, rfl⟩ | ⟨rfl, rfl⟩
    · exact h.1
    · exact h.2
  | switch vi cases =>
    obtain ⟨sc, hc, hs⟩ := mem_map.mp he
    rw [Prod.mk.injEq] at hs
    rw [← hs.1, ← hs.2]
    exact all_eq_true.mp h sc hc

theorem Checked.edges {fuel : Nat} (h : Checked fuel function dominators)
    (hblk : block ∈ function.blocks) (he : (targetId, arguments) ∈ blockEdges block) :
    ∃ tg, findBlock function.blocks targetId = some tg ∧
      Forall₂ (fun parameter a => Defines function a parameter.typeId) tg.parameters arguments := by
  obtain ⟨t, ht, he⟩ := mem_flatMap.mp he
  exact argumentsMatchParameters_defines
    (terminatorArgumentsValid_edges (h.arguments block hblk t ht) he)

theorem terminatorSuccessors_eq (t : Terminator) :
    terminatorSuccessors t = (terminatorEdges t).map (·.1) := by
  cases t with
  | switch vi cases =>
    unfold terminatorSuccessors terminatorEdges
    rw [map_map]
    rfl
  | returns v | jump bi p | branch c tb fb | trap fi => rfl

/-- With one terminator, the successors of a block are the targets of its edges. -/
theorem mem_blockSuccessors (hone : block.terminators.length = 1) {s : NativeId} :
    s ∈ blockSuccessors block ↔ ∃ arguments, (s, arguments) ∈ blockEdges block := by
  obtain ⟨t, ht⟩ := length_eq_one_iff.mp hone
  unfold blockSuccessors blockEdges
  rw [ht, flatMap_singleton]
  dsimp only
  rw [terminatorSuccessors_eq, mem_map]
  constructor
  · rintro ⟨⟨tg, arguments⟩, hmem, rfl⟩
    exact ⟨arguments, hmem⟩
  · rintro ⟨arguments, hmem⟩
    exact ⟨_, hmem, rfl⟩

end

/-! ### What a walk has bound -/

section

variable {function : FunctionDef}

/-- What is bound when a walk arrives at a block. -/
structure Arrived (function : FunctionDef) (left : List BasicBlock) (block : BasicBlock)
    (events : List Event) : Prop where
  mem : ∀ other ∈ left ++ [block], other ∈ function.blocks
  starts : ∃ entry ∈ left ++ [block], entry.id = function.entryBlock
  functionParameters : ∀ parameter ∈ function.parameters, .bound parameter.id ∈ events
  results : ∀ other ∈ left, ∀ instruction ∈ other.instructions,
    .bound instruction.result.id ∈ events
  blockParameters : ∀ other ∈ left ++ [block], other.id ≠ function.entryBlock →
    ∀ parameter ∈ other.parameters, .bound parameter.id ∈ events
  walk : Walk (Edge function) function.entryBlock.value (left.map (·.id.value)) block.id.value

variable {parameter : Parameter}

theorem mem_edgeEvents {parameters : List Parameter} {arguments : List NativeId}
    (hlen : parameters.length = arguments.length) (h : parameter ∈ parameters) :
    .bound parameter.id ∈ edgeEvents parameters arguments := by
  have hfst : (parameters.zip arguments).map (·.1) = parameters :=
    map_fst_zip (Nat.le_of_eq hlen)
  rw [← hfst] at h
  obtain ⟨p, hp, rfl⟩ := mem_map.mp h
  exact mem_map.mpr ⟨p, hp, rfl⟩

variable {fuel : Nat} {dominators : Table String} {left : List BasicBlock} {block : BasicBlock}
  {events : List Event}

theorem Path.arrived (hchk : Checked fuel function dominators)
    (hone : ∀ block ∈ function.blocks, block.terminators.length = 1)
    (p : Path function left block events) : Arrived function left block events := by
  induction p with
  | @start block fd =>
    obtain ⟨hmem, hid⟩ := findBlock_some fd
    refine
      { mem := fun o h => by rw [mem_singleton.mp h]; exact hmem
        starts := ⟨block, mem_singleton_self _, hid⟩
        functionParameters := fun parameter h => mem_map.mpr ⟨parameter, h, rfl⟩
        results := forall_mem_nil _
        blockParameters := fun o h hne => ?_
        walk := by rw [hid]; exact .start }
    rw [nil_append, mem_singleton] at h
    exact absurd (h ▸ hid) hne
  | @step left block t events targetId arguments p e fd ih =>
    obtain ⟨htgt, hid⟩ := findBlock_some fd
    have hblk := ih.mem block (mem_append_right _ (mem_singleton_self _))
    have hlen : t.parameters.length = arguments.length := by
      obtain ⟨o, ho, hmat⟩ := hchk.edges hblk e
      rw [fd, Option.some.injEq] at ho
      rw [ho]
      exact hmat.length_eq
    constructor
    case mem =>
      intro o h
      rcases List.mem_append.mp h with h | h
      · exact ih.mem o h
      · rw [mem_singleton.mp h]
        exact htgt
    case starts =>
      obtain ⟨entry, hent, hei⟩ := ih.starts
      exact ⟨entry, mem_append_left _ hent, hei⟩
    case functionParameters =>
      intro parameter h
      exact mem_append_left _ (mem_append_left _ (ih.functionParameters parameter h))
    case results =>
      intro o ho ins h
      refine mem_append_left _ ?_
      rcases List.mem_append.mp ho with ho | ho
      · exact mem_append_left _ (ih.results o ho ins h)
      · rw [mem_singleton.mp ho] at h
        exact mem_append_right _ (bound_mem_blockEvents.mpr ⟨ins, h, rfl⟩)
    case blockParameters =>
      intro o ho hne parameter h
      rcases List.mem_append.mp ho with ho | ho
      · exact mem_append_left _ (mem_append_left _ (ih.blockParameters o ho hne parameter h))
      · rw [mem_singleton.mp ho] at h
        exact mem_append_right _ (mem_edgeEvents hlen h)
    case walk =>
      rw [map_append]
      refine .step ih.walk ⟨block, hblk, rfl, targetId, ?_, ?_, t, htgt, hid⟩
      · exact (mem_blockSuccessors (hone block hblk)).mpr ⟨arguments, e⟩
      · rw [hid]

/-- What dominates a use is bound on arrival or by an earlier instruction of the block. -/
theorem bound_of_dominates (hchk : Checked fuel function dominators)
    (hids : (function.blocks.map (·.id)).Nodup) (harr : Arrived function left block events)
    {p : Nat} {id : NativeId}
    (hdom : valueDominatesUse fuel ⟨definitionIndex function, dominators⟩ function block.id
      p id = some true)
    (hu : ∀ entry ∈ function.blocks, entry.id = function.entryBlock →
      ∀ parameter ∈ entry.parameters, parameter.id ≠ id) :
    .bound id ∈ events ∨ ∃ off ins, off < p ∧
      block.instructions[off]? = some ins ∧ ins.result.id = id := by
  have hblk := harr.mem block (mem_append_right _ (mem_singleton_self _))
  obtain ⟨entry, hent, hei⟩ := harr.starts
  have hem := harr.mem entry hent
  have harrived : ∀ home ∈ function.blocks,
      blockDominates fuel dominators home.id block.id = some true → home ∈ left ++ [block] := by
    intro home hh hdom
    have hvis := visited_of_dominates hids ⟨entry, hem, hei⟩ hchk.index harr.walk hdom
    obtain ⟨o, ho, hoi⟩ : ∃ o ∈ left ++ [block], o.id.value = home.id.value :=
      mem_map.mp (by rw [map_append]; exact hvis)
    rwa [← eq_of_id hids (harr.mem o ho) hh (id_eq hoi)]
  unfold valueDominatesUse at hdom
  dsimp only at hdom
  split at hdom
  · simp at hdom
  · rename_i hf
    rw [Bool.not_eq_false] at hf
    have hsi := site_of_found hf
    generalize indexedDefSite ⟨definitionIndex function, dominators⟩ id = site at hsi hdom
    -- where the value is defined decides why it dominates
    cases hsi with
    | functionParameter h => exact Or.inl (harr.functionParameters _ h)
    | @blockParameter home parameter hh h =>
      rw [if_neg (by simp)] at hdom
      have hhe : home.id ≠ function.entryBlock := fun hs =>
        hu home hh hs parameter h rfl
      refine Or.inl (harr.blockParameters home ?_ hhe parameter h)
      by_cases hs : home.id = block.id
      · rw [eq_of_id hids hh hblk hs]
        exact mem_append_right _ (mem_singleton_self _)
      · rw [if_neg hs, if_neg hhe] at hdom
        exact harrived home hh hdom
    | @result home off ins hh h =>
      rw [if_neg (by simp)] at hdom
      by_cases hs : home.id = block.id
      · rw [if_pos hs, Option.some.injEq, decide_eq_true_eq] at hdom
        rw [eq_of_id hids hh hblk hs] at h
        exact Or.inr ⟨off, ins, Int.ofNat_lt.mp hdom, h, rfl⟩
      · rw [if_neg hs] at hdom
        have hl : home ∈ left := by
          have hmem : home ∈ left ++ [block] := by
            by_cases hhe : home.id = function.entryBlock
            · rwa [eq_of_id hids hh hem (hhe.trans hei.symm)]
            · rw [if_neg hhe] at hdom
              exact harrived home hh hdom
          rcases List.mem_append.mp hmem with h | h
          · exact h
          · exact absurd (congrArg BasicBlock.id (mem_singleton.mp h)) hs
        exact Or.inl (harr.results home hl ins (mem_of_getElem? h))

/-- The instructions of a block use what is bound, one after the other. -/
theorem everyUseBound_instructions {fuel : Nat} {dominators : Table String} {block : BasicBlock}
    {events : List Event} {done rest : List Instruction}
    (hb : EveryUseBound (events ++ done.flatMap instructionEvents))
    (hchk : instructionUsesFrom fuel ⟨definitionIndex function, dominators⟩ function block.id
      done.length rest = some true)
    (hval : ∀ (p : Nat) id, valueDominatesUse fuel ⟨definitionIndex function, dominators⟩
      function block.id p id = some true → id ∈ rest.flatMap instructionSsaRefs →
      .bound id ∈ events ∨ ∃ off ins, off < p ∧
        (done ++ rest)[off]? = some ins ∧ ins.result.id = id) :
    EveryUseBound (events ++ (done ++ rest).flatMap instructionEvents) := by
  induction rest generalizing done with
  | nil => rwa [append_nil]
  | cons ins rest ih =>
    rw [instructionUsesFrom, Option.bind_eq_bind, Option.bind_eq_some_iff] at hchk
    obtain ⟨first, hfst, hr⟩ := hchk
    cases first with
    | false => simp at hr
    | true =>
      have hu : EveryUseBound (events ++ done.flatMap instructionEvents ++
          (instructionSsaRefs ins).map .used) := by
        refine everyUseBound_allUsed hb fun id hid => ?_
        have hmem : id ∈ (ins :: rest).flatMap instructionSsaRefs :=
          mem_flatMap.mpr ⟨ins, mem_cons_self, hid⟩
        rcases hval done.length id (everyTrue_iff.mp hfst id hid) hmem with
          h | ⟨off, o, hof, hget, rfl⟩
        · exact mem_append_left _ h
        · rw [getElem?_append_left hof] at hget
          refine mem_append_right _ (mem_flatMap.mpr ⟨o, ?_, ?_⟩)
          · exact mem_of_getElem? hget
          · exact mem_append_right _ (mem_singleton_self _)
      have hs : EveryUseBound (events ++ (done ++ [ins]).flatMap instructionEvents) := by
        have hres := everyUseBound_bound hu ins.result.id
        rw [flatMap_append, flatMap_singleton, instructionEvents, ← append_assoc, ← append_assoc]
        exact hres
      have hsp : done ++ ins :: rest = done ++ [ins] ++ rest := by
        rw [append_assoc]
        rfl
      rw [hsp]
      refine ih hs ?_ fun p id hdom hid => ?_
      · rw [length_append]
        exact hr
      · rw [← hsp]
        refine hval p id hdom ?_
        obtain ⟨o, ho, hid⟩ := mem_flatMap.mp hid
        exact mem_flatMap.mpr ⟨o, mem_cons_of_mem _ ho, hid⟩

theorem everyUseBound_terminators (hb : EveryUseBound events) {ts : List Terminator}
    (hval : ∀ t ∈ ts, ∀ id ∈ terminatorSsaRefs t, .bound id ∈ events) :
    EveryUseBound (events ++ ts.flatMap terminatorEvents) := by
  induction ts generalizing events with
  | nil => rwa [flatMap_nil, append_nil]
  | cons t r ih =>
    rw [flatMap_cons, ← append_assoc]
    refine ih (everyUseBound_allUsed hb (hval t mem_cons_self)) ?_
    intro o ho id hid
    exact mem_append_left _ (hval o (mem_cons_of_mem _ ho) id hid)

/-- A block that is valid uses what is bound, if it reads no parameter of the entry. -/
theorem everyUseBound_block (hchk : Checked fuel function dominators)
    (hids : (function.blocks.map (·.id)).Nodup) (harr : Arrived function left block events)
    (hb : EveryUseBound events)
    (hu : ∀ entry ∈ function.blocks, entry.id = function.entryBlock →
      ∀ parameter ∈ entry.parameters, parameter.id ∉ blockReads block) :
    EveryUseBound (events ++ blockEvents block) := by
  have hblk := harr.mem block (mem_append_right _ (mem_singleton_self _))
  have hui : ∀ id ∈ blockReads block, ∀ entry ∈ function.blocks,
      entry.id = function.entryBlock → ∀ parameter ∈ entry.parameters, parameter.id ≠ id := by
    intro id hid entry hent hei parameter hpar hs
    exact hu entry hent hei parameter hpar (hs ▸ hid)
  unfold blockEvents
  rw [← append_assoc]
  refine everyUseBound_terminators ?_ ?_
  · refine @everyUseBound_instructions function fuel dominators block events [] block.instructions
      ?_ (hchk.instructions block hblk) ?_
    · rwa [flatMap_nil, append_nil]
    · intro p id hdom hid
      exact bound_of_dominates hchk hids harr hdom (hui id (mem_append_left _ hid))
  · intro t ht id hid
    have hr : id ∈ blockReads block :=
      mem_append_right _ (mem_flatMap.mpr ⟨t, ht, hid⟩)
    rcases bound_of_dominates hchk hids harr
      (hchk.terminators block hblk t ht id hid) (hui id hr) with
      h | ⟨offset, instruction, -, hget, rfl⟩
    · exact mem_append_left _ h
    · refine mem_append_right _ (mem_flatMap.mpr ⟨instruction, ?_, ?_⟩)
      · exact mem_of_getElem? hget
      · exact mem_append_right _ (mem_singleton_self _)

/-! ### Walks that do not come back -/

variable {entry : BasicBlock}

theorem Checked.entryParameter_fresh (hchk : Checked fuel function dominators)
    (hent : entry ∈ function.blocks) (hpar : parameter ∈ entry.parameters) :
    (∀ o ∈ function.parameters, o.id ≠ parameter.id) ∧
    (∀ block ∈ function.blocks, ∀ ins ∈ block.instructions, ins.result.id ≠ parameter.id) ∧
    ∀ block ∈ function.blocks, block ≠ entry → ∀ o ∈ block.parameters, o.id ≠ parameter.id := by
  have hd := hchk.distinct
  unfold functionValueIds at hd
  obtain ⟨-, hb, ha⟩ := nodup_append.mp hd
  obtain ⟨hown, hos⟩ := nodup_flatMap.mp hb
  have hmem : parameter.id ∈ blockValueIds entry :=
    mem_append_left _ (mem_map.mpr ⟨parameter, hpar, rfl⟩)
  have ho : ∀ block ∈ function.blocks, block ≠ entry → parameter.id ∉ blockValueIds block := by
    intro block hblk hne hid
    have hsy : Std.Symm (Function.onFun List.Disjoint blockValueIds) :=
      ⟨fun _ _ h => disjoint_symm h⟩
    exact List.Pairwise.forall hos hblk hent hne hid hmem
  refine ⟨fun o h hs => ?_, fun block hblk ins h hs => ?_,
    fun block hblk hne o h hs => ?_⟩
  · exact ha o.id (mem_map.mpr ⟨o, h, rfl⟩) parameter.id (mem_flatMap.mpr ⟨entry, hent, hmem⟩) hs
  · by_cases hsb : block = entry
    · subst hsb
      obtain ⟨-, -, hp⟩ := nodup_append.mp (hown block hblk)
      exact hp parameter.id (mem_map.mpr ⟨parameter, hpar, rfl⟩)
        ins.result.id (mem_map.mpr ⟨ins, h, rfl⟩) hs.symm
    · refine ho block hblk hsb (hs ▸ ?_)
      exact mem_append_right _ (mem_map.mpr ⟨ins, h, rfl⟩)
  · refine ho block hblk hne (hs ▸ ?_)
    exact mem_append_left _ (mem_map.mpr ⟨o, h, rfl⟩)

/-- Every block that is reached is reached without binding a parameter of the entry. -/
theorem exists_fresh_path (hchk : Checked fuel function dominators)
    (hids : (function.blocks.map (·.id)).Nodup)
    (hone : ∀ block ∈ function.blocks, block.terminators.length = 1)
    (hent : findBlock function.blocks function.entryBlock = some entry) {left : List String}
    {key : String} (w : Walk (Edge function) function.entryBlock.value left key) :
    ∃ block ∈ function.blocks, block.id.value = key ∧ ∃ p events, Path function p block events ∧
      ∀ parameter ∈ entry.parameters, .bound parameter.id ∉ events := by
  obtain ⟨hmem, hid⟩ := findBlock_some hent
  have hst : ∀ parameter ∈ entry.parameters,
      .bound parameter.id ∉ function.parameters.map fun o => Event.bound o.id := by
    intro parameter hpar h
    obtain ⟨o, ho, hs⟩ := mem_map.mp h
    exact (hchk.entryParameter_fresh hmem hpar).1 o ho (Event.bound.inj hs)
  induction w with
  | start => exact ⟨entry, hmem, congrArg NativeId.value hid, [], _, .start hent, hst⟩
  | @step left src t w next ih =>
    obtain ⟨block, hblk, hkey, p, events, pt, hf⟩ := ih
    obtain ⟨o, ho, hok, s, hsu, rfl, tb, htgt, hti⟩ :=
      next
    obtain rfl := eq_of_id hids ho hblk (id_eq (hok.trans hkey.symm))
    by_cases hb : tb = entry
    · subst hb
      refine ⟨tb, htgt, by rw [hti], [], _, .start hent, hst⟩
    · obtain ⟨arguments, he⟩ := (mem_blockSuccessors (hone o hblk)).mp hsu
      refine ⟨tb, htgt, by rw [hti], _, _, .step pt he (hti ▸ findBlock_of_mem hids htgt), ?_⟩
      intro parameter hpar h
      obtain ⟨-, hr, hp⟩ := hchk.entryParameter_fresh hmem hpar
      rcases List.mem_append.mp h with h | h
      · rcases List.mem_append.mp h with h | h
        · exact hf parameter hpar h
        · obtain ⟨ins, hi, hs⟩ := bound_mem_blockEvents.mp h
          exact hr o hblk ins hi hs
      · obtain ⟨pr, hpa, hs⟩ := mem_map.mp h
        exact hp tb htgt hb pr.1 (of_mem_zip hpa).1 (Event.bound.inj hs)

end

/-- **Valid SSA is sound** exactly when no block that is reached from the entry reads a parameter
of the entry block. -/
theorem valid_ssa_sound (function : FunctionDef) (fuel : Nat)
    (hids : (function.blocks.map (·.id)).Nodup)
    (hone : ∀ block ∈ function.blocks, block.terminators.length = 1)
    (haccepted : functionValidSsa fuel function = some true) :
    Sound function ↔ EntryParametersUnread function := by
  obtain ⟨dominators, hchk⟩ := checked_of_valid haccepted
  constructor
  · intro hs entry hent left block hblk w parameter hpar hr
    obtain ⟨hem, -⟩ := findBlock_some hent
    obtain ⟨other, ho, hkey, pa, events, p, hf⟩ :=
      exists_fresh_path hchk hids hone hent w
    obtain rfl := eq_of_id hids ho hblk (id_eq hkey)
    have hus : .used parameter.id ∈ events ++ blockEvents other :=
      mem_append_right _ (used_mem_blockEvents hr)
    rcases List.mem_append.mp (bound_of_used (hs.uses pa other events p) hus) with h | h
    · exact hf parameter hpar h
    · obtain ⟨ins, hi, hsa⟩ := bound_mem_blockEvents.mp h
      exact (hchk.entryParameter_fresh hem hpar).2.1 other hblk ins hi hsa
  · intro hu
    refine ⟨?_, fun block hblk _ _ he => hchk.edges hblk he, hchk.distinct⟩
    have hb : ∀ {left block events}, Path function left block events → EveryUseBound events →
        EveryUseBound (events ++ blockEvents block) := by
      intro left block events p hbo
      have harr := p.arrived hchk hone
      refine everyUseBound_block hchk hids harr hbo ?_
      intro entry hent hei parameter hpar
      refine hu entry (hei ▸ findBlock_of_mem hids hent) _ block ?_ harr.walk parameter hpar
      exact harr.mem block (mem_append_right _ (mem_singleton_self _))
    intro left block events p
    refine hb p ?_
    induction p with
    | start fd => exact everyUseBound_allBound everyUseBound_nil _ _
    | step p e fd ih => exact everyUseBound_allBound (hb p ih) _ _

/-- A copy of the parameter of a function, passed on to a second block that returns it. -/
def passingFunction : FunctionDef where
  parameters := [⟨⟨"given"⟩, ⟨"type"⟩⟩]
  blocks :=
    [⟨⟨"first"⟩, [], [⟨⟨⟨"copied"⟩, ⟨"type"⟩⟩, .copy ⟨"given"⟩⟩], [.jump ⟨"second"⟩ [⟨"copied"⟩]],
        by decide⟩,
      ⟨⟨"second"⟩, [⟨⟨"passed"⟩, ⟨"type"⟩⟩], [], [.returns (some ⟨"passed"⟩)], by decide⟩]
  entryBlock := ⟨"first"⟩

theorem passingFunction_sound : Sound passingFunction ↔ EntryParametersUnread passingFunction :=
  valid_ssa_sound passingFunction 4 (by decide) (by decide) (by decide)

/-- A function without parameters whose entry block returns a parameter of its own. -/
def unboundFunction : FunctionDef where
  parameters := []
  blocks :=
    [⟨⟨"entry"⟩, [⟨⟨"unbound"⟩, ⟨"type"⟩⟩], [], [.returns (some ⟨"unbound"⟩)], by decide⟩]
  entryBlock := ⟨"entry"⟩

/-- A parameter of the entry block is accepted although nothing binds it. -/
theorem entry_parameter_unbound : ¬ ∀ function fuel, (function.blocks.map (·.id)).Nodup →
      (∀ block ∈ function.blocks, block.terminators.length = 1) →
      functionValidSsa fuel function = some true → Sound function := by
  intro h
  have hs := h unboundFunction 3 (by decide) (by decide) (by decide)
  have hu := hs.uses [] _ [] (.start rfl) [] ⟨"unbound"⟩ [] rfl
  exact absurd hu not_mem_nil

end Beagle.Obligations
