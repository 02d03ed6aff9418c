/-
The obligation of exhaustive matches.

A switch is over the variants of a union, or of the union that ends a chain of failure types.  The
chain is followed by identity and its types are not remembered, so a chain of types that fail with
each other is followed without end.  A switch passes when its cases are as many as the variants,
are distinct, and hold all of them.
-/
import Beagle.Native.Layouts
import Beagle.Native.Obligations

namespace Beagle.Switches

open Beagle.Layouts (TypeDef TypeShape TypeVariant findType)
open Beagle.NativeCore List
open Beagle.Obligations (DefSite missingDefSite obligationId)

/-! ### Where a value is defined -/

def parameterSiteIn (functionParameter : Bool) (blockId : NativeId) (parameters : List Parameter)
    (valueId : NativeId) : DefSite :=
  match parameters.find? fun parameter => parameter.id == valueId with
  | none => missingDefSite
  | some parameter => ⟨true, functionParameter, blockId, -1, parameter.typeId⟩

def parameterSite : List Parameter → NativeId → DefSite :=
  parameterSiteIn true (obligationId "function-parameter")

def blockParameterSite (block : BasicBlock) : NativeId → DefSite :=
  parameterSiteIn false block.id block.parameters

/-- The loop of `block-instruction-site`, from an index on. -/
def instructionSiteFrom (blockId valueId : NativeId) (index : Nat) : List Instruction → DefSite
  | [] => missingDefSite
  | instruction :: rest =>
    if instruction.result.id = valueId then
      ⟨true, false, blockId, index, instruction.result.typeId⟩
    else instructionSiteFrom blockId valueId (index + 1) rest

def blockInstructionSite (block : BasicBlock) (valueId : NativeId) : DefSite :=
  instructionSiteFrom block.id valueId 0 block.instructions

def blockSite (block : BasicBlock) (valueId : NativeId) : DefSite :=
  let site := blockParameterSite block valueId
  if site.found then site else blockInstructionSite block valueId

/-- The loop of `find-def-site` over the blocks. -/
def blocksSite (valueId : NativeId) : List BasicBlock → DefSite
  | [] => missingDefSite
  | block :: rest =>
    let site := blockSite block valueId
    if site.found then site else blocksSite valueId rest

def findDefSite (function : FunctionDef) (valueId : NativeId) : DefSite :=
  let site := parameterSite function.parameters valueId
  if site.found then site else blocksSite valueId function.blocks

/-! ### Switches -/

def variantIdsForType (types : List TypeDef) : (fuel : Nat) → NativeId → Option (List NativeId)
  | 0, _ => none
  | fuel + 1, typeId =>
    match (findType types typeId).map TypeDef.shape with
    | some (.unionType variants) => some (variants.map (·.id))
    | some (.outcomeType _ failureType) => variantIdsForType types fuel failureType
    | _ => some []

def switchCaseIds (cases : List SwitchCase) : List NativeId := cases.map (·.variantId)

def switchExhaustive (types : List TypeDef) (fuel : Nat) (function : FunctionDef)
    (valueId : NativeId) (cases : List SwitchCase) : Option Bool :=
  let site := findDefSite function valueId
  (variantIdsForType types fuel site.typeId).map fun variantIds =>
    if !site.found || variantIds.length == 0 then false
    else
      let caseIds := switchCaseIds cases
      variantIds.length == caseIds.length && uniqueIds caseIds && idsIn variantIds caseIds

def terminatorExhaustive (types : List TypeDef) (fuel : Nat) (function : FunctionDef) :
    Terminator → Option Bool
  | .switch valueId cases => switchExhaustive types fuel function valueId cases
  | _ => some true

/-- `every?` with a test that may not end. -/
def everyEnds {α : Type} (test : α → Option Bool) : List α → Option Bool
  | [] => some true
  | a :: rest => (test a).bind fun passed => if passed then everyEnds test rest else some false

def functionExhaustive (types : List TypeDef) (fuel : Nat) (function : FunctionDef) :
    Option Bool :=
  everyEnds (fun block => everyEnds (terminatorExhaustive types fuel function) block.terminators)
    function.blocks

/-- A function of a program, with its identity. -/
structure ProgramFunction extends FunctionDef where
  id : NativeId

structure NativeCoreProgram where
  types : List TypeDef
  functions : List ProgramFunction

inductive ObligationVerdict where
  | obligationPass
  | exhaustiveMatchesDiagnostic (functionId : NativeId)
deriving DecidableEq

def matchesFrom (types : List TypeDef) (fuel : Nat) :
    List ProgramFunction → Option ObligationVerdict
  | [] => some .obligationPass
  | function :: rest => (functionExhaustive types fuel function.toFunctionDef).bind fun passed =>
    if passed then matchesFrom types fuel rest
    else some (.exhaustiveMatchesDiagnostic function.id)

def exhaustiveMatches (fuel : Nat) (program : NativeCoreProgram) : Option ObligationVerdict :=
  matchesFrom program.types fuel program.functions

/-! ### What switches are for -/

/-- A switch of a program. -/
structure SwitchAt where
  function : FunctionDef
  valueId : NativeId
  cases : List SwitchCase

/-- The type of the scrutinee. -/
def SwitchAt.typeId (s : SwitchAt) : NativeId := (findDefSite s.function s.valueId).typeId

def terminatorSwitches (function : FunctionDef) : Terminator → List SwitchAt
  | .switch valueId cases => [⟨function, valueId, cases⟩]
  | _ => []

def functionSwitches (function : FunctionDef) : List SwitchAt :=
  function.blocks.flatMap fun block => block.terminators.flatMap (terminatorSwitches function)

/-- The switches in the order in which they are tested. -/
def switches (program : NativeCoreProgram) : List SwitchAt :=
  program.functions.flatMap fun function => functionSwitches function.toFunctionDef

/-- The type that an outcome fails with. -/
def failureType (types : List TypeDef) (typeId : NativeId) : Option NativeId :=
  match (findType types typeId).map TypeDef.shape with
  | some (.outcomeType _ failureType) => some failureType
  | _ => none

/-- The chain of failure types goes on for ever. -/
def Endless (types : List TypeDef) (typeId : NativeId) : Prop :=
  ∀ n, ((Option.bind · (failureType types))^[n] (some typeId)).isSome

/-- A union, or an outcome whose chain of failure types ends in one. -/
inductive Unions (types : List TypeDef) : NativeId → List NativeId → Prop where
  | union {typeId : NativeId} {variants : List TypeVariant}
      (h : (findType types typeId).map TypeDef.shape = some (.unionType variants)) :
      Unions types typeId (variants.map (·.id))
  | outcome {typeId failure : NativeId} {ids : List NativeId}
      (h : failureType types typeId = some failure) (rest : Unions types failure ids) :
      Unions types typeId ids

/-- The scrutinee is defined and the cases name each variant of its union exactly once, and
nothing else. -/
def SwitchAt.Exhausts (types : List TypeDef) (s : SwitchAt) : Prop :=
  s.valueId ∈ functionValueIds s.function ∧ ∃ ids, Unions types s.typeId ids ∧
    (switchCaseIds s.cases).Nodup ∧ (switchCaseIds s.cases).Perm ids

def SwitchAt.test (types : List TypeDef) (fuel : Nat) (s : SwitchAt) : Option Bool :=
  switchExhaustive types fuel s.function s.valueId s.cases

/-- The test of the switch ends and refuses it. -/
def SwitchAt.Refused (types : List TypeDef) (s : SwitchAt) : Prop :=
  ∃ fuel, s.test types fuel = some false

/-- The switches that have none before them that is refused. -/
inductive Reached (types : List TypeDef) : List SwitchAt → SwitchAt → Prop where
  | head (s : SwitchAt) (rest : List SwitchAt) : Reached types (s :: rest) s
  | tail {r s : SwitchAt} {rest : List SwitchAt} (h : ¬ r.Refused types)
      (hs : Reached types rest s) : Reached types (r :: rest) s

/-- The obligation is decided, and holds exactly if every switch exhausts its union. -/
def Decided (program : NativeCoreProgram) : Prop :=
  ∃ fuel verdict, exhaustiveMatches fuel program = some verdict ∧
    (verdict = .obligationPass ↔ ∀ s ∈ switches program, s.Exhausts program.types)

/-! ### Definitions -/

variable {n : Nat}

theorem instructionSiteFrom_found {b v : NativeId} {is : List Instruction} :
    (instructionSiteFrom b v n is).found = true ↔ v ∈ is.map (·.result.id) := by
  induction is generalizing n with
  | nil => simp [instructionSiteFrom, missingDefSite]
  | cons i is ih =>
    rw [instructionSiteFrom, map_cons, mem_cons]
    by_cases h : i.result.id = v
    · simp [h]
    · simp [h, ih, Ne.symm h]

theorem parameterSiteIn_found {f : Bool} {b v : NativeId} {ps : List Parameter} :
    (parameterSiteIn f b ps v).found = true ↔ v ∈ ps.map (·.id) := by
  unfold parameterSiteIn
  cases h : ps.find? fun p => p.id == v with
  | none => simpa [missingDefSite] using h
  | some p =>
    have hid := find?_some h
    simp only [true_iff, mem_map]
    exact ⟨p, mem_of_find?_eq_some h, by simpa using hid⟩

theorem blocksSite_found {v : NativeId} {bs : List BasicBlock} :
    (blocksSite v bs).found = true ↔ v ∈ bs.flatMap blockValueIds := by
  induction bs with
  | nil => simp [blocksSite, missingDefSite]
  | cons b bs ih =>
    have hb : (blockSite b v).found = true ↔ v ∈ blockValueIds b := by
      rw [blockSite, blockValueIds, mem_append, ← @parameterSiteIn_found false b.id]
      by_cases h : (blockParameterSite b v).found = true
      · simpa [h] using .inl h
      · rw [if_neg h, blockInstructionSite, instructionSiteFrom_found]
        exact (or_iff_right h).symm
    rw [blocksSite, flatMap_cons, mem_append, ← hb, ← ih]
    by_cases h : (blockSite b v).found = true <;> simp [h]

theorem findDefSite_found {f : FunctionDef} {v : NativeId} :
    (findDefSite f v).found = true ↔ v ∈ functionValueIds f := by
  rw [findDefSite, functionValueIds, mem_append, ← blocksSite_found, ← parameterSiteIn_found]
  by_cases h : (parameterSite f.parameters v).found = true
  · simpa [h] using .inl h
  · rw [if_neg h]
    exact (or_iff_right h).symm

/-! ### Chains of failure types -/

variable {ts : List TypeDef} {id : NativeId} {ids : List NativeId}

theorem variantIdsForType_mono {n m : Nat} (hle : n ≤ m)
    (h : variantIdsForType ts n id = some ids) : variantIdsForType ts m id = some ids := by
  induction n generalizing id m with
  | zero => cases h
  | succ n ih =>
    obtain ⟨m, rfl⟩ := Nat.exists_eq_add_of_le' (Nat.le_trans (Nat.le_add_left 1 n) hle)
    rw [variantIdsForType] at h ⊢
    split at h
    · exact h
    · exact ih (Nat.le_of_succ_le_succ hle) h
    · exact h

/-- A chain that is followed for a while and not to its end has so many failure types. -/
theorem variantIdsForType_eq_none : variantIdsForType ts n id = none ↔
    ((Option.bind · (failureType ts))^[n] (some id)).isSome = true := by
  induction n generalizing id with
  | zero => simp [variantIdsForType]
  | succ n ih =>
    have hs : ∀ ids : List NativeId, some ids = none ↔
        ((Option.bind · (failureType ts))^[n] none).isSome = true := by
      intro ids
      rw [Function.iterate_fixed rfl n]
      simp
    rw [variantIdsForType, Function.iterate_succ_apply, Option.bind_some, failureType]
    rcases (findType ts id).map TypeDef.shape with _ | shape
    · exact hs _
    · cases shape with
      | outcomeType _ f => exact ih
      | _ => exact hs _

theorem endless_iff : Endless ts id ↔ ∀ n, variantIdsForType ts n id = none :=
  forall_congr' fun _ => variantIdsForType_eq_none.symm

theorem Unions.variants (h : Unions ts id ids) : ∃ n, variantIdsForType ts n id = some ids := by
  induction h with
  | union h => exact ⟨1, by rw [variantIdsForType, h]⟩
  | @outcome t f ids h _ ih =>
    obtain ⟨n, hn⟩ := ih
    refine ⟨n + 1, ?_⟩
    unfold failureType at h
    rw [variantIdsForType]
    split at h
    · next heq =>
      obtain rfl := Option.some.inj h
      rw [heq]
      exact hn
    · cases h

theorem unions_of_variants (h : variantIdsForType ts n id = some ids)
    (hne : ids ≠ []) : Unions ts id ids := by
  induction n generalizing id with
  | zero => cases h
  | succ n ih =>
    rw [variantIdsForType] at h
    split at h
    · next heq =>
      obtain rfl := Option.some.inj h
      exact .union heq
    · next heq => exact .outcome (by rw [failureType, heq]) (ih h)
    · exact absurd (Option.some.inj h).symm hne

theorem variants_unique {n m : Nat} {os : List NativeId}
    (h : variantIdsForType ts n id = some ids) (h' : variantIdsForType ts m id = some os) :
    ids = os := by
  have hn := variantIdsForType_mono (Nat.le_max_left n m) h
  rw [variantIdsForType_mono (Nat.le_max_right n m) h'] at hn
  exact (Option.some.inj hn).symm

/-! ### Tests that end -/

variable {s : SwitchAt} {l : List SwitchAt} {b : Bool}

theorem SwitchAt.test_mono {n m : Nat} (hle : n ≤ m) (h : s.test ts n = some b) :
    s.test ts m = some b := by
  obtain ⟨ids, hids, heq⟩ := Option.map_eq_some_iff.mp h
  rw [SwitchAt.test, switchExhaustive, variantIdsForType_mono hle hids, Option.map_some, heq]

theorem SwitchAt.test_unique {n m : Nat} {b' : Bool} (h : s.test ts n = some b)
    (h' : s.test ts m = some b') : b = b' := by
  have hn := SwitchAt.test_mono (Nat.le_max_left n m) h
  rw [SwitchAt.test_mono (Nat.le_max_right n m) h'] at hn
  exact (Option.some.inj hn).symm

theorem SwitchAt.endless_iff : Endless ts s.typeId ↔ ∀ n, s.test ts n = none := by
  rw [Switches.endless_iff]
  exact forall_congr' fun n => Option.map_eq_none_iff.symm

theorem everyEnds_append {α : Type} (p : α → Option Bool) (as bs : List α) :
    everyEnds p (as ++ bs) =
      (everyEnds p as).bind fun pa => if pa then everyEnds p bs else some false := by
  induction as with
  | nil => rfl
  | cons a as ih =>
    rw [cons_append, everyEnds, everyEnds, Option.bind_assoc, ih]
    refine congrArg (Option.bind (p a)) (funext fun pa => ?_)
    cases pa <;> rfl

theorem everyEnds_flatMap {α β : Type} (p : β → Option Bool) (g : α → List β) (as : List α) :
    everyEnds p (as.flatMap g) = everyEnds (fun a => everyEnds p (g a)) as := by
  induction as with
  | nil => rfl
  | cons a as ih => rw [flatMap_cons, everyEnds_append, ih, everyEnds]

/-- The verdict is the test of all switches in their order. -/
theorem exhaustiveMatches_switches (n : Nat) (p : NativeCoreProgram) :
    (exhaustiveMatches n p).map (decide <| · = .obligationPass) =
      everyEnds (SwitchAt.test p.types n) (switches p) := by
  unfold exhaustiveMatches switches
  induction p.functions with
  | nil => rfl
  | cons f fs ih =>
    have hf : everyEnds (SwitchAt.test p.types n) (functionSwitches f.toFunctionDef) =
        functionExhaustive p.types n f.toFunctionDef := by
      unfold functionSwitches functionExhaustive
      rw [everyEnds_flatMap]
      congr 1
      funext block
      rw [everyEnds_flatMap]
      congr 1
      funext t
      cases t with
      | switch v cs =>
        show (switchExhaustive p.types n f.toFunctionDef v cs).bind _ = _
        cases h : switchExhaustive p.types n f.toFunctionDef v cs with
        | none => rw [terminatorExhaustive, h]; rfl
        | some b => rw [terminatorExhaustive, h]; cases b <;> rfl
      | _ => rfl
    rw [flatMap_cons, everyEnds_append, hf, matchesFrom, ← ih]
    cases functionExhaustive p.types n f.toFunctionDef with
    | none => rfl
    | some b => cases b <;> rfl

theorem everyEnds_mono {n m : Nat} (hle : n ≤ m) (h : everyEnds (SwitchAt.test ts n) l = some b) :
    everyEnds (SwitchAt.test ts m) l = some b := by
  induction l with
  | nil => exact h
  | cons s l ih =>
    rw [everyEnds] at h ⊢
    obtain ⟨p, hs, hl⟩ := Option.bind_eq_some_iff.mp h
    rw [SwitchAt.test_mono hle hs, Option.bind_some]
    cases p with
    | false => exact hl
    | true => exact ih hl

theorem everyEnds_true : everyEnds (SwitchAt.test ts n) l = some true ↔
    ∀ s ∈ l, s.test ts n = some true := by
  induction l with
  | nil => simp [everyEnds]
  | cons s l ih =>
    rw [everyEnds, forall_mem_cons, ← ih]
    cases h : s.test ts n with
    | none => simp
    | some p => cases p <;> simp

theorem exists_refused (h : everyEnds (SwitchAt.test ts n) l = some false) :
    ∃ s ∈ l, s.test ts n = some false := by
  induction l with
  | nil => cases h
  | cons s l ih =>
    rw [everyEnds] at h
    obtain ⟨p, hs, hl⟩ := Option.bind_eq_some_iff.mp h
    cases p with
    | false => exact ⟨s, mem_cons_self, hs⟩
    | true =>
      obtain ⟨r, hr, hf⟩ := ih hl
      exact ⟨r, mem_cons_of_mem s hr, hf⟩

/-- The tests end when every switch that is reached has a chain that ends. -/
theorem everyEnds_ends : (∃ n b, everyEnds (SwitchAt.test ts n) l = some b) ↔
    ∀ s, Reached ts l s → ¬ Endless ts s.typeId := by
  induction l with
  | nil =>
    refine ⟨fun _ s h => ?_, fun _ => ⟨0, true, rfl⟩⟩
    cases h
  | cons s l ih =>
    constructor
    · rintro ⟨n, b, h⟩
      rw [everyEnds] at h
      obtain ⟨p, hs, hl⟩ := Option.bind_eq_some_iff.mp h
      intro r hr
      cases hr with
      | head =>
        intro hend
        rw [SwitchAt.endless_iff.mp hend n] at hs
        cases hs
      | tail hnot hre =>
        cases p with
        | false => exact absurd ⟨n, hs⟩ hnot
        | true => exact ih.mp ⟨n, b, hl⟩ r hre
    · intro h
      have hs := h s (.head s l)
      rw [SwitchAt.endless_iff, not_forall] at hs
      obtain ⟨n, hn⟩ := hs
      obtain ⟨p, hs⟩ := Option.ne_none_iff_exists'.mp hn
      cases p with
      | false => exact ⟨n, false, by rw [everyEnds, hs]; rfl⟩
      | true =>
        have hnot : ¬ s.Refused ts := by
          rintro ⟨m, hm⟩
          cases SwitchAt.test_unique hs hm
        obtain ⟨m, b, hm⟩ := ih.mpr fun r hr => h r (.tail hnot hr)
        refine ⟨max n m, b, ?_⟩
        rw [everyEnds, SwitchAt.test_mono (Nat.le_max_left n m) hs]
        exact everyEnds_mono (Nat.le_max_right n m) hm

/-! ### Tests that pass -/

/-- A test that passes is over a union that is not empty, and all its variants are cases. -/
theorem SwitchAt.test_true : s.test ts n = some true ↔
    ∃ ids, variantIdsForType ts n s.typeId = some ids ∧
      s.valueId ∈ functionValueIds s.function ∧ ids ≠ [] ∧
      ids.length = (switchCaseIds s.cases).length ∧ (switchCaseIds s.cases).Nodup ∧
      ids ⊆ switchCaseIds s.cases := by
  rw [SwitchAt.test, switchExhaustive, Option.map_eq_some_iff]
  refine exists_congr fun ids => and_congr_right fun _ => ?_
  rw [← findDefSite_found]
  by_cases hf : (findDefSite s.function s.valueId).found = true
  · by_cases hne : ids = []
    · simp [hf, hne]
    · simp [hf, hne, uniqueIds_iff, idsIn_iff, and_assoc]
  · simp [hf]

theorem SwitchAt.exhausts_of_test (h : s.test ts n = some true)
    (hnd : ∀ ids, Unions ts s.typeId ids → ids.Nodup) : s.Exhausts ts := by
  obtain ⟨ids, hids, hmem, hne, hlen, hc, hsub⟩ := SwitchAt.test_true.mp h
  have hu := unions_of_variants hids hne
  refine ⟨hmem, ids, hu, hc, ?_⟩
  exact ((subperm_of_subset (hnd ids hu) hsub).perm_of_length_le (Nat.le_of_eq hlen.symm)).symm

theorem SwitchAt.Exhausts.passes (h : s.Exhausts ts)
    (hne : ¬ Unions ts s.typeId []) : ∃ n, s.test ts n = some true := by
  obtain ⟨hmem, ids, hu, hc, hp⟩ := h
  obtain ⟨n, hn⟩ := hu.variants
  refine ⟨n, SwitchAt.test_true.mpr ⟨ids, hn, hmem, ?_, hp.length_eq.symm, hc, hp.symm.subset⟩⟩
  rintro rfl
  exact hne hu

def selfFailing : List TypeDef := [⟨⟨"a"⟩, "A", .outcomeType ⟨"a"⟩ ⟨"a"⟩⟩]

def switchOnSelfFailing : FunctionDef :=
  ⟨[⟨⟨"x"⟩, ⟨"a"⟩⟩], [⟨⟨"b"⟩, [], [], [.switch ⟨"x"⟩ []], by decide⟩], ⟨"b"⟩⟩

end Beagle.Switches
