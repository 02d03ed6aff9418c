/-
Tokens are discharged on every walk.

The set of live tokens alone says how a block goes on, so what the check has visited stands for
every walk: a walk that comes back to a block with the same live set does there what it did before.
What the check refuses shows on a walk that meets no block twice.
-/
import Beagle.Native.Resources

namespace Beagle.Resources

open Beagle.Lib List
open Beagle.Lib.Dominators
open Beagle.Lib.Trails
open Beagle.NativeCore

/-! ### Tokens along a walk -/

inductive TokenEvent where
  | consume (id : NativeId)
  | produce (id : NativeId)
deriving DecidableEq

def flowEvents (flow : TokenFlow) : List TokenEvent :=
  flow.consumed.map .consume ++ (producedTokenIds flow.produced).map .produce

def instructionEvents (instruction : Instruction) : List TokenEvent :=
  match instruction.tokens with
  | none => []
  | some flow => flowEvents flow

/-- What a visit of each block does with tokens, in turn. -/
def walkEvents (function : FunctionDef) (walk : List NativeId) : List TokenEvent :=
  walk.flatMap fun blockId =>
    match findBlock function.blocks blockId with
    | none => []
    | some block => block.instructions.flatMap instructionEvents

/-- A token is consumed while it is live, and produced while it is not. -/
def eventLive (live : Finset NativeId) : TokenEvent → Option (Finset NativeId)
  | .consume id => if id ∈ live then some (live.erase id) else none
  | .produce id => if id ∈ live then none else some (insert id live)

/-- The live tokens behind the events, where none of them breaks a rule. -/
def liveAfter (live : Finset NativeId) (events : List TokenEvent) : Option (Finset NativeId) :=
  events.foldlM eventLive live

/-- On every walk no rule is broken, and nothing is live behind a block without successors. -/
def Discharged (function : FunctionDef) (initial : List NativeId) : Prop :=
  ∀ left blockId, FunctionWalk function left blockId →
    ∃ live, liveAfter initial.toFinset (walkEvents function (left ++ [blockId])) = some live ∧
      ∀ block, findBlock function.blocks blockId = some block → blockSuccessors block = [] →
        live = ∅

/-- What a walk may do that the check refuses. -/
inductive Fault (function : FunctionDef) (initial : List NativeId) : Prop where
  | breaks (left : List NativeId) (blockId : NativeId) (walk : FunctionWalk function left blockId)
      (broken : liveAfter initial.toFinset (walkEvents function (left ++ [blockId])) = none)
  | leaks (left : List NativeId) (blockId : NativeId) (walk : FunctionWalk function left blockId)
      (block : BasicBlock) (found : findBlock function.blocks blockId = some block)
      (exit : blockSuccessors block = []) (live : Finset NativeId)
      (after : liveAfter initial.toFinset (walkEvents function (left ++ [blockId])) = some live)
      (leak : live ≠ ∅)
  /-- A token is produced again on a walk without a loop. -/
  | again (left : List NativeId) (blockId : NativeId) (walk : FunctionWalk function left blockId)
      (loopFree : (left ++ [blockId]).Nodup) (id : NativeId) (before after : List TokenEvent)
      (events : walkEvents function (left ++ [blockId]) = before ++ .produce id :: after)
      (known : id ∈ initial ∨ .produce id ∈ before)
  /-- An instruction names a token twice. -/
  | twice (left : List NativeId) (blockId : NativeId) (walk : FunctionWalk function left blockId)
      (block : BasicBlock) (found : findBlock function.blocks blockId = some block)
      (instruction : Instruction) (inside : instruction ∈ block.instructions) (flow : TokenFlow)
      (tokens : instruction.tokens = some flow)
      (repeated : ¬flow.consumed.Nodup ∨ ¬(producedTokenIds flow.produced).Nodup)
  /-- The walk comes back to a block with other live tokens. -/
  | returns (left middle : List NativeId) (blockId : NativeId)
      (walk : FunctionWalk function left blockId)
      (back : FunctionWalk function (left ++ blockId :: middle) blockId)
      (live other : Finset NativeId)
      (before : liveAfter initial.toFinset (walkEvents function left) = some live)
      (after : liveAfter initial.toFinset (walkEvents function (left ++ blockId :: middle)) =
        some other)
      (differ : live ≠ other)

/-! ### Sets of identities -/

theorem tokenSetsEqual_iff {left r : List NativeId} (hl : left.Nodup) (hr : r.Nodup) :
    tokenSetsEqual left r = true ↔ left.toFinset = r.toFinset := by
  rw [tokenSetsEqual, Bool.and_eq_true, beq_iff_eq, idsIn_iff,
    ← toFinset_card_of_nodup hl, ← toFinset_card_of_nodup hr]
  constructor
  · rintro ⟨hc, hsub⟩
    refine Finset.eq_of_subset_of_card_le ?_ (le_of_eq hc.symm)
    intro id hid
    exact mem_toFinset.mpr (hsub (mem_toFinset.mp hid))
  · intro heq
    refine ⟨by rw [heq], fun id hid => ?_⟩
    exact mem_toFinset.mp (heq ▸ mem_toFinset.mpr hid)

theorem toFinset_removeId {ids : List NativeId} {target : NativeId} :
    (removeId ids target).toFinset = ids.toFinset.erase target := by
  ext id
  simp [removeId, and_comm]

/-! ### One state after another -/

/-- A state as the walk carries it. -/
structure TokenState.Sound (state : TokenState) : Prop where
  valid : state.valid = true
  live : state.live.Nodup
  seen : state.seen.Nodup
  known : state.live ⊆ state.seen

variable {r : List TokenEvent} {c : List NativeId}

theorem liveAfter_append {l : Finset NativeId} {left : List TokenEvent} :
    liveAfter l (left ++ r) = (liveAfter l left).bind (liveAfter · r) := by
  rw [liveAfter, foldlM_append]
  rfl

theorem liveAfter_consumed {live : List NativeId} (hl : live.Nodup) (hc : c.Nodup)
    (hsub : c ⊆ live) :
    (c.foldl removeId live).Nodup ∧ c.foldl removeId live ⊆ live ∧
      liveAfter live.toFinset (c.map .consume) = some (c.foldl removeId live).toFinset := by
  induction c generalizing live with
  | nil => exact ⟨hl, fun _ hmem => hmem, rfl⟩
  | cons id r ih =>
    have hmem : id ∈ live := hsub mem_cons_self
    obtain ⟨hn, hr⟩ := nodup_cons.mp hc
    have hsr : r ⊆ removeId live id := by
      intro o ho
      refine mem_filter.mpr ⟨hsub (mem_cons_of_mem _ ho), ?_⟩
      have hne : o ≠ id := fun heq => hn (heq ▸ ho)
      simpa using hne
    obtain ⟨hnd, hk, hp⟩ := ih (hl.filter _) hr hsr
    refine ⟨hnd, fun o ho => mem_of_mem_filter (hk ho), ?_⟩
    rw [map_cons, liveAfter, foldlM_cons, eventLive,
      if_pos (mem_toFinset.mpr hmem), ← toFinset_removeId]
    exact hp

theorem liveAfter_not_live {l : List NativeId} (hl : l.Nodup) (hc : c.Nodup)
    (hsub : ¬c ⊆ l) : liveAfter l.toFinset (c.map .consume) = none := by
  induction c generalizing l with
  | nil => exact absurd (nil_subset _) hsub
  | cons id r ih =>
    obtain ⟨hn, hr⟩ := nodup_cons.mp hc
    rw [map_cons, liveAfter, foldlM_cons, eventLive]
    by_cases hmem : id ∈ l
    · rw [if_pos (mem_toFinset.mpr hmem), ← toFinset_removeId]
      refine ih (hl.filter _) hr fun hsr => hsub ?_
      intro o ho
      rcases mem_cons.mp ho with rfl | ho
      · exact hmem
      · exact mem_of_mem_filter (hsr ho)
    · rw [if_neg (fun h => hmem (mem_toFinset.mp h))]
      rfl

theorem liveAfter_produced {l p : List NativeId} (hp : p.Nodup) (hnew : ∀ id ∈ p, id ∉ l) :
    liveAfter l.toFinset (p.map .produce) = some (l ++ p).toFinset := by
  induction p generalizing l with
  | nil =>
    rw [append_nil]
    rfl
  | cons id r ih =>
    obtain ⟨hn, hr⟩ := nodup_cons.mp hp
    have hid : id ∉ l.toFinset :=
      fun h => hnew id mem_cons_self (mem_toFinset.mp h)
    have hins : insert id l.toFinset = (l ++ [id]).toFinset := by
      ext o
      simp
    rw [map_cons, liveAfter, foldlM_cons, eventLive, if_neg hid, hins, append_cons l id r]
    refine ih hr ?_
    intro o ho hmem
    rcases List.mem_append.mp hmem with hmem | hmem
    · exact hnew o (mem_cons_of_mem _ ho) hmem
    · exact hn (mem_singleton.mp hmem ▸ ho)

/-- What a sound state that came to no fault has become, and which tokens it has seen. -/
structure TokenState.After (state next : TokenState) (events : List TokenEvent) : Prop where
  sound : next.Sound
  live : liveAfter state.live.toFinset events = some next.live.toFinset
  seen : ∀ id, id ∈ next.seen ↔ id ∈ state.seen ∨ .produce id ∈ events

variable {s : TokenState}

theorem TokenState.After.trans {next last : TokenState} {left : List TokenEvent}
    (h : s.After next left) (h' : next.After last r) :
    s.After last (left ++ r) := by
  refine ⟨h'.sound, ?_, fun id => ?_⟩
  · rw [liveAfter_append, h.live]
    exact h'.live
  · rw [h'.seen, h.seen, List.mem_append, or_assoc]

theorem TokenState.After.refl (h : s.Sound) : s.After s [] :=
  ⟨h, rfl, by simp⟩

/-- What is wrong with the flow of an instruction in a state. -/
structure FlowFault (state : TokenState) (flow : TokenFlow) : Prop where
  fault : ¬flow.consumed.Nodup ∨ ¬(producedTokenIds flow.produced).Nodup ∨
    liveAfter state.live.toFinset (flowEvents flow) = none ∨
    ∃ id ∈ producedTokenIds flow.produced, id ∈ state.seen

theorem applyTokenFlow_valid_iff (f : TokenFlow) (hv : s.valid = true) :
    (applyTokenFlow s f).valid = true ↔ f.consumed.Nodup ∧ f.consumed ⊆ s.live ∧
      (producedTokenIds f.produced).Nodup ∧
      ∀ id ∈ producedTokenIds f.produced, id ∉ s.seen := by
  rw [← uniqueIds_iff, ← idsIn_iff, ← uniqueIds_iff]
  cases hu : uniqueIds f.consumed <;> cases hin : idsIn f.consumed s.live <;>
    simp [applyTokenFlow, tokenStateConsume, tokenStateProduce, hv, hu, hin]
  cases uniqueIds (producedTokenIds f.produced) <;> simp
  split
  · next hs => simpa using hs
  · next hs => simpa using hs

/-- A flow is applied as it acts on the live tokens, or it is at fault. -/
theorem applyTokenFlow_cases (hs : s.Sound) (f : TokenFlow) :
    ((applyTokenFlow s f).valid = true → s.After (applyTokenFlow s f) (flowEvents f)) ∧
      ((applyTokenFlow s f).valid = false → FlowFault s f) := by
  have hiff := applyTokenFlow_valid_iff f hs.valid
  by_cases hv : (applyTokenFlow s f).valid = true
  case neg =>
    refine ⟨fun h => absurd h hv, fun _ => ⟨?_⟩⟩
    rw [hiff] at hv
    by_cases hc : f.consumed.Nodup
    case neg => exact Or.inl hc
    by_cases hp : (producedTokenIds f.produced).Nodup
    case neg => exact Or.inr (Or.inl hp)
    by_cases hsub : f.consumed ⊆ s.live
    case neg =>
      refine Or.inr (Or.inr (Or.inl ?_))
      rw [flowEvents, liveAfter_append, liveAfter_not_live hs.live hc hsub]
      rfl
    refine Or.inr (Or.inr (Or.inr ?_))
    by_contra hnew
    exact hv ⟨hc, hsub, hp, fun id hid hmem => hnew ⟨id, hid, hmem⟩⟩
  obtain ⟨hc, hsub, hp, hnew⟩ := hiff.mp hv
  obtain ⟨hnd, hk, hpo⟩ := liveAfter_consumed hs.live hc hsub
  have ha : applyTokenFlow s f = ⟨f.consumed.foldl removeId s.live ++ producedTokenIds f.produced,
        s.seen ++ producedTokenIds f.produced, true⟩ := by
    have hany : ((producedTokenIds f.produced).any fun ti =>
        decide (ti ∈ s.seen)) = false := by
      simpa [any_eq_false] using hnew
    simp [applyTokenFlow, tokenStateConsume, tokenStateProduce, hs.valid, hany,
      uniqueIds_iff.mpr hc, idsIn_iff.mpr hsub, uniqueIds_iff.mpr hp]
  rw [ha]
  refine ⟨fun _ => ⟨⟨rfl, ?_, ?_, ?_⟩, ?_, ?_⟩, fun h => absurd h (by simp)⟩
  · refine nodup_append.mpr ⟨hnd, hp, ?_⟩
    intro id hid o ho heq
    exact hnew o ho (heq ▸ hs.known (hk hid))
  · refine nodup_append.mpr ⟨hs.seen, hp, ?_⟩
    intro id hid o ho heq
    exact hnew o ho (heq ▸ hid)
  · intro id hid
    rcases List.mem_append.mp hid with hid | hid
    · exact mem_append_left _ (hs.known (hk hid))
    · exact mem_append_right _ hid
  · rw [flowEvents, liveAfter_append, hpo]
    exact liveAfter_produced hp fun id hid hmem => hnew id hid (hs.known (hk hmem))
  · intro id
    simp [flowEvents]

/-- Where a block comes to a fault: the flow, and the state before it. -/
def BlockFault (state : TokenState) (instructions : List Instruction) : Prop :=
  ∃ before instruction after flow next, instructions = before ++ instruction :: after ∧
    instruction.tokens = some flow ∧ state.After next (before.flatMap instructionEvents) ∧
    FlowFault next flow

theorem instructionTokenState_cases (hs : s.Sound) (ins : Instruction) :
    ((instructionTokenState s ins).valid = true →
        s.After (instructionTokenState s ins) (instructionEvents ins)) ∧
      ((instructionTokenState s ins).valid = false → ∃ f, ins.tokens = some f ∧ FlowFault s f) := by
  cases ht : ins.tokens with
  | none =>
    simp only [instructionTokenState, instructionEvents, ht]
    exact ⟨fun _ => .refl hs,
      fun h => absurd (hs.valid.symm.trans h) Bool.noConfusion⟩
  | some f =>
    simp only [instructionTokenState, instructionEvents, ht]
    obtain ⟨hv, hinv⟩ := applyTokenFlow_cases hs f
    exact ⟨hv, fun h => ⟨f, rfl, hinv h⟩⟩

theorem blockTokenState_cases (hs : s.Sound) (ins : List Instruction) :
    ((blockTokenState s ins).valid = true →
        s.After (blockTokenState s ins) (ins.flatMap instructionEvents)) ∧
      ((blockTokenState s ins).valid = false → BlockFault s ins) := by
  induction ins generalizing s with
  | nil =>
    exact ⟨fun _ => .refl hs, fun h => absurd (hs.valid.symm.trans h) Bool.noConfusion⟩
  | cons instruction rest ih =>
    obtain ⟨hv, hinv⟩ := instructionTokenState_cases hs instruction
    have hst : blockTokenState s (instruction :: rest) =
        blockTokenState (instructionTokenState s instruction) rest := by
      simp [blockTokenState, hs.valid]
    rw [hst, flatMap_cons]
    cases hn : (instructionTokenState s instruction).valid with
    | false =>
      have hsto : blockTokenState (instructionTokenState s instruction) rest =
          instructionTokenState s instruction := by
        cases rest with
        | nil => rfl
        | cons _ _ => simp [blockTokenState, hn]
      rw [hsto, hn]
      obtain ⟨f, ht, hf⟩ := hinv hn
      exact ⟨fun h => absurd h Bool.false_ne_true, fun _ =>
        ⟨[], instruction, rest, f, s, rfl, ht, .refl hs, hf⟩⟩
    | true =>
      have hp := hv hn
      obtain ⟨hok, hbad⟩ := ih hp.sound
      refine ⟨fun h => hp.trans (hok h), fun h => ?_⟩
      obtain ⟨b, o, a, f, next, rfl, ht, hpre, hf⟩ := hbad h
      refine ⟨instruction :: b, o, a, f, next, rfl, ht, ?_, hf⟩
      rw [flatMap_cons]
      exact hp.trans hpre

/-! ### Paths of the check -/

section

variable {fn : FunctionDef} {i left : List NativeId} {blockId : NativeId}
  {s : TokenState}

theorem walkEvents_append {r : List NativeId} :
    walkEvents fn (left ++ r) = walkEvents fn left ++ walkEvents fn r :=
  flatMap_append

variable {block : BasicBlock} {answer : Bool} {fuel : Nat}

theorem walkEvents_singleton (h : findBlock fn.blocks blockId = some block) :
    walkEvents fn [blockId] = block.instructions.flatMap instructionEvents := by
  simp [walkEvents, h]

/-- What a visit of the check that goes well has found. -/
structure TokenVisit (function : FunctionDef) (blockId : NativeId) (state next : TokenState)
    (successors : List NativeId) (block : BasicBlock) : Prop where
  found : findBlock function.blocks blockId = some block
  steps : next = blockTokenState state block.instructions
  valid : next.valid = true
  leads : successors = blockSuccessors block
  exit : successors = [] → next.live = []

theorem tokenWalker_visit {blockId : NativeId} {s next : TokenState}
    {ss : List NativeId}
    (h : (tokenWalker fn).visit blockId s = .ok (next, ss)) :
    ∃ block, TokenVisit fn blockId s next ss block := by
  simp only [tokenWalker] at h
  cases hf : findBlock fn.blocks blockId with
  | none => simp [hf] at h
  | some block =>
    simp only [hf] at h
    by_cases hv : (blockTokenState s block.instructions).valid = true
    case neg => simp [hv] at h
    by_cases he : (blockSuccessors block).length = 0
    · by_cases hl : (blockTokenState s block.instructions).live.length = 0
      · simp only [hv, he, hl, Bool.not_true, Bool.false_eq_true, if_false, if_true,
          Except.ok.injEq, Prod.mk.injEq] at h
        obtain ⟨rfl, rfl⟩ := h
        exact ⟨block, hf, rfl, hv, (length_eq_zero_iff.mp he).symm,
          fun _ => length_eq_zero_iff.mp hl⟩
      · simp [hv, he, hl] at h
    · simp only [hv, he, Bool.not_true, Bool.false_eq_true, if_false, Except.ok.injEq,
        Prod.mk.injEq] at h
      obtain ⟨rfl, rfl⟩ := h
      exact ⟨block, hf, rfl, hv, rfl, fun hnil => absurd (by rw [hnil]; rfl) he⟩

theorem TokenVisit.after {next : TokenState} {ss : List NativeId}
    (h : TokenVisit fn blockId s next ss block) (hs : s.Sound) :
    s.After next (walkEvents fn [blockId]) := by
  rw [walkEvents_singleton h.found]
  have hn := h.steps
  subst hn
  exact (blockTokenState_cases hs block.instructions).1 h.valid

/-- A state that the check carries at the end of a path. -/
structure Carried (function : FunctionDef) (initial : List NativeId) (left : List NativeId)
    (blockId : NativeId) (state : TokenState) : Prop where
  walk : FunctionWalk function left blockId
  after : TokenState.After ⟨initial, initial, true⟩ state (walkEvents function left)

variable {p : List (NativeId × TokenState)}

theorem carried_of_trail (hi : i.Nodup)
    (h : Trail (tokenWalker fn) fn.entryBlock ⟨i, i, true⟩ p blockId
      s) : Carried fn i (p.map Prod.fst) blockId s := by
  induction h with
  | start => exact ⟨.start, .refl ⟨rfl, hi, hi, fun _ hmem => hmem⟩⟩
  | step _ _ v o ih =>
    obtain ⟨block, hv⟩ := tokenWalker_visit v
    rw [map_append, map_singleton]
    refine ⟨.step ih.walk ⟨block, hv.found, hv.leads ▸ o⟩, ?_⟩
    rw [walkEvents_append]
    exact ih.after.trans (hv.after ih.after.sound)

/-! ### What the check accepts -/

/-- Why a visit of the check fails. -/
inductive VisitFault (function : FunctionDef) (blockId : NativeId) (state : TokenState) : Prop where
  | missing (h : findBlock function.blocks blockId = none)
  | invalid (block : BasicBlock) (found : findBlock function.blocks blockId = some block)
      (h : (blockTokenState state block.instructions).valid = false)
  | leak (block : BasicBlock) (found : findBlock function.blocks blockId = some block)
      (valid : (blockTokenState state block.instructions).valid = true)
      (exit : blockSuccessors block = [])
      (h : (blockTokenState state block.instructions).live ≠ [])

theorem tokenWalker_error (h : (tokenWalker fn).visit blockId s = .error answer) :
    answer = false ∧ VisitFault fn blockId s := by
  simp only [tokenWalker] at h
  cases hf : findBlock fn.blocks blockId with
  | none =>
    simp only [hf, Except.error.injEq] at h
    exact ⟨h.symm, .missing hf⟩
  | some block =>
    simp only [hf] at h
    by_cases hv : (blockTokenState s block.instructions).valid = true
    case neg =>
      simp only [hv, Bool.not_false, if_true, Except.error.injEq] at h
      exact ⟨h.symm, .invalid block hf (by simpa using hv)⟩
    by_cases he : (blockSuccessors block).length = 0
    case neg => simp [hv, he] at h
    by_cases hl : (blockTokenState s block.instructions).live.length = 0
    · simp [hv, he, hl] at h
    · simp only [hv, he, hl, Bool.not_true, Bool.false_eq_true, if_false, if_true,
        Except.error.injEq] at h
      exact ⟨h.symm, .leak block hf hv (length_eq_zero_iff.mp he)
        fun hnil => hl (by rw [hnil]; rfl)⟩

theorem ne_true_of_stops
    (h : Stops (tokenWalker fn) p blockId s answer) :
    answer ≠ (tokenWalker fn).done := by
  rcases h with ⟨met, _, _, rfl⟩ | ⟨_, hv⟩
  · exact Bool.false_ne_true
  · rw [(tokenWalker_error hv).1]
    exact Bool.false_ne_true

/-- What stands for a state has its live tokens. -/
theorem live_of_covers (fn : FunctionDef) {met : TokenState} (hmet : met.Sound)
    (hst : s.Sound) (h : met = s ∨ (tokenWalker fn).agrees met s = true ∨
      (tokenWalker fn).same met s = true) : met.live.toFinset = s.live.toFinset := by
  rcases h with rfl | hagree | hsame
  · rfl
  · exact (tokenSetsEqual_iff hmet.live hst.live).mp hagree
  · simp only [tokenWalker, tokenVisitMatches, Bool.and_eq_true] at hsame
    exact (tokenSetsEqual_iff hmet.live hst.live).mp hsame.1

/-- **What the check accepts is discharged on every walk.** -/
theorem discharged_of_valid (hi : i.Nodup)
    (h : tokenPathsValid fuel fn fn.entryBlock ⟨i, i, true⟩ [] = some true) : Discharged fn i := by
  obtain ⟨m, ⟨first, hfst, hcov⟩, hse, hr⟩ :=
    closed_of_done (w := tokenWalker fn) (fun _ _ _ _ => ne_true_of_stops) h
  have hs : ∀ met ∈ m, met.2.Sound := by
    intro met hmem
    obtain ⟨p, ht⟩ := hr met hmem
    exact (carried_of_trail hi ht).after.sound
  -- some visit of the block stands for the walk to it
  have hsta : ∀ left blockId, FunctionWalk fn left blockId → ∃ met, (blockId, met) ∈ m ∧
        liveAfter i.toFinset (walkEvents fn left) = some met.live.toFinset := by
    intro left blockId wk
    induction wk with
    | start =>
      refine ⟨first, hfst, ?_⟩
      have hst : TokenState.Sound ⟨i, i, true⟩ :=
        ⟨rfl, hi, hi, fun _ hmem => hmem⟩
      rw [live_of_covers fn (hs _ hfst) hst hcov]
      rfl
    | @step left blockId t wk he ih =>
      obtain ⟨met, hmem, hp⟩ := ih
      obtain ⟨next, ss, hv, hall⟩ := hse _ hmem
      obtain ⟨block, hvis⟩ := tokenWalker_visit hv
      obtain ⟨b', hf, htgt⟩ := he
      have hblk : b' = block := Option.some.inj (hf.symm.trans hvis.found)
      subst hblk
      have hn := hvis.after (hs _ hmem)
      obtain ⟨o, ho, hstand⟩ := hall t (hvis.leads ▸ htgt)
      refine ⟨o, ho, ?_⟩
      rw [walkEvents_append, liveAfter_append, hp, Option.bind_some, hn.live,
        live_of_covers fn (hs _ ho) hn.sound hstand]
  intro left blockId wk
  obtain ⟨met, hmem, hp⟩ := hsta left blockId wk
  obtain ⟨next, ss, hv, _⟩ := hse _ hmem
  obtain ⟨block, hvis⟩ := tokenWalker_visit hv
  refine ⟨next.live.toFinset, ?_, ?_⟩
  · rw [walkEvents_append, liveAfter_append, hp, Option.bind_some]
    exact (hvis.after (hs _ hmem)).live
  · intro o hf hex
    have hblk : o = block := Option.some.inj (hf.symm.trans hvis.found)
    subst hblk
    rw [hvis.exit (hvis.leads.trans hex)]
    rfl

/-! ### What the check refuses -/

/-- The fault of a visit at the end of a path is one of a walk. -/
theorem fault_of_visit
    (hcar : Carried fn i (p.map Prod.fst) blockId s)
    (hnd : (p.map Prod.fst ++ [blockId]).Nodup)
    (he : findBlock fn.blocks blockId ≠ none) (h : VisitFault fn blockId s) :
    Fault fn i := by
  have hs := hcar.after.sound
  have hla : ∀ es, liveAfter s.live.toFinset es =
      liveAfter i.toFinset (walkEvents fn (p.map Prod.fst) ++ es) := by
    intro es
    rw [liveAfter_append, hcar.after.live]
    rfl
  cases h with
  | missing h => exact absurd h he
  | invalid block fd h =>
    obtain ⟨b, ins, a, f, next, hsp, ht, hpre, hf⟩ :=
      (blockTokenState_cases hs block.instructions).2 h
    have hevs : walkEvents fn (p.map Prod.fst ++ [blockId]) =
        walkEvents fn (p.map Prod.fst) ++ (b.flatMap instructionEvents ++
          (flowEvents f ++ a.flatMap instructionEvents)) := by
      rw [walkEvents_append, walkEvents_singleton fd, hsp, flatMap_append, flatMap_cons]
      simp only [instructionEvents, ht]
    have hins : ins ∈ block.instructions := by
      rw [hsp]
      exact mem_append_right _ mem_cons_self
    rcases hf.fault with hrepeat | hrepeat | hbroken | ⟨id, hid, hse⟩
    · exact .twice _ _ hcar.walk block fd ins hins f ht (Or.inl hrepeat)
    · exact .twice _ _ hcar.walk block fd ins hins f ht (Or.inr hrepeat)
    · refine .breaks _ _ hcar.walk ?_
      rw [hevs, ← hla, liveAfter_append, hpre.live, Option.bind_some, liveAfter_append, hbroken]
      rfl
    · obtain ⟨left, r, hpr⟩ := mem_iff_append.mp hid
      refine .again _ _ hcar.walk hnd id
        (walkEvents fn (p.map Prod.fst) ++ (b.flatMap instructionEvents ++
          (f.consumed.map .consume ++ left.map .produce)))
        (r.map .produce ++ a.flatMap instructionEvents) ?_ ?_
      · rw [hevs, flowEvents, hpr]
        simp
      · rcases (hpre.seen id).mp hse with hold | hpreEvs
        · rcases (hcar.after.seen id).mp hold with hi | hl
          · exact Or.inl hi
          · exact Or.inr (mem_append_left _ hl)
        · exact Or.inr (mem_append_right _ (mem_append_left _ hpreEvs))
  | leak block fd v e h =>
    have hp := (blockTokenState_cases hs block.instructions).1 v
    refine .leaks _ _ hcar.walk block fd e
      (blockTokenState s block.instructions).live.toFinset ?_ ?_
    · rw [walkEvents_append, walkEvents_singleton fd, ← hla]
      exact hp.live
    · intro hemp
      exact h ((toFinset_eq_empty_iff _).mp hemp)

/-- **What the check refuses shows on a walk.** -/
theorem fault_of_refused (hi : i.Nodup) (htg : TargetsExist fn)
    (h : tokenPathsValid fuel fn fn.entryBlock ⟨i, i, true⟩ [] = some false) : Fault fn i := by
  obtain ⟨p, blockId, s, ht, hs⟩ :=
    stops_of_not_done (w := tokenWalker fn) h Bool.false_ne_true
  have hcar := carried_of_trail hi ht
  rcases hs with ⟨met, hmem, hd, _⟩ | ⟨hf, hv⟩
  · obtain ⟨pre, af, rfl, hpre⟩ := ht.of_mem hmem
    have hmet := carried_of_trail hi hpre
    have hp : (pre ++ (blockId, met) :: af).map Prod.fst =
        pre.map Prod.fst ++ blockId :: af.map Prod.fst := by simp
    rw [hp] at hcar
    refine .returns _ _ _ hmet.walk hcar.walk _ _ hmet.after.live hcar.after.live ?_
    intro heq
    have hag := (tokenSetsEqual_iff hmet.after.sound.live hcar.after.sound.live).mpr heq
    exact absurd (hd.symm.trans hag) Bool.false_ne_true
  · refine fault_of_visit hcar ?_ (exists_of_walk htg hcar.walk) (tokenWalker_error hv).2
    refine nodup_append.mpr ⟨ht.nodup, nodup_singleton _, ?_⟩
    intro a ha b hb hab
    rw [hab, mem_singleton.mp hb] at ha
    exact hf ha

/-! ### The check ends -/

/-- The tokens that a function starts with or may produce. -/
def functionTokens (function : FunctionDef) (initial : List NativeId) : Finset NativeId :=
  (initial ++ function.blocks.flatMap fun block => block.instructions.flatMap fun instruction =>
    match instruction.tokens with
    | none => []
    | some flow => producedTokenIds flow.produced).toFinset

theorem mem_functionTokens {id : NativeId} (h : .produce id ∈ walkEvents fn left) :
    id ∈ functionTokens fn i := by
  obtain ⟨blockId, _, hev⟩ := mem_flatMap.mp h
  cases hf : findBlock fn.blocks blockId with
  | none => simp [hf] at hev
  | some block =>
    simp only [hf] at hev
    obtain ⟨ins, hins, hev⟩ := mem_flatMap.mp hev
    refine mem_toFinset.mpr (mem_append_right _ (mem_flatMap.mpr
      ⟨block, mem_of_find?_eq_some hf, mem_flatMap.mpr ⟨ins, hins, ?_⟩⟩))
    cases ht : ins.tokens with
    | none => simp [instructionEvents, ht] at hev
    | some f => simpa [instructionEvents, ht, flowEvents] using hev

/-- **The check ends on every graph of blocks.** -/
theorem tokenPathsValid_ends (hi : i.Nodup) : ∃ fuel answer, ∀ m ≥ fuel,
      tokenPathsValid m fn fn.entryBlock ⟨i, i, true⟩ [] = some answer := by
  refine ends (fun blockId s => (blockId, s.live.toFinset, s.seen.toFinset))
    ((fn.blocks.map (·.id)).toFinset ×ˢ ((functionTokens fn i).powerset ×ˢ
      (functionTokens fn i).powerset) : Finset _)
    (Finset.finite_toSet _) ⟨?_, ?_, ?_⟩
  · intro p blockId s res ht hv
    have hcar := carried_of_trail hi ht
    obtain ⟨block, hvis⟩ := @tokenWalker_visit _ _ _ res.1 res.2 hv
    have hs : s.seen.toFinset ⊆ functionTokens fn i := by
      intro id hid
      rcases (hcar.after.seen id).mp (mem_toFinset.mp hid) with hin | hprod
      · exact mem_toFinset.mpr (mem_append_left _ hin)
      · exact mem_functionTokens hprod
    have hl : s.live.toFinset ⊆ functionTokens fn i := by
      intro id hid
      exact hs (mem_toFinset.mpr (hcar.after.sound.known (mem_toFinset.mp hid)))
    have hid : block.id = blockId := by simpa using find?_some hvis.found
    simp only [Finset.mem_coe, Finset.mem_product, Finset.mem_powerset, mem_toFinset]
    exact ⟨hid ▸ mem_map_of_mem (mem_of_find?_eq_some hvis.found), hl, hs⟩
  · intro p blockId met o s hmet hst hkey
    simp only [Prod.mk.injEq, true_and] at hkey
    have hms := (carried_of_trail hi hmet).after.sound
    have hss := (carried_of_trail hi hst).after.sound
    simp only [tokenWalker, tokenVisitMatches, Bool.and_eq_true]
    exact ⟨(tokenSetsEqual_iff hms.live hss.live).mpr hkey.1,
      (tokenSetsEqual_iff hms.seen hss.seen).mpr hkey.2⟩
  · intro blockId met o s hkey
    exact (Prod.mk.inj hkey).1

/-! ### Discharge -/

/-- **Discharge of tokens**: the check ends; what it accepts is discharged on every walk; and it
refuses a function only for a fault of a walk or for tokens that the function starts with twice. -/
theorem tokens_discharged_on_walks (program : NativeCoreProgram) (function : FunctionDef)
    (htargets : TargetsExist function) :
    (∃ fuel answer, ∀ more ≥ fuel, functionTokensDischarged more program function = some answer) ∧
      ∀ fuel, (functionTokensDischarged fuel program function = some true →
          Discharged function (initialTokens program function)) ∧
        (functionTokensDischarged fuel program function = some false →
          Fault function (initialTokens program function) ∨
            ¬(initialTokens program function).Nodup) := by
  by_cases hi : (initialTokens program function).Nodup
  · have hc : ∀ fuel, functionTokensDischarged fuel program function =
        tokenPathsValid fuel function function.entryBlock
          ⟨initialTokens program function, initialTokens program function, true⟩ [] := by
      intro fuel
      rw [functionTokensDischarged, if_pos (uniqueIds_iff.mpr hi)]
    simp only [hc]
    exact ⟨tokenPathsValid_ends hi, fun fuel => ⟨discharged_of_valid hi,
      fun h => Or.inl (fault_of_refused hi htargets h)⟩⟩
  · have hc : ∀ fuel, functionTokensDischarged fuel program function = some false := by
      intro fuel
      rw [functionTokensDischarged, if_neg (fun h => hi (uniqueIds_iff.mp h))]
    simp only [hc]
    exact ⟨⟨0, false, fun _ _ => rfl⟩, fun _ => ⟨fun h => absurd h (by simp),
      fun _ => Or.inr hi⟩⟩

/-- A loop that passes a token on, which the entry produces and the exit consumes. -/
def tokenLoop : FunctionDef where
  parameters := []
  blocks := [ ⟨⟨"entry"⟩, [], [⟨⟨⟨"opened"⟩, ⟨"unit"⟩⟩,
      some ⟨[], [⟨⟨"token"⟩, .regionToken ⟨"region"⟩⟩]⟩, .other⟩], [.jump ⟨"loop"⟩ []]⟩,
    ⟨⟨"loop"⟩, [], [], [.branch ⟨"again"⟩ ⟨"loop"⟩ ⟨"exit"⟩]⟩,
    ⟨⟨"exit"⟩, [], [⟨⟨⟨"closed"⟩, ⟨"unit"⟩⟩, some ⟨[⟨"token"⟩], []⟩, .other⟩], [.returns none]⟩]
  entryBlock := ⟨"entry"⟩
  regions := []
  capabilities := []

theorem tokens_discharged_on_loop : Discharged tokenLoop (initialTokens ⟨[], []⟩ tokenLoop) :=
  ((tokens_discharged_on_walks ⟨[], []⟩ tokenLoop ⟨by decide, by decide⟩).2 6).1 (by decide)

/-- A function that names its one region twice and consumes it. -/
def regionTwice : FunctionDef where
  parameters := []
  blocks := [⟨⟨"entry"⟩, [], [⟨⟨⟨"closed"⟩, ⟨"unit"⟩⟩, some ⟨[⟨"region"⟩], []⟩, .other⟩],
    [.returns none]⟩]
  entryBlock := ⟨"entry"⟩
  regions := [⟨"region"⟩, ⟨"region"⟩]
  capabilities := []

theorem walk_regionTwice (w : FunctionWalk regionTwice left blockId) :
    left = [] ∧ blockId = ⟨"entry"⟩ := by
  cases w with
  | start => exact ⟨rfl, rfl⟩
  | step _ he =>
    obtain ⟨block, hf, hmem⟩ := he
    rw [mem_singleton.mp (mem_of_find?_eq_some hf)] at hmem
    exact absurd hmem not_mem_nil

theorem liveAfter_regionTwice : liveAfter (initialTokens ⟨[], []⟩ regionTwice).toFinset
      (walkEvents regionTwice ([] ++ [⟨"entry"⟩])) = some ∅ := by
  decide

/-- Tokens that a function starts with twice are refused where no walk does wrong. -/
theorem refused_without_fault : ¬∀ (program : NativeCoreProgram) (function : FunctionDef),
      (function.blocks.map (·.id)).Nodup → TargetsExist function → ∀ fuel,
        functionTokensDischarged fuel program function = some false →
          Fault function (initialTokens program function) := by
  intro h
  have hf := h ⟨[], []⟩ regionTwice (by decide) ⟨by decide, by
    intro block hblk t htgt
    rw [mem_singleton.mp hblk] at htgt
    exact absurd htgt not_mem_nil⟩ 0 (by decide)
  cases hf with
  | breaks left blockId w b =>
    obtain ⟨rfl, rfl⟩ := walk_regionTwice w
    rw [liveAfter_regionTwice] at b
    simp at b
  | leaks left blockId w block fd e lv a l =>
    obtain ⟨rfl, rfl⟩ := walk_regionTwice w
    exact l (Option.some.inj (a.symm.trans liveAfter_regionTwice))
  | again left blockId w lf id pre a es ks =>
    obtain ⟨rfl, rfl⟩ := walk_regionTwice w
    have hmem : TokenEvent.produce id ∈ walkEvents regionTwice ([] ++ [⟨"entry"⟩]) := by
      rw [es]
      exact mem_append_right _ mem_cons_self
    exact absurd (mem_singleton.mp hmem) (by simp)
  | twice left blockId w block fd ins i f ts r =>
    obtain ⟨rfl, rfl⟩ := walk_regionTwice w
    rw [mem_singleton.mp (mem_of_find?_eq_some fd)] at i
    rw [mem_singleton.mp i] at ts
    rw [← Option.some.inj ts] at r
    exact r.elim (fun hn => hn (by decide)) (fun hn => hn (by decide))
  | returns left m blockId w bk lv o pre a d =>
    have hnil := (walk_regionTwice bk).1
    simp at hnil

end

end Beagle.Resources
