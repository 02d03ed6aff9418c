/-
Replays that throw and replays that report.

Both check a record in the same way and append it with the same rows, so they agree on whatever they
refuse before the rows.  One guard is missing in the throwing replay, for the greatest sequence, where
the rows are in the cells before the sequence after them overflows; and the replay of columns does not
look at the actions.
-/
import Beagle.Proofs.Refinement
import Beagle.Store.Refusals

namespace Beagle.Store

open Beagle.Lib

/-! ### What interning and appending keep -/

section

variable (H : Hashing)

theorem internAtomRow_history (root : Root) (v : AtomRow) :
    SameHistory root.store (internAtomRow H root v).1.store := by
  unfold internAtomRow
  split
  · exact SameHistory.refl _
  · unfold indexAtomTerm
    dsimp only
    split <;> exact ⟨rfl, rfl, rfl, rfl, rfl, rfl, rfl, rfl⟩

theorem internTripleRow_history (root : Root) (v : TripleRow) :
    SameHistory root.store (internTripleRow H root v).1.store := by
  unfold internTripleRow
  split
  · exact SameHistory.refl _
  · unfold indexTripleTerm
    dsimp only
    split <;> exact ⟨rfl, rfl, rfl, rfl, rfl, rfl, rfl, rfl⟩

theorem internHandle_history (root : Root) (t : Term) :
    SameHistory root.store (internHandle H root t).1.store := by
  induction t generalizing root with
  | atom v => exact internAtomRow_history H root _
  | triple t1 t2 t3 ih1 ih2 ih3 =>
    exact (((ih1 _).trans (ih2 _)).trans (ih3 _)).trans (internTripleRow_history H _ _)

theorem operationHandles_history (root : Root) (ops : List CommitOperation) :
    SameHistory root.store (operationHandles H root ops).1.store := by
  induction ops generalizing root with
  | nil => exact SameHistory.refl _
  | cons op r ih => exact (internHandle_history H root _).trans (ih _)

theorem length_operationHandles (root : Root) (ops : List CommitOperation) :
    (operationHandles H root ops).2.length = ops.length := by
  induction ops generalizing root with
  | nil => rfl
  | cons op r ih =>
    show ((operationHandles H _ r).2).length + 1 = r.length + 1
    rw [ih]

/-- Folding operation rows leaves these cells as they are. -/
structure KeepsSpace (root root' : Root) : Prop where
  spaceId : root'.store.spaceId = root.store.spaceId
  transactions : root'.store.transactions = root.store.transactions

theorem KeepsSpace.trans {root root' root'' : Root} (h : KeepsSpace root root')
    (h' : KeepsSpace root' root'') : KeepsSpace root root'' :=
  ⟨h'.spaceId.trans h.spaceId, h'.transactions.trans h.transactions⟩

theorem setActivePositions_keeps (root : Root) (h' : Int) (ps : List Nat) :
    KeepsSpace root (setActivePositions H root h' ps) := by
  unfold setActivePositions
  dsimp only
  split
  · split <;> exact ⟨rfl, rfl⟩
  · split <;> split <;> exact ⟨rfl, rfl⟩

theorem applyOperationState_keeps (root : Root) (p : Nat) (row : OperationRow) :
    KeepsSpace root (applyOperationState H root p row) := by
  unfold applyOperationState
  dsimp only
  split
  · exact ⟨(setActivePositions_keeps H _ _ _).spaceId,
      (setActivePositions_keeps H _ _ _).transactions⟩
  · split
    · exact ⟨rfl, rfl⟩
    · exact ⟨(setActivePositions_keeps H _ _ _).spaceId,
        (setActivePositions_keeps H _ _ _).transactions⟩

theorem appendOperationRows_keeps (sq : Int) (first : Nat) :
    ∀ (n : Nat) (a : List (Action × Int)) (root : Root),
      KeepsSpace root (appendOperationRows H sq first n a root) := by
  intro n a
  induction a generalizing n with
  | nil => exact fun _ => ⟨rfl, rfl⟩
  | cons act r ih =>
    intro root
    obtain ⟨ac, h'⟩ := act
    unfold appendOperationRows
    dsimp only
    refine KeepsSpace.trans ?_ (ih _ _)
    exact ⟨(applyOperationState_keeps H _ _ _).spaceId,
      (applyOperationState_keeps H _ _ _).transactions⟩

/-- The transaction row is in the cells however the append ends. -/
theorem appendTransactionRowsLeft_keeps (root : Root) (sq : Int) (a : List (Action × Int)) :
    (appendTransactionRowsLeft H root sq a).root.store.spaceId = root.store.spaceId ∧
      (appendTransactionRowsLeft H root sq a).root.store.transactions =
        root.store.transactions ++ [⟨sq, root.store.operations.length, a.length⟩] := by
  have hk := appendOperationRows_keeps H sq root.store.operations.length 0 a
    { root with store := { root.store with transactions :=
      root.store.transactions ++ [⟨sq, root.store.operations.length, a.length⟩] } }
  unfold appendTransactionRowsLeft
  dsimp only
  split <;> exact ⟨hk.spaceId, hk.transactions⟩

/-- An append ends well below the greatest sequence. -/
theorem appendTransactionRowsLeft_ok {root : Root} {sq : Int} {a : List (Action × Int)}
    (h : sq ≠ 9223372036854775807) :
    (appendTransactionRowsLeft H root sq a).outcome = .ok () := by
  unfold appendTransactionRowsLeft incInt
  rw [if_neg h]

theorem appendTransactionRowsLeft_trap {root : Root} {a : List (Action × Int)} :
    (appendTransactionRowsLeft H root 9223372036854775807 a).outcome = .error .trap := rfl

end

/-! ### Agreement -/

/-- A store as it is made: it has a SpaceId and its sequences begin at one. -/
structure Opened (root : Root) : Prop where
  space : validSpaceId root.store.spaceId = true
  first : 1 ≤ root.store.nextSequence

/-- Both replays take the record or both leave the store as it was. -/
structure ReplaysAgree (H : Hashing) (root : Root) (record : TransactionRecord) : Prop where
  returns : (∃ coordinate, (replayTransactionLeft H root record).outcome = .ok coordinate) ↔
    (replayTransactionResultLeft H root record).outcome = .ok (.ok ())
  same : (replayTransactionResultLeft H root record).outcome = .ok (.ok ()) →
    (replayTransactionLeft H root record).root = (replayTransactionResultLeft H root record).root
  refused : (replayTransactionResultLeft H root record).outcome ≠ .ok (.ok ()) →
    (replayTransactionLeft H root record).root = root ∧
      (replayTransactionResultLeft H root record).root = root

/-- The replay of the record's columns, its propositions interned. -/
def replayColumns (H : Hashing) (root : Root) (record : TransactionRecord) :
    Left (Except ReplayError Unit) :=
  let interned := operationHandles H root record.operations
  appendReplayedTransactionLeft H interned.1 record.sequence.toInt
    (record.operations.map CommitOperation.action) interned.2

/-- So with the record's columns, beside the terms that were interned. -/
structure ColumnsAgree (H : Hashing) (root : Root) (record : TransactionRecord) : Prop where
  returns : (replayColumns H root record).outcome = .ok (.ok ()) ↔
    (replayTransactionResultLeft H root record).outcome = .ok (.ok ())
  same : (replayTransactionResultLeft H root record).outcome = .ok (.ok ()) →
    (replayColumns H root record).root = (replayTransactionResultLeft H root record).root
  refused : (replayTransactionResultLeft H root record).outcome ≠ .ok (.ok ()) →
    (replayColumns H root record).root = (operationHandles H root record.operations).1

/-- A valid record with the greatest sequence. -/
def AtLimit (root : Root) (record : TransactionRecord) : Prop :=
  validTransactionRecord record = true ∧ root.store.nextSequence ≤ record.sequence.toInt ∧
    record.sequence.toInt = 9223372036854775807

/-- A record with an action that is no action, in its turn. -/
def WrongActions (root : Root) (record : TransactionRecord) : Prop :=
  record.operations ≠ [] ∧ record.operations.all validCommitOperation = false ∧
    root.store.nextSequence ≤ record.sequence.toInt ∧
    record.sequence.toInt ≤ maxTransactionSequence

section

variable {H : Hashing} {root : Root} {record : TransactionRecord}

theorem validTransactionRecord_iff : validTransactionRecord record = true ↔
    0 ≤ record.sequence.toInt ∧ record.operations ≠ [] ∧
      record.operations.all validCommitOperation = true := by
  simp [validTransactionRecord, validOperations]

theorem resultLeft_invalid (h : validTransactionRecord record = false) :
    (replayTransactionResultLeft H root record).outcome ≠ .ok (.ok ()) ∧
      (replayTransactionResultLeft H root record).root = root := by
  unfold replayTransactionResultLeft
  rw [h]
  exact ⟨nofun, rfl⟩

/-- What the reporting replay does with a valid record. -/
theorem resultLeft_valid (h : validTransactionRecord record = true) :
    if record.sequence.toInt < root.store.nextSequence ∨
        record.sequence.toInt > maxTransactionSequence then
      (replayTransactionResultLeft H root record).outcome ≠ .ok (.ok ()) ∧
        (replayTransactionResultLeft H root record).root = root
    else
      (replayTransactionResultLeft H root record).outcome = .ok (.ok ()) ∧
        (replayTransactionResultLeft H root record).root =
          (appendValidTransactionLeft H root record.sequence.toInt record.operations).root := by
  have hv : validOperations record.operations = true := by
    unfold validTransactionRecord at h
    exact (Bool.and_eq_true_iff.mp h).2
  unfold replayTransactionResultLeft appendTransactionResultLeft
  rw [if_pos h, hv]
  by_cases hlow : record.sequence.toInt < root.store.nextSequence
  · rw [if_pos (Or.inl hlow)]
    simp [hlow]
  by_cases hh : record.sequence.toInt > maxTransactionSequence
  · rw [if_pos (Or.inr hh)]
    simp [hlow, hh]
  · rw [if_neg (not_or.mpr ⟨hlow, hh⟩)]
    have hok := @appendTransactionRowsLeft_ok H
      (operationHandles H root record.operations).1 record.sequence.toInt
      ((record.operations.map CommitOperation.action).zip
        (operationHandles H root record.operations).2)
      (by unfold maxTransactionSequence at hh; omega)
    have hout : (appendValidTransactionLeft H root record.sequence.toInt
        record.operations).outcome = .ok () := hok
    simp [hlow, hh, hout, Except.map]

/-- What the throwing replay does with a valid record. -/
theorem thrownLeft_valid (hr : Opened root) (h : validTransactionRecord record = true) :
    if record.sequence.toInt < root.store.nextSequence then
      (∀ c, (replayTransactionLeft H root record).outcome ≠ .ok c) ∧
        (replayTransactionLeft H root record).root = root
    else
      ((∃ c, (replayTransactionLeft H root record).outcome = .ok c) ↔
          record.sequence.toInt ≠ 9223372036854775807) ∧
        (replayTransactionLeft H root record).root =
          (appendValidTransactionLeft H root record.sequence.toInt record.operations).root := by
  have hv : validOperations record.operations = true := by
    unfold validTransactionRecord at h
    exact (Bool.and_eq_true_iff.mp h).2
  have hnn := (validTransactionRecord_iff.mp h).1
  unfold replayTransactionLeft appendTransactionLeft
  rw [if_pos h, hv]
  by_cases hlow : record.sequence.toInt < root.store.nextSequence
  · rw [if_pos hlow]
    simp [hlow, refuse]
  rw [if_neg hlow]
  simp only [Bool.not_true, Bool.false_eq_true, if_false, hlow]
  have hs : validSpaceId (appendValidTransactionLeft H root record.sequence.toInt
      record.operations).root.store.spaceId = true := by
    unfold appendValidTransactionLeft
    dsimp only
    rw [(appendTransactionRowsLeft_keeps H _ _ _).1,
      (operationHandles_history H root record.operations).spaceId]
    exact hr.space
  by_cases hmax : record.sequence.toInt = 9223372036854775807
  · have ht : (appendValidTransactionLeft H root record.sequence.toInt
        record.operations).outcome = .error .trap := by
      rw [hmax]
      exact appendTransactionRowsLeft_trap H
    rw [ht]
    simp [hmax]
  · have hok : (appendValidTransactionLeft H root record.sequence.toInt
        record.operations).outcome = .ok () := appendTransactionRowsLeft_ok H hmax
    rw [hok]
    simp [hmax, hs, hnn]

theorem thrownLeft_invalid (h : validTransactionRecord record = false) :
    (∀ c, (replayTransactionLeft H root record).outcome ≠ .ok c) ∧
      (replayTransactionLeft H root record).root = root := by
  unfold replayTransactionLeft
  rw [h]
  exact ⟨nofun, rfl⟩

/-- **The replays agree just where the record is not one of the greatest sequence.** -/
theorem replaysAgree_iff (hro : Opened root) :
    ReplaysAgree H root record ↔ ¬AtLimit root record := by
  constructor
  · rintro h ⟨hv, hn, hmax⟩
    have hres := @resultLeft_valid H root record hv
    have ht := @thrownLeft_valid H root record hro hv
    rw [if_pos (Or.inr (by unfold maxTransactionSequence; omega))] at hres
    rw [if_neg (by omega)] at ht
    have hr := (h.refused hres.1).1
    rw [ht.2] at hr
    have hlen := congrArg (fun r : Root => r.store.transactions.length) hr
    unfold appendValidTransactionLeft at hlen
    dsimp only at hlen
    rw [(appendTransactionRowsLeft_keeps H _ _ _).2,
      (operationHandles_history H root record.operations).transactions] at hlen
    simp at hlen
  · intro hl
    by_cases hv : validTransactionRecord record = true
    · have hres := @resultLeft_valid H root record hv
      have ht := @thrownLeft_valid H root record hro hv
      by_cases hlow : record.sequence.toInt < root.store.nextSequence
      · rw [if_pos (Or.inl hlow)] at hres
        rw [if_pos hlow] at ht
        exact ⟨⟨fun ⟨c, hc⟩ => absurd hc (ht.1 c), fun hok => absurd hok hres.1⟩,
          fun hok => absurd hok hres.1, fun _ => ⟨ht.2, hres.2⟩⟩
      · have hmax : record.sequence.toInt ≠ 9223372036854775807 := fun hmax =>
          hl ⟨hv, by omega, hmax⟩
        have hra := Int64.toInt_lt record.sequence
        rw [if_neg (by unfold maxTransactionSequence; omega)] at hres
        rw [if_neg hlow] at ht
        exact ⟨⟨fun _ => hres.1, fun _ => ht.1.mpr hmax⟩,
          fun _ => ht.2.trans hres.2.symm, fun hne => absurd hres.1 hne⟩
    · rw [Bool.not_eq_true] at hv
      have hres := @resultLeft_invalid H root record hv
      have ht := @thrownLeft_invalid H root record hv
      exact ⟨⟨fun ⟨c, hc⟩ => absurd hc (ht.1 c), fun hok => absurd hok hres.1⟩,
        fun hok => absurd hok hres.1, fun _ => ⟨ht.2, hres.2⟩⟩

/-- What the replay of columns does. -/
theorem columns_cases :
    if record.operations = [] ∨ record.sequence.toInt < root.store.nextSequence ∨
        record.sequence.toInt > maxTransactionSequence then
      (replayColumns H root record).outcome ≠ .ok (.ok ()) ∧
        (replayColumns H root record).root = (operationHandles H root record.operations).1
    else
      (replayColumns H root record).outcome = .ok (.ok ()) ∧ (replayColumns H root record).root =
          (appendValidTransactionLeft H root record.sequence.toInt record.operations).root := by
  have hlen := length_operationHandles H root record.operations
  have hseq := (operationHandles_history H root record.operations).nextSequence
  unfold replayColumns appendReplayedTransactionLeft
  dsimp only
  rw [List.isEmpty_map, List.length_map, hlen, hseq]
  by_cases hemp : record.operations = []
  · rw [if_pos (Or.inl hemp)]
    simp [hemp]
  by_cases hlow : record.sequence.toInt < root.store.nextSequence
  · rw [if_pos (Or.inr (Or.inl hlow))]
    simp [hemp, hlow]
  by_cases hh : record.sequence.toInt > maxTransactionSequence
  · rw [if_pos (Or.inr (Or.inr hh))]
    simp [hemp, hlow, hh]
  · rw [if_neg (not_or.mpr ⟨hemp, not_or.mpr ⟨hlow, hh⟩⟩)]
    have hok := @appendTransactionRowsLeft_ok H
      (operationHandles H root record.operations).1 record.sequence.toInt
      ((record.operations.map CommitOperation.action).zip
        (operationHandles H root record.operations).2)
      (by unfold maxTransactionSequence at hh; omega)
    simp [hemp, hlow, hh, hok, Except.map, appendValidTransactionLeft]

/-- **The replay of the columns agrees just where the actions are actions.** -/
theorem columnsAgree_iff (hro : Opened root) :
    ColumnsAgree H root record ↔ ¬WrongActions root record := by
  have hc := @columns_cases H root record
  constructor
  · rintro h ⟨hn, hw, hnex, hmax⟩
    rw [if_neg (not_or.mpr ⟨hn, not_or.mpr ⟨by omega, by omega⟩⟩)] at hc
    have hinv : validTransactionRecord record = false := by
      rw [← Bool.not_eq_true, validTransactionRecord_iff, hw]
      exact fun hall => absurd hall.2.2 Bool.false_ne_true
    exact absurd (h.returns.mp hc.1) (@resultLeft_invalid H root record hinv).1
  · intro ha
    by_cases hv : validTransactionRecord record = true
    · have hres := @resultLeft_valid H root record hv
      have hn := (validTransactionRecord_iff.mp hv).2.1
      by_cases hout : record.sequence.toInt < root.store.nextSequence ∨
          record.sequence.toInt > maxTransactionSequence
      · rw [if_pos hout] at hres
        rw [if_pos (Or.inr hout)] at hc
        exact ⟨⟨fun hok => absurd hok hc.1, fun hok => absurd hok hres.1⟩,
          fun hok => absurd hok hres.1, fun _ => hc.2⟩
      · rw [if_neg hout] at hres
        rw [if_neg (not_or.mpr ⟨hn, hout⟩)] at hc
        exact ⟨⟨fun _ => hres.1, fun _ => hc.1⟩,
          fun _ => hc.2.trans hres.2.symm, fun hne => absurd hres.1 hne⟩
    · rw [Bool.not_eq_true] at hv
      have hres := @resultLeft_invalid H root record hv
      -- an invalid record with its actions in order is empty or out of its turn
      have hout : record.operations = [] ∨ record.sequence.toInt < root.store.nextSequence ∨
          record.sequence.toInt > maxTransactionSequence := by
        by_contra hin
        obtain ⟨hn, hr⟩ := not_or.mp hin
        obtain ⟨hlow, hh⟩ := not_or.mp hr
        rw [← Bool.not_eq_true, validTransactionRecord_iff] at hv
        have hfst := hro.first
        refine ha ⟨hn, ?_, by omega, by omega⟩
        rw [← Bool.not_eq_true]
        exact fun hall => hv ⟨by omega, hn, hall⟩
      rw [if_pos hout] at hc
      exact ⟨⟨fun hok => absurd hok hc.1, fun hok => absurd hok hres.1⟩,
        fun hok => absurd hok hres.1, fun _ => hc.2⟩

/-- **The replays refuse the same records before anything changes**, save for a valid record of the
greatest sequence, which the throwing replay refuses with its rows in the store, and for actions that
are none, which the replay of columns takes. -/
theorem replays_refuse_alike_iff (hroot : Opened root) :
    ReplaysAgree H root record ∧ ColumnsAgree H root record ↔
      ¬AtLimit root record ∧ ¬WrongActions root record :=
  and_congr (replaysAgree_iff hroot) (columnsAgree_iff hroot)

end

/-! ### The greatest sequence -/

def greetingOperation : CommitOperation :=
  ⟨.assert, ⟨.atom (.string "a"), .atom (.string "b"), .atom (.bool true)⟩⟩

theorem newTermStore_opened {sid : String} {root : Root} (h : newTermStore sid = .ok root) :
    Opened root := by
  unfold newTermStore newTermStoreSized at h
  split at h
  · rename_i hs
    rw [← Except.ok.inj h]
    exact ⟨hs, Int.le_refl 1⟩
  · exact nomatch h

/-- The replays agree on the first record of a fresh store. -/
theorem first_record_agrees : ∃ root, newTermStore "s" = .ok root ∧
    ReplaysAgree Hashing.fnv root ⟨1, [greetingOperation]⟩ ∧
      ColumnsAgree Hashing.fnv root ⟨1, [greetingOperation]⟩ := by
  obtain ⟨root, hr⟩ := newTermStoreSized_exists [] (show "s" ≠ "" by decide) 0 0 0
  refine ⟨root, hr, (replays_refuse_alike_iff (newTermStore_opened hr)).mpr ⟨?_, ?_⟩⟩
  · exact fun h => absurd h.2.2 (by decide)
  · exact fun h => absurd h.2.1 (by decide)

/-- **A valid record of the greatest sequence is refused with its rows in the store**, and a record
with an action that is none is taken from its columns. -/
theorem last_record_differs : ∃ root, newTermStore "s" = .ok root ∧
    ¬ReplaysAgree Hashing.fnv root ⟨9223372036854775807, [greetingOperation]⟩ ∧
      ¬ColumnsAgree Hashing.fnv root
        ⟨1, [{ greetingOperation with action := .other ⟨"erase"⟩ }]⟩ := by
  obtain ⟨root, hr⟩ := newTermStoreSized_exists [] (show "s" ≠ "" by decide) 0 0 0
  have ho := newTermStore_opened hr
  have hn : root.store.nextSequence = 1 := by
    rw [← Except.ok.inj hr]
  refine ⟨root, hr, fun h => (replaysAgree_iff ho).mp h ⟨by decide, ?_, by decide⟩,
    fun h => (columnsAgree_iff ho).mp h ⟨by decide, by decide, ?_, by decide⟩⟩
  · rw [hn]
    decide
  · rw [hn]
    decide

end Beagle.Store
