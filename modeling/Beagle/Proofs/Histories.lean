/-
Dumps that are histories.

A dump that a load accepts is the dump of a ledger.  The records of that ledger,
replayed into a fresh store, make the same history over other handles, and so the same
withdrawals and the same live propositions, as long as no row is repeated and the
first sequence is one a fresh store takes.
-/
import Beagle.Proofs.LogBytes
import Beagle.Proofs.Runs

namespace Beagle.Store

open Beagle.Lib List

/-- Equal Terms have a single handle. -/
def SingleHandles (store : TermStore) : Prop :=
  ∀ (h k : Int) (s t : Term), resolveHandle store h = .ok s → resolveHandle store k = .ok t →
    s.same t = true → h = k

/-- The records of a store replay, and replayed into a fresh store they make its live
    propositions and its withdrawals; and its handles are single. -/
structure RealHistory (H : Hashing) (root : Root) : Prop where
  replayed : ∃ records replayed,
    transactionRecordsBetween root.store (-1) (root.store.nextSequence - 1) = .ok records ∧
      reachedStore H root.store.spaceId (records.map .replayResult) = some replayed ∧
      livePropositions H replayed = livePropositions H root ∧
      withdrawals replayed.store = withdrawals root.store
  single : SingleHandles root.store

/-! ### Reading the records back -/

theorem resolveOperations_exists {s : TermStore} (hs : s.rows.Sound) {sq : Int} :
    ∀ {ac : List (Action × Int)} (n : Nat),
      (∀ act ∈ ac, ∃ p, act.2 = tripleHandle p ∧ p < s.rows.triples.length) →
        ∃ resolved, resolveOperations s (operationRowsFrom sq n ac) = .ok resolved := by
  intro ac
  induction ac with
  | nil => intro n _; exact ⟨[], rfl⟩
  | cons act r ih =>
    intro n hall
    obtain ⟨p, hp, hlt⟩ := hall act (mem_cons_self ..)
    obtain ⟨os, hos⟩ := ih (n + 1) fun a ha => hall a (mem_cons_of_mem _ ha)
    obtain ⟨t, ht⟩ := Rows.Valid.denotes hs (Or.inr ⟨p, hp, hlt⟩)
    obtain ⟨pr, rfl⟩ := triple_of_tripleHandle (hp ▸ ht)
    refine ⟨⟨act.1, pr⟩ :: os, ?_⟩
    unfold operationRowsFrom resolveOperations
    dsimp only
    rw [(resolveTripleHandle_iff hs).mpr ht, hos]
    rfl

/-- The rows of a transaction are where its row points. -/
theorem transactionRecordAt_spec {s : TermStore} (hs : s.rows.Sound) {t : Transaction}
    (hwf : t.Wf s.rows) (hpos : 0 ≤ t.sequence) (hmax : t.sequence ≤ sequenceBound)
    {pre af : List OperationRow}
    (hops : s.operations = pre ++ (t.operationRows ++ af)) :
    ∃ record, transactionRecordAt s ⟨t.sequence, pre.length, t.acts.length⟩ = .ok record ∧
      t.Record s.rows record := by
  have hro : subvec s.operations pre.length (pre.length + t.acts.length)
      = operationRowsFrom t.sequence 0 t.acts := by
    have hlen : t.operationRows.length = t.acts.length := length_operationRowsFrom _ _ _
    unfold subvec
    rw [hops, drop_left, Nat.add_sub_cancel_left, ← hlen, take_left]
    rfl
  obtain ⟨rd, hr⟩ := @resolveOperations_exists _ hs t.sequence _ 0 hwf.handle
  obtain ⟨ha, hden⟩ := resolveOperations_spec hs t.acts 0 rd hr
  refine ⟨⟨Int64.ofInt t.sequence, rd⟩, ?_, ⟨Int64.toInt_ofInt_of_lt hpos hmax, ha, hden⟩⟩
  unfold transactionRecordAt
  dsimp only
  rw [Int.toNat_natCast, Int.toNat_natCast, hro, hr]
  rfl

theorem transactionRecords_spec {s : TermStore} (hs : s.rows.Sound)
    {af : List OperationRow} :
    ∀ (ts : List Transaction) (pre : List OperationRow),
      s.operations = pre ++ (ts.flatMap Transaction.operationRows ++ af) →
        (∀ t ∈ ts, t.Wf s.rows ∧ 0 ≤ t.sequence ∧ t.sequence ≤ sequenceBound) →
          ∃ records, (transactionRowsFrom pre.length ts).mapM (transactionRecordAt s)
              = .ok records ∧
            Forall₂ (Transaction.Record s.rows) ts records := by
  intro ts
  induction ts with
  | nil => intro pre _ _; exact ⟨[], rfl, Forall₂.nil⟩
  | cons t r ih =>
    intro pre hops hall
    rw [flatMap_cons, append_assoc] at hops
    obtain ⟨hwf, hpos, hmax⟩ := hall t (mem_cons_self ..)
    obtain ⟨rc, hrec, hsa⟩ := transactionRecordAt_spec hs hwf hpos hmax hops
    rw [← append_assoc] at hops
    obtain ⟨records, hr, hall'⟩ := ih (pre ++ t.operationRows) hops
      fun u hu => hall u (mem_cons_of_mem _ hu)
    have hlen : t.operationRows.length = t.acts.length := length_operationRowsFrom _ _ _
    rw [length_append, hlen] at hr
    refine ⟨rc :: records, ?_, Forall₂.cons hsa hall'⟩
    unfold transactionRowsFrom
    rw [mapM_cons, hrec, hr]
    rfl

/-- **The records of a store are the records of the ledger it holds.** -/
theorem ownRecords_spec {H : Hashing} {root : Root} {l : Ledger} (h : Holds H root l) (hwf : l.Wf)
    (hra : l.nextSequence ≤ sequenceBound) :
    ∃ records, transactionRecordsBetween root.store (-1) (root.store.nextSequence - 1) = .ok records ∧
      Forall₂ (Transaction.Record l.rows) l.history records := by
  have hro : root.store.rows.Sound := by
    rw [h.rows]
    exact hwf.sound
  have hs : ∀ row ∈ root.store.transactions,
      0 ≤ row.sequence ∧ row.sequence ≤ l.nextSequence - 1 := by
    intro row hrow
    rw [h.transactions] at hrow
    obtain ⟨t, ht, heq⟩ := mem_transactionRowsFrom hrow
    have hlt := hwf.sequence_lt ht
    have hpos := hwf.nonneg t ht
    omega
  have hfst : firstTransactionAfter root.store.transactions (-1) = 0 := by
    have hsp : firstTransactionAfter ([] ++ root.store.transactions) (-1) = 0 := by
      refine firstTransactionAfter_append nofun ?_
      intro row hrow
      have := hs row hrow
      omega
    exact hsp
  have hst : firstTransactionAfter root.store.transactions (root.store.nextSequence - 1)
      = root.store.transactions.length := by
    have hsp : firstTransactionAfter (root.store.transactions ++ [])
        (root.store.nextSequence - 1) = root.store.transactions.length := by
      refine firstTransactionAfter_append ?_ nofun
      intro row hrow
      rw [h.nextSequence]
      exact (hs row hrow).2
    rw [append_nil] at hsp
    exact hsp
  obtain ⟨records, hr, hall⟩ := @transactionRecords_spec _ hro [] l.history []
    (by rw [h.operations, append_nil]; rfl) (by
      intro t ht
      have hlt := hwf.sequence_lt ht
      rw [h.rows]
      exact ⟨hwf.transactions t ht, hwf.nonneg t ht, by omega⟩)
  rw [h.rows] at hall
  refine ⟨records, ?_, hall⟩
  unfold transactionRecordsBetween
  rw [hfst, hst]
  dsimp only
  rw [subvecWithin_ok (Nat.zero_le _) (Nat.le_refl _)]
  unfold subvec
  rw [drop_zero, Nat.sub_zero, take_length, h.transactions]
  exact hr

/-! ### Two stores of one history -/

/-- Two operation rows that are the same but for the handle. -/
structure SameRow (rows rows' : Rows) (row row' : OperationRow) : Prop where
  txSequence : row.txSequence = row'.txSequence
  ordinal : row.ordinal = row'.ordinal
  action : row.action = row'.action
  handle : SameDenoted rows rows' row.tripleHandle row'.tripleHandle

variable {rows' : Rows} {α β : Type}

theorem sameRow_operationRowsFrom {rs : Rows} {sq : Int} {ac a' : List (Action × Int)}
    (h : Forall₂ (SameAct rs rows') ac a') :
    ∀ n, Forall₂ (SameRow rs rows') (operationRowsFrom sq n ac) (operationRowsFrom sq n a') := by
  induction h with
  | nil => intro n; exact Forall₂.nil
  | cons hact _ ih =>
    intro n
    exact Forall₂.cons ⟨rfl, rfl, hact.1, hact.2⟩ (ih _)

theorem sameRow_operations {rs : Rows} {ts us : List Transaction}
    (h : Forall₂ (Transaction.Same rs rows') ts us) :
    Forall₂ (SameRow rs rows') (ts.flatMap Transaction.operationRows)
      (us.flatMap Transaction.operationRows) := by
  induction h with
  | nil => exact Forall₂.nil
  | @cons t u _ _ ht _ ih =>
    rw [flatMap_cons, flatMap_cons]
    refine rel_append ?_ ih
    unfold Transaction.operationRows
    rw [ht.1]
    exact sameRow_operationRowsFrom ht.2 0

theorem forall₂_zipIdx {rel : α → β → Prop} {xs : List α} {ys : List β} (h : Forall₂ rel xs ys) :
    ∀ n, Forall₂ (fun x y => rel x.1 y.1 ∧ x.2 = y.2) (xs.zipIdx n) (ys.zipIdx n) := by
  induction h with
  | nil => intro n; exact Forall₂.nil
  | cons hxy _ ih =>
    intro n
    rw [zipIdx_cons, zipIdx_cons]
    exact Forall₂.cons ⟨hxy, rfl⟩ (ih _)

theorem mapM_congr_forall₂ {ε γ : Type} {f : α → Except ε γ} {g : β → Except ε γ} {xs : List α}
    {ys : List β} (h : Forall₂ (fun x y => f x = g y) xs ys) : xs.mapM f = ys.mapM g := by
  induction h with
  | nil => rfl
  | cons hxy _ ih => rw [mapM_cons, mapM_cons, hxy, ih]

section

variable {H : Hashing} {a b : Root} {l m : Ledger}

/-- Two stores that hold one history over different handles. -/
structure OneHistory (H : Hashing) (a b : Root) (l m : Ledger) : Prop where
  holds : Holds H a l
  others : Holds H b m
  wf : l.Wf
  otherWf : m.Wf
  nanFree : l.rows.NanFree
  space : l.spaceId = m.spaceId
  history : Forall₂ (Transaction.Same l.rows m.rows) l.history m.history

namespace OneHistory

variable (h : OneHistory H a b l m)
include h

theorem operations : Forall₂ (SameRow l.rows m.rows) a.store.operations b.store.operations := by
  rw [h.holds.operations, h.others.operations]
  exact sameRow_operations h.history

theorem sameHandles (i j i' j' : Int) (hi : SameDenoted l.rows m.rows i i')
    (hj : SameDenoted l.rows m.rows j j') : i = j ↔ i' = j' := by
  obtain ⟨t, ht, ht'⟩ := hi
  obtain ⟨u, hu, hu'⟩ := hj
  constructor
  · intro heq
    rw [heq] at ht
    rw [← ht.unique hu] at hu'
    refine ht'.canonical h.otherWf.distinct hu' ?_
    rw [Term.same_self, h.nanFree.denotes ht]
    rfl
  · intro heq
    rw [heq] at ht'
    rw [← ht'.unique hu'] at hu
    refine ht.canonical h.wf.distinct hu ?_
    rw [Term.same_self, h.nanFree.denotes ht]
    rfl

/-- What the two withdrew is the same. -/
theorem targets : a.store.withdrawalTargets = b.store.withdrawalTargets := by
  rw [h.holds.targets, h.others.targets, ← h.holds.operations, ← h.others.operations]
  refine Lifo.targets_renamed h.sameHandles ?_
  unfold actsOf
  refine rel_map ?_ h.operations
  intro row row' hrow
  exact ⟨by rw [OperationRow.act, OperationRow.act, hrow.action], hrow.handle⟩

variable {row row' : OperationRow}

theorem resolve (hrow : SameRow l.rows m.rows row row') :
    resolveTripleHandle a.store row.tripleHandle = resolveTripleHandle b.store row'.tripleHandle := by
  obtain ⟨t, ht, ht'⟩ := hrow.handle
  rw [← h.holds.rows] at ht
  rw [← h.others.rows] at ht'
  have hs : a.store.rows.Sound := by
    rw [h.holds.rows]
    exact h.wf.sound
  have hs' : b.store.rows.Sound := by
    rw [h.others.rows]
    exact h.otherWf.sound
  unfold resolveTripleHandle
  rw [resolveHandle_denotes hs ht, resolveHandle_denotes hs' ht']

theorem occurrence (hrow : SameRow l.rows m.rows row row') :
    operationOccurrenceAt a.store row = operationOccurrenceAt b.store row' := by
  have hs : a.store.spaceId = b.store.spaceId :=
    h.holds.spaceId.trans (h.space.trans h.others.spaceId.symm)
  unfold operationOccurrenceAt occurrenceAt
  rw [h.resolve hrow, hs, hrow.txSequence, hrow.ordinal, hrow.action]

theorem livePropositions_eq : livePropositions H b = livePropositions H a := by
  unfold livePropositions
  rw [h.holds.liveRows_untargeted, h.others.liveRows_untargeted]
  refine (mapM_congr_forall₂ ?_).symm
  have hf := rel_filter (p := fun x => x.1.action = .assert &&
      !a.store.withdrawalTargets.contains (some x.2))
    (q := fun x => x.1.action = .assert &&
      !b.store.withdrawalTargets.contains (some x.2)) (by
        rintro ⟨row, i⟩ ⟨row', j⟩ ⟨hrow, rfl⟩
        dsimp only at hrow ⊢
        rw [hrow.action, h.targets]) (forall₂_zipIdx h.operations 0)
  unfold untargetedRows
  rw [forall₂_map_left_iff, forall₂_map_right_iff]
  exact hf.imp fun x y hxy => h.resolve hxy.1

theorem withdrawnRows_same :
    Forall₂ (fun x y => SameRow l.rows m.rows x.1 y.1 ∧ x.2 = y.2) (withdrawnRows a.store)
      (withdrawnRows b.store) := by
  unfold withdrawnRows
  refine rel_filterMap ?_ (forall₂_zipIdx h.operations 0)
  rintro ⟨row, i⟩ ⟨row', j⟩ ⟨hrow, rfl⟩
  dsimp only at hrow ⊢
  rw [h.targets]
  cases b.store.withdrawalTargets[i]?.join with
  | none => exact Option.Rel.none
  | some t => exact Option.Rel.some ⟨hrow, rfl⟩

theorem withdrawals_eq : withdrawals b.store = withdrawals a.store := by
  unfold withdrawals
  refine (mapM_congr_forall₂ (h.withdrawnRows_same.imp ?_)).symm
  rintro ⟨row, t⟩ ⟨row', t'⟩ ⟨hrow, rfl⟩
  dsimp only at hrow ⊢
  rw [h.occurrence hrow]
  have hlen := h.operations.length_eq
  by_cases hlt : t < a.store.operations.length
  · have hlt' : t < b.store.operations.length := by omega
    have hasr := h.operations.get hlt hlt'
    rw [getElem?_eq_getElem hlt, getElem?_eq_getElem hlt']
    have heq := h.occurrence hasr
    simp only [get_eq_getElem] at heq
    simp only [heq]
  · rw [getElem?_eq_none (by omega), getElem?_eq_none (by omega)]

end OneHistory

end

/-! ### When an accepted dump is a history -/

section

variable {H : Hashing} {rcs : List TransactionRecord}

/-- Replaying records one by one succeeds as far as the ledger takes them. -/
theorem runAll_replayResult :
    ∀ {root : Root} {l : Ledger}, Holds H root l → (∀ rc ∈ rcs, validTransactionRecord rc = true) →
        match l.replayAll rcs with
        | none => StoreCall.runAll H root (rcs.map .replayResult) = none
        | some l' => ∃ re,
            StoreCall.runAll H root (rcs.map .replayResult) = some re ∧ Holds H re l' := by
  induction rcs with
  | nil => intro root l h _; exact ⟨root, rfl, h⟩
  | cons rc rs ih =>
    intro root l h hv
    have hs := replayTransactionResult_spec h (hv rc (mem_cons_self ..))
    rw [Ledger.replayAll, map_cons, StoreCall.runAll, StoreCall.run]
    cases hrep : l.replay rc with
    | none =>
      rw [hrep] at hs
      obtain ⟨rf, href⟩ := hs
      rw [href]
      rfl
    | some mid =>
      rw [hrep] at hs
      obtain ⟨r', hok, hr⟩ := hs
      rw [hok]
      exact ih hr.holds fun r hmem => hv r (mem_cons_of_mem _ hmem)

theorem records_valid {l : Ledger} (hwf : l.Wf)
    (hall : Forall₂ (Transaction.Record l.rows) l.history rcs) :
    ∀ rc ∈ rcs, validTransactionRecord rc = true := by
  intro rc hmem
  obtain ⟨i, hi, rfl⟩ := getElem_of_mem hmem
  have hi' : i < l.history.length := by rw [hall.length_eq]; exact hi
  exact (hall.get hi' hi).valid (hwf.transactions _ (getElem_mem hi'))
    (hwf.nonneg _ (getElem_mem hi'))

/-- Every transaction has its row. -/
theorem exists_transactionRow {ts : List Transaction} {t : Transaction} (h : t ∈ ts) :
    ∀ first, ∃ row ∈ transactionRowsFrom first ts, row.sequence = t.sequence := by
  induction ts with
  | nil => cases h
  | cons u r ih =>
    intro first
    rcases mem_cons.mp h with rfl | h
    · exact ⟨_, mem_cons_self .., rfl⟩
    · obtain ⟨row, hrow, heq⟩ := ih h (first + u.acts.length)
      exact ⟨row, mem_cons_of_mem _ hrow, heq⟩

/-- Replayed sequences start where the ledger expects them. -/
theorem replayAll_sequences :
    ∀ {l l' : Ledger}, l.replayAll rcs = some l' →
      ∀ rc ∈ rcs, l.nextSequence ≤ rc.sequence.toInt := by
  induction rcs with
  | nil => intro l l' _ rc hmem; cases hmem
  | cons first r ih =>
    intro l l' hall rc hmem
    obtain ⟨mid, hfst, hr⟩ := Option.bind_eq_some_iff.mp hall
    obtain ⟨hn, hf, -⟩ := Ledger.replay_nextSequence hfst
    rcases mem_cons.mp hmem with rfl | hmem
    · exact hf
    · have hle := ih hr rc hmem
      omega

/-- Rows with single handles are distinct. -/
theorem distinct_of_singleHandles {s : TermStore} (hs : s.rows.Sound)
    (hn : s.rows.NanFree) (h : SingleHandles s) : s.rows.Distinct := by
  refine ⟨pairwise_iff_getElem.mpr ?_, pairwise_iff_getElem.mpr ?_⟩
  · intro i j hi hj hlt
    rw [← Bool.not_eq_true]
    intro hsa
    obtain ⟨v, hv⟩ := hs.atoms _ (getElem_mem hi)
    obtain ⟨w, hw⟩ := hs.atoms _ (getElem_mem hj)
    rw [hv, hw, Rows.atomRow_same] at hsa
    have di : s.rows.Denotes (atomHandle i) (.atom v) :=
      .atom (by rw [getElem?_eq_getElem hi, hv])
    have dj : s.rows.Denotes (atomHandle j) (.atom w) :=
      .atom (by rw [getElem?_eq_getElem hj, hw])
    have heq := h _ _ _ _ (resolveHandle_denotes hs di) (resolveHandle_denotes hs dj) hsa
    exact Nat.ne_of_lt hlt (atomHandle_inj heq)
  · intro i j hi hj hlt
    rw [← Bool.not_eq_true, beq_iff_eq]
    intro heq
    obtain ⟨t, dj⟩ := Rows.Valid.denotes hs (Or.inr ⟨j, rfl, hj⟩)
    have di : s.rows.Denotes (tripleHandle i) t := by
      generalize hk : tripleHandle j = k at dj
      cases dj with
      | atom => exact absurd hk.symm (atomHandle_ne_tripleHandle _ _)
      | @triple q row _ _ _ at_row d1 d2 d3 =>
        rw [← tripleHandle_inj hk, getElem?_eq_getElem hj, ← heq] at at_row
        exact .triple ((getElem?_eq_getElem hi).trans at_row) d1 d2 d3
    have hse : t.same t = true := by
      rw [Term.same_self, hn.denotes dj]
      rfl
    have hh := h _ _ _ _ (resolveHandle_denotes hs di) (resolveHandle_denotes hs dj) hse
    exact Nat.ne_of_lt hlt (tripleHandle_inj hh)

theorem newTermStore_exists {sid : String} (hs : sid ≠ "") :
    ∃ root, newTermStore sid = .ok root := ⟨_, if_pos (decide_eq_true hs)⟩

variable {root : Root}

theorem Holds.singleHandles {l : Ledger} (h : Holds H root l) (hwf : l.Wf) :
    SingleHandles root.store := by
  have hs : root.store.rows.Sound := by
    rw [h.rows]
    exact hwf.sound
  intro i j s t hi hj hsa
  rw [resolveHandle_iff hs, h.rows] at hi hj
  exact hi.canonical hwf.distinct hj hsa

/-- **A store's records replay to the history it holds**, when it starts after sequence zero. -/
theorem Holds.real_history {l : Ledger} (h : Holds H root l) (hwf : l.Wf) (hn : l.rows.NanFree)
    (hr : l.nextSequence ≤ sequenceBound) (hpos : ∀ t ∈ l.history, t.sequence ≠ 0) :
    RealHistory H root := by
  obtain ⟨rcs, hre, hall⟩ := ownRecords_spec h hwf hr
  have hs : l.spaceId ≠ "" := hwf.space
  obtain ⟨m, mo, hrep, hm, hms, -, hh, hsa⟩ :=
    Ledger.replayAll_records hwf.distinct hall (Ledger.empty_wf hs)
      (fun i t d => absurd d.valid (by rintro (⟨p, -, hp⟩ | ⟨p, -, hp⟩) <;> cases hp))
      hwf.transactions hwf.ascending (by
        intro t ht
        have hlt := hwf.sequence_lt ht
        have hnn := hwf.nonneg t ht
        have hne := hpos t ht
        have hnex : (Ledger.empty l.spaceId).nextSequence = 1 := rfl
        rw [hnex]
        unfold sequenceBound at hr
        unfold maxTransactionSequence
        omega)
  have hv := records_valid hwf hall
  obtain ⟨fr, hf⟩ := newTermStore_exists hs
  obtain ⟨hemp, -, -⟩ := newTermStoreSized_holds (H := H) hf
  have hrun := runAll_replayResult hemp hv
  rw [hrep] at hrun
  obtain ⟨r, hrun, hhd⟩ := hrun
  have hone : OneHistory H root r l m :=
    ⟨h, hhd, hwf, hm, hn, hms.symm, by rw [hh]; exact hsa⟩
  refine ⟨⟨rcs, r, hre, ?_, hone.livePropositions_eq, hone.withdrawals_eq⟩, h.singleHandles hwf⟩
  unfold reachedStore
  rw [h.spaceId, hf]
  exact hrun

/-- **A dump that is accepted is a real history exactly when it repeats no row and has no
    transaction of sequence zero.** -/
theorem accepted_dump_is_real_history {root loaded : Root} {dump : TermStoreDump}
    (hrange : dump.nextSequence ≤ sequenceBound)
    (hload : loadTermStoreResult H root dump = .ok loaded) :
    RealHistory H loaded ↔
      Rows.Distinct ⟨dump.atoms, dump.triples⟩ ∧ ∀ row ∈ dump.transactions, row.sequence ≠ 0 := by
  obtain ⟨⟨c, hchk, hc⟩, hdu, -⟩ := loadTermStoreResult_checked hload
  have hro : loaded.store.rows = ⟨dump.atoms, dump.triples⟩ := by
    rw [← hdu]
    rfl
  have hcr : c.rows = loaded.store.rows := by
    rw [hro, ← hchk]
    rfl
  constructor
  · intro hr
    have hd : Rows.Distinct ⟨dump.atoms, dump.triples⟩ := by
      rw [← hro]
      exact distinct_of_singleHandles (hcr ▸ hc.sound) (hcr ▸ hc.nanFree) hr.single
    refine ⟨hd, ?_⟩
    obtain ⟨l, hl, hwf, -, hhd, -⟩ := loadTermStoreResult_spec hd hload
    have hne : l.nextSequence ≤ sequenceBound := by
      rw [← hl] at hrange
      exact hrange
    obtain ⟨rcs, hre, hall⟩ := ownRecords_spec hhd hwf hne
    obtain ⟨rcs', r, hr', hrun, -, -⟩ := hr.replayed
    rw [hre] at hr'
    cases hr'
    obtain ⟨fr, hf, hrun⟩ := Option.bind_eq_some_iff.mp hrun
    obtain ⟨hemp, -, -⟩ := newTermStoreSized_holds (H := H) (toOption_eq_some hf)
    have hs := runAll_replayResult hemp (records_valid hwf hall)
    cases hrep : (Ledger.empty loaded.store.spaceId).replayAll rcs with
    | none =>
      rw [hrep] at hs
      rw [hs] at hrun
      cases hrun
    | some m =>
      intro row hrow hz
      rw [← hl] at hrow
      obtain ⟨t, ht, heq⟩ := mem_transactionRowsFrom hrow
      obtain ⟨i, hi, rfl⟩ := getElem_of_mem ht
      have hi' : i < rcs.length := by rw [← hall.length_eq]; exact hi
      have hle := replayAll_sequences hrep _ (getElem_mem hi')
      have hsa := (hall.get hi hi').sequence
      have hone : (Ledger.empty loaded.store.spaceId).nextSequence = 1 := rfl
      simp only [get_eq_getElem] at hsa
      omega
  · intro ⟨hd, hpos⟩
    obtain ⟨l, hl, hwf, hn, hhd, -⟩ := loadTermStoreResult_spec hd hload
    refine hhd.real_history hwf hn (by rw [← hl] at hrange; exact hrange) ?_
    intro t ht
    obtain ⟨row, hrow, heq⟩ := exists_transactionRow ht 0
    rw [← heq]
    refine hpos row ?_
    rw [← hl]
    exact hrow

end

/-- What is seen of a dump that is loaded into a fresh store. -/
theorem exists_loaded {sid : String} {d : TermStoreDump} {see : Root → α} {a : α}
    (h : (reachedStore Hashing.fnv sid [.load d]).map see = some a) :
    ∃ root lo, newTermStore sid = .ok root ∧
      loadTermStoreResult Hashing.fnv root d = .ok lo ∧ see lo = a := by
  obtain ⟨lo, hrun, hsee⟩ := Option.map_eq_some_iff.mp h
  obtain ⟨root, hnew, hrun⟩ := Option.bind_eq_some_iff.mp hrun
  obtain ⟨r, hl, hd⟩ := Option.bind_eq_some_iff.mp hrun
  cases hd
  exact ⟨root, lo, toOption_eq_some hnew, toOption_eq_some hl, hsee⟩

theorem greeting_dump_is_real_history : ∃ root loaded, newTermStore "s" = .ok root ∧
      loadTermStoreResult Hashing.fnv root greetingDump = .ok loaded ∧
      RealHistory Hashing.fnv loaded := by
  obtain ⟨root, loaded, hnew, hl, -⟩ := exists_loaded
    (show (reachedStore Hashing.fnv "s" [.load greetingDump]).map (fun _ => ()) = some () by
      decide)
  refine ⟨root, loaded, hnew, hl, (accepted_dump_is_real_history (by decide) hl).mpr
    ⟨⟨by decide, by decide⟩, ?_⟩⟩
  intro row hrow
  rw [mem_singleton.mp hrow]
  decide

/-- The greeting at sequence zero. -/
def zeroDump : TermStoreDump :=
  { greetingDump with
    nextSequence := 1
    transactions := [⟨0, 0, 1⟩]
    operations := [⟨0, 0, .assert, tripleHandle 0⟩] }

/-- The dump that repeats a row is accepted, and has two handles of one Term. -/
theorem repeated_dump_is_not_a_history : ∃ root loaded, newTermStore "s" = .ok root ∧
      loadTermStoreResult Hashing.fnv root repeatedDump = .ok loaded ∧
      ¬RealHistory Hashing.fnv loaded := by
  obtain ⟨root, loaded, hnew, hl, hs⟩ := exists_loaded
    (show (reachedStore Hashing.fnv "s" [.load repeatedDump]).map (fun loaded =>
      ((resolveHandle loaded.store (tripleHandle 0)).toOption,
        (resolveHandle loaded.store (tripleHandle 1)).toOption))
      = some (some (.triple (.atom (.string "a")) (.atom (.string "b")) (.atom (.bool true))),
        some (.triple (.atom (.string "a")) (.atom (.string "b")) (.atom (.bool true)))) by
      decide)
  refine ⟨root, loaded, hnew, hl, ?_⟩
  intro hr
  rw [Prod.mk.injEq] at hs
  have heq := hr.single _ _ _ _ (toOption_eq_some hs.1) (toOption_eq_some hs.2) (by decide)
  exact absurd heq (by decide)

/-- The dump of sequence zero is accepted, and its record does not replay. -/
theorem zero_dump_is_not_a_history : ∃ root loaded, newTermStore "s" = .ok root ∧
      loadTermStoreResult Hashing.fnv root zeroDump = .ok loaded ∧
      ¬RealHistory Hashing.fnv loaded := by
  obtain ⟨root, loaded, hnew, hl, hs⟩ := exists_loaded
    (show (reachedStore Hashing.fnv "s" [.load zeroDump]).map (fun loaded =>
      (loaded.store.spaceId,
        (transactionRecordsBetween loaded.store (-1) (loaded.store.nextSequence - 1)).toOption))
      = some ("s", some [{ greetingRecord with sequence := 0 }]) by decide)
  refine ⟨root, loaded, hnew, hl, ?_⟩
  rw [Prod.mk.injEq] at hs
  obtain ⟨hsp, hre⟩ := hs
  intro hr
  obtain ⟨rcs, r, hr', hrun, -⟩ := hr.replayed
  rw [toOption_eq_some hre] at hr'
  cases hr'
  rw [hsp] at hrun
  have hn : reachedStore Hashing.fnv "s"
      ([{ greetingRecord with sequence := 0 }].map .replayResult) = none := by
    decide
  rw [hn] at hrun
  cases hrun

/-- Both ways in which an accepted dump is no history. -/
theorem accepted_dumps_that_are_no_histories : (∃ root loaded, newTermStore "s" = .ok root ∧
        loadTermStoreResult Hashing.fnv root repeatedDump = .ok loaded ∧
        ¬RealHistory Hashing.fnv loaded) ∧
      ∃ root loaded, newTermStore "s" = .ok root ∧
        loadTermStoreResult Hashing.fnv root zeroDump = .ok loaded ∧
        ¬RealHistory Hashing.fnv loaded :=
  ⟨repeated_dump_is_not_a_history, zero_dump_is_not_a_history⟩

end Beagle.Store
