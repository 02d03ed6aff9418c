/-
Searching in a range finds what is in the range.

The history is cut in three: what comes before the range, what is in it and what comes
past it.  The two searches over the transactions return where the cuts are, whatever
sequences are left out, and the bounds over the operations are the lengths of the parts.
A coordinate names one operation and the postings of a handle list its operations in
order, so the candidates are the operations in range that are asked for.  With bounds the
wrong way round a cut lies before the other, and the slice between them traps.
-/
import Beagle.Proofs.Following
import Beagle.Store.RangeSearch

namespace Beagle.Store

open Beagle.Lib List

/-- Is a sequence past the lower bound and not past the upper one? -/
def InRange (lowerExclusive upperInclusive sequence : Int) : Prop :=
  lowerExclusive < sequence ∧ sequence ≤ upperInclusive

instance (lower upper sequence : Int) : Decidable (InRange lower upper sequence) :=
  inferInstanceAs (Decidable (_ ∧ _))

/-- A record of the transaction with this sequence, and of its own operations. -/
structure RecordOf (store : TermStore) (sequence : Int) (record : TransactionRecord) : Prop where
  operations : Forall₂ (fun row operation => operation.action = row.action ∧
      resolveTripleHandle store row.tripleHandle = .ok operation.proposition)
    (store.operations.filter fun row => row.txSequence = sequence) record.operations
  sequence : record.sequence.toInt = sequence

/-- Is this Triple what a position is bound to, if it is bound? -/
def Meets (bound : Option BoundValue) (value : Triple) : Prop :=
  ∀ wanted, bound = some wanted → ∃ t, wanted = .term t ∧ value.term.same t = true

/-- An operation in range, with the coordinate and the proposition that are bound. -/
def Asked (store : TermStore) (lower upper : Int) (coordinate proposition : Option BoundValue)
    (position : Nat) : Prop :=
  ∃ row event, store.operations[position]? = some row ∧ InRange lower upper row.txSequence ∧
    operationOccurrenceAt store row = .ok event ∧ Meets coordinate event.coordinate ∧
    Meets proposition event.proposition

/-- What searching a range owes its callers. -/
structure RangeSearchExact (H : Hashing) (root : Root) (lower upper : Int) : Prop where
  records : ∃ records, transactionRecordsBetween root.store lower upper = .ok records ∧
    Forall₂ (fun row record => RecordOf root.store row.sequence record)
      (root.store.transactions.filter fun row => InRange lower upper row.sequence) records
  brackets : ∀ (position : Nat) (row : OperationRow), root.store.operations[position]? = some row →
      ((operationRangeBounds root.store lower upper).1 ≤ position ∧
          position < (operationRangeBounds root.store lower upper).2 ↔
        InRange lower upper row.txSequence)
  candidates : ∀ coordinate proposition : Option BoundValue, ∃ positions,
    operationCandidatePositions H root lower upper coordinate proposition
        (operationPostings root.store) = .ok positions ∧
      positions.Pairwise (· < ·) ∧
      ∀ position, position ∈ positions ↔
        Asked root.store lower upper coordinate proposition position

/-- The bounds are in order, as far as the store can tell: no transaction is past the upper one and
    not past the lower one. -/
def NoneReversed (store : TermStore) (lower upper : Int) : Prop :=
  ∀ row ∈ store.transactions, ¬InRange upper lower row.sequence

/-! ### Cutting the history -/

section

variable {H : Hashing} {root : Root} {l : Ledger}

/-- A sequence cuts the history in two. -/
theorem Ledger.Wf.exists_cut (hwf : l.Wf) (sequence : Int) :
    ∃ b a, l.history = b ++ a ∧ (∀ t ∈ b, t.sequence ≤ sequence) ∧
      ∀ t ∈ a, sequence < t.sequence := by
  obtain ⟨b, a, hsp, hpre, hp⟩ :=
    Lib.exists_cut (fun t : Transaction => t.sequence ≤ sequence)
      (hwf.ascending.imp fun hlt hle => by omega)
  exact ⟨b, a, hsp, hpre, fun t ht => Int.not_le.mp (hp t ht)⟩

@[simp] theorem length_transactionRowsFrom (first : Nat) (ts : List Transaction) :
    (transactionRowsFrom first ts).length = ts.length := by
  induction ts generalizing first with
  | nil => rfl
  | cons t r ih => rw [transactionRowsFrom, length_cons, length_cons, ih]

theorem Holds.transactions_append (h : Holds H root l) {b after : List Transaction}
    (hsp : l.history = b ++ after) :
    root.store.transactions = transactionRowsFrom 0 b ++
      transactionRowsFrom (b.flatMap Transaction.operationRows).length after := by
  rw [h.transactions]
  unfold Ledger.transactions
  rw [hsp, transactionRowsFrom_append, Nat.zero_add]

variable {sequence : Int} {t : Transaction}

/-- **The searches find the cut.** -/
theorem Holds.cut_at (h : Holds H root l) {b a : List Transaction}
    (hsp : l.history = b ++ a) (hpre : ∀ t ∈ b, t.sequence ≤ sequence)
    (hp : ∀ t ∈ a, sequence < t.sequence) :
    firstTransactionAfter root.store.transactions sequence = b.length ∧
      firstOperationAfter root.store sequence = (b.flatMap Transaction.operationRows).length := by
  have htx := h.transactions_append hsp
  have hfst : firstTransactionAfter root.store.transactions sequence = b.length := by
    have hlen := length_transactionRowsFrom 0 b
    rw [htx, ← hlen]
    refine firstTransactionAfter_append ?_ ?_
    · intro row hrow
      obtain ⟨t, ht, heq⟩ := mem_transactionRowsFrom hrow
      have := hpre t ht
      omega
    · intro row hrow
      obtain ⟨t, ht, heq⟩ := mem_transactionRowsFrom hrow
      have := hp t ht
      omega
  refine ⟨hfst, ?_⟩
  unfold firstOperationAfter
  rw [hfst, htx, getElem?_append_right (by simp), length_transactionRowsFrom, Nat.sub_self]
  cases a with
  | nil =>
    show root.store.operations.length = _
    rw [h.operations]
    unfold Ledger.operations
    rw [hsp, append_nil]
  | cons t r =>
    show (Int.ofNat _).toNat = _
    exact Int.toNat_natCast _

/-- The history before a range, in it, and past it. -/
structure Ledger.Ranged (l : Ledger) (lower upper : Int) (past inside later : List Transaction) :
    Prop where
  history : l.history = past ++ (inside ++ later)
  past : ∀ t ∈ past, t.sequence ≤ lower ∧ t.sequence ≤ upper
  inside : ∀ t ∈ inside, InRange lower upper t.sequence
  later : ∀ t ∈ later, lower < t.sequence ∧ upper < t.sequence

theorem Holds.mem_transactions (h : Holds H root l) (ht : t ∈ l.history) :
    ∃ row ∈ root.store.transactions, row.sequence = t.sequence := by
  rw [h.transactions]
  exact exists_transactionRow ht 0

theorem Holds.ranged (h : Holds H root l) (hwf : l.Wf) {lo upp : Int}
    (hn : NoneReversed root.store lo upp) :
    ∃ past inside later, l.Ranged lo upp past inside later := by
  have hgap : ∀ t ∈ l.history, ¬InRange upp lo t.sequence := by
    intro t ht
    obtain ⟨row, hrow, heq⟩ := h.mem_transactions ht
    rw [← heq]
    exact hn row hrow
  unfold InRange at hgap
  obtain ⟨past, r, hsp, hp, hre⟩ := hwf.exists_cut lo
  have hasc := hwf.ascending
  rw [hsp] at hasc hgap
  obtain ⟨inside, later, rfl, hins, hl⟩ :=
    Lib.exists_cut (fun t : Transaction => t.sequence ≤ upp)
      ((pairwise_append.mp hasc).2.1.imp fun hlt hle => by omega)
  refine ⟨past, inside, later, hsp, ?_, ?_, ?_⟩
  · intro t ht
    have := hgap t (mem_append_left _ ht)
    have := hp t ht
    omega
  · intro t ht
    exact ⟨hre t (mem_append_left _ ht), hins t ht⟩
  · intro t ht
    exact ⟨hre t (mem_append_right _ ht), Int.not_le.mp (hl t ht)⟩

namespace Ledger.Ranged

variable {lo upp : Int} {past inside later : List Transaction}
  (hr : l.Ranged lo upp past inside later)
include hr

theorem first (h : Holds H root l) :
    firstTransactionAfter root.store.transactions lo = past.length ∧
      firstOperationAfter root.store lo = (past.flatMap Transaction.operationRows).length := by
  refine h.cut_at hr.history (fun t ht => (hr.past t ht).1) ?_
  intro t ht
  rcases List.mem_append.mp ht with ht | ht
  · exact (hr.inside t ht).1
  · exact (hr.later t ht).1

theorem stop (h : Holds H root l) :
    firstTransactionAfter root.store.transactions upp = past.length + inside.length ∧
      firstOperationAfter root.store upp = (past.flatMap Transaction.operationRows).length +
        (inside.flatMap Transaction.operationRows).length := by
  have hsp := hr.history
  rw [← append_assoc] at hsp
  have hcut := h.cut_at hsp (fun t ht => ?_) fun t ht => (hr.later t ht).2
  · rw [length_append, flatMap_append, length_append] at hcut
    exact hcut
  · rcases List.mem_append.mp ht with ht | ht
    · exact (hr.past t ht).2
    · exact (hr.inside t ht).2

theorem operations (h : Holds H root l) :
    root.store.operations = past.flatMap Transaction.operationRows ++
      (inside.flatMap Transaction.operationRows ++ later.flatMap Transaction.operationRows) := by
  rw [h.operations]
  unfold Ledger.operations
  rw [hr.history, flatMap_append, flatMap_append]

/-- **The bounds bracket the operations in range.** -/
theorem brackets (h : Holds H root l) {p : Nat} {row : OperationRow}
    (hrow : root.store.operations[p]? = some row) :
    (operationRangeBounds root.store lo upp).1 ≤ p ∧
        p < (operationRangeBounds root.store lo upp).2 ↔
      InRange lo upp row.txSequence := by
  have hp : ∀ {ts : List Transaction} {i : Nat},
      (ts.flatMap Transaction.operationRows)[i]? = some row →
        ∃ t ∈ ts, row.txSequence = t.sequence := by
    intro ts i hi
    obtain ⟨t, ht, hmem⟩ := mem_flatMap.mp (mem_of_getElem? hi)
    exact ⟨t, ht, (operationRowsFrom_place hmem).1⟩
  unfold operationRangeBounds
  dsimp only
  rw [(hr.first h).2, (hr.stop h).2]
  rw [hr.operations h] at hrow
  by_cases hpa : p < (past.flatMap Transaction.operationRows).length
  · rw [getElem?_append_left hpa] at hrow
    obtain ⟨t, ht, heq⟩ := hp hrow
    have := hr.past t ht
    unfold InRange
    omega
  · rw [getElem?_append_right (Nat.not_lt.mp hpa)] at hrow
    by_cases hins : p - (past.flatMap Transaction.operationRows).length <
        (inside.flatMap Transaction.operationRows).length
    · rw [getElem?_append_left hins] at hrow
      obtain ⟨t, ht, heq⟩ := hp hrow
      rw [heq]
      exact ⟨fun _ => hr.inside t ht, fun _ => by omega⟩
    · rw [getElem?_append_right (Nat.not_lt.mp hins)] at hrow
      obtain ⟨t, ht, heq⟩ := hp hrow
      have := hr.later t ht
      unfold InRange
      omega

end Ledger.Ranged

/-! ### The records in range -/

/-- The operations of a transaction are the ones with its sequence. -/
theorem Ledger.Wf.own_operations (hwf : l.Wf) (ht : t ∈ l.history) :
    (l.operations.filter fun row => row.txSequence = t.sequence) = t.operationRows := by
  obtain ⟨b, a, hsp⟩ := append_of_mem ht
  have hasc := hwf.ascending
  rw [hsp] at hasc
  obtain ⟨-, hp, hpre⟩ := pairwise_append.mp hasc
  have hos : ∀ {ts : List Transaction}, (∀ u ∈ ts, u.sequence ≠ t.sequence) →
      ((ts.flatMap Transaction.operationRows).filter fun row => row.txSequence = t.sequence)
        = [] := by
    intro ts hts
    refine filter_eq_nil_iff.mpr ?_
    intro row hrow heq
    obtain ⟨u, hu, hmem⟩ := mem_flatMap.mp hrow
    have hseq := (operationRowsFrom_place hmem).1
    exact hts u hu (hseq.symm.trans (of_decide_eq_true heq))
  have hown : (t.operationRows.filter fun row => row.txSequence = t.sequence)
      = t.operationRows := by
    refine filter_eq_self.mpr ?_
    intro row hrow
    exact decide_eq_true (operationRowsFrom_place hrow).1
  unfold Ledger.operations
  rw [hsp, flatMap_append, flatMap_cons, filter_append, filter_append, hown,
    hos, hos, nil_append, append_nil]
  · intro u hu
    have := (pairwise_cons.mp hp).1 u hu
    omega
  · intro u hu
    have := hpre u hu t (mem_cons_self ..)
    omega

variable {a : List (Action × Int)}

/-- A record of a transaction has its operations, one by one. -/
theorem record_operations {s : TermStore} (hs : s.rows.Sound) :
    ∀ (n : Nat) {operations : List CommitOperation},
      operations.map CommitOperation.action = a.map Prod.fst →
        Forall₂ s.rows.Denotes (a.map Prod.snd) (propositions operations) →
          Forall₂ (fun row op => op.action = row.action ∧
              resolveTripleHandle s row.tripleHandle = .ok op.proposition)
            (operationRowsFrom sequence n a) operations := by
  induction a with
  | nil =>
    intro n operations ha _
    rw [map_eq_nil_iff.mp ha]
    exact .nil
  | cons act r ih =>
    intro n operations ha hden
    obtain ⟨op, os, rfl, hact, ha⟩ := map_eq_cons_iff.mp ha
    obtain ⟨hden, hos⟩ := forall₂_cons.mp hden
    exact .cons ⟨hact, (resolveTripleHandle_iff hs).mpr hden⟩ (ih _ ha hos)

theorem Holds.recordOf (h : Holds H root l) (hwf : l.Wf) (ht : t ∈ l.history)
    {rc : TransactionRecord} (hrec : t.Record root.store.rows rc) :
    RecordOf root.store t.sequence rc where
  operations := by
    have hs : root.store.rows.Sound := by
      rw [h.rows]
      exact hwf.sound
    rw [h.operations, hwf.own_operations ht]
    exact record_operations hs 0 hrec.actions hrec.denotes
  sequence := hrec.sequence

variable {ts : List Transaction}

theorem forall₂_transactionRowsFrom {rel : Int → TransactionRecord → Prop}
    {records : List TransactionRecord}
    (h : Forall₂ (fun t rc => rel t.sequence rc) ts records) :
    ∀ first, Forall₂ (fun row rc => rel row.sequence rc)
      (transactionRowsFrom first ts) records := by
  induction h with
  | nil => intro first; exact .nil
  | cons hrec _ ih =>
    intro first
    exact .cons hrec (ih _)

namespace Ledger.Ranged

variable {lo upp : Int} {past inside later : List Transaction}

/-- The rows of the transactions in range. -/
theorem rows_in_range (hr : l.Ranged lo upp past inside later) (h : Holds H root l) :
    (root.store.transactions.filter fun row => InRange lo upp row.sequence)
      = transactionRowsFrom (past.flatMap Transaction.operationRows).length inside := by
  have hn : ∀ ts : List Transaction, (∀ t ∈ ts, ¬InRange lo upp t.sequence) → ∀ first,
      ((transactionRowsFrom first ts).filter fun row => InRange lo upp row.sequence) = [] := by
    intro ts hts first
    refine filter_eq_nil_iff.mpr ?_
    intro row hrow hin
    obtain ⟨t, ht, heq⟩ := mem_transactionRowsFrom hrow
    rw [decide_eq_true_iff, heq] at hin
    exact hts t ht hin
  have hp := hn past fun t ht hin => by
    have := hr.past t ht
    unfold InRange at hin
    omega
  have hl := hn later fun t ht hin => by
    have := hr.later t ht
    unfold InRange at hin
    omega
  have hall : ∀ first, ((transactionRowsFrom first inside).filter fun row =>
      InRange lo upp row.sequence) = transactionRowsFrom first inside := by
    intro first
    refine filter_eq_self.mpr ?_
    intro row hrow
    obtain ⟨t, ht, heq⟩ := mem_transactionRowsFrom hrow
    rw [heq]
    exact decide_eq_true (hr.inside t ht)
  rw [h.transactions_append hr.history, transactionRowsFrom_append, filter_append,
    filter_append, hp, hall, hl, nil_append, append_nil]

/-- **The records between two bounds are those of the transactions in range.** -/
theorem records (hr : l.Ranged lo upp past inside later) (h : Holds H root l) (hwf : l.Wf)
    (hsz : MachineSized root.store) :
    ∃ records, transactionRecordsBetween root.store lo upp = .ok records ∧
      Forall₂ (fun row rc => RecordOf root.store row.sequence rc)
        (root.store.transactions.filter fun row => InRange lo upp row.sequence) records := by
  have hso : root.store.rows.Sound := by
    rw [h.rows]
    exact hwf.sound
  have hmem : ∀ t ∈ inside, t ∈ l.history := by
    intro t ht
    rw [hr.history]
    exact mem_append_right _ (mem_append_left _ ht)
  have htx := h.transactions_append hr.history
  rw [transactionRowsFrom_append] at htx
  have hs : subvecWithin root.store.transactions past.length (past.length + inside.length)
      = .ok (transactionRowsFrom (past.flatMap Transaction.operationRows).length inside) := by
    have hl : root.store.transactions.length = past.length + (inside.length + later.length) := by
      rw [htx, length_append, length_append, length_transactionRowsFrom,
        length_transactionRowsFrom, length_transactionRowsFrom]
    rw [subvecWithin_ok (Nat.le_add_right ..) (by omega), htx]
    have hd := length_transactionRowsFrom 0 past
    have hta := length_transactionRowsFrom (past.flatMap Transaction.operationRows).length inside
    unfold subvec
    rw [Nat.add_sub_cancel_left, ← hd, drop_left]
    conv => lhs; rw [← hta, take_left]
  obtain ⟨records, hre, hall⟩ := transactionRecords_spec hso inside _ (hr.operations h) (by
      intro t ht
      have hlt := hwf.sequence_lt (hmem t ht)
      have hn := (h.sizes hsz).1
      rw [h.rows]
      exact ⟨hwf.transactions t (hmem t ht), hwf.nonneg t (hmem t ht), by omega⟩)
  refine ⟨records, ?_, ?_⟩
  · unfold transactionRecordsBetween
    dsimp only
    rw [(hr.first h).1, (hr.stop h).1, hs]
    exact hre
  · rw [hr.rows_in_range h]
    refine forall₂_transactionRowsFrom ?_ _
    obtain ⟨hlen, hget⟩ := forall₂_iff_get.mp hall
    refine forall₂_iff_get.mpr ⟨hlen, ?_⟩
    intro i hi hi'
    exact h.recordOf hwf (hmem _ (getElem_mem hi)) (hget i hi hi')

end Ledger.Ranged

/-! ### Coordinates -/

theorem operationRowsFrom_getElem? :
    ∀ (n i : Nat), (operationRowsFrom sequence n a)[i]? =
      a[i]?.map fun act => ⟨sequence, (n + i : Nat), act.1, act.2⟩ := by
  induction a with
  | nil => intro n i; rfl
  | cons act r ih =>
    intro n i
    cases i with
    | zero => rfl
    | succ i =>
      rw [operationRowsFrom, getElem?_cons_succ, getElem?_cons_succ, ih (n + 1) i,
        show n + 1 + i = n + (i + 1) by omega]

variable {row : OperationRow} {c : Term} {space : String}

/-- Where an operation stands among those of its transaction. -/
theorem exists_place : ∀ {p : Nat}, (ts.flatMap Transaction.operationRows)[p]? = some row →
      ∃ b t a, ts = b ++ t :: a ∧ row.txSequence = t.sequence ∧ row.ordinal < t.acts.length ∧
        (p : Int) = (b.flatMap Transaction.operationRows).length + row.ordinal := by
  induction ts with
  | nil => intro p h; cases h
  | cons t r ih =>
    intro p h
    have hlen : t.operationRows.length = t.acts.length := length_operationRowsFrom _ _ _
    rw [flatMap_cons] at h
    by_cases hin : p < t.operationRows.length
    · rw [getElem?_append_left hin] at h
      have hrow := h
      unfold Transaction.operationRows at hrow
      rw [operationRowsFrom_getElem?, Option.map_eq_some_iff] at hrow
      obtain ⟨act, -, rfl⟩ := hrow
      refine ⟨[], t, r, rfl, rfl, ?_, ?_⟩
      · show ((0 + p : Nat) : Int) < _
        omega
      · show (p : Int) = 0 + ((0 + p : Nat) : Int)
        omega
    · rw [getElem?_append_right (Nat.not_lt.mp hin)] at h
      obtain ⟨b, u, a, rfl, hseq, ho, hpos⟩ := ih h
      refine ⟨t :: b, u, a, rfl, hseq, ho, ?_⟩
      rw [flatMap_cons, length_append]
      omega

/-- The operations of a transaction stand after those before it. -/
theorem Ledger.operation_at {b a : List Transaction}
    (hsp : l.history = b ++ t :: a) {i : Nat} (hi : i < t.acts.length) :
    l.operations[(b.flatMap Transaction.operationRows).length + i]?
      = some ⟨t.sequence, i, (t.acts[i]).1, (t.acts[i]).2⟩ := by
  have hlen : i < t.operationRows.length := by
    unfold Transaction.operationRows
    rw [length_operationRowsFrom]
    exact hi
  unfold Ledger.operations
  rw [hsp, flatMap_append, flatMap_cons, getElem?_append_right (by omega),
    getElem?_append_left (by omega), Nat.add_sub_cancel_left]
  unfold Transaction.operationRows
  rw [operationRowsFrom_getElem?, getElem?_eq_getElem hi, Nat.zero_add]
  rfl

/-- A value that reads as a coordinate is one. -/
theorem eq_of_occurrenceCoordinateOf {sequence ord' : Int64}
    (h : occurrenceCoordinateOf c = some (space, sequence, ord')) :
    c = (occurrenceCoordinate (transactionCoordinate space sequence.toInt) ord'.toInt).term ∧
      0 ≤ ord'.toInt := by
  unfold occurrenceCoordinateOf at h
  split at h
  case h_2 => cases h
  case h_1 tx pd n =>
      split at h
      case h_2 => cases h
      case h_1 s q htx =>
          split at h
          case isFalse => cases h
          case isTrue hop =>
              cases h
              unfold transactionCoordinateOf at htx
              split at htx
              case h_2 => cases htx
              case h_1 s' p' q' =>
                  split at htx
                  case isFalse => cases htx
                  case isTrue hs =>
                      cases htx
                      refine ⟨?_, hop.2⟩
                      rw [hop.1, hs.2.1]
                      unfold occurrenceCoordinate transactionCoordinate
                      rw [Int64.ofInt_toInt, Int64.ofInt_toInt]
                      rfl

/-- Nothing but itself is equal to a coordinate. -/
theorem eq_of_same_coordinate {ord' : Int}
    (h : (occurrenceCoordinate (transactionCoordinate space sequence) ord').term.same c = true) :
    c = (occurrenceCoordinate (transactionCoordinate space sequence) ord').term := by
  have ha : ∀ {v : AtomValue} {t : Term}, (∀ w : AtomValue, v.same w = (v == w)) →
      (Term.atom v).same t = true → t = .atom v := by
    intro v t hv hsa
    cases t with
    | atom w => rw [beq_iff_eq.mp ((hv w).symm.trans hsa)]
    | triple => cases hsa
  have hs : ∀ (s : String) (w : AtomValue), (AtomValue.string s).same w = (.string s == w) :=
    fun _ w => by cases w <;> rfl
  have hkw : ∀ (k : Keyword) (w : AtomValue), (AtomValue.keyword k).same w = (.keyword k == w) :=
    fun _ w => by cases w <;> rfl
  have hint : ∀ (n : Int64) (w : AtomValue), (AtomValue.int n).same w = (.int n == w) :=
    fun _ w => by cases w <;> rfl
  unfold occurrenceCoordinate transactionCoordinate at h ⊢
  cases c with
  | atom => cases h
  | triple c1 c2 c3 =>
    simp only [Triple.term, Term.same, Bool.and_eq_true] at h ⊢
    rw [ha (hkw _) h.1.2, ha (hint _) h.2]
    cases c1 with
    | atom => cases h.1.1
    | triple b1 b2 b3 =>
      simp only [Term.same, Bool.and_eq_true] at h
      rw [ha (hs _) h.1.1.1.1, ha (hkw _) h.1.1.1.2, ha (hint _) h.1.1.2]

/-- **A coordinate is found where its operation is, and nothing else is found.** -/
theorem Holds.exactPosition_iff (h : Holds H root l) (hwf : l.Wf) (hsz : MachineSized root.store)
    {coordinate : BoundValue} {position : Nat} :
    exactOccurrencePosition root.store coordinate = some position ↔
      ∃ row, l.operations[position]? = some row ∧ ∃ t, coordinate = .term t ∧
        (occurrenceCoordinate (transactionCoordinate l.spaceId row.txSequence) row.ordinal).term.same
          t = true := by
  constructor
  · intro hf
    unfold exactOccurrencePosition at hf
    cases coordinate with
    | foreign => cases hf
    | term t =>
      dsimp only at hf
      cases hof : occurrenceCoordinateOf t with
      | none => rw [hof] at hf; cases hf
      | some read =>
        obtain ⟨space, sequence, ordinal⟩ := read
        obtain ⟨rfl, hordinal⟩ := eq_of_occurrenceCoordinateOf hof
        rw [hof] at hf
        dsimp only at hf
        by_cases hspace : space = root.store.spaceId
        · rw [if_neg (not_not.mpr hspace)] at hf
          obtain ⟨before, after, hsp, hpre, hpost⟩ := hwf.exists_cut (sequence.toInt - 1)
          rw [(h.cut_at hsp hpre hpost).1, h.transactions_append hsp,
            getElem?_append_right (by simp), length_transactionRowsFrom,
            Nat.sub_self] at hf
          cases after with
          | nil => cases hf
          | cons u rest =>
            rw [transactionRowsFrom, getElem?_cons_zero] at hf
            dsimp only at hf
            split at hf
            case isFalse => cases hf
            case isTrue hmat =>
                obtain ⟨hseq, hlt⟩ := hmat
                cases hf
                obtain ⟨i, hi⟩ := Int.eq_ofNat_of_zero_le hordinal
                rw [hi] at hlt
                have hin : i < u.acts.length := by omega
                have hrow := Ledger.operation_at hsp hin
                rw [hi, Int.toNat_add_nat (by omega), Int.toNat_natCast]
                refine ⟨_, hrow, _, rfl, ?_⟩
                dsimp only
                rw [hspace, h.spaceId, hseq, Term.same_self]
                rfl
        · rw [if_pos hspace] at hf
          cases hf
  · rintro ⟨row, hrow, t, rfl, hsame⟩
    have hmem := mem_of_getElem? hrow
    obtain ⟨hnext, hlen⟩ := h.sizes hsz
    obtain ⟨h1, h2, h3, h4⟩ := hwf.operation_bounds hmem
    obtain ⟨before, u, after, hsp, hseq, hin, hpos⟩ := exists_place hrow
    have hasc := hwf.ascending
    rw [hsp] at hasc
    obtain ⟨-, hpost, hpre⟩ := pairwise_append.mp hasc
    have hcut := h.cut_at hsp (fun s hs => by
        have := hpre s hs u (mem_cons_self ..)
        exact Int.le_sub_one_iff.mpr (hseq ▸ this)) fun s hs => by
      rcases mem_cons.mp hs with rfl | hs
      · omega
      · have := (pairwise_cons.mp hpost).1 s hs
        omega
    unfold exactOccurrencePosition
    dsimp only
    rw [eq_of_same_coordinate hsame, h.coordinateOf hwf hsz hmem]
    dsimp only
    rw [if_neg (not_not.mpr h.spaceId.symm), Int64.toInt_ofInt_of_lt h1 (by omega), hcut.1,
      h.transactions_append hsp, getElem?_append_right (by simp),
      length_transactionRowsFrom, Nat.sub_self, transactionRowsFrom, getElem?_cons_zero]
    dsimp only
    rw [Int64.toInt_ofInt_of_lt h3 (by omega), if_pos ⟨hseq, hin⟩, ← hpos, Int.toNat_natCast]

/-! ### Postings -/

/-- The postings of a handle are the positions of its operations, in order. -/
theorem operationPostingsFrom_at (h' : Int) : ∀ (rs : List OperationRow) (p : Nat) (ps : Postings),
      (operationPostingsFrom p rs ps).at h' = ps.at h' ++
        ((rs.zipIdx p).filter fun e => e.1.tripleHandle = h').map Prod.snd := by
  intro rs
  induction rs with
  | nil => intro p ps; exact (append_nil _).symm
  | cons row r ih =>
    intro p ps
    rw [operationPostingsFrom, ih, Postings.at_post, zipIdx_cons, filter_cons]
    by_cases hrow : row.tripleHandle = h'
    · rw [if_pos hrow, if_pos (decide_eq_true hrow), map_cons, append_assoc]
      rfl
    · rw [if_neg hrow, if_neg (by simpa using hrow)]

theorem operationPostings_spec (s : TermStore) (handle : Int) :
    ((operationPostings s).at handle).Pairwise (· < ·) ∧ ∀ p, p ∈ (operationPostings s).at handle ↔
        ∃ row, s.operations[p]? = some row ∧ row.tripleHandle = handle := by
  have hat := operationPostingsFrom_at handle s.operations 0 []
  have hn : Postings.at [] handle = [] := rfl
  rw [hn, nil_append] at hat
  unfold operationPostings
  rw [hat]
  constructor
  · have hsrt : (s.operations.zipIdx.map Prod.snd).Pairwise (· < ·) := by
      rw [zipIdx_map_snd]
      exact pairwise_lt_range'
    exact hsrt.sublist (filter_sublist.map _)
  · intro p
    rw [mem_map]
    constructor
    · rintro ⟨⟨row, i⟩, hmem, rfl⟩
      obtain ⟨hmem, hrow⟩ := mem_filter.mp hmem
      exact ⟨row, mem_zipIdx_iff_getElem?.mp hmem, of_decide_eq_true hrow⟩
    · rintro ⟨row, hget, hrow⟩
      exact ⟨(row, p), mem_filter.mpr ⟨mem_zipIdx_iff_getElem?.mpr hget,
        decide_eq_true hrow⟩, rfl⟩

/-- **The slice between two lower bounds is what lies between the two targets.** -/
theorem subvecWithin_bounds {ps : List Nat} (h : ps.Pairwise (· < ·))
    {s stop : Nat} (hle : s ≤ stop) :
    ∃ sl, subvecWithin ps (lowerBoundPosition ps s)
        (lowerBoundPosition ps stop) = .ok sl ∧ sl.Pairwise (· < ·) ∧
      ∀ p, p ∈ sl ↔ p ∈ ps ∧ s ≤ p ∧ p < stop := by
  obtain ⟨b, r, rfl, hpre, hre⟩ := exists_split h s
  obtain ⟨-, hsrt, -⟩ := pairwise_append.mp h
  obtain ⟨m, a, rfl, hmid, hpo⟩ := exists_split hsrt stop
  have hfst := lowerBoundPosition_append hpre hre
  have hl : lowerBoundPosition (b ++ (m ++ a)) stop = b.length + m.length := by
    rw [← append_assoc, ← length_append]
    refine lowerBoundPosition_append ?_ hpo
    intro p hp
    rcases List.mem_append.mp hp with hp | hp
    · have := hpre p hp
      omega
    · exact hmid p hp
  refine ⟨m, ?_, (pairwise_append.mp hsrt).1, ?_⟩
  · rw [hfst, hl, subvecWithin_ok (Nat.le_add_right ..) (by simp only [length_append]; omega)]
    unfold subvec
    rw [drop_left, Nat.add_sub_cancel_left, take_left]
  · intro p
    constructor
    · intro hp
      exact ⟨mem_append_right _ (mem_append_left _ hp), hre p (mem_append_left _ hp), hmid p hp⟩
    · rintro ⟨hp, hst, hs⟩
      rcases List.mem_append.mp hp with hp | hp
      · exact absurd (hpre p hp) (Nat.not_lt.mpr hst)
      · rcases List.mem_append.mp hp with hp | hp
        · exact hp
        · exact absurd hs (Nat.not_lt.mpr (hpo p hp))

/-! ### Candidates -/

/-- A bound proposition is known by the handle of an operation when it is its proposition. -/
theorem Holds.boundHandle_iff (h : Holds H root l) (hwf : l.Wf) {e : OperationOccurrence}
    (hev : RowOccurs l.rows l.spaceId row e) {w : BoundValue} :
    boundHandle H root w = some row.tripleHandle ↔
      ∃ t, w = .term t ∧ e.proposition.term.same t = true := by
  cases w with
  | foreign => exact ⟨nofun, fun ⟨_, heq, _⟩ => nomatch heq⟩
  | term t =>
    have hso : root.store.rows.Sound := by
      rw [h.rows]
      exact hwf.sound
    unfold boundHandle
    dsimp only
    rw [knownTermHandle_eq h.indexed, h.rows, Rows.known_iff hwf.distinct hwf.sound]
    constructor
    · rintro ⟨u, hu, hs⟩
      rw [hu.unique hev.denotes] at hs
      exact ⟨t, rfl, hs⟩
    · rintro ⟨_, ⟨⟩, hs⟩
      exact ⟨_, hev.denotes, hs⟩

/-- What is asked for, in the terms of the search. -/
theorem Ledger.Ranged.asked_iff {lo upp : Int} {past inside later : List Transaction}
    (hr : l.Ranged lo upp past inside later) (h : Holds H root l) (hwf : l.Wf)
    (hsz : MachineSized root.store) (coordinate proposition : Option BoundValue)
    (position : Nat) :
    Asked root.store lo upp coordinate proposition position ↔
      ∃ row, root.store.operations[position]? = some row ∧
        ((operationRangeBounds root.store lo upp).1 ≤ position ∧
          position < (operationRangeBounds root.store lo upp).2) ∧
        (∀ wanted, coordinate = some wanted →
          exactOccurrencePosition root.store wanted = some position) ∧
        ∀ wanted, proposition = some wanted →
          boundHandle H root wanted = some row.tripleHandle := by
  constructor
  · rintro ⟨row, event, hrow, hin, hev, hcoord, hprop⟩
    have hmem : row ∈ l.operations := by
      rw [← h.operations]
      exact mem_of_getElem? hrow
    obtain ⟨occurrence, hocc⟩ := hwf.occurs hmem
    rw [h.occurrenceAt hwf hmem hocc] at hev
    cases hev
    refine ⟨row, hrow, (hr.brackets h hrow).mpr hin, ?_, ?_⟩
    · intro wanted heq
      rw [h.exactPosition_iff hwf hsz, ← h.operations]
      exact ⟨row, hrow, hocc.coordinate ▸ hcoord wanted heq⟩
    · intro wanted heq
      exact (h.boundHandle_iff hwf hocc).mpr (hprop wanted heq)
  · rintro ⟨row, hrow, hbounds, hcoord, hprop⟩
    have hmem : row ∈ l.operations := by
      rw [← h.operations]
      exact mem_of_getElem? hrow
    obtain ⟨occurrence, hocc⟩ := hwf.occurs hmem
    refine ⟨row, occurrence, hrow, (hr.brackets h hrow).mp hbounds, h.occurrenceAt hwf hmem hocc,
      ?_, ?_⟩
    · intro wanted heq
      obtain ⟨found, hf, t, ht, hsame⟩ :=
        (h.exactPosition_iff hwf hsz).mp (hcoord wanted heq)
      rw [← h.operations, hrow] at hf
      cases hf
      exact ⟨t, ht, by rw [hocc.coordinate]; exact hsame⟩
    · intro wanted heq
      exact (h.boundHandle_iff hwf hocc).mp (hprop wanted heq)

/-- **The candidates are the operations that are asked for.** -/
theorem Ledger.Ranged.candidates {lo upp : Int} {past inside later : List Transaction}
    (hr : l.Ranged lo upp past inside later) (h : Holds H root l) (hwf : l.Wf)
    (hsz : MachineSized root.store) (co pr : Option BoundValue) :
    ∃ ps, operationCandidatePositions H root lo upp co pr
        (operationPostings root.store) = .ok ps ∧ ps.Pairwise (· < ·) ∧
      ∀ position, position ∈ ps ↔ Asked root.store lo upp co pr position := by
  have ha := hr.asked_iff h hwf hsz co pr
  have hle : (operationRangeBounds root.store lo upp).1
      ≤ (operationRangeBounds root.store lo upp).2 := by
    unfold operationRangeBounds
    dsimp only
    rw [(hr.first h).2, (hr.stop h).2]
    exact Nat.le_add_right ..
  have hst : (operationRangeBounds root.store lo upp).2 ≤ root.store.operations.length := by
    unfold operationRangeBounds
    dsimp only
    rw [(hr.stop h).2, hr.operations h, length_append, length_append]
    omega
  unfold operationCandidatePositions
  dsimp only
  generalize operationRangeBounds root.store lo upp = bounds at ha hle hst ⊢
  obtain ⟨s, sp⟩ := bounds
  dsimp only at ha hle hst ⊢
  simp only [ha]
  cases co with
  | none =>
    cases pr with
    | none =>
      refine ⟨_, rfl, pairwise_lt_range', ?_⟩
      intro position
      rw [mem_range'_1]
      constructor
      · rintro ⟨hfst, hl⟩
        exact ⟨_, getElem?_eq_getElem (by omega), ⟨hfst, by omega⟩, nofun, nofun⟩
      · rintro ⟨row, -, hb, -⟩
        omega
    | some w =>
      rw [Option.bind_some]
      cases hh : boundHandle H root w with
      | none =>
        refine ⟨[], rfl, List.Pairwise.nil, ?_⟩
        intro position
        refine ⟨nofun, ?_⟩
        rintro ⟨row, -, -, -, hk⟩
        exact nomatch hh.symm.trans (hk w rfl)
      | some h' =>
        obtain ⟨hsrt, hp⟩ := operationPostings_spec root.store h'
        obtain ⟨sl, hsl, hasc, hmem⟩ := subvecWithin_bounds hsrt hle
        refine ⟨sl, ?_, hasc, ?_⟩
        · dsimp only
          rw [hsl]
          rfl
        · intro position
          rw [hmem, hp]
          constructor
          · rintro ⟨⟨row, hrow, rfl⟩, hb⟩
            refine ⟨row, hrow, hb, nofun, ?_⟩
            rintro _ ⟨⟩
            exact hh
          · rintro ⟨row, hrow, hb, -, hk⟩
            have hs := hh.symm.trans (hk w rfl)
            exact ⟨⟨row, hrow, (Option.some.inj hs).symm⟩, hb⟩
  | some n =>
    dsimp only
    cases he : exactOccurrencePosition root.store n with
    | none =>
      refine ⟨[], ?_, List.Pairwise.nil, ?_⟩
      · cases pr <;> rfl
      · intro position
        refine ⟨nofun, ?_⟩
        rintro ⟨row, -, -, hn, -⟩
        exact nomatch he.symm.trans (hn n rfl)
    | some exact =>
      have ho : ∀ position, (∃ row, root.store.operations[position]? = some row ∧
          (s ≤ position ∧ position < sp) ∧
          (∀ w, some n = some w → exactOccurrencePosition root.store w = some position) ∧
          ∀ w, pr = some w → boundHandle H root w = some row.tripleHandle) ↔
          position = exact ∧ (s ≤ exact ∧ exact < sp) ∧
            ∃ row, root.store.operations[exact]? = some row ∧ ∀ w, pr = some w →
                boundHandle H root w = some row.tripleHandle := by
        intro position
        constructor
        · rintro ⟨row, hrow, hb, hn, hk⟩
          have hs := he.symm.trans (hn n rfl)
          cases Option.some.inj hs
          exact ⟨rfl, hb, row, hrow, hk⟩
        · rintro ⟨rfl, hb, row, hrow, hk⟩
          refine ⟨row, hrow, hb, ?_, hk⟩
          rintro _ ⟨⟩
          exact he
      simp only [ho]
      by_cases hin : s ≤ exact ∧ exact < sp
      · rw [if_pos hin]
        have hrow : root.store.operations[exact]? = some root.store.operations[exact] :=
          getElem?_eq_getElem (by omega)
        cases pr with
        | none =>
          refine ⟨[exact], rfl, pairwise_singleton _ _, ?_⟩
          intro position
          rw [mem_singleton]
          exact ⟨fun heq => ⟨heq, hin, _, hrow, nofun⟩, And.left⟩
        | some w =>
          refine ⟨_, rfl, (pairwise_singleton _ exact).filter _, ?_⟩
          intro position
          rw [mem_filter, mem_singleton, Option.bind_some]
          constructor
          · rintro ⟨rfl, hk⟩
            rw [hrow] at hk
            refine ⟨rfl, hin, _, hrow, ?_⟩
            rintro _ ⟨⟩
            exact of_decide_eq_true hk
          · rintro ⟨rfl, -, row, hat, hk⟩
            rw [hat]
            exact ⟨rfl, decide_eq_true (hk w rfl)⟩
      · rw [if_neg hin]
        refine ⟨[], ?_, List.Pairwise.nil, fun position => ⟨nofun, fun h => absurd h.2.1 hin⟩⟩
        cases pr <;> rfl

/-! ### Bounds the wrong way round -/

/-- With a transaction between reversed bounds the slice is no slice. -/
theorem Holds.reversed (h : Holds H root l) (hwf : l.Wf) {lo upp : Int}
    (hrev : ¬NoneReversed root.store lo upp) :
    transactionRecordsBetween root.store lo upp = .error .trap := by
  obtain ⟨row, hrow, hin⟩ : ∃ row ∈ root.store.transactions, InRange upp lo row.sequence := by
    unfold NoneReversed at hrev
    push Not at hrev
    exact hrev
  rw [h.transactions] at hrow
  obtain ⟨t, ht, heq⟩ := mem_transactionRowsFrom hrow
  rw [heq] at hin
  obtain ⟨past, r, hlo, hp, hre⟩ := hwf.exists_cut lo
  obtain ⟨up, os, hup, hu, hos⟩ := hwf.exists_cut upp
  have hm : up.length < past.length := by
    rcases append_eq_append_iff.mp (hlo.symm.trans hup) with
      ⟨m, rfl, -⟩ | ⟨m, rfl, -⟩
    · have hmem : t ∈ past := by
        rw [hlo] at ht
        rcases List.mem_append.mp ht with ht | ht
        · exact ht
        · exact absurd hin.2 (Int.not_le.mpr (hre t ht))
      have := hu t (mem_append_left _ hmem)
      exact absurd hin.1 (Int.not_lt.mpr this)
    · cases m with
      | cons u m => rw [length_append, length_cons]; omega
      | nil =>
        rw [append_nil] at hlo hp
        rw [hlo] at ht
        rcases List.mem_append.mp ht with ht | ht
        · exact absurd hin.1 (Int.not_lt.mpr (hu t ht))
        · exact absurd hin.2 (Int.not_le.mpr (hre t ht))
  unfold transactionRecordsBetween
  dsimp only
  rw [(h.cut_at hlo hp hre).1, (h.cut_at hup hu hos).1]
  unfold subvecWithin
  rw [if_neg (by omega)]
  rfl

end

/-! ### Every reachable store -/

/-- **Searching a range is exact unless the bounds are the wrong way round**, when no dump that the
    run loads repeats a row. -/
theorem range_search_exact_iff {H : Hashing} {spaceId : String} {root : Root}
    {calls : List StoreCall} (hloads : ∀ call ∈ calls, call.LoadsDistinct)
    (hrun : reachedStore H spaceId calls = some root) (hsized : MachineSized root.store)
    (lower upper : Int) :
    RangeSearchExact H root lower upper ↔ NoneReversed root.store lower upper := by
  obtain ⟨l, h, hs⟩ := reachedStore_settled hloads hrun
  constructor
  · intro he
    by_contra hrev
    obtain ⟨rcs, hre, -⟩ := he.records
    rw [h.reversed hs.wf hrev] at hre
    cases hre
  · intro hn
    obtain ⟨past, inside, later, hr⟩ := h.ranged hs.wf hn
    exact ⟨hr.records h hs.wf hsized, fun p row hrow => hr.brackets h hrow,
      hr.candidates h hs.wf hsized⟩

/-- The proposition of the greeting. -/
def greetingTriple : Triple := ⟨.atom (.string "a"), .atom (.string "b"), .atom (.bool true)⟩

/-- The greeting and its withdrawal are found in the range that has both. -/
theorem greeting_range_is_exact :
    ∃ root, reachedStore Hashing.fnv "s" [.load greetingDump, withdrawGreeting] = some root ∧
      RangeSearchExact Hashing.fnv root 0 2 := by
  have hs : (reachedStore Hashing.fnv "s" [.load greetingDump, withdrawGreeting]).map
      (fun root => (root.store.nextSequence, root.store.operations.length,
        root.store.transactions)) = some (3, 2, [⟨1, 0, 1⟩, ⟨2, 1, 1⟩]) := by
    decide +kernel
  obtain ⟨root, hrun, hs⟩ := Option.map_eq_some_iff.mp hs
  simp only [Prod.mk.injEq] at hs
  obtain ⟨hn, hlen, ht⟩ := hs
  refine ⟨root, hrun, (range_search_exact_iff ?_ hrun ?_ 0 2).mpr ?_⟩
  · intro cl hcall
    rcases mem_cons.mp hcall with rfl | hcall
    · exact ⟨by decide, by decide⟩
    · rw [mem_singleton.mp hcall]
      trivial
  · exact ⟨by rw [hn]; decide, by rw [hlen]; decide⟩
  · intro row hrow hin
    unfold InRange at hin
    omega

/-- The records between 1 and 0 are no slice of a store with a transaction 1; and the operation on a
    repeated row is not among the candidates of its own proposition. -/
theorem range_searches_that_fail :
    (∃ root, reachedStore Hashing.fnv "s" [.load greetingDump] = some root ∧
      ¬RangeSearchExact Hashing.fnv root 1 0) ∧
    ∃ root, reachedStore Hashing.fnv "s" [.load repeatedDump] = some root ∧
      ¬RangeSearchExact Hashing.fnv root 0 1 := by
  constructor
  · have hs : (reachedStore Hashing.fnv "s" [.load greetingDump]).map
        (fun root => (transactionRecordsBetween root.store 1 0).toOption) = some none := by
      decide +kernel
    obtain ⟨root, hrun, hs⟩ := Option.map_eq_some_iff.mp hs
    refine ⟨root, hrun, fun he => ?_⟩
    obtain ⟨rcs, hre, -⟩ := he.records
    rw [hre] at hs
    cases hs
  · have hs : (reachedStore Hashing.fnv "s" [.load repeatedDump]).map
        (fun root => ((operationCandidatePositions Hashing.fnv root 0 1 none
            (some (.term greetingTriple.term)) (operationPostings root.store)).toOption,
          root.store.operations,
          (operationOccurrenceAt root.store ⟨1, 0, .assert, tripleHandle 1⟩).toOption))
        = some (some [], [⟨1, 0, .assert, tripleHandle 1⟩],
          some ⟨occurrenceCoordinate (transactionCoordinate "s" 1) 0, .assert, greetingTriple⟩) := by
      decide +kernel
    obtain ⟨root, hrun, hs⟩ := Option.map_eq_some_iff.mp hs
    refine ⟨root, hrun, fun he => ?_⟩
    simp only [Prod.mk.injEq] at hs
    obtain ⟨hc, hops, hev⟩ := hs
    obtain ⟨ps, hp, -, ha⟩ :=
      he.candidates none (some (.term greetingTriple.term))
    rw [toOption_eq_some hc] at hp
    cases hp
    refine nomatch (ha 0).mpr ⟨_, _, by rw [hops]; rfl, ?_, toOption_eq_some hev, nofun, ?_⟩
    · unfold InRange
      decide
    · rintro _ ⟨⟩
      exact ⟨_, rfl, by decide⟩

end Beagle.Store
