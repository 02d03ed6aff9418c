/-
Committing, and what is encoded of a commit.

The record that is written for a commit has the propositions as the store resolves
them, which need not be the ones that were committed: an atom is found under an equal
one.  Committing the record to the ledger from before the commit comes to the same
ledger all the same, row for row.
-/
import Beagle.Ledger.Log
import Beagle.Proofs.Refinement

namespace Beagle.Store

open Beagle.Lib List

section

variable {H : Hashing}

/-! ### Committing -/

/-- The bound every store's sequence keeps to: it is a machine integer. -/
def sequenceBound : Int := 9223372036854775807

variable {r : Root} {l : Ledger} {sq : Int} {ops : List CommitOperation}

/-- **A commit that completes commits to the ledger.** -/
theorem commitBoundary_spec {r' : Root} (h : Holds H r l) (hwf : l.Wf)
    {m : CommitMetadata} {c : Triple}
    (hok : commitBoundary H r ops m = .ok (r', c)) :
    validOperations ops = true ∧ l.nextSequence ≠ sequenceBound ∧
      Holds H r' (l.commit l.nextSequence ops) ∧
      (l.commit l.nextSequence ops).Wf ∧
      r'.store.foldOpen = r.store.foldOpen ∧ Grows r.cells r'.cells := by
  unfold commitBoundary at hok
  cases hm : canonicalValidateCommit ops m with
  | error fa =>
    rw [hm] at hok
    cases hok
  | ok v =>
    rw [hm] at hok
    have hok : appendTransaction H r r.store.nextSequence ops = .ok (r', c) := hok
    unfold appendTransaction at hok
    by_cases hv : validOperations ops = true
    · rw [if_neg (by simp [hv]), if_neg (Int.lt_irrefl _), h.nextSequence] at hok
      by_cases hmax : l.nextSequence = sequenceBound
      · have ht : appendValidTransaction H r l.nextSequence ops = .error .trap := by
          unfold appendValidTransaction
          rw [hmax]
          exact appendTransactionRows_trap _ _
        rw [ht] at hok
        cases hok
      · obtain ⟨f, hfin, hhd, hf, hg⟩ :=
          appendValidTransaction_spec h hmax ops
        rw [hfin] at hok
        have hok : (if validSpaceId f.store.spaceId ∧ 0 ≤ l.nextSequence then _ else _)
          = Except.ok (r', c) := hok
        split at hok
        · cases hok
          exact ⟨hv, hmax, hhd, hwf.commit hv (Int.le_refl _), hf, hg⟩
        · cases hok
    · rw [if_pos (by simp [hv])] at hok
      cases hok

/-- A commit of valid operations returns, unless the sequences are used up. -/
theorem Holds.commits (h : Holds H r l) (hwf : l.Wf) {ops : List CommitOperation}
    {m : CommitMetadata} (hval : validOperations ops = true)
    (hr : r.store.nextSequence ≠ sequenceBound) (hm : (canonicalValidateCommit ops m).isOk = true) :
    ∃ root' coordinate, commitBoundary H r ops m = .ok (root', coordinate) := by
  obtain ⟨validated, hva⟩ : ∃ validated, canonicalValidateCommit ops m = .ok validated := by
    cases hv : canonicalValidateCommit ops m with
    | ok validated => exact ⟨validated, rfl⟩
    | error f => rw [hv] at hm; cases hm
  rw [h.nextSequence] at hr
  obtain ⟨root', hok, hhd, -⟩ := appendValidTransaction_spec h hr ops
  have hs : validSpaceId root'.store.spaceId = true := by
    rw [hhd.spaceId]
    exact decide_eq_true hwf.space
  have hpos := hwf.nextSequence_pos
  refine ⟨root', transactionCoordinate root'.store.spaceId l.nextSequence, ?_⟩
  unfold commitBoundary
  rw [hva, h.nextSequence]
  show appendTransaction H r l.nextSequence ops = _
  unfold appendTransaction
  rw [if_neg (by simp [hval]), if_neg (by rw [h.nextSequence]; omega), hok]
  exact if_pos ⟨hs, by omega⟩

/-! ### Committing what was resolved -/

/-- **Interning again what was interned gives the same rows and handles.** -/
theorem Rows.internAll_again {rs : Rows} (hd : Rows.Distinct rs) (hs : Rows.Sound rs)
    (ts : List Term) :
    ∀ ts' : List Term, Forall₂ (Rows.Denotes (rs.internAll ts).1) (rs.internAll ts).2 ts' →
        rs.internAll ts' = rs.internAll ts := by
  induction ts generalizing rs with
  | nil =>
    intro ts' h
    cases h
    rfl
  | cons t ts ih =>
    intro ts' h
    obtain ⟨t', r, hden, hr, rfl⟩ := forall₂_cons_left_iff.mp h
    have hs1 := Rows.intern_sound hs t
    have hd1 := Rows.intern_distinct hd t
    have hfst : rs.intern t' = rs.intern t :=
      Rows.intern_again hd hs (hden.restrict hs1 (Rows.internAll_extends _ ts)
        (Rows.intern_valid rs t))
    have hos := ih hd1 hs1 r hr
    unfold Rows.internAll
    rw [hfst]
    dsimp only
    rw [hos]

/-- A commit of the propositions that the handles of a commit denote is that commit. -/
theorem Ledger.commit_again (hwf : l.Wf) {operations rd : List CommitOperation}
    (hac : rd.map CommitOperation.action = operations.map CommitOperation.action)
    (hden : Forall₂ (Rows.Denotes (l.commit sq operations).rows)
      (l.rows.internAll (propositions operations)).2 (propositions rd)) :
    l.commit sq rd = l.commit sq operations := by
  have ha := Rows.internAll_again hwf.distinct hwf.sound (propositions operations) _ hden
  unfold Ledger.commit
  rw [ha, hac]

/-! ### Reading the last record back -/

theorem firstTransactionAfter_append {b a : List TransactionRow}
    (hpre : ∀ row ∈ b, row.sequence ≤ sq)
    (hp : ∀ row ∈ a, sq < row.sequence) :
    firstTransactionAfter (b ++ a) sq = b.length := by
  unfold firstTransactionAfter
  refine bisect_eq ⟨by rw [length_append]; omega, ?_, ?_⟩
  · intro i hi
    have hle := hpre b[i] (getElem_mem hi)
    rw [getElem?_append_left hi, getElem?_eq_getElem hi]
    simp [hle]
  · intro i hi hlt
    rw [length_append] at hlt
    have hin : i - b.length < a.length := by omega
    have hgt := hp a[i - b.length] (getElem_mem hin)
    rw [getElem?_append_right hi, getElem?_eq_getElem hin]
    simp [hgt]

theorem mem_transactionRowsFrom {first : Nat} {ts : List Transaction} {row : TransactionRow}
    (h : row ∈ transactionRowsFrom first ts) : ∃ t ∈ ts, row.sequence = t.sequence := by
  induction ts generalizing first with
  | nil => exact absurd h not_mem_nil
  | cons t ts ih =>
    rcases mem_cons.mp h with rfl | h
    · exact ⟨t, mem_cons_self .., rfl⟩
    · obtain ⟨u, hu, heq⟩ := ih h
      exact ⟨u, mem_cons_of_mem _ hu, heq⟩

theorem resolveOperations_spec {s : TermStore} (hs : s.rows.Sound) (a : List (Action × Int)) :
    ∀ (n : Nat) (rd : List CommitOperation),
      resolveOperations s (operationRowsFrom sq n a) = .ok rd →
        rd.map CommitOperation.action = a.map Prod.fst ∧
          Forall₂ s.rows.Denotes (a.map Prod.snd) (propositions rd) := by
  induction a with
  | nil =>
    intro n rd h
    cases h
    exact ⟨rfl, Forall₂.nil⟩
  | cons act a ih =>
    intro n rd h
    obtain ⟨ac, h'⟩ := act
    obtain ⟨pr, hp, h⟩ := except_bind_ok.mp h
    obtain ⟨os, hos, h⟩ := except_bind_ok.mp h
    cases h
    obtain ⟨ha, hden⟩ := ih (n + 1) os hos
    exact ⟨congrArg (List.cons ac) ha, Forall₂.cons ((resolveTripleHandle_iff hs).mp hp) hden⟩

theorem Int64.toInt_ofInt_of_lt {n : Int} (h0 : 0 ≤ n) (h : n ≤ sequenceBound) :
    (Int64.ofInt n).toInt = n := by
  unfold sequenceBound at h
  rw [Int64.toInt_ofInt_of_le (by omega) (by omega)]

/-- The one record past the sequence before a commit. -/
theorem transactionRecordsBetween_commit (hwf : l.Wf) {operations : List CommitOperation}
    (h : Holds H r (l.commit l.nextSequence operations)) {rcs : List TransactionRecord}
    (hok : transactionRecordsBetween r.store (l.nextSequence - 1) l.nextSequence = .ok rcs) :
    ∃ rd, rcs = [⟨Int64.ofInt l.nextSequence, rd⟩] ∧
      rd.map CommitOperation.action = operations.map CommitOperation.action ∧
      l.commit l.nextSequence rd = l.commit l.nextSequence operations := by
  let i := l.rows.internAll (propositions operations)
  let acts := (operations.map CommitOperation.action).zip i.2
  have hlen : i.2.length = (operations.map CommitOperation.action).length := by
    rw [Rows.length_internAll, propositions, length_map, length_map]
  have hac : acts.map Prod.fst = operations.map CommitOperation.action :=
    map_fst_zip (Nat.le_of_eq hlen.symm)
  have hh : acts.map Prod.snd = i.2 := map_snd_zip (Nat.le_of_eq hlen)
  have htx : r.store.transactions
      = l.transactions ++ [⟨l.nextSequence, l.operations.length, acts.length⟩] := by
    rw [h.transactions]
    exact Ledger.append_transactions { l with rows := i.1 } _ _
  have hops : r.store.operations = l.operations ++ operationRowsFrom l.nextSequence 0 acts := by
    rw [h.operations]
    exact Ledger.append_operations { l with rows := i.1 } _ _
  have he : ∀ row ∈ l.transactions, row.sequence ≤ l.nextSequence - 1 := by
    intro row hrow
    obtain ⟨t, ht, heq⟩ := mem_transactionRowsFrom hrow
    have := hwf.sequence_lt ht
    omega
  have hfst : firstTransactionAfter r.store.transactions (l.nextSequence - 1)
      = l.transactions.length := by
    rw [htx]
    refine firstTransactionAfter_append he ?_
    intro row hrow
    rw [mem_singleton.mp hrow]
    exact Int.sub_one_lt_iff.mpr (Int.le_refl _)
  have hst : firstTransactionAfter r.store.transactions l.nextSequence
      = l.transactions.length + 1 := by
    have hn : firstTransactionAfter (r.store.transactions ++ []) l.nextSequence
        = r.store.transactions.length := firstTransactionAfter_append ?_ (by simp)
    · rw [append_nil] at hn
      rw [hn, htx, length_append]
      rfl
    · intro row hrow
      rw [htx] at hrow
      rcases List.mem_append.mp hrow with hrow | hrow
      · have := he row hrow
        omega
      · rw [mem_singleton.mp hrow]
  have hrow : subvec r.store.transactions l.transactions.length (l.transactions.length + 1)
      = [⟨l.nextSequence, l.operations.length, acts.length⟩] := by
    unfold subvec
    rw [htx, drop_left, Nat.add_sub_cancel_left]
    rfl
  have hro : subvec r.store.operations l.operations.length (l.operations.length + acts.length)
      = operationRowsFrom l.nextSequence 0 acts := by
    unfold subvec
    rw [hops, drop_left, Nat.add_sub_cancel_left,
      take_of_length_le (by rw [length_operationRowsFrom])]
  unfold transactionRecordsBetween at hok
  rw [hfst, hst] at hok
  dsimp only at hok
  rw [subvecWithin_ok (Nat.le_add_right _ 1) (by rw [htx, length_append]; rfl), hrow] at hok
  obtain ⟨rows, ⟨⟩, hok⟩ := except_bind_ok.mp hok
  obtain ⟨rc, hrec, hok⟩ := except_bind_ok.mp hok
  cases hok
  unfold transactionRecordAt at hrec
  obtain ⟨rd, hr, hrec⟩ := except_bind_ok.mp hrec
  cases hrec
  dsimp only at hr
  rw [Int.toNat_natCast, Int.toNat_natCast, hro] at hr
  have hs : r.store.rows.Sound := by
    rw [h.rows]
    exact Rows.internAll_sound hwf.sound _
  obtain ⟨ha, hden⟩ := resolveOperations_spec hs acts 0 rd hr
  rw [hac] at ha
  rw [hh, h.rows] at hden
  exact ⟨rd, rfl, ha, Ledger.commit_again hwf ha hden⟩

/-- **What is encoded after a commit is a record that a replay commits alike.** -/
theorem encodeStoreAppend_commit (hwf : l.Wf)
    (hbo : l.nextSequence < sequenceBound)
    (h : Holds H r (l.commit l.nextSequence ops)) {chunk : List UInt8}
    (hok : encodeStoreAppend r (l.nextSequence - 1) = .ok chunk) :
    ∃ rc, appendRecordBytes rc = .ok chunk ∧ rc.sequence.toInt = l.nextSequence ∧
      rc.operations.map CommitOperation.action = ops.map CommitOperation.action ∧
      l.replay rc = some (l.commit l.nextSequence ops) := by
  have hpos := hwf.nextSequence_pos
  have hcur : currentSequence r.store = l.nextSequence := by
    unfold currentSequence
    rw [h.nextSequence]
    exact (congrArg (· - 1) (Ledger.append_nextSequence _ _ _)).trans (Int.add_sub_cancel _ 1)
  unfold encodeStoreAppend at hok
  rw [hcur] at hok
  dsimp only at hok
  rw [if_neg (by omega), if_neg (by omega), if_neg (by omega)] at hok
  cases hb : transactionRecordsBetween r.store (l.nextSequence - 1) l.nextSequence with
  | error f =>
    rw [hb] at hok
    cases hok
  | ok rcs =>
    obtain ⟨rd, rfl, ha, hcom⟩ := transactionRecordsBetween_commit hwf h hb
    rw [hb] at hok
    have hseq : (Int64.ofInt l.nextSequence).toInt = l.nextSequence :=
      Int64.toInt_ofInt_of_lt (by omega) (Int.le_of_lt hbo)
    refine ⟨⟨Int64.ofInt l.nextSequence, rd⟩, ?_, hseq, ha, ?_⟩
    · cases happ : appendRecordBytes ⟨Int64.ofInt l.nextSequence, rd⟩ with
      | error m =>
        have hok : (appendRecordBytes _).mapError _ = Except.ok chunk := hok
        rw [happ] at hok
        cases hok
      | ok bs =>
        have hok : (appendRecordBytes _).mapError _ = Except.ok chunk := hok
        rw [happ] at hok
        cases hok
        rfl
    · have hacc : l.accepts ⟨Int64.ofInt l.nextSequence, rd⟩ := by
        unfold sequenceBound at hbo
        unfold Ledger.accepts maxTransactionSequence
        dsimp only
        omega
      rw [Ledger.replay_accepted hacc, ← hcom]
      dsimp only
      rw [hseq]

end

end Beagle.Store
