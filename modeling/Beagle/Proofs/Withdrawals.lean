/-
Loading a dump.

A load takes the rows of the dump as they are, builds tables that cover them, and
folds the operation rows again.  When no row of the dump equals a later one, the
store it leaves holds the ledger the dump is of.

Withdrawals.

A retraction withdraws the newest live assertion of its proposition.  Here that is
stated of a store as its readers see it, with a proposition taken for the Triple its
handle resolves to, and it is shown of every store that holds a settled ledger.
-/
import Beagle.Ledger.Nan
import Beagle.Proofs.Booting

namespace Beagle.Store

open Beagle.Lib List

section

variable {H : Hashing}

/-- What folding a list of operation rows again does. -/
structure Refolded (H : Hashing) (root root' : Root) (acts : List (Lifo.Act Int)) : Prop where
  indexed : Indexed H root'
  shaped : Shaped root'.store
  derived : DerivedFrom H acts root'
  keeps : KeepsHistory root.store root'.store

theorem applyOperationRows_spec :
    ∀ (rs : List OperationRow) (a : List (Lifo.Act Int)) (rt : Root), Indexed H rt →
      Shaped rt.store → DerivedFrom H a rt →
      Refolded H rt (applyOperationRows H a.length rs rt) (a ++ actsOf rs) := by
  intro rs
  induction rs with
  | nil =>
    intro a rt h hs hd
    refine ⟨h, hs, ?_, KeepsHistory.refl _⟩
    rw [actsOf, map_nil, append_nil]
    exact hd
  | cons row rs ih =>
    intro a rt h hs hd
    obtain ⟨i1, s1, d1, k1, -⟩ := applyOperationState_spec h hs hd (r := row) rfl
    have := ih (a ++ [row.act]) _ i1 s1 d1
    rw [length_append, length_singleton, append_assoc] at this
    exact ⟨this.indexed, this.shaped, this.derived, k1.trans this.keeps⟩

theorem derivedFrom_nil {rt : Root} (h : Indexed H rt) (hb : rt.store.activeBuckets = [])
    (ht : rt.store.withdrawalTargets = []) : DerivedFrom H [] rt := by
  refine ⟨ht, ?_⟩
  intro k
  rw [activePositions_eq h]
  unfold bucketHandles
  rw [hb]
  rfl

/-- Tables built from distinct rows cover them. -/
theorem loadedRoot_indexed (cs : SlotCells) (d : TermStoreDump)
    (hd : Rows.Distinct ⟨d.atoms, d.triples⟩) : Indexed H (loadedRoot H cs d) := by
  refine ⟨?_, ?_, ?_, hd, KeyIndex.distinct_nil⟩
  · show KeyIndex.Covers _ _ (SlotCells.table _ (cs.length + 0))
    rw [loadedRoot, table_append_right]
    exact covers_buildSlots _ _ (termSlotsWidthFor_pos _)
  · show KeyIndex.Covers _ _ (SlotCells.table _ (cs.length + 1))
    rw [loadedRoot, table_append_right]
    exact covers_buildSlots _ _ (termSlotsWidthFor_pos _)
  · show KeyIndex.Covers _ [] (SlotCells.table _ (cs.length + 2))
    rw [loadedRoot, table_append_right]
    exact covers_freshSlots _ (by decide)

/-- **Rebuilding folds the operation rows again**, and changes nothing else. -/
theorem rebuildOperationState_spec {rt : Root} (h : Indexed H rt) :
    Indexed H (rebuildOperationState H rt) ∧ Shaped (rebuildOperationState H rt).store ∧
      DerivedFrom H (actsOf rt.store.operations) (rebuildOperationState H rt) ∧
      dumpTermStore (rebuildOperationState H rt).store = dumpTermStore rt.store ∧
      (rebuildOperationState H rt).store.foldOpen = false := by
  let emptied : Root :=
    { cells := rt.cells ++ [freshSlots (termSlotsWidthFor rt.store.operations.length)]
      store := { rt.store with
        withdrawalTargets := []
        activeBuckets := []
        activeCells := []
        foldOpen := false
        activeSlots := rt.cells.length } }
  have hg : Grows rt.cells emptied.cells := grows_append _ _
  have hi : Indexed H emptied := by
    refine ⟨h.atoms.extend (hg.table _ h.atomSlots_lt),
      h.triples.extend (hg.table _ h.tripleSlots_lt), ?_, h.distinct, KeyIndex.distinct_nil⟩
    show KeyIndex.Covers _ [] (SlotCells.table (rt.cells ++ _) (rt.cells.length + 0))
    rw [table_append_right]
    exact covers_freshSlots _ (termSlotsWidthFor_pos _)
  have ho : Indexed H (openFold emptied) :=
    ⟨hi.atoms, hi.triples, hi.buckets, hi.distinct, hi.distinctBuckets⟩
  have hfo := applyOperationRows_spec (H := H) rt.store.operations [] (openFold emptied) ho
    ⟨rfl, fun hf => absurd hf (by simp [openFold, emptied])⟩
    (derivedFrom_nil ho rfl rfl)
  rw [nil_append, length_nil] at hfo
  let folded := applyOperationRows H 0 rt.store.operations (openFold emptied)
  have hrun : rebuildOperationState H rt = closeFold folded := rfl
  -- The fold holds whatever ledger the rows are of; closing it is the same for each.
  have hc := closeFold_derived hfo.indexed hfo.shaped hfo.derived
  rw [hrun]
  refine ⟨hc.1, hc.2.1, hc.2.2.1, ?_, hc.2.2.2.2⟩
  rw [hc.2.2.2.1]
  have hk := hfo.keeps
  unfold dumpTermStore
  rw [hk.spaceId, hk.nextSequence, hk.atoms, hk.triples, hk.transactions, hk.operations]
  rfl

/-! ### The dump through the derived state -/

theorem setActivePositions_dump (rt : Root) (h' : Int) (ps : List Nat) :
    dumpTermStore (setActivePositions H rt h' ps).store = dumpTermStore rt.store := by
  unfold setActivePositions
  cases findActiveBucketPosition H rt h' with
  | some ks =>
    dsimp only
    split <;> rfl
  | none =>
    dsimp only
    split <;> split <;> rfl

theorem applyOperationState_dump (rt : Root) (position : Nat) (row : OperationRow) :
    dumpTermStore (applyOperationState H rt position row).store = dumpTermStore rt.store := by
  unfold applyOperationState
  dsimp only
  split
  · exact setActivePositions_dump _ _ _
  · cases (activePositions H rt row.tripleHandle).getLast? with
    | none => rfl
    | some t => exact setActivePositions_dump _ _ _

theorem applyOperationRows_dump (rs : List OperationRow) : ∀ (position : Nat) (rt : Root),
      dumpTermStore (applyOperationRows H position rs rt).store = dumpTermStore rt.store := by
  induction rs with
  | nil => intro position rt; rfl
  | cons row r ih =>
    intro position rt
    exact (ih _ _).trans (applyOperationState_dump rt position row)

theorem openFold_dump (rt : Root) : dumpTermStore (openFold rt).store = dumpTermStore rt.store := by
  unfold openFold
  split <;> rfl

theorem closeFold_dump (rt : Root) :
    dumpTermStore (closeFold rt).store = dumpTermStore rt.store := by
  unfold closeFold
  split <;> rfl

/-- Rebuilding keeps the dump, whatever the rows. -/
theorem rebuildOperationState_dump (rt : Root) :
    dumpTermStore (rebuildOperationState H rt).store = dumpTermStore rt.store :=
  (closeFold_dump _).trans ((applyOperationRows_dump _ _ _).trans (openFold_dump _))

variable {r' : Root} {d : TermStoreDump}

/-- What a load accepts is the dump of a ledger whose rows may repeat, and it keeps the dump. -/
theorem loadTermStoreResult_checked {rt : Root}
    (h : loadTermStoreResult H rt d = .ok r') :
    (∃ l : Ledger, l.dump = d ∧ l.Checked) ∧ dumpTermStore r'.store = d ∧
      r' = rebuildOperationState H (loadedRoot H rt.cells d) := by
  unfold loadTermStoreResult at h
  by_cases hv : termStoreDumpVersion ≠ d.version
  · rw [if_pos hv] at h
    cases h
  rw [if_neg hv] at h
  have hver := Decidable.not_not.mp hv
  by_cases hr : (!validRows d) = true
  · rw [if_pos hr] at h
    cases h
  rw [if_neg hr] at h
  by_cases hs : rt.store.spaceId ≠ d.spaceId
  · rw [if_pos hs] at h
    cases h
  rw [if_neg hs] at h
  cases h
  refine ⟨exists_ledger_of_validRows (by simpa using hr) hver.symm, ?_, rfl⟩
  rw [rebuildOperationState_dump]
  unfold dumpTermStore
  rw [hver]
  rfl

/-- **A load that succeeds leaves a store that holds the dump's ledger**, if no row of the dump
    equals a later one. -/
theorem loadTermStoreResult_spec {rt : Root}
    (hd : Rows.Distinct ⟨d.atoms, d.triples⟩)
    (h : loadTermStoreResult H rt d = .ok r') :
    ∃ l : Ledger, l.dump = d ∧ l.Wf ∧ l.rows.NanFree ∧ Holds H r' l ∧
      r'.store.foldOpen = false := by
  obtain ⟨⟨l, hl, hc⟩, hdu, rfl⟩ := loadTermStoreResult_checked h
  obtain ⟨hi, hs, hder, -, hf⟩ :=
    rebuildOperationState_spec (loadedRoot_indexed (H := H) rt.cells d hd)
  have hr : l.rows = ⟨d.atoms, d.triples⟩ := by
    rw [← hl]
    rfl
  have hops : l.operations = (loadedRoot H rt.cells d).store.operations := by
    rw [← hl]
    rfl
  rw [← hops] at hder
  refine ⟨l, hl, hc.wf ?_, hc.nanFree, ⟨hi, hs, hder, hdu.trans hl.symm⟩, hf⟩
  rw [hr]
  exact hd

end

section

variable (store : TermStore)

/-- Two handles of one proposition: they resolve to equal Triples. -/
def SameProposition (h k : Int) : Prop :=
  ∃ s t : Triple, resolveTripleHandle store h = .ok s ∧ resolveTripleHandle store k = .ok t ∧
    s.term.same t.term = true

/-- Just before an operation, an earlier one is a live assertion of its proposition. -/
structure LiveBefore (position : Nat) (row : OperationRow) (p : Nat) : Prop where
  earlier : p < position
  asserted : ∃ assertion, store.operations[p]? = some assertion ∧ assertion.action = .assert ∧
    SameProposition store assertion.tripleHandle row.tripleHandle
  kept : ∀ j, j < position → store.withdrawalTargets[j]? ≠ some (some p)

/-- The assertions that no retraction targets, in commit order, with their positions. -/
def untargetedRows : List (Nat × OperationRow) :=
  (store.operations.zipIdx.filter fun (row, position) =>
      row.action = .assert && !store.withdrawalTargets.contains (some position)).map
    fun (row, position) => (position, row)

end

/-- What a store owes its readers about withdrawals. -/
structure WithdrawalInvariant (H : Hashing) (root : Root) : Prop where
  length : root.store.withdrawalTargets.length = root.store.operations.length
  target : ∀ (position p : Nat) (row : OperationRow), root.store.operations[position]? = some row →
      root.store.withdrawalTargets[position]? = some (some p) →
        row.action = .retract ∧ LiveBefore root.store position row p ∧
          ∀ q, LiveBefore root.store position row q → q ≤ p
  once : ∀ i j p : Nat, root.store.withdrawalTargets[i]? = some (some p) →
    root.store.withdrawalTargets[j]? = some (some p) → i = j
  unmatched : ∀ (position : Nat) (row : OperationRow),
    root.store.operations[position]? = some row → row.action = .retract →
      (root.store.withdrawalTargets[position]? = some none ↔
        ∀ p, ¬LiveBefore root.store position row p)
  live : liveOccurrences H root
    = (untargetedRows root.store).mapM fun (_, row) => operationOccurrenceAt root.store row
  rebuilt : SameStore H (rebuildOperationState H root) root

/-! ### Sorted positions -/

variable {ps : List Nat}

theorem exists_split (h : ps.Pairwise (· < ·)) (t : Nat) :
    ∃ b a, ps = b ++ a ∧ (∀ p ∈ b, p < t) ∧ ∀ p ∈ a, t ≤ p := by
  obtain ⟨b, a, hsp, hpre, hpo⟩ :=
    exists_cut (· < t) (h.imp fun hlt hb => Nat.lt_trans hlt hb)
  exact ⟨b, a, hsp, hpre, fun p hp => Nat.not_lt.mp (hpo p hp)⟩

theorem lowerBoundPosition_append {b a : List Nat} {t : Nat}
    (hpre : ∀ p ∈ b, p < t) (hp : ∀ p ∈ a, t ≤ p) :
    lowerBoundPosition (b ++ a) t = b.length := by
  unfold lowerBoundPosition
  refine bisect_eq ⟨by rw [length_append]; omega, ?_, ?_⟩
  · intro i hi
    have hlt := hpre b[i] (getElem_mem hi)
    rw [getElem?_append_left hi, getElem?_eq_getElem hi]
    simp [hlt]
  · intro i hi hlt
    rw [getElem?_append_right hi]
    rw [length_append] at hlt
    have hin : i - b.length < a.length := by omega
    have hge := hp a[i - b.length] (getElem_mem hin)
    rw [getElem?_eq_getElem hin]
    simp [hge]

/-- **The search finds a position exactly when it is there.** -/
theorem lowerBoundPosition_found (h : ps.Pairwise (· < ·)) {t : Nat} :
    ps[lowerBoundPosition ps t]? = some t ↔ t ∈ ps := by
  constructor
  · intro hf
    exact mem_of_getElem? hf
  · intro hmem
    obtain ⟨b, after, rfl, hpre, hp⟩ := exists_split h t
    rw [lowerBoundPosition_append hpre hp, getElem?_append_right (Nat.le_refl _), Nat.sub_self]
    have hin : t ∈ after := by
      rcases List.mem_append.mp hmem with hin | hin
      · exact absurd (hpre t hin) (Nat.lt_irrefl _)
      · exact hin
    cases after with
    | nil => cases hin
    | cons p r =>
      have hle := hp p (mem_cons_self ..)
      have hsrt := (pairwise_cons.mp (pairwise_append.mp h).2.1).1
      rcases mem_cons.mp hin with rfl | hin
      · rfl
      · have := hsrt t hin
        omega

/-! ### A store that holds a settled ledger -/

/-- What the handle of a triple row denotes is a Triple. -/
theorem triple_of_tripleHandle {rs : Rows} {p : Nat} {t : Term}
    (d : rs.Denotes (tripleHandle p) t) : ∃ triple : Triple, triple.term = t := by
  generalize hk : tripleHandle p = k at d
  cases d with
  | atom => exact absurd hk.symm (atomHandle_ne_tripleHandle _ _)
  | @triple _ _ t1 t2 t3 => exact ⟨⟨t1, t2, t3⟩, rfl⟩

namespace Holds

variable {H : Hashing} {rt : Root} {l : Ledger}

theorem sound (h : Holds H rt l) (hs : l.Settled) : rt.store.rows.Sound := by
  rw [h.rows]
  exact hs.wf.sound

variable {p position : Nat} {row : OperationRow}

theorem actsOf_getElem? {rs : List OperationRow} {k : Int} : (actsOf rs)[p]? = some ⟨true, k⟩ ↔
      ∃ row, rs[p]? = some row ∧ row.action = .assert ∧ row.tripleHandle = k := by
  unfold actsOf
  rw [getElem?_map, Option.map_eq_some_iff]
  simp only [OperationRow.act, Lifo.Act.mk.injEq, decide_eq_true_eq]

variable (h : Holds H rt l)
include h

/-- Handles of one proposition are one handle. -/
theorem eq_of_sameProposition (hs : l.Settled) {a b : Int} (hab : SameProposition rt.store a b) :
    a = b := by
  obtain ⟨s, t, ha, hb, hsa⟩ := hab
  rw [resolveTripleHandle_iff (h.sound hs), h.rows] at ha hb
  exact ha.canonical hs.wf.distinct hb hsa

/-- An operation's handle that came before denotes one proposition both times. -/
theorem sameProposition_of_eq (hs : l.Settled) {e : OperationRow} (hlt : p < position)
    (he : rt.store.operations[p]? = some e)
    (hrow : rt.store.operations[position]? = some row)
    (heq : e.tripleHandle = row.tripleHandle) :
    SameProposition rt.store e.tripleHandle row.tripleHandle := by
  rw [h.operations] at he hrow
  have hp : l.handles[p]? = some e.tripleHandle := by
    rw [Ledger.handles, getElem?_map, he]
    rfl
  have hpos : l.handles[position]? = some row.tripleHandle := by
    rw [Ledger.handles, getElem?_map, hrow]
    rfl
  obtain ⟨hpl, hpv⟩ := List.getElem?_eq_some_iff.mp hp
  obtain ⟨hql, hqv⟩ := List.getElem?_eq_some_iff.mp hpos
  obtain ⟨t, ht, hn⟩ := pairwise_iff_getElem.mp hs.nanOnce p position hpl hql hlt
    (by rw [hpv, hqv, heq])
  rw [hpv] at ht
  obtain ⟨-, q, hq, -⟩ := hs.wf.operation (mem_of_getElem? he)
  obtain ⟨tr, rfl⟩ := triple_of_tripleHandle (hq ▸ ht)
  rw [← h.rows, ← resolveTripleHandle_iff (h.sound hs)] at ht
  refine ⟨tr, tr, ht, heq ▸ ht, ?_⟩
  rw [Term.same_self, hn]
  rfl

/-- **The live assertions of a proposition are the live positions of its handle.** -/
theorem liveBefore_iff (hs : l.Settled) (hrow : rt.store.operations[position]? = some row) :
    LiveBefore rt.store position row p ↔
      p ∈ Lifo.live ((actsOf l.operations).take position) row.tripleHandle := by
  rw [Lifo.mem_live_take_iff, actsOf_getElem?, ← h.targets, ← h.operations]
  constructor
  · intro ⟨hlt, ⟨earlier, hearlier, hasr, hsame⟩, hkept⟩
    exact ⟨hlt, ⟨earlier, hearlier, hasr, h.eq_of_sameProposition hs hsame⟩, hkept⟩
  · intro ⟨hlt, ⟨earlier, hearlier, hasr, heq⟩, hkept⟩
    exact ⟨hlt, ⟨earlier, hearlier, hasr, h.sameProposition_of_eq hs hlt hearlier hrow heq⟩, hkept⟩

theorem act_of_row (hrow : rt.store.operations[position]? = some row) :
    (actsOf l.operations)[position]? = some row.act := by
  rw [actsOf, getElem?_map, ← h.operations, hrow]
  rfl

/-- A live operation is an assertion no retraction targets. -/
theorem operationLive_iff (hrow : rt.store.operations[position]? = some row) :
    operationLive H rt position row = true ↔
      row.action = .assert ∧ some position ∉ rt.store.withdrawalTargets := by
  have hsrt : (Lifo.live (actsOf l.operations) row.tripleHandle).Pairwise (· < ·) :=
    (Lifo.run_ok _).sorted _
  unfold operationLive
  rw [Bool.and_eq_true, decide_eq_true_eq, decide_eq_true_eq, h.active,
    lowerBoundPosition_found hsrt, Lifo.mem_live_iff, actsOf_getElem?, ← h.targets,
    ← h.operations]
  constructor
  · intro ⟨hasr, _, hfree⟩
    refine ⟨hasr, ?_⟩
    intro hmem
    obtain ⟨i, hi⟩ := mem_iff_getElem?.mp hmem
    exact hfree i hi
  · intro ⟨hasr, hnot⟩
    refine ⟨hasr, ⟨row, hrow, hasr, rfl⟩, ?_⟩
    intro i hi
    exact hnot (mem_of_getElem? hi)

theorem liveRows_untargeted : liveRows H rt = untargetedRows rt.store := by
  unfold liveRows untargetedRows
  refine congrArg (List.map _) (filter_congr ?_)
  intro ⟨row, position⟩ hmem
  have hrow : rt.store.operations[position]? = some row := mk_mem_zipIdx_iff_getElem?.mp hmem
  have hiff := h.operationLive_iff hrow
  by_cases hl : operationLive H rt position row = true
  · obtain ⟨hasr, hnot⟩ := hiff.mp hl
    simp [hl, hasr, hnot]
  · have hnot := mt hiff.mpr hl
    rw [Bool.not_eq_true] at hl
    rw [not_and, Decidable.not_not] at hnot
    by_cases hasr : row.action = .assert
    · simp [hl, hnot hasr]
    · simp [hl, hasr]

/-- **A store that holds a settled ledger keeps the invariant.** -/
theorem withdrawals (hs : l.Settled) : WithdrawalInvariant H rt where
  length := by rw [h.targets, Lifo.length_targets, length_actsOf, h.operations]
  target := by
    intro position p row hrow htgt
    rw [h.targets] at htgt
    obtain ⟨k, hlt, hp, hpu, hn⟩ := Lifo.newest_of_target htgt
    rw [h.act_of_row hrow] at hp
    have hact := Option.some.inj hp
    have hkey : row.tripleHandle = k := congrArg Lifo.Act.key hact
    have hnot : decide (row.action = .assert) = false := congrArg Lifo.Act.push hact
    rw [← hkey] at hn
    refine ⟨?_, (h.liveBefore_iff hs hrow).mpr (mem_of_getLast? hn), ?_⟩
    · rw [h.operations] at hrow
      exact (hs.wf.operation (mem_of_getElem? hrow)).1.resolve_left (of_decide_eq_false hnot)
    · intro q hq
      exact Lifo.le_newest hn ((h.liveBefore_iff hs hrow).mp hq)
  once := by
    intro i j p hi hj
    rw [h.targets] at hi hj
    exact (Lifo.run_ok _).once i j p hi hj
  unmatched := by
    intro position row hrow hre
    have hact : (actsOf l.operations)[position]? = some ⟨false, row.tripleHandle⟩ := by
      rw [h.act_of_row hrow, OperationRow.act, hre]
      rfl
    rw [h.targets, Lifo.target_none_iff hact, eq_nil_iff_forall_not_mem]
    exact forall_congr' fun p => not_congr (h.liveBefore_iff hs hrow).symm
  live := by
    unfold liveOccurrences
    rw [h.liveRows_untargeted]
  rebuilt := by
    obtain ⟨hi, hsh, hder, hd, -⟩ := rebuildOperationState_spec h.indexed
    rw [h.operations] at hder
    have hr : Holds H (rebuildOperationState H rt) l :=
      ⟨hi, hsh, hder, hd.trans h.dump⟩
    exact hr.same h

end Holds

end Beagle.Store
