/-
Runs of a store and a rotation.

The store is called as before, and beside it a rotation is projected and refreshed.  A
rotation that is pinned to the store answers every pattern as the store's live
occurrences do, and one that has operations staged on it answers as the store does once
they are committed.  An occurrence is found through the propositions equal to its own,
so the live ones that a NaN occurs in are not found.
-/
import Beagle.Proofs.Rotations

namespace Beagle.Store

open Beagle.Lib List

/-- The counts of a store are machine integers. -/
structure MachineSized (store : TermStore) : Prop where
  nextSequence : store.nextSequence ≤ sequenceBound
  operations : (store.operations.length : Int) ≤ sequenceBound

/-! ### Every operation has its own coordinate -/

/-- One operation row comes before another. -/
def OperationRow.Before (a b : OperationRow) : Prop :=
  a.txSequence < b.txSequence ∨ a.txSequence = b.txSequence ∧ a.ordinal < b.ordinal

theorem operationRowsFrom_ascending {sq : Int} {a : List (Action × Int)} :
    ∀ n : Nat, (operationRowsFrom sq n a).Pairwise OperationRow.Before := by
  induction a with
  | nil => intro n; exact List.Pairwise.nil
  | cons act r ih =>
    intro n
    refine pairwise_cons.mpr ⟨?_, ih (n + 1)⟩
    intro row hrow
    obtain ⟨hseq, hle, -⟩ := operationRowsFrom_place hrow
    refine Or.inr ⟨hseq.symm, ?_⟩
    dsimp only
    omega

theorem historyRows_ascending {ts : List Transaction}
    (h : ts.Pairwise fun t u => t.sequence < u.sequence) :
    (ts.flatMap Transaction.operationRows).Pairwise OperationRow.Before := by
  induction ts with
  | nil => exact List.Pairwise.nil
  | cons t r ih =>
    rw [pairwise_cons] at h
    rw [flatMap_cons]
    refine pairwise_append.mpr ⟨operationRowsFrom_ascending 0, ih h.2, ?_⟩
    intro a ha b hb
    obtain ⟨u, hu, hb⟩ := mem_flatMap.mp hb
    have hlt := h.1 u hu
    have hsa := (operationRowsFrom_place ha).1
    have hsb := (operationRowsFrom_place hb).1
    exact Or.inl (by omega)

theorem Ledger.Wf.operation_bounds {l : Ledger} (hwf : l.Wf) {row : OperationRow}
    (hrow : row ∈ l.operations) :
    0 ≤ row.txSequence ∧ row.txSequence < l.nextSequence ∧ 0 ≤ row.ordinal ∧
      row.ordinal < l.operations.length := by
  obtain ⟨t, ht, hmem⟩ := mem_flatMap.mp hrow
  obtain ⟨hseq, hle, hlt⟩ := operationRowsFrom_place hmem
  have hnn := hwf.nonneg t ht
  have hb := hwf.sequence_lt ht
  have hl : t.acts.length ≤ l.operations.length := by
    obtain ⟨b, a, hsp⟩ := append_of_mem ht
    have hlen : t.operationRows.length = t.acts.length := length_operationRowsFrom _ _ _
    unfold Ledger.operations
    rw [hsp, flatMap_append, flatMap_cons, length_append, length_append, hlen]
    omega
  omega

/-- No two of the occurrences have one coordinate. -/
def DistinctCoordinates (events : List OperationOccurrence) : Prop :=
  (events.map OperationOccurrence.coordinate).Pairwise fun a b => a.term.same b.term = false

theorem DistinctCoordinates.unique {es : List OperationOccurrence}
    (h : DistinctCoordinates es) {e f : OperationOccurrence} (he : e ∈ es) (hf : f ∈ es)
    (hs : e.coordinate.term.same f.coordinate.term = true) : e = f := by
  obtain ⟨i, hi, rfl⟩ := getElem_of_mem he
  obtain ⟨j, hj, rfl⟩ := getElem_of_mem hf
  have hp := pairwise_iff_getElem.mp (pairwise_map.mp h)
  rcases Nat.lt_trichotomy i j with hlt | heq | hlt
  · exact absurd ((hp i j hi hj hlt).symm.trans hs) Bool.false_ne_true
  · subst heq
    rfl
  · have hb := hp j i hj hi hlt
    rw [Term.same_symm hs] at hb
    cases hb

section

variable {H : Hashing} {rt : Root} {l : Ledger} (h : Holds H rt l)
include h

theorem Holds.sizes (hsz : MachineSized rt.store) :
    l.nextSequence ≤ sequenceBound ∧ (l.operations.length : Int) ≤ sequenceBound := by
  have h1 := hsz.nextSequence
  have h2 := hsz.operations
  rw [h.nextSequence] at h1
  rw [h.operations] at h2
  exact ⟨h1, h2⟩

/-- Rows of machine-sized ledgers with one coordinate are one row. -/
theorem Holds.row_of_coordinate (hwf : l.Wf) (hsz : MachineSized rt.store) {a b : OperationRow}
    (ha : a ∈ l.operations) (hb : b ∈ l.operations)
    (hs : (occurrenceCoordinate (transactionCoordinate l.spaceId a.txSequence) a.ordinal).term.same
      (occurrenceCoordinate (transactionCoordinate l.spaceId b.txSequence) b.ordinal).term = true) :
    a.txSequence = b.txSequence ∧ a.ordinal = b.ordinal := by
  obtain ⟨hn, hlen⟩ := h.sizes hsz
  have hba := hwf.operation_bounds ha
  have hbb := hwf.operation_bounds hb
  simp only [occurrenceCoordinate, transactionCoordinate, Triple.term, Term.same, AtomValue.same,
    Bool.and_eq_true, beq_iff_eq, AtomValue.int.injEq] at hs
  have hseq := congrArg Int64.toInt hs.1.1.2
  have hord := congrArg Int64.toInt hs.2
  rw [Int64.toInt_ofInt_of_lt (by omega) (by omega),
    Int64.toInt_ofInt_of_lt (by omega) (by omega)] at hseq hord
  exact ⟨hseq, hord⟩

variable {es : List OperationOccurrence}

/-- **Two occurrences of a ledger have two coordinates.** -/
theorem Holds.coordinates (hwf : l.Wf) (hsz : MachineSized rt.store)
    (hevs : Occurrences l.rows l.spaceId l.operations es) : DistinctCoordinates es := by
  obtain ⟨hlen, hget⟩ := forall₂_iff_get.mp hevs
  have hasc : l.operations.Pairwise OperationRow.Before := historyRows_ascending hwf.ascending
  unfold DistinctCoordinates
  refine pairwise_map.mpr (pairwise_iff_getElem.mpr ?_)
  intro i j hi hj hlt
  have hi' : i < l.operations.length := by omega
  have hj' : j < l.operations.length := by omega
  have hei : RowOccurs l.rows l.spaceId l.operations[i] es[i] := hget i hi' hi
  have hej : RowOccurs l.rows l.spaceId l.operations[j] es[j] := hget j hj' hj
  refine Bool.eq_false_iff.mpr fun hs => ?_
  rw [hei.coordinate, hej.coordinate] at hs
  obtain ⟨hseq, hord⟩ := h.row_of_coordinate hwf hsz (getElem_mem hi') (getElem_mem hj') hs
  have := pairwise_iff_getElem.mp hasc i j hi' hj' hlt
  unfold OperationRow.Before at this
  omega

/-- The coordinate of a row of a machine-sized ledger is read back. -/
theorem Holds.coordinateOf (hwf : l.Wf) (hsz : MachineSized rt.store) {row : OperationRow}
    (hrow : row ∈ l.operations) :
    occurrenceCoordinateOf
        (occurrenceCoordinate (transactionCoordinate l.spaceId row.txSequence) row.ordinal).term
      = some (l.spaceId, Int64.ofInt row.txSequence, Int64.ofInt row.ordinal) := by
  obtain ⟨hn, hlen⟩ := h.sizes hsz
  obtain ⟨h1, h2, h3, h4⟩ := hwf.operation_bounds hrow
  have htx : transactionCoordinateOf (transactionCoordinate l.spaceId row.txSequence).term
      = some (l.spaceId, Int64.ofInt row.txSequence) := by
    have hpos : 0 ≤ (Int64.ofInt row.txSequence).toInt := by
      rw [Int64.toInt_ofInt_of_lt (by omega) (by omega)]
      exact h1
    exact if_pos ⟨hwf.space, rfl, hpos⟩
  have hord : 0 ≤ (Int64.ofInt row.ordinal).toInt := by
    rw [Int64.toInt_ofInt_of_lt (by omega) (by omega)]
    exact h3
  rw [occurrenceCoordinate, Triple.term, occurrenceCoordinateOf, htx]
  exact if_pos ⟨rfl, hord⟩

/-- An assertion of a machine-sized ledger may be in a rotation. -/
theorem Holds.assertion (hwf : l.Wf) (hsz : MachineSized rt.store)
    (hevs : Occurrences l.rows l.spaceId l.operations es) {event : OperationOccurrence}
    (hmem : event ∈ es) (hasr : event.action = .assert) : Assertion event := by
  obtain ⟨i, hi, rfl⟩ := getElem_of_mem hmem
  obtain ⟨hlen, hget⟩ := forall₂_iff_get.mp hevs
  have hi' : i < l.operations.length := by omega
  have hrow : RowOccurs l.rows l.spaceId l.operations[i] es[i] := hget i hi' hi
  refine ⟨?_, hasr⟩
  rw [hrow.coordinate, h.coordinateOf hwf hsz (getElem_mem hi')]
  rfl

end

/-! ### Which occurrences are found -/

def hasCoordinate (occurrence : Triple) (event : OperationOccurrence) : Bool :=
  occurrence.term.same event.coordinate.term

section

variable {K : KeyHashing} {r : Rotation}

theorem foldl_candidate (oc : Triple) (p : List OperationOccurrence) :
    ∀ fd : List OperationOccurrence, p.foldl (fun fd op =>
        if op.action = .assert ∧ oc.term.same op.coordinate.term then some op else fd)
        fd.getLast?
        = (fd ++ p.filter fun op => asserted op && hasCoordinate oc op).getLast? := by
  induction p with
  | nil => intro fd; rw [filter_nil, append_nil]; rfl
  | cons op r ih =>
    intro fd
    rw [foldl_cons, filter_cons]
    by_cases h : op.action = .assert ∧ oc.term.same op.coordinate.term = true
    · have hl : some op = (fd ++ [op]).getLast? := by simp
      rw [if_pos h, if_pos (by rw [Bool.and_eq_true]; exact ⟨beq_iff_eq.mpr h.1, h.2⟩), hl,
        ih (fd ++ [op]), append_assoc]
      rfl
    · rw [if_neg h, if_neg, ih fd]
      intro hb
      rw [Bool.and_eq_true] at hb
      exact h ⟨beq_iff_eq.mp hb.1, hb.2⟩

variable {event : OperationOccurrence}

theorem Rotation.candidate_some (h : Indexes K r) {oc : Triple}
    (hc : r.candidate K oc = some event) :
    event ∈ r.events ++ r.pending ∧ hasCoordinate oc event = true := by
  unfold Rotation.candidate at hc
  rw [h.occurrence, foldl_candidate] at hc
  have hmem := mem_of_getLast? hc
  rcases List.mem_append.mp hmem with hmem | hmem
  · obtain ⟨hin, ht⟩ := mem_filter.mp hmem
    exact ⟨mem_append_left _ hin, ht⟩
  · obtain ⟨hin, ht⟩ := mem_filter.mp hmem
    rw [Bool.and_eq_true] at ht
    exact ⟨mem_append_right _ hin, ht.2⟩

theorem Rotation.candidate_none (h : Indexes K r) {oc : Triple}
    (hc : r.candidate K oc = none) (hev : event ∈ r.allOccurrences) :
    hasCoordinate oc event = false := by
  unfold Rotation.candidate at hc
  rw [h.occurrence, foldl_candidate, getLast?_eq_none_iff, append_eq_nil_iff] at hc
  rw [Rotation.allOccurrences_eq] at hev
  refine Bool.eq_false_iff.mpr fun ht => ?_
  rcases mem_of_mem_stand hev with hmem | ⟨hmem, hput⟩
  · have := filter_eq_nil_iff.mp hc.1 event hmem
    exact this ht
  · have := filter_eq_nil_iff.mp hc.2 event hmem
    exact this (by rw [Bool.and_eq_true]; exact ⟨hput, ht⟩)

theorem covers_self (pr : Triple) (event : OperationOccurrence) :
    covers (some pr.t1) (some pr.t2) (some pr.t3) event = pr.term.same event.proposition.term := by
  simp [covers, patternMatch, slotMatches, Triple.term, Term.same, Bool.and_assoc]

/-- **An occurrence is found when it is one of a standing proposition without a NaN.** -/
theorem Rotation.liveOccurrence_eq (h : Indexes K r)
    {ks : List OperationOccurrence} (hu : DistinctCoordinates ks)
    (hk : ∀ event ∈ r.events ++ r.pending, event ∈ ks)
    (oc : Triple) :
    r.liveOccurrence K oc = r.allOccurrences.any fun event =>
          hasCoordinate oc event && !event.proposition.term.hasNan := by
  have hby : ∀ pr : Triple, r.byProposition K pr = r.allOccurrences.filter fun event =>
          pr.term.same event.proposition.term := by
    intro pr
    have hmat := Rotation.matching_eq h (some pr.t1) (some pr.t2) (some pr.t3)
    rw [show covers (some pr.t1) (some pr.t2) (some pr.t3)
      = fun event => pr.term.same event.proposition.term from
        funext fun event => covers_self pr event] at hmat
    exact hmat
  unfold Rotation.liveOccurrence Rotation.eventAt
  cases hc : r.candidate K oc with
  | none =>
    symm
    refine any_eq_false.mpr fun event hev hb => ?_
    rw [Rotation.candidate_none h hc hev] at hb
    cases hb
  | some p =>
    obtain ⟨hp, hhas⟩ := Rotation.candidate_some h hc
    dsimp only
    rw [hby, Bool.eq_iff_iff]
    constructor
    · intro hl
      by_cases hany : ((r.allOccurrences.filter fun event =>
          p.proposition.term.same event.proposition.term).any fun event =>
            oc.term.same event.coordinate.term) = true
      · obtain ⟨event, hev, ht⟩ := any_eq_true.mp hany
        obtain ⟨hs, hsa⟩ := mem_filter.mp hev
        refine any_eq_true.mpr ⟨event, hs, ?_⟩
        have hse := Term.same_trans (Term.same_symm hsa) hsa
        rw [Term.same_self] at hse
        rw [Bool.and_eq_true]
        exact ⟨ht, hse⟩
      · rw [if_neg hany] at hl
        cases hl
    · intro hany
      obtain ⟨event, hev, hb⟩ := any_eq_true.mp hany
      rw [Bool.and_eq_true] at hb
      have hin : event ∈ r.events ++ r.pending := by
        rw [Rotation.allOccurrences_eq] at hev
        rcases mem_of_mem_stand hev with hmem | ⟨hmem, -⟩
        · exact mem_append_left _ hmem
        · exact mem_append_right _ hmem
      have heq : p = event :=
        hu.unique (hk p hp) (hk event hin) (Term.same_trans (Term.same_symm hhas) hb.1)
      subst heq
      rw [if_pos]
      · rfl
      · refine any_eq_true.mpr ⟨p, mem_filter.mpr ⟨hev, ?_⟩, hb.1⟩
        rw [Term.same_self]
        exact hb.2

end

/-! ### What a rotation owes a store -/

/-- Every pattern is answered with the live occurrences it has, up to `rel`, and an occurrence is
    found exactly when it is live. -/
structure AnswersLike (K : KeyHashing) (H : Hashing)
    (rel : OperationOccurrence → OperationOccurrence → Prop) (root : Root) (rotation : Rotation) :
    Prop where
  matching : ∃ live, liveOccurrences H root = .ok live ∧ ∀ t1 t2 t3,
    Forall₂ rel (rotation.matching K t1 t2 t3) (live.filter (covers t1 t2 t3))
  occurrence : ∃ live, liveOccurrences H root = .ok live ∧ ∀ occurrence,
    rotation.liveOccurrence K occurrence = live.any (hasCoordinate occurrence)

/-- No NaN occurs in a live proposition. -/
def LiveClean (H : Hashing) (root : Root) : Prop :=
  ∃ live, liveOccurrences H root = .ok live ∧ ∀ event ∈ live, event.proposition.term.hasNan = false

/-- One occurrence, with the Terms of its proposition up to the two zeros. -/
structure SameOccurrence (a b : OperationOccurrence) : Prop where
  coordinate : a.coordinate = b.coordinate
  action : a.action = b.action
  proposition : a.proposition.term.agrees b.proposition.term

theorem SameOccurrence.refl (a : OperationOccurrence) : SameOccurrence a a :=
  ⟨rfl, rfl, Term.agrees_refl _⟩

theorem covers_same {t1 t2 t3 : Option Term} {a b : OperationOccurrence} (h : SameOccurrence a b) :
    covers t1 t2 t3 a = covers t1 t2 t3 b := by
  have hs : ∀ {x y : Term}, x.agrees y → ∀ p : Option Term, slotMatches p x = slotMatches p y := by
    intro x y hxy p
    cases p with
    | none => rfl
    | some bd =>
      show bd.same x = bd.same y
      rw [Term.same_comm bd x, Term.same_comm bd y, Term.same_of_agrees hxy]
  obtain ⟨h1, h2, h3⟩ := h.proposition
  unfold covers patternMatch
  rw [hs h1, hs h2, hs h3]

variable {α β : Type} {rel : α → β → Prop}

theorem forall₂_filter {p : α → Bool} {q : β → Bool}
    (hpq : ∀ a b, rel a b → p a = q b) {xs : List α} {ys : List β} (h : Forall₂ rel xs ys) :
    Forall₂ rel (xs.filter p) (ys.filter q) := by
  induction h with
  | nil => exact .nil
  | @cons x y _ _ hh _ ih =>
    rw [filter_cons, filter_cons, hpq x y hh]
    by_cases hq : q y = true
    · rw [if_pos hq, if_pos hq]
      exact .cons hh ih
    · rw [if_neg hq, if_neg hq]
      exact ih

theorem forall₂_any {p : α → Bool} {q : β → Bool}
    (hpq : ∀ a b, rel a b → p a = q b) {xs : List α} {ys : List β} (h : Forall₂ rel xs ys) :
    xs.any p = ys.any q := by
  induction h with
  | nil => rfl
  | cons hh _ ih => rw [any_cons, any_cons, hpq _ _ hh, ih]

section

variable {K : KeyHashing} {H : Hashing}

/-- **A rotation that stands for the live occurrences answers like the store exactly when no NaN is
    live.** -/
theorem answersLike_iff {rel : OperationOccurrence → OperationOccurrence → Prop}
    (hrel : ∀ a b, rel a b → SameOccurrence a b) {rt : Root} {lv : List OperationOccurrence}
    (hl : liveOccurrences H rt = .ok lv) {r : Rotation} (h : Indexes K r)
    (hs : Forall₂ rel r.allOccurrences lv)
    {ks : List OperationOccurrence} (hu : DistinctCoordinates ks)
    (hk : ∀ event ∈ r.events ++ r.pending, event ∈ ks)
    {all : List OperationOccurrence} (hsgl : DistinctCoordinates all)
    (hall : ∀ event ∈ lv, event ∈ all ∧ event.coordinate.term.hasNan = false) :
    AnswersLike K H rel rt r ↔ LiveClean H rt := by
  have hf : ∀ oc, r.liveOccurrence K oc = lv.any fun event =>
      hasCoordinate oc event && !event.proposition.term.hasNan := by
    intro oc
    rw [Rotation.liveOccurrence_eq h hu hk]
    refine forall₂_any (fun a b hab => ?_) hs
    have hsa := hrel a b hab
    unfold hasCoordinate
    rw [hsa.coordinate, Term.hasNan_of_agrees hsa.proposition]
  constructor
  · intro hans
    refine ⟨lv, hl, ?_⟩
    intro event hev
    obtain ⟨l', hl', hocc⟩ := hans.occurrence
    rw [hl] at hl'
    cases hl'
    have hat := hocc event.coordinate
    have hc : hasCoordinate event.coordinate event = true := by
      unfold hasCoordinate
      rw [Term.same_self, (hall event hev).2]
      rfl
    rw [hf, any_eq_true.mpr ⟨event, hev, hc⟩] at hat
    obtain ⟨o, ho, hb⟩ := any_eq_true.mp hat
    rw [Bool.and_eq_true, Bool.not_eq_true'] at hb
    rw [hsgl.unique (hall event hev).1 (hall o ho).1 hb.1]
    exact hb.2
  · intro ⟨l', hl', hclean⟩
    rw [hl] at hl'
    cases hl'
    refine ⟨⟨lv, hl, ?_⟩, ⟨lv, hl, ?_⟩⟩
    · intro t1 t2 t3
      rw [Rotation.matching_eq h]
      exact forall₂_filter (fun a b hab => covers_same (hrel a b hab)) hs
    · intro oc
      rw [hf]
      rw [Bool.eq_iff_iff, any_eq_true, any_eq_true]
      refine exists_congr fun event => and_congr_right fun hev => ?_
      rw [hclean event hev, Bool.not_false, Bool.and_true]

end

end Beagle.Store
