/-
A single-valued update leaves one value.

What is live under a subject and a predicate is retracted newest first, one retraction
for each occurrence, duplicates included.  A retraction takes the newest equal
proposition away, and among those still standing that is the occurrence it was compiled
from; so the other pairs keep theirs, and the new assertion stands alone.  A proposition
with a NaN is equal to none, and no retraction withdraws it.
-/
import Beagle.Proofs.Interleavings
import Beagle.Store.Txn

namespace Beagle.Store

open Beagle.Lib List

/-- Has the occurrence this subject and this predicate? -/
def underPair (subject predicate : Term) (event : OperationOccurrence) : Bool :=
  covers (some subject) (some predicate) none event

/-- What a single-valued update that is committed owes its caller. -/
structure LeavesOne (H : Hashing) (root root' : Root) (subject predicate value : Term) : Prop where
  live : ∃ before after event, liveOccurrences H root = .ok before ∧
    liveOccurrences H root' = .ok after ∧
    after.filter (underPair subject predicate) = [event] ∧
    event.coordinate = occurrenceCoordinate
      (transactionCoordinate root.store.spaceId root.store.nextSequence)
      (before.filter (underPair subject predicate)).length ∧
    event.action = .assert ∧
    event.proposition.term.agrees (Triple.term ⟨subject, predicate, value⟩) ∧
    (after.filter fun event => !underPair subject predicate event)
      = before.filter fun event => !underPair subject predicate event
  once : ∀ position row event, (position, row) ∈ liveRows H root →
    operationOccurrenceAt root.store row = .ok event → underPair subject predicate event = true →
      ∃ i, root'.store.withdrawalTargets[i]? = some (some position) ∧
        root.store.operations.length ≤ i ∧
        ∀ j, root'.store.withdrawalTargets[j]? = some (some position) → j = i

/-- No NaN stands in the way of the update: neither in the pair nor in a value that is live under
    it. -/
def Updatable (H : Hashing) (root : Root) (subject predicate : Term) : Prop :=
  subject.hasNan = false ∧ predicate.hasNan = false ∧ ∃ live, liveOccurrences H root = .ok live ∧
      ∀ event ∈ live, underPair subject predicate event = true → event.proposition.t3.hasNan = false

/-! ### Pairs -/

variable {event : OperationOccurrence}

theorem underPair_iff {sb pd : Term} : underPair sb pd event = true ↔
      sb.same event.proposition.t1 = true ∧ pd.same event.proposition.t2 = true := by
  unfold underPair covers patternMatch slotMatches
  simp only [Bool.and_eq_true, Bool.and_true]

theorem underPair_ofProposition (sb pd : Term) {e x : OperationOccurrence}
    (h : ofProposition e x = true) : underPair sb pd e = underPair sb pd x := by
  obtain ⟨h1, h2, -⟩ := same_triple h
  unfold underPair covers patternMatch
  rw [slotMatches_same h1, slotMatches_same h2]
  rfl

theorem hasNan_of_same {a b : Term} (h : a.same b = true) : a.hasNan = false ∧ b.hasNan = false := by
  constructor
  · refine Bool.eq_false_iff.mpr fun hnan => ?_
    rw [Term.same_of_hasNan hnan] at h
    cases h
  · refine Bool.eq_false_iff.mpr fun hnan => ?_
    rw [Term.same_comm, Term.same_of_hasNan hnan] at h
    cases h

/-- Under a pair a proposition has a NaN where its value has one. -/
theorem hasNan_underPair {sb pd : Term} (h : underPair sb pd event = true) :
    event.proposition.term.hasNan = event.proposition.t3.hasNan := by
  obtain ⟨h1, h2⟩ := underPair_iff.mp h
  show (_ || _ || _) = _
  rw [(hasNan_of_same h1).2, (hasNan_of_same h2).2]
  rfl

/-! ### The operations of an update -/

section

variable {K : KeyHashing} {H : Hashing} {r : Root} {l : Ledger} {rotation : Rotation}
  {m : CommitMetadata}

/-- A pinned rotation compiles an update from the live occurrences. -/
theorem Tracks.compiled {events : List OperationOccurrence}
    (h : Tracks K l rotation l.history [] events) (sb pd v : Term) :
    compileSingleUpdate K rotation sb pd v
      = ((((standing [] events).filter (underPair sb pd)).reverse).map fun event =>
          retractOperation event.proposition) ++ [assertOperation ⟨sb, pd, v⟩] := by
  have hm := Rotation.matching_eq h.indexes (some sb) (some pd) none
  rw [h.stands] at hm
  unfold compileSingleUpdate newestFirst
  rw [show rotation.byT12 K sb pd = (standing [] events).filter (underPair sb pd) from hm]

theorem recorded_append (sid : String) (sq : Int64) (n : Nat) (xs ys : List CommitOperation) :
    recorded sid sq n (xs ++ ys) = recorded sid sq n xs ++ recorded sid sq (n + xs.length) ys := by
  unfold recorded
  rw [zipIdx_append, map_append]

/-- The retractions of an update name what they were compiled from. -/
theorem recorded_retractions {spaceId : String} {sequence : Int64}
    {named : List OperationOccurrence} :
    ∀ {ordinal : Nat} {acts : List OperationOccurrence},
      Forall₂ SameOccurrence (recorded spaceId sequence ordinal
        (named.map fun event => retractOperation event.proposition)) acts →
        Forall₂ (fun e act => asserted act = false ∧
          ∀ x, ofProposition act x = ofProposition e x) named acts := by
  induction named with
  | nil =>
    intro ordinal acts h
    cases h
    exact .nil
  | cons e rest ih =>
    intro ordinal acts h
    rw [map_cons, ← singleton_append, recorded_append] at h
    obtain ⟨act, others, hact, hos, rfl⟩ := forall₂_cons_left_iff.mp h
    refine .cons ⟨?_, ?_⟩ (ih hos)
    · unfold asserted
      rw [← hact.action]
      rfl
    · intro x
      unfold ofProposition
      rw [← Term.same_of_agrees hact.proposition]
      rfl

variable {α β : Type} {coordinate : Triple}

theorem exists_append_of_forall₂ {rel : α → β → Prop} {xs ys : List α} {zs : List β}
    (h : Forall₂ rel (xs ++ ys) zs) :
    ∃ us vs, zs = us ++ vs ∧ Forall₂ rel xs us ∧ Forall₂ rel ys vs :=
  ⟨zs.take xs.length, zs.drop xs.length, (take_append_drop _ _).symm,
    (forall₂_take_append zs xs ys h.flip).flip,
    (forall₂_drop_append zs xs ys h.flip).flip⟩

theorem mem_of_mapM {ε : Type} {f : α → Except ε β} {xs : List α} :
    ∀ {ys : List β}, xs.mapM f = .ok ys → ∀ {x : α} {y : β}, x ∈ xs → f x = .ok y → y ∈ ys := by
  induction xs with
  | nil => intro ys _ x y hx; cases hx
  | cons z r ih =>
    intro ys h x y hx hy
    rw [mapM_cons] at h
    obtain ⟨first, hfst, h⟩ := except_bind_ok.mp h
    obtain ⟨os, hos, h⟩ := except_bind_ok.mp h
    cases h
    rcases mem_cons.mp hx with rfl | hx
    · rw [hfst] at hy
      cases hy
      exact mem_cons_self ..
    · exact mem_cons_of_mem _ (ih hos hx hy)

/-- A store after an update of what stood before: the retractions, and the new assertion. -/
structure Updated (H : Hashing) (root root' : Root) (l l' : Ledger)
    (events drops : List OperationOccurrence) (new : OperationOccurrence)
    (subject predicate value : Term) : Prop where
  holds : Holds H root' l'
  settled : l'.Settled
  spaceId : l'.spaceId = l.spaceId
  rows : Rows.Extends l.rows l'.rows
  since : ∃ since, l'.operations = l.operations ++ since
  occurrences : Occurrences l'.rows l'.spaceId l'.operations (events ++ (drops ++ [new]))
  drops : Forall₂ (fun e act => asserted act = false ∧ ∀ x, ofProposition act x = ofProposition e x)
    ((standing [] events).filter (underPair subject predicate)).reverse drops
  coordinate : new.coordinate = occurrenceCoordinate
    (transactionCoordinate root.store.spaceId root.store.nextSequence)
    ((standing [] events).filter (underPair subject predicate)).length
  action : new.action = .assert
  proposition : new.proposition.term.agrees (Triple.term ⟨subject, predicate, value⟩)

theorem Tracks.updated (hl : Holds H r l) (hs : l.Settled) {events : List OperationOccurrence}
    (h : Tracks K l rotation l.history [] events) {sb pd v : Term} {root' : Root}
    (hcom : commitBoundary H r (compileSingleUpdate K rotation sb pd v)
      m = .ok (root', coordinate)) :
    ∃ l' ds n, Updated H r root' l l' events ds n sb pd v := by
  obtain ⟨more, hl', hs', hall, hsame⟩ := hl.committed hs h.occurrences hcom
  rw [h.compiled sb pd v, recorded_append] at hsame
  obtain ⟨ds, last, rfl, hdrops, hlast⟩ := exists_append_of_forall₂ hsame
  obtain ⟨n, others, hnew, hos, rfl⟩ := forall₂_cons_left_iff.mp hlast
  cases hos
  refine ⟨_, ds, n, hl', hs', rfl, Rows.internAll_extends _ _,
    ⟨_, Ledger.append_operations _ _ _⟩, hall, recorded_retractions hdrops, ?_, hnew.action.symm,
    Term.agrees_symm hnew.proposition⟩
  rw [← hnew.coordinate, hl.spaceId, hl.nextSequence]
  simp only [length_map, length_reverse, Nat.zero_add]
  unfold transactionCoordinate
  rw [ofInt_toInt_ofInt]

namespace Updated

variable {root' : Root} {l' : Ledger} {events ds : List OperationOccurrence}
  {n : OperationOccurrence} {sb pd v : Term} (h : Updated H r root' l l' events ds n sb pd v)
include h

/-- What is live after the update: what the retractions leave, and the new assertion. -/
theorem liveOccurrences_eq :
    liveOccurrences H root' = .ok (standing (standing [] events) ds ++ [n]) := by
  rw [h.holds.liveOccurrences_eq h.settled h.occurrences, standing_append, standing_append]
  show Except.ok (standStep asserted ofProposition (standing (standing [] events) ds) n) = _
  have hput : asserted n = true := beq_iff_eq.mpr h.action
  unfold standStep
  rw [if_pos hput]

/-- The new assertion is under the pair, when the pair is equal to itself. -/
theorem underPair_new (hs : sb.hasNan = false) (hp : pd.hasNan = false) :
    underPair sb pd n = true := by
  obtain ⟨h1, h2, -⟩ := h.proposition
  exact underPair_iff.mpr ⟨Term.same_symm (Term.same_of_agrees_clean h1 hs),
    Term.same_symm (Term.same_of_agrees_clean h2 hp)⟩

/-- **The retractions withdraw what they were compiled from and nothing else.** -/
theorem standing_drops (hc : ∀ event ∈ standing [] events, underPair sb pd event = true →
      event.proposition.t3.hasNan = false) :
    standing (standing [] events) ds
      = (standing [] events).filter fun event => !underPair sb pd event := by
  refine stand_newest_first (fun e x hex => underPair_ofProposition sb pd hex) rfl ?_ h.drops
  intro e he
  obtain ⟨hmem, hp⟩ := mem_filter.mp he
  unfold ofProposition
  rw [Term.same_self, hasNan_underPair hp, hc e hmem hp]
  rfl

/-- The new assertion is none of the occurrences from before. -/
theorem new_not_before (hsz : MachineSized root'.store) : n ∉ events := by
  intro hmem
  have hu := h.holds.coordinates h.settled.wf hsz h.occurrences
  unfold DistinctCoordinates at hu
  rw [map_append, map_append] at hu
  have ha := (pairwise_append.mp hu).2.2 _ (mem_map_of_mem hmem) n.coordinate
    (mem_append_right _ (mem_singleton.mpr rfl))
  rw [Term.same_self, h.occurrences.coordinate_clean n (mem_append_left _ hmem)] at ha
  cases ha

variable {position : Nat} {row : OperationRow} {event : OperationOccurrence}

/-- What a row of the store before it was, it is after the update. -/
theorem occurrence_kept (hl : Holds H r l) (hs : l.Settled)
    (hevs : Occurrences l.rows l.spaceId l.operations events)
    (hrow : l.operations[position]? = some row)
    (hev : operationOccurrenceAt r.store row = .ok event) :
    event ∈ events ∧ operationOccurrenceAt root'.store row = .ok event := by
  obtain ⟨hlt, hget⟩ := List.getElem?_eq_some_iff.mp hrow
  have hlen : l.operations.length = events.length := hevs.length_eq
  have hocc : RowOccurs l.rows l.spaceId l.operations[position] events[position] :=
    (forall₂_iff_get.mp hevs).2 position hlt (by omega)
  rw [hget] at hocc
  have hmem := mem_of_getElem? hrow
  rw [hl.occurrenceAt hs.wf hmem hocc] at hev
  cases hev
  obtain ⟨s, hsi⟩ := h.since
  refine ⟨getElem_mem _, h.holds.occurrenceAt h.settled.wf ?_ ?_⟩
  · rw [hsi]
    exact mem_append_left _ hmem
  · rw [h.spaceId]
    exact hocc.mono h.rows

/-- **Every live occurrence of the pair is withdrawn by one of the retractions, once.** -/
theorem withdrawn_once (hl : Holds H r l) (hs : l.Settled)
    (hevs : Occurrences l.rows l.spaceId l.operations events) (hsz : MachineSized root'.store)
    (hc : ∀ event ∈ standing [] events, underPair sb pd event = true →
      event.proposition.t3.hasNan = false) (hli : (position, row) ∈ liveRows H r)
    (hev : operationOccurrenceAt r.store row = .ok event)
    (hp : underPair sb pd event = true) :
    ∃ i, root'.store.withdrawalTargets[i]? = some (some position) ∧ r.store.operations.length ≤ i ∧
      ∀ j, root'.store.withdrawalTargets[j]? = some (some position) → j = i := by
  have hinv := h.holds.withdrawals h.settled
  rw [hl.liveRows_untargeted] at hli
  unfold untargetedRows at hli
  obtain ⟨⟨row', p'⟩, hli, heq⟩ := mem_map.mp hli
  cases heq
  obtain ⟨hrow, hli⟩ := mem_filter.mp hli
  have hrow := mk_mem_zipIdx_iff_getElem?.mp hrow
  simp only [Bool.and_eq_true, decide_eq_true_eq, Bool.not_eq_true', contains_eq_mem,
    decide_eq_false_iff_not] at hli
  obtain ⟨hasr, hu⟩ := hli
  obtain ⟨s, hsi⟩ := h.since
  have hrow' : root'.store.operations[position]? = some row := by
    rw [h.holds.operations, hsi, ← hl.operations]
    rw [getElem?_append_left (List.getElem?_eq_some_iff.mp hrow).1]
    exact hrow
  obtain ⟨hpre, hk⟩ := h.occurrence_kept hl hs hevs (by rw [← hl.operations]; exact hrow) hev
  -- A row that nothing targets would be live after the update, and under the pair.
  have ht : some position ∈ root'.store.withdrawalTargets := by
    by_contra hfree
    have hmem : (position, row) ∈ liveRows H root' := by
      rw [h.holds.liveRows_untargeted]
      unfold untargetedRows
      refine mem_map.mpr ⟨(row, position), mem_filter.mpr
        ⟨mk_mem_zipIdx_iff_getElem?.mpr hrow', ?_⟩, rfl⟩
      simp only [Bool.and_eq_true, decide_eq_true_eq, Bool.not_eq_true', contains_eq_mem,
        decide_eq_false_iff_not]
      exact ⟨hasr, hfree⟩
    have hin := mem_of_mapM h.liveOccurrences_eq hmem hk
    rcases List.mem_append.mp hin with hin | hin
    · rw [h.standing_drops hc] at hin
      have := (mem_filter.mp hin).2
      rw [hp] at this
      cases this
    · rw [mem_singleton.mp hin] at hpre
      exact h.new_not_before hsz hpre
  obtain ⟨i, hi⟩ := mem_iff_getElem?.mp ht
  refine ⟨i, hi, ?_, fun j hj => hinv.once j i position hj hi⟩
  by_contra hearly
  refine hu (mem_iff_getElem?.mpr ⟨i, ?_⟩)
  have hfr : (Lifo.targets (actsOf l'.operations)).take r.store.operations.length
      = r.store.withdrawalTargets := by
    rw [← Lifo.targets_take, hl.targets, hsi, hl.operations]
    unfold actsOf
    rw [map_append, take_append_of_le_length (by rw [length_map]),
      take_of_length_le (by rw [length_map])]
  rw [← hfr, getElem?_take_of_lt (by omega), ← h.holds.targets]
  exact hi

end Updated

/-- **An update that is committed leaves one value exactly when no NaN stands in its way.** -/
theorem Tracks.leavesOne_iff (hl : Holds H r l) (hs : l.Settled)
    {events : List OperationOccurrence} (h : Tracks K l rotation l.history [] events)
    {sb pd v : Term} {root' : Root}
    (hcom : commitBoundary H r (compileSingleUpdate K rotation sb pd v)
      m = .ok (root', coordinate)) (hsz : MachineSized root'.store) :
    LeavesOne H r root' sb pd v ↔ Updatable H r sb pd := by
  have hlive := hl.liveOccurrences_eq hs h.occurrences
  obtain ⟨l', ds, n, hupd⟩ := h.updated hl hs hcom
  have hlive' := hupd.liveOccurrences_eq
  constructor
  · intro hleaves
    obtain ⟨before, after, event, hpre, hpost, hone, -⟩ := hleaves.live
    rw [hlive'] at hpost
    cases hpost
    have hpair : underPair sb pd event = true := by
      have hmem : event ∈ [event] := mem_singleton.mpr rfl
      rw [← hone] at hmem
      exact (mem_filter.mp hmem).2
    obtain ⟨h1, h2⟩ := underPair_iff.mp hpair
    have hsubj := (hasNan_of_same h1).1
    have hpred := (hasNan_of_same h2).1
    refine ⟨hsubj, hpred, _, hlive, ?_⟩
    intro old hold holdpair
    by_contra hnan
    -- An occurrence with a NaN is named by no retraction, and stands beside the new one.
    have hfree : ∀ act, ofProposition act old = false := by
      intro act
      unfold ofProposition
      rw [Term.same_comm]
      exact Term.same_of_hasNan (by rw [hasNan_underPair holdpair]; simpa using hnan)
    have hstands : old ∈ (standing (standing [] events) ds).filter (underPair sb pd) :=
      mem_filter.mpr ⟨mem_stand_of_free hfree (Or.inl hold), holdpair⟩
    have hnew := hupd.underPair_new hsubj hpred
    rw [filter_append, filter_singleton, hnew, cond_true] at hone
    have hlen := congrArg List.length hone
    rw [length_append, length_singleton, length_singleton] at hlen
    have := length_pos_of_mem hstands
    omega
  · rintro ⟨hsubj, hpred, live, hok, hclean⟩
    rw [hlive] at hok
    cases hok
    have hnew := hupd.underPair_new hsubj hpred
    have hdrops := hupd.standing_drops hclean
    refine ⟨⟨_, _, n, hlive, hlive', ?_, hupd.coordinate, hupd.action, hupd.proposition, ?_⟩, ?_⟩
    · have hos : ((standing [] events).filter fun event =>
          !underPair sb pd event).filter (underPair sb pd) = [] := by
        rw [filter_filter]
        refine filter_eq_nil_iff.mpr ?_
        intro event _
        cases underPair sb pd event <;> exact nofun
      rw [hdrops, filter_append, hos, filter_singleton, hnew]
      rfl
    · rw [hdrops, filter_append, filter_filter, filter_singleton, hnew]
      simp only [Bool.and_self, Bool.not_true, cond_false, append_nil]
    · intro position row event hmem hev hpair
      exact hupd.withdrawn_once hl hs h.occurrences hsz hclean hmem hev hpair

/-! ### Committing the builder -/

theorem retractions_valid (events : List OperationOccurrence) (pr : Triple) :
    validOperations ((events.map fun event => retractOperation event.proposition) ++
      [assertOperation pr]) = true := by
  unfold validOperations
  rw [Bool.and_eq_true, all_append, all_map]
  refine ⟨by simp, ?_⟩
  rw [Bool.and_eq_true, all_eq_true]
  exact ⟨fun event _ => rfl, rfl⟩

end

/-- **A single-valued update leaves one value exactly when no NaN stands in its way**, and is
    refused once the store went on.  In every view a run reaches, for every builder that holds the
    operations compiled against the pinned rotation. -/
theorem single_update_leaves_one_iff {K : KeyHashing} {H : Hashing} {spaceId : String}
    {calls : List ViewCall} {view : View} (hloads : ∀ call ∈ calls, call.LoadsDistinct)
    (hrun : reachedView K H spaceId calls = some view) {rotation : Rotation}
    (hrotation : view.rotation = some rotation) (hpinned : rotation.pinned view.root = true)
    (subject predicate value : Term) (builder : Builder)
    (hholds : builder.operations = compileSingleUpdate K rotation subject predicate value) :
    (builder.current view.root = false →
      ∃ message, builder.commit H view.root = .error (.thrown message)) ∧
    (builder.current view.root = true → view.root.store.nextSequence ≠ sequenceBound →
      ∃ root' coordinate, builder.commit H view.root = .ok (root', coordinate)) ∧
    ∀ root' coordinate, builder.commit H view.root = .ok (root', coordinate) →
      MachineSized root'.store → (LeavesOne H view.root root' subject predicate value ↔
          Updatable H view.root subject predicate) := by
  obtain ⟨l, hl, hs, htr⟩ := reachedView_tracked hloads hrun
  obtain ⟨p, s, events, ht⟩ := htr rotation hrotation
  have ht := ht.pinned hl hs.wf hpinned
  have hc := ht.compiled subject predicate value
  have hv : validOperations builder.operations = true := by
    rw [hholds, hc]
    exact retractions_valid _ _
  refine ⟨?_, ?_, ?_⟩
  · intro hst
    unfold Builder.current at hst
    unfold Builder.commit
    by_cases hsp : builder.coordinate.t1.same (.atom (.string view.root.store.spaceId)) = true
    · rw [hsp, Bool.true_and] at hst
      exact ⟨_, by rw [hsp, hst]; rfl⟩
    · rw [Bool.not_eq_true] at hsp
      exact ⟨_, by rw [hsp]; rfl⟩
  · intro hcur hr
    unfold Builder.current at hcur
    rw [Bool.and_eq_true] at hcur
    have hm : (canonicalValidateCommit builder.operations (commitMetadata "store.txn/v1"
        "store/CommitOperationV1" (some "store-schema-v1"))).isOk = true := by
      unfold canonicalValidateCommit
      rw [hv]
      rfl
    obtain ⟨root', coordinate, hok⟩ := hl.commits hs.wf hv hr hm
    refine ⟨root', coordinate, ?_⟩
    unfold Builder.commit
    rw [hcur.1, hcur.2]
    exact hok
  · intro root' coordinate hcom hsz
    unfold Builder.commit at hcom
    split at hcom
    · cases hcom
    · split at hcom
      · cases hcom
      · rw [hholds] at hcom
        exact ht.leavesOne_iff hl hs hcom hsz

/-! ### An update of duplicates, and one of a NaN -/

/-- The builder of an update of `("a", "b", _)` to 5 at a sequence. -/
def fiveUpdate (sequence : Int) (rotation : Rotation) : Builder :=
  ⟨transactionCoordinate "s" sequence, compileSingleUpdate KeyHashing.fnv rotation
    (.atom (.string "a")) (.atom (.string "b")) (.atom (.int 5))⟩

/-- Two equal facts are updated to one. -/
theorem duplicates_updated :
    ∃ view rotation root' coordinate, reachedView KeyHashing.fnv Hashing.fnv "s"
        [assertFact (.bool true), assertFact (.bool true), .project] = some view ∧
      view.rotation = some rotation ∧
      (fiveUpdate 3 rotation).commit Hashing.fnv view.root = .ok (root', coordinate) ∧
      LeavesOne Hashing.fnv view.root root' (.atom (.string "a")) (.atom (.string "b"))
        (.atom (.int 5)) := by
  have hs : (reachedView KeyHashing.fnv Hashing.fnv "s"
      [assertFact (.bool true), assertFact (.bool true), .project]).map (fun view =>
        (view.rotation.map fun rotation => (rotation.pinned view.root,
            ((fiveUpdate 3 rotation).commit Hashing.fnv view.root).toOption.map fun c =>
              (c.1.store.nextSequence, c.1.store.operations.length)),
          (liveOccurrences Hashing.fnv view.root).toOption.map
            (·.all fun event => !event.proposition.t3.hasNan)))
      = some (some (true, some (4, 5)), some true) := by
    decide +kernel
  obtain ⟨view, hrun, hs⟩ := Option.map_eq_some_iff.mp hs
  simp only [Prod.mk.injEq] at hs
  obtain ⟨rotation, hrot, hs'⟩ := Option.map_eq_some_iff.mp hs.1
  simp only [Prod.mk.injEq] at hs'
  obtain ⟨hpin, hc⟩ := hs'
  obtain ⟨⟨root', coordinate⟩, hcom, hsi⟩ := Option.map_eq_some_iff.mp hc
  simp only [Prod.mk.injEq] at hsi
  obtain ⟨lv, hl, hall⟩ := Option.map_eq_some_iff.mp hs.2
  have hld : ∀ cl ∈ [assertFact (.bool true), assertFact (.bool true), .project],
      cl.LoadsDistinct := by
    intro cl hca
    simp only [mem_cons, not_mem_nil, or_false] at hca
    rcases hca with rfl | rfl | rfl <;> trivial
  have hsz : MachineSized root'.store :=
    ⟨by rw [hsi.1]; decide, by rw [hsi.2]; decide⟩
  refine ⟨view, rotation, root', coordinate, hrun, hrot, toOption_eq_some hcom, ?_⟩
  have hu := single_update_leaves_one_iff hld hrun hrot hpin _ _ _ (fiveUpdate 3 rotation) rfl
  refine (hu.2.2 root' coordinate (toOption_eq_some hcom) hsz).mpr
    ⟨rfl, rfl, lv, toOption_eq_some hl, ?_⟩
  intro event hev _
  have hcl := all_eq_true.mp hall event hev
  rw [Bool.not_eq_true'] at hcl
  exact hcl

/-- A NaN under the pair stays live beside the new value. -/
theorem nan_is_not_updated :
    ∃ view rotation root' coordinate, reachedView KeyHashing.fnv Hashing.fnv "s"
        [assertFact (.float .nan), .project] = some view ∧
      view.rotation = some rotation ∧ rotation.pinned view.root = true ∧
      (fiveUpdate 2 rotation).commit Hashing.fnv view.root = .ok (root', coordinate) ∧
      ¬LeavesOne Hashing.fnv view.root root' (.atom (.string "a")) (.atom (.string "b"))
        (.atom (.int 5)) := by
  have hs : (reachedView KeyHashing.fnv Hashing.fnv "s"
      [assertFact (.float .nan), .project]).map (fun view =>
        view.rotation.map fun rotation => (rotation.pinned view.root,
          ((fiveUpdate 2 rotation).commit Hashing.fnv view.root).toOption.map fun c =>
            (liveOccurrences Hashing.fnv c.1).toOption.map fun lv =>
              (lv.filter (underPair (.atom (.string "a")) (.atom (.string "b")))).length))
      = some (some (true, some (some 2))) := by
    decide +kernel
  obtain ⟨view, hrun, hs⟩ := Option.map_eq_some_iff.mp hs
  obtain ⟨rotation, hrot, hs⟩ := Option.map_eq_some_iff.mp hs
  rw [Prod.mk.injEq] at hs
  obtain ⟨⟨root', coordinate⟩, hcom, hl⟩ := Option.map_eq_some_iff.mp hs.2
  obtain ⟨lv, hl, htwo⟩ := Option.map_eq_some_iff.mp hl
  refine ⟨view, rotation, root', coordinate, hrun, hrot, hs.1, toOption_eq_some hcom, ?_⟩
  intro hle
  obtain ⟨b, a, event, -, hp, hone, -⟩ := hle.live
  rw [toOption_eq_some hl] at hp
  cases hp
  rw [hone] at htwo
  cases htwo

end Beagle.Store
