/-
Any order of calls to a store and a rotation.

The store is called as before, and between its calls a rotation is projected, or the one
at hand refreshed.  The rotation at hand always tracks the store.  One that is pinned
answers every pattern as the store does, and with operations staged on it as the store
does once they are committed; it finds the occurrences that are live exactly when no NaN
is.
-/
import Beagle.Proofs.Following

namespace Beagle.Store

open Beagle.Lib List

section

variable {K : KeyHashing} {H : Hashing} {root : Root} {l : Ledger}

/-! ### Projections and refreshes succeed -/

variable {events : List OperationOccurrence} {rotation : Rotation}

theorem Holds.standing_assertions (h : Holds H root l) (hwf : l.Wf) (hsz : MachineSized root.store)
    (hevs : Occurrences l.rows l.spaceId l.operations events) :
    ∀ event ∈ standing [] events, Assertion event := by
  intro event hev
  obtain ⟨hmem, hasr⟩ := mem_of_mem_standing hev
  exact h.assertion hwf hsz hevs hmem hasr

theorem project_succeeds (h : Holds H root l) (hs : l.Settled) (hsz : MachineSized root.store) :
    ∃ rotation, project K H root = .ok rotation := by
  obtain ⟨events, hevs⟩ := hs.wf.occurrences
  obtain ⟨rotation, hok, -⟩ := projected_spec K root.store.spaceId (currentSequence root.store)
    (h.standing_assertions hs.wf hsz hevs)
  refine ⟨rotation, ?_⟩
  unfold project
  rw [h.liveOccurrences_eq hs hevs]
  exact hok

/-- The occurrences of the operations of a record. -/
def recorded (spaceId : String) (sequence : Int64) (ordinal : Nat)
    (operations : List CommitOperation) : List OperationOccurrence :=
  (operations.zipIdx ordinal).map fun (operation, ordinal) =>
    ⟨occurrenceCoordinate (transactionCoordinate spaceId sequence.toInt) ordinal,
      operation.action, operation.proposition⟩

/-- An operation that asserts or retracts. -/
def CommitOperation.Acts (operation : CommitOperation) : Prop :=
  operation.action = .assert ∨ operation.action = .retract

variable {sid : String} {ops : List CommitOperation}

theorem recordOccurrences_eq {sq : Int64}
    (h : ∀ o ∈ ops, o.Acts) :
    ∀ n, ((ops.zipIdx n).mapM fun (o, n) =>
      recordOccurrence sid sq o n) = .ok (recorded sid sq n ops) := by
  induction ops with
  | nil => intro n; rfl
  | cons o r ih =>
    intro n
    have hh : recordOccurrence sid sq o n
        = .ok ⟨occurrenceCoordinate (transactionCoordinate sid sq.toInt) n,
            o.action, o.proposition⟩ := if_pos (h o (mem_cons_self ..))
    rw [zipIdx_cons, mapM_cons]
    dsimp only
    rw [hh, ih (fun op hop => h op (mem_cons_of_mem _ hop)) (n + 1)]
    rfl

variable {rc : TransactionRecord}

theorem pendingWithRecord_eq
    (hs : sid ≠ "") (hseq : 0 ≤ rc.sequence.toInt)
    (ha : ∀ op ∈ rc.operations, op.Acts)
    (p : List OperationOccurrence) :
    pendingWithRecord p sid rc = .ok (p ++ recorded sid rc.sequence 0 rc.operations) := by
  unfold pendingWithRecord
  rw [if_pos ⟨decide_eq_true hs, hseq⟩, recordOccurrences_eq ha]
  rfl

theorem pendingWithRecords_succeeds (hs : sid ≠ "")
    {rcs : List TransactionRecord}
    (h : ∀ rc ∈ rcs, 0 ≤ rc.sequence.toInt ∧ ∀ op ∈ rc.operations, op.Acts) :
    ∀ p, ∃ pending', rcs.foldlM (fun b rc =>
      pendingWithRecord b sid rc) p = .ok pending' := by
  induction rcs with
  | nil => intro p; exact ⟨p, rfl⟩
  | cons rc rs ih =>
    intro p
    obtain ⟨hseq, ha⟩ := h rc (mem_cons_self ..)
    rw [foldlM_cons, pendingWithRecord_eq hs hseq ha]
    exact ih (fun r hr => h r (mem_cons_of_mem _ hr)) _

variable {rs : Rows}

/-- The record of a transaction of a ledger can be put in a tail. -/
theorem Transaction.Record.acts {t : Transaction}
    (h : t.Record rs rc) (hwf : t.Wf rs) (hpos : 0 ≤ t.sequence) :
    0 ≤ rc.sequence.toInt ∧ ∀ op ∈ rc.operations, op.Acts := by
  refine ⟨?_, ?_⟩
  · rw [h.sequence]
    exact hpos
  · intro op hop
    have hmem : op.action ∈ rc.operations.map CommitOperation.action :=
      mem_map_of_mem hop
    rw [h.actions] at hmem
    obtain ⟨act, hact, heq⟩ := mem_map.mp hmem
    have ha := hwf.action act hact
    rw [heq] at ha
    exact ha

theorem refresh_succeeds (hl : Holds H root l) (hs : l.Settled) (hsz : MachineSized root.store)
    {p s : List Transaction} (h : Tracks K l rotation p s events) :
    ∃ rotation', refresh K rotation root = .ok rotation' := by
  have hwf := hs.wf
  have hso : root.store.rows.Sound := hl.sound hs
  have hcur : currentSequence root.store = l.nextSequence - 1 := by
    unfold currentSequence
    rw [hl.nextSequence]
  have hsp : ¬root.store.spaceId ≠ rotation.spaceId := by
    rw [hl.spaceId, h.spaceId]
    exact fun hne => hne rfl
  have ha : ¬rotation.version > currentSequence root.store := by
    have := h.version
    omega
  unfold refresh
  dsimp only
  rw [if_neg hsp, if_neg ha]
  by_cases hpin : rotation.version = currentSequence root.store
  · exact ⟨rotation, if_pos hpin⟩
  rw [if_neg hpin, h.records hl hwf]
  have hops : root.store.operations = p.flatMap Transaction.operationRows ++
      s.flatMap Transaction.operationRows := by
    rw [hl.operations]
    unfold Ledger.operations
    rw [h.history, flatMap_append]
  have hsi : ∀ t ∈ s, t.Wf root.store.rows ∧ 0 ≤ t.sequence ∧ t.sequence ≤ sequenceBound := by
    intro t ht
    have hmem : t ∈ l.history := by
      rw [h.history]
      exact mem_append_right _ ht
    have hlt := hwf.sequence_lt hmem
    have hn := (hl.sizes hsz).1
    rw [hl.rows]
    exact ⟨hwf.transactions t hmem, hwf.nonneg t hmem, by omega⟩
  obtain ⟨rcs, hr, hall⟩ := @transactionRecords_spec _ hso [] s _
    (by rw [append_nil]; exact hops) hsi
  have hac : ∀ rc ∈ rcs, 0 ≤ rc.sequence.toInt ∧ ∀ op ∈ rc.operations, op.Acts := by
    obtain ⟨hlen, hget⟩ := forall₂_iff_get.mp hall
    intro rc hrec
    obtain ⟨i, hi, rfl⟩ := getElem_of_mem hrec
    have hi' : i < s.length := by omega
    obtain ⟨htwf, hpos, -⟩ := hsi _ (getElem_mem hi')
    exact (hget i hi' hi).acts htwf hpos
  have hv : root.store.spaceId ≠ "" := by
    rw [hl.spaceId]
    exact hwf.space
  obtain ⟨pe, hp⟩ := pendingWithRecords_succeeds hv hac rotation.pending
  rw [hr]
  simp only [bind, Except.bind]
  rw [hp]
  dsimp only
  obtain ⟨m, hm, rfl⟩ := pendingRecords_spec hso s _ hops hr hp
  rw [hl.rows, hl.spaceId] at hm
  by_cases hlo : (rotation.pending ++ m).length > pendingFoldCap
  · rw [if_pos hlo]
    have ho : Occurrences l.rows l.spaceId l.operations (events ++ m) := by
      unfold Ledger.operations
      rw [h.history, flatMap_append]
      exact rel_append h.occurrences hm
    have hst : standing rotation.events (rotation.pending ++ m) = standing [] (events ++ m) := by
      rw [standing_append, ← Rotation.allOccurrences_eq, h.stands, ← standing_append]
    rw [Rotation.allOccurrences_eq]
    dsimp only
    rw [hst]
    obtain ⟨rotation', hok, -⟩ := projected_spec K root.store.spaceId (currentSequence root.store)
      (hl.standing_assertions hwf hsz ho)
    exact ⟨rotation', hok⟩
  · exact ⟨_, if_neg hlo⟩

/-! ### Staging -/

/-- The occurrences of the operations that are committed are those that were staged, up to the
    Terms the store has for theirs. -/
theorem recorded_same {sq : Int}
    {hs' : List Int}
    (hden : Forall₂ (fun h' t => ∃ u, rs.Denotes h' u ∧ u.agrees t) hs' (propositions ops)) :
    ∀ {n : Nat} {events : List OperationOccurrence}, Occurrences rs sid (operationRowsFrom sq n
        ((ops.map CommitOperation.action).zip hs')) events →
        Forall₂ SameOccurrence (recorded sid (Int64.ofInt sq) n ops) events := by
  induction ops generalizing hs' with
  | nil =>
    intro n events hevs
    cases hevs
    exact .nil
  | cons op r ih =>
    intro n events hevs
    cases hden with
    | cons hh hr =>
      obtain ⟨u, hu, ha⟩ := hh
      cases hevs with
      | cons hev hos =>
        refine .cons ⟨?_, hev.action.symm, ?_⟩ (ih hr hos)
        · rw [hev.coordinate]
          unfold transactionCoordinate
          rw [ofInt_toInt_ofInt]
        · rw [hev.denotes.unique hu]
          exact Term.agrees_symm ha

variable {operations : List CommitOperation}

theorem validOperations_acts
    (h : validOperations operations = true) : ∀ operation ∈ operations, operation.Acts := by
  intro operation hop
  unfold validOperations at h
  rw [Bool.and_eq_true, all_eq_true] at h
  have hv := h.2 operation hop
  unfold validCommitOperation at hv
  rw [Bool.or_eq_true, decide_eq_true_iff, decide_eq_true_iff] at hv
  exact hv

variable {a' : List OperationOccurrence} {metadata : CommitMetadata} {root' : Root}
  {coordinate : Triple} {acts : List OperationOccurrence}

theorem standing_same (h : Forall₂ SameOccurrence acts a') :
    Forall₂ SameOccurrence (standing events acts) (standing events a') := by
  refine stand_forall₂ ?_ ?_ h (forall₂_same.mpr fun event _ => SameOccurrence.refl event)
  · intro a b hab
    unfold asserted
    rw [hab.action]
  · intro a b x y hab hxy
    unfold ofProposition
    rw [Term.same_of_agrees hab.proposition, Term.same_comm, Term.same_of_agrees hxy.proposition,
      Term.same_comm]

theorem DistinctCoordinates.of_same {a : List OperationOccurrence}
    (hs : Forall₂ SameOccurrence a a') (h : DistinctCoordinates (events ++ a')) :
    DistinctCoordinates (events ++ a) := by
  have hmap : a.map OperationOccurrence.coordinate = a'.map OperationOccurrence.coordinate := by
    induction hs with
    | nil => rfl
    | cons hh _ ih =>
      refine congrArg₂ List.cons hh.coordinate (ih ?_)
      refine List.Pairwise.sublist ?_ h
      rw [map_append, map_append]
      exact Sublist.append_left (sublist_cons_self ..) _
  unfold DistinctCoordinates at h ⊢
  rw [map_append] at h ⊢
  rw [hmap]
  exact h

/-- An occurrence that a NaN occurs in stands from when it is asserted. -/
theorem standing_clean_iff :
    (∀ event ∈ standing events acts, event.proposition.term.hasNan = false) ↔
      (∀ event ∈ events, event.proposition.term.hasNan = false) ∧
        ∀ act ∈ acts, act.action = .assert → act.proposition.term.hasNan = false := by
  have hfree : ∀ {event : OperationOccurrence}, event.proposition.term.hasNan = true →
      ∀ act, ofProposition act event = false := by
    intro event hnan act
    unfold ofProposition
    rw [Term.same_comm]
    exact Term.same_of_hasNan hnan
  constructor
  · intro h
    refine ⟨?_, ?_⟩
    · intro event hev
      by_cases hnan : event.proposition.term.hasNan = true
      · exact h event (mem_stand_of_free (hfree hnan) (Or.inl hev))
      · exact Bool.eq_false_iff.mpr hnan
    · intro act hact hasr
      by_cases hnan : act.proposition.term.hasNan = true
      · exact h act (mem_stand_of_free (hfree hnan) (Or.inr ⟨hact, beq_iff_eq.mpr hasr⟩))
      · exact Bool.eq_false_iff.mpr hnan
  · intro ⟨hevs, hacts⟩ event hev
    rcases mem_of_mem_stand hev with hmem | ⟨hmem, hput⟩
    · exact hevs event hmem
    · exact hacts event hmem (beq_iff_eq.mp hput)

theorem Occurrences.coordinate_clean
    {ops : List OperationRow} (h : Occurrences rs sid ops events) :
    ∀ e ∈ events, e.coordinate.term.hasNan = false := by
  obtain ⟨hlen, hget⟩ := forall₂_iff_get.mp h
  intro e hev
  obtain ⟨i, hi, rfl⟩ := getElem_of_mem hev
  have hi' : i < ops.length := by omega
  have hrow : RowOccurs rs sid ops[i] events[i] := hget i hi' hi
  rw [hrow.coordinate]
  rfl

theorem liveClean_iff {lv : List OperationOccurrence} (h : liveOccurrences H root = .ok lv) :
    LiveClean H root ↔ ∀ e ∈ lv, e.proposition.term.hasNan = false := by
  constructor
  · intro ⟨live', hlive', hc⟩
    rw [h] at hlive'
    cases hlive'
    exact hc
  · intro hc
    exact ⟨lv, h, hc⟩

/-- **A pinned rotation answers like the store exactly when no NaN is live.** -/
theorem Tracks.answers_iff (hl : Holds H root l) (hs : l.Settled) (hsz : MachineSized root.store)
    (h : Tracks K l rotation l.history [] events) :
    AnswersLike K H Eq root rotation ↔ LiveClean H root := by
  have hu := hl.coordinates hs.wf hsz h.occurrences
  have hli := hl.liveOccurrences_eq hs h.occurrences
  refine answersLike_iff ?_ hli h.indexes ?_ hu h.known hu ?_
  · intro a b hab
    rw [hab]
    exact SameOccurrence.refl b
  · rw [h.stands]
    exact forall₂_same.mpr fun _ _ => rfl
  · intro e hev
    have hmem := (mem_of_mem_standing hev).1
    exact ⟨hmem, h.occurrences.coordinate_clean e hmem⟩

/-- The occurrences after a commit: those before it, and those of its operations. -/
theorem Holds.committed (hl : Holds H root l) (hs : l.Settled)
    (hevs : Occurrences l.rows l.spaceId l.operations events)
    (hcom : commitBoundary H root operations metadata = .ok (root', coordinate)) :
    ∃ more, Holds H root' (l.commit l.nextSequence operations) ∧
      (l.commit l.nextSequence operations).Settled ∧
      Occurrences (l.commit l.nextSequence operations).rows l.spaceId
        (l.commit l.nextSequence operations).operations (events ++ more) ∧
      Forall₂ SameOccurrence (recorded l.spaceId (Int64.ofInt l.nextSequence) 0 operations)
        more := by
  obtain ⟨hv, -, hl', -⟩ := commitBoundary_spec hl hs.wf hcom
  have hs' := hs.commit hv (Int.le_refl _)
  have hcont := l.commit_continues operations (Int.le_refl _)
  let handles := (l.rows.internAll (propositions operations)).2
  have hops : (l.commit l.nextSequence operations).operations = l.operations ++
      operationRowsFrom l.nextSequence 0 ((operations.map CommitOperation.action).zip handles) :=
    Ledger.append_operations _ _ _
  have hocc : ∃ more, Occurrences (l.commit l.nextSequence operations).rows l.spaceId
      (operationRowsFrom l.nextSequence 0
        ((operations.map CommitOperation.action).zip handles)) more := by
    refine exists_forall₂ fun row hrow => hs'.wf.occurs ?_
    rw [hops]
    exact mem_append_right _ hrow
  obtain ⟨more, hmore⟩ := hocc
  refine ⟨more, hl', hs', ?_, recorded_same (Rows.internAll_agrees hs.wf.sound _) hmore⟩
  rw [hops]
  exact rel_append (hevs.mono hcont.rows) hmore

/-- **A staged rotation answers like the store after the commit exactly when no NaN is live
    then.** -/
theorem Tracks.staged_iff (hl : Holds H root l) (hs : l.Settled)
    (h : Tracks K l rotation l.history [] events)
    (hcom : commitBoundary H root ops metadata = .ok (root', coordinate))
    (hsz : MachineSized root'.store) :
    ∃ rotation', staged rotation root.store.spaceId (Int64.ofInt root.store.nextSequence) ops
        = .ok rotation' ∧
      (AnswersLike K H SameOccurrence root' rotation' ↔ LiveClean H root ∧
        ∀ op ∈ ops, op.action = .assert → op.proposition.term.hasNan = false) := by
  have hwf := hs.wf
  obtain ⟨hv, -⟩ := commitBoundary_spec hl hwf hcom
  have hevs : Occurrences l.rows l.spaceId l.operations events := h.occurrences
  obtain ⟨m, hl', hs', hall, hsa⟩ := hl.committed hs hevs hcom
  have hu := hl'.coordinates hs'.wf hsz hall
  have hli := hl.liveOccurrences_eq hs h.occurrences
  have hli' := hl'.liveOccurrences_eq hs' hall
  let added := recorded l.spaceId (Int64.ofInt l.nextSequence) 0 ops
  let rotation' : Rotation := { rotation with pending := rotation.pending ++ added }
  have hok : staged rotation root.store.spaceId (Int64.ofInt root.store.nextSequence) ops
      = .ok rotation' := by
    have hpos : 0 ≤ (Int64.ofInt l.nextSequence).toInt := by
      have hn := hwf.nextSequence_pos
      have hb := (hl'.sizes hsz).1
      rw [show (l.commit l.nextSequence ops).nextSequence = l.nextSequence + 1 from
        Ledger.append_nextSequence _ _ _] at hb
      rw [Int64.toInt_ofInt_of_lt (by omega) (by omega)]
      omega
    unfold staged
    rw [hl.spaceId, hl.nextSequence, pendingWithRecord_eq hwf.space hpos (validOperations_acts hv)]
    rfl
  have hst : rotation'.allOccurrences = standing (standing [] events) added := by
    rw [Rotation.allOccurrences_eq, ← h.stands, Rotation.allOccurrences_eq, ← standing_append]
  refine ⟨rotation', hok, ?_⟩
  have hans : AnswersLike K H SameOccurrence root' rotation' ↔ LiveClean H root' := by
    refine answersLike_iff (fun _ _ hab => hab) hli' (h.indexes.of_same rfl rfl rfl rfl rfl) ?_
      (hu.of_same hsa) ?_ hu ?_
    · rw [hst, standing_append]
      exact standing_same hsa
    · intro e hev
      rw [← append_assoc] at hev
      rcases List.mem_append.mp hev with hev | hev
      · exact mem_append_left _ (h.known e hev)
      · exact mem_append_right _ hev
    · intro e hev
      have hmem := (mem_of_mem_standing hev).1
      exact ⟨hmem, hall.coordinate_clean e hmem⟩
  rw [hans, liveClean_iff hli', liveClean_iff hli, standing_append, standing_clean_iff]
  refine and_congr_right fun _ => ?_
  -- The staged operations have a NaN where the committed ones do.
  have hc : ∀ {a a' : List OperationOccurrence}, Forall₂ SameOccurrence a a' →
      ((∀ act ∈ a', act.action = .assert → act.proposition.term.hasNan = false) ↔
        ∀ act ∈ a, act.action = .assert → act.proposition.term.hasNan = false) := by
    intro a a' ha
    induction ha with
    | nil => exact Iff.rfl
    | cons hh _ ih =>
      rw [forall_mem_cons, forall_mem_cons, ih, hh.action, Term.hasNan_of_agrees hh.proposition]
  rw [hc hsa]
  have hr : ∀ n, (∀ act ∈ recorded l.spaceId (Int64.ofInt l.nextSequence) n
      ops, act.action = .assert → act.proposition.term.hasNan = false) ↔
        ∀ op ∈ ops, op.action = .assert → op.proposition.term.hasNan = false := by
    intro n
    clear * -
    induction ops generalizing n with
    | nil => exact ⟨fun _ => nofun, fun _ => nofun⟩
    | cons op r ih =>
      show (∀ act ∈ _ :: recorded _ _ (n + 1) r, _) ↔ _
      rw [forall_mem_cons, forall_mem_cons, ih]
  exact hr 0

end

/-! ### Runs -/

/-- A store and the rotation at hand, if there is one. -/
structure View where
  root : Root
  rotation : Option Rotation

inductive ViewCall where
  | store (call : StoreCall)
  | project
  | refresh

section

variable (K : KeyHashing) (H : Hashing)

/-- The view after a call, if the call succeeds.  A load puts another history in the place of the
    one that the rotation is of. -/
def ViewCall.run (view : View) : ViewCall → Option View
  | .store call => (call.run H view.root).map fun root =>
    ⟨root, if call.isLoad then none else view.rotation⟩
  | .project => (Store.project K H view.root).toOption.map fun rotation => ⟨view.root, some rotation⟩
  | .refresh => view.rotation.bind fun rotation =>
    (Store.refresh K rotation view.root).toOption.map fun rotation => ⟨view.root, some rotation⟩

def ViewCall.runAll (view : View) : List ViewCall → Option View
  | [] => some view
  | call :: rest => (call.run K H view).bind fun view' => runAll view' rest

/-- The view that some calls make of a fresh store. -/
def reachedView (spaceId : String) (calls : List ViewCall) : Option View :=
  (newTermStore spaceId).toOption.bind fun root => ViewCall.runAll K H ⟨root, none⟩ calls

end

def ViewCall.LoadsDistinct : ViewCall → Prop
  | .store call => call.LoadsDistinct
  | _ => True

section

variable {K : KeyHashing} {H : Hashing}

/-- The rotation at hand tracks the ledger that the store holds. -/
def View.Tracked (K : KeyHashing) (H : Hashing) (view : View) : Prop :=
  ∃ l, Holds H view.root l ∧ l.Settled ∧ ∀ rotation, view.rotation = some rotation →
      ∃ past since events, Tracks K l rotation past since events

variable {view : View} {cs : List ViewCall}

/-- **A call that succeeds keeps the rotation on track.** -/
theorem ViewCall.run_tracked {v' : View} {c : ViewCall} (h : view.Tracked K H)
    (hld : c.LoadsDistinct) (hrun : c.run K H view = some v') : v'.Tracked K H := by
  obtain ⟨l, hl, hs, htr⟩ := h
  cases c with
  | store c =>
    obtain ⟨root', hc, rfl⟩ := Option.map_eq_some_iff.mp hrun
    obtain ⟨l', hl', hs', hco⟩ := StoreCall.run_continues hl hs hld hc
    refine ⟨l', hl', hs', ?_⟩
    intro rotation hrot
    dsimp only at hrot
    by_cases hlo : c.isLoad = true
    · rw [if_pos hlo] at hrot
      cases hrot
    · rw [if_neg hlo] at hrot
      obtain ⟨pa, s, events, ht⟩ := htr rotation hrot
      obtain ⟨s', ht'⟩ := ht.later hs'.wf (hco (Bool.eq_false_iff.mpr hlo))
      exact ⟨pa, s', events, ht'⟩
  | project =>
    obtain ⟨p, hp, rfl⟩ := Option.map_eq_some_iff.mp hrun
    refine ⟨l, hl, hs, ?_⟩
    intro rotation hrot
    cases hrot
    obtain ⟨events, ht, -⟩ := project_tracks hl hs (toOption_eq_some hp)
    exact ⟨_, _, _, ht⟩
  | refresh =>
    obtain ⟨rotation, hrot, hrun⟩ := Option.bind_eq_some_iff.mp hrun
    obtain ⟨r, hr, rfl⟩ := Option.map_eq_some_iff.mp hrun
    obtain ⟨pa, s, events, ht⟩ := htr rotation hrot
    refine ⟨l, hl, hs, ?_⟩
    intro r' hrot'
    cases hrot'
    obtain ⟨es', ht', -⟩ := refresh_tracks hl hs ht (toOption_eq_some hr)
    exact ⟨_, _, _, ht'⟩

theorem ViewCall.runAll_tracked :
    ∀ {view v' : View}, view.Tracked K H → (∀ cl ∈ cs, cl.LoadsDistinct) →
      runAll K H view cs = some v' → v'.Tracked K H := by
  induction cs with
  | nil =>
    intro view v' h _ hrun
    cases hrun
    exact h
  | cons cl r ih =>
    intro view v' h hld hrun
    obtain ⟨m, hca, hr⟩ := Option.bind_eq_some_iff.mp hrun
    exact ih (run_tracked h (hld cl (mem_cons_self ..)) hca)
      (fun c hc => hld c (mem_cons_of_mem _ hc)) hr

theorem reachedView_tracked {sid : String} (hld : ∀ c ∈ cs, c.LoadsDistinct)
    (hrun : reachedView K H sid cs = some view) : view.Tracked K H := by
  obtain ⟨fr, hnew, hrun⟩ := Option.bind_eq_some_iff.mp hrun
  obtain ⟨l, hl, hs⟩ := newTermStore_settled (H := H) (toOption_eq_some hnew)
  exact ViewCall.runAll_tracked ⟨l, hl, hs, fun _ h => by cases h⟩ hld hrun

theorem pinned_of_version {root : Root} {l : Ledger} (hl : Holds H root l) {rotation : Rotation}
    (hs : rotation.spaceId = l.spaceId) (hver : rotation.version = currentSequence root.store) :
    rotation.pinned root = true := by
  unfold Rotation.pinned
  rw [hl.spaceId, hs, hver, beq_self_eq_true, beq_self_eq_true]
  rfl

/-- A pinned rotation has folded everything. -/
theorem Tracks.pinned {root : Root} {l : Ledger} (hl : Holds H root l) (hwf : l.Wf)
    {rotation : Rotation} {p s : List Transaction} {events : List OperationOccurrence}
    (h : Tracks K l rotation p s events) (hpin : rotation.pinned root = true) :
    Tracks K l rotation l.history [] events := by
  unfold Rotation.pinned currentSequence at hpin
  rw [Bool.and_eq_true, beq_iff_eq, beq_iff_eq, hl.nextSequence] at hpin
  obtain ⟨hp, hs⟩ := h.caught_up hwf hpin.2.symm
  rw [hp, hs] at h
  exact h

/-- **Rotations answer like their store.**  In every view a run reaches, a projection and a refresh
    succeed and are pinned; a pinned rotation answers like the store exactly when no NaN is live;
    and with operations staged on it, as the store does after their commit, exactly when no NaN is
    live then. -/
theorem rotations_answer_like_store {spaceId : String} {calls : List ViewCall} {view : View}
    (hloads : ∀ call ∈ calls, call.LoadsDistinct)
    (hrun : reachedView K H spaceId calls = some view) (hsized : MachineSized view.root.store) :
    (∃ rotation, project K H view.root = .ok rotation ∧ rotation.pinned view.root = true) ∧
    ∀ rotation, view.rotation = some rotation →
      (∃ rotation', refresh K rotation view.root = .ok rotation' ∧
        rotation'.pinned view.root = true) ∧
      (rotation.pinned view.root = true →
        (AnswersLike K H Eq view.root rotation ↔ LiveClean H view.root) ∧
        ∀ operations metadata root' coordinate,
          commitBoundary H view.root operations metadata = .ok (root', coordinate) →
            MachineSized root'.store → ∃ rotation', staged rotation view.root.store.spaceId
                  (Int64.ofInt view.root.store.nextSequence) operations = .ok rotation' ∧
                (AnswersLike K H SameOccurrence root' rotation' ↔ LiveClean H view.root ∧
                  ∀ operation ∈ operations, operation.action = .assert →
                    operation.proposition.term.hasNan = false)) := by
  obtain ⟨l, hl, hs, htracks⟩ := reachedView_tracked hloads hrun
  refine ⟨?_, ?_⟩
  · obtain ⟨rotation, hproj⟩ := project_succeeds (K := K) hl hs hsized
    obtain ⟨events, ht, hver⟩ := project_tracks hl hs hproj
    exact ⟨rotation, hproj, pinned_of_version hl ht.spaceId hver⟩
  · intro rotation hrot
    obtain ⟨past, since, events, ht⟩ := htracks rotation hrot
    refine ⟨?_, ?_⟩
    · obtain ⟨rotation', hrefresh⟩ := refresh_succeeds hl hs hsized ht
      obtain ⟨events', ht', hver⟩ := refresh_tracks hl hs ht hrefresh
      exact ⟨rotation', hrefresh, pinned_of_version hl ht'.spaceId hver⟩
    · intro hpin
      have ht := ht.pinned hl hs.wf hpin
      refine ⟨ht.answers_iff hl hs hsized, ?_⟩
      intro operations metadata root' coordinate hcom hsz'
      exact ht.staged_iff hl hs hcom hsz'

/-! ### A run that is answered, and an occurrence that is not found -/

def assertFact (t3 : AtomValue) : ViewCall :=
  .store (.commit [⟨.assert, ⟨.atom (.string "a"), .atom (.string "b"), .atom t3⟩⟩]
    (commitMetadata "p" "s" none))

/-- A projection, a commit behind it and a refresh. -/
theorem refreshed_rotation_answers : ∃ view rotation, reachedView KeyHashing.fnv Hashing.fnv "s"
        [assertFact (.bool true), .project, assertFact (.bool true), .refresh] = some view ∧
      view.rotation = some rotation ∧ rotation.pinned view.root = true ∧
      AnswersLike KeyHashing.fnv Hashing.fnv Eq view.root rotation := by
  obtain ⟨view, hrun⟩ := Option.isSome_iff_exists.mp (show (reachedView KeyHashing.fnv Hashing.fnv
    "s" [assertFact (.bool true), .project, assertFact (.bool true), .refresh]).isSome = true by
      decide +kernel)
  have hseen : (reachedView KeyHashing.fnv Hashing.fnv "s"
      [assertFact (.bool true), .project, assertFact (.bool true), .refresh]).map (fun view =>
        (view.rotation.map (·.pinned view.root), view.root.store.nextSequence,
          view.root.store.operations.length, (liveOccurrences Hashing.fnv view.root).toOption.map
            (·.all fun event => !event.proposition.term.hasNan)))
      = some (some true, 3, 2, some true) := by
    decide +kernel
  rw [hrun] at hseen
  simp only [Option.map_some, Option.some.injEq, Prod.mk.injEq] at hseen
  obtain ⟨hpin, hnext, hlen, hclean⟩ := hseen
  obtain ⟨rotation, hrot, hpin⟩ := Option.map_eq_some_iff.mp hpin
  obtain ⟨live, hlive, hall⟩ := Option.map_eq_some_iff.mp hclean
  have hld : ∀ call ∈ [assertFact (.bool true), .project, assertFact (.bool true), .refresh],
      call.LoadsDistinct := by
    intro call hcall
    simp only [mem_cons, not_mem_nil, or_false] at hcall
    rcases hcall with rfl | rfl | rfl | rfl <;> trivial
  have hsz : MachineSized view.root.store :=
    ⟨by rw [hnext]; decide, by rw [hlen]; decide⟩
  have hans := ((rotations_answer_like_store hld hrun hsz).2 rotation hrot).2 hpin
  refine ⟨view, rotation, hrun, hrot, hpin, hans.1.mpr ⟨live, toOption_eq_some hlive, ?_⟩⟩
  intro event hev
  have hclean := all_eq_true.mp hall event hev
  rw [Bool.not_eq_true'] at hclean
  exact hclean

/-- The occurrence of a proposition with a NaN is live, and a fresh projection does not find it. -/
theorem nan_occurrence_is_not_found : ∃ view rotation,
      reachedView KeyHashing.fnv Hashing.fnv "s" [assertFact (.float .nan), .project] = some view ∧
      view.rotation = some rotation ∧ rotation.pinned view.root = true ∧
      ¬AnswersLike KeyHashing.fnv Hashing.fnv Eq view.root rotation := by
  obtain ⟨view, hrun⟩ := Option.isSome_iff_exists.mp (show (reachedView KeyHashing.fnv Hashing.fnv
    "s" [assertFact (.float .nan), .project]).isSome = true by decide +kernel)
  have hs : (reachedView KeyHashing.fnv Hashing.fnv "s"
      [assertFact (.float .nan), .project]).map (fun view =>
        (view.rotation.map fun rotation =>
          (rotation.pinned view.root, rotation.liveOccurrence KeyHashing.fnv
            (occurrenceCoordinate (transactionCoordinate "s" 1) 0)),
        (liveOccurrences Hashing.fnv view.root).toOption.map
          (·.any (hasCoordinate (occurrenceCoordinate (transactionCoordinate "s" 1) 0)))))
      = some (some (true, false), some true) := by
    decide +kernel
  rw [hrun] at hs
  simp only [Option.map_some, Option.some.injEq, Prod.mk.injEq] at hs
  obtain ⟨hf, hl⟩ := hs
  obtain ⟨rotation, hrot, hf⟩ := Option.map_eq_some_iff.mp hf
  rw [Prod.mk.injEq] at hf
  obtain ⟨lv, hl, hany⟩ := Option.map_eq_some_iff.mp hl
  refine ⟨view, rotation, hrun, hrot, hf.1, ?_⟩
  intro hans
  obtain ⟨l', hl', hocc⟩ := hans.occurrence
  rw [toOption_eq_some hl] at hl'
  cases hl'
  have hat := hocc (occurrenceCoordinate (transactionCoordinate "s" 1) 0)
  rw [hf.2, hany] at hat
  cases hat

end

end Beagle.Store
