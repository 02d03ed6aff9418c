/-
What a rotation answers.

A rotation stands for one list: what stands of the operations folded into it so far.
Every read is that list cut down to a pattern, whatever is in the buckets and whatever
is still in the tail.  The live occurrences of a store are what stands of all its
operations, so a rotation that has folded them all answers like the store.

A rotation follows its store.

A rotation has folded the transactions up to its version.  Committing puts more
transactions behind those, and a refresh folds them too, into the tail or into a fresh
base.  Whatever the order of projections, commits and refreshes, a rotation stands for
what stands of the operations up to its version.
-/
import Beagle.Proofs.Buckets
import Beagle.Proofs.Histories

namespace Beagle.Store

open Beagle.Lib List

/-! ### One list -/

def asserted (event : OperationOccurrence) : Bool := event.action == .assert

/-- Does the act name the proposition of the event? -/
def ofProposition (act event : OperationOccurrence) : Bool :=
  act.proposition.term.same event.proposition.term

/-- Does the event have the Terms that are bound? -/
def covers (t1 t2 t3 : Option Term) (event : OperationOccurrence) : Bool :=
  patternMatch event.proposition t1 t2 t3

/-- What stands after some operations, of these and of the events before them. -/
def standing (events acts : List OperationOccurrence) : List OperationOccurrence :=
  stand asserted ofProposition events acts

theorem mergedMatching_eq (b pending : List OperationOccurrence) (t1 t2 t3 : Option Term) :
    mergedMatching b pending t1 t2 t3
      = standWithin asserted ofProposition (covers t1 t2 t3) b pending := by
  unfold mergedMatching standWithin
  refine congrArg (fun s => foldl s b pending) ?_
  funext es op
  unfold standStepWithin asserted covers withoutNewestOf
  by_cases h : op.action = .assert
  · rw [if_pos h, if_pos (beq_iff_eq.mpr h)]
  · rw [if_neg h, if_neg (by rw [beq_iff_eq]; exact h)]
    rfl

theorem same_triple {p q : Triple} (h : p.term.same q.term = true) :
    p.t1.same q.t1 = true ∧ p.t2.same q.t2 = true ∧ p.t3.same q.t3 = true := by
  simp only [Triple.term, Term.same, Bool.and_eq_true] at h
  exact ⟨h.1.1, h.1.2, h.2⟩

theorem slotMatches_same {a b : Term} (h : a.same b = true) (p : Option Term) :
    slotMatches p a = slotMatches p b := by
  cases p with
  | none => rfl
  | some bd =>
    show bd.same a = bd.same b
    rw [Term.same_comm bd a, Term.same_comm bd b, Bool.eq_iff_iff]
    exact ⟨Term.same_trans (Term.same_symm h), Term.same_trans h⟩

/-- A pattern has all the events of a proposition or none. -/
theorem covers_ofProposition (t1 t2 t3 : Option Term) {act x y : OperationOccurrence}
    (hx : ofProposition act x = true) (hy : ofProposition act y = true) :
    covers t1 t2 t3 x = covers t1 t2 t3 y := by
  obtain ⟨h1, h2, h3⟩ := same_triple (Term.same_trans (Term.same_symm hx) hy)
  unfold covers patternMatch
  rw [slotMatches_same h1, slotMatches_same h2, slotMatches_same h3]

theorem mergedMatching_filter (b p : List OperationOccurrence) (t1 t2 t3 : Option Term) :
    mergedMatching (b.filter (covers t1 t2 t3)) p t1 t2 t3
      = (standing b p).filter (covers t1 t2 t3) := by
  rw [mergedMatching_eq]
  exact standWithin_eq (fun act x y hx hy => @covers_ofProposition t1 t2 t3 act x y hx hy) p b

theorem mergedMatching_congr {b p : List OperationOccurrence} {t1 t2 t3 : Option Term}
    {P Q : OperationOccurrence → Bool} (h : ∀ event, P event = Q event) :
    mergedMatching (b.filter P) p t1 t2 t3 = mergedMatching (b.filter Q) p t1 t2 t3 :=
  congrArg (fun b => mergedMatching b p t1 t2 t3) (filter_congr fun event _ => h event)

theorem covers_unbound : covers none none none = fun _ => true := rfl

namespace Rotation

variable {ro : Rotation}

theorem allOccurrences_eq (ro : Rotation) : ro.allOccurrences = standing ro.events ro.pending := by
  have h := mergedMatching_filter ro.events ro.pending none none none
  rw [covers_unbound, filter_true, filter_true] at h
  exact h

theorem filter_narrowed {es lea : List OperationOccurrence}
    {p q : OperationOccurrence → Bool} (h : lea = es.filter p) :
    lea.filter q = es.filter fun event => p event && q event := by
  rw [h, filter_filter]
  exact filter_congr fun event _ => Bool.and_comm _ _

/-- What a leaf leaves of the events, when it has those of the pattern. -/
theorem merged_leaf {lea : List OperationOccurrence} {p : OperationOccurrence → Bool}
    {t1 t2 t3 : Option Term} (h : lea = ro.events.filter p)
    (hp : ∀ event, p event = covers t1 t2 t3 event) :
    mergedMatching lea ro.pending t1 t2 t3 = ro.allOccurrences.filter (covers t1 t2 t3) := by
  rw [allOccurrences_eq, ← mergedMatching_filter, h]
  exact mergedMatching_congr hp

/-- **Every pattern is answered from the one list the rotation stands for.** -/
theorem matching_eq {K : KeyHashing} (h : Indexes K ro) (t1 t2 t3 : Option Term) :
    ro.matching K t1 t2 t3 = ro.allOccurrences.filter (covers t1 t2 t3) := by
  cases t1 with
  | none =>
    cases t2 with
    | none =>
      cases t3 with
      | none =>
        rw [covers_unbound, filter_true]
        rfl
      | some t3 => exact merged_leaf (h.t3 t3) fun _ => rfl
    | some t2 =>
      cases t3 with
      | none =>
        exact merged_leaf (h.t2 t2) fun event =>
          by simp [covers, patternMatch, slotMatches]
      | some t3 =>
        exact merged_leaf (filter_narrowed (h.t3 t3)) fun event =>
          by simp [covers, patternMatch, slotMatches, Bool.and_comm]
  | some t1 =>
    cases t2 with
    | none =>
      cases t3 with
      | none =>
        exact merged_leaf (h.t1 t1) fun event =>
          by simp [covers, patternMatch, slotMatches]
      | some t3 =>
        exact merged_leaf (filter_narrowed (h.t3 t3)) fun event =>
          by simp [covers, patternMatch, slotMatches, Bool.and_comm]
    | some t2 =>
      cases t3 with
      | none =>
        exact merged_leaf (h.t12 t1 t2) fun event =>
          by simp [covers, patternMatch, slotMatches]
      | some t3 =>
        exact merged_leaf (filter_narrowed (h.t12 t1 t2)) fun event =>
          by simp [covers, patternMatch, slotMatches, Bool.and_assoc]

end Rotation

/-! ### The occurrences of a ledger -/

/-- The occurrence that an operation row is. -/
structure RowOccurs (rows : Rows) (spaceId : String) (row : OperationRow)
    (event : OperationOccurrence) : Prop where
  coordinate : event.coordinate
    = occurrenceCoordinate (transactionCoordinate spaceId row.txSequence) row.ordinal
  action : event.action = row.action
  denotes : rows.Denotes row.tripleHandle event.proposition.term

variable {rows' : Rows} {row : OperationRow}

theorem RowOccurs.mono {rs : Rows} (he : Rows.Extends rs rows') {sid : String}
    {event : OperationOccurrence} (h : RowOccurs rs sid row event) :
    RowOccurs rows' sid row event :=
  ⟨h.coordinate, h.action, h.denotes.mono he⟩

/-- The occurrences of some operation rows. -/
def Occurrences (rows : Rows) (spaceId : String) : List OperationRow → List OperationOccurrence →
    Prop :=
  Forall₂ (RowOccurs rows spaceId)

theorem Occurrences.mono {rs : Rows} (he : Rows.Extends rs rows') {sid : String}
    {ops : List OperationRow} {es : List OperationOccurrence}
    (h : Occurrences rs sid ops es) :
    Occurrences rows' sid ops es :=
  h.imp fun _ _ hrow => hrow.mono he

theorem Ledger.Wf.occurs {l : Ledger} (hwf : l.Wf) (hrow : row ∈ l.operations) :
    ∃ event, RowOccurs l.rows l.spaceId row event := by
  obtain ⟨-, p, hp, hlt⟩ := hwf.operation hrow
  obtain ⟨t, ht⟩ := Rows.Valid.denotes hwf.sound (Or.inr ⟨p, hp, hlt⟩)
  obtain ⟨pr, rfl⟩ := triple_of_tripleHandle (hp ▸ ht)
  exact ⟨⟨_, row.action, pr⟩, rfl, rfl, ht⟩

theorem exists_forall₂ {α β : Type} {rel : α → β → Prop} {xs : List α}
    (h : ∀ x ∈ xs, ∃ y, rel x y) : ∃ ys, Forall₂ rel xs ys := by
  induction xs with
  | nil => exact ⟨[], .nil⟩
  | cons x r ih =>
    obtain ⟨y, hy⟩ := h x (mem_cons_self ..)
    obtain ⟨ys, hys⟩ := ih fun z hz => h z (mem_cons_of_mem _ hz)
    exact ⟨y :: ys, .cons hy hys⟩

theorem Ledger.Wf.occurrences {l : Ledger} (hwf : l.Wf) :
    ∃ es, Occurrences l.rows l.spaceId l.operations es :=
  exists_forall₂ fun _ => hwf.occurs

section

variable {H : Hashing} {r : Root} {l : Ledger}

/-- The store reads the occurrence of a row. -/
theorem Holds.occurrenceAt (h : Holds H r l) (hwf : l.Wf) {row : OperationRow}
    (hrow : row ∈ l.operations) {event : OperationOccurrence}
    (hev : RowOccurs l.rows l.spaceId row event) :
    operationOccurrenceAt r.store row = .ok event := by
  have hs : r.store.rows.Sound := by
    rw [h.rows]
    exact hwf.sound
  have hres : resolveTripleHandle r.store row.tripleHandle = .ok event.proposition := by
    rw [resolveTripleHandle_iff hs, h.rows]
    exact hev.denotes
  have hsp : validSpaceId r.store.spaceId = true := by
    rw [h.spaceId]
    exact decide_eq_true hwf.space
  obtain ⟨t, ht, hmem⟩ := mem_flatMap.mp hrow
  obtain ⟨hseq, ho, -⟩ := operationRowsFrom_place hmem
  have hnn : 0 ≤ row.txSequence := by
    rw [hseq]
    exact hwf.nonneg t ht
  unfold operationOccurrenceAt Store.occurrenceAt
  rw [if_pos ⟨hsp, hnn⟩, if_pos (by omega), hres, h.spaceId, ← hev.coordinate]
  simp only [bind, Except.bind]
  rw [if_pos (hwf.operation hrow).1, ← hev.action]

variable {α : Type}

theorem mapM_of_forall₂ {β ε : Type} {f : α → Except ε β} {xs : List α} {ys : List β}
    (h : Forall₂ (fun x y => f x = .ok y) xs ys) : xs.mapM f = .ok ys := by
  induction h with
  | nil => rfl
  | cons hx _ ih =>
    rw [mapM_cons, hx, ih]
    rfl

/-- The entries of the log of a settled ledger are its occurrences. -/
theorem Holds.entered (h : Holds H r l) (hs : l.Settled) {es : List OperationOccurrence}
    (hevs : Occurrences l.rows l.spaceId l.operations es) :
    Lifo.Entered asserted ofProposition (actsOf l.operations) es := by
  have hread : ∀ (p : Nat) (a : Lifo.Act Int) (e : OperationOccurrence),
      (actsOf l.operations)[p]? = some a → es[p]? = some e →
        ∃ row, l.operations[p]? = some row ∧ a = row.act ∧ RowOccurs l.rows l.spaceId row e := by
    intro p a e ha he
    unfold actsOf at ha
    rw [getElem?_map] at ha
    obtain ⟨row, hrow, rfl⟩ := Option.map_eq_some_iff.mp ha
    obtain ⟨hp, hrowv⟩ := List.getElem?_eq_some_iff.mp hrow
    obtain ⟨hp', hev⟩ := List.getElem?_eq_some_iff.mp he
    refine ⟨row, hrow, rfl, ?_⟩
    rw [← hrowv, ← hev]
    exact (forall₂_iff_get.mp hevs).2 p hp hp'
  refine ⟨?_, ?_, ?_⟩
  · rw [length_actsOf]
    exact hevs.length_eq
  · intro p a e ha he
    obtain ⟨row, -, rfl, hocc⟩ := hread p a e ha he
    unfold asserted OperationRow.act
    rw [hocc.action]
    rfl
  · intro p q a b d e hlt ha hb hd he
    obtain ⟨earlier, hearlier, rfl, hdocc⟩ := hread p a d ha hd
    obtain ⟨row, hrow, rfl, heocc⟩ := hread q b e hb he
    have hsound := h.sound hs
    have hresd : ∀ {row : OperationRow} {event : OperationOccurrence},
        RowOccurs l.rows l.spaceId row event →
          resolveTripleHandle r.store row.tripleHandle = .ok event.proposition := by
      intro row event hocc
      rw [resolveTripleHandle_iff hsound, h.rows]
      exact hocc.denotes
    unfold ofProposition OperationRow.act
    dsimp only
    by_cases hkey : earlier.tripleHandle = row.tripleHandle
    · rw [decide_eq_true hkey]
      obtain ⟨s, t, hs', ht', hsame⟩ := h.sameProposition_of_eq hs hlt
        (by rw [h.operations]; exact hearlier) (by rw [h.operations]; exact hrow) hkey
      rw [hresd hdocc] at hs'
      rw [hresd heocc] at ht'
      cases hs'
      cases ht'
      exact Term.same_symm hsame
    · rw [decide_eq_false hkey]
      refine Bool.eq_false_iff.mpr fun hsame => hkey ?_
      exact h.eq_of_sameProposition hs ⟨_, _, hresd hdocc, hresd heocc, Term.same_symm hsame⟩

/-- Filtering a list with its positions is filtering the positions. -/
theorem filter_zipIdx (p : α × Nat → Bool) (xs : List α) :
    (xs.zipIdx.filter p).map (fun x => (x.2, x.1)) = (List.range xs.length).filterMap fun i =>
          xs[i]?.bind fun x => if p (x, i) then some (i, x) else none := by
  induction xs using reverseRecOn with
  | nil => rfl
  | append_singleton xs x ih =>
    have hfr : ∀ i ∈ List.range xs.length, ((xs ++ [x])[i]?.bind fun y =>
        if p (y, i) then some (i, y) else none)
          = xs[i]?.bind fun y => if p (y, i) then some (i, y) else none := by
      intro i hi
      rw [getElem?_append_left (List.mem_range.mp hi)]
    rw [zipIdx_append, filter_append, map_append, ih, length_append,
      length_singleton, range_succ, filterMap_append,
      filterMap_congr hfr]
    congr 1
    rw [zipIdx_singleton, Nat.zero_add, filter_singleton]
    by_cases hp : p (x, xs.length) = true
    · simp [hp]
    · simp [hp]

/-- **The live occurrences of a store are what stands of all its operations.** -/
theorem Holds.liveOccurrences_eq (h : Holds H r l) (hs : l.Settled)
    {es : List OperationOccurrence}
    (hevs : Occurrences l.rows l.spaceId l.operations es) :
    liveOccurrences H r = .ok (standing [] es) := by
  have hentered := h.entered hs hevs
  have hlen : l.operations.length = es.length := hevs.length_eq
  unfold liveOccurrences standing
  rw [h.liveRows_untargeted, hentered.stand]
  unfold untargetedRows
  rw [h.operations, h.targets]
  refine mapM_of_forall₂ ?_
  rw [filter_zipIdx]
  -- Both lists are read off the same positions.
  have hstanding : (Lifo.standing (actsOf l.operations)).filterMap (fun p => es[p]?)
      = (List.range l.operations.length).filterMap fun p =>
          es[p]?.bind fun event => l.operations[p]?.bind fun row =>
            if row.action = .assert && !(Lifo.targets (actsOf l.operations)).contains (some p)
            then some event else none := by
    unfold Lifo.standing
    rw [length_actsOf, filterMap_filter]
    refine filterMap_congr ?_
    intro p hp
    have hlt := List.mem_range.mp hp
    have hlt' : p < es.length := by omega
    unfold actsOf
    rw [getElem?_map, getElem?_eq_getElem hlt, getElem?_eq_getElem hlt']
    rfl
  rw [hstanding]
  have hall : ∀ p ∈ List.range l.operations.length, ∃ row event, l.operations[p]? = some row ∧
      es[p]? = some event ∧ operationOccurrenceAt r.store row = .ok event := by
    intro p hp
    have hlt := List.mem_range.mp hp
    have hlt' : p < es.length := by omega
    refine ⟨_, _, getElem?_eq_getElem hlt, getElem?_eq_getElem hlt', ?_⟩
    exact h.occurrenceAt hs.wf (getElem_mem hlt) ((forall₂_iff_get.mp hevs).2 p hlt hlt')
  generalize List.range l.operations.length = positions at hall
  induction positions with
  | nil => exact .nil
  | cons p rest ih =>
    obtain ⟨row, event, hrow, hev, hread⟩ := hall p (mem_cons_self ..)
    have hrest := ih fun q hq => hall q (mem_cons_of_mem _ hq)
    rw [filterMap_cons, filterMap_cons, hrow, hev]
    simp only [Option.bind_some]
    by_cases hlive : (row.action = .assert &&
        !(Lifo.targets (actsOf l.operations)).contains (some p)) = true
    · rw [if_pos hlive, if_pos hlive]
      exact .cons hread hrest
    · rw [if_neg hlive, if_neg hlive]
      exact hrest

end

/-- What a rotation has folded of a ledger, and what it has not. -/
structure Tracks (K : KeyHashing) (l : Ledger) (rotation : Rotation) (past since : List Transaction)
    (events : List OperationOccurrence) : Prop where
  history : l.history = past ++ since
  spaceId : rotation.spaceId = l.spaceId
  before : ∀ t ∈ past, t.sequence ≤ rotation.version
  after : ∀ t ∈ since, rotation.version < t.sequence
  version : rotation.version ≤ l.nextSequence - 1
  occurrences : Occurrences l.rows l.spaceId (past.flatMap Transaction.operationRows) events
  stands : rotation.allOccurrences = standing [] events
  known : ∀ event ∈ rotation.events ++ rotation.pending, event ∈ events
  indexes : Indexes K rotation

section

variable {K : KeyHashing} {p si : List Transaction} {es : List OperationOccurrence}

/-- **More transactions are more to fold.** -/
theorem Tracks.later {l l' : Ledger} {ro : Rotation}
    (h : Tracks K l ro p si es) (hwf : l'.Wf) (hl : l.Continues l') :
    ∃ s', Tracks K l' ro p s' es := by
  obtain ⟨m, hm, hla⟩ := hl.history
  have hn : l.nextSequence ≤ l'.nextSequence := by
    cases m with
    | nil =>
      unfold Ledger.nextSequence
      rw [hm, append_nil]
    | cons t r =>
      have hlt := hwf.sequence_lt (t := t) (by rw [hm]; simp)
      have hle := hla t (mem_cons_self ..)
      omega
  have hver := h.version
  refine ⟨si ++ m, ?_, ?_, h.before, ?_, by omega, ?_, h.stands, h.known, h.indexes⟩
  · rw [hm, h.history, append_assoc]
  · rw [h.spaceId, hl.spaceId]
  · intro t ht
    rcases List.mem_append.mp ht with ht | ht
    · exact h.after t ht
    · have := hla t ht
      omega
  · rw [hl.spaceId]
    exact h.occurrences.mono hl.rows

/-! ### Projecting -/

variable {event : OperationOccurrence} {version : Int}

theorem checkedAssertion_assertion {e' : OperationOccurrence}
    (h : checkedAssertion event = .ok e') : Assertion event := by
  unfold checkedAssertion at h
  by_cases ha : (occurrenceCoordinateOf event.coordinate.term).isSome ∧ event.action = .assert
  · exact ha
  · rw [if_neg ha] at h
    cases h

theorem projectedOccurrences_assertions {w : Nat} {i : OccurrenceIndex}
    (h : projectedOccurrences K es w = .ok i) : ∀ event ∈ es, Assertion event := by
  unfold projectedOccurrences at h
  obtain ⟨ls, hl, -⟩ := except_bind_ok.mp h
  generalize HashChain.fresh w = start at hl
  clear h
  induction es generalizing start with
  | nil => exact nofun
  | cons event r ih =>
    rw [foldlM_cons] at hl
    obtain ⟨next, hn, hr⟩ := except_bind_ok.mp hl
    obtain ⟨c, hchk, -⟩ := except_bind_ok.mp hn
    intro o ho
    rcases mem_cons.mp ho with rfl | ho
    · exact checkedAssertion_assertion hchk
    · exact ih _ hr o ho

/-- A projection that succeeds is of assertions. -/
theorem projected_ok {sid : String} {ro : Rotation} (h : projected K sid version es = .ok ro) :
    Projection K sid version es ro := by
  have hasr : ∀ event ∈ es, Assertion event := by
    unfold projected at h
    obtain ⟨i, hidx, -⟩ := except_bind_ok.mp h
    exact projectedOccurrences_assertions hidx
  obtain ⟨r', hok, hs⟩ := projected_spec K sid version hasr
  rw [hok] at h
  cases h
  exact hs

theorem Projection.allOccurrences {sid : String} {ro : Rotation}
    (h : Projection K sid version es ro) : ro.allOccurrences = es := by
  rw [Rotation.allOccurrences_eq, h.events, h.pending]
  rfl

theorem mem_of_mem_standing (h : event ∈ standing [] es) : event ∈ es ∧ event.action = .assert := by
  rcases mem_of_mem_stand h with h | ⟨h, hput⟩
  · exact absurd h not_mem_nil
  · exact ⟨h, beq_iff_eq.mp hput⟩

variable {H : Hashing}

/-- **A fresh projection has folded everything.** -/
theorem project_tracks {r : Root} {l : Ledger} (h : Holds H r l) (hs : l.Settled)
    {ro : Rotation} (hok : project K H r = .ok ro) :
    ∃ es, Tracks K l ro l.history [] es ∧ ro.version = currentSequence r.store := by
  obtain ⟨es, hevs⟩ := hs.wf.occurrences
  unfold project at hok
  rw [h.liveOccurrences_eq hs hevs] at hok
  have hp := projected_ok hok
  have hver : ro.version = l.nextSequence - 1 := by
    rw [hp.version]
    unfold currentSequence
    rw [h.nextSequence]
  refine ⟨es, ⟨(append_nil _).symm, ?_, ?_, nofun, by omega, hevs,
    hp.allOccurrences, ?_, hp.indexes⟩, hp.version⟩
  · rw [hp.spaceId, h.spaceId]
  · intro t ht
    have := hs.wf.sequence_lt ht
    omega
  · intro event hev
    rw [hp.events, hp.pending, append_nil] at hev
    exact (mem_of_mem_standing hev).1

/-! ### The tail of a record -/

theorem ofInt_toInt_ofInt (n : Int) : Int64.ofInt (Int64.ofInt n).toInt = Int64.ofInt n :=
  Int64.ofInt_toInt _

variable {s : TermStore} {r' : Rotation} {spaceId : String}

/-- The occurrences a record puts in the tail are those of its operation rows. -/
theorem recordOccurrences_spec (hs : s.rows.Sound) {sequence : Int} :
    ∀ {acts : List (Action × Int)} {ordinal : Nat}
    {resolved : List CommitOperation} {es : List OperationOccurrence},
    resolveOperations s (operationRowsFrom sequence ordinal acts) = .ok resolved →
      (resolved.zipIdx ordinal).mapM (fun (operation, ordinal) =>
        recordOccurrence spaceId (Int64.ofInt sequence) operation ordinal) = .ok es →
        Occurrences s.rows spaceId (operationRowsFrom sequence ordinal acts) es := by
  intro acts
  induction acts with
  | nil =>
    intro ordinal resolved es hresd hevs
    cases hresd
    cases hevs
    exact .nil
  | cons act rest ih =>
    intro ordinal resolved es hresd hevs
    unfold operationRowsFrom resolveOperations at hresd
    obtain ⟨proposition, hprop, hresd⟩ := except_bind_ok.mp hresd
    obtain ⟨others, hos, hresd⟩ := except_bind_ok.mp hresd
    cases hresd
    rw [zipIdx_cons, mapM_cons] at hevs
    obtain ⟨event, hev, hevs⟩ := except_bind_ok.mp hevs
    obtain ⟨more, hmore, hevs⟩ := except_bind_ok.mp hevs
    cases hevs
    refine .cons ?_ (ih hos hmore)
    have hev : recordOccurrence spaceId (Int64.ofInt sequence) ⟨act.1, proposition⟩ ordinal
      = .ok event := hev
    unfold recordOccurrence at hev
    by_cases hact : act.1 = .assert ∨ act.1 = .retract
    · rw [if_pos hact] at hev
      cases hev
      refine ⟨?_, rfl, (resolveTripleHandle_iff hs).mp hprop⟩
      unfold transactionCoordinate
      rw [ofInt_toInt_ofInt]
    · rw [if_neg hact] at hev
      cases hev

/-- The records of some transactions, put in the tail one after the other. -/
theorem pendingRecords_spec (hs : s.rows.Sound) :
    ∀ (ts : List Transaction) (before : List OperationRow) {records : List TransactionRecord}
      {pending pending' : List OperationOccurrence},
      s.operations = before ++ ts.flatMap Transaction.operationRows →
        (transactionRowsFrom before.length ts).mapM (transactionRecordAt s) = .ok records →
          records.foldlM (fun built record => pendingWithRecord built spaceId record) pending
            = .ok pending' →
            ∃ es, Occurrences s.rows spaceId (ts.flatMap Transaction.operationRows) es ∧
              pending' = pending ++ es := by
  intro ts
  induction ts with
  | nil =>
    intro before records pending pending' _ hrecs hpend
    cases hrecs
    cases hpend
    exact ⟨[], .nil, (append_nil _).symm⟩
  | cons t rest ih =>
    intro before records pending pending' hops hrecs hpend
    rw [flatMap_cons] at hops
    have hlen : t.operationRows.length = t.acts.length := length_operationRowsFrom _ _ _
    have hrows : subvec s.operations before.length (before.length + t.acts.length)
        = operationRowsFrom t.sequence 0 t.acts := by
      unfold subvec
      rw [hops, drop_left, Nat.add_sub_cancel_left, ← hlen, take_left]
      rfl
    unfold transactionRowsFrom at hrecs
    rw [mapM_cons] at hrecs
    obtain ⟨record, hrec, hrecs⟩ := except_bind_ok.mp hrecs
    obtain ⟨others, hos, hrecs⟩ := except_bind_ok.mp hrecs
    cases hrecs
    unfold transactionRecordAt at hrec
    dsimp only at hrec
    rw [Int.toNat_natCast, Int.toNat_natCast, hrows] at hrec
    obtain ⟨resolved, hresd, hrec⟩ := except_bind_ok.mp hrec
    cases hrec
    rw [foldlM_cons] at hpend
    obtain ⟨middle, hmid, hpend⟩ := except_bind_ok.mp hpend
    unfold pendingWithRecord at hmid
    split at hmid
    · obtain ⟨es, hevs, hmid⟩ := except_map_ok.mp hmid
      cases hmid
      have hfst := recordOccurrences_spec hs hresd hevs
      rw [← append_assoc] at hops
      have hnext : before.length + t.acts.length = (before ++ t.operationRows).length := by
        rw [length_append, hlen]
      rw [hnext] at hos
      obtain ⟨more, hmore, rfl⟩ := ih (before ++ t.operationRows) hops hos hpend
      refine ⟨es ++ more, ?_, by rw [append_assoc]⟩
      rw [flatMap_cons]
      exact rel_append hfst hmore
    · cases hmid

/-! ### Refreshing -/

/-- The records past the version of a rotation are those of the transactions it has not folded. -/
theorem Tracks.records {r : Root} {l : Ledger} (hl : Holds H r l) (hwf : l.Wf)
    {ro : Rotation} (h : Tracks K l ro p si es) :
    transactionRecordsBetween r.store ro.version (currentSequence r.store)
      = (transactionRowsFrom (p.flatMap Transaction.operationRows).length si).mapM
          (transactionRecordAt r.store) := by
  have htx : r.store.transactions = transactionRowsFrom 0 p ++
      transactionRowsFrom (p.flatMap Transaction.operationRows).length si := by
    rw [hl.transactions]
    unfold Ledger.transactions
    rw [h.history, transactionRowsFrom_append, Nat.zero_add]
  have hfst : firstTransactionAfter r.store.transactions ro.version
      = (transactionRowsFrom 0 p).length := by
    rw [htx]
    refine firstTransactionAfter_append ?_ ?_
    · intro row hrow
      obtain ⟨t, ht, heq⟩ := mem_transactionRowsFrom hrow
      have := h.before t ht
      omega
    · intro row hrow
      obtain ⟨t, ht, heq⟩ := mem_transactionRowsFrom hrow
      have := h.after t ht
      omega
  have hs : firstTransactionAfter r.store.transactions (currentSequence r.store)
      = r.store.transactions.length := by
    have hall : firstTransactionAfter (r.store.transactions ++ [])
        (currentSequence r.store) = r.store.transactions.length := by
      refine firstTransactionAfter_append ?_ nofun
      intro row hrow
      rw [hl.transactions] at hrow
      obtain ⟨t, ht, heq⟩ := mem_transactionRowsFrom hrow
      have hlt := hwf.sequence_lt ht
      unfold currentSequence
      rw [hl.nextSequence]
      omega
    rw [append_nil] at hall
    exact hall
  unfold transactionRecordsBetween
  rw [hfst, hs]
  dsimp only
  rw [subvecWithin_ok (by rw [htx, length_append]; omega) (Nat.le_refl _)]
  unfold subvec
  rw [htx, drop_left, length_append, Nat.add_sub_cancel_left, take_length]
  rfl

/-- A rotation whose version is the store's has folded everything. -/
theorem Tracks.caught_up {l : Ledger} (hwf : l.Wf) {ro : Rotation}
    (h : Tracks K l ro p si es) (hver : ro.version = l.nextSequence - 1) :
    p = l.history ∧ si = [] := by
  have hn : si = [] := by
    refine eq_nil_iff_forall_not_mem.mpr ?_
    intro t ht
    have hlt := h.after t ht
    have hb := hwf.sequence_lt (t := t) (by rw [h.history]; exact mem_append_right _ ht)
    omega
  have hh := h.history
  rw [hn, append_nil] at hh
  exact ⟨hh.symm, hn⟩

theorem standing_append (es a more : List OperationOccurrence) :
    standing es (a ++ more) = standing (standing es a) more :=
  stand_append es a more

theorem Indexes.of_same {ro : Rotation} (h : Indexes K ro) (hevs : r'.events = ro.events)
    (hocc : r'.byOccurrence = ro.byOccurrence)
    (hspo : r'.spo = ro.spo) (hpos : r'.pos = ro.pos)
    (hosp : r'.osp = ro.osp) : Indexes K r' where
  t1 a := by rw [hspo, hevs]; exact h.t1 a
  t12 a b := by rw [hspo, hevs]; exact h.t12 a b
  t2 a := by rw [hpos, hevs]; exact h.t2 a
  t3 a := by rw [hosp, hevs]; exact h.t3 a
  occurrence a := by rw [hocc, hevs]; exact h.occurrence a

/-- **A refresh folds what was committed since.** -/
theorem refresh_tracks {r : Root} {l : Ledger} (hl : Holds H r l) (hs : l.Settled)
    {ro : Rotation} (h : Tracks K l ro p si es)
    (hok : refresh K ro r = .ok r') :
    ∃ es', Tracks K l r' l.history [] es' ∧ r'.version = currentSequence r.store := by
  have hwf := hs.wf
  have hcur : currentSequence r.store = l.nextSequence - 1 := by
    unfold currentSequence
    rw [hl.nextSequence]
  unfold refresh at hok
  dsimp only at hok
  by_cases hsp : r.store.spaceId ≠ ro.spaceId
  · rw [if_pos hsp] at hok
    cases hok
  rw [if_neg hsp] at hok
  by_cases ha : ro.version > currentSequence r.store
  · rw [if_pos ha] at hok
    cases hok
  rw [if_neg ha] at hok
  by_cases hpin : ro.version = currentSequence r.store
  · rw [if_pos hpin] at hok
    cases hok
    obtain ⟨rfl, rfl⟩ := h.caught_up hwf (hpin.trans hcur)
    exact ⟨es, h, hpin⟩
  rw [if_neg hpin, h.records hl hwf] at hok
  obtain ⟨rcs, hr, hok⟩ := except_bind_ok.mp hok
  obtain ⟨pending, hpe, hok⟩ := except_bind_ok.mp hok
  have hso : r.store.rows.Sound := hl.sound hs
  have hops : r.store.operations = p.flatMap Transaction.operationRows ++
      si.flatMap Transaction.operationRows := by
    rw [hl.operations]
    unfold Ledger.operations
    rw [h.history, flatMap_append]
  obtain ⟨m, hm, rfl⟩ := pendingRecords_spec hso si _ hops hr hpe
  rw [hl.rows, hl.spaceId] at hm
  have hall : Occurrences l.rows l.spaceId (l.history.flatMap Transaction.operationRows)
      (es ++ m) := by
    rw [h.history, flatMap_append]
    exact rel_append h.occurrences hm
  let a : Rotation :=
    { ro with
      version := currentSequence r.store
      pending := ro.pending ++ m }
  have hst : a.allOccurrences = standing [] (es ++ m) := by
    rw [Rotation.allOccurrences_eq]
    show standing ro.events (ro.pending ++ m) = _
    rw [standing_append, ← Rotation.allOccurrences_eq, h.stands, ← standing_append]
  have hpre : ∀ t ∈ l.history, t.sequence ≤ currentSequence r.store := by
    intro t ht
    have := hwf.sequence_lt ht
    omega
  by_cases hlo : (ro.pending ++ m).length > pendingFoldCap
  · rw [if_pos hlo] at hok
    have hp := projected_ok hok
    refine ⟨es ++ m, ⟨(append_nil _).symm, ?_, ?_, nofun, ?_, hall, ?_, ?_, hp.indexes⟩, hp.version⟩
    · rw [hp.spaceId, hl.spaceId]
    · rw [hp.version]
      exact hpre
    · rw [hp.version, hcur]
    · rw [hp.allOccurrences]
      exact hst
    · intro event hev
      rw [hp.events, hp.pending, append_nil] at hev
      have hev : event ∈ a.allOccurrences := hev
      rw [hst] at hev
      exact (mem_of_mem_standing hev).1
  · rw [if_neg hlo] at hok
    cases hok
    refine ⟨es ++ m, ⟨(append_nil _).symm, h.spaceId, hpre, nofun, by
      show currentSequence r.store ≤ _; omega, hall, hst, ?_,
      h.indexes.of_same rfl rfl rfl rfl rfl⟩, rfl⟩
    intro event hev
    have hev : event ∈ ro.events ++ (ro.pending ++ m) := hev
    rw [← append_assoc] at hev
    rcases List.mem_append.mp hev with hev | hev
    · exact mem_append_left _ (h.known event hev)
    · exact mem_append_right _ hev

end

end Beagle.Store
