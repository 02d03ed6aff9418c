/-
The two fence checks agree.

The mutation path folds the live occurrences of the store, the lease operations fold the leaf of the
rotation under the resource and `:kernel/lease`.  A pinned rotation gives that leaf as the live
occurrences that have both Terms, in the order they stand, and every live occurrence has a proper
coordinate; so both folds hold the same lease after every occurrence.
-/
import Beagle.Proofs.Interleavings
import Beagle.Store.Leases

namespace Beagle.Store

open Beagle.Lib List

variable {f : Fence} {s : String} {sq : Int64} {e : OperationOccurrence}

/-- The mutation path reads the fences that the lease operations read. -/
theorem Dispatch.parseFence_of_lease {v : Term} (h : LeaseOps.parseFence v = .ok f) :
    Dispatch.parseFence (.ok (some v)) = .ok (some f) := by
  unfold LeaseOps.parseFence at h
  unfold Dispatch.parseFence
  cases hr : readRpcRecord v "rpc/fence" 3 with
  | error m =>
    rw [hr] at h
    cases h
  | ok vs =>
    rw [hr] at h
    simp only [hr] at h ⊢
    cases hf : fenceOf vs with
    | none =>
      rw [hf] at h
      cases h
    | some fd =>
      rw [hf] at h
      cases h
      rfl

/-! ### The two folds -/

theorem transactionCoordinateOf_sequence {tx : Term}
    (h : transactionCoordinateOf tx = some (s, sq)) :
    ((termAsTriple tx).bind fun t => termInt t.t3) = some sq := by
  unfold transactionCoordinateOf at h
  split at h
  · split_ifs at h
    cases h
    rfl
  · cases h

theorem occurrenceCoordinateOf_transaction {c : Triple} {n : Int64}
    (h : occurrenceCoordinateOf c.term = some (s, sq, n)) :
    transactionCoordinateOf c.t1 = some (s, sq) := by
  obtain ⟨tx, pd, p⟩ := c
  simp only [Triple.term] at h
  unfold occurrenceCoordinateOf at h
  split at h
  · next heq =>
      cases heq
      split at h
      · next hr =>
          split_ifs at h
          cases h
          exact hr
      · cases h
  · cases h

/-- A live occurrence is a lease for the lease operations as it is one for the mutation path. -/
theorem leaseState_eq (h : Assertion e) :
    LeaseOps.leaseState e = (Dispatch.leaseEvent e).map fun fd =>
      ⟨e.proposition.t1, fd.1, fd.2,
        Dispatch.occurrenceSequence e.coordinate.term, e.coordinate, e.proposition⟩ := by
  obtain ⟨⟨s, sq, n⟩, hc⟩ := Option.isSome_iff_exists.mp h.1
  have hep : ((termAsTriple e.coordinate.t1).bind fun t =>
      termInt t.t3) = some sq :=
    transactionCoordinateOf_sequence (occurrenceCoordinateOf_transaction hc)
  unfold LeaseOps.leaseState Dispatch.leaseEvent Dispatch.occurrenceSequence
  rw [hc]
  by_cases hl : (rpcKeyword "kernel/lease").same e.proposition.t2 = true
  · simp only [if_pos hl]
    cases hval : termAsTriple e.proposition.t3 with
    | none => rfl
    | some v =>
      by_cases he : (rpcKeyword "kernel/expires-at").same v.t2 = true
      · simp only [if_pos he, hep, hc]
        cases termInt v.t3 <;> rfl
      · simp only [if_neg he]
        rfl
  · simp only [if_neg hl]
    rfl

/-- What both folds know of the lease of a resource. -/
def SameLease (resource : Term) (known : Dispatch.LeaseState)
    (current : Option LeaseOps.LeaseState) : Prop :=
  (known = ⟨false, none, 0, 0⟩ ∧ current = none) ∨
    ∃ lease, current = some lease ∧ resource.same lease.resource = true ∧
      known = ⟨true, some lease.holder, lease.expiresMs, lease.epoch⟩

/-- The events of the leaf that the lease operations read. -/
def leasesOf (resource : Term) : OperationOccurrence → Bool :=
  covers (some resource) (some (rpcKeyword "kernel/lease")) none

/-- The step of the fold over a leaf. -/
def leafStep (current : Option LeaseOps.LeaseState) (event : OperationOccurrence) :
    Option LeaseOps.LeaseState :=
  match LeaseOps.leaseState event with
  | none => current
  | some candidate => some candidate

theorem leasesOf_eq (r : Term) (e : OperationOccurrence) :
    leasesOf r e = (r.same e.proposition.t1 &&
      (rpcKeyword "kernel/lease").same e.proposition.t2) := by
  simp [leasesOf, covers, patternMatch, slotMatches]

theorem leaseEvent_lease {fd : Term × Int64} (h : Dispatch.leaseEvent e = some fd) :
    (rpcKeyword "kernel/lease").same e.proposition.t2 = true := by
  unfold Dispatch.leaseEvent at h
  split_ifs at h with hlease
  exact hlease

/-- **One live occurrence leaves the folds with the same lease**; the fold over the leaf sees only
the occurrences of the leaf. -/
theorem SameLease.step {r : Term} {ks : Dispatch.LeaseState}
    {current : Option LeaseOps.LeaseState} (h : SameLease r ks current)
    {e : OperationOccurrence} (hev : Assertion e) :
    SameLease r (Dispatch.leaseStep r ks e)
      (if leasesOf r e = true then leafStep current e else current) := by
  unfold Dispatch.leaseStep
  cases hl : Dispatch.leaseEvent e with
  | none =>
    have hst : leafStep current e = current := by
      unfold leafStep
      rw [leaseState_eq hev, hl]
      rfl
    rw [hst, ite_self]
    exact h
  | some fd =>
    by_cases hrsc : r.same e.proposition.t1 = true
    · have hle : leasesOf r e = true := by
        rw [leasesOf_eq, hrsc, leaseEvent_lease hl]
        rfl
      have hst : leafStep current e = some ⟨e.proposition.t1, fd.1, fd.2,
          Dispatch.occurrenceSequence e.coordinate.term, e.coordinate,
          e.proposition⟩ := by
        unfold leafStep
        rw [leaseState_eq hev, hl]
        rfl
      simp only [if_pos hrsc, if_pos hle]
      exact Or.inr ⟨_, hst, hrsc, rfl⟩
    · have hle : ¬leasesOf r e = true := by
        rw [leasesOf_eq, Bool.eq_false_iff.mpr hrsc]
        exact Bool.false_ne_true
      simp only [if_neg hrsc, if_neg hle]
      exact h

/-- **Both folds end with the same lease.** -/
theorem SameLease.folds {r : Term} {l : List OperationOccurrence} (hli : ∀ e ∈ l, Assertion e) :
    ∀ {ks : Dispatch.LeaseState} {c : Option LeaseOps.LeaseState}, SameLease r ks c →
        SameLease r (l.foldl (Dispatch.leaseStep r) ks)
          ((l.filter (leasesOf r)).foldl leafStep c) := by
  induction l with
  | nil => intro ks c h; exact h
  | cons e rs ih =>
    intro ks c h
    have hs := h.step (hli e mem_cons_self)
    have hr := ih (fun o hmem => hli o (mem_cons_of_mem _ hmem)) hs
    rw [foldl_cons]
    by_cases hl : leasesOf r e = true
    · rw [if_pos hl] at hr
      rw [filter_cons_of_pos hl, foldl_cons]
      exact hr
    · rw [if_neg hl] at hr
      rw [filter_cons_of_neg hl]
      exact hr

/-- The same lease answers a fence the same way. -/
theorem SameLease.valid {ks : Dispatch.LeaseState} {c : Option LeaseOps.LeaseState}
    (h : SameLease f.resource ks c) (nm : Int64) :
    (ks.found && (ks.holder.any (f.holder.same ·) &&
        (f.epoch == ks.epoch && decide (nm.toInt < ks.expiresMs.toInt)))) =
      ((LeaseOps.matchingExpiry c f).isSome && LeaseOps.held c nm) := by
  rcases h with ⟨rfl, rfl⟩ | ⟨l, rfl, hrsc, rfl⟩
  · rfl
  · have hmat : LeaseOps.matchingFence (some l) f =
        (f.holder.same l.holder && f.epoch == l.epoch) := by
      show (l.resource.same f.resource && (l.holder.same f.holder && l.epoch == f.epoch)) = _
      rw [Term.same_comm, hrsc, Term.same_comm l.holder, Bool.true_and, Bool.beq_comm]
    have he : (LeaseOps.matchingExpiry (some l) f).isSome = LeaseOps.matchingFence (some l) f := by
      unfold LeaseOps.matchingExpiry
      show (if LeaseOps.matchingFence (some l) f = true then some l.expiresMs
        else none).isSome = _
      by_cases hf : LeaseOps.matchingFence (some l) f = true
      · rw [if_pos hf, hf]
        rfl
      · rw [if_neg hf, Bool.eq_false_iff.mpr hf]
        rfl
    rw [he, hmat]
    show (true && (f.holder.same l.holder && _)) = _
    rw [Bool.true_and, Bool.and_assoc]
    rfl

/-! ### Every session -/

section

variable {K : KeyHashing} {H : Hashing}

/-- A rotation that stands for the live occurrences of its store has their current leases. -/
theorem Tracks.sameLease {rt : Root} {l : Ledger} (hl : Holds H rt l) (hs : l.Settled)
    (hsz : MachineSized rt.store) {ro : Rotation} {es : List OperationOccurrence}
    (h : Tracks K l ro l.history [] es) (r : Term) :
    ∃ ls, Dispatch.currentLease H rt r = .ok ls ∧
      SameLease r ls (LeaseOps.currentLease K ro r) := by
  have hli := hl.liveOccurrences_eq hs h.occurrences
  have ha := hl.standing_assertions hs.wf hsz h.occurrences
  have hle : ro.byT12 K r (rpcKeyword "kernel/lease") = (standing [] es).filter (leasesOf r) := by
    have hm := Rotation.matching_eq h.indexes (some r) (some (rpcKeyword "kernel/lease")) none
    rw [h.stands] at hm
    exact hm
  have hcur : LeaseOps.currentLease K ro r =
      ((standing [] es).filter (leasesOf r)).foldl leafStep none := by
    unfold LeaseOps.currentLease
    rw [hle]
    rfl
  have hf : Dispatch.currentLease H rt r = .ok ((standing [] es).foldl
      (Dispatch.leaseStep r) ⟨false, none, 0, 0⟩) := by
    unfold Dispatch.currentLease
    rw [hli]
    rfl
  rw [hcur]
  exact ⟨_, hf, SameLease.folds ha (Or.inl ⟨rfl, rfl⟩)⟩

/-- **The two fence checks agree.**  In every view that a run reaches, under a rotation pinned to
its store, the mutation path reads a fence that the lease operations read as they do, and accepts
it exactly when `rpc/lease-check` answers that it is valid. -/
theorem fence_checks_agree {spaceId : String} {calls : List ViewCall} {view : View}
    (hloads : ∀ call ∈ calls, call.LoadsDistinct)
    (hrun : reachedView K H spaceId calls = some view) (hsized : MachineSized view.root.store)
    {rotation : Rotation} (hrotation : view.rotation = some rotation)
    (hpinned : rotation.pinned view.root = true) (fence : Fence) (nowMs : Int64) :
    Dispatch.fenceValid H view.root (some fence) nowMs =
        .ok (LeaseOps.leaseValid K rotation fence nowMs) ∧
      ∀ request : RpcRequest, LeaseOps.parseFence request.payload = .ok fence →
        Dispatch.parseFence (.ok (some request.payload)) = .ok (some fence) ∧
          ∃ expiresMs, LeaseOps.checkResponse K view.root rotation request nowMs =
            response request (currentSequence view.root.store)
              (LeaseOps.checkRecord (LeaseOps.leaseValid K rotation fence nowMs) expiresMs).term := by
  obtain ⟨l, hl, hs, htr⟩ := reachedView_tracked hloads hrun
  obtain ⟨p, s, es, ht⟩ := htr rotation hrotation
  obtain ⟨ls, hle, hsa⟩ :=
    (ht.pinned hl hs.wf hpinned).sameLease hl hs hsized fence.resource
  refine ⟨?_, fun request hp => ⟨Dispatch.parseFence_of_lease hp,
    LeaseOps.matchingExpiry (LeaseOps.currentLease K rotation fence.resource) fence, ?_⟩⟩
  · unfold Dispatch.fenceValid
    simp only [hle]
    exact congrArg Except.ok (hsa.valid nowMs)
  · unfold LeaseOps.checkResponse
    rw [hp]

end

/-! ### A lease behind a fact, and a lease in a row that is there twice -/

/-- The lease of `r`, held by `h`. -/
def leaseProposition : Triple :=
  ⟨.atom (.string "r"), rpcKeyword "kernel/lease",
    .triple (.atom (.string "h")) (rpcKeyword "kernel/expires-at") (.atom (.int 100))⟩

def commitLease (action : Action) : ViewCall :=
  .store (.commit [⟨action, leaseProposition⟩] (commitMetadata "p" "s" none))

/-- The fence of that lease when it was asserted first. -/
def leaseFence : Fence := ⟨.atom (.string "r"), .atom (.string "h"), 1⟩

/-- A dump with the row of the lease twice, and an assertion of the second one. -/
def repeatedLeaseDump : TermStoreDump :=
  let row : TripleRow := ⟨atomHandle 0, atomHandle 1, tripleHandle 0⟩
  { version := termStoreDumpVersion
    spaceId := "s"
    nextSequence := 2
    atoms := [atomRow (.string "r"), atomRow (.keyword ⟨"kernel/lease"⟩), atomRow (.string "h"),
      atomRow (.keyword ⟨"kernel/expires-at"⟩), atomRow (.int 100)]
    triples := [⟨atomHandle 2, atomHandle 3, atomHandle 4⟩, row, row]
    transactions := [⟨1, 0, 1⟩]
    operations := [⟨1, 0, .assert, tripleHandle 2⟩] }

/-- A lease is asserted, and a fact behind it. -/
theorem asserted_lease_checks_agree : ∃ view rotation, reachedView KeyHashing.fnv Hashing.fnv "s"
        [commitLease .assert, .project, assertFact (.bool true), .refresh] = some view ∧
      view.rotation = some rotation ∧ rotation.pinned view.root = true ∧
      Dispatch.fenceValid Hashing.fnv view.root (some leaseFence) 0 =
        .ok (LeaseOps.leaseValid KeyHashing.fnv rotation leaseFence 0) ∧
      LeaseOps.leaseValid KeyHashing.fnv rotation leaseFence 0 = true := by
  have hs : (reachedView KeyHashing.fnv Hashing.fnv "s"
      [commitLease .assert, .project, assertFact (.bool true), .refresh]).map (fun view =>
        (view.root.store.nextSequence, view.root.store.operations.length,
          view.rotation.map fun rotation => (rotation.pinned view.root,
            LeaseOps.leaseValid KeyHashing.fnv rotation leaseFence 0)))
      = some (3, 2, some (true, true)) := by
    decide +kernel
  obtain ⟨view, hrun, hs⟩ := Option.map_eq_some_iff.mp hs
  simp only [Prod.mk.injEq] at hs
  obtain ⟨hn, hlen, hrot⟩ := hs
  obtain ⟨rotation, hrot, hs⟩ := Option.map_eq_some_iff.mp hrot
  rw [Prod.mk.injEq] at hs
  have hld : ∀ c ∈ [commitLease .assert, .project, assertFact (.bool true), .refresh],
      c.LoadsDistinct := by
    intro c hc
    simp only [mem_cons, not_mem_nil, or_false] at hc
    rcases hc with rfl | rfl | rfl | rfl <;> trivial
  have hsz : MachineSized view.root.store :=
    ⟨by rw [hn]; decide, by rw [hlen]; decide⟩
  have ha := fence_checks_agree hld hrun hsz hrot hs.1 leaseFence 0
  exact ⟨view, rotation, hrun, hrot, hs.1, ha.1, hs.2⟩

/-- **A retraction of the lease takes it from the rotation and not from the store**, when its row is
there twice: the mutation path accepts the fence that `rpc/lease-check` refuses. -/
theorem repeated_lease_checks_differ : ∃ view rotation, reachedView KeyHashing.fnv Hashing.fnv "s"
        [.store (.load repeatedLeaseDump), .project, commitLease .retract, .refresh] = some view ∧
      view.rotation = some rotation ∧ rotation.pinned view.root = true ∧
      (Dispatch.fenceValid Hashing.fnv view.root (some leaseFence) 0).toOption = some true ∧
      LeaseOps.leaseValid KeyHashing.fnv rotation leaseFence 0 = false := by
  have hs : (reachedView KeyHashing.fnv Hashing.fnv "s"
      [.store (.load repeatedLeaseDump), .project, commitLease .retract, .refresh]).map (fun view =>
        ((Dispatch.fenceValid Hashing.fnv view.root (some leaseFence) 0).toOption,
          view.rotation.map fun rotation => (rotation.pinned view.root,
            LeaseOps.leaseValid KeyHashing.fnv rotation leaseFence 0)))
      = some (some true, some (true, false)) := by
    decide +kernel
  obtain ⟨view, hrun, hs⟩ := Option.map_eq_some_iff.mp hs
  rw [Prod.mk.injEq] at hs
  obtain ⟨rotation, hrot, hpin⟩ := Option.map_eq_some_iff.mp hs.2
  rw [Prod.mk.injEq] at hpin
  exact ⟨view, rotation, hrun, hrot, hpin.1, hs.1, hpin.2⟩

end Beagle.Store
