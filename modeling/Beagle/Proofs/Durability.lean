/-
What the server acknowledged is in its log.

The log of a run says the ledger of some commits: of all that were acknowledged, in their order, and
of none that was not tried.  Until an append fails the served store holds that ledger too, and a boot
makes a store of it again.
-/
import Beagle.Proofs.LiveLogs
import Beagle.Proofs.Runs
import Beagle.Store.Server

namespace Beagle.Store

open Beagle.Lib List

/-- The ledger that some commits make of an empty one. -/
def Ledger.ofCommits (spaceId : String) (commits : List (List CommitOperation)) : Ledger :=
  commits.foldl (fun l operations => l.commit l.nextSequence operations) (.empty spaceId)

/-- A log says what a ledger took, and ends in a part of a record. -/
def Logged (spaceId : String) (log : List UInt8) (l : Ledger) (torn : List UInt8) : Prop :=
  ∃ records chunks, log = headerOf storeLogFlags spaceId ++ (chunks.flatten ++ torn) ∧
    Written records chunks ∧ (∀ c ∈ chunks, c.length ≤ storeLogStreamMaxPayloadBytes + 8) ∧
    (frameAt storeLogStreamMaxPayloadBytes torn).stops ∧
    (Ledger.empty spaceId).replayAll records = some l

/-- A SpaceId that a boot takes. -/
structure Bootable (spaceId : String) : Prop where
  nonempty : spaceId ≠ ""
  short : (Utf8.encode spaceId).length ≤ storeLogStreamMaxSpaceBytes

section

variable {H : Hashing} {spaceId : String} {l : Ledger} {log torn : List UInt8}

/-! ### Logs -/

variable {append : List UInt8} {rc : TransactionRecord}

theorem Logged.grows
    (h : Logged spaceId log l []) (happ : appendRecordBytes rc = .ok append)
    (hs : append.length ≤ storeLogStreamMaxPayloadBytes + 8) {l' : Ledger}
    (hrep : l.replay rc = some l') : Logged spaceId (log ++ append) l' [] := by
  obtain ⟨rcs, cs, rfl, hw, hcs, ht, hall⟩ := h
  refine ⟨rcs ++ [rc], cs ++ [append], by simp, rel_append hw (.cons happ .nil), ?_, ht, ?_⟩
  · intro c hc
    rcases mem_append.mp hc with hc | hc
    · exact hcs c hc
    · rwa [mem_singleton.mp hc]
  · rw [Ledger.replayAll_append, hall]
    simp [Ledger.replayAll, hrep]

/-- A part of a record changes nothing of what the log says. -/
theorem Logged.tears
    (h : Logged spaceId log l []) (happ : appendRecordBytes rc = .ok append)
    (hs : append.length ≤ storeLogStreamMaxPayloadBytes + 8) {n : Nat} (hn : n < append.length) :
    Logged spaceId (log ++ append.take n) l (append.take n) := by
  obtain ⟨rcs, cs, rfl, hw, hcs, -, hall⟩ := h
  obtain ⟨pl, rfl, hf, -⟩ := appendRecordBytes_ok happ
  rw [length_frameOf] at hs hn
  exact ⟨rcs, cs, by simp, hw, hcs, frameAt_cut hf (by omega) hn, hall⟩

/-- **A log boots to what it says**, and takes all but its torn end. -/
theorem Logged.folds (hb : Bootable spaceId) (h : Logged spaceId log l torn) :
    ∃ boot, foldStore H spaceId log = .ok boot ∧ Holds H boot.store l ∧ boot.bootAppend = [] ∧
      boot.validLogBytes + torn.length = log.length ∧
      Logged spaceId (log.take boot.validLogBytes) l [] := by
  obtain ⟨rcs, cs, rfl, hw, hcs, ht, hall⟩ := h
  have hsp := streamed_headerOf (H := H) hb.nonempty (Nat.lt_of_le_of_lt hb.short (by decide))
    (Or.inr rfl) (cs.flatten ++ torn)
  rw [if_neg (Nat.not_lt.mpr hb.short), Ledger.readLog_some (logRecords_written (by decide) ht hw hcs),
    hall] at hsp
  obtain ⟨st, hok, hhd, -, hv, happ⟩ := hsp
  refine ⟨⟨closeFold st.store, st.validLogBytes, st.bootAppend⟩, ?_, (closeFold_spec hhd).1, happ,
    ?_, rcs, cs, ?_, hw, hcs, trivial, hall⟩
  · unfold foldStore
    rw [hok]
    rfl
  · dsimp only
    rw [hv, length_append, length_append]
    omega
  · dsimp only
    rw [hv, ← append_assoc, take_left' length_append, append_nil]

theorem Logged.boots (hb : Bootable spaceId) (h : Logged spaceId log l torn) :
    ∃ server, bootWithHost H spaceId log = .ok server ∧ Holds H server.store l ∧
      Logged spaceId server.log l [] ∧ server.logByteCount = server.log.length := by
  obtain ⟨boot, hok, hhd, happ, hv, hrec⟩ := h.folds (H := H) hb
  have hlen : ¬log.length < boot.validLogBytes := by omega
  refine ⟨⟨log.take boot.validLogBytes, boot.store, boot.validLogBytes, false⟩, ?_, hhd, hrec,
    (length_take_of_le (Nat.not_lt.mp hlen)).symm⟩
  simp [bootWithHost, repairLogTail, hok, hlen, happ, bind, Except.bind]

/-- A log without a torn end compacts to what it says. -/
theorem Logged.compacts (hb : Bootable spaceId) {server : Server}
    (h : Logged spaceId server.log l []) : ∃ store,
    compactStore H spaceId server = .ok { server with store, logByteCount := server.log.length } ∧
      Holds H store l := by
  obtain ⟨boot, hok, hhd, happ, hv, -⟩ := h.folds (H := H) hb
  have hv : boot.validLogBytes = server.log.length := hv
  refine ⟨boot.store, ?_, hhd⟩
  simp [compactStore, hok, happ, hv, bind, Except.bind]

/-- Every record that was tried is one that a boot takes. -/
def Service.Fits (service : Service) : Prop :=
  ∀ t ∈ service.tried, t.2.length ≤ storeLogStreamMaxPayloadBytes + 8

/-- The log says the commits that are kept, and so does the store that is served. -/
structure Service.Durable (H : Hashing) (spaceId : String) (service : Service)
    (kept : List (List CommitOperation)) (torn : List UInt8) : Prop where
  acknowledged : service.acknowledged <+ kept
  tried : kept <+ service.tried.map Prod.fst
  recorded : Logged spaceId service.server.log (.ofCommits spaceId kept) torn
  settled : (Ledger.ofCommits spaceId kept).Settled
  bounded : (Ledger.ofCommits spaceId kept).nextSequence ≤ sequenceBound
  served : service.server.poisoned = false → torn = [] ∧
    Holds H service.server.store (.ofCommits spaceId kept) ∧
      service.server.logByteCount = service.server.log.length

variable {service service' : Service} {events : List HostEvent}

theorem Ledger.ofCommits_concat (kept : List (List CommitOperation))
    (operations : List CommitOperation) : ofCommits spaceId (kept ++ [operations]) =
      (ofCommits spaceId kept).commit (ofCommits spaceId kept).nextSequence operations := by
  simp [ofCommits]

/-- What a compiler commit appends is a record that the ledger takes as the commit. -/
theorem compilerCommit_spec {root store : Root} (h : Holds H root l) (hs : l.Settled)
    (hb : l.nextSequence ≤ sequenceBound) {operations : List CommitOperation}
    (hok : compilerCommit H root operations = .ok (some (store, append))) :
    ∃ rc, appendRecordBytes rc = .ok append ∧
      l.replay rc = some (l.commit l.nextSequence operations) ∧
      Holds H store (l.commit l.nextSequence operations) ∧
      (l.commit l.nextSequence operations).Settled ∧
      (l.commit l.nextSequence operations).nextSequence ≤ sequenceBound := by
  unfold compilerCommit at hok
  split at hok
  · cases hok
  obtain ⟨committed, hcom, hok⟩ := except_bind_ok.mp hok
  obtain ⟨bytes, henc, hok⟩ := except_bind_ok.mp hok
  cases hok
  have hcom := liftFault_ok.mp hcom
  obtain ⟨rc, happ, hrep, hhd, -, hb'⟩ := commit_encoded h hs.wf hb hcom henc
  exact ⟨rc, happ, hrep, hhd,
    hs.commit (commitBoundary_spec h hs.wf hcom).1 (Int.le_refl _), hb'⟩

/-- **An event keeps the log durable.** -/
theorem Service.step_durable (hb : Bootable spaceId) {event : HostEvent}
    (h : service.Fits → ∃ kept torn, service.Durable H spaceId kept torn)
    (hstep : service.step H spaceId event = some service') (hfit : service'.Fits) :
    ∃ kept torn, service'.Durable H spaceId kept torn := by
  cases event with
  | write operations failsAfter =>
    unfold step at hstep
    dsimp only at hstep
    split at hstep
    · rename_i store append hp hc
      have htr : service'.tried = service.tried ++ [(operations, append)] := by
        split at hstep <;> cases hstep <;> rfl
      have hsmall := hfit (operations, append) (htr ▸ mem_append_right _ (mem_singleton_self _))
      obtain ⟨kept, torn, hd⟩ := h fun t ht => hfit t (htr ▸ mem_append_left _ ht)
      obtain ⟨rfl, hhd, hcount⟩ := hd.served hp
      obtain ⟨rc, happ, hrep, hhd, hs, hb'⟩ := compilerCommit_spec hhd hd.settled hd.bounded hc
      have hrec := hd.recorded.grows happ hsmall hrep
      have htried : kept ++ [operations] <+
          (service.tried ++ [(operations, append)]).map Prod.fst := by
        simpa using hd.tried.append_right [operations]
      rw [← Ledger.ofCommits_concat] at hhd hs hb' hrec
      split at hstep
      · cases hstep
        exact ⟨_, [], hd.acknowledged.append_right _, htried, hrec, hs, hb',
          fun _ => ⟨rfl, hhd, by simp [hcount]⟩⟩
      · rename_i n
        cases hstep
        by_cases hn : n < append.length
        -- the record is torn, and the log says what it said
        · exact ⟨kept, _, hd.acknowledged, (sublist_append_left _ _).trans htried,
            hd.recorded.tears happ hsmall hn, hd.settled, hd.bounded, fun h => by cases h⟩
        -- the record is whole, and a boot will serve what was not acknowledged
        · rw [← take_of_length_le (Nat.not_lt.mp hn)] at hrec
          exact ⟨_, [], hd.acknowledged.trans (sublist_append_left _ _), htried, hrec, hs, hb',
            fun h => by cases h⟩
    · cases hstep
      exact h hfit
  | compact =>
    unfold step at hstep
    dsimp only at hstep
    split at hstep
    · rename_i hp hok
      cases hstep
      obtain ⟨kept, torn, hd⟩ := h hfit
      obtain ⟨rfl, -, -⟩ := hd.served hp
      obtain ⟨store, hok', hhd⟩ := hd.recorded.compacts (H := H) hb
      rw [hok'] at hok
      cases hok
      exact ⟨kept, [], hd.acknowledged, hd.tried, hd.recorded, hd.settled, hd.bounded,
        fun _ => ⟨rfl, hhd, rfl⟩⟩
    · cases hstep
      exact h hfit
  | restart =>
    obtain ⟨server, hboot, rfl⟩ := Option.map_eq_some_iff.mp hstep
    obtain ⟨kept, torn, hd⟩ := h hfit
    obtain ⟨server', hok, hhd, hrec, hcount⟩ := hd.recorded.boots (H := H) hb
    rw [hok] at hboot
    cases hboot
    exact ⟨kept, [], hd.acknowledged, hd.tried, hrec, hd.settled, hd.bounded,
      fun _ => ⟨rfl, hhd, hcount⟩⟩

theorem Service.runAll_durable (hb : Bootable spaceId) {service : Service}
    (h : service.Fits → ∃ kept torn, service.Durable H spaceId kept torn)
    (hrun : service.runAll H spaceId events = some service') (hfit : service'.Fits) :
    ∃ kept torn, service'.Durable H spaceId kept torn := by
  induction events generalizing service with
  | nil =>
    cases hrun
    exact h hfit
  | cons event rest ih =>
    obtain ⟨next, hstep, hrest⟩ := Option.bind_eq_some_iff.mp hrun
    exact ih (step_durable hb h hstep) hrest

/-- The empty log boots to the empty ledger, and has its header then. -/
theorem reachedService_durable (hb : Bootable spaceId)
    (hrun : reachedService H spaceId events = some service) (hfit : service.Fits) :
    ∃ kept torn, service.Durable H spaceId kept torn := by
  obtain ⟨server, hboot, hrun⟩ := Option.bind_eq_some_iff.mp hrun
  have hheader := encodeHeader_exists hb.nonempty (Nat.le_trans hb.short (by decide))
  obtain ⟨fresh, hfresh⟩ := newTermStoreSized_exists [] hb.nonempty 0 0 0
  have hfresh : newTermStore spaceId = .ok fresh := hfresh
  have hhd := (closeFold_spec (newTermStoreSized_holds (H := H) hfresh).1).1
  have hok : bootWithHost H spaceId [] = .ok ⟨headerOf storeLogFlags spaceId, closeFold fresh,
      (headerOf storeLogFlags spaceId).length, false⟩ := by
    simp [bootWithHost, foldStore, consumeTransactionLogHeader, hheader, hfresh, liftError,
      liftFault, Except.mapError, repairLogTail, bind, Except.bind]
  rw [hok] at hboot
  cases hboot
  exact Service.runAll_durable hb (fun _ => ⟨[], [], .refl _, .refl _,
    ⟨[], [], by simp, .nil, nofun, trivial, rfl⟩, Ledger.empty_settled hb.nonempty,
    (show (1 : Int) ≤ sequenceBound by decide), fun _ => ⟨rfl, hhd, rfl⟩⟩) hrun hfit

/-- The log boots to a store of these commits; and unless an append has failed they are those of the
    served store, whose count of bytes is the log's, and a compaction folds the same store. -/
structure Service.Survives (H : Hashing) (spaceId : String) (service : Service)
    (kept : List (List CommitOperation)) : Prop where
  acknowledged : service.acknowledged <+ kept
  tried : kept <+ service.tried.map Prod.fst
  boots : ∃ server, bootWithHost H spaceId service.server.log = .ok server ∧
    Holds H server.store (.ofCommits spaceId kept)
  served : service.server.poisoned = false →
    Holds H service.server.store (.ofCommits spaceId kept) ∧
    ∃ store, compactStore H spaceId service.server = .ok { service.server with store } ∧
      Holds H store (.ofCommits spaceId kept)

end

end Beagle.Store
