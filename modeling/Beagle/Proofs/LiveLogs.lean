/-
Torn tails.

A log that is cut anywhere after its header boots to the records that lie wholly
before the cut, and reports exactly the bytes they take.

The log of a live store.

Commits to a fresh store, each encoded as it is made, write a log.  A boot of that
log comes to a store that answers as the live one does.
-/
import Beagle.Proofs.Committing
import Beagle.Proofs.LogBytes

namespace Beagle.Store

open Beagle.Lib List

/-- How many of the records lie wholly before the cut. -/
def wholeBefore (header : List UInt8) (chunks : List (List UInt8)) (cut : Nat) : Nat :=
  Nat.findGreatest (fun j => header.length + (chunks.take j).flatten.length ≤ cut) chunks.length

variable {hd : List UInt8} {cu : Nat}

theorem wholeBefore_spec (cs : List (List UInt8)) (h : hd.length ≤ cu) :
    hd.length + (cs.take (wholeBefore hd cs cu)).flatten.length ≤ cu :=
  Nat.findGreatest_spec (P := fun j => hd.length + (cs.take j).flatten.length ≤ cu) (Nat.zero_le _)
    (by simpa using h)

/-- The record after them does not lie before the cut. -/
theorem wholeBefore_next (hd : List UInt8) (cs : List (List UInt8)) (cu : Nat)
    (h : wholeBefore hd cs cu < cs.length) :
    cu < hd.length + (cs.take (wholeBefore hd cs cu + 1)).flatten.length :=
  Nat.not_le.mp (Nat.findGreatest_is_greatest
    (P := fun j => hd.length + (cs.take j).flatten.length ≤ cu) (Nat.lt_succ_self _) h)

/-- A cut log: its header, the records before the cut, and what is left of the next one. -/
theorem take_log (cs : List (List UInt8)) (h : hd.length ≤ cu) : ∃ t, (hd ++ cs.flatten).take cu
        = hd ++ ((cs.take (wholeBefore hd cs cu)).flatten ++ t) ∧
      (t = [] ∨ ∃ c ∈ cs, ∃ k, k < c.length ∧ t = c.take k) := by
  have hs := wholeBefore_spec cs h
  have hn := wholeBefore_next hd cs cu
  generalize wholeBefore hd cs cu = k at hs hn
  have hsp : cs.flatten = (cs.take k).flatten ++ (cs.drop k).flatten := by
    rw [← flatten_append, take_append_drop]
  refine ⟨(cs.drop k).flatten.take (cu - hd.length - (cs.take k).flatten.length), ?_, ?_⟩
  · rw [hsp, take_append, take_of_length_le h, take_append, take_of_length_le (by omega)]
  · by_cases hk : k < cs.length
    · refine Or.inr ⟨cs[k], getElem_mem hk, cu - hd.length - (cs.take k).flatten.length, ?_, ?_⟩
      · have := hn hk
        rw [take_succ_eq_append_getElem hk, flatten_append, length_append,
          flatten_singleton] at this
        omega
      · have := hn hk
        rw [take_succ_eq_append_getElem hk, flatten_append, length_append,
          flatten_singleton] at this
        rw [drop_eq_getElem_cons hk, flatten_cons, take_append_of_le_length (by omega)]
    · left
      rw [drop_eq_nil_of_le (Nat.not_lt.mp hk)]
      simp

theorem Advancing.take {rcs : List TransactionRecord} :
    ∀ {p : Int}, Advancing p rcs → ∀ k, Advancing p (rcs.take k) := by
  induction rcs with
  | nil => intro p _ k; rw [take_nil]; trivial
  | cons rc r ih =>
    intro p h k
    cases k with
    | zero => trivial
    | succ k => exact ⟨h.1, ih h.2 k⟩

section

variable {H : Hashing}

/-- What a cut log says: the records wholly before the cut. -/
theorem readLog_cut {sid : String} {rcs : List TransactionRecord}
    {cs : List (List UInt8)} (hch : Written rcs cs)
    (hs : ∀ ch ∈ cs, ch.length ≤ storeLogStreamMaxPayloadBytes + 8)
    {t : List UInt8}
    (ht : t = [] ∨ ∃ ch ∈ cs, ∃ j, j < ch.length ∧ t = ch.take j) (k : Nat) :
    (Ledger.empty sid).readLog storeLogStreamMaxPayloadBytes ((cs.take k).flatten ++ t)
      = ((Ledger.empty sid).replayAll (rcs.take k)).map (·, (cs.take k).flatten.length) := by
  have hst : (frameAt storeLogStreamMaxPayloadBytes t).stops := by
    rcases ht with rfl | ⟨ch, hmem, j, hj, rfl⟩
    · trivial
    · obtain ⟨rc, -, hr⟩ := hch.record_of_chunk hmem
      obtain ⟨pl, rfl, hf, -⟩ := appendRecordBytes_ok hr
      have := hs _ hmem
      rw [length_frameOf] at this hj
      exact frameAt_cut hf (by omega) hj
  exact Ledger.readLog_some (logRecords_written (by decide) hst (hch.take k) fun c hc =>
    hs c (mem_of_mem_take hc))

/-- A boot of the cut log succeeds with the fold of the records wholly before the cut, and
    reports the bytes they take. -/
def BootsWholeRecords (H : Hashing) (configuredSpaceId spaceId : String) (header : List UInt8)
    (records : List TransactionRecord) (chunks : List (List UInt8)) (cut : Nat) : Prop :=
  ∃ stream root,
    consumeTransactionLogHeader H configuredSpaceId ((header ++ chunks.flatten).take cut)
      = .ok stream ∧
    foldOf H spaceId (records.take (wholeBefore header chunks cut)) = .ok root ∧
    SameStore H stream.store root ∧
    stream.validLogBytes
      = header.length + (chunks.take (wholeBefore header chunks cut)).flatten.length

/-- **A cut log boots to the records wholly before the cut** exactly when the reader takes a
    SpaceId of this length and none of those records has the greatest sequence. -/
theorem cut_log_boots_whole_records {configuredSpaceId spaceId : String} {header : List UInt8}
    {records : List TransactionRecord} {chunks : List (List UInt8)} {cut : Nat}
    (hheader : encodeHeader spaceId = .ok header)
    (hchunks : Written records chunks) (hadv : Advancing 0 records)
    (hsmall : ∀ chunk ∈ chunks, chunk.length ≤ storeLogStreamMaxPayloadBytes + 8)
    (hcut : header.length ≤ cut)
    (hconf : configuredSpaceId = "" ∨ configuredSpaceId = spaceId) :
    BootsWholeRecords H configuredSpaceId spaceId header records chunks cut ↔
      (Utf8.encode spaceId).length ≤ storeLogStreamMaxSpaceBytes ∧
        ∀ record ∈ records.take (wholeBefore header chunks cut),
          record.sequence.toInt ≤ maxTransactionSequence := by
  obtain ⟨hs, hlen, hho⟩ := encodeHeader_ok hheader
  have hfi : (Utf8.encode spaceId).length < 4294967296 := by
    unfold maxCodecCount at hlen
    omega
  obtain ⟨t, ht, hta⟩ := take_log chunks hcut
  have hv : ∀ record ∈ records, validTransactionRecord record = true := by
    intro record hmem
    obtain ⟨chunk, hc, happ⟩ := hchunks.chunk_of_record hmem
    exact appended_valid happ (Nat.le_trans (hsmall chunk hc) (by decide))
  unfold BootsWholeRecords
  generalize wholeBefore header chunks cut = k at ht ⊢
  have hsp := streamed_headerOf (H := H) hs hfi hconf ((chunks.take k).flatten ++ t)
  rw [readLog_cut hchunks hsmall hta k] at hsp
  have hf := foldOf_spec (H := H) hs fun record (hmem : record ∈ records.take k) =>
    hv record (mem_of_mem_take hmem)
  have hall := replayAll_advancing (records.take k) (Ledger.empty spaceId) (hadv.take k)
  rw [ht, hho]
  by_cases hlo : (Utf8.encode spaceId).length > storeLogStreamMaxSpaceBytes
  · rw [if_pos hlo] at hsp
    obtain ⟨m, hm⟩ := hsp
    constructor
    · rintro ⟨st, r, hok, -⟩
      rw [hm] at hok
      cases hok
    · rintro ⟨hle, -⟩
      exact absurd hlo (Nat.not_lt.mpr hle)
  rw [if_neg hlo] at hsp
  rw [← hall]
  cases hrep : (Ledger.empty spaceId).replayAll (records.take k) with
  | none =>
    rw [hrep] at hsp
    obtain ⟨m, hm⟩ := hsp
    constructor
    · rintro ⟨st, r, hok, -⟩
      rw [hm] at hok
      cases hok
    · rintro ⟨-, l', hl⟩
      cases hl
  | some l' =>
    rw [hrep] at hsp hf
    obtain ⟨st, hok, hhd, -, hbs, -⟩ := hsp
    obtain ⟨r, hr, hrh, -⟩ := hf
    constructor
    · intro _
      exact ⟨Nat.not_lt.mp hlo, l', rfl⟩
    · intro _
      exact ⟨st, r, hok, hr, hhd.same hrh, hbs⟩

end

/-- One record, cut inside its payload and nowhere else, boots to no record. -/
theorem cut_log_boots_before_a_torn_record :
    BootsWholeRecords Hashing.fnv "s" "s" (headerOf storeLogFlags "s") [greetingRecord]
      [greetingBytes] 50 := by
  refine (cut_log_boots_whole_records (encodeHeader_exists (by decide) (by decide))
    greeting_written ⟨by decide, trivial⟩ ?_ (show _ ≤ 50 by decide) (Or.inr rfl)).mpr
      ⟨by decide, ?_⟩
  · intro c h
    rw [mem_singleton.mp h]
    decide
  · intro rc h
    rw [mem_singleton.mp (mem_of_mem_take h)]
    decide

/-- A log of a long SpaceId is written and does not boot, even where it ends with its header. -/
theorem cut_log_of_a_long_space_does_not_boot :
    encodeHeader longSpaceId = .ok (headerOf storeLogFlags longSpaceId) ∧ Written [] [] ∧
      ¬BootsWholeRecords Hashing.fnv longSpaceId longSpaceId (headerOf storeLogFlags longSpaceId)
        [] [] (headerOf storeLogFlags longSpaceId).length := by
  refine ⟨encodeHeader_exists longSpaceId_ne (by rw [length_longSpaceId]; decide), Forall₂.nil, ?_⟩
  rintro ⟨st, r, hok, -⟩
  obtain ⟨m, hm⟩ := consume_long_space (H := Hashing.fnv) longSpaceId_ne
    (by rw [length_longSpaceId]; decide) (by rw [length_longSpaceId]; decide) (Or.inr rfl) []
  rw [flatten_nil, take_of_length_le (by simp), hm] at hok
  cases hok

section

variable (H : Hashing)

/-- Commit one vector of operations after the other, and encode what each commit appends. -/
def commitAll (root : Root) :
    List (List CommitOperation × CommitMetadata) → Except Failure (Root × List (List UInt8))
  | [] => .ok (root, [])
  | (operations, metadata) :: rest => do
      let committed ← liftFault (commitBoundary H root operations metadata)
      let chunk ← encodeStoreAppend committed.1 (currentSequence root.store)
      let others ← commitAll committed.1 rest
      .ok (others.1, chunk :: others.2)

/-- The boot of the log reports no error, reads all of it, and closes to a store that answers as
    the live one does. -/
def RefinesLiveStore (configuredSpaceId : String) (log : List UInt8) (live : Root) : Prop :=
  ∃ stream, consumeTransactionLogHeader H configuredSpaceId log = .ok stream ∧
    stream.validLogBytes = log.length ∧ SameStore H (closeFold stream.store) live

variable {H}

/-! ### One commit, then all of them -/

/-- A commit and what is encoded of it: a record the ledger takes alike. -/
theorem commit_encoded {r c : Root} {l : Ledger} (h : Holds H r l) (hwf : l.Wf)
    (hb : l.nextSequence ≤ sequenceBound) {ops : List CommitOperation}
    {m : CommitMetadata} {co : Triple}
    (hcom : commitBoundary H r ops m = .ok (c, co))
    {ch : List UInt8}
    (henc : encodeStoreAppend c (currentSequence r.store) = .ok ch) :
    ∃ rc, appendRecordBytes rc = .ok ch ∧ l.replay rc = some (l.commit l.nextSequence ops) ∧
      Holds H c (l.commit l.nextSequence ops) ∧ (l.commit l.nextSequence ops).Wf ∧
      (l.commit l.nextSequence ops).nextSequence ≤ sequenceBound := by
  obtain ⟨-, hne, hhd, hwf', -, -⟩ := commitBoundary_spec h hwf hcom
  have hlo : currentSequence r.store = l.nextSequence - 1 := by
    unfold currentSequence
    rw [h.nextSequence]
  rw [hlo] at henc
  have hlt : l.nextSequence < sequenceBound := by omega
  obtain ⟨rc, happ, -, -, hrep⟩ := encodeStoreAppend_commit hwf hlt hhd henc
  refine ⟨rc, happ, hrep, hhd, hwf', ?_⟩
  show (Ledger.append _ _ _).nextSequence ≤ sequenceBound
  rw [Ledger.append_nextSequence]
  omega

/-- **Commits write the records that a replay takes to the same ledger.** -/
theorem commitAll_spec (cos : List (List CommitOperation × CommitMetadata)) :
    ∀ (r : Root) (l : Ledger) (lv : Root) (cs : List (List UInt8)), Holds H r l →
      l.Wf → l.nextSequence ≤ sequenceBound → commitAll H r cos = .ok (lv, cs) →
        ∃ rcs l', Written rcs cs ∧ l.replayAll rcs = some l' ∧ Holds H lv l' := by
  induction cos with
  | nil =>
    intro r l lv cs h _ _ hall
    cases hall
    exact ⟨[], l, Forall₂.nil, rfl, h⟩
  | cons co rs ih =>
    intro r l lv cs h hwf hb hall
    obtain ⟨ops, m⟩ := co
    obtain ⟨c, hcom, hall⟩ := except_bind_ok.mp hall
    obtain ⟨ch, henc, hall⟩ := except_bind_ok.mp hall
    obtain ⟨os, hos, hall⟩ := except_bind_ok.mp hall
    cases hall
    obtain ⟨rc, happ, hrep, hhd, hwf', hb'⟩ :=
      commit_encoded h hwf hb (liftFault_ok.mp hcom) henc
    obtain ⟨rcs, l'', hw, hr, hl⟩ :=
      ih c.1 _ os.1 os.2 hhd hwf' hb' hos
    refine ⟨rc :: rcs, l'', Forall₂.cons happ hw, ?_, hl⟩
    unfold Ledger.replayAll
    rw [hrep]
    exact hr

/-! ### Booting what was written -/

/-- **The log of a live store boots to that store** exactly when a boot takes a SpaceId of this
    length. -/
theorem log_refines_live_store {configuredSpaceId spaceId : String}
    (hconf : configuredSpaceId = "" ∨ configuredSpaceId = spaceId) {header : List UInt8}
    (hheader : encodeHeader spaceId = .ok header) {fresh live : Root}
    (hfresh : newTermStore spaceId = .ok fresh)
    {commits : List (List CommitOperation × CommitMetadata)} {chunks : List (List UInt8)}
    (hall : commitAll H fresh commits = .ok (live, chunks))
    (hsmall : ∀ chunk ∈ chunks, chunk.length ≤ storeLogStreamMaxPayloadBytes + 8) :
    RefinesLiveStore H configuredSpaceId (header ++ chunks.flatten) live ↔
      (Utf8.encode spaceId).length ≤ storeLogStreamMaxSpaceBytes := by
  obtain ⟨hs, hlen, hho⟩ := encodeHeader_ok hheader
  have hf : (Utf8.encode spaceId).length < 4294967296 := by
    unfold maxCodecCount at hlen
    omega
  obtain ⟨hhd, -, -⟩ := newTermStoreSized_holds (H := H) hfresh
  obtain ⟨rcs, l, hw, hr, hli⟩ :=
    commitAll_spec commits fresh _ live chunks hhd (Ledger.empty_wf hs)
      (show (1 : Int) ≤ sequenceBound by decide) hall
  have hre : logRecords storeLogStreamMaxPayloadBytes chunks.flatten
      = some (rcs, chunks.flatten.length) := by
    have := logRecords_written (by decide) (show (frameAt _ []).stops from trivial) hw hsmall
    rwa [append_nil] at this
  have hsp := streamed_headerOf (H := H) hs hf hconf chunks.flatten
  rw [Ledger.readLog_some hre, hr] at hsp
  rw [hho]
  unfold RefinesLiveStore
  by_cases hl : (Utf8.encode spaceId).length > storeLogStreamMaxSpaceBytes
  · rw [if_pos hl] at hsp
    obtain ⟨m, hm⟩ := hsp
    constructor
    · intro ⟨st, hok, _⟩
      rw [hm] at hok
      cases hok
    · intro hle
      exact absurd hl (Nat.not_lt.mpr hle)
  · rw [if_neg hl] at hsp
    obtain ⟨st, hok, hst, -, hv, -⟩ := hsp
    constructor
    · intro _
      exact Nat.not_lt.mp hl
    · intro _
      refine ⟨st, hok, ?_, (closeFold_spec hst).1.same hli⟩
      rw [hv, length_append]

end

/-- One commit of one assertion. -/
def greetingCommits : List (List CommitOperation × CommitMetadata) :=
  [(greetingRecord.operations, commitMetadata "p" "s" none)]

theorem greetingCommits_logged : ∃ fr lv cs, newTermStore "s" = .ok fr ∧
      commitAll Hashing.fnv fr greetingCommits = .ok (lv, cs) ∧
      ∀ c ∈ cs, c.length ≤ storeLogStreamMaxPayloadBytes + 8 := by
  have hlog : (do
      let fr ← liftFault (newTermStore "s")
      let l ← commitAll Hashing.fnv fr greetingCommits
      pure l.2 : Except Failure (List (List UInt8))) = .ok [greetingBytes] := by
    decide +kernel
  obtain ⟨fr, hf, hlog⟩ := except_bind_ok.mp hlog
  obtain ⟨l, hall, hlog⟩ := except_bind_ok.mp hlog
  refine ⟨fr, l.1, l.2, liftFault_ok.mp hf, hall, ?_⟩
  rw [Except.ok.inj hlog]
  decide

theorem greeting_log_refines : ∃ fresh live chunks, newTermStore "s" = .ok fresh ∧
      commitAll Hashing.fnv fresh greetingCommits = .ok (live, chunks) ∧
      RefinesLiveStore Hashing.fnv "s" (headerOf storeLogFlags "s" ++ chunks.flatten) live := by
  obtain ⟨fresh, live, chunks, hf, hall, hs⟩ := greetingCommits_logged
  exact ⟨fresh, live, chunks, hf, hall, (log_refines_live_store (Or.inr rfl)
    (encodeHeader_exists (by decide) (by decide)) hf hall hs).mpr (by decide)⟩

/-- A live store of a long SpaceId has a header, and no boot reads it. -/
theorem log_of_a_long_space_does_not_refine : ∃ fresh, newTermStore longSpaceId = .ok fresh ∧
      encodeHeader longSpaceId = .ok (headerOf storeLogFlags longSpaceId) ∧
      commitAll Hashing.fnv fresh [] = .ok (fresh, []) ∧
      ¬RefinesLiveStore Hashing.fnv longSpaceId
        (headerOf storeLogFlags longSpaceId ++ ([] : List (List UInt8)).flatten) fresh := by
  obtain ⟨fresh, hf⟩ := newTermStoreSized_exists [] longSpaceId_ne 0 0 0
  refine ⟨fresh, hf, encodeHeader_exists longSpaceId_ne
    (by rw [length_longSpaceId]; decide), rfl, ?_⟩
  intro ⟨stream, hok, _⟩
  obtain ⟨m, hm⟩ := consume_long_space (H := Hashing.fnv) longSpaceId_ne
    (by rw [length_longSpaceId]; decide) (by rw [length_longSpaceId]; decide) (Or.inr rfl) []
  rw [flatten_nil, hm] at hok
  cases hok

end Beagle.Store
