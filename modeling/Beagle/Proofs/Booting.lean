/-
The boot routes refine what the log says.

Each route, started on a store that holds a ledger, either fails, when the bytes
are damaged or say a record the ledger does not take, or leaves a store that holds
the ledger the bytes say.

What can be seen of a store.

Two stores are the same to their readers when they dump the same, withdrew the
same and list the same live occurrences.  All of that is a function of the ledger a
store holds, so two stores that hold one ledger are the same, however each came
to hold it.
-/
import Beagle.Ledger.Checks
import Beagle.Ledger.Log
import Beagle.Proofs.Fused

namespace Beagle.Store

section

open Beagle.Lib Beagle.Lib.Reader

section

variable {H : Hashing}

/-! ### One record -/

theorem liftFault_ok {α : Type} {res : Except Fault α} {a : α} :
    liftFault res = .ok a ↔ res = .ok a := by
  cases res with
  | error f => exact ⟨nofun, nofun⟩
  | ok b => exact ⟨fun h => by cases h; rfl, fun h => by cases h; rfl⟩

variable {rc : TransactionRecord}

theorem validOperations_of_valid
    (h : validTransactionRecord rc = true) : validOperations rc.operations = true := by
  unfold validTransactionRecord at h
  exact (Bool.and_eq_true _ _ |>.mp h).2

theorem maxTransactionSequence_ne {sq : Int} (h : sq ≤ maxTransactionSequence) :
    sq ≠ 9223372036854775807 := by
  unfold maxTransactionSequence at h
  omega

/-- Replaying a record does to a store what taking it does to the ledger. -/
structure Replayed (H : Hashing) (root root' : Root) (l' : Ledger) : Prop where
  holds : Holds H root' l'
  foldOpen : root'.store.foldOpen = root.store.foldOpen

variable {root : Root}

/-- A replay of a valid record takes it or refuses it, as the ledger does. -/
theorem replayTransactionResult_spec {l : Ledger} (h : Holds H root l)
    (hv : validTransactionRecord rc = true) :
    match l.replay rc with
    | none => ∃ r, replayTransactionResult H root rc = .ok (.error r)
    | some l' => ∃ r', replayTransactionResult H root rc = .ok (.ok r') ∧
        Replayed H root r' l' := by
  unfold replayTransactionResult appendTransactionResult
  rw [if_pos hv, validOperations_of_valid hv, h.nextSequence]
  simp only [Bool.not_true, Bool.false_eq_true, if_false]
  by_cases hlt : rc.sequence.toInt < l.nextSequence
  · rw [if_pos hlt, Ledger.replay_refused (fun ha => by have := ha.1; omega)]
    exact ⟨_, rfl⟩
  · rw [if_neg hlt]
    by_cases hmax : rc.sequence.toInt > maxTransactionSequence
    · rw [if_pos hmax, Ledger.replay_refused (fun ha => by have := ha.2; omega)]
      exact ⟨_, rfl⟩
    · rw [if_neg hmax, Ledger.replay_accepted ⟨Int.not_lt.mp hlt, Int.not_lt.mp hmax⟩]
      obtain ⟨r', hok, hhd, hf, -⟩ := appendValidTransaction_spec h
        (maxTransactionSequence_ne (Int.not_lt.mp hmax)) rc.operations
      rw [hok]
      exact ⟨r', rfl, hhd, hf⟩

/-- `replayTransaction` takes what the ledger takes, and traps on the greatest sequence. -/
theorem replayTransaction_spec {l : Ledger} (h : Holds H root l) (hwf : l.Wf)
    (hv : validTransactionRecord rc = true) :
    match l.replay rc with
    | none => ∃ f, replayTransaction H root rc = .error f
    | some l' => ∃ r, replayTransaction H root rc = .ok r ∧
        Replayed H root r.1 l' := by
  unfold replayTransaction appendTransaction
  rw [if_pos hv, validOperations_of_valid hv, h.nextSequence]
  simp only [Bool.not_true, Bool.false_eq_true, if_false]
  by_cases hlt : rc.sequence.toInt < l.nextSequence
  · rw [if_pos hlt, Ledger.replay_refused (fun ha => by have := ha.1; omega)]
    exact ⟨_, rfl⟩
  · rw [if_neg hlt]
    by_cases hmax : rc.sequence.toInt > maxTransactionSequence
    · rw [Ledger.replay_refused (fun ha => by have := ha.2; omega)]
      have hseq : rc.sequence.toInt = 9223372036854775807 := by
        have := rc.sequence.toInt_lt
        unfold maxTransactionSequence at hmax
        omega
      refine ⟨.trap, ?_⟩
      unfold appendValidTransaction
      rw [hseq, appendTransactionRows_trap]
      rfl
    · rw [Ledger.replay_accepted ⟨Int.not_lt.mp hlt, Int.not_lt.mp hmax⟩]
      obtain ⟨r', hok, hhd, hf, -⟩ := appendValidTransaction_spec h
        (maxTransactionSequence_ne (Int.not_lt.mp hmax)) rc.operations
      have hs : validSpaceId r'.store.spaceId = true := by
        rw [hhd.spaceId]
        exact decide_eq_true hwf.space
      have hpos := hwf.nextSequence_pos
      rw [hok]
      refine ⟨(r', transactionCoordinate r'.store.spaceId rc.sequence.toInt), ?_, hhd, hf⟩
      show (if validSpaceId r'.store.spaceId ∧ 0 ≤ rc.sequence.toInt then _ else _) = _
      exact if_pos ⟨hs, by omega⟩

theorem columns_lengths {ops : List CommitOperation} {handles : List Int}
    (h : handles.length = ops.length) :
    ((ops.map CommitOperation.action).zip handles).map (·.1) = ops.map CommitOperation.action ∧
      ((ops.map CommitOperation.action).zip handles).map (·.2) = handles := by
  constructor
  · exact List.map_fst_zip (by simp [h])
  · exact List.map_snd_zip (by simp [h])

/-- **A fused replay takes what decodes to a record the ledger takes.** -/
theorem replayRecordFused_spec {l : Ledger} (h : Holds H root l) (pl : List UInt8) :
    match (decodeRecordPayload pl).toOption.bind l.replay with
    | none => ∃ refused, replayRecordFused H root pl = .ok (.error refused)
    | some l' => ∃ root', replayRecordFused H root pl = .ok (.ok root') ∧
        Replayed H root root' l' := by
  have hvalid : ∀ record, decodeRecordPayload pl = .ok record →
      validTransactionRecord record = true := fun _ => decodeRecordPayload_valid
  revert hvalid
  unfold decodeRecordPayload replayRecordFused
  by_cases hlen : pl.length < 12
  · rw [if_pos hlen, if_pos hlen]
    exact fun _ => ⟨_, rfl⟩
  rw [if_neg hlen, if_neg hlen]
  have hf := follows_replayRecord h.indexed pl 0
  cases hread : (readRecord : Decode Unit TransactionRecord) ⟨pl, ⟨0, ()⟩⟩ with
  | error e =>
    rw [hread] at hf
    obtain ⟨message, hm⟩ := hf
    rw [hm]
    exact fun _ => ⟨_, rfl⟩
  | ok out =>
    rw [hread] at hf
    obtain ⟨root', replayed, hm, hseq, handles, hh, hacts⟩ := hf
    rw [hm]
    by_cases hrest : out.2.rest ≠ []
    · simp only [if_pos hrest]
      exact fun _ => ⟨_, rfl⟩
    simp only [if_neg hrest]
    intro hvalid
    have hv := hvalid out.1 rfl
    obtain ⟨hi, he⟩ := operationHandles_spec h.indexed out.1.operations
    rw [hh] at hi he
    have hlen : handles.length = out.1.operations.length := by
      have : handles = _ := he
      rw [this, Rows.length_internAll, propositions, List.length_map]
    obtain ⟨hfst, hsnd⟩ := columns_lengths hlen
    have hne : (out.1.operations.map CommitOperation.action).isEmpty = false := by
      have := (validOperations_iff.mp (validOperations_of_valid hv)).1
      simpa using this
    have hhd := h.interned hi
    have hnext : root'.store.nextSequence = l.nextSequence := hhd.nextSequence
    show match l.replay out.1 with
      | none => _
      | some l' => _
    rw [hacts, hfst, hsnd, hseq]
    unfold appendReplayedTransaction
    rw [hne, hnext, if_neg (by simp [hlen])]
    by_cases hlt : out.1.sequence.toInt < l.nextSequence
    · rw [if_pos hlt, Ledger.replay_refused (fun ha => by have := ha.1; omega)]
      exact ⟨_, rfl⟩
    · rw [if_neg hlt]
      by_cases hmax : out.1.sequence.toInt > maxTransactionSequence
      · rw [if_pos hmax, Ledger.replay_refused (fun ha => by have := ha.2; omega)]
        exact ⟨_, rfl⟩
      · rw [if_neg hmax, Ledger.replay_accepted ⟨Int.not_lt.mp hlt, Int.not_lt.mp hmax⟩]
        obtain ⟨root'', hok, hhd', hfold, -⟩ := appendTransactionRows_spec hhd
          (maxTransactionSequence_ne (Int.not_lt.mp hmax))
          ((out.1.operations.map CommitOperation.action).zip handles)
        have he : handles = (root.store.rows.internAll (propositions out.1.operations)).2 := he
        rw [hok]
        refine ⟨root'', rfl, ?_, hfold.trans hi.history.foldOpen⟩
        rw [he, h.rows] at hhd'
        exact hhd'

/-! ### The fused walk -/

variable {r : List UInt8}

theorem consume_stops (stream : BootStream)
    (h : (frameAt storeLogStreamMaxPayloadBytes r).stops) :
    consumeTransactionLogRecords H stream r = .ok stream := by
  rw [consumeTransactionLogRecords]
  split <;> rename_i hf <;> rw [hf] at h <;> first | rfl | exact absurd h id

theorem consume_oversized (st : BootStream)
    (h : frameAt storeLogStreamMaxPayloadBytes r = .oversized) :
    consumeTransactionLogRecords H st r = .error (.error oversizedMessage) := by
  rw [consumeTransactionLogRecords]
  split <;> rename_i hf <;> rw [hf] at h <;> first | rfl | cases h

variable {pl bs : List UInt8} {sc : Nat}

theorem consume_record (st : BootStream) {r after : List UInt8}
    (h : frameAt storeLogStreamMaxPayloadBytes r = .record pl sc after) :
    consumeTransactionLogRecords H st r = if sc ≠ crc32 pl then .error (.error crcMessage)
        else
          match replayRecordFused H st.store pl with
          | .error fault => .error (.fault fault)
          | .ok (.error refused) => .error (.error (refused.message.getD notAdvancingMessage))
          | .ok (.ok root) =>
            consumeTransactionLogRecords H
              { configuredSpaceId := st.configuredSpaceId
                store := root
                validLogBytes := st.validLogBytes + (pl.length + 8)
                bootAppend := [] } after := by
  conv_lhs => rw [consumeTransactionLogRecords]
  split <;> rename_i hf <;> rw [hf] at h <;> cases h
  rfl

/-- What a walk that does not fail leaves. -/
structure Consumed (H : Hashing) (stream stream' : BootStream) (l' : Ledger) (n : Nat) : Prop where
  holds : Holds H stream'.store l'
  foldOpen : stream'.store.store.foldOpen = stream.store.store.foldOpen
  bytes : stream'.validLogBytes = stream.validLogBytes + n
  configured : stream'.configuredSpaceId = stream.configuredSpaceId
  append : stream.bootAppend = [] → stream'.bootAppend = []

theorem Consumed.refl {st : BootStream} {l : Ledger} (h : Holds H st.store l) :
    Consumed H st st l 0 := ⟨h, rfl, rfl, rfl, id⟩

/-- What a walk makes of what the log says. -/
def ConsumedAs (H : Hashing) (stream : BootStream) (result : Except Failure BootStream) :
    Option (Ledger × Nat) → Prop
  | none => ∃ message, result = .error (.error message)
  | some (l', n) => ∃ stream', result = .ok stream' ∧ Consumed H stream stream' l' n

/-- **The fused walk leaves what the log says.** -/
theorem consumeTransactionLogRecords_spec (r : List UInt8) :
    ∀ (st : BootStream) (l : Ledger), Holds H st.store l →
      ConsumedAs H st (consumeTransactionLogRecords H st r)
        (l.readLog storeLogStreamMaxPayloadBytes r) := by
  induction r using log_induction storeLogStreamMaxPayloadBytes with
  | stops r hst =>
    intro st l h
    rw [Ledger.readLog_stops hst, consume_stops st hst]
    exact ⟨st, rfl, Consumed.refl h⟩
  | oversized r hf =>
    intro st l h
    rw [Ledger.readLog_oversized hf, consume_oversized st hf]
    exact ⟨_, rfl⟩
  | record r pl sc af hf ih =>
    intro st l h
    rw [Ledger.readLog_record hf, consume_record st hf]
    by_cases hcrc : sc ≠ crc32 pl
    · rw [if_pos hcrc, if_pos hcrc]
      exact ⟨_, rfl⟩
    rw [if_neg hcrc, if_neg hcrc]
    have hs := replayRecordFused_spec h pl
    cases hd : decodeRecordPayload pl with
    | error e =>
      rw [hd] at hs
      obtain ⟨re, hr⟩ := hs
      rw [hr]
      exact ⟨_, rfl⟩
    | ok record =>
      rw [hd] at hs
      simp only [Except.toOption, Option.bind_some] at hs
      cases hrep : l.replay record with
      | none =>
        rw [hrep] at hs
        obtain ⟨re, hr⟩ := hs
        rw [hr]
        simp only [hrep]
        exact ⟨_, rfl⟩
      | some l' =>
        rw [hrep] at hs
        obtain ⟨r', hr, hre⟩ := hs
        rw [hr]
        simp only [hrep, Option.bind_some]
        have hres := ih ⟨st.configuredSpaceId, r',
          st.validLogBytes + (pl.length + 8), []⟩ l' hre.holds
        cases hrea : l'.readLog storeLogStreamMaxPayloadBytes af with
        | none =>
          rw [hrea] at hres
          exact hres
        | some out =>
          rw [hrea] at hres
          obtain ⟨st', hok, hc⟩ := hres
          refine ⟨st', hok, hc.holds, hc.foldOpen.trans hre.foldOpen, ?_,
            hc.configured, fun _ => hc.append rfl⟩
          have hbs := hc.bytes
          dsimp only at hbs
          rw [hbs]
          omega

/-! ### Decoding and then replaying -/

theorem replayComplete_stops (root : Root) (v : Nat)
    (h : (frameAt maxCodecCount r).stops) :
    replayCompleteRecords H root v r = successfulBoot root v [] := by
  rw [replayCompleteRecords]
  split <;> rename_i hf <;> rw [hf] at h <;> first | rfl | exact absurd h id

theorem replayComplete_oversized (root : Root) (v : Nat)
    (h : frameAt maxCodecCount r = .oversized) :
    replayCompleteRecords H root v r = .error (.error oversizedMessage) := by
  rw [replayCompleteRecords]
  split <;> rename_i hf <;> rw [hf] at h <;> first | rfl | cases h

theorem replayComplete_record (root : Root) (v : Nat) {r after : List UInt8}
    (h : frameAt maxCodecCount r = .record pl sc after) :
    replayCompleteRecords H root v r = if sc ≠ crc32 pl then .error (.error crcMessage)
        else
          match decodeRecordPayload pl with
          | .error (.error message) =>
            .error (.error ("Store transaction log record decode failed: " ++ message))
          | .error (.fault fault) => .error (.fault fault)
          | .ok record =>
            if record.sequence.toInt < root.store.nextSequence then
              .error (.error notAdvancingMessage)
            else
              match replayTransaction H root record with
              | .error fault => .error (.fault fault)
              | .ok replayed =>
                replayCompleteRecords H replayed.1 (v + (pl.length + 8)) after := by
  conv_lhs => rw [replayCompleteRecords]
  split <;> rename_i hf <;> rw [hf] at h <;> cases h
  rfl

/-- What a boot that does not fail leaves. -/
structure Booted (H : Hashing) (result : BootResult) (l : Ledger) (valid : Nat) : Prop where
  holds : Holds H result.store l
  closed : result.store.store.foldOpen = false
  bytes : result.validLogBytes = valid

/-- What a boot makes of what the log says: rows a check refuses are refused at the end. -/
def BootedAs (H : Hashing) (valid : Nat) (result : Except Failure BootResult) :
    Option (Ledger × Nat) → Prop
  | none => ∃ failure, result = .error failure
  | some (l', n) =>
    (l'.rows.NanFree → ∃ booted, result = .ok booted ∧ Booted H booted l' (valid + n)) ∧
      (¬l'.rows.NanFree → ∃ failure, result = .error failure)

/-- A boot that started after some bytes, seen from before them. -/
theorem BootedAs.after {v k : Nat} {res : Except Failure BootResult}
    {sa : Option (Ledger × Nat)} (h : BootedAs H (v + k) res sa) :
    BootedAs H v res (sa.map fun (l, n) => (l, k + n)) := by
  cases sa with
  | none => exact h
  | some out =>
    obtain ⟨hok, herr⟩ := h
    refine ⟨?_, herr⟩
    intro hn
    obtain ⟨bo, hr, hb⟩ := hok hn
    exact ⟨bo, hr, hb.holds, hb.closed, by rw [hb.bytes, Nat.add_assoc]⟩

theorem validatedStore_spec {l : Ledger} (h : Holds H root l) (hwf : l.Wf) :
    (l.rows.NanFree → validatedStore root = .ok root) ∧
      (¬l.rows.NanFree → ∃ f, validatedStore root = .error f) := by
  unfold validatedStore
  rw [h.dump]
  constructor
  · intro hn
    rw [if_pos (validRows_dump (hwf.checked hn))]
  · intro hn
    have hro : ¬validRows l.dump = true := by
      intro hv
      obtain ⟨l', hl, hc⟩ := exists_ledger_of_validRows hv rfl
      have hro' : l'.rows = l.rows := by
        have ha := congrArg TermStoreDump.atoms hl
        have ht := congrArg TermStoreDump.triples hl
        cases hr : l'.rows
        cases hr' : l.rows
        simp only [Ledger.dump, hr, hr'] at ha ht
        rw [ha, ht]
      exact hn (hro' ▸ hc.nanFree)
    rw [if_neg hro]
    exact ⟨_, rfl⟩

theorem successfulBoot_spec {l : Ledger} (h : Holds H root l) (hwf : l.Wf) (v : Nat)
    (ap : List UInt8) :
    (l.rows.NanFree → ∃ bo, successfulBoot root v ap = .ok bo ∧ Booted H bo l v) ∧
      (¬l.rows.NanFree → ∃ f, successfulBoot root v ap = .error f) := by
  obtain ⟨hcl, hfo⟩ := closeFold_spec h
  obtain ⟨hok, herr⟩ := validatedStore_spec hcl hwf
  unfold successfulBoot liftFault
  constructor
  · intro hn
    rw [hok hn]
    exact ⟨_, rfl, hcl, hfo, rfl⟩
  · intro hn
    obtain ⟨fa, hf⟩ := herr hn
    rw [hf]
    exact ⟨_, rfl⟩

/-- **Decoding and then replaying leaves what the log says.** -/
theorem replayCompleteRecords_spec (r : List UInt8) :
    ∀ (root : Root) (l : Ledger) (v : Nat), Holds H root l → l.Wf →
      BootedAs H v (replayCompleteRecords H root v r) (l.readLog maxCodecCount r) := by
  induction r using log_induction maxCodecCount with
  | stops r hst =>
    intro root l v h hwf
    rw [Ledger.readLog_stops hst, replayComplete_stops root v hst]
    exact successfulBoot_spec h hwf v []
  | oversized r hf =>
    intro root l v h hwf
    rw [Ledger.readLog_oversized hf, replayComplete_oversized root v hf]
    exact ⟨_, rfl⟩
  | record r pl sc af hf ih =>
    intro root l v h hwf
    rw [Ledger.readLog_record hf, replayComplete_record root v hf]
    by_cases hcrc : sc ≠ crc32 pl
    · rw [if_pos hcrc, if_pos hcrc]
      exact ⟨_, rfl⟩
    rw [if_neg hcrc, if_neg hcrc]
    cases hd : decodeRecordPayload pl with
    | error e => cases e <;> exact ⟨_, rfl⟩
    | ok record =>
      have hv := decodeRecordPayload_valid hd
      have hs := replayTransaction_spec h hwf hv
      dsimp only
      by_cases hlt : record.sequence.toInt < root.store.nextSequence
      · rw [if_pos hlt]
        rw [h.nextSequence] at hlt
        rw [Ledger.replay_refused fun ha => by have := ha.1; omega]
        exact ⟨_, rfl⟩
      rw [if_neg hlt]
      cases hrep : l.replay record with
      | none =>
        rw [hrep] at hs
        obtain ⟨f, hr⟩ := hs
        rw [hr]
        exact ⟨_, rfl⟩
      | some l' =>
        rw [hrep] at hs
        obtain ⟨re, hr, hre⟩ := hs
        rw [hr]
        have hres := ih re.1 l' (v + (pl.length + 8)) hre.holds (hwf.replay hv hrep)
        simp only [Option.bind_some]
        exact hres.after

/-! ### Whole logs -/

theorem newTermStoreForLog_holds {sid : String} (h : sid ≠ "") (lb : Nat) :
    ∃ root, newTermStoreForLog sid lb = .ok root ∧ Holds H (openFold root) (Ledger.empty sid) ∧
      (openFold root).store.foldOpen = true := by
  obtain ⟨root, hr⟩ := newTermStoreSized_exists [] h (lb / 64) (lb / 32) (lb / 128)
  obtain ⟨hhd, -, -⟩ := newTermStoreSized_holds (H := H) hr
  exact ⟨root, hr, openFold_spec hhd⟩

/-- What a fused boot makes of what the log says; it leaves its fold open. -/
def StreamedAs (H : Hashing) (result : Except Failure BootStream) : Option (Ledger × Nat) → Prop
  | none => ∃ message, result = .error (.error message)
  | some (l, valid) => ∃ stream, result = .ok stream ∧ Holds H stream.store l ∧
      stream.store.store.foldOpen = true ∧ stream.validLogBytes = valid ∧ stream.bootAppend = []

/-- **The fused boot of a log that is not empty leaves what the log says.** -/
theorem consumeTransactionLogHeader_spec (csid : String) (hne : bs ≠ []) :
    StreamedAs H (consumeTransactionLogHeader H csid bs)
      (bootLedger storeLogStreamMaxSpaceBytes storeLogStreamMaxPayloadBytes csid bs) := by
  unfold consumeTransactionLogHeader bootLedger bootHeader
  have hlen : ¬bs.length = 0 := fun h0 => hne (List.length_eq_zero_iff.mp h0)
  rw [if_neg hlen]
  by_cases hs : bs.length < minimumHeaderBytes
  · rw [if_pos hs, if_pos (Or.inl hs)]
    exact ⟨_, rfl⟩
  rw [if_neg hs]
  cases hm : magicAtStart bs with
  | false =>
    rw [if_pos (Or.inr rfl)]
    exact ⟨_, rfl⟩
  | true =>
    have hp : ¬(bs.length < minimumHeaderBytes ∨ true = false) := by simpa using hs
    rw [if_neg hp]
    simp only [Bool.not_true, Bool.false_eq_true, if_false]
    cases hhdr : headerFieldsAt storeLogStreamMaxSpaceBytes (· = storeLogFlags) bs with
    | error m => exact ⟨m, rfl⟩
    | ok hd =>
      show StreamedAs H (if csid ≠ "" ∧ csid ≠ hd.spaceId
        then _ else _ : Except Failure BootStream)
        ((if csid ≠ "" ∧ csid ≠ hd.spaceId then none
        else some hd : Option HeaderFields).bind _)
      by_cases hsp : csid ≠ "" ∧ csid ≠ hd.spaceId
      · simp only [if_pos hsp]
        exact ⟨_, rfl⟩
      simp only [if_neg hsp, Option.bind_some]
      obtain ⟨root, hr, hhd, ho⟩ := newTermStoreForLog_holds (H := H)
        (headerFieldsAt_space hhdr) bs.length
      rw [hr]
      have hspe := consumeTransactionLogRecords_spec (bs.drop hd.headerBytes)
        ⟨csid, openFold root, hd.headerBytes, []⟩ _ hhd
      revert hspe
      cases (Ledger.empty hd.spaceId).readLog storeLogStreamMaxPayloadBytes
        (bs.drop hd.headerBytes) with
      | none => exact id
      | some out =>
        rintro ⟨st, hok, hc⟩
        exact ⟨st, hok, hc.holds, hc.foldOpen.trans ho, hc.bytes, hc.append rfl⟩

/-- **`bootStoreLog` of a log that is not empty leaves what the log says.** -/
theorem bootStoreLog_spec (csid : String) (hne : bs ≠ []) : BootedAs H 0 (bootStoreLog H csid bs)
      (bootLedger maxCodecCount maxCodecCount csid bs) := by
  unfold bootStoreLog bootLedger bootHeader
  have hlen : ¬bs.length = 0 := fun h0 => hne (List.length_eq_zero_iff.mp h0)
  rw [if_neg hlen]
  cases hm : magicAtStart bs with
  | false =>
    rw [if_pos (Or.inr rfl)]
    exact ⟨_, rfl⟩
  | true =>
    simp only [Bool.not_true, Bool.false_eq_true, if_false]
    by_cases hs : bs.length < minimumHeaderBytes
    · rw [if_pos hs, if_pos (Or.inl hs)]
      exact ⟨_, rfl⟩
    have hp : ¬(bs.length < minimumHeaderBytes ∨ true = false) := by simpa using hs
    rw [if_neg hs, if_neg hp]
    cases hhdr : headerFieldsAt maxCodecCount (· = storeLogFlags) bs with
    | error m => exact ⟨_, rfl⟩
    | ok hd =>
      show BootedAs H 0 (if csid ≠ "" ∧ csid ≠ hd.spaceId
        then _ else _ : Except Failure BootResult)
        ((if csid ≠ "" ∧ csid ≠ hd.spaceId then none
        else some hd : Option HeaderFields).bind _)
      by_cases hsp : csid ≠ "" ∧ csid ≠ hd.spaceId
      · simp only [if_pos hsp]
        exact ⟨_, rfl⟩
      simp only [if_neg hsp, Option.bind_some]
      have hid := headerFieldsAt_space hhdr
      obtain ⟨root, hr, hhd, -⟩ := newTermStoreForLog_holds (H := H) hid bs.length
      rw [hr]
      have hspe := replayCompleteRecords_spec (bs.drop hd.headerBytes)
        (openFold root) _ hd.headerBytes hhd (Ledger.empty_wf hid)
      rw [← Nat.zero_add hd.headerBytes] at hspe
      have := hspe.after
      simp only [Nat.zero_add] at this
      exact this

end

end

section

open Beagle.Lib

section

variable (H : Hashing)

/-- The two stores answer alike. -/
structure SameStore (a b : Root) : Prop where
  dump : dumpTermStore a.store = dumpTermStore b.store
  targets : a.store.withdrawalTargets = b.store.withdrawalTargets
  occurrences : liveOccurrences H a = liveOccurrences H b
  propositions : livePropositions H a = livePropositions H b

end

/-! ### Resolving looks at the rows only -/

variable {s s' : TermStore}

theorem resolveWithin_congr (ha : s.atoms = s'.atoms) (ht : s.triples = s'.triples) (k : Nat)
    (h : Int) : resolveWithin s k h = resolveWithin s' k h := by
  induction k generalizing h with
  | zero => rfl
  | succ k ih =>
    simp only [resolveWithin, validHandle, ha, ht, ih]
    rfl

theorem resolveTripleHandle_congr (ha : s.atoms = s'.atoms) (ht : s.triples = s'.triples)
    (h : Int) : resolveTripleHandle s h = resolveTripleHandle s' h := by
  unfold resolveTripleHandle resolveHandle
  rw [ht, resolveWithin_congr ha ht]

theorem operationOccurrenceAt_congr (hs : s.spaceId = s'.spaceId) (ha : s.atoms = s'.atoms)
    (ht : s.triples = s'.triples) (row : OperationRow) :
    operationOccurrenceAt s row = operationOccurrenceAt s' row := by
  unfold operationOccurrenceAt occurrenceAt
  rw [hs, resolveTripleHandle_congr ha ht]

section

variable {H : Hashing}

namespace Holds

variable {a b : Root} {l : Ledger}

theorem liveRows_eq (ha : Holds H a l) (hb : Holds H b l) : liveRows H a = liveRows H b := by
  have hlive : ∀ position row, operationLive H a position row = operationLive H b position row := by
    intro position row
    unfold operationLive
    rw [ha.active, hb.active]
  unfold liveRows
  rw [ha.operations, hb.operations]
  simp only [hlive]

/-- **Two stores that hold one ledger are the same store to their readers.** -/
theorem same (ha : Holds H a l) (hb : Holds H b l) : SameStore H a b := by
  have hat : a.store.atoms = b.store.atoms := ha.atoms.trans hb.atoms.symm
  have ht : a.store.triples = b.store.triples := ha.triples.trans hb.triples.symm
  have hs : a.store.spaceId = b.store.spaceId := ha.spaceId.trans hb.spaceId.symm
  refine ⟨ha.dump.trans hb.dump.symm, ha.targets.trans hb.targets.symm, ?_, ?_⟩
  · unfold liveOccurrences
    rw [ha.liveRows_eq hb]
    simp only [operationOccurrenceAt_congr hs hat ht]
  · unfold livePropositions
    rw [ha.liveRows_eq hb]
    simp only [resolveTripleHandle_congr hat ht]

end Holds

/-! ### Replaying some records into a fresh store -/

variable (H)

/-- Replay some records, first to last. -/
def replayRecords (root : Root) : List TransactionRecord → Except Fault Root
  | [] => .ok root
  | record :: rest => do
      let replayed ← replayTransaction H root record
      replayRecords replayed.1 rest

/-- The fold of some records: a fresh store with the records replayed into it. -/
def foldOf (spaceId : String) (records : List TransactionRecord) : Except Fault Root := do
  let root ← newTermStore spaceId
  replayRecords H root records

variable {H}

theorem replayRecords_spec (rcs : List TransactionRecord) :
    ∀ (root : Root) (l : Ledger), Holds H root l → l.Wf →
      (∀ rc ∈ rcs, validTransactionRecord rc = true) →
        match l.replayAll rcs with
        | none => ∃ f, replayRecords H root rcs = .error f
        | some l' => ∃ r', replayRecords H root rcs = .ok r' ∧
            Replayed H root r' l' ∧ l'.Wf := by
  induction rcs with
  | nil => intro root l h hwf _; exact ⟨root, rfl, ⟨h, rfl⟩, hwf⟩
  | cons rc rs ih =>
    intro root l h hwf hv
    have hrec := hv rc (List.mem_cons_self ..)
    have hs := replayTransaction_spec h hwf hrec
    unfold replayRecords Ledger.replayAll
    cases hrep : l.replay rc with
    | none =>
      rw [hrep] at hs
      obtain ⟨f, hr⟩ := hs
      rw [hr]
      exact ⟨f, rfl⟩
    | some l' =>
      rw [hrep] at hs
      obtain ⟨re, hr, hre⟩ := hs
      have hres := ih re.1 l' hre.holds (hwf.replay hrec hrep)
        fun r hr => hv r (List.mem_cons_of_mem _ hr)
      rw [hr]
      simp only [Option.bind_some]
      cases hall : l'.replayAll rs with
      | none => rw [hall] at hres; exact hres
      | some l'' =>
        rw [hall] at hres
        obtain ⟨r', hok, hr', hwf'⟩ := hres
        exact ⟨r', hok, ⟨hr'.holds, hr'.foldOpen.trans hre.foldOpen⟩, hwf'⟩

/-- **The fold of some records holds what the ledger makes of them.** -/
theorem foldOf_spec {sid : String} (hs : sid ≠ "") {records : List TransactionRecord}
    (hv : ∀ rc ∈ records, validTransactionRecord rc = true) :
    match (Ledger.empty sid).replayAll records with
    | none => ∃ f, foldOf H sid records = .error f
    | some l' => ∃ root, foldOf H sid records = .ok root ∧ Holds H root l' ∧ l'.Wf := by
  obtain ⟨root, hro⟩ := newTermStoreSized_exists [] hs 0 0 0
  obtain ⟨hhd, -, -⟩ := newTermStoreSized_holds (H := H) hro
  have hsp := replayRecords_spec records root _ hhd (Ledger.empty_wf hs) hv
  have hf : foldOf H sid records = replayRecords H root records := by
    unfold foldOf newTermStore
    rw [hro]
    rfl
  rw [hf]
  cases hall : (Ledger.empty sid).replayAll records with
  | none => rw [hall] at hsp; exact hsp
  | some l' =>
    rw [hall] at hsp
    obtain ⟨r', hok, hr, hwf⟩ := hsp
    exact ⟨r', hok, hr.holds, hwf⟩

/-! ### Advancing sequences -/

/-- Every sequence is past the one before it. -/
def Advancing : Int → List TransactionRecord → Prop
  | _, [] => True
  | previous, record :: rest =>
    previous < record.sequence.toInt ∧ Advancing record.sequence.toInt rest

/-- A ledger takes records that advance, unless one of them is past the greatest sequence. -/
theorem replayAll_advancing (rcs : List TransactionRecord) :
    ∀ (l : Ledger), Advancing (l.nextSequence - 1) rcs → ((∃ l', l.replayAll rcs = some l') ↔
        ∀ rc ∈ rcs, rc.sequence.toInt ≤ maxTransactionSequence) := by
  induction rcs with
  | nil => intro l _; exact ⟨fun _ rc hr => by simp at hr, fun _ => ⟨l, rfl⟩⟩
  | cons rc r ih =>
    intro l hadv
    obtain ⟨hlt, hre⟩ := hadv
    unfold Ledger.replayAll
    by_cases hmax : rc.sequence.toInt ≤ maxTransactionSequence
    · rw [Ledger.replay_accepted ⟨by omega, hmax⟩, Option.bind_some]
      have hn : (l.commit rc.sequence.toInt rc.operations).nextSequence - 1
          = rc.sequence.toInt := by
        unfold Ledger.commit
        rw [Ledger.append_nextSequence]
        omega
      rw [ih _ (by rw [hn]; exact hre)]
      simp [hmax]
    · rw [Ledger.replay_refused fun ha => hmax ha.2]
      constructor
      · rintro ⟨l', hl⟩
        cases hl
      · intro hall
        exact absurd (hall rc (List.mem_cons_self ..)) hmax

end

end

end Beagle.Store
