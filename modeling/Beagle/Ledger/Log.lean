/-
What a log says.

The bytes after a log's header say a list of records: the payloads of its complete
frames, each with a matching check and each decoded.  Bytes that are damaged say
nothing, and a tail that ends inside a record says nothing more.  A ledger takes
the records one after the other, as long as their sequences advance.

What a chain says.

A member of a chain says a header and some records.  A ledger takes the members one
after the other, each after the layout rules have passed it.
-/
import Beagle.Ledger.Ledger
import Beagle.Store.Boot

namespace Beagle.Store

section

open Beagle.Lib Beagle.Lib.Reader

/-! ### Taking records -/

/-- Does the ledger take the record? -/
def Ledger.accepts (l : Ledger) (record : TransactionRecord) : Prop :=
  l.nextSequence ≤ record.sequence.toInt ∧ record.sequence.toInt ≤ maxTransactionSequence

instance (l : Ledger) (record : TransactionRecord) : Decidable (l.accepts record) := by
  unfold Ledger.accepts
  infer_instance

/-- Take one record. -/
def Ledger.replay (l : Ledger) (record : TransactionRecord) : Option Ledger :=
  if l.accepts record then some (l.commit record.sequence.toInt record.operations) else none

variable {l : Ledger} {mx storedCrc msb : Nat} {payload bs : List UInt8} {fls : Nat → Bool}
  {header : HeaderFields} {rc : TransactionRecord}

theorem Ledger.replay_accepted (h : l.accepts rc) :
    l.replay rc = some (l.commit rc.sequence.toInt rc.operations) := if_pos h

theorem Ledger.replay_refused (h : ¬l.accepts rc) :
    l.replay rc = none := if_neg h

/-- Take some records, first to last. -/
def Ledger.replayAll (l : Ledger) : List TransactionRecord → Option Ledger
  | [] => some l
  | record :: rest => (l.replay record).bind fun l' => l'.replayAll rest

/-! ### Reading records -/

/-- The records some bytes say, and how many bytes they take. -/
def logRecords (maxPayload : Nat) (rest : List UInt8) : Option (List TransactionRecord × Nat) :=
  match _h : frameAt maxPayload rest with
  | .ended => some ([], 0)
  | .short => some ([], 0)
  | .oversized => none
  | .torn => some ([], 0)
  | .record payload storedCrc after =>
    if storedCrc ≠ crc32 payload then none
    else
      match decodeRecordPayload payload with
      | .error _ => none
      | .ok record =>
        (logRecords maxPayload after).map fun (records, n) =>
          (record :: records, payload.length + 8 + n)
termination_by rest.length
decreasing_by exact frameAt_after_lt (by assumption)

/-- Does the walk stop here without damage? -/
def Frame.stops : Frame → Prop
  | .ended => True
  | .short => True
  | .torn => True
  | _ => False

variable {r : List UInt8}

theorem logRecords_stops (h : (frameAt mx r).stops) :
    logRecords mx r = some ([], 0) := by
  rw [logRecords]
  split <;> rename_i hf <;> rw [hf] at h <;> first | rfl | exact absurd h id

theorem logRecords_oversized (h : frameAt mx r = .oversized) :
    logRecords mx r = none := by
  rw [logRecords]
  split <;> rename_i hf <;> rw [hf] at h <;> first | rfl | cases h

theorem logRecords_record {r a : List UInt8} (h : frameAt mx r = .record payload storedCrc a) :
    logRecords mx r = if storedCrc ≠ crc32 payload then none
        else match decodeRecordPayload payload with
          | .error _ => none
          | .ok rc =>
            (logRecords mx a).map fun (rcs, n) =>
              (rc :: rcs, payload.length + 8 + n) := by
  conv_lhs => rw [logRecords]
  split <;> rename_i hf <;> rw [hf] at h <;> cases h
  rfl

/-- What the records of a log leave of a ledger, and how many bytes they take. -/
def Ledger.readLog (l : Ledger) (maxPayload : Nat) (rest : List UInt8) : Option (Ledger × Nat) :=
  (logRecords maxPayload rest).bind fun (records, n) => (l.replayAll records).map (·, n)

variable {n : Nat} {csid : String} {rcs : List TransactionRecord}

theorem Ledger.readLog_some
    (h : logRecords mx r = some (rcs, n)) :
    l.readLog mx r = (l.replayAll rcs).map (·, n) := by
  unfold Ledger.readLog
  rw [h]
  rfl

theorem Ledger.readLog_none (h : logRecords mx r = none) :
    l.readLog mx r = none := by
  unfold Ledger.readLog
  rw [h]
  rfl

theorem Ledger.readLog_stops (h : (frameAt mx r).stops) :
    l.readLog mx r = some (l, 0) := by
  exact Ledger.readLog_some (logRecords_stops h)

theorem Ledger.readLog_oversized (h : frameAt mx r = .oversized) :
    l.readLog mx r = none := by
  exact Ledger.readLog_none (logRecords_oversized h)

/-- A log that starts with a record says what the rest of it says after that record. -/
theorem Ledger.readLog_record {r a : List UInt8} (h : frameAt mx r = .record payload storedCrc a) :
    l.readLog mx r = if storedCrc ≠ crc32 payload then none
        else match decodeRecordPayload payload with
          | .error _ => none
          | .ok rc =>
            (l.replay rc).bind fun l' =>
              (l'.readLog mx a).map fun (l'', n) =>
                (l'', payload.length + 8 + n) := by
  unfold Ledger.readLog
  rw [logRecords_record h]
  by_cases hcrc : storedCrc ≠ crc32 payload
  · rw [if_pos hcrc, if_pos hcrc]
    rfl
  · rw [if_neg hcrc, if_neg hcrc]
    cases decodeRecordPayload payload with
    | error e => rfl
    | ok rc =>
      cases logRecords mx a with
      | none =>
        show none = (l.replay rc).bind fun _ => none
        cases l.replay rc <;> rfl
      | some out =>
        show ((l.replay rc).bind fun l' => l'.replayAll out.1).map _
          = (l.replay rc).bind fun l' => Option.map _ ((l'.replayAll out.1).map _)
        cases l.replay rc with
        | none => rfl
        | some l' =>
          show (l'.replayAll out.1).map _ = Option.map _ ((l'.replayAll out.1).map _)
          rw [Option.map_map]
          rfl

/-! ### Whole logs -/

/-- The header of a log this process may boot, if it has one. -/
def bootHeader (maxSpaceBytes : Nat) (flagsSupported : Nat → Bool) (configuredSpaceId : String)
    (bytes : List UInt8) : Option HeaderFields :=
  if bytes.length < minimumHeaderBytes ∨ magicAtStart bytes = false then none
  else
    match headerFieldsAt maxSpaceBytes flagsSupported bytes with
    | .error _ => none
    | .ok header =>
      if configuredSpaceId ≠ "" ∧ configuredSpaceId ≠ header.spaceId then none else some header

/-- The ledger a log says, and how many of its bytes say it. -/
def bootLedger (maxSpaceBytes maxPayload : Nat) (configuredSpaceId : String)
    (bytes : List UInt8) : Option (Ledger × Nat) :=
  (bootHeader maxSpaceBytes (· = storeLogFlags) configuredSpaceId bytes).bind fun header =>
    ((Ledger.empty header.spaceId).readLog maxPayload (bytes.drop header.headerBytes)).map
      fun (l, n) => (l, header.headerBytes + n)

/-- Where the header of a log ends, as its SpaceId length has it. -/
def headerEnd (bytes : List UInt8) : Nat :=
  minimumHeaderBytes + u32LeAt bytes (storeLogMagic.length + 4)

/-- What a header that is read is. -/
structure HeaderRead (maxSpaceBytes : Nat) (flagsSupported : Nat → Bool) (bytes : List UInt8)
    (header : HeaderFields) : Prop where
  version : u16LeAt bytes storeLogMagic.length = storeLogVersion
  supported : flagsSupported header.flags = true
  space : 0 < u32LeAt bytes (storeLogMagic.length + 4) ∧
    u32LeAt bytes (storeLogMagic.length + 4) ≤ maxSpaceBytes
  fits : headerEnd bytes ≤ bytes.length
  text : Utf8.decode (bytesAt bytes minimumHeaderBytes (u32LeAt bytes (storeLogMagic.length + 4)))
    = some header.spaceId
  nonempty : header.spaceId ≠ ""
  flags : header.flags = u16LeAt bytes (storeLogMagic.length + 2)
  headerBytes : header.headerBytes = headerEnd bytes

theorem headerFieldsAt_iff : headerFieldsAt msb fls bs = .ok header ↔
      HeaderRead msb fls bs header := by
  unfold headerFieldsAt
  dsimp only
  constructor
  · intro h
    split at h
    · cases h
    rename_i hver
    split at h
    · cases h
    rename_i hs
    split at h
    · cases h
    rename_i hf
    split at h
    · cases h
    rename_i sid ht
    split at h
    · cases h
    rename_i hne
    cases h
    rw [not_or, Decidable.not_not, Bool.not_eq_true', Bool.not_eq_false] at hver
    exact ⟨hver.1, hver.2, by omega, Nat.not_lt.mp hf, ht, hne, rfl, rfl⟩
  · intro h
    have hf := h.fits
    unfold headerEnd at hf
    rw [if_neg (by rw [← h.flags]; simp [h.version, h.supported]),
      if_neg (by have := h.space; omega), if_neg (by omega), h.text]
    dsimp only
    rw [if_neg h.nonempty, ← h.flags]
    obtain ⟨sid, fs, heb⟩ := header
    rw [show heb = headerEnd bs from h.headerBytes]
    rfl

theorem headerFieldsAt_space (h : headerFieldsAt msb fls bs = .ok header) : header.spaceId ≠ "" :=
  (headerFieldsAt_iff.mp h).nonempty

theorem bootHeader_iff : bootHeader msb fls csid bs = some header ↔
      minimumHeaderBytes ≤ bs.length ∧ magicAtStart bs = true ∧ HeaderRead msb fls bs header ∧
        (csid = "" ∨ csid = header.spaceId) := by
  unfold bootHeader
  rw [← headerFieldsAt_iff]
  by_cases hst : bs.length < minimumHeaderBytes ∨ magicAtStart bs = false
  · rw [if_pos hst]
    refine ⟨nofun, ?_⟩
    intro ⟨hlen, hmagic, _⟩
    rw [hmagic] at hst
    rcases hst with hsh | hfalse
    · omega
    · cases hfalse
  · rw [if_neg hst]
    rw [not_or, Nat.not_lt, Bool.not_eq_false] at hst
    cases headerFieldsAt msb fls bs with
    | error m => exact ⟨nofun, fun h => nomatch h.2.2.1⟩
    | ok fs =>
      dsimp only
      by_cases hs : csid ≠ "" ∧ csid ≠ fs.spaceId
      · rw [if_pos hs]
        refine ⟨nofun, ?_⟩
        intro ⟨_, _, hok, hconf⟩
        cases hok
        exact absurd hconf (not_or.mpr hs)
      · rw [if_neg hs]
        rw [ne_eq, ne_eq, ← not_or, Decidable.not_not] at hs
        constructor
        · intro h
          cases h
          exact ⟨hst.1, hst.2, rfl, hs⟩
        · intro ⟨_, _, hok, _⟩
          cases hok
          rfl

/-- A log says a ledger when its header is one to boot and the ledger takes its records. -/
theorem bootLedger_iff : bootLedger msb mx csid bs = some (l, n) ↔ ∃ header rcs taken,
        bootHeader msb (· = storeLogFlags) csid bs = some header ∧
        logRecords mx (bs.drop (headerEnd bs)) = some (rcs, taken) ∧
        (Ledger.empty header.spaceId).replayAll rcs = some l ∧ n = headerEnd bs + taken := by
  unfold bootLedger
  constructor
  · intro h
    obtain ⟨header, hhdr, hres⟩ := Option.bind_eq_some_iff.mp h
    obtain ⟨-, -, hr, -⟩ := bootHeader_iff.mp hhdr
    rw [hr.headerBytes] at hres
    obtain ⟨out, hout, heq⟩ := Option.map_eq_some_iff.mp hres
    obtain ⟨⟨rcs, taken⟩, hre, hall⟩ := Option.bind_eq_some_iff.mp hout
    obtain ⟨l', hl', hp⟩ := Option.map_eq_some_iff.mp hall
    cases hp
    cases heq
    exact ⟨header, rcs, taken, hhdr, hre, hl', rfl⟩
  · intro ⟨header, rcs, taken, hhdr, hre, hall, hn⟩
    obtain ⟨-, -, hr, -⟩ := bootHeader_iff.mp hhdr
    rw [hhdr, Option.bind_some, hr.headerBytes, Ledger.readLog_some hre, hall, hn]
    rfl

/-! ### How many bytes the records take -/

theorem frameAt_lengths {r a : List UInt8} (h : frameAt mx r = .record payload storedCrc a) :
    payload.length + 8 + a.length = r.length ∧ payload.length ≤ mx := by
  unfold frameAt at h
  split at h
  · cases h
  · split at h
    · cases h
    · dsimp only at h
      split at h
      · cases h
      · split at h
        · cases h
        · cases h
          unfold bytesAt
          rw [List.length_take, List.length_drop, List.length_drop]
          omega

theorem frameAt_ended {rest : List UInt8} : frameAt mx rest = .ended ↔ rest = [] := by
  constructor
  · intro h
    unfold frameAt at h
    split at h
    · rename_i hl
      exact List.length_eq_zero_iff.mp hl
    · split at h
      · cases h
      · dsimp only at h
        split at h
        · cases h
        · split at h <;> cases h
  · rintro rfl
    rfl

/-- Induction over the frames of a log: a log stops, or begins with a length past the bound, or
    begins with a record and goes on. -/
theorem log_induction (mx : Nat) {P : List UInt8 → Prop}
    (stops : ∀ rest, (frameAt mx rest).stops → P rest)
    (oversized : ∀ rest, frameAt mx rest = .oversized → P rest)
    (record : ∀ rest payload storedCrc after,
      frameAt mx rest = .record payload storedCrc after → P after → P rest) :
    ∀ rest, P rest := by
  have hbelow : ∀ (k : Nat) (rest : List UInt8), rest.length < k → P rest := by
    intro k
    induction k with
    | zero => intro rest hk; exact absurd hk (Nat.not_lt_zero _)
    | succ k ih =>
      intro rest hk
      cases hf : frameAt mx rest with
      | ended | short | torn => exact stops rest (by rw [hf]; trivial)
      | oversized => exact oversized rest hf
      | record payload storedCrc after =>
        have hlt := frameAt_after_lt hf
        exact record rest payload storedCrc after hf (ih after (by omega))
  intro rest
  exact hbelow (rest.length + 1) rest (Nat.lt_succ_self _)

/-! ### Decoded records are valid -/

theorem decodeOperations_valid (n ordinal : Nat) {input out : Input UInt8 (Decoder Unit)}
    {operations : List CommitOperation}
    (h : (decodeOperations n ordinal : Decode Unit (List CommitOperation)) input
      = .ok (operations, out)) :
    operations.length = n ∧
      ∀ operation ∈ operations, operation.action = .assert ∨ operation.action = .retract := by
  induction n generalizing ordinal input operations out with
  | zero =>
    cases h
    exact ⟨rfl, by simp⟩
  | succ n ih =>
    rw [decodeOperations] at h
    obtain ⟨actual, i1, -, h⟩ := bind_ok.mp h
    obtain ⟨action, i2, -, h⟩ := bind_ok.mp h
    obtain ⟨triple, i3, -, h⟩ := bind_ok.mp h
    have hcons : ∀ (act : Action), (act = .assert ∨ act = .retract) →
        (decodeOperations n (ordinal + 1) >>= fun rest => pure (⟨act, triple⟩ :: rest) :
          Decode Unit (List CommitOperation)) i3 = .ok (operations, out) →
        operations.length = n + 1 ∧
          ∀ operation ∈ operations, operation.action = .assert ∨ operation.action = .retract := by
      intro act hact h
      obtain ⟨rest, i4, hrest, h⟩ := bind_ok.mp h
      cases h
      obtain ⟨hlen, hall⟩ := ih (ordinal + 1) hrest
      refine ⟨by rw [List.length_cons, hlen], ?_⟩
      intro operation hmem
      rcases List.mem_cons.mp hmem with rfl | hmem
      · exact hact
      · exact hall operation hmem
    split at h
    · cases h
    · split at h
      · exact hcons .assert (Or.inl rfl) h
      · split at h
        · exact hcons .retract (Or.inr rfl) h
        · cases h

/-- **A payload that decodes decodes to a valid record.** -/
theorem decodeRecordPayload_valid {record : TransactionRecord}
    (h : decodeRecordPayload payload = .ok record) : validTransactionRecord record = true := by
  unfold decodeRecordPayload at h
  split at h
  · cases h
  · split at h
    · cases h
    · rename_i record' out hr
      split at h
      · cases h
      · cases h
        obtain ⟨⟨sequence, operationCount⟩, i1, -, hr⟩ := bind_ok.mp hr
        dsimp only at hr
        split at hr
        · cases hr
        · rename_i hseq
          split at hr
          · cases hr
          · rename_i hcnt
            obtain ⟨operations, i2, hops, hr⟩ := bind_ok.mp hr
            cases hr
            obtain ⟨hlen, hall⟩ := decodeOperations_valid _ _ hops
            unfold validTransactionRecord
            rw [Bool.and_eq_true, decide_eq_true_eq, validOperations_iff]
            refine ⟨Int.not_lt.mp hseq, ?_, hall⟩
            intro hnil
            have hnil : operations = [] := hnil
            rw [hnil] at hlen
            exact hcnt (Or.inl hlen.symm)

theorem Ledger.Wf.replay {l' : Ledger} (h : l.Wf)
    (hv : validTransactionRecord rc = true) (hr : l.replay rc = some l') : l'.Wf := by
  by_cases ha : l.accepts rc
  · rw [Ledger.replay_accepted ha] at hr
    cases hr
    unfold validTransactionRecord at hv
    rw [Bool.and_eq_true] at hv
    exact h.commit hv.2 ha.1
  · rw [Ledger.replay_refused ha] at hr
    cases hr

theorem Ledger.Wf.replayAll :
    ∀ {l l' : Ledger}, l.Wf → (∀ rc ∈ rcs, validTransactionRecord rc = true) →
      l.replayAll rcs = some l' → l'.Wf := by
  induction rcs with
  | nil =>
    intro l l' h _ hall
    cases hall
    exact h
  | cons rc rs ih =>
    intro l l' h hv hall
    obtain ⟨m, hrec, hre⟩ := Option.bind_eq_some_iff.mp hall
    exact ih (h.replay (hv rc (List.mem_cons_self ..)) hrec)
      (fun r hr => hv r (List.mem_cons_of_mem _ hr)) hre

theorem Ledger.replayAll_append (l : Ledger) (rcs more : List TransactionRecord) :
    l.replayAll (rcs ++ more) = (l.replayAll rcs).bind fun l' => l'.replayAll more := by
  induction rcs generalizing l with
  | nil => rfl
  | cons rc r ih =>
    show (l.replay rc).bind (fun l' => l'.replayAll (r ++ more)) = _
    simp only [ih, Ledger.replayAll, Option.bind_assoc]

end

/-! ### Members -/

/-- The first sequence of some records, or a default. -/
def startOf (default : Int) : List TransactionRecord → Int
  | [] => default
  | record :: _ => record.sequence.toInt

/-- The last sequence of some records, or a default. -/
def endOf (default : Int) : List TransactionRecord → Int
  | [] => default
  | record :: rest => endOf record.sequence.toInt rest

/-- What a member says: a header, some records, and how many bytes the records take. -/
structure MemberSays where
  header : HeaderFields
  records : List TransactionRecord
  taken : Nat
deriving DecidableEq, Repr

def memberSays (bytes : List UInt8) : Option MemberSays :=
  match decodeStoreLogHeader bytes with
  | .error _ => none
  | .ok header =>
    (logRecords storeLogStreamMaxPayloadBytes (bytes.drop header.headerBytes)).map
      fun (records, taken) => ⟨header, records, taken⟩

variable {bs : List UInt8}

theorem decodeStoreLogHeader_iff {header : HeaderFields} : decodeStoreLogHeader bs = .ok header ↔
      minimumHeaderBytes ≤ bs.length ∧ magicAtStart bs = true ∧
        HeaderRead storeLogStreamMaxSpaceBytes
          (fun fs => fs = storeLogFlags ∨ fs = storeLogContinuationFlag) bs header := by
  unfold decodeStoreLogHeader
  rw [← headerFieldsAt_iff]
  by_cases hlen : bs.length < minimumHeaderBytes
  · rw [if_pos hlen]
    exact ⟨nofun, fun h => absurd h.1 (Nat.not_le.mpr hlen)⟩
  rw [if_neg hlen]
  cases hm : magicAtStart bs with
  | false => exact ⟨nofun, fun h => nomatch h.2.1⟩
  | true => exact ⟨fun h => ⟨Nat.not_lt.mp hlen, rfl, h⟩, fun h => h.2.2⟩

namespace MemberSays

variable (said : MemberSays)

/-- How many of the member's bytes are read. -/
def valid : Nat := said.header.headerBytes + said.taken

def start : Int := startOf 0 said.records

def stop : Int := endOf 0 said.records

def continuation : Bool := said.header.flags = storeLogContinuationFlag

/-- The sequence after the member, when one is expected before it. -/
def next (expectedNext : Int) : Int := if 0 < said.stop then said.stop + 1 else expectedNext

/-- What the layout rules look at in a tail. -/
def asTail (sealedCount : Nat) (spaceId : String) (expectedNext : Int) : TailMember :=
  { sealedCount
    expectedSpace := spaceId
    actualSpace := said.header.spaceId
    actualStart := said.start
    continuation := said.continuation
    expectedNext }

/-- What they look at in a sealed segment. -/
def asSealed (index : Nat) (spaceId : String) (expectedNext : Int) (piece : ChainPiece) :
    SealedMember :=
  { index
    expectedSpace := spaceId
    actualSpace := said.header.spaceId
    recordedStart := piece.startSequence
    actualStart := said.start
    recordedEnd := piece.endSequence
    actualEnd := said.stop
    recordedBytes := piece.byteCount
    actualBytes := piece.bytes.length
    continuation := said.continuation
    torn := said.valid < piece.bytes.length
    expectedNext }

end MemberSays

/-! ### Chains -/

/-- Take the tail. -/
def Ledger.foldTail (l : Ledger) (sealedCount : Nat) (expectedNext : Int) (bytes : List UInt8) :
    Option (Ledger × Nat) :=
  (memberSays bytes).bind fun said =>
    (l.replayAll said.records).bind fun l' =>
      if tailMemberFault (said.asTail sealedCount l.spaceId expectedNext) = none then
        some (l', said.valid)
      else none

/-- Take the sealed segments from an index on, and then the tail. -/
def Ledger.foldMembers (tail : List UInt8) :
    Nat → Ledger → Int → List ChainPiece → Option (Ledger × Nat)
  | index, l, expectedNext, [] => l.foldTail index expectedNext tail
  | index, l, expectedNext, piece :: rest =>
    (memberSays piece.bytes).bind fun said =>
      (l.replayAll said.records).bind fun l' =>
        if sealedMemberFault (said.asSealed index l.spaceId expectedNext piece) = none then
          Ledger.foldMembers tail (index + 1) l' (said.next expectedNext) rest
        else none

/-- The ledger a chain says, and how many bytes of its tail say it. -/
def chainLedger (configuredSpaceId : String) (segments : List ChainPiece) (tail : List UInt8) :
    Option (Ledger × Nat) :=
  match decodeStoreLogHeader ((segments.map ChainPiece.bytes ++ [tail]).headD tail) with
  | .error _ => none
  | .ok header =>
    if configuredSpaceId ≠ "" ∧ configuredSpaceId ≠ header.spaceId then none
    else (Ledger.empty header.spaceId).foldMembers tail 0 1 segments

/-! ### When a member is taken -/

theorem memberSays_iff {said : MemberSays} :
    memberSays bs = some said ↔ decodeStoreLogHeader bs = .ok said.header ∧
      logRecords storeLogStreamMaxPayloadBytes (bs.drop said.header.headerBytes)
        = some (said.records, said.taken) := by
  unfold memberSays
  cases decodeStoreLogHeader bs with
  | error m => exact ⟨nofun, fun h => nomatch h.1⟩
  | ok header =>
    constructor
    · intro h
      obtain ⟨out, hout, heq⟩ := Option.map_eq_some_iff.mp h
      cases heq
      exact ⟨rfl, hout⟩
    · intro ⟨hhdr, hrecs⟩
      obtain ⟨said, rcs, tk⟩ := said
      cases hhdr
      exact Option.map_eq_some_iff.mpr ⟨_, hrecs, rfl⟩

variable {l l' : Ledger} {expectedNext : Int} {n : Nat}

theorem Ledger.foldTail_iff {sc : Nat} : l.foldTail sc expectedNext bs = some (l', n) ↔
      ∃ said, memberSays bs = some said ∧ l.replayAll said.records = some l' ∧
        tailMemberFault (said.asTail sc l.spaceId expectedNext) = none ∧
        n = said.valid := by
  unfold Ledger.foldTail
  constructor
  · intro h
    obtain ⟨said, hs, hr⟩ := Option.bind_eq_some_iff.mp h
    obtain ⟨m, hall, hr⟩ := Option.bind_eq_some_iff.mp hr
    split at hr
    · rename_i hf
      cases hr
      exact ⟨said, hs, hall, hf, rfl⟩
    · cases hr
  · intro ⟨said, hs, hall, hf, hn⟩
    rw [hs, Option.bind_some, hall, Option.bind_some, if_pos hf, hn]

/-- A sealed segment is taken when the rules pass it, and then the rest of the chain. -/
theorem Ledger.foldMembers_cons {i : Nat} {t : List UInt8} {p : ChainPiece}
    {r : List ChainPiece} :
    Ledger.foldMembers t i l expectedNext (p :: r) = some (l', n) ↔
      ∃ said m, memberSays p.bytes = some said ∧ l.replayAll said.records = some m ∧
        sealedMemberFault (said.asSealed i l.spaceId expectedNext p) = none ∧
        Ledger.foldMembers t (i + 1) m (said.next expectedNext) r = some (l', n) := by
  rw [Ledger.foldMembers]
  constructor
  · intro h
    obtain ⟨said, hs, hr⟩ := Option.bind_eq_some_iff.mp h
    obtain ⟨m, hall, hr⟩ := Option.bind_eq_some_iff.mp hr
    split at hr
    · rename_i hf
      exact ⟨said, m, hs, hall, hf, hr⟩
    · cases hr
  · intro ⟨said, m, hs, hall, hf, hr⟩
    rw [hs, Option.bind_some, hall, Option.bind_some, if_pos hf, hr]

/-! ### The sequences of records a ledger takes -/

theorem Ledger.replay_spaceId {rc : TransactionRecord} (h : l.replay rc = some l') :
    l'.spaceId = l.spaceId := by
  unfold Ledger.replay at h
  split at h
  · cases h
    rfl
  · cases h

theorem Ledger.replayAll_spaceId {rcs : List TransactionRecord} :
    ∀ {l l' : Ledger}, l.replayAll rcs = some l' → l'.spaceId = l.spaceId := by
  induction rcs with
  | nil =>
    intro l l' h
    cases h
    rfl
  | cons rc r ih =>
    intro l l' h
    obtain ⟨m, hrec, hr⟩ := Option.bind_eq_some_iff.mp h
    exact (ih hr).trans (Ledger.replay_spaceId hrec)

theorem Ledger.replay_nextSequence {record : TransactionRecord} (h : l.replay record = some l') :
    l'.nextSequence = record.sequence.toInt + 1 ∧ l.accepts record := by
  unfold Ledger.replay at h
  split at h
  · rename_i hacc
    cases h
    exact ⟨Ledger.append_nextSequence _ _ _, hacc⟩
  · cases h

/-- The last sequence a ledger took is in range, and the next one is past it. -/
theorem Ledger.replayAll_endOf {rcs : List TransactionRecord} :
    ∀ {l l' : Ledger} {default : Int}, default + 1 = l.nextSequence →
      l.replayAll rcs = some l' → endOf default rcs + 1 = l'.nextSequence ∧
          (rcs ≠ [] → endOf default rcs ≤ maxTransactionSequence) := by
  induction rcs with
  | nil =>
    intro l l' default hn h
    cases h
    exact ⟨hn, fun hne => absurd rfl hne⟩
  | cons rc r ih =>
    intro l l' default hn h
    obtain ⟨m, hrec, hr⟩ := Option.bind_eq_some_iff.mp h
    obtain ⟨hmid, hacc⟩ := Ledger.replay_nextSequence hrec
    obtain ⟨hend, hmax⟩ := ih hmid.symm hr
    refine ⟨hend, fun _ => ?_⟩
    cases r with
    | nil => exact hacc.2
    | cons s r => exact hmax (List.cons_ne_nil _ _)

/-- Records a ledger takes start at a sequence from one on. -/
theorem Ledger.Wf.startOf_pos (hwf : l.Wf) {rc : TransactionRecord}
    {r : List TransactionRecord} (h : l.replayAll (rc :: r) = some l') :
    0 < rc.sequence.toInt := by
  obtain ⟨m, hrec, -⟩ := Option.bind_eq_some_iff.mp h
  have hacc := (Ledger.replay_nextSequence hrec).2
  have := hwf.nextSequence_pos
  exact Int.lt_of_lt_of_le (by omega) hacc.1

/-- The start rule: the first record, if there is one, has the expected sequence. -/
theorem MemberSays.start_iff {said : MemberSays} (hwf : l.Wf)
    (h : l.replayAll said.records = some l') :
    (0 < said.start → expectedNext = said.start) ↔
      ∀ rc ∈ said.records.head?, rc.sequence.toInt = expectedNext := by
  unfold MemberSays.start
  cases hr : said.records with
  | nil => simp [startOf]
  | cons rc r =>
    rw [hr] at h
    have hpos := hwf.startOf_pos h
    constructor
    · intro hst first hfst
      cases hfst
      exact (hst hpos).symm
    · intro hall _
      exact (hall rc rfl).symm

theorem endOf_eq {records : List TransactionRecord} (h : records ≠ []) (default d' : Int) :
    endOf default records = endOf d' records := by
  cases records with
  | nil => exact absurd rfl h
  | cons rc r => rfl

/-- The sequence after a member is a machine integer. -/
theorem MemberSays.nextExpected_eq {said : MemberSays} (h : l.replayAll said.records = some l')
    (expectedNext : Int) : nextExpected said.stop expectedNext = .ok (said.next expectedNext) := by
  unfold nextExpected MemberSays.next
  by_cases hpos : 0 < said.stop
  · have hne : said.records ≠ [] := by
      intro hnil
      unfold MemberSays.stop at hpos
      rw [hnil] at hpos
      exact absurd hpos (Int.lt_irrefl 0)
    have hmax := (Ledger.replayAll_endOf (Int.sub_add_cancel l.nextSequence 1) h).2 hne
    rw [endOf_eq hne _ 0] at hmax
    have hs : said.stop ≤ maxTransactionSequence := hmax
    unfold maxTransactionSequence at hs
    rw [if_pos hpos, if_pos hpos]
    unfold incInt
    rw [if_neg (by omega)]
  · rw [if_neg hpos, if_neg hpos]

end Beagle.Store
