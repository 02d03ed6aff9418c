/-
Chains cut from one log.

A log whose records are cut into sealed segments and a tail, each behind a header of
its own, boots as a chain to what it boots to as one file.  And the layout rules
refuse what is not such a chain: a span that is not the recorded one, a header of
another SpaceId or with the wrong flag, segments whose sequences do not continue.
-/
import Beagle.Proofs.Routes

namespace Beagle.Store

open Beagle.Lib List

/-! ### Cutting -/

/-- The header flags of a member: only the base does not continue another. -/
def flagsAt (index : Nat) : Nat := if index = 0 then storeLogFlags else storeLogContinuationFlag

/-- A member with its true span. -/
def memberWith (flags : Nat) (spaceId : String) (records : List TransactionRecord)
    (torn : List UInt8) : ChainPiece :=
  { bytes := headerOf flags spaceId ++ (bodyOf records ++ torn)
    startSequence := startOf 0 records
    endSequence := endOf 0 records
    byteCount := (headerOf flags spaceId ++ (bodyOf records ++ torn)).length }

/-- The sealed segments of the groups of records from an index on. -/
def segmentsFrom (spaceId : String) : Nat → List (List TransactionRecord) → List ChainPiece
  | _, [] => []
  | index, records :: rest =>
    memberWith (flagsAt index) spaceId records [] :: segmentsFrom spaceId (index + 1) rest

/-- The sequences count up from the expected one. -/
def Contiguous : Int → List TransactionRecord → Prop
  | _, [] => True
  | expectedNext, record :: rest =>
    record.sequence.toInt = expectedNext ∧ Contiguous (expectedNext + 1) rest

theorem flagsAt_cases (ix : Nat) :
    flagsAt ix = storeLogFlags ∨ flagsAt ix = storeLogContinuationFlag := by
  unfold flagsAt
  by_cases h : ix = 0
  · exact Or.inl (if_pos h)
  · exact Or.inr (if_neg h)

theorem flagsAt_lt (ix : Nat) : flagsAt ix < 65536 := by
  rcases flagsAt_cases ix with h | h <;> rw [h] <;> decide

theorem flagsAt_continuation (index : Nat) :
    flagsAt index = storeLogContinuationFlag ↔ 0 < index := by
  unfold flagsAt
  by_cases h : index = 0
  · rw [if_pos h, h]
    decide
  · rw [if_neg h]
    exact ⟨fun _ => Nat.pos_of_ne_zero h, fun _ => rfl⟩

theorem segmentsFrom_getElem? (spaceId : String) (groups : List (List TransactionRecord)) :
    ∀ ix i : Nat, (segmentsFrom spaceId ix groups)[i]?
      = groups[i]?.map fun records => memberWith (flagsAt (ix + i)) spaceId records [] := by
  induction groups with
  | nil => intro ix i; rfl
  | cons records r ih =>
    intro ix i
    cases i with
    | zero => rfl
    | succ i =>
      show (segmentsFrom spaceId (ix + 1) r)[i]? = _
      rw [ih, Nat.add_right_comm]
      rfl

theorem length_segmentsFrom (spaceId : String) (groups : List (List TransactionRecord)) :
    ∀ ix, (segmentsFrom spaceId ix groups).length = groups.length := by
  induction groups with
  | nil => intro ix; rfl
  | cons records r ih => intro ix; exact congrArg Nat.succ (ih _)

/-! ### What a member that was cut says -/

section

variable {flags : Nat} {spaceId : String} {records : List TransactionRecord} {torn : List UInt8}

theorem memberSays_with (hs : spaceId ≠ "")
    (hlen : (Utf8.encode spaceId).length ≤ storeLogStreamMaxSpaceBytes)
    (hf : flags = storeLogFlags ∨ flags = storeLogContinuationFlag)
    (hwr : ∀ rc ∈ records, Writable rc)
    (ht : (frameAt storeLogStreamMaxPayloadBytes torn).stops) :
    memberSays (memberWith flags spaceId records torn).bytes
      = some ⟨⟨spaceId, flags, (headerOf flags spaceId).length⟩, records,
          (bodyOf records).length⟩ := by
  have hfi : (Utf8.encode spaceId).length < 4294967296 :=
    Nat.lt_of_le_of_lt hlen (by decide)
  have hlt : flags < 65536 := by
    rcases hf with h | h <;> rw [h] <;> decide
  refine memberSays_iff.mpr ⟨decodeStoreLogHeader_iff.mpr ⟨?_, magicAtStart_headerOf _ _ _, ?_⟩, ?_⟩
  · show minimumHeaderBytes ≤ (headerOf flags spaceId ++ _).length
    rw [length_append, length_headerOf]
    omega
  · rw [← headerFieldsAt_iff, length_headerOf]
    exact (headerFieldsAt_headerOf hs hfi hlt (decide_eq_true hf) _).trans
      (if_neg (Nat.not_lt.mpr hlen))
  · show logRecords _ ((headerOf flags spaceId ++ _).drop (headerOf flags spaceId).length) = _
    rw [drop_left]
    exact logRecords_bodyOf hwr ht

/-- Whatever a member says, its header is the one that was put on it, and within the limits. -/
theorem memberSays_header_eq (hf : (Utf8.encode spaceId).length < 4294967296)
    (hfl : flags < 65536) {s : MemberSays} {r : List UInt8}
    (h : memberSays (headerOf flags spaceId ++ r) = some s) :
    s.header = ⟨spaceId, flags, (headerOf flags spaceId).length⟩ ∧
      (flags = storeLogFlags ∨ flags = storeLogContinuationFlag) ∧
        (Utf8.encode spaceId).length ≤ storeLogStreamMaxSpaceBytes := by
  obtain ⟨hhdr, -⟩ := memberSays_iff.mp h
  obtain ⟨-, -, hr⟩ := decodeStoreLogHeader_iff.mp hhdr
  have heq := hr.of_headerOf hf hfl
  have hsu := of_decide_eq_true hr.supported
  rw [heq] at hsu
  refine ⟨heq, hsu, ?_⟩
  have hs := hr.space.2
  rw [spaceLength_headerOf r hf] at hs
  exact hs

end

/-! ### Contiguous records -/

variable {expectedNext : Int}

theorem contiguous_append {records more : List TransactionRecord} :
    Contiguous expectedNext (records ++ more) ↔
      Contiguous expectedNext records ∧ Contiguous (expectedNext + records.length) more := by
  induction records generalizing expectedNext with
  | nil => simp [Contiguous]
  | cons rc r ih =>
    show rc.sequence.toInt = expectedNext ∧ Contiguous (expectedNext + 1) (r ++ more) ↔ _
    rw [ih, length_cons, Nat.cast_add, Nat.cast_one, Int.add_assoc, Int.add_comm 1]
    exact and_assoc.symm

theorem Contiguous.head {records : List TransactionRecord} (h : Contiguous expectedNext records) :
    ∀ rc ∈ records.head?, rc.sequence.toInt = expectedNext := by
  cases records with
  | nil => intro rc hr; cases hr
  | cons first r =>
    intro rc hr
    cases hr
    exact h.1

theorem Contiguous.endOf {records : List TransactionRecord} {expectedNext : Int}
    (h : Contiguous expectedNext records) :
    endOf (expectedNext - 1) records = expectedNext - 1 + records.length := by
  induction records generalizing expectedNext with
  | nil => exact (Int.add_zero _).symm
  | cons rc r ih =>
    obtain ⟨hfst, hr⟩ := h
    have hl := ih hr
    rw [Int.add_sub_cancel] at hl
    show Beagle.Store.endOf rc.sequence.toInt r = _
    rw [hfst, hl, length_cons, Nat.cast_add, Nat.cast_one]
    omega

/-- After contiguous records the next sequence is expected. -/
theorem MemberSays.next_contiguous {s : MemberSays} (hpos : 0 < expectedNext)
    (h : Contiguous expectedNext s.records) :
    s.next expectedNext = expectedNext + s.records.length := by
  unfold MemberSays.next MemberSays.stop
  by_cases hnil : s.records = []
  · rw [hnil]
    exact (Int.add_zero _).symm
  · have hlen : 0 < s.records.length := length_pos_iff.mpr hnil
    rw [endOf_eq hnil 0 (expectedNext - 1), h.endOf, if_pos (by omega)]
    omega

/-! ### A chain that was cut is taken -/

section

variable {spaceId : String} {tailRecords : List TransactionRecord} {torn : List UInt8}

/-- **The members of a cut log say together what the log says.** -/
theorem foldMembers_cut (hs : spaceId ≠ "")
    (hlen : (Utf8.encode spaceId).length ≤ storeLogStreamMaxSpaceBytes)
    (ht : (frameAt storeLogStreamMaxPayloadBytes torn).stops)
    (groups : List (List TransactionRecord)) :
    ∀ (ix : Nat) (l l' : Ledger) (expectedNext : Int), l.Wf → l.spaceId = spaceId →
      0 < expectedNext → (∀ record ∈ groups.flatten ++ tailRecords, Writable record) →
        Contiguous expectedNext (groups.flatten ++ tailRecords) →
          l.replayAll (groups.flatten ++ tailRecords) = some l' → ∃ n, Ledger.foldMembers
              (memberWith (flagsAt (ix + groups.length)) spaceId tailRecords torn).bytes ix l
              expectedNext (segmentsFrom spaceId ix groups) = some (l', n) := by
  induction groups with
  | nil =>
    intro ix l l' expectedNext hwf hsp _ hwr hc hall
    refine ⟨_, Ledger.foldTail_iff.mpr ⟨_, memberSays_with hs hlen (flagsAt_cases ix)
      hwr ht, hall, tailMemberFault_none.mpr ⟨hsp, ?_, ?_⟩, rfl⟩⟩
    · exact decide_eq_true_iff.trans (flagsAt_continuation ix)
    · exact (MemberSays.start_iff hwf hall).mpr hc.head
  | cons records r ih =>
    intro ix l l' expectedNext hwf hsp hpos hwr hc hall
    rw [flatten_cons, append_assoc] at hwr hc hall
    obtain ⟨hfst, hos⟩ := contiguous_append.mp hc
    rw [Ledger.replayAll_append] at hall
    obtain ⟨middle, hmid, hall⟩ := Option.bind_eq_some_iff.mp hall
    have hwrf : ∀ record ∈ records, Writable record := fun record hr =>
      hwr record (mem_append_left _ hr)
    have hv : ∀ record ∈ records, validTransactionRecord record = true := fun record hr =>
      appended_valid (hwrf record hr).1 (Nat.le_trans (hwrf record hr).2 (by decide))
    let said : MemberSays := ⟨⟨spaceId, flagsAt ix, (headerOf (flagsAt ix) spaceId).length⟩,
      records, (bodyOf records).length⟩
    have hsa : memberSays (memberWith (flagsAt ix) spaceId records []).bytes = some said :=
      memberSays_with hs hlen (flagsAt_cases ix) hwrf (show (frameAt _ []).stops from trivial)
    have hn : said.next expectedNext = expectedNext + records.length :=
      MemberSays.next_contiguous hpos hfst
    obtain ⟨n, hre⟩ := ih (ix + 1) middle l' (expectedNext + records.length)
      (hwf.replayAll hv hmid) ((Ledger.replayAll_spaceId hmid).trans hsp) (by omega)
      (fun record hr => hwr record (mem_append_right _ hr)) hos hall
    rw [Nat.add_right_comm] at hre
    refine ⟨n, Ledger.foldMembers_cons.mpr ⟨said, middle, hsa, hmid,
      sealedMemberFault_none.mpr ⟨hsp, rfl, rfl, rfl, ?_, ?_, ?_⟩, ?_⟩⟩
    · refine decide_eq_false (Nat.not_lt.mpr (Nat.le_of_eq ?_))
      show (headerOf _ _ ++ (bodyOf records ++ [])).length = _
      rw [append_nil, length_append]
      rfl
    · exact decide_eq_true_iff.trans (flagsAt_continuation ix)
    · have hall : l.replayAll said.records = some middle := hmid
      exact (MemberSays.start_iff hwf hall).mpr hfst.head
    · rw [hn]
      exact hre

/-- A cut log says nothing but what the log says. -/
theorem foldMembers_replayAll (hs : spaceId ≠ "")
    (hlen : (Utf8.encode spaceId).length ≤ storeLogStreamMaxSpaceBytes)
    (ht : (frameAt storeLogStreamMaxPayloadBytes torn).stops)
    (groups : List (List TransactionRecord)) :
    ∀ (ix : Nat) (l l' : Ledger) (expectedNext : Int) (n : Nat),
      (∀ rc ∈ groups.flatten ++ tailRecords, Writable rc) → Ledger.foldMembers
            (memberWith (flagsAt (ix + groups.length)) spaceId tailRecords torn).bytes ix l
            expectedNext (segmentsFrom spaceId ix groups) = some (l', n) →
          l.replayAll (groups.flatten ++ tailRecords) = some l' := by
  induction groups with
  | nil =>
    intro ix l l' expectedNext n hwr h
    obtain ⟨s, hsa, hall, -⟩ := Ledger.foldTail_iff.mp h
    have hcut := memberSays_with hs hlen (flagsAt_cases ix) hwr ht
    cases hcut.symm.trans hsa
    exact hall
  | cons records r ih =>
    intro ix l l' expectedNext n hwr h
    rw [flatten_cons, append_assoc] at hwr ⊢
    obtain ⟨s, m, hsa, hall, -, hre⟩ := Ledger.foldMembers_cons.mp h
    have hemp : (frameAt storeLogStreamMaxPayloadBytes []).stops := trivial
    have hcut := memberSays_with hs hlen (flagsAt_cases ix)
      (fun rc hr => hwr rc (mem_append_left _ hr)) hemp
    cases hcut.symm.trans hsa
    rw [length_cons, ← Nat.add_assoc, Nat.add_right_comm] at hre
    rw [Ledger.replayAll_append, hall]
    exact ih (ix + 1) m l' _ n (fun rc hr => hwr rc (mem_append_right _ hr)) hre

end

/-! ### What a chain that is taken must be -/

/-- The sequences a member is recorded to span. -/
def ChainPiece.span (piece : ChainPiece) : Int × Int := (piece.startSequence, piece.endSequence)

/-- Spans that continue one another from the expected sequence; an empty member spans nothing. -/
def SpansContinue : Int → List (Int × Int) → Prop
  | _, [] => True
  | expectedNext, (start, stop) :: rest =>
    (0 < start → expectedNext = start) ∧
      SpansContinue (if 0 < stop then stop + 1 else expectedNext) rest

/-- A sealed segment that is taken is as it is recorded, and headed as its place wants it. -/
structure TakenSegment (spaceId : String) (index : Nat) (piece : ChainPiece) (said : MemberSays) :
    Prop where
  isSaid : memberSays piece.bytes = some said
  space : said.header.spaceId = spaceId
  byteCount : piece.byteCount = piece.bytes.length
  start : piece.startSequence = said.start
  stop : piece.endSequence = said.stop
  continuation : said.continuation = true ↔ 0 < index

/-- What holds of a chain that is taken. -/
structure TakenChain (spaceId : String) (index : Nat) (expectedNext : Int)
    (segments : List ChainPiece) (tail : List UInt8) (said : MemberSays) : Prop where
  members : ∀ (i : Nat) (piece : ChainPiece), segments[i]? = some piece →
    ∃ said, TakenSegment spaceId (index + i) piece said
  isSaid : memberSays tail = some said
  space : said.header.spaceId = spaceId
  continuation : said.continuation = true ↔ 0 < index + segments.length
  spans : SpansContinue expectedNext (segments.map ChainPiece.span ++ [(said.start, said.stop)])

theorem foldMembers_taken {t : List UInt8} (segments : List ChainPiece) :
    ∀ (ix : Nat) (l l' : Ledger) (expectedNext : Int) (n : Nat),
      Ledger.foldMembers t ix l expectedNext segments = some (l', n) →
        ∃ said, TakenChain l.spaceId ix expectedNext segments t said := by
  induction segments with
  | nil =>
    intro ix l l' expectedNext n h
    obtain ⟨said, hsa, -, hf, -⟩ := Ledger.foldTail_iff.mp h
    obtain ⟨hs, hc, hst⟩ := tailMemberFault_none.mp hf
    exact ⟨said, fun i piece hi => (by cases hi), hsa, hs.symm, hc, hst, trivial⟩
  | cons piece r ih =>
    intro ix l l' expectedNext n h
    obtain ⟨first, m, hfst, hall, hf, hr⟩ := Ledger.foldMembers_cons.mp h
    obtain ⟨hs, hcnt, hst, hsto, -, hc, hexp⟩ :=
      sealedMemberFault_none.mp hf
    obtain ⟨said, ht⟩ := ih (ix + 1) m l' _ n hr
    rw [Ledger.replayAll_spaceId hall] at ht
    refine ⟨said, ?_, ht.isSaid, ht.space, ?_, ?_⟩
    · intro i o hi
      cases i with
      | zero =>
        cases hi
        exact ⟨first, hfst, hs.symm, hcnt, hst, hsto, hc⟩
      | succ i =>
        obtain ⟨sa, hat⟩ := ht.members i o hi
        rw [Nat.add_right_comm] at hat
        exact ⟨sa, hat⟩
    · rw [ht.continuation, length_cons]
      omega
    · have hsp := ht.spans
      have hsto : piece.endSequence = first.stop := hsto
      unfold MemberSays.next at hsp
      rw [← hsto] at hsp
      exact ⟨fun hpos => (hexp (hst ▸ hpos)).trans hst.symm, hsp⟩

theorem chainLedger_taken {configuredSpaceId : String} {segments : List ChainPiece}
    {t : List UInt8} {s : Ledger × Nat}
    (h : chainLedger configuredSpaceId segments t = some s) :
    ∃ hd tailSaid, decodeStoreLogHeader ((segments.map ChainPiece.bytes ++ [t]).headD t) = .ok hd ∧
      (configuredSpaceId = "" ∨ configuredSpaceId = hd.spaceId) ∧
      TakenChain hd.spaceId 0 1 segments t tailSaid := by
  unfold chainLedger at h
  cases hhdr : decodeStoreLogHeader ((segments.map ChainPiece.bytes ++ [t]).headD t) with
  | error m =>
    rw [hhdr] at h
    cases h
  | ok hd =>
    rw [hhdr] at h
    dsimp only at h
    split at h
    · cases h
    rename_i hc
    rw [ne_eq, ne_eq, ← not_or, Decidable.not_not] at hc
    obtain ⟨tailSaid, ht⟩ := foldMembers_taken segments 0 _ _ 1 _ h
    exact ⟨hd, tailSaid, rfl, hc, ht⟩

/-! ### Changed chains are refused -/

section

variable (H : Hashing)

def ChainFails (configuredSpaceId : String) (segments : List ChainPiece) (tail : ChainPiece) :
    Prop :=
  ∃ failure, bootStoreLogChain H configuredSpaceId segments tail = .error failure

/-- The sealed segments of a cut log. -/
def cutSegments (spaceId : String) (groups : List (List TransactionRecord)) : List ChainPiece :=
  segmentsFrom spaceId 0 groups

/-- Its tail, behind so many sealed segments. -/
def cutTail (spaceId : String) (groups : List (List TransactionRecord))
    (tailRecords : List TransactionRecord) (torn : List UInt8) : ChainPiece :=
  memberWith (flagsAt groups.length) spaceId tailRecords torn

/-- The log before it was cut. -/
def uncutLog (spaceId : String) (groups : List (List TransactionRecord))
    (tailRecords : List TransactionRecord) (torn : List UInt8) : List UInt8 :=
  headerOf storeLogFlags spaceId ++ (bodyOf (groups.flatten ++ tailRecords) ++ torn)

/-- Every change of one recorded span or byte count, of one header's SpaceId or flags, of the
    configured SpaceId, and every arrangement of segments whose sequences do not continue, fails.
    Only a sole tail may be given another SpaceId, and only where none is configured. -/
structure RefusesChanges (configuredSpaceId spaceId : String)
    (groups : List (List TransactionRecord)) (tailRecords : List TransactionRecord)
    (torn : List UInt8) : Prop where
  recorded : ∀ (i : Nat) (piece changed : ChainPiece), (cutSegments spaceId groups)[i]? = some piece →
    changed.bytes = piece.bytes → changed ≠ piece →
      ChainFails H configuredSpaceId ((cutSegments spaceId groups).set i changed)
        (cutTail spaceId groups tailRecords torn)
  segmentHeader : ∀ (i flags : Nat) (headed : String) (rest : List UInt8) (changed : ChainPiece),
    i < groups.length → changed.bytes = headerOf flags headed ++ rest → flags < 65536 →
      (Utf8.encode headed).length < 4294967296 → flags ≠ flagsAt i ∨ headed ≠ spaceId →
        ChainFails H configuredSpaceId ((cutSegments spaceId groups).set i changed)
          (cutTail spaceId groups tailRecords torn)
  tailHeader : ∀ (flags : Nat) (headed : String) (rest : List UInt8) (changed : ChainPiece),
    changed.bytes = headerOf flags headed ++ rest → flags < 65536 →
      (Utf8.encode headed).length < 4294967296 →
      flags ≠ flagsAt groups.length ∨ (headed ≠ spaceId ∧ (configuredSpaceId ≠ "" ∨ groups ≠ [])) →
        ChainFails H configuredSpaceId (cutSegments spaceId groups) changed
  configured : ∀ otherSpaceId : String, otherSpaceId ≠ "" → otherSpaceId ≠ spaceId →
    ChainFails H otherSpaceId (cutSegments spaceId groups)
      (cutTail spaceId groups tailRecords torn)
  arrangement : ∀ segments : List ChainPiece,
    ¬SpansContinue 1 (segments.map ChainPiece.span
      ++ [(cutTail spaceId groups tailRecords torn).span]) →
      ChainFails H configuredSpaceId segments (cutTail spaceId groups tailRecords torn)

variable {H} {segments : List ChainPiece} {tail : ChainPiece}

theorem chainFails_of_none {configuredSpaceId : String}
    (h : chainLedger configuredSpaceId segments tail.bytes = none) :
    ChainFails H configuredSpaceId segments tail := by
  have hs := bootStoreLogChain_spec (H := H) configuredSpaceId segments tail
  rw [h] at hs
  exact hs

variable {configuredSpaceId spaceId : String} {groups : List (List TransactionRecord)}
  {tailRecords : List TransactionRecord} {torn : List UInt8}

/-- A chain fails when taking it is absurd. -/
theorem chainFails_of_not_taken (h : ∀ hd s,
      decodeStoreLogHeader ((segments.map ChainPiece.bytes ++ [tail.bytes]).headD tail.bytes)
          = .ok hd →
        (configuredSpaceId = "" ∨ configuredSpaceId = hd.spaceId) →
          ¬TakenChain hd.spaceId 0 1 segments tail.bytes s) :
    ChainFails H configuredSpaceId segments tail := by
  refine chainFails_of_none ?_
  cases hc : chainLedger configuredSpaceId segments tail.bytes with
  | none => rfl
  | some tk =>
    obtain ⟨hd, s, hhdr, hco, ht⟩ := chainLedger_taken hc
    exact absurd ht (h hd s hhdr hco)

/-- The tail of a cut log has the SpaceId of the chain. -/
theorem TakenChain.space_eq {csi : String} {s : MemberSays}
    (hf : (Utf8.encode spaceId).length < 4294967296) (h : TakenChain csi 0 1 segments
      (cutTail spaceId groups tailRecords torn).bytes s) : csi = spaceId := by
  obtain ⟨hhdr, -, -⟩ := memberSays_header_eq hf (flagsAt_lt _) h.isSaid
  rw [← h.space, hhdr]

/-- The header of a member that is taken has the flags its place wants. -/
theorem flags_of_continuation {flags index : Nat}
    (hs : flags = storeLogFlags ∨ flags = storeLogContinuationFlag)
    (h : flags = storeLogContinuationFlag ↔ 0 < index) : flags = flagsAt index := by
  unfold flagsAt
  by_cases hidx : index = 0
  · rw [if_pos hidx]
    exact hs.resolve_right fun hc => absurd (h.mp hc) (by omega)
  · rw [if_neg hidx]
    exact h.mpr (Nat.pos_of_ne_zero hidx)

variable {i : Nat} {changed piece : ChainPiece} {headed : String}

theorem cutSegments_set (h : (cutSegments spaceId groups)[i]? = some piece) :
    ((cutSegments spaceId groups).set i changed)[i]? = some changed := by
  obtain ⟨hi, -⟩ := List.getElem?_eq_some_iff.mp h
  exact getElem?_set_self hi

theorem refuses_recorded (hs : spaceId ≠ "") (hf : (Utf8.encode spaceId).length < 4294967296)
    (hwr : ∀ records ∈ groups, ∀ rc ∈ records, Writable rc)
    (hp : (cutSegments spaceId groups)[i]? = some piece) (hbs : changed.bytes = piece.bytes)
    (hne : changed ≠ piece) :
    ChainFails H configuredSpaceId ((cutSegments spaceId groups).set i changed)
      (cutTail spaceId groups tailRecords torn) := by
  refine chainFails_of_not_taken ?_
  intro hd ts _ _ ht
  obtain ⟨-, -, hlen⟩ := memberSays_header_eq hf (flagsAt_lt _) ht.isSaid
  obtain ⟨sa, hat⟩ := ht.members i changed (cutSegments_set hp)
  unfold cutSegments at hp
  rw [segmentsFrom_getElem?] at hp
  obtain ⟨records, hr, rfl⟩ := Option.map_eq_some_iff.mp hp
  have hto : (frameAt storeLogStreamMaxPayloadBytes []).stops := trivial
  have hsa := hat.isSaid
  rw [hbs, memberSays_with hs hlen (flagsAt_cases _) (hwr records (mem_of_getElem? hr)) hto] at hsa
  cases hsa
  obtain ⟨bs, s, sp, bc⟩ := changed
  obtain ⟨-, -, hcnt, hst, hsto, -⟩ := hat
  dsimp only at hbs hcnt hst hsto
  refine hne ?_
  rw [hcnt, hst, hsto, hbs]
  rfl

theorem refuses_segmentHeader (hfi : (Utf8.encode spaceId).length < 4294967296) {flags : Nat}
    {r : List UInt8} (hi : i < groups.length)
    (hbs : changed.bytes = headerOf flags headed ++ r) (hf : flags < 65536)
    (hh : (Utf8.encode headed).length < 4294967296)
    (hne : flags ≠ flagsAt i ∨ headed ≠ spaceId) :
    ChainFails H configuredSpaceId ((cutSegments spaceId groups).set i changed)
      (cutTail spaceId groups tailRecords torn) := by
  refine chainFails_of_not_taken ?_
  intro hd ts _ _ ht
  have hsp := ht.space_eq hfi
  have hlen : i < (cutSegments spaceId groups).length :=
    Nat.lt_of_lt_of_eq hi (length_segmentsFrom ..).symm
  obtain ⟨s, hat⟩ := ht.members i _ (cutSegments_set (getElem?_eq_getElem hlen))
  have hs := hat.isSaid
  rw [hbs] at hs
  obtain ⟨hhdr, hsu, -⟩ := memberSays_header_eq hh hf hs
  have hc := hat.continuation
  unfold MemberSays.continuation at hc
  rw [hhdr, decide_eq_true_iff, Nat.zero_add] at hc
  rcases hne with hne | hne
  · exact hne (flags_of_continuation hsu hc)
  · exact hne ((congrArg HeaderFields.spaceId hhdr).symm.trans (hat.space.trans hsp))

theorem refuses_tailHeader (hcon : configuredSpaceId = "" ∨ configuredSpaceId = spaceId)
    (hfi : (Utf8.encode spaceId).length < 4294967296) {flags : Nat} {r : List UInt8}
    (hbs : changed.bytes = headerOf flags headed ++ r) (hf : flags < 65536)
    (hh : (Utf8.encode headed).length < 4294967296) (hne : flags ≠ flagsAt groups.length ∨
      (headed ≠ spaceId ∧ (configuredSpaceId ≠ "" ∨ groups ≠ []))) :
    ChainFails H configuredSpaceId (cutSegments spaceId groups) changed := by
  refine chainFails_of_not_taken ?_
  intro hd s _ hc' ht
  have hsa := ht.isSaid
  rw [hbs] at hsa
  obtain ⟨hhdr, hsu, -⟩ := memberSays_header_eq hh hf hsa
  have hco := ht.continuation
  unfold MemberSays.continuation cutSegments at hco
  rw [hhdr, decide_eq_true_iff, length_segmentsFrom, Nat.zero_add] at hco
  have hs : headed = hd.spaceId :=
    (congrArg HeaderFields.spaceId hhdr).symm.trans ht.space
  rcases hne with hne | ⟨hne, hc | hgroups⟩
  · exact hne (flags_of_continuation hsu hco)
  · rw [hs, ← hc'.resolve_left hc] at hne
    exact hne (hcon.resolve_left hc)
  · obtain ⟨records, os, rfl⟩ := exists_cons_of_ne_nil hgroups
    obtain ⟨first, hat⟩ := ht.members 0 _ rfl
    obtain ⟨hfst, -, -⟩ := memberSays_header_eq hfi (flagsAt_lt _) hat.isSaid
    have heq : spaceId = hd.spaceId :=
      (congrArg HeaderFields.spaceId hfst).symm.trans hat.space
    exact hne (hs.trans heq.symm)

theorem refuses_configured (hf : (Utf8.encode spaceId).length < 4294967296)
    {osi : String} (hs : osi ≠ "") (hne : osi ≠ spaceId) :
    ChainFails H osi (cutSegments spaceId groups) (cutTail spaceId groups tailRecords torn) := by
  refine chainFails_of_not_taken ?_
  intro hd s _ hc ht
  exact hne ((hc.resolve_left hs).trans (ht.space_eq hf))

theorem refuses_arrangement (hs : spaceId ≠ "") (hf : (Utf8.encode spaceId).length < 4294967296)
    (hwr : ∀ rc ∈ tailRecords, Writable rc)
    (hto : (frameAt storeLogStreamMaxPayloadBytes torn).stops)
    (hsp : ¬SpansContinue 1 (segments.map ChainPiece.span
      ++ [(cutTail spaceId groups tailRecords torn).span])) :
    ChainFails H configuredSpaceId segments (cutTail spaceId groups tailRecords torn) := by
  refine chainFails_of_not_taken ?_
  intro hd s _ _ ht
  have hsa := ht.isSaid
  obtain ⟨-, -, hlen⟩ := memberSays_header_eq hf (flagsAt_lt _) hsa
  unfold cutTail at hsa
  rw [memberSays_with hs hlen (flagsAt_cases _) hwr hto] at hsa
  cases hsa
  exact hsp ht.spans

/-! ### Booting the chain and booting the log -/

/-- A chain of members headed alike reads its first header, whichever member that is. -/
theorem decode_first_header (hs : spaceId ≠ "")
    (hlen : (Utf8.encode spaceId).length ≤ storeLogStreamMaxSpaceBytes)
    (hwr : ∀ rc ∈ groups.flatten ++ tailRecords, Writable rc)
    (hto : (frameAt storeLogStreamMaxPayloadBytes torn).stops) {t : List UInt8}
    (ht : t = (cutTail spaceId groups tailRecords torn).bytes) :
    decodeStoreLogHeader (((cutSegments spaceId groups).map ChainPiece.bytes ++ [t]).headD t)
      = .ok ⟨spaceId, storeLogFlags, (headerOf storeLogFlags spaceId).length⟩ := by
  subst ht
  cases groups with
  | nil =>
    obtain ⟨hhdr, -⟩ := memberSays_iff.mp (memberSays_with hs hlen (flagsAt_cases 0) hwr hto)
    exact hhdr
  | cons records r =>
    have hemp : (frameAt storeLogStreamMaxPayloadBytes []).stops := trivial
    obtain ⟨hhdr, -⟩ := memberSays_iff.mp (memberSays_with hs hlen (flagsAt_cases 0)
      (fun rc hr => hwr rc (mem_append_left _ (mem_append_left _ hr))) hemp)
    exact hhdr

variable (hs : spaceId ≠ "") (hlen : (Utf8.encode spaceId).length ≤ storeLogStreamMaxSpaceBytes)
  (hco : configuredSpaceId = "" ∨ configuredSpaceId = spaceId)
  (hwr : ∀ rc ∈ groups.flatten ++ tailRecords, Writable rc)
  (hc : Contiguous 1 (groups.flatten ++ tailRecords))
  (ht : (frameAt storeLogStreamMaxPayloadBytes torn).stops)

include hs hlen hco hwr hc ht

/-- A cut log says the ledger of its records, when they make one. -/
theorem chainLedger_cut :
    (chainLedger configuredSpaceId (cutSegments spaceId groups)
        (cutTail spaceId groups tailRecords torn).bytes).map Prod.fst
      = (Ledger.empty spaceId).replayAll (groups.flatten ++ tailRecords) := by
  unfold chainLedger
  rw [decode_first_header hs hlen hwr ht rfl]
  dsimp only
  rw [if_neg (by rw [ne_eq, ne_eq, ← not_or, Decidable.not_not]; exact hco)]
  have hidx : (cutTail spaceId groups tailRecords torn)
      = memberWith (flagsAt (0 + groups.length)) spaceId tailRecords torn := by
    rw [Nat.zero_add]
    rfl
  rw [hidx]
  cases hall : (Ledger.empty spaceId).replayAll (groups.flatten ++ tailRecords) with
  | some l' =>
    obtain ⟨n, hf⟩ := foldMembers_cut hs hlen ht groups 0 _ l' 1 (Ledger.empty_wf hs) rfl
      (by decide) hwr hc hall
    unfold cutSegments
    rw [hf]
    rfl
  | none =>
    cases hf : Ledger.foldMembers
        (memberWith (flagsAt (0 + groups.length)) spaceId tailRecords torn).bytes 0
        (Ledger.empty spaceId) 1 (cutSegments spaceId groups) with
    | none => rfl
    | some out =>
      have := foldMembers_replayAll hs hlen ht groups 0 _ out.1 1 out.2 hwr hf
      rw [hall] at this
      cases this

/-- A chain cut from a log with a NaN is refused. -/
theorem nan_chain_refused {l : Ledger}
    (hall : (Ledger.empty spaceId).replayAll (groups.flatten ++ tailRecords) = some l)
    (hnan : ¬l.rows.NanFree) :
    ChainFails H configuredSpaceId (cutSegments spaceId groups)
      (cutTail spaceId groups tailRecords torn) := by
  have hsp := bootStoreLogChain_spec (H := H) configuredSpaceId (cutSegments spaceId groups)
    (cutTail spaceId groups tailRecords torn)
  have hsa := chainLedger_cut hs hlen hco hwr hc ht
  rw [hall] at hsa
  obtain ⟨out, hout, rfl⟩ := Option.map_eq_some_iff.mp hsa
  rw [hout] at hsp
  exact hsp.2 hnan

end

section

variable (H : Hashing)

/-- The chain cut from a log boots to what the log boots to, or both fail. -/
def BootsAsUncut (configuredSpaceId spaceId : String) (groups : List (List TransactionRecord))
    (tailRecords : List TransactionRecord) (torn : List UInt8) : Prop :=
  ((∃ failure, consumeTransactionLogHeader H configuredSpaceId
        (uncutLog spaceId groups tailRecords torn) = .error failure) ∧
      ChainFails H configuredSpaceId (cutSegments spaceId groups)
        (cutTail spaceId groups tailRecords torn)) ∨
    ∃ stream booted, consumeTransactionLogHeader H configuredSpaceId
        (uncutLog spaceId groups tailRecords torn) = .ok stream ∧
      bootStoreLogChain H configuredSpaceId (cutSegments spaceId groups)
        (cutTail spaceId groups tailRecords torn) = .ok booted ∧
      SameStore H booted.store stream.store

variable {H}
variable {configuredSpaceId spaceId : String} {groups : List (List TransactionRecord)}
  {tailRecords : List TransactionRecord} {torn : List UInt8}

theorem boots_as_uncut (hs : spaceId ≠ "") (hf : (Utf8.encode spaceId).length < 4294967296)
    (hco : configuredSpaceId = "" ∨ configuredSpaceId = spaceId)
    (hwr : ∀ rc ∈ groups.flatten ++ tailRecords, Writable rc)
    (hcl : ∀ rc ∈ groups.flatten ++ tailRecords, ∀ op ∈ rc.operations,
      op.proposition.term.hasNan = false)
    (hcon : Contiguous 1 (groups.flatten ++ tailRecords))
    (ht : (frameAt storeLogStreamMaxPayloadBytes torn).stops) :
    BootsAsUncut H configuredSpaceId spaceId groups tailRecords torn := by
  by_cases hl : (Utf8.encode spaceId).length > storeLogStreamMaxSpaceBytes
  · refine Or.inl ⟨?_, ?_⟩
    · obtain ⟨m, hm⟩ := consume_long_space (H := H) hs hf hl hco
        (bodyOf (groups.flatten ++ tailRecords) ++ torn)
      exact ⟨_, hm⟩
    · refine chainFails_of_not_taken ?_
      intro hd s _ _ hta
      obtain ⟨-, -, hlen⟩ := memberSays_header_eq hf (flagsAt_lt _) hta.isSaid
      exact absurd hl (Nat.not_lt.mpr hlen)
  have hlen := Nat.not_lt.mp hl
  have hlog := streamed_headerOf (H := H) hs hf hco (bodyOf (groups.flatten ++ tailRecords) ++ torn)
  rw [if_neg hl, Ledger.readLog_some (logRecords_bodyOf hwr ht)] at hlog
  have hc := bootStoreLogChain_spec (H := H) configuredSpaceId (cutSegments spaceId groups)
    (cutTail spaceId groups tailRecords torn)
  have hsa := chainLedger_cut hs hlen hco hwr hcon ht
  cases hall : (Ledger.empty spaceId).replayAll (groups.flatten ++ tailRecords) with
  | none =>
    rw [hall] at hlog hsa
    rw [Option.map_eq_none_iff.mp hsa] at hc
    obtain ⟨m, hm⟩ := hlog
    exact Or.inl ⟨⟨_, hm⟩, hc⟩
  | some l =>
    rw [hall] at hlog hsa
    obtain ⟨out, hout, rfl⟩ := Option.map_eq_some_iff.mp hsa
    rw [hout] at hc
    obtain ⟨st, hok, hhd, -⟩ := hlog
    have hr : out.1.rows.NanFree :=
      Ledger.replayAll_nanFree (nanFree_empty spaceId) hall hcl
    obtain ⟨b, hbo, hb⟩ := hc.1 hr
    exact Or.inr ⟨st, b, hok, hbo, hb.holds.same hhd⟩

/-- **A chain cut from a log without a NaN boots as the log does, and what is not such a chain is
    refused.** -/
theorem chain_boots_as_uncut (hs : spaceId ≠ "") (hfits : (Utf8.encode spaceId).length < 4294967296)
    (hconf : configuredSpaceId = "" ∨ configuredSpaceId = spaceId)
    (hwritable : ∀ record ∈ groups.flatten ++ tailRecords, Writable record)
    (hclean : ∀ record ∈ groups.flatten ++ tailRecords, ∀ operation ∈ record.operations,
      operation.proposition.term.hasNan = false)
    (hcontiguous : Contiguous 1 (groups.flatten ++ tailRecords))
    (htorn : (frameAt storeLogStreamMaxPayloadBytes torn).stops) :
    BootsAsUncut H configuredSpaceId spaceId groups tailRecords torn ∧
      RefusesChanges H configuredSpaceId spaceId groups tailRecords torn := by
  refine ⟨boots_as_uncut hs hfits hconf hwritable hclean hcontiguous htorn, ?_, ?_, ?_, ?_, ?_⟩
  · intro i piece changed hp hbs hne
    refine refuses_recorded hs hfits ?_ hp hbs hne
    intro records hre record hr
    exact hwritable record (mem_append_left _ (mem_flatten_of_mem hre hr))
  · intro i flags headed r changed hi hbs hf hh hne
    exact refuses_segmentHeader hfits hi hbs hf hh hne
  · intro flags headed r changed hbs hf hh hne
    exact refuses_tailHeader hconf hfits hbs hf hh hne
  · intro osi hso hne
    exact refuses_configured hfits hso hne
  · intro segments hsp
    exact refuses_arrangement hs hfits
      (fun record hr => hwritable record (mem_append_right _ hr)) htorn hsp

end

/-- One sealed segment behind an empty tail. -/
theorem greeting_chain_boots : BootsAsUncut Hashing.fnv "s" "s" [[greetingRecord]] [] [] ∧
      RefusesChanges Hashing.fnv "s" "s" [[greetingRecord]] [] [] := by
  have hone : [[greetingRecord]].flatten ++ [] = [greetingRecord] := rfl
  refine chain_boots_as_uncut (by decide) (by decide) (Or.inr rfl) ?_ ?_ ?_ trivial
  · intro rc h
    rw [hone, mem_singleton] at h
    rw [h]
    exact ⟨by decide +kernel, by decide +kernel⟩
  · decide
  · exact ⟨by decide, trivial⟩

/-! ### What a chain takes that it should not, and the other way round -/

/-- A sole tail under another SpaceId is taken where none is configured. -/
theorem sole_tail_taken : ∃ booted, bootStoreLogChain Hashing.fnv "" (cutSegments "s" [])
      (memberWith storeLogFlags "t" [] []) = .ok booted := by
  have hs := bootStoreLogChain_spec (H := Hashing.fnv) "" (cutSegments "s" [])
    (memberWith storeLogFlags "t" [] [])
  have hsa : (chainLedger "" (cutSegments "t" []) (cutTail "t" [] [] []).bytes).map Prod.fst = _ :=
    chainLedger_cut (show "t" ≠ "" by decide) (by decide) (Or.inl rfl)
      (forall_mem_nil _) (show Contiguous 1 [] from trivial)
      (show (frameAt _ []).stops from trivial)
  obtain ⟨out, hout, hl⟩ := Option.map_eq_some_iff.mp hsa
  have hout : chainLedger "" (cutSegments "s" []) (memberWith storeLogFlags "t" [] []).bytes
    = some out := hout
  rw [hout] at hs
  obtain ⟨booted, hok, -⟩ := hs.1 (hl ▸ nanFree_empty "t")
  exact ⟨booted, hok⟩

/-- A log with a NaN boots, and not as a chain. -/
theorem nan_chain_fails : ¬BootsAsUncut Hashing.fnv "s" "s" [] [nanRecord] [] := by
  have hone : [].flatten ++ [nanRecord] = [nanRecord] := rfl
  have hwr : ∀ record ∈ [].flatten ++ [nanRecord], Writable record := by
    intro record h
    rw [hone, mem_singleton] at h
    rw [h]
    exact ⟨by decide +kernel, by decide +kernel⟩
  have hall : (Ledger.empty "s").replayAll ([].flatten ++ [nanRecord])
      = some ((Ledger.empty "s").commit 1 nanRecord.operations) := by decide
  have hlog := streamed_headerOf (H := Hashing.fnv) (show "s" ≠ "" by decide) (by decide)
    (Or.inr rfl) (bodyOf ([].flatten ++ [nanRecord]) ++ [])
  rw [if_neg (by decide), Ledger.readLog_some (logRecords_bodyOf hwr
    (show (frameAt _ []).stops from trivial)), hall] at hlog
  have hnan : ¬((Ledger.empty "s").commit 1 nanRecord.operations).rows.NanFree := by
    intro hn
    obtain ⟨v, hrow, hval⟩ := hn (atomRow (.float .nan)) (by decide)
    rw [← Rows.atomRow_inj hrow] at hval
    cases hval
  obtain ⟨cf, hfa⟩ := nan_chain_refused (H := Hashing.fnv) (by decide)
    (by decide) (Or.inr rfl) hwr ⟨by decide, trivial⟩
    (show (frameAt _ []).stops from trivial) hall hnan
  obtain ⟨l, hl, -⟩ := hlog
  rintro (⟨⟨f, hf⟩, -⟩ | ⟨st, b, -, hb, -⟩)
  · rw [uncutLog, hl] at hf
    cases hf
  · rw [hfa] at hb
    cases hb

/-- Both ways in which a chain and its log part. -/
theorem cut_chain_exceptions : (∃ booted, bootStoreLogChain Hashing.fnv "" (cutSegments "s" [])
      (memberWith storeLogFlags "t" [] []) = .ok booted) ∧
      ¬BootsAsUncut Hashing.fnv "s" "s" [] [nanRecord] [] :=
  ⟨sole_tail_taken, nan_chain_fails⟩

end Beagle.Store
