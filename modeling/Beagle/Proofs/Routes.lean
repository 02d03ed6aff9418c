/-
The three boot routes side by side.

They read the same records from the same bytes, each within its own limits: only
`bootStoreLog` takes a SpaceId past 4096 bytes or a payload past a mebibyte, only the
fused boot leaves a NaN unchecked, and only a chain wants its first record to have
sequence 1 and is never empty.
-/
import Beagle.Proofs.Chains
import Beagle.Proofs.LogBytes

namespace Beagle.Store

open Beagle.Lib List

/-! ### Reading within different limits -/

theorem HeaderRead.within {msb msb' : Nat}
    {fs fs' : Nat → Bool} {bs : List UInt8} {header : HeaderFields}
    (h : HeaderRead msb fs bs header)
    (hs : u32LeAt bs (storeLogMagic.length + 4) ≤ msb')
    (hf : fs' header.flags = true) :
    HeaderRead msb' fs' bs header :=
  { h with space := ⟨h.space.1, hs⟩, supported := hf }

variable {mx mp' : Nat}

/-- A first length within both bounds is framed alike under both. -/
theorem frameAt_within {rest : List UInt8} (h : u32LeAt rest 0 ≤ mx)
    (hle : mx ≤ mp') : frameAt mx rest = frameAt mp' rest := by
  unfold frameAt
  dsimp only
  rw [if_neg (Nat.not_lt.mpr h), if_neg (Nat.not_lt.mpr (Nat.le_trans h hle))]

variable {r : List UInt8}

theorem frameAt_past (hlen : 4 ≤ r.length)
    (h : mx < u32LeAt r 0) : frameAt mx r = .oversized := by
  unfold frameAt
  rw [if_neg (by omega), if_neg (by omega)]
  exact if_pos h

theorem frameAt_few (hlen : r.length < 4) : (frameAt mx r).stops := by
  unfold frameAt
  by_cases h : r.length = 0
  · rw [if_pos h]
    trivial
  · rw [if_neg h, if_pos hlen]
    trivial

/-- A reader with a greater bound reads on where one with a lesser bound does. -/
theorem logRecords_within (hle : mx ≤ mp') (r : List UInt8) :
    ∀ s, logRecords mx r = some s → logRecords mp' r = some s := by
  induction r using log_induction mx with
  | stops r hs =>
    intro s h
    rw [logRecords_stops hs] at h
    rw [← h]
    refine logRecords_stops ?_
    by_cases hlen : r.length < 4
    · exact frameAt_few hlen
    by_cases hmax : u32LeAt r 0 ≤ mx
    · rw [← frameAt_within hmax hle]
      exact hs
    · rw [frameAt_past (Nat.not_lt.mp hlen) (Nat.not_le.mp hmax)] at hs
      exact absurd hs id
  | oversized r hf =>
    intro s h
    rw [logRecords_oversized hf] at h
    cases h
  | record r pl sc a hf ih =>
    intro s h
    obtain ⟨lb, cb, hfr, hval⟩ := frameAt_framed hf
    have hmax := (frameAt_lengths hf).2
    have hf' := hfr.frameAt_eq (Nat.le_trans hmax hle)
    rw [hval] at hf'
    rw [logRecords_record hf] at h
    rw [logRecords_record hf']
    by_cases hcrc : sc ≠ crc32 pl
    · rw [if_pos hcrc] at h
      cases h
    rw [if_neg hcrc] at h ⊢
    cases hdec : decodeRecordPayload pl with
    | error f =>
      rw [hdec] at h
      cases h
    | ok record =>
      rw [hdec] at h
      obtain ⟨la, hl, heq⟩ := Option.map_eq_some_iff.mp h
      simp only [ih la hl, Option.map_some, heq]

/-- The payload lengths a reader with this bound takes, the one of a torn tail among them. -/
def payloadLengths (maxPayload : Nat) (rest : List UInt8) : List Nat :=
  match _h : frameAt maxPayload rest with
  | .record payload _ after => payload.length :: payloadLengths maxPayload after
  | .torn => [u32LeAt rest 0]
  | _ => []
termination_by rest.length
decreasing_by exact frameAt_after_lt (by assumption)

theorem payloadLengths_ended (mx : Nat) : payloadLengths mx [] = [] := by
  rw [payloadLengths]
  rfl

theorem payloadLengths_torn (h : frameAt mx r = .torn) :
    payloadLengths mx r = [u32LeAt r 0] := by
  rw [payloadLengths]
  split <;> rename_i hf
  · rw [h] at hf
    cases hf
  · rfl
  · exact absurd h (by assumption)

theorem payloadLengths_record {r pl after : List UInt8} {sc : Nat}
    (h : frameAt mx r = .record pl sc after) :
    payloadLengths mx r = pl.length :: payloadLengths mx after := by
  conv_lhs => rw [payloadLengths]
  split
  · rename_i hf
    rw [h] at hf
    cases hf
    rfl
  · rename_i hf
    rw [h] at hf
    cases hf
  · rename_i hrec _
    exact absurd h (hrec _ _ _)

theorem frameAt_oversized (h : frameAt mx r = .oversized) :
    4 ≤ r.length ∧ mx < u32LeAt r 0 := by
  have hlen : ¬r.length < 4 := by
    intro hlen
    have hs : (frameAt mx r).stops := frameAt_few hlen
    rw [h] at hs
    exact hs
  refine ⟨Nat.not_lt.mp hlen, ?_⟩
  unfold frameAt at h
  rw [if_neg (by omega), if_neg hlen] at h
  dsimp only at h
  split at h
  · assumption
  · split at h <;> cases h

/-- Readers agree on bytes whose payload lengths are within the lesser bound. -/
theorem logRecords_eq (hle : mx ≤ mp') (rest : List UInt8) :
    (∀ len ∈ payloadLengths mp' rest, len ≤ mx) → logRecords mx rest = logRecords mp' rest := by
  induction rest using log_induction mp' with
  | stops rest hs =>
    intro hall
    rw [logRecords_stops hs]
    refine logRecords_stops ?_
    by_cases hlen : rest.length < 4
    · exact frameAt_few hlen
    cases hf : frameAt mp' rest with
    | ended =>
      rw [frameAt_ended.mp hf] at hlen
      exact absurd (by decide : 0 < 4) hlen
    | short => exact absurd (frameAt_short hf) hlen
    | torn =>
      have hmax : u32LeAt rest 0 ≤ mx :=
        hall _ (by rw [payloadLengths_torn hf]; exact mem_singleton.mpr rfl)
      rw [frameAt_within hmax hle, hf]
      trivial
    | oversized | record pl sc a =>
      rw [hf] at hs
      exact absurd hs id
  | oversized rest hf =>
    intro _
    obtain ⟨hlen, hp⟩ := frameAt_oversized hf
    rw [logRecords_oversized hf,
      logRecords_oversized (frameAt_past hlen (Nat.lt_of_le_of_lt hle hp))]
  | record rest pl sc a hf ih =>
    intro hall
    rw [payloadLengths_record hf] at hall
    obtain ⟨lb, cb, hfr, hval⟩ := frameAt_framed hf
    have hf' := hfr.frameAt_eq (hall _ (mem_cons_self ..))
    rw [hval] at hf'
    rw [logRecords_record hf, logRecords_record hf',
      ih fun len hl => hall len (mem_cons_of_mem _ hl)]

/-! ### What each route makes of the same bytes -/

section

variable {csid : String} {bs : List UInt8} {l : Ledger} {n : Nat}

/-- What the fused boot reads, `bootStoreLog` reads. -/
theorem bootLedger_within
    (h : bootLedger storeLogStreamMaxSpaceBytes storeLogStreamMaxPayloadBytes csid bs
      = some (l, n)) :
    bootLedger maxCodecCount maxCodecCount csid bs = some (l, n) := by
  obtain ⟨hd, rcs, tk, hhdr, hre, hres⟩ := bootLedger_iff.mp h
  obtain ⟨hlen, hm, hr, hc⟩ := bootHeader_iff.mp hhdr
  refine bootLedger_iff.mpr ⟨hd, rcs, tk, bootHeader_iff.mpr ⟨hlen, hm, ?_, hc⟩,
    logRecords_within (by decide) _ _ hre, hres⟩
  exact hr.within (Nat.le_trans hr.space.2 (by decide)) hr.supported

/-- The records a log says, or none. -/
def loggedRecords (bytes : List UInt8) : List TransactionRecord :=
  ((logRecords storeLogStreamMaxPayloadBytes (bytes.drop (headerEnd bytes))).map Prod.fst).getD []

/-- The bytes keep to the limits of all three routes. -/
structure WithinAllLimits (bytes : List UInt8) : Prop where
  nonempty : bytes ≠ []
  space : u32LeAt bytes (storeLogMagic.length + 4) ≤ storeLogStreamMaxSpaceBytes ∨
    maxCodecCount < u32LeAt bytes (storeLogMagic.length + 4)
  payloads : ∀ length ∈ payloadLengths maxCodecCount (bytes.drop (headerEnd bytes)),
    length ≤ storeLogStreamMaxPayloadBytes
  numbers : ∀ record ∈ loggedRecords bytes, ∀ operation ∈ record.operations,
    operation.proposition.term.hasNan = false
  start : ∀ record ∈ (loggedRecords bytes).head?, record.sequence.toInt = 1

/-- Within the limits `bootStoreLog` reads what the fused boot does. -/
theorem bootLedger_same (h : WithinAllLimits bs) : bootLedger maxCodecCount maxCodecCount csid bs
      = bootLedger storeLogStreamMaxSpaceBytes storeLogStreamMaxPayloadBytes csid
          bs := by
  cases hs : bootLedger maxCodecCount maxCodecCount csid bs with
  | none =>
    cases hst : bootLedger storeLogStreamMaxSpaceBytes storeLogStreamMaxPayloadBytes csid bs with
    | none => rfl
    | some s =>
      rw [bootLedger_within hst] at hs
      cases hs
  | some s =>
    obtain ⟨hd, rcs, tk, hhdr, hre, hres⟩ := bootLedger_iff.mp hs
    obtain ⟨hlen, hm, hr, hc⟩ := bootHeader_iff.mp hhdr
    have hsp := h.space.resolve_right (Nat.not_lt.mpr hr.space.2)
    rw [← logRecords_eq (by decide) _ h.payloads] at hre
    exact (bootLedger_iff.mpr ⟨hd, rcs, tk, bootHeader_iff.mpr
      ⟨hlen, hm, hr.within hsp hr.supported, hc⟩, hre, hres⟩).symm

theorem loggedRecords_some {records : List TransactionRecord} {tk : Nat}
    (h : logRecords storeLogStreamMaxPayloadBytes (bs.drop (headerEnd bs))
      = some (records, tk)) : loggedRecords bs = records := by
  unfold loggedRecords
  rw [h]
  rfl

/-- Records without a NaN leave rows without one. -/
theorem Ledger.replayAll_nanFree {rcs : List TransactionRecord} :
    ∀ {l l' : Ledger}, l.rows.NanFree → l.replayAll rcs = some l' →
      (∀ rc ∈ rcs, ∀ op ∈ rc.operations, op.proposition.term.hasNan = false) → l'.rows.NanFree := by
  induction rcs with
  | nil =>
    intro l l' h hall _
    cases hall
    exact h
  | cons rc rs ih =>
    intro l l' h hall hc
    obtain ⟨m, hrec, hre⟩ := Option.bind_eq_some_iff.mp hall
    refine ih ?_ hre fun r hr => hc r (mem_cons_of_mem _ hr)
    unfold Ledger.replay at hrec
    split at hrec
    · cases hrec
      refine Rows.internAll_nanFree h ?_
      intro t ht
      obtain ⟨op, hmem, rfl⟩ := mem_map.mp ht
      exact hc rc (mem_cons_self ..) op hmem
    · cases hrec

theorem bootLedger_nanFree (h : WithinAllLimits bs)
    (hs : bootLedger storeLogStreamMaxSpaceBytes storeLogStreamMaxPayloadBytes csid
      bs = some (l, n)) : l.rows.NanFree := by
  obtain ⟨hd, rcs, tk, -, hr, hall, -⟩ := bootLedger_iff.mp hs
  refine Ledger.replayAll_nanFree ?_ hall ?_
  · intro row hrow
    exact absurd hrow not_mem_nil
  · rw [← loggedRecords_some hr]
    exact h.numbers

/-- A chain of one tail reads what the fused boot does, when its first record has sequence 1. -/
theorem chainLedger_single : chainLedger csid [] bs = some (l, n) ↔
      bootLedger storeLogStreamMaxSpaceBytes storeLogStreamMaxPayloadBytes csid bs = some (l, n) ∧
        ∀ record ∈ (loggedRecords bs).head?, record.sequence.toInt = 1 := by
  constructor
  · intro h
    unfold chainLedger at h
    cases hhdr : decodeStoreLogHeader (([].map ChainPiece.bytes ++ [bs]).headD bs) with
    | error message =>
      rw [hhdr] at h
      cases h
    | ok header =>
      have hhdr : decodeStoreLogHeader bs = .ok header := hhdr
      obtain ⟨hlen, hmagic, hread⟩ := decodeStoreLogHeader_iff.mp hhdr
      simp only [map_nil, nil_append, headD_cons, hhdr] at h
      split at h
      · cases h
      rename_i hconf
      rw [ne_eq, ne_eq, ← not_or, Decidable.not_not] at hconf
      obtain ⟨s, hsaid, hall, hfault, rfl⟩ := Ledger.foldTail_iff.mp h
      obtain ⟨hsame, hrecs⟩ := memberSays_iff.mp hsaid
      rw [hhdr] at hsame
      have hsame : header = s.header := Except.ok.inj hsame
      subst hsame
      obtain ⟨-, hcont, hst⟩ := tailMemberFault_none.mp hfault
      have hbase : s.header.flags = storeLogFlags := by
        have := hread.supported
        simp only [decide_eq_true_eq] at this
        refine this.resolve_right fun hflags => ?_
        exact absurd (hcont.mp (decide_eq_true hflags)) (Nat.lt_irrefl 0)
      rw [hread.headerBytes] at hrecs
      refine ⟨bootLedger_iff.mpr ⟨s.header, s.records, s.taken, bootHeader_iff.mpr
        ⟨hlen, hmagic, hread.within hread.space.2 (decide_eq_true hbase), hconf⟩, hrecs,
        hall, ?_⟩, ?_⟩
      · unfold MemberSays.valid
        rw [hread.headerBytes]
      · rw [loggedRecords_some hrecs]
        exact (MemberSays.start_iff (Ledger.empty_wf hread.nonempty) hall).mp hst
  · intro ⟨h, hst⟩
    obtain ⟨header, records, taken, hhdr, hrecs, hall, hn⟩ := bootLedger_iff.mp h
    obtain ⟨hlen, hmagic, hread, hconf⟩ := bootHeader_iff.mp hhdr
    have hbase : header.flags = storeLogFlags := of_decide_eq_true hread.supported
    have hdec : decodeStoreLogHeader bs = .ok header :=
      decodeStoreLogHeader_iff.mpr ⟨hlen, hmagic, hread.within hread.space.2 (by simp [hbase])⟩
    rw [loggedRecords_some hrecs] at hst
    unfold chainLedger
    simp only [map_nil, nil_append, headD_cons, hdec]
    rw [if_neg (by rw [ne_eq, ne_eq, ← not_or, Decidable.not_not]; exact hconf)]
    refine Ledger.foldTail_iff.mpr ⟨⟨header, records, taken⟩, memberSays_iff.mpr ⟨hdec, ?_⟩,
      hall, tailMemberFault_none.mpr ⟨rfl, ?_, ?_⟩, ?_⟩
    · rw [hread.headerBytes]
      exact hrecs
    · simp [MemberSays.asTail, MemberSays.continuation, hbase, storeLogFlags,
        storeLogContinuationFlag]
    · let s : MemberSays := ⟨header, records, taken⟩
      have hsaid : (Ledger.empty header.spaceId).replayAll s.records = some l := hall
      exact (MemberSays.start_iff (Ledger.empty_wf hread.nonempty) hsaid).mpr hst
    · rw [hn]
      unfold MemberSays.valid
      rw [hread.headerBytes]

end

/-! ### The routes agree -/

section

variable (H : Hashing)

/-- The three routes all fail on the bytes, or all succeed with one dump, one list of live
    occurrences and one count of valid bytes. -/
def RoutesAgree (configuredSpaceId : String) (tail : ChainPiece) : Prop :=
  ((∃ failure, bootStoreLog H configuredSpaceId tail.bytes = .error failure) ∧
      (∃ failure, consumeTransactionLogHeader H configuredSpaceId tail.bytes = .error failure) ∧
      ∃ failure, bootStoreLogChain H configuredSpaceId [] tail = .error failure) ∨
    ∃ decoded stream chained, bootStoreLog H configuredSpaceId tail.bytes = .ok decoded ∧
      consumeTransactionLogHeader H configuredSpaceId tail.bytes = .ok stream ∧
      bootStoreLogChain H configuredSpaceId [] tail = .ok chained ∧
      SameStore H decoded.store stream.store ∧ SameStore H decoded.store chained.store ∧
      decoded.validLogBytes = stream.validLogBytes ∧
      decoded.validLogBytes = chained.validLogBytes

variable {H}

variable {s : Option (Ledger × Nat)} {stream : BootStream}

/-- A boot that succeeds says a ledger without a NaN, and holds it. -/
theorem BootedAs.of_ok {res : Except Failure BootResult} {b : BootResult}
    (h : BootedAs H 0 res s) (hok : res = .ok b) :
    ∃ l n, s = some (l, n) ∧ l.rows.NanFree ∧ Holds H b.store l ∧ b.validLogBytes = n := by
  cases s with
  | none =>
    obtain ⟨f, hf⟩ := h
    rw [hok] at hf
    cases hf
  | some out =>
    obtain ⟨l, n⟩ := out
    by_cases hn : l.rows.NanFree
    · obtain ⟨b', hr, hb⟩ := h.1 hn
      rw [hok] at hr
      cases hr
      exact ⟨l, n, rfl, hn, hb.holds, hb.bytes.trans (Nat.zero_add n)⟩
    · obtain ⟨f, hf⟩ := h.2 hn
      rw [hok] at hf
      cases hf

theorem StreamedAs.of_ok {res : Except Failure BootStream} (h : StreamedAs H res s)
    (hok : res = .ok stream) :
    ∃ l n, s = some (l, n) ∧ Holds H stream.store l ∧ stream.validLogBytes = n := by
  cases s with
  | none =>
    obtain ⟨m, hm⟩ := h
    rw [hok] at hm
    cases hm
  | some out =>
    obtain ⟨st', hr, hhd, -, hbs, -⟩ := h
    rw [hok] at hr
    cases hr
    exact ⟨out.1, out.2, rfl, hhd, hbs⟩

/-- All three routes succeed alike on bytes that all three read. -/
theorem routes_succeed {csid : String} {t : ChainPiece} (hne : t.bytes ≠ [])
    {l : Ledger} {n : Nat} (hcl : l.rows.NanFree)
    (hdec : bootLedger maxCodecCount maxCodecCount csid t.bytes = some (l, n))
    (hst : bootLedger storeLogStreamMaxSpaceBytes storeLogStreamMaxPayloadBytes
      csid t.bytes = some (l, n))
    (hch : chainLedger csid [] t.bytes = some (l, n)) :
    RoutesAgree H csid t := by
  have ha := bootStoreLog_spec (H := H) csid hne
  have hb := consumeTransactionLogHeader_spec (H := H) csid hne
  have hc := bootStoreLogChain_spec (H := H) csid [] t
  rw [hdec] at ha
  rw [hst] at hb
  rw [hch] at hc
  obtain ⟨d, hdok, hdb⟩ := ha.1 hcl
  obtain ⟨stream, hsok, hsh, -, hs, -⟩ := hb
  obtain ⟨c, hcok, hcb⟩ := hc.1 hcl
  exact Or.inr ⟨d, stream, c, hdok, hsok, hcok, hdb.holds.same hsh,
    hdb.holds.same hcb.holds, hdb.bytes.trans ((Nat.zero_add n).trans hs.symm),
    hdb.bytes.trans hcb.bytes.symm⟩

/-- Within the limits of all three, the routes agree. -/
theorem routes_agree_within {csid : String} {t : ChainPiece}
    (h : WithinAllLimits t.bytes) : RoutesAgree H csid t := by
  have hsame : bootLedger maxCodecCount maxCodecCount csid t.bytes = _ :=
    bootLedger_same h
  cases hstrm : bootLedger storeLogStreamMaxSpaceBytes storeLogStreamMaxPayloadBytes
      csid t.bytes with
  | some out =>
    obtain ⟨l, n⟩ := out
    exact routes_succeed h.nonempty (bootLedger_nanFree h hstrm) (hsame.trans hstrm) hstrm
      (chainLedger_single.mpr ⟨hstrm, h.start⟩)
  | none =>
    have ha := bootStoreLog_spec (H := H) csid h.nonempty
    have hb := consumeTransactionLogHeader_spec (H := H) csid h.nonempty
    have hc := bootStoreLogChain_spec (H := H) csid [] t
    rw [hsame, hstrm] at ha
    rw [hstrm] at hb
    cases hchain : chainLedger csid [] t.bytes with
    | some out =>
      have := (chainLedger_single.mp hchain).1
      rw [hstrm] at this
      cases this
    | none =>
      rw [hchain] at hc
      obtain ⟨message, hm⟩ := hb
      exact Or.inl ⟨ha, ⟨_, hm⟩, hc⟩

/-- What a chain of one tail boots, the other routes boot alike. -/
theorem routes_agree_of_chain {csid : String} {t : ChainPiece}
    {chained : BootResult} (hok : bootStoreLogChain H csid [] t = .ok chained) :
    RoutesAgree H csid t := by
  obtain ⟨l, n, hchain, hclean, -, -⟩ := (bootStoreLogChain_spec csid [] t).of_ok hok
  have hstrm := (chainLedger_single.mp hchain).1
  have hne : t.bytes ≠ [] := by
    intro hnil
    rw [hnil] at hstrm
    cases hstrm
  exact routes_succeed hne hclean (bootLedger_within hstrm) hstrm hchain

/-- What both `bootStoreLog` and the fused boot take, they take alike. -/
theorem decoded_agrees_with_stream {csid : String} {bs : List UInt8}
    {d : BootResult} (hdec : bootStoreLog H csid bs = .ok d)
    (hst : consumeTransactionLogHeader H csid bs = .ok stream) :
    SameStore H d.store stream.store ∧ d.validLogBytes = stream.validLogBytes := by
  by_cases hne : bs = []
  · subst hne
    obtain ⟨hd, hhdr, hdec⟩ := except_bind_ok.mp hdec
    obtain ⟨r, hro, hdec⟩ := except_bind_ok.mp hdec
    obtain ⟨hd', -, hst⟩ := except_bind_ok.mp hst
    obtain ⟨r', hr', hst⟩ := except_bind_ok.mp hst
    rw [hro] at hr'
    cases hr'
    cases hst
    obtain ⟨hhd, -, hs⟩ := newTermStoreSized_holds (H := H) (liftFault_ok.mp hro)
    have hc : (Ledger.empty csid).rows.NanFree :=
      forall_mem_nil _
    obtain ⟨b, hr, hb⟩ :=
      (successfulBoot_spec hhd (Ledger.empty_wf hs) 0 hd).1 hc
    rw [hr] at hdec
    cases hdec
    exact ⟨hb.holds.same hhd, hb.bytes⟩
  · obtain ⟨l, n, hsa, -, hhd, hbs⟩ := (bootStoreLog_spec csid hne).of_ok hdec
    obtain ⟨l', n', hs', hhd', hbs'⟩ :=
      (consumeTransactionLogHeader_spec csid hne).of_ok hst
    rw [bootLedger_within hs'] at hsa
    cases hsa
    exact ⟨hhd.same hhd', hbs.trans hbs'.symm⟩

/-- **The boot routes agree on all bytes within their limits**, on all bytes a chain boots, and
    wherever `bootStoreLog` and the fused boot both succeed. -/
theorem boot_routes_agree (configuredSpaceId : String) (tail : ChainPiece) :
    (WithinAllLimits tail.bytes → RoutesAgree H configuredSpaceId tail) ∧
      (∀ chained, bootStoreLogChain H configuredSpaceId [] tail = .ok chained →
        RoutesAgree H configuredSpaceId tail) ∧
      ∀ decoded stream, bootStoreLog H configuredSpaceId tail.bytes = .ok decoded →
        consumeTransactionLogHeader H configuredSpaceId tail.bytes = .ok stream →
          SameStore H decoded.store stream.store ∧ decoded.validLogBytes = stream.validLogBytes :=
  ⟨routes_agree_within, fun _ => routes_agree_of_chain, fun _ _ => decoded_agrees_with_stream⟩

end

/-! ### A log they agree on -/

/-- A tail of a chain without a sealed segment. -/
def baseTail (bytes : List UInt8) : ChainPiece := ⟨bytes, 0, 0, 0⟩

theorem greetingLog_withinAllLimits : WithinAllLimits greetingLog := by
  have hd : greetingLog.drop (headerEnd greetingLog) = greetingBytes := by decide
  have hr : logRecords storeLogStreamMaxPayloadBytes greetingBytes = some ([greetingRecord], 39) :=
    logRecords_written (by decide) (show (frameAt _ []).stops from trivial) greeting_written
      (by decide)
  have hlog : loggedRecords greetingLog = [greetingRecord] :=
    loggedRecords_some (by rw [hd]; exact hr)
  have hfrm : frameAt maxCodecCount greetingBytes
      = .record ((greetingBytes.drop 4).take 31) (leValue [233, 207, 83, 48]) [] := by
    decide
  refine ⟨by decide, Or.inl (by decide), ?_, ?_, ?_⟩
  · rw [hd, payloadLengths_record hfrm, payloadLengths_ended]
    decide
  · rw [hlog]
    decide
  · rw [hlog]
    decide

theorem routes_agree_greeting : RoutesAgree Hashing.fnv "s" (baseTail greetingLog) :=
  (boot_routes_agree "s" (baseTail greetingLog)).1 greetingLog_withinAllLimits

/-! ### Logs they do not agree on -/

section

variable {H : Hashing} {csid : String} {t : ChainPiece}

/-- Where the routes agree, each succeeds when another does. -/
theorem RoutesAgree.succeed (h : RoutesAgree H csid t) :
    ((∃ d, bootStoreLog H csid t.bytes = .ok d) ↔
        ∃ stream, consumeTransactionLogHeader H csid t.bytes = .ok stream) ∧
      ((∃ d, bootStoreLog H csid t.bytes = .ok d) ↔
        ∃ c, bootStoreLogChain H csid [] t = .ok c) := by
  rcases h with ⟨⟨fa, ha⟩, ⟨fb, hb⟩, ⟨fc, hc⟩⟩ | ⟨d, stream, c, ha, hb, hc, -⟩
  · rw [ha, hb, hc]
    simp
  · rw [ha, hb, hc]
    simp

/-- What a boot makes of a log without a NaN. -/
theorem bootStoreLog_headerOf {sid : String} (hs : sid ≠ "")
    (hlen : (Utf8.encode sid).length ≤ maxCodecCount) {r : List UInt8} {l : Ledger} {n : Nat}
    (hr : (Ledger.empty sid).readLog maxCodecCount r = some (l, n)) :
    (l.rows.NanFree → ∃ d, bootStoreLog H sid (headerOf storeLogFlags sid ++ r) = .ok d) ∧
      (¬l.rows.NanFree → ∃ f, bootStoreLog H sid (headerOf storeLogFlags sid ++ r) = .error f) := by
  have hne : headerOf storeLogFlags sid ++ r ≠ [] := by simp [headerOf, storeLogMagic]
  have hsp := bootStoreLog_spec (H := H) sid hne
  rw [bootLedger_headerOf hs (by unfold maxCodecCount at hlen; omega) (Or.inr rfl),
    if_neg (Nat.not_lt.mpr hlen), hr] at hsp
  refine ⟨?_, hsp.2⟩
  intro hn
  obtain ⟨d, hok, -⟩ := hsp.1 hn
  exact ⟨d, hok⟩

end

theorem nanFree_empty (sid : String) : (Ledger.empty sid).rows.NanFree :=
  forall_mem_nil _

/-- No bytes: only the chain fails. -/
theorem routes_disagree_empty : ¬RoutesAgree Hashing.fnv "s" (baseTail []) := by
  intro h
  have hdec : ∃ decoded, bootStoreLog Hashing.fnv "s" [] = .ok decoded := ⟨_, rfl⟩
  obtain ⟨c, hok⟩ := h.succeed.2.mp hdec
  cases hok

/-- A SpaceId of 4097 bytes: only `bootStoreLog` succeeds. -/
theorem routes_disagree_space : ¬RoutesAgree Hashing.fnv longSpaceId
      (baseTail (headerOf storeLogFlags longSpaceId ++ [])) := by
  intro h
  have hdec := (bootStoreLog_headerOf (H := Hashing.fnv) longSpaceId_ne
    (by rw [length_longSpaceId]; decide)
    (Ledger.readLog_stops (show (frameAt _ []).stops from trivial))).1
    (nanFree_empty longSpaceId)
  obtain ⟨stream, hok⟩ := h.succeed.1.mp hdec
  obtain ⟨m, hm⟩ := consume_long_space (H := Hashing.fnv) longSpaceId_ne
    (by rw [length_longSpaceId]; decide) (by rw [length_longSpaceId]; decide) (Or.inr rfl) []
  have hok : consumeTransactionLogHeader Hashing.fnv longSpaceId
    (headerOf storeLogFlags longSpaceId ++ []) = .ok stream := hok
  rw [hm] at hok
  cases hok

/-- A torn record of 1048577 payload bytes: only `bootStoreLog` succeeds. -/
theorem routes_disagree_payload :
    ¬RoutesAgree Hashing.fnv "s" (baseTail (headerOf storeLogFlags "s" ++ [1, 0, 16, 0])) := by
  intro h
  have hdec := (bootStoreLog_headerOf (H := Hashing.fnv) (show "s" ≠ "" by decide)
    (by decide) (Ledger.readLog_stops (show (frameAt maxCodecCount [1, 0, 16, 0]).stops by
      have hf : frameAt maxCodecCount [1, 0, 16, 0] = .torn := by decide
      rw [hf]
      trivial))).1 (nanFree_empty "s")
  obtain ⟨stream, hok⟩ := h.succeed.1.mp hdec
  have hs := streamed_headerOf (H := Hashing.fnv) (show "s" ≠ "" by decide) (by decide)
    (Or.inr rfl) [1, 0, 16, 0]
  rw [if_neg (by decide), Ledger.readLog_oversized (by decide)] at hs
  obtain ⟨l, n, hsa, -⟩ := hs.of_ok hok
  cases hsa

/-- One assertion about a NaN. -/
def nanRecord : TransactionRecord :=
  ⟨1, [⟨.assert, ⟨.atom (.float .nan), .atom (.string "b"), .atom (.bool true)⟩⟩]⟩

/-- A record that does not start at sequence 1. -/
def secondRecord : TransactionRecord := { greetingRecord with sequence := 2 }

/-- What a log of one written record says, within any bound that takes it. -/
theorem readLog_one {rc : TransactionRecord} (hb : mx ≤ maxCodecCount)
    (hw : appendRecordBytes rc = .ok (recordBytes rc))
    (hs : (recordBytes rc).length ≤ mx + 8)
    (hacc : (Ledger.empty "s").accepts rc) :
    logRecords mx (recordBytes rc) = some ([rc], (recordBytes rc).length) ∧
      (Ledger.empty "s").readLog mx (recordBytes rc)
        = some ((Ledger.empty "s").commit rc.sequence.toInt rc.operations,
            (recordBytes rc).length) := by
  have hr := logRecords_written hb (show (frameAt mx []).stops from trivial)
    (Forall₂.cons hw Forall₂.nil) (fun c h => by
      rw [mem_singleton.mp h]
      exact hs)
  rw [append_nil, flatten_singleton] at hr
  refine ⟨hr, ?_⟩
  rw [Ledger.readLog_some hr, Ledger.replayAll, Ledger.replay_accepted hacc]
  rfl

/-- A NaN: only the fused boot succeeds. -/
theorem routes_disagree_nan :
    ¬RoutesAgree Hashing.fnv "s" (baseTail (headerOf storeLogFlags "s" ++ recordBytes nanRecord)) := by
  intro h
  have hw : appendRecordBytes nanRecord = .ok (recordBytes nanRecord) := by decide +kernel
  have hacc : (Ledger.empty "s").accepts nanRecord := by decide
  have hs := streamed_headerOf (H := Hashing.fnv) (show "s" ≠ "" by decide) (by decide)
    (Or.inr rfl) (recordBytes nanRecord)
  rw [if_neg (by decide +kernel), (readLog_one (by decide) hw (by decide +kernel) hacc).2] at hs
  obtain ⟨stream, hok, -⟩ := hs
  obtain ⟨decoded, hdec⟩ := h.succeed.1.mpr ⟨stream, hok⟩
  obtain ⟨f, hf⟩ := (bootStoreLog_headerOf (H := Hashing.fnv) (show "s" ≠ "" by decide) (by decide)
    (readLog_one (Nat.le_refl _) hw (by decide +kernel) hacc).2).2 (by
      intro hn
      obtain ⟨v, hrow, hval⟩ := hn (atomRow (.float .nan)) (by decide)
      rw [← Rows.atomRow_inj hrow] at hval
      cases hval)
  have hdec : bootStoreLog Hashing.fnv "s" (headerOf storeLogFlags "s" ++ recordBytes nanRecord)
    = .ok decoded := hdec
  rw [hf] at hdec
  cases hdec

/-- A first sequence of 2: only the chain fails. -/
theorem routes_disagree_start : ¬RoutesAgree Hashing.fnv "s"
      (baseTail (headerOf storeLogFlags "s" ++ recordBytes secondRecord)) := by
  intro h
  have hwritten : appendRecordBytes secondRecord = .ok (recordBytes secondRecord) := by
    decide +kernel
  have hacc : (Ledger.empty "s").accepts secondRecord := by decide
  have hdec := (bootStoreLog_headerOf (H := Hashing.fnv) (show "s" ≠ "" by decide) (by decide)
    (readLog_one (Nat.le_refl _) hwritten (by decide +kernel) hacc).2).1
    (Rows.internAll_nanFree (nanFree_empty "s") (by decide))
  obtain ⟨chained, hok⟩ := h.succeed.2.mp hdec
  obtain ⟨l, n, hsaid, -⟩ := (bootStoreLogChain_spec "s" [] _).of_ok hok
  have hst := (chainLedger_single.mp hsaid).2
  have hdrop : (baseTail (headerOf storeLogFlags "s" ++ recordBytes secondRecord)).bytes.drop
      (headerEnd (baseTail (headerOf storeLogFlags "s" ++ recordBytes secondRecord)).bytes)
      = recordBytes secondRecord := by
    decide +kernel
  have hread := (readLog_one (show storeLogStreamMaxPayloadBytes ≤ maxCodecCount by decide) hwritten
    (by decide +kernel) hacc).1
  rw [← hdrop] at hread
  rw [loggedRecords_some hread] at hst
  exact absurd (hst secondRecord rfl) (by decide)

/-- The five kinds of bytes on which the routes do not agree. -/
theorem routes_disagree : ¬RoutesAgree Hashing.fnv "s" (baseTail []) ∧
      ¬RoutesAgree Hashing.fnv longSpaceId (baseTail (headerOf storeLogFlags longSpaceId ++ [])) ∧
      ¬RoutesAgree Hashing.fnv "s" (baseTail (headerOf storeLogFlags "s" ++ [1, 0, 16, 0])) ∧
      ¬RoutesAgree Hashing.fnv "s"
        (baseTail (headerOf storeLogFlags "s" ++ recordBytes nanRecord)) ∧
      ¬RoutesAgree Hashing.fnv "s"
        (baseTail (headerOf storeLogFlags "s" ++ recordBytes secondRecord)) :=
  ⟨routes_disagree_empty, routes_disagree_space, routes_disagree_payload, routes_disagree_nan,
    routes_disagree_start⟩

end Beagle.Store
