/-
Damaged logs.

One changed byte of a log's records is always met by an error, with one exception.
A changed payload or a changed check no longer match each other.  A changed length
frames other bytes, and these do not decode to their end, whatever their check
says, because reading a payload is exact.  The exception is a length that now runs
past the end of the log: the record is taken for a torn tail.
-/
import Beagle.Proofs.LogBytes

namespace Beagle.Store

open Beagle.Lib Beagle.Lib.Reader List

/-! ### Payloads are read exactly -/

section

variable {ρ : Type}

theorem exact_readStoreLogTerm : Exact (readStoreLogTerm : Decode ρ Triple) := by
  refine Exact.bind exact_resetNodes ?_
  intro _
  refine Exact.bind (exact_readTermLimited _ _ _) ?_
  intro proposition
  split
  · exact Exact.pure _
  · exact exact_decoderError _

theorem exact_decodeOperations (n ordinal : Nat) :
    Exact (decodeOperations n ordinal : Decode ρ (List CommitOperation)) := by
  induction n generalizing ordinal with
  | zero => exact Exact.pure _
  | succ n ih =>
    rw [decodeOperations]
    refine Exact.bind (exact_readU32Le _) ?_
    intro actual
    refine Exact.bind (exact_readU8 _) ?_
    intro action
    refine Exact.bind exact_readStoreLogTerm ?_
    intro triple
    have hrest : ∀ action, Exact (do
        let rest ← decodeOperations n (ordinal + 1)
        pure (⟨action, triple⟩ :: rest) : Decode ρ (List CommitOperation)) := fun _ =>
      Exact.bind (ih _) fun _ => Exact.pure _
    exact Exact.ite (exact_decoderError _)
      (Exact.ite (hrest _) (Exact.ite (hrest _) (exact_decoderError _)))

theorem exact_readRecord : Exact (readRecord : Decode ρ TransactionRecord) := by
  refine Exact.bind (Exact.bind (exact_readI64Le _) fun _ =>
    Exact.bind (exact_readU32Le _) fun _ => Exact.pure _) ?_
  intro head
  exact Exact.ite (exact_decoderError _) (Exact.ite (exact_decoderError _)
    (Exact.bind (exact_decodeOperations _ _) fun _ => Exact.pure _))

end

/-- What decodes was read to its end. -/
theorem decodeRecordPayload_reads {payload : List UInt8} {record : TransactionRecord}
    (h : decodeRecordPayload payload = .ok record) :
    ∃ state, (readRecord : Decode Unit TransactionRecord) ⟨payload, ⟨0, ()⟩⟩
      = .ok (record, ⟨[], state⟩) := by
  unfold decodeRecordPayload at h
  by_cases hlen : payload.length < 12
  · rw [if_pos hlen] at h
    cases h
  rw [if_neg hlen] at h
  cases hr : (readRecord : Decode Unit TransactionRecord) ⟨payload, ⟨0, ()⟩⟩ with
  | error failure =>
    rw [hr] at h
    cases h
  | ok out =>
    obtain ⟨record', rest, state⟩ := out
    rw [hr] at h
    by_cases hrest : rest = []
    · subst hrest
      cases h
      exact ⟨state, rfl⟩
    · have h : (if rest ≠ [] then _ else _) = _ := h
      rw [if_pos hrest] at h
      cases h

/-- **A payload does not decode when a part of it already does.** -/
theorem decodeRecordPayload_once {payload more : List UInt8} {record record' : TransactionRecord}
    (h : decodeRecordPayload payload = .ok record)
    (h' : decodeRecordPayload (payload ++ more) = .ok record') : more = [] := by
  obtain ⟨state, hr⟩ := decodeRecordPayload_reads h
  obtain ⟨state', hr'⟩ := decodeRecordPayload_reads h'
  exact exact_readRecord.ends_once hr hr'

/-! ### Where a change is taken for a torn tail -/

/-- Where the records of some bytes start. -/
def recordStarts (maxPayload : Nat) (rest : List UInt8) : List Nat :=
  match _h : frameAt maxPayload rest with
  | .record payload _ after =>
    0 :: (recordStarts maxPayload after).map (· + (payload.length + 8))
  | _ => []
termination_by rest.length
decreasing_by exact frameAt_after_lt (by assumption)

theorem recordStarts_record {mx : Nat} {rest payload after : List UInt8} {storedCrc : Nat}
    (h : frameAt mx rest = .record payload storedCrc after) :
    recordStarts mx rest = 0 :: (recordStarts mx after).map (· + (payload.length + 8)) := by
  conv_lhs => rw [recordStarts]
  split
  · rename_i hf
    rw [hf] at h
    cases h
    rfl
  · rename_i hf
    exact absurd h (hf _ _ _)

/-- The changed byte lies in the length of a record, and the length that is there now is one a
    reader takes and runs past the end of the bytes. -/
def TakenAsTorn (maxPayload : Nat) (rest changed : List UInt8) (position : Nat) : Prop :=
  ∃ start ∈ recordStarts maxPayload rest, start ≤ position ∧ position < start + 4 ∧
    u32LeAt changed start ≤ maxPayload ∧ changed.length < start + u32LeAt changed start + 8

instance (maxPayload : Nat) (rest changed : List UInt8) (position : Nat) :
    Decidable (TakenAsTorn maxPayload rest changed position) := by
  unfold TakenAsTorn
  infer_instance

section

variable {mx : Nat} {rest payload after : List UInt8} {storedCrc p : Nat}

/-- A change in the first length is taken for a torn tail when the walk now stops there. -/
theorem takenAsTorn_first (h : frameAt mx rest = .record payload storedCrc after)
    {c : List UInt8} (hlen : c.length = rest.length) (hp : p < 4) :
    TakenAsTorn mx rest c p ↔ frameAt mx c = .torn := by
  obtain ⟨hl, -⟩ := frameAt_lengths h
  have ht : frameAt mx c = .torn ↔ u32LeAt c 0 ≤ mx ∧ c.length < u32LeAt c 0 + 8 := by
    unfold frameAt
    rw [if_neg (by omega), if_neg (by omega)]
    dsimp only
    by_cases ho : u32LeAt c 0 > mx
    · rw [if_pos ho]
      exact ⟨nofun, fun h => absurd ho (Nat.not_lt.mpr h.1)⟩
    · rw [if_neg ho]
      by_cases hs : c.length < u32LeAt c 0 + 8
      · rw [if_pos hs]
        exact ⟨fun _ => ⟨Nat.not_lt.mp ho, hs⟩, fun _ => rfl⟩
      · rw [if_neg hs]
        exact ⟨nofun, fun h => absurd h.2 hs⟩
  rw [ht]
  unfold TakenAsTorn
  rw [recordStarts_record h]
  constructor
  · intro ⟨start, hmem, hle, _, hread, hpast⟩
    rcases mem_cons.mp hmem with hz | hlater
    · rw [hz, Nat.zero_add] at hpast
      rw [hz] at hread
      exact ⟨hread, hpast⟩
    · obtain ⟨la, -, heq⟩ := mem_map.mp hlater
      omega
  · intro ⟨hread, hpast⟩
    exact ⟨0, mem_cons_self .., Nat.zero_le _, by omega, hread, by omega⟩

/-- A change past the first record is taken for a torn tail when it is one in what follows. -/
theorem takenAsTorn_later {lb cb : List UInt8} (changedAfter : List UInt8)
    (h : Framed rest lb payload cb after)
    (hfrm : frameAt mx rest = .record payload storedCrc after) (p : Nat) :
    TakenAsTorn mx rest (lb ++ (payload ++ (cb ++ changedAfter))) (payload.length + 8 + p)
      ↔ TakenAsTorn mx after changedAfter p := by
  have hfr : (lb ++ payload ++ cb).length = payload.length + 8 := by
    simp only [length_append, h.length, h.check]
    omega
  have hsp : lb ++ (payload ++ (cb ++ changedAfter))
      = lb ++ payload ++ cb ++ changedAfter := by simp
  have hr : ∀ start, u32LeAt (lb ++ (payload ++ (cb ++ changedAfter)))
      (payload.length + 8 + start) = u32LeAt changedAfter start := by
    intro start
    unfold u32LeAt
    rw [hsp, ← hfr, bytesAt_back]
  have hlen : (lb ++ (payload ++ (cb ++ changedAfter))).length
      = payload.length + 8 + changedAfter.length := by
    rw [hsp, length_append, hfr]
  unfold TakenAsTorn
  rw [recordStarts_record hfrm, hlen]
  constructor
  · intro ⟨start, hmem, hle, hlt, hmax, hpast⟩
    rcases mem_cons.mp hmem with hz | hlater
    · omega
    · obtain ⟨la, hin, heq⟩ := mem_map.mp hlater
      have heq : payload.length + 8 + la = start := by
        rw [← heq]
        exact Nat.add_comm ..
      subst heq
      rw [hr] at hmax hpast
      exact ⟨la, hin, by omega, by omega, hmax, by omega⟩
  · intro ⟨la, hin, hle, hlt, hmax, hpast⟩
    refine ⟨payload.length + 8 + la, ?_, by omega, by omega, by rw [hr]; exact hmax, ?_⟩
    · refine mem_cons_of_mem _ (mem_map.mpr ⟨la, hin, ?_⟩)
      exact Nat.add_comm ..
    · rw [hr]
      omega

/-- A change in the payload or the check of the first record is not taken for a torn tail. -/
theorem takenAsTorn_within (h : frameAt mx rest = .record payload storedCrc after)
    {c : List UInt8} (hlow : 4 ≤ p) (hh : p < payload.length + 8) :
    ¬TakenAsTorn mx rest c p := by
  intro ⟨start, hmem, hle, hlt, _, _⟩
  rw [recordStarts_record h] at hmem
  rcases mem_cons.mp hmem with hz | hlater
  · omega
  · obtain ⟨la, -, heq⟩ := mem_map.mp hlater
    omega

end

/-! ### One changed byte -/

section

variable {mx : Nat} {rest lb payload cb after : List UInt8}
  {record : TransactionRecord}

/-- A changed length is met by an error, unless the walk now stops at a torn tail. -/
theorem logRecords_changed_length (h : Framed rest lb payload cb after)
    (hdec : decodeRecordPayload payload = .ok record) {lb' : List UInt8}
    (hlen : lb'.length = 4) (hne : lb' ≠ lb)
    (ht : frameAt mx (lb' ++ (payload ++ (cb ++ after))) ≠ .torn) :
    logRecords mx (lb' ++ (payload ++ (cb ++ after))) = none := by
  cases hf : frameAt mx (lb' ++ (payload ++ (cb ++ after))) with
  | ended =>
    have := congrArg List.length (frameAt_ended.mp hf)
    rw [length_append, hlen, length_nil] at this
    omega
  | short =>
    have := frameAt_short hf
    rw [length_append, hlen] at this
    omega
  | torn => exact absurd hf ht
  | oversized => exact logRecords_oversized hf
  | record pl' sc' a' =>
    obtain ⟨first, s, hfr, -⟩ := frameAt_framed hf
    obtain ⟨hfst, hr⟩ := append_inj hfr.split (hlen.trans hfr.length.symm)
    subst hfst
    have hdi : pl'.length ≠ payload.length := by
      intro heq
      rw [← hfr.value, ← h.value] at heq
      exact hne (leValue_injective (hlen.trans h.length.symm) heq)
    have href : ∀ record', decodeRecordPayload pl' ≠ .ok record' := by
      intro record' hok
      rcases append_eq_append_iff.mp hr with ⟨more, heq, -⟩ | ⟨more, heq, -⟩
      · rw [heq] at hok
        have hnil := decodeRecordPayload_once hdec hok
        rw [heq, hnil, append_nil] at hdi
        exact hdi rfl
      · rw [heq] at hdec
        have hnil := decodeRecordPayload_once hok hdec
        rw [heq, hnil, append_nil] at hdi
        exact hdi rfl
    rw [logRecords_record hf]
    by_cases hcrc : sc' ≠ crc32 pl'
    · exact if_pos hcrc
    · rw [if_neg hcrc]
      cases hd : decodeRecordPayload pl' with
      | error f => rfl
      | ok record' => exact absurd hd (href record')

end

theorem crc32_changed {pre after : List UInt8} {byte byte' : UInt8} (hne : byte ≠ byte') :
    crc32 (pre ++ byte :: after) ≠ crc32 (pre ++ byte' :: after) := by
  intro h
  exact Crc.check_changed (by decide) (by decide) hne (BitVec.eq_of_toNat_eq h)

theorem length_changed (pre after : List UInt8) (byte byte' : UInt8) :
    (pre ++ byte' :: after).length = (pre ++ byte :: after).length := by
  rw [length_append, length_append, length_cons, length_cons]

section

variable {mx : Nat} {rest lb payload cb after pre more : List UInt8}
  {byte byte' : UInt8}

/-- A payload and a check that do not match are an error. -/
theorem logRecords_mismatch (h : Framed rest lb payload cb after)
    (hmax : payload.length ≤ mx) (hne : leValue cb ≠ crc32 payload) :
    logRecords mx rest = none := by
  rw [logRecords_record (h.frameAt_eq hmax), if_pos hne]

theorem logRecords_changed_payload (h : Framed rest lb (pre ++ byte :: more) cb after)
    (hmax : (pre ++ byte :: more).length ≤ mx)
    (hc : leValue cb = crc32 (pre ++ byte :: more)) (hne : byte ≠ byte') :
    logRecords mx (lb ++ ((pre ++ byte' :: more) ++ (cb ++ after))) = none := by
  have hs := length_changed pre more byte byte'
  refine logRecords_mismatch ⟨rfl, h.length, h.check, h.value.trans hs.symm⟩ (hs.trans_le hmax) ?_
  rw [hc]
  exact crc32_changed hne

theorem logRecords_changed_check (h : Framed rest lb payload (pre ++ byte :: more) after)
    (hmax : payload.length ≤ mx)
    (hc : leValue (pre ++ byte :: more) = crc32 payload) (hne : byte ≠ byte') :
    logRecords mx (lb ++ (payload ++ ((pre ++ byte' :: more) ++ after))) = none := by
  have hs := length_changed pre more byte byte'
  refine logRecords_mismatch ⟨rfl, h.length, hs.trans h.check, h.value⟩ hmax ?_
  intro heq
  rw [← hc] at heq
  have hbs := leValue_injective hs heq
  exact hne (List.cons.inj (append_cancel_left hbs)).1.symm

/-- What follows a record is read after it, whatever it is. -/
theorem logRecords_changed_after {record : TransactionRecord}
    (h : Framed rest lb payload cb after) (hmax : payload.length ≤ mx)
    (hc : leValue cb = crc32 payload)
    (hdec : decodeRecordPayload payload = .ok record) (changedAfter : List UInt8) :
    logRecords mx (lb ++ (payload ++ (cb ++ changedAfter)))
      = (logRecords mx changedAfter).map fun (rcs, n) =>
          (record :: rcs, payload.length + 8 + n) := by
  have hf : Framed (lb ++ (payload ++ (cb ++ changedAfter))) lb
      payload cb changedAfter := ⟨rfl, h.length, h.check, h.value⟩
  rw [logRecords_record (hf.frameAt_eq hmax), if_neg (fun hne => hne hc), hdec]

end

/-- Where the byte in the middle of one split falls in another. -/
theorem split_change {pre after fr b : List UInt8} {byte : UInt8}
    (h : pre ++ byte :: after = fr ++ b) :
    (∃ more, fr = pre ++ byte :: more ∧ after = more ++ b) ∨
      ∃ more, pre = fr ++ more ∧ b = more ++ byte :: after := by
  rcases append_eq_append_iff.mp h with ⟨more, hfr, hb⟩ | ⟨more, hpre, hb⟩
  · cases more with
    | nil =>
      refine Or.inr ⟨[], ?_, hb.symm⟩
      rw [hfr, append_nil, append_nil]
    | cons first more =>
      obtain ⟨rfl, hp⟩ := List.cons.inj hb
      exact Or.inl ⟨more, hfr, hp⟩
  · exact Or.inr ⟨more, hpre, hb⟩

/-- **One changed byte of a log's records is an error, or cuts the log at the record it is in.** -/
theorem logRecords_changed {mx : Nat} (rest : List UInt8) :
    ∀ (rcs : List TransactionRecord), logRecords mx rest = some (rcs, rest.length) →
      ∀ (pre after : List UInt8) (byte byte' : UInt8), rest = pre ++ byte :: after → byte ≠ byte' →
          if TakenAsTorn mx rest (pre ++ byte' :: after) pre.length then
            ∃ k n, k < rcs.length ∧ logRecords mx (pre ++ byte' :: after) = some (rcs.take k, n)
          else logRecords mx (pre ++ byte' :: after) = none := by
  induction rest using log_induction mx with
  | stops rest hst =>
    intro rcs h pre after byte byte' hr
    rw [logRecords_stops hst] at h
    have hz : 0 = rest.length := congrArg Prod.snd (Option.some.inj h)
    rw [hr, length_append, length_cons] at hz
    omega
  | oversized rest hf =>
    intro rcs h
    rw [logRecords_oversized hf] at h
    cases h
  | record rest payload storedCrc after hf ih =>
    intro rcs h pre b byte byte' hr hne
    obtain ⟨lb, cb, hfr, hval⟩ := frameAt_framed hf
    obtain ⟨hle, hmax⟩ := frameAt_lengths hf
    rw [logRecords_record hf] at h
    by_cases hcrc : storedCrc ≠ crc32 payload
    · rw [if_pos hcrc] at h
      cases h
    rw [if_neg hcrc] at h
    cases hdec : decodeRecordPayload payload with
    | error fl =>
      rw [hdec] at h
      cases h
    | ok record =>
      rw [hdec] at h
      obtain ⟨⟨la, n⟩, hla, heq⟩ := Option.map_eq_some_iff.mp h
      obtain ⟨hrec, hn⟩ := Prod.mk.inj heq
      have hc : leValue cb = crc32 payload := hval.trans (Decidable.not_not.mp hcrc)
      have hl := hfr.length
      have hch := hfr.check
      have hs := hfr.split
      have hlen : (pre ++ byte' :: b).length = rest.length := by
        rw [hr, length_changed _ _ byte byte']
      rw [hr] at hs
      rcases split_change hs with ⟨more, hfst, rfl⟩ | ⟨s, rfl, hb⟩
      · -- The length: the walk stops here, or frames bytes that do not decode.
        have hfo : pre.length < 4 := by
          rw [← hl, hfst, length_append, length_cons]
          omega
        by_cases hto : frameAt mx (pre ++ byte' :: (more ++ (payload ++ (cb ++ after)))) = .torn
        · rw [if_pos ((takenAsTorn_first hf hlen hfo).mpr hto)]
          refine ⟨0, 0, ?_, logRecords_stops (by rw [hto]; trivial)⟩
          rw [← hrec, length_cons]
          omega
        · rw [if_neg fun ht => hto ((takenAsTorn_first hf hlen hfo).mp ht)]
          rw [← cons_append, ← append_assoc] at hto ⊢
          refine logRecords_changed_length hfr hdec ?_ ?_ hto
          · rw [← hl, hfst, length_changed _ _ byte byte']
          · intro heq
            rw [hfst] at heq
            exact hne (List.cons.inj (append_cancel_left heq)).1.symm
      rw [append_assoc, length_append]
      rcases split_change hb.symm with ⟨more, rfl, rfl⟩ | ⟨t, rfl, hchk⟩
      · -- The payload: its check no longer matches.
        rw [if_neg (takenAsTorn_within hf (by omega) (by rw [length_append]; omega)),
          ← cons_append, ← append_assoc s]
        exact logRecords_changed_payload hfr hmax hc hne
      rw [append_assoc, length_append]
      rcases split_change hchk.symm with ⟨more, rfl, rfl⟩ | ⟨f, rfl, hp⟩
      · -- The check: it no longer matches the payload.
        rw [length_append, length_cons] at hch
        rw [if_neg (takenAsTorn_within hf (by omega) (by omega)), ← cons_append, ← append_assoc t]
        exact logRecords_changed_check hfr hmax hc hne
      · -- What follows: this record is read as before.
        have hw : n = after.length := by omega
        rw [hw] at hla
        have hfol := ih la hla f b byte byte' hp hne
        have hre := logRecords_changed_after hfr hmax hc hdec (f ++ byte' :: b)
        have ht := takenAsTorn_later (f ++ byte' :: b) hfr hf f.length
        rw [append_assoc, length_append,
          show lb.length + (payload.length + (cb.length + f.length))
            = payload.length + 8 + f.length by omega]
        by_cases h : TakenAsTorn mx after (f ++ byte' :: b) f.length
        · rw [if_pos h] at hfol
          obtain ⟨k, m, hke, hk⟩ := hfol
          rw [if_pos (ht.mpr h), hre, hk, ← hrec]
          exact ⟨k + 1, payload.length + 8 + m, Nat.succ_lt_succ hke, rfl⟩
        · rw [if_neg h] at hfol
          rw [if_neg fun h' => h (ht.mp h'), hre, hfol]
          rfl

/-! ### One changed byte of a whole log -/

section

variable {bs c : List UInt8}

theorem bytesAt_same {n : Nat} (h : c.take n = bs.take n) {p width : Nat}
    (hn : p + width ≤ n) : bytesAt c p width = bytesAt bs p width := by
  have htake : ∀ xs : List UInt8, bytesAt xs p width = bytesAt (xs.take n) p width := by
    intro xs
    unfold bytesAt
    rw [drop_take, take_take, Nat.min_eq_left (by omega)]
  rw [htake, h, ← htake]

/-- A header is read from its own bytes. -/
theorem bootHeader_same {maxSpaceBytes : Nat} {flagsSupported : Nat → Bool}
    {csid : String} (hlen : c.length = bs.length)
    (h : c.take (headerEnd bs) = bs.take (headerEnd bs)) :
    bootHeader maxSpaceBytes flagsSupported csid c
      = bootHeader maxSpaceBytes flagsSupported csid bs := by
  have hmagic : magicAtStart c = magicAtStart bs := by
    have : bytesAt c 0 storeLogMagic.length = bytesAt bs 0 storeLogMagic.length :=
      bytesAt_same h (by unfold headerEnd minimumHeaderBytes; omega)
    unfold bytesAt at this
    unfold magicAtStart
    rw [drop_zero, drop_zero] at this
    rw [this]
  have hver : u16LeAt c storeLogMagic.length = u16LeAt bs storeLogMagic.length := by
    unfold u16LeAt
    rw [bytesAt_same h (by unfold headerEnd minimumHeaderBytes; omega)]
  have hflags : u16LeAt c (storeLogMagic.length + 2) = u16LeAt bs (storeLogMagic.length + 2) := by
    unfold u16LeAt
    rw [bytesAt_same h (by unfold headerEnd minimumHeaderBytes; omega)]
  have hspace : u32LeAt c (storeLogMagic.length + 4) = u32LeAt bs (storeLogMagic.length + 4) := by
    unfold u32LeAt
    rw [bytesAt_same h (by unfold headerEnd minimumHeaderBytes; omega)]
  have htext : bytesAt c minimumHeaderBytes (u32LeAt bs (storeLogMagic.length + 4))
      = bytesAt bs minimumHeaderBytes (u32LeAt bs (storeLogMagic.length + 4)) :=
    bytesAt_same h (Nat.le_refl _)
  unfold bootHeader headerFieldsAt
  simp only [hlen, hmagic, hver, hflags, hspace, htext]

end

/-- Flip one bit of one byte. -/
def flipBit (bytes : List UInt8) (position : Nat) (bit : Fin 8) : List UInt8 :=
  bytes.modify position (· ^^^ (1 <<< UInt8.ofNat bit))

theorem flip_ne (byte : UInt8) (bit : Fin 8) : byte ≠ byte ^^^ (1 <<< UInt8.ofNat bit) := by
  have hbit : ∀ bit : Fin 8, (1 : UInt8) <<< UInt8.ofNat bit ≠ 0 := by decide
  intro h
  exact hbit bit ((UInt8.xor_right_inj byte).mp (h.symm.trans UInt8.xor_zero.symm))

/-! ### Records lost -/

variable {l l' : Ledger} {rcs : List TransactionRecord}

theorem Ledger.replayAll_take (k : Nat)
    (h : l.replayAll rcs = some l') : ∃ l'', l.replayAll (rcs.take k) = some l'' := by
  induction rcs generalizing l k with
  | nil => exact ⟨l, by rw [take_nil]; rfl⟩
  | cons record rest ih =>
    cases k with
    | zero => exact ⟨l, rfl⟩
    | succ k =>
      obtain ⟨m, hrec, hr⟩ := Option.bind_eq_some_iff.mp h
      obtain ⟨l'', hk⟩ := ih k hr
      exact ⟨l'', by rw [take_succ_cons, Ledger.replayAll, hrec]; exact hk⟩

theorem Ledger.replayAll_length (h : l.replayAll rcs = some l') :
    l'.history.length = l.history.length + rcs.length := by
  induction rcs generalizing l with
  | nil =>
    cases h
    rfl
  | cons record rest ih =>
    obtain ⟨m, hrec, hr⟩ := Option.bind_eq_some_iff.mp h
    unfold Ledger.replay at hrec
    split at hrec
    · cases hrec
      rw [ih hr]
      unfold Ledger.commit Ledger.append
      rw [length_append, length_cons]
      exact Nat.add_right_comm ..
    · cases hrec

theorem transactionRowsFrom_length (first : Nat) (ts : List Transaction) :
    (transactionRowsFrom first ts).length = ts.length := by
  induction ts generalizing first with
  | nil => rfl
  | cons t ts ih => exact congrArg Nat.succ (ih _)

section

variable {H : Hashing}

/-- Stores that hold histories of different lengths are told apart by their dumps. -/
theorem not_same_of_length {a b : Root} {l l' : Ledger} (ha : Holds H a l) (hb : Holds H b l')
    (hne : l'.history.length ≠ l.history.length) : ¬SameStore H a b := by
  intro hs
  have hd : l.dump = l'.dump := ha.dump.symm.trans (hs.dump.trans hb.dump)
  have hr : l.transactions = l'.transactions := congrArg TermStoreDump.transactions hd
  have hlen := congrArg List.length hr
  unfold Ledger.transactions at hlen
  rw [transactionRowsFrom_length, transactionRowsFrom_length] at hlen
  exact hne hlen.symm

variable (H)

/-- A boot of the changed bytes reports an error, or yields the store of the unchanged ones. -/
def NotSilentlyAccepted (configuredSpaceId : String) (bytes changed : List UInt8) : Prop :=
  (∃ message, consumeTransactionLogHeader H configuredSpaceId changed = .error (.error message)) ∨
    ∃ stream stream', consumeTransactionLogHeader H configuredSpaceId bytes = .ok stream ∧
      consumeTransactionLogHeader H configuredSpaceId changed = .ok stream' ∧
      SameStore H stream.store stream'.store

/-- The flipped bit lies in the length of a record, and the reader takes the record that now
    starts there for a torn tail. -/
def FlipTakenAsTorn (bytes : List UInt8) (position : Nat) (bit : Fin 8) : Prop :=
  TakenAsTorn storeLogStreamMaxPayloadBytes (bytes.drop (headerEnd bytes))
    ((flipBit bytes position bit).drop (headerEnd bytes)) (position - headerEnd bytes)

instance (bytes : List UInt8) (position : Nat) (bit : Fin 8) :
    Decidable (FlipTakenAsTorn bytes position bit) := by
  unfold FlipTakenAsTorn
  infer_instance

variable {H}

variable {csid : String} {stream : BootStream}

/-- What the boot of a whole log and the boot of a flipped one make of it. -/
theorem boot_flipped {bs : List UInt8} (hb : consumeTransactionLogHeader H csid bs = .ok stream)
    (hw : stream.validLogBytes = bs.length) {p : Nat}
    (hlow : headerEnd bs ≤ p) (hh : p < bs.length) (bit : Fin 8) :
    if FlipTakenAsTorn bs p bit then
      ∃ st', consumeTransactionLogHeader H csid (flipBit bs p bit)
        = .ok st' ∧ ¬SameStore H stream.store st'.store
    else ∃ msg, consumeTransactionLogHeader H csid (flipBit bs p bit) = .error (.error msg) := by
  have hne : bs ≠ [] := by
    rintro rfl
    exact absurd hh (Nat.not_lt_zero _)
  have hf : (flipBit bs p bit).length = bs.length := length_modify ..
  have hne' : flipBit bs p bit ≠ [] := by
    intro hnil
    rw [hnil, length_nil] at hf
    omega
  have hfr : (flipBit bs p bit).take (headerEnd bs) = bs.take (headerEnd bs) := by
    unfold flipBit
    rw [take_modify, modify_eq_self (by rw [length_take]; omega)]
  have hba : (flipBit bs p bit).drop (headerEnd bs)
      = (bs.drop (headerEnd bs)).modify (p - headerEnd bs)
          (· ^^^ (1 <<< UInt8.ofNat bit)) := drop_modify_of_ge _ _ _ _ hlow
  have hs := consumeTransactionLogHeader_spec (H := H) csid hne
  have hs' := consumeTransactionLogHeader_spec (H := H) csid hne'
  unfold bootLedger at hs hs'
  rw [bootHeader_same hf hfr] at hs'
  cases hhdr : bootHeader storeLogStreamMaxSpaceBytes (· = storeLogFlags) csid bs with
  | none =>
    rw [hhdr] at hs
    obtain ⟨msg, hm⟩ := hs
    rw [hb] at hm
    cases hm
  | some hd =>
    obtain ⟨-, -, hr, -⟩ := bootHeader_iff.mp hhdr
    have hend := hr.headerBytes
    have hfi := hr.fits
    rw [hhdr, Option.bind_some, hend] at hs hs'
    cases hr : logRecords storeLogStreamMaxPayloadBytes (bs.drop (headerEnd bs)) with
    | none =>
      rw [Ledger.readLog_none hr] at hs
      obtain ⟨msg, hm⟩ := hs
      rw [hb] at hm
      cases hm
    | some out =>
      obtain ⟨rcs, n⟩ := out
      cases hall : (Ledger.empty hd.spaceId).replayAll rcs with
      | none =>
        rw [Ledger.readLog_some hr, hall] at hs
        obtain ⟨msg, hm⟩ := hs
        rw [hb] at hm
        cases hm
      | some l =>
        rw [Ledger.readLog_some hr, hall] at hs
        obtain ⟨st0, hok, hhd, -, hv, -⟩ := hs
        rw [hb] at hok
        cases hok
        have hn : n = (bs.drop (headerEnd bs)).length := by
          rw [length_drop]
          omega
        rw [hn] at hr
        obtain ⟨pre, byte, after, hsp, hpos, hmo⟩ :=
          exists_of_modify (· ^^^ ((1 : UInt8) <<< UInt8.ofNat bit))
            (show p - headerEnd bs < (bs.drop (headerEnd bs)).length by
              rw [length_drop]
              omega)
        have hc := logRecords_changed _ rcs hr pre after byte _ hsp (flip_ne byte bit)
        rw [hba, hmo] at hs'
        rw [hpos] at hc
        by_cases ht : FlipTakenAsTorn bs p bit
        · rw [if_pos ht]
          unfold FlipTakenAsTorn at ht
          rw [hba, hmo] at ht
          rw [if_pos ht] at hc
          obtain ⟨k, m, hke, hk⟩ := hc
          obtain ⟨l', hl'⟩ := Ledger.replayAll_take k hall
          rw [Ledger.readLog_some hk, hl'] at hs'
          obtain ⟨st', hok', hhd', -⟩ := hs'
          refine ⟨st', hok', not_same_of_length hhd hhd' ?_⟩
          rw [Ledger.replayAll_length hall, Ledger.replayAll_length hl', length_take]
          omega
        · rw [if_neg ht]
          unfold FlipTakenAsTorn at ht
          rw [hba, hmo] at ht
          rw [if_neg ht] at hc
          rw [Ledger.readLog_none hc] at hs'
          exact hs'

/-- A changed log that boots to another store is silently accepted. -/
theorem silently_accepted {bs c : List UInt8} {st' : BootStream}
    (hok : consumeTransactionLogHeader H csid bs = .ok stream)
    (hok' : consumeTransactionLogHeader H csid c = .ok st')
    (hd : ¬SameStore H stream.store st'.store) :
    ¬NotSilentlyAccepted H csid bs c := by
  intro hdet
  rcases hdet with ⟨m, hm⟩ | ⟨pre, after, hpre, hp, hs⟩
  · rw [hok'] at hm
    cases hm
  · rw [hok] at hpre
    rw [hok'] at hp
    cases hpre
    cases hp
    exact hd hs

/-- **A flipped bit after the header is not silently accepted**, unless it lies in the length of
    a record, and the length that is there now runs past the end of the log. -/
theorem flipped_bit_not_silently_accepted {configuredSpaceId : String} {bytes : List UInt8}
    {stream : BootStream}
    (hboot : consumeTransactionLogHeader H configuredSpaceId bytes = .ok stream)
    (hwhole : stream.validLogBytes = bytes.length) {position : Nat}
    (hlow : headerEnd bytes ≤ position) (hhigh : position < bytes.length) (bit : Fin 8) :
    NotSilentlyAccepted H configuredSpaceId bytes (flipBit bytes position bit) ↔
      ¬FlipTakenAsTorn bytes position bit := by
  have hf := boot_flipped hboot hwhole hlow hhigh bit
  by_cases ht : FlipTakenAsTorn bytes position bit
  · rw [if_pos ht] at hf
    obtain ⟨st', hok', hd⟩ := hf
    exact ⟨fun hdet => absurd hdet (silently_accepted hboot hok' hd),
      fun hnot => absurd ht hnot⟩
  · rw [if_neg ht] at hf
    exact ⟨fun _ => ht, fun _ => Or.inl hf⟩

end

/-! ### A log of one record -/

theorem flipped_payload_reported :
    NotSilentlyAccepted Hashing.fnv "s" greetingLog (flipBit greetingLog 25 0) := by
  obtain ⟨stream, hok, hw⟩ := greetingLog_boots Hashing.fnv
  obtain ⟨payload, storedCrc, hpay, hfrm⟩ := greetingLog_frame
  refine (flipped_bit_not_silently_accepted hok hw (show headerEnd greetingLog ≤ 25 by
    decide) (by decide) 0).mpr ?_
  have hend : headerEnd greetingLog = 17 := by decide
  exact takenAsTorn_within hfrm (by omega) (by omega)

/-- Bit 5 of the first length byte makes the only record a torn tail. -/
theorem flipped_length_silently_accepted :
    ∃ stream, consumeTransactionLogHeader Hashing.fnv "s" greetingLog = .ok stream ∧
      stream.validLogBytes = greetingLog.length ∧
      ¬NotSilentlyAccepted Hashing.fnv "s" greetingLog (flipBit greetingLog 17 5) := by
  obtain ⟨stream, hok, hw⟩ := greetingLog_boots Hashing.fnv
  obtain ⟨payload, storedCrc, -, hfrm⟩ := greetingLog_frame
  have hf := boot_flipped hok hw (show headerEnd greetingLog ≤ 17 by decide) (by decide) 5
  have ht : FlipTakenAsTorn greetingLog 17 5 := by
    refine (takenAsTorn_first hfrm ?_ (by decide)).mpr (by decide)
    rw [length_drop, length_drop]
    exact congrArg (· - _) (length_modify ..)
  rw [if_pos ht] at hf
  obtain ⟨st', hok', hd⟩ := hf
  exact ⟨stream, hok, hw, silently_accepted hok hok' hd⟩

end Beagle.Store
