/-
The boot of a chain leaves what the chain says.
-/
import Beagle.Proofs.Booting

namespace Beagle.Store

open Beagle.Lib

section

variable {H : Hashing}

/-! ### The records of a member -/

theorem foldChain_ended (iss : Bool) (rt : Root) (first : Bool) (f : ChainFold) :
    foldChainRecords H iss rt first f [] = .ok (rt, { f with torn := false }) := by
  rw [foldChainRecords]
  rfl

theorem foldChain_torn (iss : Bool) (rt : Root) (first : Bool) (f : ChainFold)
    {r : List UInt8} (h : (frameAt storeLogStreamMaxPayloadBytes r).stops) (hne : r ≠ []) :
    foldChainRecords H iss rt first f r = if iss then
          .error (.error "Store transaction log segment ends inside a transaction record")
        else .ok (rt, { f with torn := true }) := by
  rw [foldChainRecords]
  split <;> rename_i hf
  · exact absurd (frameAt_ended.mp hf) hne
  · rfl
  · rw [hf] at h
    exact absurd h id
  · rfl
  · rw [hf] at h
    exact absurd h id

theorem foldChain_oversized (iss : Bool) (rt : Root) (first : Bool) (f : ChainFold)
    {r : List UInt8} (h : frameAt storeLogStreamMaxPayloadBytes r = .oversized) :
    foldChainRecords H iss rt first f r = .error (.error oversizedMessage) := by
  rw [foldChainRecords]
  split <;> rename_i hf <;> rw [hf] at h <;> first | rfl | cases h

theorem foldChain_record (iss : Bool) (rt : Root) (first : Bool) (f : ChainFold)
    {r pl after : List UInt8} {sc : Nat}
    (h : frameAt storeLogStreamMaxPayloadBytes r = .record pl sc after) :
    foldChainRecords H iss rt first f r = if sc ≠ crc32 pl then .error (.error crcMessage)
        else
          match decodeRecordPayload pl with
          | .error (.error message) =>
            .error (.error ("Store transaction log record decode failed: " ++ message))
          | .error (.fault fault) => .error (.fault fault)
          | .ok record =>
            match replayTransactionResult H rt record with
            | .error fault => .error (.fault fault)
            | .ok (.error refused) =>
              .error (.error (refused.message.getD notAdvancingMessage))
            | .ok (.ok replayed) =>
              foldChainRecords H iss replayed false
                { validBytes := f.validBytes + (pl.length + 8)
                  startSequence :=
                    if first then record.sequence.toInt else f.startSequence
                  endSequence := record.sequence.toInt
                  torn := false } after := by
  conv_lhs => rw [foldChainRecords]
  split <;> rename_i hf <;> rw [hf] at h <;> cases h
  rfl

/-- What a fold of records leaves. -/
structure Folded (H : Hashing) (root root' : Root) (l' : Ledger) : Prop where
  holds : Holds H root' l'
  wf : l'.Wf
  foldOpen : root'.store.foldOpen = root.store.foldOpen

/-- The fold of a member after `records` that took `taken` bytes, of `size` that there were. -/
def ChainFold.after (fold : ChainFold) (first : Bool) (records : List TransactionRecord)
    (taken size : Nat) : ChainFold :=
  { validBytes := fold.validBytes + taken
    startSequence := if first then startOf fold.startSequence records else fold.startSequence
    endSequence := endOf fold.endSequence records
    torn := taken < size }

theorem ChainFold.after_cons (f : ChainFold) (first : Bool) (rc : TransactionRecord)
    (rcs : List TransactionRecord) {w tk n size' : Nat}
    (h : w + tk < n ↔ tk < size') :
    f.after first (rc :: rcs) (w + tk) n = ChainFold.after
          { validBytes := f.validBytes + w
            startSequence := if first then rc.sequence.toInt else f.startSequence
            endSequence := rc.sequence.toInt
            torn := false } false rcs tk size' := by
  unfold ChainFold.after
  rw [Nat.add_assoc, decide_eq_decide.mpr h]
  cases first <;> rfl

/-- What folding some bytes makes of what they say; a torn one is refused when it is sealed. -/
def FoldedAs (H : Hashing) (isSealed : Bool) (root : Root) (first : Bool) (fold : ChainFold)
    (l : Ledger) (rest : List UInt8) (result : Except Failure (Root × ChainFold)) :
    Option (List TransactionRecord × Nat) → Prop
  | none => ∃ failure, result = .error failure
  | some (records, taken) =>
    match l.replayAll records with
    | none => ∃ failure, result = .error failure
    | some l' =>
      if isSealed ∧ taken < rest.length then ∃ failure, result = .error failure
      else ∃ root', result = .ok (root', fold.after first records taken rest.length) ∧
        Folded H root root' l'

/-- **Folding the records of a member takes what they say.** -/
theorem foldChainRecords_spec (iss : Bool) (r : List UInt8) :
    ∀ (rt : Root) (first : Bool) (f : ChainFold) (l : Ledger), Holds H rt l → l.Wf →
      FoldedAs H iss rt first f l r (foldChainRecords H iss rt first f r)
        (logRecords storeLogStreamMaxPayloadBytes r) := by
  induction r using log_induction storeLogStreamMaxPayloadBytes with
  | stops r hst =>
    intro rt first f l h hwf
    rw [logRecords_stops hst]
    unfold FoldedAs
    show if iss ∧ 0 < r.length then _ else _
    by_cases hne : r = []
    · subst hne
      rw [foldChain_ended, if_neg fun h => Nat.lt_irrefl _ h.2]
      refine ⟨rt, ?_, h, hwf, rfl⟩
      cases first <;> rfl
    · have hpos : 0 < r.length := List.length_pos_iff.mpr hne
      rw [foldChain_torn iss rt first f hst hne]
      cases iss with
      | true =>
        rw [if_pos ⟨rfl, hpos⟩, if_pos rfl]
        exact ⟨_, rfl⟩
      | false =>
        rw [if_neg fun h => Bool.false_ne_true h.1, if_neg Bool.false_ne_true]
        refine ⟨rt, ?_, h, hwf, rfl⟩
        unfold ChainFold.after
        rw [decide_eq_true hpos]
        cases first <;> rfl
  | oversized r hf =>
    intro rt first f l h hwf
    rw [logRecords_oversized hf, foldChain_oversized iss rt first f hf]
    exact ⟨_, rfl⟩
  | record r pl sc a hf ih =>
    intro rt first f l h hwf
    rw [logRecords_record hf, foldChain_record iss rt first f hf]
    by_cases hcrc : sc ≠ crc32 pl
    · rw [if_pos hcrc, if_pos hcrc]
      exact ⟨_, rfl⟩
    rw [if_neg hcrc, if_neg hcrc]
    cases hd : decodeRecordPayload pl with
    | error e => cases e <;> exact ⟨_, rfl⟩
    | ok record =>
      have hv := decodeRecordPayload_valid hd
      have hsp := replayTransactionResult_spec h hv
      dsimp only
      cases hrep : l.replay record with
      | none =>
        rw [hrep] at hsp
        obtain ⟨re, hr⟩ := hsp
        rw [hr]
        cases logRecords storeLogStreamMaxPayloadBytes a with
        | none => exact ⟨_, rfl⟩
        | some out =>
          unfold FoldedAs
          simp only [Option.map_some, Ledger.replayAll, hrep, Option.bind_none]
          exact ⟨_, rfl⟩
      | some l' =>
        rw [hrep] at hsp
        obtain ⟨r', hr, hreplayed⟩ := hsp
        rw [hr]
        have hre := ih r' false ⟨f.validBytes + (pl.length + 8),
            if first then record.sequence.toInt else f.startSequence,
            record.sequence.toInt, false⟩ l' hreplayed.holds (hwf.replay hv hrep)
        cases hrea : logRecords storeLogStreamMaxPayloadBytes a with
        | none =>
          rw [hrea] at hre
          exact hre
        | some out =>
          obtain ⟨rcs, tk⟩ := out
          rw [hrea] at hre
          unfold FoldedAs at hre ⊢
          simp only [Option.map_some, Ledger.replayAll, hrep, Option.bind_some]
          have hl := (frameAt_lengths hf).1
          cases hall : l'.replayAll rcs with
          | none =>
            simp only [hall] at hre
            exact hre
          | some l'' =>
            simp only [hall] at hre
            have ht : pl.length + 8 + tk < r.length ↔ tk < a.length := by omega
            by_cases hs : iss ∧ tk < a.length
            · rw [if_pos hs] at hre
              have hs' : iss ∧ pl.length + 8 + tk < r.length :=
                ⟨hs.1, ht.mpr hs.2⟩
              simp only [if_pos hs']
              exact hre
            · rw [if_neg hs] at hre
              have hs' : ¬(iss ∧ pl.length + 8 + tk < r.length) :=
                fun h => hs ⟨h.1, ht.mp h.2⟩
              simp only [if_neg hs']
              obtain ⟨r'', hok, hfo⟩ := hre
              refine ⟨r'', ?_, hfo.holds, hfo.wf, hfo.foldOpen.trans hreplayed.foldOpen⟩
              rw [f.after_cons first record rcs ht]
              exact hok

/-! ### Members -/

/-- What folding a member makes of what it says. -/
def MemberFoldedAs (H : Hashing) (isSealed : Bool) (root : Root) (l : Ledger) (size : Nat)
    (result : Except Failure (HeaderFields × Root × ChainFold)) : Option MemberSays → Prop
  | none => ∃ failure, result = .error failure
  | some said =>
    match l.replayAll said.records with
    | none => ∃ failure, result = .error failure
    | some l' =>
      if isSealed ∧ said.valid < size then ∃ failure, result = .error failure
      else ∃ root', result
          = .ok (said.header, root', ⟨said.valid, said.start, said.stop, said.valid < size⟩) ∧
        Folded H root root' l'

variable {hd : HeaderFields} {rt : Root} {l : Ledger}

theorem foldMember_header {p : ChainPiece} (h : decodeStoreLogHeader p.bytes = .ok hd)
    (iss : Bool) (rt : Root) :
    foldMember H iss rt p = (foldChainRecords H iss rt true ⟨hd.headerBytes, 0, 0, false⟩
          (p.bytes.drop hd.headerBytes)).map (hd, ·) := by
  unfold foldMember foldChainPiece
  rw [h]
  show (foldChainRecords H iss rt true _ _ >>= fun f => .ok (hd, f)) = _
  cases foldChainRecords H iss rt true ⟨hd.headerBytes, 0, 0, false⟩
    (p.bytes.drop hd.headerBytes) <;> rfl

theorem memberSays_header {bs : List UInt8} (h : decodeStoreLogHeader bs = .ok hd) :
    memberSays bs = (logRecords storeLogStreamMaxPayloadBytes (bs.drop hd.headerBytes)).map
          fun (rcs, tk) => ⟨hd, rcs, tk⟩ := by
  unfold memberSays
  rw [h]

theorem foldMember_spec (iss : Bool) (h : Holds H rt l) (hwf : l.Wf) (p : ChainPiece) :
    MemberFoldedAs H iss rt l p.bytes.length (foldMember H iss rt p) (memberSays p.bytes) := by
  cases hhdr : decodeStoreLogHeader p.bytes with
  | error m =>
    unfold foldMember memberSays
    rw [hhdr]
    exact ⟨_, rfl⟩
  | ok hd =>
    rw [foldMember_header hhdr, memberSays_header hhdr]
    have hsp := foldChainRecords_spec iss (p.bytes.drop hd.headerBytes) rt true
      ⟨hd.headerBytes, 0, 0, false⟩ l h hwf
    cases hr : logRecords storeLogStreamMaxPayloadBytes (p.bytes.drop hd.headerBytes) with
    | none =>
      rw [hr] at hsp
      obtain ⟨f, hf⟩ := hsp
      rw [hf]
      exact ⟨f, rfl⟩
    | some out =>
      obtain ⟨rcs, tk⟩ := out
      rw [hr] at hsp
      unfold FoldedAs at hsp
      unfold MemberFoldedAs
      simp only [Option.map_some]
      cases hall : l.replayAll rcs with
      | none =>
        simp only [hall] at hsp ⊢
        obtain ⟨f, hf⟩ := hsp
        rw [hf]
        exact ⟨f, rfl⟩
      | some l' =>
        simp only [hall] at hsp ⊢
        have ht : hd.headerBytes + tk < p.bytes.length ↔
            tk < (p.bytes.drop hd.headerBytes).length := by
          rw [List.length_drop]
          omega
        by_cases hs : iss ∧ tk < (p.bytes.drop hd.headerBytes).length
        · rw [if_pos hs] at hsp
          obtain ⟨f, hf⟩ := hsp
          have hs' : iss ∧ hd.headerBytes + tk < p.bytes.length :=
            ⟨hs.1, ht.mpr hs.2⟩
          rw [hf]
          unfold MemberSays.valid
          rw [if_pos hs']
          exact ⟨f, rfl⟩
        · rw [if_neg hs] at hsp
          obtain ⟨r', hok, hfo⟩ := hsp
          have hs' : ¬(iss ∧ hd.headerBytes + tk < p.bytes.length) :=
            fun hs' => hs ⟨hs'.1, ht.mp hs'.2⟩
          rw [hok]
          unfold MemberSays.valid
          rw [if_neg hs']
          refine ⟨r', ?_, hfo⟩
          unfold ChainFold.after
          rw [← decide_eq_decide.mpr ht]
          rfl

/-! ### Chains -/

theorem foldTail_spec (h : Holds H rt l) (hwf : l.Wf) (sc : Nat) (en : Int) (t : ChainPiece) :
    BootedAs H 0 (foldTail H sc rt en t) (l.foldTail sc en t.bytes) := by
  have hsp := foldMember_spec false h hwf t
  unfold foldTail Ledger.foldTail
  cases hsa : memberSays t.bytes with
  | none =>
    rw [hsa] at hsp
    obtain ⟨f, hf⟩ := hsp
    rw [hf]
    exact ⟨f, rfl⟩
  | some s =>
    rw [hsa] at hsp
    unfold MemberFoldedAs at hsp
    rw [Option.bind_some]
    cases hall : l.replayAll s.records with
    | none =>
      simp only [hall] at hsp
      obtain ⟨f, hf⟩ := hsp
      rw [hf]
      exact ⟨f, rfl⟩
    | some l' =>
      simp only [hall] at hsp
      rw [if_neg fun hs => Bool.false_ne_true hs.1] at hsp
      obtain ⟨r', hok, hfo⟩ := hsp
      rw [hok, Option.bind_some]
      have hspa : r'.store.spaceId = l.spaceId :=
        hfo.holds.spaceId.trans (Ledger.replayAll_spaceId hall)
      show BootedAs H 0 ((pure _ : Except Failure _) >>= _) _
      rw [pure_bind]
      dsimp only
      rw [hspa]
      split
      · next m hfa =>
        replace hfa : tailMemberFault (s.asTail sc l.spaceId en) = some m := hfa
        rw [hfa, if_neg (Option.some_ne_none m)]
        exact ⟨_, rfl⟩
      · next hfa =>
        replace hfa : tailMemberFault (s.asTail sc l.spaceId en) = none := hfa
        rw [if_pos hfa]
        show BootedAs H 0 (liftFault (nextExpected s.stop en) >>= _) _
        rw [MemberSays.nextExpected_eq hall]
        obtain ⟨hok, herr⟩ := successfulBoot_spec hfo.holds hfo.wf s.valid []
        refine ⟨?_, herr⟩
        intro hn
        obtain ⟨b, hr, hb⟩ := hok hn
        exact ⟨b, hr, hb.holds, hb.closed, by rw [hb.bytes, Nat.zero_add]⟩

theorem foldMembers_spec (t : ChainPiece) (ss : List ChainPiece) :
    ∀ (i : Nat) (rt : Root) (l : Ledger) (en : Int), Holds H rt l → l.Wf →
      BootedAs H 0 (foldMembers H t i rt en ss) (Ledger.foldMembers t.bytes i l en ss) := by
  induction ss with
  | nil =>
    intro i rt l en h hwf
    exact foldTail_spec h hwf i en t
  | cons p r ih =>
    intro i rt l en h hwf
    have hs := foldMember_spec true h hwf p
    unfold foldMembers Ledger.foldMembers
    cases hsa : memberSays p.bytes with
    | none =>
      rw [hsa] at hs
      obtain ⟨f, hf⟩ := hs
      rw [hf]
      exact ⟨f, rfl⟩
    | some s =>
      rw [hsa] at hs
      unfold MemberFoldedAs at hs
      rw [Option.bind_some]
      cases hall : l.replayAll s.records with
      | none =>
        simp only [hall] at hs
        obtain ⟨f, hf⟩ := hs
        rw [hf]
        exact ⟨f, rfl⟩
      | some l' =>
        simp only [hall, true_and] at hs
        rw [Option.bind_some]
        by_cases ht : s.valid < p.bytes.length
        · rw [if_pos ht] at hs
          obtain ⟨f, hf⟩ := hs
          have hfa : sealedMemberFault (s.asSealed i l.spaceId en p) ≠ none := by
            intro hn
            exact absurd ht (decide_eq_false_iff_not.mp (sealedMemberFault_none.mp hn).2.2.2.2.1)
          rw [hf, if_neg hfa]
          exact ⟨f, rfl⟩
        rw [if_neg ht] at hs
        obtain ⟨r', hok, hfo⟩ := hs
        have hsp : r'.store.spaceId = l.spaceId :=
          hfo.holds.spaceId.trans (Ledger.replayAll_spaceId hall)
        rw [hok]
        show BootedAs H 0 ((pure _ : Except Failure _) >>= _) _
        rw [pure_bind]
        dsimp only
        rw [hsp]
        split
        · next m hfa =>
          replace hfa : sealedMemberFault (s.asSealed i l.spaceId en p) = some m := hfa
          rw [hfa, if_neg (Option.some_ne_none m)]
          exact ⟨_, rfl⟩
        · next hfa =>
          replace hfa : sealedMemberFault (s.asSealed i l.spaceId en p) = none := hfa
          rw [if_pos hfa]
          show BootedAs H 0 (liftFault (nextExpected s.stop en) >>= _) _
          rw [MemberSays.nextExpected_eq hall]
          exact ih (i + 1) r' l' (s.next en) hfo.holds hfo.wf

/-- **The boot of a chain leaves what the chain says.** -/
theorem bootStoreLogChain_spec (csid : String) (ss : List ChainPiece) (t : ChainPiece) :
    BootedAs H 0 (bootStoreLogChain H csid ss t) (chainLedger csid ss t.bytes) := by
  have hfst : ((ss ++ [t]).headD t).bytes
      = (ss.map ChainPiece.bytes ++ [t.bytes]).headD t.bytes := by
    cases ss <;> rfl
  unfold bootStoreLogChain chainLedger
  dsimp only
  rw [hfst]
  cases hhdr : decodeStoreLogHeader ((ss.map ChainPiece.bytes ++ [t.bytes]).headD t.bytes) with
  | error m => exact ⟨_, rfl⟩
  | ok hd =>
    show BootedAs H 0 (if csid ≠ "" ∧ csid ≠ hd.spaceId
      then _ else _ : Except Failure BootResult)
      (if csid ≠ "" ∧ csid ≠ hd.spaceId then none else _)
    by_cases hs : csid ≠ "" ∧ csid ≠ hd.spaceId
    · rw [if_pos hs, if_pos hs]
      exact ⟨_, rfl⟩
    · rw [if_neg hs, if_neg hs]
      have hid := (decodeStoreLogHeader_iff.mp hhdr).2.2.nonempty
      obtain ⟨rt, hr, hhd, -⟩ := newTermStoreForLog_holds (H := H) hid
        ((ss ++ [t]).map (·.bytes.length)).sum
      rw [hr]
      exact foldMembers_spec t ss 0 (openFold rt) _ 1 hhd (Ledger.empty_wf hid)

end

end Beagle.Store
