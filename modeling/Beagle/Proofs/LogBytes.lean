/-
The bytes a writer appends, as a reader sees them.

A header that was encoded is read back as its fields.  A record that was appended
is one frame, whose payload decodes to the record; and what is cut off inside it is
a torn tail.  So a log that was written says the records that were written.
-/
import Beagle.Proofs.Booting
import Beagle.Proofs.Wire

namespace Beagle.Store

open Beagle.Lib Beagle.Lib.Reader List

variable {bs pl : List UInt8} {p mp : Nat}

/-- A field between what is before it and what is after it. -/
theorem bytesAt_field (b a : List UInt8) {field : List UInt8} {w : Nat}
    (h : bs = b ++ (field ++ a)) (hp : b.length = p)
    (hw : field.length = w) : bytesAt bs p w = field := by
  subst h hp hw
  unfold bytesAt
  rw [drop_left, take_left]

theorem u32LeAt_field (b a : List UInt8) {value : Nat}
    (h : bs = b ++ (leBytes 4 value ++ a)) (hp : b.length = p)
    (hv : value < 4294967296) : u32LeAt bs p = value := by
  unfold u32LeAt
  rw [bytesAt_field b a h hp (length_leBytes _ _), leValue_leBytes (by omega)]

theorem u16LeAt_field (b a : List UInt8) {value : Nat}
    (h : bs = b ++ (leBytes 2 value ++ a)) (hp : b.length = p)
    (hv : value < 65536) : u16LeAt bs p = value := by
  unfold u16LeAt
  rw [bytesAt_field b a h hp (length_leBytes _ _), leValue_leBytes (by omega)]

/-! ### The fields of a frame -/

/-- The four fields of a record: its length, its payload, its check and what follows. -/
structure Framed (rest lengthBytes payload checkBytes after : List UInt8) : Prop where
  split : rest = lengthBytes ++ (payload ++ (checkBytes ++ after))
  length : lengthBytes.length = 4
  check : checkBytes.length = 4
  value : leValue lengthBytes = payload.length

theorem bytesAt_back {b a : List UInt8} (p width : Nat) :
    bytesAt (b ++ a) (b.length + p) width = bytesAt a p width := by
  unfold bytesAt
  rw [← drop_drop, drop_left]

theorem frameAt_framed {rs a : List UInt8} {storedCrc : Nat}
    (h : frameAt mp rs = .record pl storedCrc a) :
    ∃ lb cb, Framed rs lb pl cb a ∧ leValue cb = storedCrc := by
  unfold frameAt at h
  split at h
  · cases h
  split at h
  · cases h
  dsimp only at h
  split at h
  · cases h
  split at h
  · cases h
  rename_i hend
  cases h
  have hlen : (bytesAt rs 0 4).length = 4 := by
    unfold bytesAt
    rw [length_take, length_drop]
    omega
  have hpay : (bytesAt rs 4 (u32LeAt rs 0)).length = u32LeAt rs 0 := by
    unfold bytesAt
    rw [length_take, length_drop]
    omega
  have hc : (bytesAt rs (4 + u32LeAt rs 0) 4).length = 4 := by
    unfold bytesAt
    rw [length_take, length_drop]
    omega
  refine ⟨bytesAt rs 0 4, bytesAt rs (4 + u32LeAt rs 0) 4, ⟨?_, hlen, hc, ?_⟩, rfl⟩
  · have hp : rs.drop (u32LeAt rs 0 + 8) = ((rs.drop 4).drop (u32LeAt rs 0)).drop 4 := by
      rw [drop_drop, drop_drop]
      congr 1
      omega
    unfold bytesAt
    rw [hp, ← drop_drop, take_append_drop, take_append_drop, drop_zero, take_append_drop]
  · rw [hpay]
    rfl

theorem Framed.frameAt_eq {rs lengthBytes cb after : List UInt8}
    (h : Framed rs lengthBytes pl cb after) (hmax : pl.length ≤ mp) :
    frameAt mp rs = .record pl (leValue cb) after := by
  obtain ⟨rfl, hlen, hc, hval⟩ := h
  have hfst : u32LeAt (lengthBytes ++ (pl ++ (cb ++ after))) 0 = pl.length := by
    have hat : bytesAt (lengthBytes ++ (pl ++ (cb ++ after))) 0 4 = lengthBytes :=
      bytesAt_field [] _ rfl rfl hlen
    unfold u32LeAt
    rw [hat, hval]
  unfold frameAt
  simp only [hfst, length_append]
  rw [if_neg (by omega), if_neg (by omega), if_neg (by omega), if_neg (by omega)]
  congr 1
  · exact bytesAt_field lengthBytes _ rfl hlen rfl
  · unfold u32LeAt
    rw [bytesAt_field (lengthBytes ++ pl) after (by simp) (by simp [hlen]) hc]
  · rw [show pl.length + 8 = (lengthBytes ++ (pl ++ cb)).length by
      simp only [length_append]; omega]
    rw [← append_assoc, ← append_assoc, ← append_assoc, drop_left']
    simp

theorem frameAt_short {rs : List UInt8} (h : frameAt mp rs = .short) : rs.length < 4 := by
  unfold frameAt at h
  split at h
  · cases h
  split at h
  · assumption
  dsimp only at h
  split at h
  · cases h
  · split at h <;> cases h

/-! ### Headers -/

/-- A header, field by field. -/
def headerOf (flags : Nat) (spaceId : String) : List UInt8 :=
  storeLogMagic ++ (leBytes 2 storeLogVersion ++ (leBytes 2 flags ++
    (leBytes 4 (Utf8.encode spaceId).length ++ Utf8.encode spaceId)))

theorem length_headerOf (fls : Nat) (sid : String) :
    (headerOf fls sid).length = minimumHeaderBytes + (Utf8.encode sid).length := by
  simp only [headerOf, length_append, length_leBytes, minimumHeaderBytes]
  omega

theorem encode_ne_nil {s : String} (h : s ≠ "") : Utf8.encode s ≠ [] := by
  intro hnil
  have : s = "" := Utf8.encode_injective (hnil.trans (by decide : Utf8.encode "" = []).symm)
  exact h this

/-- What `encodeHeader` gives, and when. -/
theorem encodeHeader_ok {sid : String} {hd : List UInt8} (h : encodeHeader sid = .ok hd) :
    sid ≠ "" ∧ (Utf8.encode sid).length ≤ maxCodecCount ∧ hd = headerOf storeLogFlags sid := by
  unfold encodeHeader at h
  by_cases hs : sid = ""
  · rw [if_pos hs] at h
    cases h
  rw [if_neg hs] at h
  unfold encoded appendHeader appendSizedText at h
  by_cases hl : (Utf8.encode sid).length > maxCodecCount
  · simp only [if_pos hl] at h
    cases h
  have hf : (Utf8.encode sid).length ≤ 4294967295 := by
    unfold maxCodecCount at hl
    omega
  simp only [if_neg hl, appendU32Le, if_pos hf] at h
  refine ⟨hs, Nat.not_lt.mp hl, ?_⟩
  cases h
  simp [headerOf, append_assoc]

theorem encodeHeader_exists {sid : String} (hs : sid ≠ "")
    (hlen : (Utf8.encode sid).length ≤ maxCodecCount) :
    encodeHeader sid = .ok (headerOf storeLogFlags sid) := by
  have hf : (Utf8.encode sid).length ≤ 4294967295 := by
    unfold maxCodecCount at hlen
    omega
  unfold encodeHeader
  rw [if_neg hs]
  unfold encoded appendHeader appendSizedText
  simp only [if_neg (Nat.not_lt.mpr hlen), appendU32Le, if_pos hf]
  show Except.ok _ = _
  simp [headerOf, append_assoc]

theorem magicAtStart_headerOf (fls : Nat) (sid : String) (rs : List UInt8) :
    magicAtStart (headerOf fls sid ++ rs) = true := by
  unfold magicAtStart headerOf
  rw [append_assoc, take_left]
  exact decide_eq_true rfl

section

variable {fls : Nat} {sid : String} (rs : List UInt8)

theorem version_headerOf (fls : Nat) (sid : String) :
    u16LeAt (headerOf fls sid ++ rs) storeLogMagic.length = storeLogVersion := by
  refine u16LeAt_field storeLogMagic (leBytes 2 fls ++
    (leBytes 4 (Utf8.encode sid).length ++ (Utf8.encode sid ++ rs))) ?_ rfl (by decide)
  simp only [headerOf, append_assoc]

theorem flags_headerOf (hf : fls < 65536) :
    u16LeAt (headerOf fls sid ++ rs) (storeLogMagic.length + 2) = fls := by
  refine u16LeAt_field (storeLogMagic ++ leBytes 2 storeLogVersion)
    (leBytes 4 (Utf8.encode sid).length ++ (Utf8.encode sid ++ rs)) ?_ (by simp) hf
  simp only [headerOf, append_assoc]

theorem spaceLength_headerOf (hf : (Utf8.encode sid).length < 4294967296) :
    u32LeAt (headerOf fls sid ++ rs) (storeLogMagic.length + 4) = (Utf8.encode sid).length := by
  refine u32LeAt_field (storeLogMagic ++ (leBytes 2 storeLogVersion ++ leBytes 2 fls))
    (Utf8.encode sid ++ rs) ?_ (by simp) hf
  simp only [headerOf, append_assoc]

theorem spaceText_headerOf (fls : Nat) (sid : String) :
    bytesAt (headerOf fls sid ++ rs) minimumHeaderBytes (Utf8.encode sid).length
      = Utf8.encode sid := by
  refine bytesAt_field (storeLogMagic ++ (leBytes 2 storeLogVersion ++
    (leBytes 2 fls ++ leBytes 4 (Utf8.encode sid).length))) rs ?_
    (by simp [minimumHeaderBytes]) rfl
  simp only [headerOf, append_assoc]

theorem headerEnd_headerOf (hf : (Utf8.encode sid).length < 4294967296) :
    headerEnd (headerOf fls sid ++ rs) = (headerOf fls sid).length := by
  unfold headerEnd
  rw [spaceLength_headerOf rs hf, length_headerOf]

end

variable {msb : Nat} {fs : Nat → Bool} {csid : String}

/-- **An encoded header is read back**, unless its SpaceId is past the reader's bound. -/
theorem headerFieldsAt_headerOf {fls : Nat} {sid : String} (hs : sid ≠ "")
    (hfi : (Utf8.encode sid).length < 4294967296) (hf : fls < 65536)
    (hok : fs fls = true) (rs : List UInt8) :
    headerFieldsAt msb fs (headerOf fls sid ++ rs) = if (Utf8.encode sid).length > msb then
          .error "Store transaction log SpaceId length is invalid"
        else .ok ⟨sid, fls, minimumHeaderBytes + (Utf8.encode sid).length⟩ := by
  have hne : (Utf8.encode sid).length ≠ 0 :=
    fun h0 => encode_ne_nil hs (length_eq_zero_iff.mp h0)
  have hr : ¬(headerOf fls sid ++ rs).length < minimumHeaderBytes + (Utf8.encode sid).length := by
    rw [length_append, length_headerOf]
    omega
  unfold headerFieldsAt
  simp only [version_headerOf, flags_headerOf rs hf, spaceLength_headerOf rs hfi, hok]
  rw [if_neg (by simp)]
  by_cases hl : (Utf8.encode sid).length > msb
  · rw [if_pos hl, if_pos (Or.inr hl)]
  · rw [if_neg hl, if_neg (by omega), if_neg hr, spaceText_headerOf, Utf8.decode_encode]
    exact if_neg hs

/-- Nothing but the header is read from an encoded header. -/
theorem HeaderRead.of_headerOf {fls : Nat} {sid : String}
    (hf : (Utf8.encode sid).length < 4294967296) (hfl : fls < 65536) {rs : List UInt8}
    {hd : HeaderFields}
    (h : HeaderRead msb fs (headerOf fls sid ++ rs) hd) :
    hd = ⟨sid, fls, (headerOf fls sid).length⟩ := by
  have ht := h.text
  rw [spaceLength_headerOf rs hf, spaceText_headerOf, Utf8.decode_encode] at ht
  obtain ⟨ri, rf, rb⟩ := hd
  cases ht
  have hfr : rf = fls := h.flags.trans (flags_headerOf rs hfl)
  have hbs : rb = _ := h.headerBytes.trans (headerEnd_headerOf rs hf)
  rw [hfr, hbs]

/-- A boot reads the header it would have written, if it may boot that SpaceId. -/
theorem bootHeader_headerOf {fls : Nat} {sid : String} (hs : sid ≠ "")
    (hfi : (Utf8.encode sid).length < 4294967296) (hf : fls < 65536)
    (hok : fs fls = true)
    (hc : csid = "" ∨ csid = sid) (rs : List UInt8) :
    bootHeader msb fs csid (headerOf fls sid ++ rs) = if (Utf8.encode sid).length > msb then none
        else some ⟨sid, fls, minimumHeaderBytes + (Utf8.encode sid).length⟩ := by
  have hlen : ¬(headerOf fls sid ++ rs).length < minimumHeaderBytes := by
    rw [length_append, length_headerOf]
    omega
  unfold bootHeader
  rw [magicAtStart_headerOf, if_neg (by simpa using hlen), headerFieldsAt_headerOf hs hfi hf hok]
  by_cases hl : (Utf8.encode sid).length > msb
  · rw [if_pos hl, if_pos hl]
  · rw [if_neg hl, if_neg hl]
    refine if_neg ?_
    rintro ⟨hne, hne'⟩
    rcases hc with h | h
    · exact hne h
    · exact hne' h

/-- **A log behind its header says what its records say.** -/
theorem bootLedger_headerOf {sid : String} (hs : sid ≠ "")
    (hf : (Utf8.encode sid).length < 4294967296)
    (hc : csid = "" ∨ csid = sid) (rs : List UInt8) :
    bootLedger msb mp csid (headerOf storeLogFlags sid ++ rs)
      = if (Utf8.encode sid).length > msb then none
        else ((Ledger.empty sid).readLog mp rs).map fun (l, n) =>
          (l, (headerOf storeLogFlags sid).length + n) := by
  unfold bootLedger
  rw [bootHeader_headerOf hs hf (by decide) (by decide) hc]
  by_cases hl : (Utf8.encode sid).length > msb
  · rw [if_pos hl, if_pos hl]
    rfl
  · rw [if_neg hl, if_neg hl, ← length_headerOf storeLogFlags sid]
    show ((Ledger.empty sid).readLog mp (drop _ _)).map _ = _
    rw [drop_left]

/-! ### Payloads -/

section

variable {ρ : Type}

theorem roundTrips_resetNodes : RoundTrips (ρ := ρ) resetEncoderNodes resetNodes () := by
  intro e e' hw
  cases hw
  exact ⟨[], (append_nil _).symm, fun _ _ => rfl⟩

theorem roundTrips_storeLogTerm (t : Triple) :
    RoundTrips (ρ := ρ) (appendStoreLogTerm t) readStoreLogTerm t := by
  refine RoundTrips.bind roundTrips_resetNodes ?_
  exact (roundTrips_term _ _ _ t.term).value fun _ => Reader.Reads.pure _ _

/-- The tag of an action that is written, and what it is read back as. -/
theorem actionTag_cases {a : Action} (h : actionTag a ≠ 0) :
    (a = .assert ∧ actionTag a = 1) ∨ (a = .retract ∧ actionTag a = 2) := by
  cases a with
  | assert => exact Or.inl ⟨rfl, rfl⟩
  | retract => exact Or.inr ⟨rfl, rfl⟩
  | other _ => exact absurd rfl h

theorem RoundTrips.fails {α : Type} {w : Encode Unit} {rd : Decode ρ α} {a : α}
    (h : ∀ e out, w e ≠ .ok out) : RoundTrips w rd a :=
  fun _ _ hw => absurd hw (h _ _)

/-- **What is written for some operations is read back as those operations.** -/
theorem roundTrips_operations (operations : List CommitOperation) (n : Nat) :
    RoundTrips (ρ := ρ) (appendOperations n operations)
      (decodeOperations operations.length n) operations := by
  induction operations generalizing n with
  | nil =>
    intro e e' hw
    cases hw
    exact ⟨[], (append_nil _).symm, fun _ => Reader.Reads.pure _ _⟩
  | cons op rs ih =>
    rw [appendOperations, length_cons, decodeOperations]
    by_cases htag : actionTag op.action = 0
    · rw [if_pos htag]
      exact RoundTrips.fails fun _ _ h => by cases h
    rw [if_neg htag]
    refine RoundTrips.bind (roundTrips_u32 n _) ?_
    refine RoundTrips.bind (roundTrips_u8 (actionTag op.action) _) ?_
    refine RoundTrips.bind (roundTrips_storeLogTerm op.proposition) ?_
    rw [if_neg (fun h => h rfl)]
    obtain ⟨a, pr⟩ := op
    rcases actionTag_cases htag with ⟨rfl, ht⟩ | ⟨rfl, ht⟩
    · rw [if_pos ht]
      exact (ih (n + 1)).map fun rs => ⟨.assert, pr⟩ :: rs
    · rw [ht, if_neg (by decide), if_pos rfl]
      exact (ih (n + 1)).map fun rs => ⟨.retract, pr⟩ :: rs

end

variable {e' : Encoder}

/-- Every operation takes at least one byte. -/
theorem appendOperations_length (ops : List CommitOperation) (n : Nat)
    {e : Encoder} (h : appendOperations n ops e = .ok ((), e')) :
    e.bytes.length + ops.length ≤ e'.bytes.length := by
  induction ops generalizing n e with
  | nil =>
    cases h
    exact Nat.le_refl _
  | cons op rs ih =>
    rw [appendOperations] at h
    by_cases htag : actionTag op.action = 0
    · rw [if_pos htag] at h
      cases h
    rw [if_neg htag] at h
    obtain ⟨u1, m1, h1, h⟩ := bind_ok.mp h
    obtain ⟨u2, m2, h2, h⟩ := bind_ok.mp h
    obtain ⟨u, mid, hop, hr⟩ := bind_ok.mp h
    have hmid := ih (n + 1) hr
    obtain ⟨b1, e1, -⟩ := roundTrips_u32 (ρ := Unit) n "" _ _ h1
    obtain ⟨b2, e2, r2⟩ := roundTrips_u8 (ρ := Unit) (actionTag op.action) "" _ _ h2
    obtain ⟨b3, e3, -⟩ := roundTrips_storeLogTerm (ρ := Unit) op.proposition _ _ hop
    have hpos : 0 < b2.length := by
      cases b2 with
      | nil => have := r2 () []; cases this
      | cons => exact Nat.succ_pos _
    rw [e3, e2, e1, length_append, length_append, length_append] at hmid
    rw [length_cons]
    omega

variable {rc : TransactionRecord}

/-- What is written before the operations takes twelve bytes. -/
theorem appendPayload_lengths
    (h : appendPayload rc ⟨[], 0⟩ = .ok ((), e')) :
    12 + rc.operations.length ≤ e'.bytes.length := by
  unfold appendPayload at h
  obtain ⟨u1, m1, h1, h⟩ := bind_ok.mp h
  obtain ⟨u2, m2, h2, h⟩ := bind_ok.mp h
  have hmid := appendOperations_length _ _ h
  cases h1
  unfold appendU32Le at h2
  by_cases hf : rc.operations.length ≤ 4294967295
  · rw [if_pos hf] at h2
    cases h2
    simpa using hmid
  · rw [if_neg hf] at h2
    cases h2

/-- **The payload written for a record decodes to it.** -/
theorem decodeRecordPayload_written {record : TransactionRecord}
    (h : encoded (appendPayload record) = .ok pl) (hseq : 0 ≤ record.sequence.toInt)
    (hne : record.operations ≠ []) (hlen : pl.length ≤ maxCodecCount) :
    decodeRecordPayload pl = .ok record := by
  unfold encoded at h
  cases hw : appendPayload record ⟨[], 0⟩ with
  | error e => rw [hw] at h; cases h
  | ok out =>
    rw [hw] at h
    have hbs : out.2.bytes = pl := Except.ok.inj h
    have hl := appendPayload_lengths hw
    rw [hbs] at hl
    have hcnt : ¬(record.operations.length = 0 ∨ record.operations.length > maxCodecCount) := by
      rintro (h0 | hgt)
      · exact hne (length_eq_zero_iff.mp h0)
      · omega
    have hro : RoundTrips (ρ := Unit) (appendPayload record) readRecord record := by
      unfold readRecord readTransactionPayload
      simp only [bind_assoc, pure_bind]
      refine RoundTrips.bind (roundTrips_i64 _ _) ?_
      refine RoundTrips.bind (roundTrips_u32 _ _) ?_
      rw [if_neg (Int.not_lt.mpr hseq), if_neg hcnt]
      exact (roundTrips_operations record.operations 0).map fun ops =>
        (⟨record.sequence, ops⟩ : TransactionRecord)
    obtain ⟨u, hu, hre⟩ := hro _ _ hw
    rw [hbs, nil_append] at hu
    subst hu
    have hr := hre () []
    rw [append_nil] at hr
    unfold decodeRecordPayload
    rw [if_neg (by omega), hr]
    rfl

/-! ### Frames -/

/-- A record, as it stands in a log. -/
def frameOf (payload : List UInt8) : List UInt8 :=
  leBytes 4 payload.length ++ (payload ++ leBytes 4 (crc32 payload))

@[simp] theorem length_frameOf (pl : List UInt8) :
    (frameOf pl).length = pl.length + 8 := by
  simp only [frameOf, length_append, length_leBytes]
  omega

theorem crc32_lt (pl : List UInt8) : crc32 pl < 4294967296 :=
  (Crc.check crc32Polynomial pl).isLt

/-- **A record that was appended is a frame whose payload decodes to it.** -/
theorem appendRecordBytes_ok (h : appendRecordBytes rc = .ok bs) :
    ∃ pl, bs = frameOf pl ∧ pl.length < 4294967296 ∧ 0 ≤ rc.sequence.toInt ∧ rc.operations ≠ [] ∧
      (pl.length ≤ maxCodecCount → decodeRecordPayload pl = .ok rc) := by
  unfold appendRecordBytes at h
  by_cases hinv : rc.sequence.toInt < 0 ∨ rc.operations = []
  · rw [if_pos hinv] at h
    cases h
  rw [if_neg hinv] at h
  have hseq : 0 ≤ rc.sequence.toInt := Int.not_lt.mp fun hlt => hinv (Or.inl hlt)
  have hne : rc.operations ≠ [] := fun hnil => hinv (Or.inr hnil)
  cases hp : encoded (appendPayload rc) with
  | error e => rw [hp] at h; cases h
  | ok pl =>
    rw [hp] at h
    have h : (encoded (frameBytes pl)).mapError _ = .ok bs := h
    have hcrc : crc32 pl ≤ 4294967295 := Nat.le_of_lt_succ (crc32_lt pl)
    unfold encoded frameBytes appendU32Le at h
    by_cases hf : pl.length ≤ 4294967295
    · rw [if_pos hf, if_pos hcrc] at h
      cases h
      refine ⟨pl, ?_, by omega, hseq, hne, decodeRecordPayload_written hp hseq hne⟩
      simp [frameOf, append_assoc]
    · rw [if_neg hf] at h
      cases h

/-- A frame is seen as a record, if its payload is within the reader's bound. -/
theorem frameAt_frameOf (hf : pl.length < 4294967296) (hmax : pl.length ≤ mp) (more : List UInt8) :
    frameAt mp (frameOf pl ++ more) = .record pl (crc32 pl) more := by
  have hl : u32LeAt (frameOf pl ++ more) 0 = pl.length := by
    refine u32LeAt_field [] (pl ++ leBytes 4 (crc32 pl) ++ more) ?_ rfl hf
    simp only [frameOf, nil_append, append_assoc]
  have hpay : bytesAt (frameOf pl ++ more) 4 pl.length = pl := by
    refine bytesAt_field (leBytes 4 pl.length) (leBytes 4 (crc32 pl) ++ more) ?_ (by simp) rfl
    simp only [frameOf, append_assoc]
  have hcrc : u32LeAt (frameOf pl ++ more) (4 + pl.length) = crc32 pl := by
    refine u32LeAt_field (leBytes 4 pl.length ++ pl) more ?_ (by simp) (crc32_lt pl)
    simp only [frameOf, append_assoc]
  have hd : (frameOf pl ++ more).drop (pl.length + 8) = more := by
    rw [← length_frameOf pl, drop_left]
  have hlen : (frameOf pl ++ more).length = pl.length + 8 + more.length := by
    rw [length_append, length_frameOf]
  unfold frameAt
  rw [hlen, if_neg (by omega), if_neg (by omega)]
  simp only [hl]
  rw [if_neg (Nat.not_lt.mpr hmax), if_neg (by omega), hpay, hcrc, hd]

/-- **What is cut off inside a record is a torn tail.** -/
theorem frameAt_cut (hf : pl.length < 4294967296) (hmax : pl.length ≤ mp)
    {k : Nat} (hk : k < pl.length + 8) :
    (frameAt mp ((frameOf pl).take k)).stops := by
  have hlen : ((frameOf pl).take k).length = k := by
    rw [length_take, length_frameOf]
    omega
  unfold frameAt
  rw [hlen]
  by_cases h0 : k = 0
  · rw [if_pos h0]; trivial
  rw [if_neg h0]
  by_cases h4 : k < 4
  · rw [if_pos h4]; trivial
  rw [if_neg h4]
  have hl : u32LeAt ((frameOf pl).take k) 0 = pl.length := by
    have hsp : (frameOf pl).take k = leBytes 4 pl.length
        ++ (pl ++ leBytes 4 (crc32 pl)).take (k - 4) := by
      rw [frameOf, take_append, length_leBytes, take_of_length_le (by simp; omega)]
    exact u32LeAt_field [] _ hsp rfl hf
  simp only [hl]
  rw [if_neg (Nat.not_lt.mpr hmax), if_pos hk]
  trivial

/-- The chunks are what was appended for the records. -/
def Written (records : List TransactionRecord) (chunks : List (List UInt8)) : Prop :=
  Forall₂ (fun record chunk => appendRecordBytes record = .ok chunk) records chunks

/-- The bytes of a record that can be written. -/
def recordBytes (record : TransactionRecord) : List UInt8 :=
  (appendRecordBytes record).toOption.getD []

/-- The record can be written, within the bound of the stream reader. -/
def Writable (record : TransactionRecord) : Prop :=
  appendRecordBytes record = .ok (recordBytes record) ∧
    (recordBytes record).length ≤ storeLogStreamMaxPayloadBytes + 8

instance (record : TransactionRecord) : Decidable (Writable record) := by
  unfold Writable
  infer_instance

/-- The bytes of some records, one after the other. -/
def bodyOf (records : List TransactionRecord) : List UInt8 := (records.map recordBytes).flatten

variable {rcs : List TransactionRecord}

theorem written_recordBytes
    (h : ∀ rc ∈ rcs, Writable rc) : Written rcs (rcs.map recordBytes) := by
  induction rcs with
  | nil => exact Forall₂.nil
  | cons rc rs ih =>
    exact Forall₂.cons (h rc (mem_cons_self ..)).1 (ih fun r hr => h r (mem_cons_of_mem _ hr))

variable {cs : List (List UInt8)}

theorem Written.take (h : Written rcs cs) (k : Nat) :
    Written (rcs.take k) (cs.take k) :=
  forall₂_take k h

variable {chunk : List UInt8} {H : Hashing}

theorem Written.record_of_chunk (h : Written rcs cs)
    (hmem : chunk ∈ cs) : ∃ rc ∈ rcs, appendRecordBytes rc = .ok chunk := by
  induction h with
  | nil => simp at hmem
  | cons hr _ ih =>
    rcases mem_cons.mp hmem with rfl | hmem
    · exact ⟨_, mem_cons_self .., hr⟩
    · obtain ⟨rc, hrec, happ⟩ := ih hmem
      exact ⟨rc, mem_cons_of_mem _ hrec, happ⟩

theorem Written.chunk_of_record (h : Written rcs cs)
    (hmem : rc ∈ rcs) :
    ∃ chunk ∈ cs, appendRecordBytes rc = .ok chunk := by
  induction h with
  | nil => simp at hmem
  | cons hr _ ih =>
    rcases mem_cons.mp hmem with rfl | hmem
    · exact ⟨_, mem_cons_self .., hr⟩
    · obtain ⟨chunk, hc, happ⟩ := ih hmem
      exact ⟨chunk, mem_cons_of_mem _ hc, happ⟩

/-- **A log that was written says the records that were written**, and stops at a torn tail. -/
theorem logRecords_written (hb : mp ≤ maxCodecCount) {t : List UInt8}
    (ht : (frameAt mp t).stops)
    (h : Written rcs cs) (hs : ∀ chunk ∈ cs, chunk.length ≤ mp + 8) :
    logRecords mp (cs.flatten ++ t) = some (rcs, cs.flatten.length) := by
  induction h with
  | nil => exact logRecords_stops ht
  | cons hr _ ih =>
    obtain ⟨pl, rfl, hf, -, -, hdec⟩ := appendRecordBytes_ok hr
    have hmax : pl.length ≤ mp := by
      have := hs _ (mem_cons_self ..)
      rw [length_frameOf] at this
      omega
    have hre := ih fun c hc => hs c (mem_cons_of_mem _ hc)
    rw [flatten_cons, append_assoc,
      logRecords_record (frameAt_frameOf hf hmax _), if_neg (fun h => h rfl),
      hdec (Nat.le_trans hmax hb), hre]
    simp

theorem logRecords_bodyOf
    (h : ∀ rc ∈ rcs, Writable rc) {t : List UInt8}
    (ht : (frameAt storeLogStreamMaxPayloadBytes t).stops) :
    logRecords storeLogStreamMaxPayloadBytes (bodyOf rcs ++ t)
      = some (rcs, (bodyOf rcs).length) := by
  refine logRecords_written (by decide) ht (written_recordBytes h) ?_
  intro chunk hc
  obtain ⟨rc, hrec, rfl⟩ := mem_map.mp hc
  exact (h rc hrec).2

/-- A record that was appended within the reader's bound is a valid one. -/
theorem appended_valid (h : appendRecordBytes rc = .ok chunk)
    (hs : chunk.length ≤ maxCodecCount) : validTransactionRecord rc = true := by
  obtain ⟨pl, rfl, -, -, -, hdec⟩ := appendRecordBytes_ok h
  rw [length_frameOf] at hs
  exact decodeRecordPayload_valid (hdec (by omega))

/-! ### Booting a log with its header -/

/-- **A log with its header boots to what the bytes after the header say**, when the reader takes
    a SpaceId of this length. -/
theorem streamed_headerOf {sid : String} (hs : sid ≠ "")
    (hf : (Utf8.encode sid).length < 4294967296)
    (hc : csid = "" ∨ csid = sid) (rs : List UInt8) :
    StreamedAs H (consumeTransactionLogHeader H csid (headerOf storeLogFlags sid ++ rs))
      (if (Utf8.encode sid).length > storeLogStreamMaxSpaceBytes then none
        else ((Ledger.empty sid).readLog storeLogStreamMaxPayloadBytes rs).map fun (l, n) =>
          (l, (headerOf storeLogFlags sid).length + n)) := by
  have hne : headerOf storeLogFlags sid ++ rs ≠ [] := by simp [headerOf, storeLogMagic]
  have hsp := consumeTransactionLogHeader_spec (H := H) csid hne
  rwa [bootLedger_headerOf hs hf hc] at hsp

/-- No stream boot reads a log of a SpaceId past its bound, though the header is written. -/
theorem consume_long_space {sid : String} (hs : sid ≠ "")
    (hf : (Utf8.encode sid).length < 4294967296)
    (hl : storeLogStreamMaxSpaceBytes < (Utf8.encode sid).length)
    (hc : csid = "" ∨ csid = sid) (rs : List UInt8) :
    ∃ m, consumeTransactionLogHeader H csid
      (headerOf storeLogFlags sid ++ rs) = .error (.error m) := by
  have hsp := streamed_headerOf (H := H) hs hf hc rs
  rw [if_pos hl] at hsp
  exact hsp

/-! ### Two logs to try things on -/

/-- A record with one assertion. -/
def greetingRecord : TransactionRecord :=
  ⟨1, [⟨.assert, ⟨.atom (.string "a"), .atom (.string "b"), .atom (.bool true)⟩⟩]⟩

def greetingBytes : List UInt8 :=
  [31, 0, 0, 0, 1, 0, 0, 0, 0, 0, 0, 0, 1, 0, 0, 0, 0, 0, 0, 0, 1, 7, 1, 1, 0, 0, 0, 97, 1, 1, 0, 0,
    0, 98, 5, 233, 207, 83, 48]

theorem greeting_written : Written [greetingRecord] [greetingBytes] := by
  refine Forall₂.cons ?_ Forall₂.nil
  decide +kernel

/-- A log of one record, 56 bytes long; its header ends at byte 17. -/
def greetingLog : List UInt8 := headerOf storeLogFlags "s" ++ greetingBytes

theorem greetingLog_frame : ∃ pl sc, pl.length = 31 ∧
      frameAt storeLogStreamMaxPayloadBytes (greetingLog.drop (headerEnd greetingLog))
        = .record pl sc [] :=
  ⟨(greetingBytes.drop 4).take 31, leValue [233, 207, 83, 48], by decide, by decide⟩

theorem greetingLog_boots (H : Hashing) :
    ∃ st, consumeTransactionLogHeader H "s" greetingLog = .ok st ∧
      st.validLogBytes = greetingLog.length := by
  have hr : logRecords storeLogStreamMaxPayloadBytes greetingBytes = some ([greetingRecord], 39) :=
    logRecords_written (by decide) (show (frameAt _ []).stops from trivial) greeting_written
      (by decide)
  have hrep : (Ledger.empty "s").replayAll [greetingRecord]
      = some ((Ledger.empty "s").commit greetingRecord.sequence.toInt greetingRecord.operations) := by
    unfold Ledger.replayAll
    rw [Ledger.replay_accepted (by decide)]
    rfl
  have hs := streamed_headerOf (H := H) (show "s" ≠ "" by decide) (by decide)
    (Or.inr rfl) greetingBytes
  rw [if_neg (by decide), Ledger.readLog_some hr, hrep] at hs
  obtain ⟨st, hok, -, -, hv, -⟩ := hs
  exact ⟨st, hok, by rw [hv]; decide⟩

/-- A SpaceId one byte past what a boot reads. -/
def longSpaceId : String := String.ofList (replicate 4097 'a')

/-- A letter is one byte. -/
theorem length_flatMap_letters (n : Nat) :
    ((replicate n 'a').flatMap String.utf8EncodeChar).length = n := by
  induction n with
  | zero => rfl
  | succ n ih =>
    rw [replicate_succ, flatMap_cons, length_append, ih]
    show 1 + n = n + 1
    exact Nat.add_comm 1 n

theorem length_longSpaceId : (Utf8.encode longSpaceId).length = 4097 := by
  unfold longSpaceId Utf8.encode
  rw [String.toList_ofList]
  exact length_flatMap_letters 4097

theorem longSpaceId_ne : longSpaceId ≠ "" := by
  intro h
  have := length_longSpaceId
  rw [h] at this
  exact absurd this (by decide)

end Beagle.Store
