/-
What an accepted reader product is bound to.

Identities are digests of texts behind their lengths, so without a collision they give back
the parts they were made of: the events, and of a map its request.  The checks on spans ask
byte by byte what is shown here of whole texts: a span begins and ends between characters.
-/
import Beagle.Native.ReaderProtocol

namespace Beagle.ReaderProtocol

open Beagle.Native (Sha256 Long Long.ofInt? Long.ofInt?_eq Sha256.eq_of_digest)
open Beagle.Lib (Utf8.encode Utf8.decode Utf8.encode_injective Utf8.decode_encode Utf8.encode_cut
  Digits.toString_nat_injective Digits.toString_int_injective)
open Beagle.Lib.Frames List

variable {s : Sha256}

/-! ### Encodings -/

theorem keywordText_injective {k keyword' : String}
    (h : keywordText k = keywordText keyword') : k = keyword' :=
  (String.append_right_inj ":").mp h

theorem canonicalParts_eq (e : String) (parts : List String) :
    canonicalParts e parts = e ++ framedAll parts := foldl_framed parts e

theorem semanticEncoding_injective {d : String} {ps parts' : List String}
    (h : semanticEncoding d ps = semanticEncoding d parts') : ps = parts' := by
  unfold semanticEncoding at h
  rw [canonicalParts_eq, canonicalParts_eq] at h
  exact framedAll_injective ((String.append_right_inj _).mp h)

variable {α : Type} {es : List ReaderSourceMapEntry}

/-- Rows of one width, one behind the other, are read off in one way. -/
theorem flatMap_injective {β : Type} {row : α → List β} {w : Nat} (hpos : 0 < w)
    (hwd : ∀ x, (row x).length = w) (hrow : ∀ x y, row x = row y → x = y) :
    ∀ {xs ys : List α}, xs.flatMap row = ys.flatMap row → xs = ys := by
  intro xs
  induction xs with
  | nil =>
    intro ys h
    cases ys with
    | nil => rfl
    | cons y ys =>
      have hlen := congrArg List.length h
      rw [flatMap_nil, flatMap_cons, length_nil, length_append, hwd] at hlen
      omega
  | cons x xs ih =>
    intro ys h
    cases ys with
    | nil =>
      have hlen := congrArg List.length h
      rw [flatMap_nil, flatMap_cons, length_nil, length_append, hwd] at hlen
      omega
    | cons y ys =>
      rw [flatMap_cons, flatMap_cons] at h
      obtain ⟨hfst, hr⟩ := append_inj h ((hwd x).trans (hwd y).symm)
      rw [hrow x y hfst, ih hr]

/-- A text that grows by some framed parts for each of some rows. -/
theorem foldl_rows {en : α → String} {row : α → List String}
    (henc : ∀ x, en x = framedAll (row x)) (xs : List α) (e : String) :
    xs.foldl (fun e x => e ++ en x) e = e ++ framedAll (xs.flatMap row) := by
  induction xs generalizing e with
  | nil => exact (String.append_empty).symm
  | cons x xs ih =>
    rw [foldl_cons, ih, henc, flatMap_cons, framedAll_append, String.append_assoc]

/-- The parts of an event. -/
def eventRow (event : ReaderIrEvent) : List String :=
  [keywordText event.kind, event.value, event.literal, toString event.depth]

theorem readerIrEventEncoding_eq (e : ReaderIrEvent) :
    readerIrEventEncoding e = framedAll (eventRow e) := by
  unfold eventRow
  simp only [framedAll, foldl_cons, foldl_nil, String.empty_append]
  rfl

theorem eventRow_injective (e event' : ReaderIrEvent) (h : eventRow e = eventRow event') :
    e = event' := by
  simp only [eventRow, List.cons.injEq, and_true] at h
  obtain ⟨hk, hval, hlit, hd⟩ := h
  cases e
  cases event'
  rw [ReaderIrEvent.mk.injEq]
  exact ⟨keywordText_injective hk, hval, hlit, Digits.toString_int_injective hd⟩

theorem readerIrEncoding_eq (es : List ReaderIrEvent) : readerIrEncoding es =
      "beagle-reader-ir/v1" ++ framedAll (toString es.length :: es.flatMap eventRow) := by
  unfold readerIrEncoding
  rw [foldl_rows readerIrEventEncoding_eq, framedAll_cons, ← String.append_assoc]
  rfl

/-- Bytes of events are of these events only. -/
theorem readerIrEncoding_injective {es events' : List ReaderIrEvent}
    (h : readerIrEncoding es = readerIrEncoding events') : es = events' := by
  rw [readerIrEncoding_eq, readerIrEncoding_eq] at h
  have hp := framedAll_injective ((String.append_right_inj _).mp h)
  exact flatMap_injective (by decide : 0 < 4) (fun _ => rfl) eventRow_injective (List.cons.inj hp).2

/-- The parts of an entry. -/
def entryRow (entry : ReaderSourceMapEntry) : List String :=
  [toString entry.eventIndex, toString entry.originalOrigin.startByte,
    toString entry.originalOrigin.endByte, toString entry.generatedOrigin.startByte,
    toString entry.generatedOrigin.endByte]

theorem sourceMapEntryEncoding_eq (e : ReaderSourceMapEntry) :
    sourceMapEntryEncoding e = framedAll (entryRow e) := by
  unfold entryRow
  simp only [framedAll, foldl_cons, foldl_nil, String.empty_append]
  rfl

theorem entryRow_injective (e entry' : ReaderSourceMapEntry)
    (h : entryRow e = entryRow entry') : e = entry' := by
  simp only [entryRow, List.cons.injEq, and_true] at h
  obtain ⟨hidx, hst, hend, hst', hend'⟩ := h
  obtain ⟨i, ⟨s, finish⟩, ⟨s', f'⟩⟩ := e
  obtain ⟨_, ⟨_, _⟩, ⟨_, _⟩⟩ := entry'
  simp only [ReaderSourceMapEntry.mk.injEq, ReaderByteSpan.mk.injEq]
  exact ⟨Digits.toString_int_injective hidx,
    ⟨Digits.toString_int_injective hst, Digits.toString_int_injective hend⟩,
    Digits.toString_int_injective hst', Digits.toString_int_injective hend'⟩

theorem sourceMapEncoding_injective {entries' : List ReaderSourceMapEntry}
    (h : sourceMapEncoding es = sourceMapEncoding entries') : es = entries' := by
  have heq : ∀ es : List ReaderSourceMapEntry, sourceMapEncoding es =
      "beagle-reader-source-map/v1" ++ framedAll (toString es.length :: es.flatMap entryRow) := by
    intro es
    unfold sourceMapEncoding
    rw [foldl_rows sourceMapEntryEncoding_eq, framedAll_cons, ← String.append_assoc]
    rfl
  rw [heq, heq] at h
  have hparts := framedAll_injective ((String.append_right_inj _).mp h)
  exact flatMap_injective (by decide : 0 < 5) (fun _ => rfl) entryRow_injective
    (List.cons.inj hparts).2

/-! ### Boundaries -/

/-- The offset stands between two characters of the text, or at one of its ends. -/
def Boundary (text : String) (offset : Int) : Prop :=
  ∃ front back : String, text = front ++ back ∧ offset = (Utf8.encode front).length

theorem length_utf8Encode (t : String) :
    (utf8Encode t).length = (Utf8.encode t).length := length_map _

variable {t : String}

theorem boundary_of_check {offset : Int}
    (h : utf8ByteBoundary (utf8Encode t) offset = true) : Boundary t offset := by
  unfold utf8ByteBoundary at h
  simp only [Bool.and_eq_true, Bool.or_eq_true, decide_eq_true_eq, length_utf8Encode] at h
  obtain ⟨⟨hlow, hh⟩, hc⟩ := h
  obtain ⟨n, rfl⟩ := Int.eq_ofNat_of_zero_le hlow
  by_cases hl : n = (Utf8.encode t).length
  · exact ⟨t, "", (String.append_empty).symm, by rw [hl]⟩
  by_cases hfst : n = 0
  · exact ⟨"", t, (String.empty_append).symm, by rw [hfst]; rfl⟩
  have hlt : n < (Utf8.encode t).length := by omega
  have hb : (Utf8.encode t)[n].toNat < 128 ∨ 191 < (Utf8.encode t)[n].toNat := by
    have hget : (utf8Encode t).getD ((n : Int)).toNat 0 = ((Utf8.encode t)[n].toNat : Int) := by
      unfold utf8Encode
      rw [Int.toNat_natCast, getD_eq_getElem?_getD, getElem?_map, getElem?_eq_getElem hlt]
      rfl
    rw [hget] at hc
    omega
  have hsp : Utf8.encode t = (Utf8.encode t).take n ++
      (Utf8.encode t)[n] :: (Utf8.encode t).drop (n + 1) := by
    rw [getElem_cons_drop, take_append_drop]
  obtain ⟨fr, b, ht, hfr⟩ := Utf8.encode_cut hb hsp
  refine ⟨fr, b, ht, ?_⟩
  rw [← hfr, length_take, Nat.min_eq_left (Nat.le_of_lt hlt)]

/-! ### Spans -/

/-- A span of the source lies in the slice, and begins and ends between its characters. -/
structure OriginalOrigin (slice : SourceSlice) (span : ReaderByteSpan) : Prop where
  starts_inside : slice.startByte ≤ span.startByte
  ordered : span.startByte ≤ span.endByte
  ends_inside : span.endByte ≤ slice.endByte
  start_boundary : Boundary slice.payload (span.startByte - slice.startByte)
  end_boundary : Boundary slice.payload (span.endByte - slice.startByte)

/-- A span of a text that a reader wrote. -/
structure GeneratedOrigin (text : String) (span : ReaderByteSpan) : Prop where
  starts_inside : 0 ≤ span.startByte
  ordered : span.startByte ≤ span.endByte
  ends_inside : span.endByte ≤ (Utf8.encode text).length
  start_boundary : Boundary text span.startByte
  end_boundary : Boundary text span.endByte

variable {sl : SourceSlice} {product : ReaderProduct} {span : ReaderByteSpan}

theorem originalOrigin_of_valid
    (h : originalOriginValid sl span = true) : OriginalOrigin sl span := by
  unfold originalOriginValid sourceByteBoundary at h
  simp only [Bool.and_eq_true, decide_eq_true_eq] at h
  obtain ⟨⟨⟨⟨hst, hend⟩, hord⟩, hfst⟩, hl⟩ := h
  exact ⟨hst, hord, hend, boundary_of_check hfst, boundary_of_check hl⟩

theorem generatedOrigin_of_valid
    (h : generatedOriginValid (utf8Encode t) span = true) : GeneratedOrigin t span := by
  unfold generatedOriginValid at h
  simp only [Bool.and_eq_true, decide_eq_true_eq, length_utf8Encode] at h
  obtain ⟨⟨⟨⟨hst, hord⟩, hend⟩, hfst⟩, hl⟩ := h
  exact ⟨hst, hord, hend, boundary_of_check hfst, boundary_of_check hl⟩

/-- A map's entries from one index on, behind the spans before them. -/
structure OrderedEntries (slice : SourceSlice) (text : String) (index : Nat)
    (originalStart generatedEnd : Int) (entries : List ReaderSourceMapEntry) : Prop where
  indexed : ∀ (i : Nat) entry, entries[i]? = some entry → entry.eventIndex = index + i
  original : ∀ entry ∈ entries, OriginalOrigin slice entry.originalOrigin
  generated : ∀ entry ∈ entries, GeneratedOrigin text entry.generatedOrigin
  original_behind : ∀ entry ∈ entries, originalStart ≤ entry.originalOrigin.startByte
  generated_behind : ∀ entry ∈ entries, generatedEnd ≤ entry.generatedOrigin.startByte
  original_sorted : entries.Pairwise fun entry later =>
    entry.originalOrigin.startByte ≤ later.originalOrigin.startByte
  generated_apart : entries.Pairwise fun entry later =>
    entry.generatedOrigin.endByte ≤ later.generatedOrigin.startByte

theorem orderedEntries_of_valid {ix : Nat} {os ge : Int}
    (h : sourceMapEntriesValid sl (utf8Encode t) ix os ge es =
      true) : OrderedEntries sl t ix os ge es := by
  induction es generalizing ix os ge with
  | nil =>
    refine ⟨?_, nofun, nofun, nofun, nofun, List.Pairwise.nil, List.Pairwise.nil⟩
    intro i e hent
    rw [getElem?_nil] at hent
    cases hent
  | cons e es ih =>
    rw [sourceMapEntriesValid] at h
    split at h
    case isFalse => cases h
    case isTrue hent =>
      obtain ⟨hidx, hst, hend, hor, hg⟩ := hent
      have ori := originalOrigin_of_valid hor
      have g := generatedOrigin_of_valid hg
      have hr := ih h
      refine ⟨?_, forall_mem_cons.mpr ⟨ori, hr.original⟩, forall_mem_cons.mpr ⟨g, hr.generated⟩,
        forall_mem_cons.mpr ⟨hst, ?_⟩, forall_mem_cons.mpr ⟨hend, ?_⟩,
        pairwise_cons.mpr ⟨hr.original_behind, hr.original_sorted⟩,
        pairwise_cons.mpr ⟨hr.generated_behind, hr.generated_apart⟩⟩
      · intro i o ho
        cases i with
        | zero =>
          rw [getElem?_cons_zero] at ho
          rw [← Option.some.inj ho, ← hidx]
          exact (Int.add_zero _).symm
        | succ i =>
          rw [getElem?_cons_succ] at ho
          have := hr.indexed i o ho
          omega
      · intro o ho
        exact Int.le_trans hst (hr.original_behind o ho)
      · intro o ho
        have hb := hr.generated_behind o ho
        have hord := g.ordered
        omega

variable {diagnostics : List ReaderDiagnostic}

theorem originalOrigin_of_diagnostics {s finish : Int}
    (h : diagnosticsFromValid sl s finish diagnostics = true) :
    ∀ d ∈ diagnostics, OriginalOrigin sl d.originalOrigin := by
  induction diagnostics generalizing s finish with
  | nil => exact nofun
  | cons d diagnostics ih =>
    rw [diagnosticsFromValid] at h
    split at h
    case isFalse => cases h
    case isTrue hs =>
      exact forall_mem_cons.mpr ⟨originalOrigin_of_valid hs.1, ih h⟩

/-! ### Requests -/

/-- What a valid slice is. -/
structure ValidSlice (sha : Sha256) (slice : SourceSlice) : Prop where
  bounded : slice.bounded = true
  starts : 0 ≤ slice.startByte
  ends : slice.endByte = slice.startByte + (Utf8.encode slice.payload).length
  identified : slice.payloadContentId = sourcePayloadContentId sha slice.payload

theorem validSlice_of_check (h : sourceSliceValid s sl = some true) : ValidSlice s sl := by
  unfold sourceSliceValid at h
  split at h
  case isFalse => cases h
  case isTrue hfr =>
    rw [Option.map_eq_some_iff] at h
    obtain ⟨finish, hfin, hchk⟩ := h
    rw [Bool.and_eq_true, decide_eq_true_iff] at hfr
    rw [Bool.and_eq_true, decide_eq_true_iff, beq_iff_eq] at hchk
    rw [Long.ofInt?_eq, length_utf8Encode] at hfin
    exact ⟨hfr.1, hfr.2, hchk.1.trans hfin, hchk.2⟩

/-- What a valid request is. -/
structure ValidRequest (sha : Sha256) (request : ReaderRequest) : Prop where
  slice : ValidSlice sha request.sourceSlice
  component_role : request.readerComponent.role = "reader"
  protocol_role : request.readerProtocol.role = "reader"
  component : request.readerComponent = componentIdentity sha request.readerComponent.role
    request.readerComponent.artifactContentId request.readerComponent.dependencyClosureId
  protocol : request.readerProtocol = protocolIdentity sha request.readerProtocol.role
    request.readerProtocol.protocolContentId request.readerProtocol.abiContentId

theorem validRequest_of_check {request : ReaderRequest}
    (h : readerRequestValid s request = some true) : ValidRequest s request := by
  unfold readerRequestValid at h
  rw [Option.map_eq_some_iff] at h
  obtain ⟨v, hs, hchk⟩ := h
  simp only [Bool.and_eq_true, beq_iff_eq] at hchk
  obtain ⟨⟨⟨⟨hv, hr⟩, hr'⟩, hc⟩, hp⟩ := hchk
  rw [hv] at hs
  exact ⟨validSlice_of_check hs, hr, hr', ComponentIdentity.ext hc rfl rfl rfl,
    ProtocolIdentity.ext hp rfl rfl rfl⟩

/-- The texts whose digests a request and its product carry. -/
def hashed (request : ReaderRequest) (product : ReaderProduct) : List String :=
  [semanticEncoding "beagle/reader/canonical-ir/v1" [readerIrEncoding product.canonicalIrEvents],
    semanticEncoding "beagle/reader/provenance-map/v1"
      (provenanceMapParts request product.sourceMap),
    semanticEncoding "beagle/reader/source-payload/v1" [request.sourceSlice.payload],
    semanticEncoding "beagle/language-capsule/component/v1"
      [keywordText request.readerComponent.role, request.readerComponent.artifactContentId,
        request.readerComponent.dependencyClosureId],
    semanticEncoding "beagle/language-capsule/protocol/v1"
      [keywordText request.readerProtocol.role, request.readerProtocol.protocolContentId,
        request.readerProtocol.abiContentId]]

/-- No two of the texts behind two products have one digest. -/
def Apart (sha : Sha256) (request request' : ReaderRequest) (product product' : ReaderProduct) :
    Prop :=
  Set.InjOn sha.bytes
    {bytes | ∃ text ∈ hashed request product ++ hashed request' product', bytes = Utf8.encode text}

variable {request request' : ReaderRequest}

theorem Apart.parts {product product' : ReaderProduct}
    (apart : Apart s request request' product product') {domain : String}
    {parts parts' : List String} (hmem : semanticEncoding domain parts ∈ hashed request product)
    (hmem' : semanticEncoding domain parts' ∈ hashed request' product')
    (h : (semanticIdentity s domain parts).contentId =
      (semanticIdentity s domain parts').contentId) : parts = parts' :=
  semanticEncoding_injective (Sha256.eq_of_digest apart
    ⟨_, mem_append_left _ hmem, rfl⟩ ⟨_, mem_append_right _ hmem', rfl⟩ h)

/-- Requests with one map of provenance are one request, and the map is one. -/
theorem eq_of_provenance {product' : ReaderProduct}
    (apart : Apart s request request' product product') (valid : ValidRequest s request)
    (valid' : ValidRequest s request') (h : provenanceMapIdentity s request product.sourceMap =
      provenanceMapIdentity s request' product'.sourceMap) :
    request = request' ∧ product.sourceMap = product'.sourceMap := by
  have hparts := apart.parts (by simp [hashed]) (by simp [hashed])
    (congrArg SemanticIdentity.contentId h)
  simp only [provenanceMapParts, List.cons.injEq, and_true] at hparts
  obtain ⟨hrec, hpay, hst, hend, hcapsule, hcomp, hprot, hmap⟩ := hparts
  have htext : request.sourceSlice.payload = request'.sourceSlice.payload := by
    have hid := hpay
    rw [valid.slice.identified, valid'.slice.identified] at hid
    exact (List.cons.inj (apart.parts (by simp [hashed]) (by simp [hashed]) hid)).1
  have hreader : request.readerComponent = request'.readerComponent := by
    rw [valid.component, valid'.component] at hcomp ⊢
    have hrow := apart.parts (by simp [hashed, componentIdentity])
      (by simp [hashed, componentIdentity]) hcomp
    simp only [List.cons.injEq, and_true] at hrow
    rw [keywordText_injective hrow.1, hrow.2.1, hrow.2.2]
  have hspeech : request.readerProtocol = request'.readerProtocol := by
    rw [valid.protocol, valid'.protocol] at hprot ⊢
    have hrow := apart.parts (by simp [hashed, protocolIdentity])
      (by simp [hashed, protocolIdentity]) hprot
    simp only [List.cons.injEq, and_true] at hrow
    rw [keywordText_injective hrow.1, hrow.2.1, hrow.2.2]
  have hbd := valid.slice.bounded.trans valid'.slice.bounded.symm
  refine ⟨?_, sourceMapEncoding_injective hmap⟩
  obtain ⟨⟨payload, id, start, finish, receipt, bounded⟩, capsule, component, protocol⟩ := request
  obtain ⟨⟨payload', id', start', finish', receipt', bounded'⟩, capsule', component', protocol'⟩ :=
    request'
  dsimp only at htext hpay hst hend hrec hbd hcapsule hreader hspeech
  rw [htext, hpay, Digits.toString_int_injective hst, Digits.toString_int_injective hend,
    SemanticIdentity.ext hrec, hbd, SemanticIdentity.ext hcapsule, hreader, hspeech]

/-! ### Products -/

/-- The product that a candidate becomes. -/
def productOf (candidate : ReaderProductCandidate) : ReaderProduct where
  canonicalIrId := candidate.canonicalIrId
  canonicalIrBytes := candidate.canonicalIrBytes
  canonicalIrEvents := candidate.canonicalIrEvents
  provenanceMapId := candidate.provenanceMapId
  sourceMap := candidate.sourceMap
  diagnostics := candidate.diagnostics

/-- What the checks say of a candidate. -/
structure ValidCandidate (sha : Sha256) (request : ReaderRequest)
    (candidate : ReaderProductCandidate) : Prop where
  valid_request : ValidRequest sha request
  bytes : candidate.canonicalIrBytes = readerIrBytes candidate.canonicalIrEvents
  ir : candidate.canonicalIrId = readerIrIdentity sha candidate.canonicalIrEvents
  one_entry : candidate.sourceMap.length = candidate.canonicalIrEvents.length
  entries : OrderedEntries request.sourceSlice (readerIrEncoding candidate.canonicalIrEvents) 0
    request.sourceSlice.startByte 0 candidate.sourceMap
  provenance : candidate.provenanceMapId = provenanceMapIdentity sha request candidate.sourceMap
  diagnostics : ∀ diagnostic ∈ candidate.diagnostics,
    OriginalOrigin request.sourceSlice diagnostic.originalOrigin

variable {req : ReaderRequest} {candidate : ReaderProductCandidate}

theorem validCandidate_of_check
    (h : readerProductCandidateValid s req candidate = some true) :
    ValidCandidate s req candidate := by
  unfold readerProductCandidateValid at h
  rw [Option.bind_eq_bind, Option.bind_eq_some_iff] at h
  obtain ⟨vr, hrq, h⟩ := h
  cases vr with
  | false => cases h
  | true =>
    rw [Bool.not_true, if_neg Bool.false_ne_true, Option.bind_eq_some_iff] at h
    obtain ⟨c, -, h⟩ := h
    cases c with
    | false => cases h
    | true =>
      replace h : readerProductBound s req candidate = true := Option.some.inj h
      unfold readerProductBound sourceMapValid at h
      simp only [Bool.and_eq_true, beq_iff_eq] at h
      obtain ⟨⟨⟨⟨hbs, hir⟩, hlen, he⟩, hp⟩, hd⟩ := h
      rw [hbs] at he
      exact ⟨validRequest_of_check hrq, hbs, hir, hlen, orderedEntries_of_valid he, hp,
        originalOrigin_of_diagnostics hd⟩

/-- A product is accepted when its candidate is valid and complains of no error. -/
theorem accepted_cases
    (h : acceptReaderProduct s req candidate = some (.accepted product)) :
    ValidCandidate s req candidate ∧
      containsErrorDiagnostic candidate.diagnostics = false ∧ product = productOf candidate := by
  unfold acceptReaderProduct at h
  rw [Option.map_eq_some_iff] at h
  obtain ⟨v, hv, h⟩ := h
  cases v with
  | false => cases h
  | true =>
    rw [if_pos rfl] at h
    by_cases herr : containsErrorDiagnostic candidate.diagnostics = true
    · rw [if_pos herr] at h
      cases h
    · rw [if_neg herr] at h
      exact ⟨validCandidate_of_check hv, Bool.eq_false_iff.mpr herr,
        (ReaderAcceptance.accepted.inj h).symm⟩

variable {c : ReaderProductCandidate}

/-- A rejection carries the candidate's own diagnostics, or one of the protocol. -/
theorem rejected_cases
    (h : acceptReaderProduct s req c = some (.rejected diagnostics)) :
    ValidCandidate s req c ∧ diagnostics = c.diagnostics ∨
      diagnostics = [protocolRejectionDiagnostic req] := by
  unfold acceptReaderProduct at h
  rw [Option.map_eq_some_iff] at h
  obtain ⟨v, hv, h⟩ := h
  cases v with
  | false =>
    rw [if_neg Bool.false_ne_true] at h
    exact Or.inr (ReaderAcceptance.rejected.inj h).symm
  | true =>
    rw [if_pos rfl] at h
    by_cases herr : containsErrorDiagnostic c.diagnostics = true
    · rw [if_pos herr] at h
      exact Or.inl ⟨validCandidate_of_check hv, (ReaderAcceptance.rejected.inj h).symm⟩
    · rw [if_neg herr] at h
      cases h

theorem utf8Decode_encode (text : String) : utf8Decode (utf8Encode text) = some text := by
  unfold utf8Decode utf8Encode
  rw [map_map]
  have hbs : (Utf8.encode text).map ((fun b => UInt8.ofNat b.toNat) ∘
      fun b => (b.toNat : Int)) = Utf8.encode text := by
    refine (map_congr_left fun b _ => ?_).trans (map_id _)
    show UInt8.ofNat (b.toNat : Int).toNat = b
    rw [Int.toNat_natCast, UInt8.ofNat_toNat]
  rw [hbs, Utf8.decode_encode]

/-- An accepted product fits its request, and its bytes are those of its events. -/
structure Bound (request : ReaderRequest) (product : ReaderProduct) : Prop where
  one_entry : product.sourceMap.length = product.canonicalIrEvents.length
  indexed : ∀ (i : Nat) entry, product.sourceMap[i]? = some entry → entry.eventIndex = i
  no_error : ∀ diagnostic ∈ product.diagnostics, diagnostic.severity ≠ "error"
  original : ∀ entry ∈ product.sourceMap, OriginalOrigin request.sourceSlice entry.originalOrigin
  original_sorted : product.sourceMap.Pairwise fun entry later =>
    entry.originalOrigin.startByte ≤ later.originalOrigin.startByte
  generated_apart : product.sourceMap.Pairwise fun entry later =>
    entry.generatedOrigin.endByte ≤ later.generatedOrigin.startByte
  decoded : ∃ text, utf8Decode product.canonicalIrBytes = some text ∧
    (∀ entry ∈ product.sourceMap, GeneratedOrigin text entry.generatedOrigin) ∧
    ∀ events, readerIrEncoding events = text ↔ events = product.canonicalIrEvents

theorem bound_of_accepted
    (h : acceptReaderProduct s req c = some (.accepted product)) :
    Bound req product := by
  obtain ⟨v, herr, rfl⟩ := accepted_cases h
  have hdec : utf8Decode c.canonicalIrBytes = some (readerIrEncoding c.canonicalIrEvents) := by
    rw [v.bytes]
    exact utf8Decode_encode _
  refine ⟨v.one_entry, ?_, ?_, v.entries.original, v.entries.original_sorted,
    v.entries.generated_apart, _, hdec, v.entries.generated, ?_⟩
  · intro i e hent
    rw [v.entries.indexed i e hent]
    exact Int.zero_add _
  · intro d hmem hs
    have hn := any_eq_false.mp herr d hmem
    exact hn (decide_eq_true hs)
  · exact fun es => ⟨readerIrEncoding_injective, congrArg readerIrEncoding⟩

/-- **Accepted products are bound to their requests.**  An accepted product fits its request;
without a collision its identities tell its events and its request; and the diagnostics of a
rejected one lie in the slice. -/
theorem accepted_products_bound (sha : Sha256) : (∀ request candidate product,
      acceptReaderProduct sha request candidate = some (.accepted product) →
        Bound request product) ∧
    (∀ request request' candidate candidate' product product',
      acceptReaderProduct sha request candidate = some (.accepted product) →
      acceptReaderProduct sha request' candidate' = some (.accepted product') →
      Apart sha request request' product product' →
        (product.canonicalIrId = product'.canonicalIrId →
          product.canonicalIrEvents = product'.canonicalIrEvents) ∧
        (product.provenanceMapId = product'.provenanceMapId →
          request = request' ∧ product.sourceMap = product'.sourceMap)) ∧
    ∀ request candidate diagnostics,
      acceptReaderProduct sha request candidate = some (.rejected diagnostics) →
      sourceSliceValid sha request.sourceSlice = some true →
      ∀ diagnostic ∈ diagnostics,
        request.sourceSlice.startByte ≤ diagnostic.originalOrigin.startByte ∧
        diagnostic.originalOrigin.startByte ≤ diagnostic.originalOrigin.endByte ∧
        diagnostic.originalOrigin.endByte ≤ request.sourceSlice.endByte := by
  refine ⟨fun _ _ _ => bound_of_accepted, ?_, ?_⟩
  · intro request request' candidate candidate' product product' h h' a
    obtain ⟨v, -, rfl⟩ := accepted_cases h
    obtain ⟨v', -, rfl⟩ := accepted_cases h'
    refine ⟨?_, ?_⟩
    · intro hid
      have heq : readerIrIdentity sha candidate.canonicalIrEvents =
          readerIrIdentity sha candidate'.canonicalIrEvents :=
        v.ir.symm.trans (hid.trans v'.ir)
      exact readerIrEncoding_injective (List.cons.inj (a.parts (by simp [hashed, productOf])
        (by simp [hashed, productOf]) (congrArg SemanticIdentity.contentId heq))).1
    · intro hid
      exact eq_of_provenance a v.valid_request v'.valid_request
        (v.provenance.symm.trans (hid.trans v'.provenance))
  · intro request candidate diagnostics h hs diagnostic hmem
    rcases rejected_cases h with ⟨v, rfl⟩ | rfl
    · have o := v.diagnostics diagnostic hmem
      exact ⟨o.starts_inside, o.ordered, o.ends_inside⟩
    · rw [mem_singleton] at hmem
      subst hmem
      refine ⟨Int.le_refl _, Int.le_refl _, ?_⟩
      rw [(validSlice_of_check hs).ends]
      exact Int.le_add_of_nonneg_right (Int.natCast_nonneg _)

end Beagle.ReaderProtocol
