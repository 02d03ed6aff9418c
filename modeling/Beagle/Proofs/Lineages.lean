/-
Lineages are read back, and name their parents.

The line that is written for a valid lineage is read as a map of eleven keys and values in
order, whatever its generation and parents.  Since the payload is compared, nothing else is
accepted for a lineage; and since the identity of a lineage is a digest of its payload, it
names one parent at most, of the generation before.
-/
import Beagle.Native.Bootstrap
import Beagle.Proofs.DataReading

namespace Beagle.Bootstrap

open Beagle.Native List
open Beagle.DatumReader
open Beagle.Edn
open Beagle.Lib (Utf8.encode)
open Beagle.Lib.Frames

/-! ### Identities -/

/-- No quote and no backslash. -/
def plainByte (byte : UInt8) : Bool := byte != 34 && byte != 92

def PlainText (value : Text) : Prop := ∀ byte ∈ value, byte ≠ 34 ∧ byte ≠ 92

theorem plainText_of_all {value : Text} (h : value.all plainByte = true) : PlainText value := by
  intro b hb
  have hone := all_eq_true.mp h b hb
  unfold plainByte at hone
  rwa [Bool.and_eq_true, bne_iff_ne, bne_iff_ne] at hone

theorem exactContentId_iff {v : Text} : exactContentId v = true ↔
    v.length = 71 ∧ v.take 7 = Utf8.encode "sha256:" ∧
      ∀ b ∈ v.drop 7, b ∈ Utf8.encode "0123456789abcdef" := by
  unfold exactContentId
  simp only [Bool.and_eq_true, beq_iff_eq, all_eq_true, contains_iff_mem, and_assoc]

/-- An exact identity holds no quote and no backslash. -/
theorem plainText_of_exact {value : Text} (h : exactContentId value = true) : PlainText value := by
  obtain ⟨-, ht, hdr⟩ := exactContentId_iff.mp h
  have hfr : PlainText (Utf8.encode "sha256:") := plainText_of_all (by decide)
  have hd : PlainText (Utf8.encode "0123456789abcdef") := plainText_of_all (by decide)
  intro b hbyte
  rw [← take_append_drop 7 value, List.mem_append, ht] at hbyte
  rcases hbyte with hbyte | hbyte
  · exact hfr b hbyte
  · exact hd b (hdr b hbyte)

/-- Hexadecimal digits are one byte each. -/
theorem encode_hex {ds : List Char} (h : ∀ c ∈ ds, c ∈ "0123456789abcdef".toList) :
    (ds.flatMap String.utf8EncodeChar).length = ds.length ∧
      ∀ b ∈ ds.flatMap String.utf8EncodeChar, b ∈ Utf8.encode "0123456789abcdef" := by
  have hone : ∀ c ∈ "0123456789abcdef".toList, (String.utf8EncodeChar c).length = 1 ∧
      (String.utf8EncodeChar c).all (fun b => decide (b ∈ Utf8.encode "0123456789abcdef")) = true :=
    all_iff_forall_prop.mp (by decide)
  induction ds with
  | nil => exact ⟨rfl, forall_mem_nil _⟩
  | cons c ds ih =>
    obtain ⟨hlen, hall⟩ := hone c (h c mem_cons_self)
    have hmem := all_iff_forall_prop.mp hall
    obtain ⟨hl, hm⟩ := ih fun d hd => h d (mem_cons_of_mem _ hd)
    rw [flatMap_cons]
    refine ⟨?_, ?_⟩
    · rw [length_append, hlen, hl, length_cons, Nat.add_comm]
    · intro b hbyte
      rcases List.mem_append.mp hbyte with hbyte | hbyte
      · exact hmem b hbyte
      · exact hm b hbyte

/-- A digest is an exact identity. -/
theorem exactContentId_contentId (s : Sha256) (payload : Text) :
    exactContentId (contentId s payload) = true := by
  obtain ⟨hlen, hmem⟩ := encode_hex (s.hex payload)
  have hs : ((s.bytes payload).toList).length = 64 := s.size payload
  have hfr : (Utf8.encode "sha256:").length = 7 := by decide
  have hsp : contentId s payload = Utf8.encode "sha256:" ++ Utf8.encode (s.bytes payload) :=
    encode_append _ _
  rw [exactContentId_iff, hsp]
  refine ⟨?_, ?_, ?_⟩
  · rw [length_append, hfr]
    show 7 + ((s.bytes payload).toList.flatMap String.utf8EncodeChar).length = 71
    rw [hlen, hs]
  · rw [← hfr, take_left]
  · rw [← hfr, drop_left]
    exact hmem

variable {payload : Text}

theorem contentId_injective {s : Sha256} {payload' : Text} {i : Set Text}
    (hinj : Set.InjOn s.bytes i) (hmem : payload ∈ i)
    (hmem' : payload' ∈ i) (h : contentId s payload = contentId s payload') :
    payload = payload' := by
  have hc := congrArg String.toList (Beagle.Lib.Utf8.encode_injective h)
  rw [String.toList_append, String.toList_append] at hc
  exact hinj hmem hmem' (String.toList_injective (append_cancel_left hc))

/-! ### Keys and values -/

/-- A key and its value, and what comes behind them. -/
def field (key : String) (value rest : Text) : Text :=
  58 :: (Utf8.encode key ++ 32 :: (value ++ rest))

def quoted (value : Text) : Text := 34 :: (value ++ [34])

/-- Bytes that may stand behind the colon of a keyword. -/
def keyName (name : Text) : Bool :=
  name != [] && name.head? != some 58 && name.all fun byte => !delimiter byte

variable {st : List Kind} {fs : List (Kind × Text)} {lineage : NativeCompilerLineage}

theorem readsAs_key {key : String} (hkey : keyName (Utf8.encode key) = true) {v r : Text}
    (h : ReadsAs (v ++ r) st fs) :
    ReadsAs (field key v r) st ((.keyword, 58 :: Utf8.encode key) :: fs) := by
  unfold keyName at hkey
  simp only [Bool.and_eq_true, all_eq_true, Bool.not_eq_true'] at hkey
  have hd : Delimited (32 :: (v ++ r)) := by
    intro b hb
    obtain rfl := Option.some.inj hb
    rfl
  exact readsAs_atom (by decide) hkey.2 hd (readsAs_blank (by decide) h)

theorem readsAs_quoted {v r : Text} (hval : PlainText v) (h : ReadsAs r st fs) :
    ReadsAs (quoted v ++ r) st ((.string, v) :: fs) := by
  unfold quoted
  rw [cons_append, append_assoc, singleton_append]
  exact readsAs_string hval h

theorem scalarAs_keyword {key : String} (hkey : keyName (Utf8.encode key) = true) :
    ScalarAs (.keyword, 58 :: Utf8.encode key) (.keyword 0 (Utf8.encode key)) := by
  unfold keyName at hkey
  simp only [Bool.and_eq_true, bne_iff_ne] at hkey
  obtain ⟨⟨hne, hh⟩, -⟩ := hkey
  intro e hev
  obtain ⟨hk, hval⟩ := Prod.mk.inj hev
  refine ⟨by rw [hk]; decide, .keyword e.offset (Utf8.encode key), ?_, rfl⟩
  unfold scalarEvent
  rw [hk]
  dsimp only
  rw [hval, if_neg]
  · rfl
  · rintro (hs | hcol)
    · rw [length_cons] at hs
      exact hne (length_eq_zero_iff.mp (by omega))
    · rw [getElem?_cons_succ, ← head?_eq_getElem?] at hcol
      exact hh hcol

theorem scalarAs_string (v : Text) : ScalarAs (.string, v) (.string 0 v) := by
  intro e hev
  obtain ⟨hk, hval⟩ := Prod.mk.inj hev
  refine ⟨by rw [hk]; decide, .string e.offset v, ?_, rfl⟩
  unfold scalarEvent
  rw [hk, hval]

/-- A parent's identity, which may be missing. -/
def optionalForm : Option Text → Kind × Text
  | none => (.nil, [110, 105, 108])
  | some value => (.string, value)

def optionalEvent : Option Text → EdnEvent
  | none => .nil 0
  | some value => .string 0 value

theorem scalarAs_optional (v : Option Text) : ScalarAs (optionalForm v) (optionalEvent v) := by
  cases v with
  | some v => exact scalarAs_string v
  | none =>
    intro e hev
    have hk : e.kind = .nil := congrArg Prod.fst hev
    refine ⟨by rw [hk]; decide, .nil e.offset, ?_, rfl⟩
    unfold scalarEvent
    rw [hk]

variable {value : Option Text}

theorem readsAs_optional (hval : ∀ text ∈ value, PlainText text)
    {rest : Text} (h : ReadsAs rest st fs) :
    ReadsAs (optionalContentIdText value ++ 32 :: rest) st (optionalForm value :: fs) := by
  have hblank : ReadsAs (32 :: rest) st fs := readsAs_blank (by decide) h
  cases value with
  | some value =>
    have htext : optionalContentIdText (some value) = quoted value := rfl
    rw [htext]
    exact readsAs_quoted (hval value rfl) hblank
  | none =>
    have hdelim : Delimited (32 :: rest) := by
      intro byte hbyte
      obtain rfl := Option.some.inj hbyte
      rfl
    have hnil : ∀ byte ∈ ([105, 108] : Text), delimiter byte = false :=
      all_iff_forall_prop.mp (by decide)
    exact readsAs_atom (by decide) hnil hdelim hblank

/-! ### Generations -/

theorem digit_starts {b : UInt8} (h : decimal b = true) :
    starts b = true ∧ delimiter b = false ∧ b ≠ 58 ∧ b ≠ 116 ∧ b ≠ 102 ∧
      b ≠ 110 ∧ b ≠ 45 ∧ b ≠ 43 := by
  have hall : ∀ n : Fin 10, starts (UInt8.ofNat (48 + n.val)) = true ∧
      delimiter (UInt8.ofNat (48 + n.val)) = false ∧ UInt8.ofNat (48 + n.val) ≠ 58 ∧
      UInt8.ofNat (48 + n.val) ≠ 116 ∧ UInt8.ofNat (48 + n.val) ≠ 102 ∧
      UInt8.ofNat (48 + n.val) ≠ 110 ∧ UInt8.ofNat (48 + n.val) ≠ 45 ∧
      UInt8.ofNat (48 + n.val) ≠ 43 := by
    decide
  have hr := decimal_iff.mp h
  rw [digit_of_decimal h]
  exact hall ⟨b.toNat - 48, by omega⟩

theorem numeral_cons (n : Nat) : ∃ first r, numeral n = first :: r ∧
    decimal first = true ∧ ∀ b ∈ r, decimal b = true := by
  cases hnum : numeral n with
  | nil => exact absurd hnum (numeral_ne_nil n)
  | cons first r =>
    have hdec : ∀ b ∈ first :: r, decimal b = true := by
      intro b hb
      rw [← hnum] at hb
      exact decimal_of_mem_numeral hb
    exact ⟨first, r, rfl, hdec first mem_cons_self,
      fun b hb => hdec b (mem_cons_of_mem _ hb)⟩

theorem readsAs_numeral (n : Nat) {r : Text} (h : ReadsAs r st fs) :
    ReadsAs (numeral n ++ 32 :: r) st ((.symbol, numeral n) :: fs) := by
  obtain ⟨first, ds, hnum, hfst, hdi⟩ := numeral_cons n
  obtain ⟨hs, -, hcol, ht, hf, hn, -⟩ := digit_starts hfst
  have hk : atomKind (first :: ds) = .symbol := by
    unfold atomKind
    rw [head?_cons, if_neg (by simpa using hcol), if_neg (by simp [ht, hf]), if_neg (by simp [hn])]
  have hd : Delimited (32 :: r) := by
    intro b hb
    obtain rfl := Option.some.inj hb
    rfl
  have hr := readsAs_atom hs (fun b hb => (digit_starts (hdi b hb)).2.1)
    hd (readsAs_blank (by decide) h)
  rw [hk] at hr
  rw [hnum]
  exact hr

theorem scalarAs_numeral {n : Nat} {l : Long} (hl : l.val = n) :
    ScalarAs (.symbol, numeral n) (.integer 0 l) := by
  obtain ⟨first, ds, hnum, hfst, hd⟩ := numeral_cons n
  obtain ⟨-, -, -, -, -, -, hmin, hp⟩ := digit_starts hfst
  intro e hev
  obtain ⟨hk, hval⟩ := Prod.mk.inj hev
  refine ⟨by rw [hk]; decide, .integer e.offset l, ?_, rfl⟩
  have hall : (first :: ds).all decimal = true :=
    all_eq_true.mpr fun b hbyte => by
      rcases mem_cons.mp hbyte with rfl | hbyte
      · exact hfst
      · exact hd b hbyte
  have htok : integerToken (first :: ds) = true := by
    unfold integerToken
    rw [head?_cons, if_neg (by simp [hmin, hp])]
    dsimp only
    rw [hall]
    rfl
  have hr : readLong (numeral n) = some l := by
    rw [readLong_eq, signed_of_decimal (numeral_ne_nil n)
      (fun b hbyte => decimal_of_mem_numeral hbyte), value_numeral, hl]
  unfold scalarEvent
  rw [hk, hval]
  dsimp only
  rw [hr, hnum, htok]
  rfl

/-! ### The payload -/

/-- The payload as keys and values. -/
theorem lineagePayload_eq (lineage : NativeCompilerLineage) : lineagePayload lineage =
      123 :: field "compiler-context-id" (quoted lineage.compilerContextId)
        (32 :: field "executable-content-id" (quoted lineage.executableContentId)
          (32 :: field "format" (quoted lineage.format)
            (32 :: field "generation" (Utf8.encode (toString lineage.generation.val))
              (32 :: field "materialization-content-id" (quoted lineage.materializationContentId)
                (32 :: field "parent-executable-content-id"
                  (optionalContentIdText lineage.parentExecutableContentId)
                  (32 :: field "parent-lineage-content-id"
                    (optionalContentIdText lineage.parentLineageContentId)
                    (32 :: field "rule-set-content-id" (quoted lineage.ruleSetContentId)
                      (32 :: field "schema-content-id" (quoted lineage.schemaContentId)
                        (32 :: field "semantic-content-id" (quoted lineage.semanticContentId)
                          (32 :: field "target-id" (quoted lineage.targetId)
                            [125, 10])))))))))) := by
  have hctx : Utf8.encode "\x7b:compiler-context-id \"" =
      123 :: 58 :: (Utf8.encode "compiler-context-id" ++ [32, 34]) := by decide
  have he : Utf8.encode "\" :executable-content-id \"" =
      34 :: 32 :: 58 :: (Utf8.encode "executable-content-id" ++ [32, 34]) := by decide
  have hf : Utf8.encode "\" :format \"" =
      34 :: 32 :: 58 :: (Utf8.encode "format" ++ [32, 34]) := by decide
  have hgen : Utf8.encode "\" :generation " =
      34 :: 32 :: 58 :: (Utf8.encode "generation" ++ [32]) := by decide
  have hmat : Utf8.encode " :materialization-content-id \"" =
      32 :: 58 :: (Utf8.encode "materialization-content-id" ++ [32, 34]) := by decide
  have hpe : Utf8.encode "\" :parent-executable-content-id " =
      34 :: 32 :: 58 :: (Utf8.encode "parent-executable-content-id" ++ [32]) := by decide
  have hpl : Utf8.encode " :parent-lineage-content-id " =
      32 :: 58 :: (Utf8.encode "parent-lineage-content-id" ++ [32]) := by decide
  have hrs : Utf8.encode " :rule-set-content-id \"" =
      32 :: 58 :: (Utf8.encode "rule-set-content-id" ++ [32, 34]) := by decide
  have hsch : Utf8.encode "\" :schema-content-id \"" =
      34 :: 32 :: 58 :: (Utf8.encode "schema-content-id" ++ [32, 34]) := by decide
  have hsem : Utf8.encode "\" :semantic-content-id \"" =
      34 :: 32 :: 58 :: (Utf8.encode "semantic-content-id" ++ [32, 34]) := by decide
  have htgt : Utf8.encode "\" :target-id \"" =
      34 :: 32 :: 58 :: (Utf8.encode "target-id" ++ [32, 34]) := by decide
  have hend : Utf8.encode "\"\x7d\n" = [34, 125, 10] := by decide
  unfold lineagePayload field quoted
  rw [hctx, he, hf, hgen, hmat, hpe, hpl, hrs, hsch, hsem, htgt, hend]
  simp only [cons_append, append_assoc, nil_append]

/-- The forms between the brackets. -/
def lineageForms (lineage : NativeCompilerLineage) : List (Kind × Text) :=
  [(.keyword, 58 :: Utf8.encode "compiler-context-id"), (.string, lineage.compilerContextId),
    (.keyword, 58 :: Utf8.encode "executable-content-id"), (.string, lineage.executableContentId),
    (.keyword, 58 :: Utf8.encode "format"), (.string, lineage.format),
    (.keyword, 58 :: Utf8.encode "generation"), (.symbol, numeral lineage.generation.val.natAbs),
    (.keyword, 58 :: Utf8.encode "materialization-content-id"),
    (.string, lineage.materializationContentId),
    (.keyword, 58 :: Utf8.encode "parent-executable-content-id"),
    optionalForm lineage.parentExecutableContentId,
    (.keyword, 58 :: Utf8.encode "parent-lineage-content-id"),
    optionalForm lineage.parentLineageContentId,
    (.keyword, 58 :: Utf8.encode "rule-set-content-id"), (.string, lineage.ruleSetContentId),
    (.keyword, 58 :: Utf8.encode "schema-content-id"), (.string, lineage.schemaContentId),
    (.keyword, 58 :: Utf8.encode "semantic-content-id"), (.string, lineage.semanticContentId),
    (.keyword, 58 :: Utf8.encode "target-id"), (.string, lineage.targetId)]

/-- The events between the brackets, without their places. -/
def lineageEvents (lineage : NativeCompilerLineage) : List EdnEvent :=
  [.keyword 0 (Utf8.encode "compiler-context-id"), .string 0 lineage.compilerContextId,
    .keyword 0 (Utf8.encode "executable-content-id"), .string 0 lineage.executableContentId,
    .keyword 0 (Utf8.encode "format"), .string 0 lineage.format,
    .keyword 0 (Utf8.encode "generation"), .integer 0 lineage.generation,
    .keyword 0 (Utf8.encode "materialization-content-id"),
    .string 0 lineage.materializationContentId,
    .keyword 0 (Utf8.encode "parent-executable-content-id"),
    optionalEvent lineage.parentExecutableContentId,
    .keyword 0 (Utf8.encode "parent-lineage-content-id"),
    optionalEvent lineage.parentLineageContentId,
    .keyword 0 (Utf8.encode "rule-set-content-id"), .string 0 lineage.ruleSetContentId,
    .keyword 0 (Utf8.encode "schema-content-id"), .string 0 lineage.schemaContentId,
    .keyword 0 (Utf8.encode "semantic-content-id"), .string 0 lineage.semanticContentId,
    .keyword 0 (Utf8.encode "target-id"), .string 0 lineage.targetId]

/-- Fields that can be written without escapes. -/
structure Writable (lineage : NativeCompilerLineage) : Prop where
  format : PlainText lineage.format
  generation : 0 ≤ lineage.generation.val
  semantic : PlainText lineage.semanticContentId
  materialization : PlainText lineage.materializationContentId
  executable : PlainText lineage.executableContentId
  parentExecutable : ∀ text ∈ lineage.parentExecutableContentId, PlainText text
  parentLineage : ∀ text ∈ lineage.parentLineageContentId, PlainText text
  context : PlainText lineage.compilerContextId
  schema : PlainText lineage.schemaContentId
  ruleSet : PlainText lineage.ruleSetContentId
  target : PlainText lineage.targetId

theorem readsAs_lineagePayload (h : Writable lineage) : ReadsAs (lineagePayload lineage) []
      ((.mapOpen, []) :: (lineageForms lineage ++ [(.mapClose, [])])) := by
  have hgen : Utf8.encode (toString lineage.generation.val) =
      numeral lineage.generation.val.natAbs := by
    obtain ⟨n, hn⟩ := Int.eq_ofNat_of_zero_le h.generation
    rw [hn]
    rfl
  have hs : ∀ {r : Text} {st : List Kind} {fs : List (Kind × Text)},
      ReadsAs r st fs → ReadsAs (32 :: r) st fs :=
    fun hr => readsAs_blank (by decide) hr
  rw [lineagePayload_eq, hgen]
  refine readsAs_mapOpen ?_
  refine readsAs_key (by decide) (readsAs_quoted h.context (hs ?_))
  refine readsAs_key (by decide) (readsAs_quoted h.executable (hs ?_))
  refine readsAs_key (by decide) (readsAs_quoted h.format (hs ?_))
  refine readsAs_key (by decide) (readsAs_numeral _ ?_)
  refine readsAs_key (by decide) (readsAs_quoted h.materialization (hs ?_))
  refine readsAs_key (by decide) (readsAs_optional h.parentExecutable ?_)
  refine readsAs_key (by decide) (readsAs_optional h.parentLineage ?_)
  refine readsAs_key (by decide) (readsAs_quoted h.ruleSet (hs ?_))
  refine readsAs_key (by decide) (readsAs_quoted h.schema (hs ?_))
  refine readsAs_key (by decide) (readsAs_quoted h.semantic (hs ?_))
  refine readsAs_key (by decide) (readsAs_quoted h.target ?_)
  exact readsAs_mapClose (readsAs_blank (by decide) readsAs_nil)

theorem lineageForms_scalars (h : Writable lineage) :
    Forall₂ ScalarAs (lineageForms lineage) (lineageEvents lineage) := by
  have hgen : ScalarAs (.symbol, numeral lineage.generation.val.natAbs)
      (.integer 0 lineage.generation) :=
    scalarAs_numeral (Int.natAbs_of_nonneg h.generation).symm
  unfold lineageForms lineageEvents
  refine .cons (scalarAs_keyword (by decide)) (.cons (scalarAs_string _) ?_)
  refine .cons (scalarAs_keyword (by decide)) (.cons (scalarAs_string _) ?_)
  refine .cons (scalarAs_keyword (by decide)) (.cons (scalarAs_string _) ?_)
  refine .cons (scalarAs_keyword (by decide)) (.cons hgen ?_)
  refine .cons (scalarAs_keyword (by decide)) (.cons (scalarAs_string _) ?_)
  refine .cons (scalarAs_keyword (by decide)) (.cons (scalarAs_optional _) ?_)
  refine .cons (scalarAs_keyword (by decide)) (.cons (scalarAs_optional _) ?_)
  refine .cons (scalarAs_keyword (by decide)) (.cons (scalarAs_string _) ?_)
  refine .cons (scalarAs_keyword (by decide)) (.cons (scalarAs_string _) ?_)
  refine .cons (scalarAs_keyword (by decide)) (.cons (scalarAs_string _) ?_)
  exact .cons (scalarAs_keyword (by decide)) (.cons (scalarAs_string _) .nil)

/-! ### Positions -/

/-- No reading of an event sees where the event stands. -/
theorem reads_at0 (es : List EdnEvent) (i : Nat) :
    ednMapStart (es.map EdnEvent.at0) i = ednMapStart es i ∧
      ednMapEnd (es.map EdnEvent.at0) i = ednMapEnd es i ∧
      (∀ ex, ednKeywordAt (es.map EdnEvent.at0) i ex = ednKeywordAt es i ex) ∧
      ednStringAt (es.map EdnEvent.at0) i = ednStringAt es i ∧
      ednIntAt (es.map EdnEvent.at0) i = ednIntAt es i ∧
      ednNilAt (es.map EdnEvent.at0) i = ednNilAt es i := by
  simp only [ednMapStart, ednMapEnd, ednKeywordAt, ednStringAt, ednIntAt, ednNilAt, getElem?_map]
  cases es[i]? with
  | none => simp
  | some e => cases e <;> simp [EdnEvent.at0]

theorem lineageEventsShape_at0 (es : List EdnEvent) (generation : Int) :
    lineageEventsShape (es.map EdnEvent.at0) generation = lineageEventsShape es generation := by
  unfold lineageEventsShape parentShape
  simp only [reads_at0, length_map]

theorem lineageOf_at0 (es : List EdnEvent) (generation : Long) :
    lineageOf (es.map EdnEvent.at0) generation = lineageOf es generation := by
  unfold lineageOf
  simp only [reads_at0]

variable {es : List EdnEvent} {i : Nat}

theorem ednStringAt_optional (h : es[i]? = some (optionalEvent value))
    : ednStringAt es i = value := by
  unfold ednStringAt
  rw [h]
  cases value <;> rfl

/-- The fields are read from where they stand. -/
theorem lineageOf_lineageEvents (lineage : NativeCompilerLineage) :
    lineageOf (.mapStart 0 :: (lineageEvents lineage ++ [.mapEnd 0])) lineage.generation =
      lineage := by
  have he : ednStringAt (.mapStart 0 :: (lineageEvents lineage ++ [.mapEnd 0])) 12 =
      lineage.parentExecutableContentId := ednStringAt_optional rfl
  have hlin : ednStringAt (.mapStart 0 :: (lineageEvents lineage ++ [.mapEnd 0])) 14 =
      lineage.parentLineageContentId := ednStringAt_optional rfl
  unfold lineageOf
  rw [he, hlin]
  rfl

theorem parentShape_lineageEvents {g : Int} {v : Option Text}
    (hval : if g = 0 then v = none else v.isSome = true)
    (h : es[i]? = some (optionalEvent v)) :
    parentShape es g i = true := by
  unfold parentShape
  by_cases hz : g = 0
  · rw [if_pos hz] at hval ⊢
    unfold ednNilAt
    rw [h, hval]
    rfl
  · rw [if_neg hz] at hval ⊢
    rw [ednStringAt_optional h]
    exact hval

theorem lineageEventsShape_lineageEvents
    (hexec : if lineage.generation.val = 0 then lineage.parentExecutableContentId = none
      else lineage.parentExecutableContentId.isSome = true)
    (hlin : if lineage.generation.val = 0 then lineage.parentLineageContentId = none
      else lineage.parentLineageContentId.isSome = true) :
    lineageEventsShape (.mapStart 0 :: (lineageEvents lineage ++ [.mapEnd 0]))
      lineage.generation.val = true := by
  unfold lineageEventsShape
  rw [parentShape_lineageEvents hexec rfl, parentShape_lineageEvents hlin rfl]
  have hkw : ∀ {es : List EdnEvent} {i : Nat} {key : String},
      es[i]? = some (.keyword 0 (Utf8.encode key)) → ednKeywordAt es i key = true := by
    intro es i key h
    unfold ednKeywordAt
    rw [h]
    exact beq_self_eq_true _
  simp only [Bool.and_eq_true]
  refine ⟨⟨⟨⟨⟨⟨⟨⟨⟨⟨⟨⟨⟨⟨⟨⟨⟨⟨⟨⟨⟨⟨⟨⟨rfl, rfl⟩, hkw rfl⟩, rfl⟩, hkw rfl⟩, rfl⟩, hkw rfl⟩,
    rfl⟩, hkw rfl⟩, rfl⟩, hkw rfl⟩, rfl⟩, hkw rfl⟩, trivial⟩, hkw rfl⟩,
    trivial⟩, hkw rfl⟩, rfl⟩, hkw rfl⟩, rfl⟩, hkw rfl⟩, rfl⟩, hkw rfl⟩, rfl⟩, rfl⟩

/-! ### Valid lineages -/

/-- What `lineageValid` checks. -/
structure Valid (sha : Sha256) (lineage : NativeCompilerLineage) : Prop where
  format : lineage.format = compilerLineageFormat
  generation : 0 ≤ lineage.generation.val
  semantic : exactContentId lineage.semanticContentId = true
  materialization : exactContentId lineage.materializationContentId = true
  executable : exactContentId lineage.executableContentId = true
  context : lineage.compilerContextId = defaultCompilerContextId sha
  schema : lineage.schemaContentId = compilerSchemaContentId sha
  ruleSet : lineage.ruleSetContentId = defaultRuleSetContentId sha
  target : lineage.targetId = defaultTargetId
  parents : parentsValid lineage = true

variable {s : Sha256}

theorem lineageValid_iff : lineageValid s lineage = true ↔ Valid s lineage := by
  unfold lineageValid
  simp only [Bool.and_eq_true, beq_iff_eq, decide_eq_true_iff]
  constructor
  · rintro ⟨⟨⟨⟨⟨⟨⟨⟨⟨hf, hgen⟩, hsem⟩, hmat⟩, he⟩, hctx⟩, hsch⟩, hrs⟩, htgt⟩, hp⟩
    exact ⟨hf, hgen, hsem, hmat, he, hctx, hsch, hrs, htgt, hp⟩
  · intro h
    exact ⟨⟨⟨⟨⟨⟨⟨⟨⟨h.format, h.generation⟩, h.semantic⟩, h.materialization⟩, h.executable⟩,
      h.context⟩, h.schema⟩, h.ruleSet⟩, h.target⟩, h.parents⟩

/-- The parents of a valid lineage are exact identities. -/
theorem parentsValid_cases (h : parentsValid lineage = true) :
    (lineage.generation.val = 0 ∧ lineage.parentExecutableContentId = none ∧
      lineage.parentLineageContentId = none) ∨
    (lineage.generation.val ≠ 0 ∧ ∃ e parent, lineage.parentExecutableContentId = some e ∧
        lineage.parentLineageContentId = some parent ∧
        exactContentId e = true ∧ exactContentId parent = true) := by
  unfold parentsValid at h
  by_cases hz : lineage.generation.val = 0
  · rw [if_pos hz, Bool.and_eq_true, Option.isNone_iff_eq_none, Option.isNone_iff_eq_none] at h
    exact Or.inl ⟨hz, h.1, h.2⟩
  · rw [if_neg hz] at h
    simp only [Bool.and_eq_true] at h
    obtain ⟨⟨⟨hex, hlin⟩, he⟩, hex'⟩ := h
    obtain ⟨e, hs⟩ := Option.isSome_iff_exists.mp hex
    obtain ⟨parent, hs'⟩ := Option.isSome_iff_exists.mp hlin
    rw [hs] at he
    rw [hs'] at hex'
    exact Or.inr ⟨hz, e, parent, hs, hs', he, hex'⟩

theorem Valid.writable (h : Valid s lineage) : Writable lineage where
  format := by
    rw [h.format]
    exact plainText_of_all (by decide)
  generation := h.generation
  semantic := plainText_of_exact h.semantic
  materialization := plainText_of_exact h.materialization
  executable := plainText_of_exact h.executable
  parentExecutable := by
    intro t ht
    rcases parentsValid_cases h.parents with ⟨-, hn, -⟩ | ⟨-, executable, _, hs, -, he, -⟩
    · rw [hn] at ht
      cases ht
    · rw [hs] at ht
      obtain rfl := Option.some.inj ht
      exact plainText_of_exact he
  parentLineage := by
    intro t ht
    rcases parentsValid_cases h.parents with ⟨-, -, hn⟩ | ⟨-, _, parent, -, hs, -, he⟩
    · rw [hn] at ht
      cases ht
    · rw [hs] at ht
      obtain rfl := Option.some.inj ht
      exact plainText_of_exact he
  context := by
    rw [h.context]
    exact plainText_of_exact (exactContentId_contentId s _)
  schema := by
    rw [h.schema]
    exact plainText_of_exact (exactContentId_contentId s _)
  ruleSet := by
    rw [h.ruleSet]
    exact plainText_of_exact (exactContentId_contentId s _)
  target := by
    rw [h.target]
    exact plainText_of_all (by decide)

/-- A valid lineage is read back from its payload. -/
theorem decodeLineage_lineagePayload (h : Valid s lineage) :
    decodeLineage s (lineagePayload lineage) = .decoded lineage := by
  have he : (lineageForms lineage).length % 2 = 0 := by
    have hlen : (lineageForms lineage).length = 22 := by
      unfold lineageForms
      rfl
    rw [hlen]
  obtain ⟨es, hdec, hevs⟩ :=
    decode_map (readsAs_lineagePayload h.writable) (lineageForms_scalars h.writable) he
  have hp : (if lineage.generation.val = 0 then lineage.parentExecutableContentId = none
        else lineage.parentExecutableContentId.isSome = true) ∧
      if lineage.generation.val = 0 then lineage.parentLineageContentId = none
        else lineage.parentLineageContentId.isSome = true := by
    rcases parentsValid_cases h.parents with ⟨hz, hn, hn'⟩ | ⟨hz, _, _, hso, hs', -⟩
    · rw [if_pos hz, if_pos hz]
      exact ⟨hn, hn'⟩
    · rw [if_neg hz, if_neg hz, hso, hs']
      exact ⟨rfl, rfl⟩
  have hgen : ednIntAt es 8 = some lineage.generation := by
    rw [← (reads_at0 _ _).2.2.2.2.1, hevs]
    rfl
  have hs : lineageEventsShape es lineage.generation.val = true := by
    rw [← lineageEventsShape_at0, hevs]
    exact lineageEventsShape_lineageEvents hp.1 hp.2
  have hlin : lineageOf es lineage.generation = lineage := by
    rw [← lineageOf_at0, hevs]
    exact lineageOf_lineageEvents lineage
  unfold decodeLineage
  rw [hdec]
  dsimp only
  rw [hgen, Option.getD_some, hs, hlin, lineageValid_iff.mpr h]
  simp

/-- What is accepted is valid, and its payload is what was read. -/
theorem decodeLineage_eq (h : decodeLineage s payload = .decoded lineage) :
    Valid s lineage ∧ lineagePayload lineage = payload := by
  unfold decodeLineage at h
  split at h
  · cases h
  · dsimp only at h
    split at h
    · cases h
    · split at h
      · rename_i hchk
        cases h
        rw [Bool.and_eq_true, beq_iff_eq] at hchk
        exact ⟨lineageValid_iff.mp hchk.1, hchk.2.symm⟩
      · cases h

/-- Valid lineages are told by their payloads. -/
theorem lineagePayload_injective {lineage' : NativeCompilerLineage} (h : Valid s lineage)
    (h' : Valid s lineage') (hpay : lineagePayload lineage = lineagePayload lineage') :
    lineage = lineage' := by
  have hdec := decodeLineage_lineagePayload h
  rw [hpay, decodeLineage_lineagePayload h'] at hdec
  exact (LineageDecode.decoded.inj hdec).symm

/-! ### Children -/

/-- What `lineageChildOf` checks. -/
structure ChildOf (sha : Sha256) (child parent : NativeCompilerLineage) : Prop where
  childValid : Valid sha child
  parentValid : Valid sha parent
  generation : child.generation.val = 1 + parent.generation.val
  executable : child.parentExecutableContentId = some parent.executableContentId
  lineage : child.parentLineageContentId = some (lineageContentId sha parent)

variable {parent : NativeCompilerLineage} {lineages : List NativeCompilerLineage}

theorem lineageChildOf_iff {c : NativeCompilerLineage} :
    lineageChildOf s c parent = true ↔ ChildOf s c parent := by
  unfold lineageChildOf
  simp only [Bool.and_eq_true, beq_iff_eq, lineageValid_iff]
  constructor
  · rintro ⟨⟨⟨⟨hc, hpar⟩, hgen⟩, he⟩, hlin⟩
    exact ⟨hc, hpar, hgen, he, hlin⟩
  · intro h
    exact ⟨⟨⟨⟨h.childValid, h.parentValid⟩, h.generation⟩, h.executable⟩, h.lineage⟩

/-- The first of a line is valid. -/
theorem valid_rootLineage {sem m e : Text} (hsem : exactContentId sem = true)
    (hmat : exactContentId m = true)
    (he : exactContentId e = true) :
    Valid s (rootLineage s sem m e) :=
  ⟨rfl, Int.le_refl 0, hsem, hmat, he, rfl, rfl, rfl, rfl, rfl⟩

/-- The child of a valid parent is valid and its child. -/
theorem childOf_childLineage {sem m e : Text}
    (hpar : Valid s parent) (hgen : parent.generation.val < 2 ^ 63 - 1)
    (hsem : exactContentId sem = true)
    (hmat : exactContentId m = true)
    (he : exactContentId e = true) :
    ∃ c, childLineage s sem m e parent = some c ∧ ChildOf s c parent := by
  have hlow := hpar.generation
  obtain ⟨g, hn⟩ : ∃ g : Long, g.val = 1 + parent.generation.val :=
    ⟨⟨1 + parent.generation.val, by omega, by omega⟩, rfl⟩
  unfold childLineage
  rw [Long.ofInt?_eq.mpr hn]
  refine ⟨_, rfl, ?_, hpar, hn, rfl, rfl⟩
  refine ⟨rfl, ?_, hsem, hmat, he, rfl, rfl, rfl, rfl, ?_⟩
  · show 0 ≤ g.val
    omega
  · have hne : g.val ≠ 0 := by omega
    unfold parentsValid
    rw [if_neg hne]
    show (true && true && exactContentId parent.executableContentId &&
      exactContentId (contentId s (lineagePayload parent))) = true
    rw [hpar.executable, exactContentId_contentId]
    rfl

/-- A line of descent, the latest first. -/
def Descent (sha : Sha256) (lineages : List NativeCompilerLineage) : Prop :=
  lineages.IsChain fun child parent => lineageChildOf sha child parent = true

/-- Generations fall by one from each to its parent. -/
theorem Descent.generations (h : Descent s lineages) (i : Nat)
    {l e : NativeCompilerLineage} (hl : lineages.head? = some l)
    (he : lineages[i]? = some e) :
    e.generation.val + i = l.generation.val := by
  induction i generalizing lineages l with
  | zero =>
    rw [head?_eq_getElem?, he] at hl
    obtain rfl := Option.some.inj hl
    exact Int.add_zero _
  | succ i ih =>
    cases lineages with
    | nil => cases hl
    | cons c os =>
      obtain rfl := Option.some.inj hl
      cases os with
      | nil => cases he
      | cons parent os =>
        obtain ⟨hc, hos⟩ := isChain_cons_cons.mp h
        have hr := ih hos rfl he
        have hs := (lineageChildOf_iff.mp hc).generation
        omega

/-- Without a collision two lines of one descendant agree as far as both go. -/
theorem Descent.agree {others : List NativeCompilerLineage} (h : Descent s lineages)
    (h' : Descent s others)
    (hinj : Set.InjOn s.bytes {payload | ∃ lineage ∈ lineages ++ others,
      payload = lineagePayload lineage}) (hl : lineages.head? = others.head?)
    (hlen : lineages.length ≤ others.length) : lineages <+: others := by
  induction lineages generalizing others with
  | nil => exact nil_prefix
  | cons c r ih =>
    cases others with
    | nil => cases hl
    | cons child' rest' =>
      obtain rfl : c = child' := Option.some.inj hl
      refine cons_prefix_cons.mpr ⟨rfl, ?_⟩
      cases r with
      | nil => exact nil_prefix
      | cons parent r =>
        cases rest' with
        | nil => simp at hlen
        | cons parent' rest' =>
          obtain ⟨hchild, hr⟩ := isChain_cons_cons.mp h
          obtain ⟨hchild', hr'⟩ := isChain_cons_cons.mp h'
          replace hchild := lineageChildOf_iff.mp hchild
          replace hchild' := lineageChildOf_iff.mp hchild'
          have hids : lineageContentId s parent = lineageContentId s parent' :=
            Option.some.inj (hchild.lineage.symm.trans hchild'.lineage)
          have hmem : parent ∈ c :: parent :: r ++ c :: parent' :: rest' :=
            mem_append_left _ (mem_cons_of_mem _ mem_cons_self)
          have hmem' : parent' ∈ c :: parent :: r ++ c :: parent' :: rest' :=
            mem_append_right _ (mem_cons_of_mem _ mem_cons_self)
          have hpay := contentId_injective hinj ⟨parent, hmem, rfl⟩ ⟨parent', hmem', rfl⟩ hids
          have hp := lineagePayload_injective hchild.parentValid hchild'.parentValid hpay
          refine ih hr hr' (hinj.mono ?_) (congrArg some hp) (Nat.le_of_succ_le_succ hlen)
          rintro payload ⟨lineage, hlin, hof⟩
          refine ⟨lineage, ?_, hof⟩
          rw [cons_append, mem_cons]
          rcases List.mem_append.mp hlin with hmem | hmem
          · exact Or.inr (mem_append_left _ hmem)
          · exact Or.inr (mem_append_right _ (mem_cons_of_mem _ hmem))

/-- No lineage descends from itself. -/
theorem not_own_ancestor (lineage : NativeCompilerLineage) :
    ¬ Relation.TransGen (fun c parent => lineageChildOf s c parent = true) lineage lineage := by
  have hl : ∀ c parent,
      Relation.TransGen (fun c parent => lineageChildOf s c parent = true) c parent →
        parent.generation.val < c.generation.val := by
    intro c parent h
    induction h with
    | single hs | tail _ hs =>
      have hgen := (lineageChildOf_iff.mp hs).generation
      omega
  exact fun h => absurd (hl lineage lineage h) (Int.lt_irrefl _)

/-- **Lineages are canonical and chain.**  A valid lineage is read back from its payload, and
nothing else is accepted for it; the child of a valid parent is valid and its child; and
without a collision among the payloads a lineage determines its ancestry, in which
generations fall by one and no lineage comes twice. -/
theorem lineages_canonical (sha : Sha256) : (∀ lineage, lineageValid sha lineage = true →
      decodeLineage sha (lineagePayload lineage) = .decoded lineage) ∧
    (∀ payload lineage, decodeLineage sha payload = .decoded lineage →
      lineageValid sha lineage = true ∧ lineagePayload lineage = payload) ∧
    (∀ parent semantic materialization executable, lineageValid sha parent = true →
      parent.generation.val < 2 ^ 63 - 1 → exactContentId semantic = true →
      exactContentId materialization = true → exactContentId executable = true →
      ∃ child, childLineage sha semantic materialization executable parent = some child ∧
        lineageValid sha child = true ∧ lineageChildOf sha child parent = true) ∧
    (∀ lineages, Descent sha lineages → ∀ (index : Nat) latest earlier,
      lineages.head? = some latest →
      lineages[index]? = some earlier →
      earlier.generation.val + index = latest.generation.val) ∧
    (∀ lineages others, Descent sha lineages → Descent sha others →
      Set.InjOn sha.bytes {payload | ∃ lineage ∈ lineages ++ others,
        payload = lineagePayload lineage} →
      lineages.head? = others.head? → lineages.length ≤ others.length → lineages <+: others) ∧
    (∀ lineage, ¬ Relation.TransGen (fun child parent => lineageChildOf sha child parent = true)
      lineage lineage) := by
  refine ⟨?_, ?_, ?_, ?_, ?_, not_own_ancestor⟩
  · exact fun lineage h => decodeLineage_lineagePayload (lineageValid_iff.mp h)
  · intro payload lineage h
    obtain ⟨hv, hpay⟩ := decodeLineage_eq h
    exact ⟨lineageValid_iff.mpr hv, hpay⟩
  · intro parent semantic materialization executable hpar hgen hsem hmat he
    obtain ⟨child, hc, hco⟩ := childOf_childLineage (lineageValid_iff.mp hpar) hgen hsem hmat he
    exact ⟨child, hc, lineageValid_iff.mpr hco.childValid, lineageChildOf_iff.mpr hco⟩
  · exact fun lineages h index latest earlier => h.generations index
  · exact fun lineages others h h' => h.agree h'

/-- The last digits of a number in hexadecimal. -/
def hexDigits : (digits : Nat) → (n : Nat) → List Char
  | 0, _ => []
  | digits + 1, n => hexDigits digits (n / 16) ++ ["0123456789abcdef".toList.getD (n % 16) '0']

theorem hexDigits_length (digits n : Nat) : (hexDigits digits n).length = digits := by
  induction digits generalizing n with
  | zero => rfl
  | succ digits ih =>
    rw [hexDigits, length_append, ih]
    rfl

theorem hexDigits_hex (ds n : Nat) : ∀ c ∈ hexDigits ds n, c ∈ "0123456789abcdef".toList := by
  have hdig : ∀ d : Fin 16, "0123456789abcdef".toList.getD d.val '0' ∈ "0123456789abcdef".toList := by
    decide
  induction ds generalizing n with
  | zero => exact forall_mem_nil _
  | succ ds ih =>
    intro c hc
    rcases List.mem_append.mp hc with hc | hc
    · exact ih _ c hc
    · rw [mem_singleton.mp hc]
      exact hdig ⟨n % 16, Nat.mod_lt n (by decide)⟩

/-- The digests of the texts that a first lineage is made of, and of its payload, told by
their sizes; 1 is for the rule of the lowering. -/
def rootDigest : Nat → Nat
  | 1 => 0xcbd6583bba2b3271c198cad6abfc4669dbacdc710bd800dfa78d32e2248c1ca2
  | 206 => 0x73a09e036690613a4e533b49c1c306b2c604d02cad2f3a23fb48a1ffa367690b
  | 65 => 0x1ce26018fda3284ae7f90ac33b40ce2b97d9ea4c1c82e4d1851ca3438a10b7de
  | 68 => 0xad06e81b0ccbd70a1c2ca65c15265bd062501b727432745b36516be2b0714624
  | 66 => 0xc6336ea6c85e5b5b22ace29e64e38304d32b201b3d5ac77ce42aaf147a30c036
  | 75 => 0xc95e983c714f361c997a4510784237946b1e85ed7d2853b6bf127caa9df19335
  | 695 => 0x6c6aaa6e88a210b0c15648debe25167e5b05512643bedf79c2305e17795124fe
  | 535 => 0x25c626ba0d7319426625c12b2e6ec4adb620eb6d8a9d1a3b9e2fe0b73fde13e5
  | 177 => 0xf727e6d68174d0e49fa653f465eadd7a9b3c05791203c65bf8d3986ef6a37dff
  | 719 => 0xdeaec68d24c705adff6cee3d3dc776fbb8554173aeb42b4d2754fcddbd7338d9
  | _ => 0xe3b0c44298fc1c149afbf4c8996fb92427ae41e4649b934ca495991b7852b855

def rootSha : Sha256 where
  bytes input := String.ofList (hexDigits 64
    (rootDigest (if input = Utf8.encode loweringRuleDescriptor then 1 else input.length)))
  size _ := by
    rw [String.length_ofList]
    exact hexDigits_length _ _
  hex _ := by
    rw [String.toList_ofList]
    exact hexDigits_hex _ _

/-- A first lineage of nothing. -/
def emptyRoot : NativeCompilerLineage :=
  rootLineage rootSha (contentId rootSha []) (contentId rootSha []) (contentId rootSha [])

theorem emptyRoot_canonical :
    decodeLineage rootSha (lineagePayload emptyRoot) = .decoded emptyRoot ∧
      ∃ child, childLineage rootSha (contentId rootSha []) (contentId rootSha [])
          (contentId rootSha []) emptyRoot = some child ∧
        lineageValid rootSha child = true ∧ lineageChildOf rootSha child emptyRoot = true := by
  have he := exactContentId_contentId rootSha []
  have hv := lineageValid_iff.mpr (@valid_rootLineage rootSha _ _ _ he he he)
  exact ⟨(lineages_canonical rootSha).1 emptyRoot hv,
    (lineages_canonical rootSha).2.2.1 emptyRoot _ _ _ hv (by decide) he he he⟩

end Beagle.Bootstrap
