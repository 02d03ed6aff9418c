/-
Encoding and decoding are inverse.

The encoder's stack is read as the decoder's: what an expectation of the encoder leaves open
is what one or two of the decoder leave open.  So the text of events that are encoded is
completed by their tokens, and is a text of the grammar.  The other way round, the tokens of
a value take the encoder from any place where a value may stand to what is expected behind it.
-/
import Beagle.Proofs.JsonDecoding

namespace Beagle.JsonCodec

open Beagle.Native (Text)
open Beagle.Lib (Utf8.encode Utf8.decode Utf8.encode_ofList Utf8.encode_injective
  Utf8.encodeChar_of_mem Utf8.encode_of_decode)
open Beagle.Lib.Json List

/-! ### Strings -/

theorem whole_append {fr b : Text} (hfr : Whole fr) (hb : Whole b) : Whole (fr ++ b) := by
  obtain ⟨cs, rfl⟩ := hfr
  obtain ⟨ds, rfl⟩ := hb
  exact ⟨cs ++ ds, flatMap_append.symm⟩

variable {bytes : Text}

theorem whole_ascii (h : ∀ byt ∈ bytes, byt.toNat < 128) : Whole bytes := by
  obtain ⟨t, -, rfl⟩ := decode_ascii h
  exact whole_encode t

theorem whole_escape {c : Char} {e : Text} (h : Escape c e) (hbs : Whole bytes) :
    Whole (92 :: (e ++ bytes)) := by
  refine @whole_append (92 :: e) bytes (whole_ascii ?_) hbs
  intro byt hmem
  rcases mem_cons.mp hmem with rfl | hmem
  · decide
  · exact h.ascii byt hmem

theorem whole_body {cs : List Char} (h : StringBody cs bytes) : Whole bytes := by
  induction h with
  | nil => exact ⟨[], rfl⟩
  | unescaped _ _ ih => exact whole_append ⟨[_], (flatMap_singleton ..).symm⟩ ih
  | escape hb _ ih => exact whole_escape (.short hb) ih
  | unicode hu hh hlow _ ih => exact whole_escape (.unicode hu hh hlow) ih
  | pair hu hu' hh hlow _ ih => exact whole_escape (.pair hu hu' hh hlow) ih

variable {byt : UInt8}

theorem encodeByte_plain (h : Plain byt) : encodeByte byt = [byt] := by
  obtain ⟨hlow, hq, hs⟩ := h
  have ho : ∀ small : UInt8, small < 32 → byt ≠ small := by
    rintro small hsm rfl
    exact hlow hsm
  unfold encodeByte
  rw [if_neg hq, if_neg hs, if_neg (ho 8 (by decide)), if_neg (ho 12 (by decide)),
    if_neg (ho 10 (by decide)), if_neg (ho 13 (by decide)), if_neg (ho 9 (by decide)),
    if_neg hlow]

theorem flatMap_plain (h : ∀ byt ∈ bytes, Plain byt) : bytes.flatMap encodeByte = bytes := by
  induction bytes with
  | nil => rfl
  | cons byt bytes ih =>
    rw [flatMap_cons, encodeByte_plain (h byt mem_cons_self),
      ih fun b hb => h b (mem_cons_of_mem _ hb)]
    rfl

/-- Any other byte below 128 is encoded as an escape of its character. -/
theorem encodeByte_escape (h : byt = 34 ∨ byt = 92 ∨ byt < 32) :
    ∃ escape, encodeByte byt = 92 :: escape ∧ Escape (Char.ofNat byt.toNat) escape := by
  by_cases hq : byt = 34
  · exact ⟨[34], by rw [hq]; rfl, by rw [hq]; exact .short rfl⟩
  by_cases hs : byt = 92
  · exact ⟨[92], by rw [hs]; rfl, by rw [hs]; exact .short rfl⟩
  by_cases hb : byt = 8
  · exact ⟨[98], by rw [hb]; rfl, by rw [hb]; exact .short rfl⟩
  by_cases hf : byt = 12
  · exact ⟨[102], by rw [hf]; rfl, by rw [hf]; exact .short rfl⟩
  by_cases hl : byt = 10
  · exact ⟨[110], by rw [hl]; rfl, by rw [hl]; exact .short rfl⟩
  by_cases hr : byt = 13
  · exact ⟨[114], by rw [hr]; rfl, by rw [hr]; exact .short rfl⟩
  by_cases htab : byt = 9
  · exact ⟨[116], by rw [htab]; rfl, by rw [htab]; exact .short rfl⟩
  · have hctl : byt < 32 := by
      rcases h with h | h | h
      · exact absurd h hq
      · exact absurd h hs
      · exact h
    have hu : ∀ n < 32, hexUnit 48 48 (hexAscii (n / 16)) (hexAscii (n % 16)) = some n := by
      decide
    have hun := hu byt.toNat (UInt8.lt_iff_toNat_lt.mp hctl)
    have hsm : byt.toNat < 32 := UInt8.lt_iff_toNat_lt.mp hctl
    refine ⟨[117, 48, 48, hexAscii (byt.toNat / 16), hexAscii (byt.toNat % 16)], ?_,
      .unicode hun (fun hh => ?_) (fun hlow => ?_)⟩
    · unfold encodeByte
      rw [if_neg hq, if_neg hs, if_neg hb, if_neg hf, if_neg hl, if_neg hr,
        if_neg htab, if_pos hctl]
    · have := hh.1
      omega
    · have := hlow.1
      omega

theorem body_encode (cs : List Char) :
    StringBody cs ((cs.flatMap String.utf8EncodeChar).flatMap encodeByte) := by
  induction cs with
  | nil => exact .nil
  | cons c cs ih =>
    rw [flatMap_cons, flatMap_append]
    by_cases hc : Unescaped c
    · rw [flatMap_plain (plain_of_unescaped hc)]
      exact .unescaped hc ih
    · have hlow := lt_of_not_unescaped hc
      have hb : (UInt8.ofNat c.toNat).toNat = c.toNat := by
        rw [UInt8.toNat_ofNat']
        omega
      have he : UInt8.ofNat c.toNat = 34 ∨ UInt8.ofNat c.toNat = 92 ∨ UInt8.ofNat c.toNat < 32 := by
        by_cases hq : c = '"'
        · subst hq
          exact Or.inl rfl
        by_cases hs : c = '\\'
        · subst hs
          exact Or.inr (Or.inl rfl)
        · refine Or.inr (Or.inr ?_)
          rw [UInt8.lt_iff_toNat_lt, hb]
          by_cases hctl : 32 ≤ c.toNat
          · exact absurd ⟨hctl, hq, hs⟩ hc
          · simp
            omega
      obtain ⟨e, hes, hch⟩ := encodeByte_escape he
      rw [hb, Char.ofNat_toNat] at hch
      rw [encodeChar_of_lt hlow, flatMap_singleton, hes]
      exact hch.body ih

/-- **A string is encoded to what spells it.** -/
theorem encodeString_eq (value : String) :
    ∃ text body, encodeString value = some text ∧ Utf8.encode text = 34 :: (body ++ [34]) ∧
      Body value body := by
  have hbody : StringBody value.toList ((Utf8.encode value).flatMap encodeByte) :=
    body_encode value.toList
  have hquote : Whole [34] := whole_ascii (all_iff_forall_prop.mp (by decide))
  obtain ⟨cs, hcs⟩ : Whole (34 :: ((Utf8.encode value).flatMap encodeByte ++ [34])) :=
    @whole_append [34] _ hquote (whole_append (whole_body hbody) hquote)
  refine ⟨String.ofList cs, (Utf8.encode value).flatMap encodeByte, ?_, ?_, hbody⟩
  · rw [encodeString, hcs, decode_flatMap]
  · rw [Utf8.encode_ofList, hcs]

/-! ### Numbers -/

/-- **A lexeme is accepted if it is a number of the grammar.** -/
theorem numberLexeme_eq (lx : String) : ∃ a, numberLexeme lx = some a ∧
      (a = true ↔ Number (Utf8.encode lx)) := by
  have hall : ∀ bytes : Text, Number bytes → scanNumber bytes 0 = scannedNumber bytes 0 := by
    intro bytes hbs
    have hs := @scanNumber_number bytes [] hbs (fun _ h => absurd h (by simp))
      (fun h => absurd h (by simp)) (fun _ h => absurd h (by simp)) 0
    rw [append_nil] at hs
    exact hs
  unfold numberLexeme
  rcases scanNumber_spec (Utf8.encode lx) 0 with
    ⟨p, m, hs, -⟩ | ⟨bytes, mo, hsp, hbs, hs⟩
  · rw [hs]
    refine ⟨false, rfl, fun h => absurd h Bool.false_ne_true, ?_⟩
    intro hnum
    obtain ⟨t, -, ht⟩ := scannedNumber_eq hnum 0
    exact absurd (hs.symm.trans ((hall _ hnum).trans ht)) (by simp)
  · obtain ⟨t, -, ht⟩ := scannedNumber_eq hbs 0
    rw [hs, ht]
    refine ⟨_, rfl, ?_, ?_⟩
    · intro heq
      have hlen := congrArg List.length hsp
      rw [beq_iff_eq, Nat.zero_add] at heq
      rw [length_append, ← heq] at hlen
      have hm : mo = [] := length_eq_zero_iff.mp (by omega)
      rw [hsp, hm, append_nil]
      exact hbs
    · intro hnum
      obtain ⟨t', -, ht'⟩ := scannedNumber_eq hnum 0
      have hsa := (hs.trans ht).symm.trans ((hall _ hnum).trans ht')
      obtain ⟨-, hn⟩ := NumberScan.scanned.inj (Option.some.inj hsa)
      rw [beq_iff_eq, hn, Nat.zero_add]

/-! ### The encoder's stack as the decoder's -/

/-- What an expectation of the encoder leaves open. -/
def openedBy : EncodeExpectation → List ParseExpectation
  | .value => [.value]
  | .objectKeyFirst => [.objectKeyFirst]
  | .objectKeyNext => [.objectCommaOrEnd]
  | .objectValue => [.value, .objectCommaOrEnd]
  | .arrayValueFirst => [.arrayValueFirst]
  | .arrayValueNext => [.arrayCommaOrEnd]
  | .done => [.done]

/-- The bytes complete the encoder's stack, and have these tokens. -/
def Finishes (stack : List EncodeExpectation) (tokens : List JsonToken) (bytes : Text) : Prop :=
  Completes (stack.flatMap openedBy) tokens bytes

inductive EncodeClosed : List EncodeExpectation → Prop where
  | done : EncodeClosed [.done]
  | push {expectation : EncodeExpectation} {below : List EncodeExpectation}
      (he : expectation ≠ .done) (h : EncodeClosed below) : EncodeClosed (expectation :: below)

/-- What the first event of a value may come to: it is refused, or its text completes the value
if what is behind it is completed. -/
def ValueOutcome (token : JsonToken) (lead : String) (stack : List EncodeExpectation)
    (step : Option EncodeStep) : Prop :=
  (∃ message, step = some (.rejected message)) ∨
  ∃ text expectation below, step = some (.encoded (lead ++ text) expectation below) ∧
    EncodeClosed (expectation :: below) ∧ ∀ tokens bytes,
      Finishes (expectation :: below) tokens bytes →
        Completes (.value :: stack.flatMap openedBy) (token :: tokens) (Utf8.encode text ++ bytes)

variable {v : Json}

theorem value_bare (h : Spells Body (.value v) bytes) :
    Expected .value (valueTokens v) bytes := @Expected.value _ [] _ blank_nil h

/-- A value of one event. -/
theorem outcome_single {token : JsonToken} {l t : String}
    {expectation : EncodeExpectation} {below : List EncodeExpectation}
    (hcl : EncodeClosed (expectation :: below)) (ht : valueTokens v = [token])
    (h : Spells Body (.value v) (Utf8.encode t)) :
    ValueOutcome token l (expectation :: below) (some (.encoded (l ++ t) expectation below)) := by
  refine Or.inr ⟨t, expectation, below, rfl, hcl, ?_⟩
  intro tokens bytes hb
  exact ⟨[token], Utf8.encode t, tokens, bytes, rfl, rfl, ht ▸ value_bare h, hb⟩

theorem encodeValueStep_outcome (token : JsonToken) (l : String)
    {expectation : EncodeExpectation} {below : List EncodeExpectation}
    (hcl : EncodeClosed (expectation :: below)) :
    ValueOutcome token l (expectation :: below) (encodeValueStep token l expectation below) := by
  cases token with
  | objectStart =>
    refine Or.inr ⟨"\x7b", .objectKeyFirst, expectation :: below, rfl,
      .push EncodeExpectation.noConfusion hcl, ?_⟩
    exact fun tokens bytes h => @Completes.front .value _ _ [.objectStart] _ [123] _ h
      fun tokens bytes h => expected_object h
  | arrayStart =>
    refine Or.inr ⟨"[", .arrayValueFirst, expectation :: below, rfl,
      .push EncodeExpectation.noConfusion hcl, ?_⟩
    exact fun tokens bytes h => @Completes.front .value _ _ [.arrayStart] _ [91] _ h
      fun tokens bytes h => expected_array h
  | string v =>
    obtain ⟨t, b, ht, hbs, hb⟩ := encodeString_eq v
    have hs : Spells Body (.value (.string v)) (Utf8.encode t) := by
      rw [hbs]
      exact .string hb
    unfold encodeValueStep
    dsimp only
    rw [ht]
    exact outcome_single hcl rfl hs
  | number lx =>
    obtain ⟨a, hacc, hnum⟩ := numberLexeme_eq lx
    unfold encodeValueStep
    dsimp only
    rw [hacc]
    cases a with
    | false => exact Or.inl ⟨_, rfl⟩
    | true => exact outcome_single hcl rfl (.number ⟨lx, hnum.mp rfl⟩)
  | boolean v =>
    cases v with
    | true => exact outcome_single hcl rfl .true
    | false => exact outcome_single hcl rfl .false
  | null => exact outcome_single hcl rfl .null
  | objectEnd | arrayEnd | key v => exact Or.inl ⟨_, rfl⟩

/-- What one event may come to. -/
def EventOutcome (token : JsonToken) (stack : List EncodeExpectation)
    (step : Option EncodeStep) : Prop :=
  (∃ message, step = some (.rejected message)) ∨
  ∃ fragment expectation below, step = some (.encoded fragment expectation below) ∧
    EncodeClosed (expectation :: below) ∧ ∀ tokens bytes,
      Finishes (expectation :: below) tokens bytes →
        Finishes stack (token :: tokens) (Utf8.encode fragment ++ bytes)

theorem encode_append (fr back : String) :
    Utf8.encode (fr ++ back) = Utf8.encode fr ++ Utf8.encode back := by
  rw [Utf8.encode, String.toList_append, flatMap_append]
  rfl

theorem encodeEnd_outcome {token : JsonToken} {fragment : String} {expectation : EncodeExpectation}
    {od : ParseExpectation} {below : List EncodeExpectation}
    (he : expectation ≠ .done) (hcl : EncodeClosed (expectation :: below))
    (ho : openedBy expectation = [od])
    (hexp : Expected od [token] (Utf8.encode fragment)) :
    EventOutcome token (expectation :: below) (encodeEnd fragment below) := by
  cases hcl with
  | done => exact absurd rfl he
  | push _ hb =>
    cases below with
    | nil => cases hb
    | cons n below =>
      refine Or.inr ⟨fragment, n, below, rfl, hb, ?_⟩
      intro tokens bytes h
      rw [Finishes, flatMap_cons, ho]
      exact ⟨[token], Utf8.encode fragment, tokens, bytes, rfl, rfl, hexp, h⟩

/-- A value behind `lead`, where `opened` is open. -/
theorem outcome_value {token : JsonToken} {l : String} {expectation : EncodeExpectation}
    {st below : List EncodeExpectation} {step : Option EncodeStep}
    (h : ValueOutcome token l (expectation :: below) step)
    (hl : ∀ tokens bytes,
      Completes (.value :: (expectation :: below).flatMap openedBy) tokens bytes →
        Finishes st tokens (Utf8.encode l ++ bytes)) :
    EventOutcome token st step := by
  rcases h with ⟨m, hs⟩ | ⟨t, n, u, hs, hcl, hc⟩
  · exact Or.inl ⟨m, hs⟩
  · refine Or.inr ⟨l ++ t, n, u, hs, hcl, ?_⟩
    intro tokens bytes hu
    rw [encode_append, append_assoc]
    exact hl _ _ (hc tokens bytes hu)

/-- A key, its colon, and what is before it. -/
theorem outcome_key {v l : String} {expectation : EncodeExpectation}
    {od : ParseExpectation} {below : List EncodeExpectation} (hcl : EncodeClosed below)
    (ho : openedBy expectation = [od])
    (hl : ∀ tokens bytes, Expected .objectKeyNext tokens bytes →
      Expected od tokens (Utf8.encode l ++ bytes)) :
    EventOutcome (.key v) (expectation :: below)
      ((encodeString v).map fun t => .encoded (l ++ t ++ ":") .objectValue below) := by
  obtain ⟨t, b, ht, hbs, hb⟩ := encodeString_eq v
  rw [ht]
  refine Or.inr ⟨l ++ t ++ ":", .objectValue, below, rfl,
    .push EncodeExpectation.noConfusion hcl, ?_⟩
  intro tokens bytes h
  rw [Finishes, flatMap_cons, ho]
  have hcol : Completes (.colon :: below.flatMap openedBy) tokens (58 :: bytes) :=
    completes_colon h
  have hkey := @Completes.front od .colon _ [.key v] _
    (Utf8.encode l ++ 34 :: (b ++ [34])) _ hcol (fun tokens bytes hr => by
      have := hl _ _ (expected_members (Or.inr rfl) hb hr)
      simp only [append_assoc, cons_append, nil_append] at this ⊢
      exact this)
  rw [encode_append, encode_append, hbs]
  simp only [append_assoc, cons_append, nil_append] at hkey ⊢
  exact hkey

/-- The end of an array, or an item behind `lead`. -/
theorem outcome_arrayItem {token : JsonToken} {l : String} {expectation : EncodeExpectation}
    {od : ParseExpectation} {below : List EncodeExpectation} (hcl : EncodeClosed below)
    (he : expectation ≠ .done) (ho : openedBy expectation = [od])
    (hend : Expected od [.arrayEnd] [93])
    (hl : ∀ tokens bytes, Expected .arrayValueNext tokens bytes →
      Expected od tokens (Utf8.encode l ++ bytes)) :
    EventOutcome token (expectation :: below) (match token with
        | .arrayEnd => encodeEnd "]" below
        | _ => encodeValueStep token l .arrayValueNext below) := by
  have hval : EventOutcome token (expectation :: below)
      (encodeValueStep token l .arrayValueNext below) := by
    refine outcome_value
      (encodeValueStep_outcome token l (.push EncodeExpectation.noConfusion hcl)) ?_
    intro tokens bytes h
    have hi : Completes (.arrayValueNext :: below.flatMap openedBy) tokens bytes :=
      completes_items (Or.inr rfl) h
    rw [Finishes, flatMap_cons, ho]
    exact @Completes.front od .arrayValueNext _ [] _ (Utf8.encode l) _ hi hl
  cases token with
  | arrayEnd => exact encodeEnd_outcome he (.push he hcl) ho hend
  | _ => exact hval

/-- **What one event may come to, in any state.** -/
theorem encodeEvent_outcome (token : JsonToken) {expectation : EncodeExpectation}
    {below : List EncodeExpectation} (hcl : EncodeClosed (expectation :: below)) :
    EventOutcome token (expectation :: below) (encodeEvent token below expectation) := by
  have hb : expectation ≠ .done → EncodeClosed below := by
    intro he
    cases hcl with
    | done => exact absurd rfl he
    | push _ h => exact h
  cases expectation with
  | value =>
    have hu := hb EncodeExpectation.noConfusion
    cases below with
    | nil => cases hu
    | cons n u =>
      exact outcome_value (encodeValueStep_outcome token "" hu) fun tokens bytes h => h
  | objectValue =>
    have hu := hb EncodeExpectation.noConfusion
    exact outcome_value (encodeValueStep_outcome token "" (.push EncodeExpectation.noConfusion
      hu)) fun tokens bytes h => h
  | objectKeyFirst =>
    have hu := hb EncodeExpectation.noConfusion
    cases token with
    | objectEnd =>
      exact @encodeEnd_outcome _ "\x7d" _ .objectKeyFirst _ EncodeExpectation.noConfusion
        hcl rfl (@Expected.objectEnd _ [] (Or.inl rfl) blank_nil)
    | key value =>
      have hkey := @outcome_key value "" .objectKeyFirst .objectKeyFirst below hu rfl
        fun tokens bytes h => by
          cases h with
          | items he' | arrayEnd he' | objectEnd he' => simp at he'
          | members _ h => exact .members (Or.inl rfl) h
      simp only [String.empty_append] at hkey
      exact hkey
    | _ => exact Or.inl ⟨_, rfl⟩
  | objectKeyNext =>
    have hu := hb EncodeExpectation.noConfusion
    cases token with
    | objectEnd =>
      exact @encodeEnd_outcome _ "\x7d" _ .objectCommaOrEnd _ EncodeExpectation.noConfusion
        hcl rfl (@Expected.objectEnd _ [] (Or.inr rfl) blank_nil)
    | key value =>
      exact @outcome_key value "," .objectKeyNext .objectCommaOrEnd below hu rfl
        fun tokens bytes h => expected_objectComma h
    | _ => exact Or.inl ⟨_, rfl⟩
  | arrayValueFirst =>
    exact outcome_arrayItem (hb EncodeExpectation.noConfusion) EncodeExpectation.noConfusion
      rfl (@Expected.arrayEnd _ [] (Or.inl rfl) blank_nil) fun tokens bytes h => by
        cases h with
        | arrayEnd he' | members he' | objectEnd he' => simp at he'
        | items _ h => exact .items (Or.inl rfl) h
  | arrayValueNext =>
    exact outcome_arrayItem (hb EncodeExpectation.noConfusion) EncodeExpectation.noConfusion
      rfl (@Expected.arrayEnd _ [] (Or.inr rfl) blank_nil) fun tokens bytes h =>
        expected_arrayComma h
  | done => exact Or.inl ⟨_, rfl⟩

/-- **The encoder stops: with an error, or with a text that its events complete.** -/
theorem encodeFrom_spec (es : List JsonEvent) (i : Nat) (res : String)
    {expectation : EncodeExpectation} {below : List EncodeExpectation}
    (hcl : EncodeClosed (expectation :: below)) :
    (∃ p m, encodeFrom es i res expectation below = some (.error p m)) ∨
    ∃ t, encodeFrom es i res expectation below = some (.encoded (res ++ t)) ∧
      Finishes (expectation :: below) (es.map JsonEvent.token) (Utf8.encode t) := by
  induction es generalizing i res expectation below with
  | nil =>
    cases expectation with
    | done =>
      refine Or.inr ⟨"", ?_, ?_⟩
      · rw [String.append_empty]
        rfl
      · cases hcl with
        | done => exact ⟨[], [], [], [], rfl, rfl, .done blank_nil, rfl, rfl⟩
        | push he => exact absurd rfl he
    | _ => exact Or.inl ⟨_, _, rfl⟩
  | cons e es ih =>
    rw [encodeFrom]
    rcases encodeEvent_outcome e.token hcl with
      ⟨m, hs⟩ | ⟨fragment, n, u, hs, hn, hf⟩
    · rw [hs]
      exact Or.inl ⟨_, _, rfl⟩
    · rw [hs]
      dsimp only
      rcases ih (i + 1) (res ++ fragment) hn with
        ⟨p, m, hrun⟩ | ⟨t, hrun, hm⟩
      · exact Or.inl ⟨p, m, hrun⟩
      · refine Or.inr ⟨fragment ++ t, by rw [hrun, String.append_assoc], ?_⟩
        rw [encode_append, map_cons]
        exact hf _ _ hm

/-! ### The tokens of a value -/

/-- Events with these tokens take the encoder from one state to another. -/
def Encodes (tokens : List JsonToken) (expectation : EncodeExpectation)
    (below : List EncodeExpectation) (next : EncodeExpectation)
    (under : List EncodeExpectation) : Prop :=
  ∀ (events rest : List JsonEvent) (index : Nat) (result : String),
    events.map JsonEvent.token = tokens → ∃ place fragment,
      encodeFrom (events ++ rest) index result expectation below =
        encodeFrom rest place (result ++ fragment) next under

section Encodes

variable {token : JsonToken} {tokens others : List JsonToken} {fragment l : String}
  {expectation n la : EncodeExpectation} {below u g : List EncodeExpectation}

theorem Encodes.single (h : encodeEvent token below expectation = some (.encoded fragment n u)) :
    Encodes [token] expectation below n u := by
  intro es r i res ht
  obtain ⟨e, others, rfl, rfl, hos⟩ := map_eq_cons_iff.mp ht
  obtain rfl := map_eq_nil_iff.mp hos
  refine ⟨i + 1, fragment, ?_⟩
  rw [cons_append, nil_append, encodeFrom, h]

theorem Encodes.trans (hfst : Encodes tokens expectation below n u)
    (hsnd : Encodes others n u la g) :
    Encodes (tokens ++ others) expectation below la g := by
  intro events rest index result htoks
  obtain ⟨front, back, rfl, hfr, hback⟩ := map_eq_append_iff.mp htoks
  obtain ⟨place, fragment, hrun⟩ := hfst front (back ++ rest) index result hfr
  obtain ⟨place', fragment', hrun'⟩ := hsnd back rest place (result ++ fragment) hback
  refine ⟨place', fragment ++ fragment', ?_⟩
  rw [append_assoc, hrun, hrun', String.append_assoc]

/-- A value is expected behind `lead`, and `next` behind the value. -/
def ValueAt (expectation : EncodeExpectation) (below : List EncodeExpectation) (lead : String)
    (next : EncodeExpectation) (under : List EncodeExpectation) : Prop :=
  ∀ token, token ≠ .arrayEnd →
    encodeEvent token below expectation = encodeValueStep token lead next under

theorem valueAt_items (he : expectation = .arrayValueFirst ∨ expectation = .arrayValueNext) :
    ∃ l, ValueAt expectation below l .arrayValueNext below := by
  rcases he with rfl | rfl
  · refine ⟨"", fun token htok => ?_⟩
    cases token with
    | arrayEnd => exact absurd rfl htok
    | _ => rfl
  · refine ⟨",", fun token htok => ?_⟩
    cases token with
    | arrayEnd => exact absurd rfl htok
    | _ => rfl

theorem encodes_arrayEnd (he : expectation = .arrayValueFirst ∨ expectation = .arrayValueNext) :
    Encodes [.arrayEnd] expectation (n :: u) n u := by
  rcases he with rfl | rfl
  · exact @Encodes.single _ "]" _ _ _ _ rfl
  · exact @Encodes.single _ "]" _ _ _ _ rfl

theorem encodes_objectEnd (he : expectation = .objectKeyFirst ∨ expectation = .objectKeyNext) :
    Encodes [.objectEnd] expectation (n :: u) n u := by
  rcases he with rfl | rfl
  · exact @Encodes.single _ "\x7d" _ _ _ _ rfl
  · exact @Encodes.single _ "\x7d" _ _ _ _ rfl

theorem encodes_key (he : expectation = .objectKeyFirst ∨ expectation = .objectKeyNext)
    (v : String) : Encodes [.key v] expectation below .objectValue below := by
  obtain ⟨t, -, ht, -⟩ := encodeString_eq v
  rcases he with rfl | rfl
  · refine @Encodes.single _ (t ++ ":") _ _ _ _ ?_
    show (encodeString v).map _ = _
    rw [ht]
    rfl
  · refine @Encodes.single _ ("," ++ t ++ ":") _ _ _ _ ?_
    show (encodeString v).map _ = _
    rw [ht]
    rfl

end Encodes

mutual

/-- **Wherever a value may stand, its tokens take the encoder behind it.** -/
theorem encodes_value (v : Json) {expectation n : EncodeExpectation}
    {below u : List EncodeExpectation} {l : String}
    (h : ValueAt expectation below l n u) :
    Encodes (valueTokens v) expectation below n u := by
  cases v with
  | null => exact Encodes.single (h .null nofun)
  | boolean v => exact Encodes.single (h (.boolean v) nofun)
  | number lx =>
    obtain ⟨a, hacc, hnum⟩ := numberLexeme_eq lx.text
    refine @Encodes.single _ (l ++ lx.text) _ _ _ _ ((h (.number _) nofun).trans ?_)
    show (numberLexeme lx.text).map _ = _
    rw [hacc, hnum.mpr lx.number]
    rfl
  | string v =>
    obtain ⟨t, -, ht, -⟩ := encodeString_eq v
    refine @Encodes.single _ (l ++ t) _ _ _ _ ((h (.string v) nofun).trans ?_)
    show (encodeString v).map _ = _
    rw [ht]
    rfl
  | array its =>
    exact Encodes.trans (Encodes.single (h .arrayStart nofun)) (encodes_items its (Or.inl rfl))
  | object ms =>
    exact Encodes.trans (Encodes.single (h .objectStart nofun)) (encodes_members ms (Or.inl rfl))

theorem encodes_items (its : List Json) {expectation n : EncodeExpectation}
    {u : List EncodeExpectation}
    (he : expectation = .arrayValueFirst ∨ expectation = .arrayValueNext) :
    Encodes (itemsTokens its ++ [.arrayEnd]) expectation (n :: u) n u := by
  cases its with
  | nil => exact encodes_arrayEnd he
  | cons i its =>
    obtain ⟨l, hl⟩ := @valueAt_items _ (n :: u) he
    rw [itemsTokens, append_assoc]
    exact Encodes.trans (encodes_value i hl) (encodes_items its (Or.inr rfl))

theorem encodes_members (ms : List (String × Json)) {expectation n : EncodeExpectation}
    {u : List EncodeExpectation}
    (he : expectation = .objectKeyFirst ∨ expectation = .objectKeyNext) :
    Encodes (membersTokens ms ++ [.objectEnd]) expectation (n :: u) n u := by
  cases ms with
  | nil => exact encodes_objectEnd he
  | cons m ms =>
    obtain ⟨key, v⟩ := m
    have hval : ValueAt .objectValue (n :: u) "" .objectKeyNext (n :: u) :=
      fun _ _ => rfl
    show Encodes ([.key key] ++ (valueTokens v ++ membersTokens ms) ++ [.objectEnd]) _ _
      _ _
    rw [append_assoc, append_assoc]
    exact Encodes.trans (encodes_key he key)
      (Encodes.trans (encodes_value v hval) (encodes_members ms (Or.inr rfl)))

end

/-! ### No two values have the same tokens -/

theorem numberLexeme_ext {first second : NumberLexeme} (h : first.text = second.text) :
    first = second := by
  obtain ⟨t, n⟩ := first
  obtain ⟨text', n'⟩ := second
  obtain rfl : t = text' := h
  rfl

/-- A value's tokens start with no end. -/
theorem valueTokens_head (v : Json) :
    ∃ token m, valueTokens v = token :: m ∧ token ≠ .arrayEnd := by
  cases v with
  | null | boolean _ | number _ | string _ | array _ | object _ => exact ⟨_, _, rfl, nofun⟩

mutual

theorem valueTokens_cancel (first s : Json) {r others : List JsonToken}
    (h : valueTokens first ++ r = valueTokens s ++ others) :
    first = s ∧ r = others := by
  cases first with
  | array its =>
    cases s with
    | array its' =>
      simp only [valueTokens, cons_append, append_assoc, List.cons.injEq, true_and, nil_append] at h
      obtain ⟨rfl, hr⟩ := itemsTokens_cancel its its' h
      exact ⟨rfl, hr⟩
    | null | boolean _ | number _ | string _ | object _ => simp [valueTokens] at h
  | object ms =>
    cases s with
    | object ms' =>
      simp only [valueTokens, cons_append, append_assoc, List.cons.injEq, true_and, nil_append] at h
      obtain ⟨rfl, hr⟩ := membersTokens_cancel ms ms' h
      exact ⟨rfl, hr⟩
    | null | boolean _ | number _ | string _ | array _ => simp [valueTokens] at h
  | null | boolean _ | string _ =>
    cases s with
    | null | boolean _ | number _ | string _ | array _ | object _ =>
      simpa [valueTokens] using h
  | number lx =>
    cases s with
    | number lx' =>
      simp only [valueTokens, cons_append, List.cons.injEq, JsonToken.number.injEq, nil_append] at h
      exact ⟨congrArg Json.number (numberLexeme_ext h.1), h.2⟩
    | null | boolean _ | string _ | array _ | object _ => simp [valueTokens] at h

theorem itemsTokens_cancel (first s : List Json) {r others : List JsonToken}
    (h : itemsTokens first ++ .arrayEnd :: r = itemsTokens s ++ .arrayEnd :: others) :
    first = s ∧ r = others := by
  cases first with
  | nil =>
    cases s with
    | nil => exact ⟨rfl, (List.cons.inj h).2⟩
    | cons i its =>
      obtain ⟨token, m, htok, hne⟩ := valueTokens_head i
      rw [itemsTokens, itemsTokens, htok] at h
      exact absurd (List.cons.inj h).1.symm hne
  | cons i its =>
    cases s with
    | nil =>
      obtain ⟨token, m, htok, hne⟩ := valueTokens_head i
      rw [itemsTokens, itemsTokens, htok] at h
      exact absurd (List.cons.inj h).1 hne
    | cons i' its' =>
      simp only [itemsTokens, append_assoc] at h
      obtain ⟨rfl, hi⟩ := valueTokens_cancel i i' h
      obtain ⟨rfl, hr⟩ := itemsTokens_cancel its its' hi
      exact ⟨rfl, hr⟩

theorem membersTokens_cancel (first s : List (String × Json)) {r others : List JsonToken}
    (h : membersTokens first ++ .objectEnd :: r = membersTokens s ++ .objectEnd :: others) :
    first = s ∧ r = others := by
  cases first with
  | nil =>
    cases s with
    | nil => exact ⟨rfl, (List.cons.inj h).2⟩
    | cons m ms => simp [membersTokens] at h
  | cons m ms =>
    obtain ⟨key, v⟩ := m
    cases s with
    | nil => simp [membersTokens] at h
    | cons m' ms' =>
      obtain ⟨key', v'⟩ := m'
      simp only [membersTokens, append_assoc, cons_append, List.cons.injEq,
        JsonToken.key.injEq] at h
      obtain ⟨rfl, hmo⟩ := h
      obtain ⟨rfl, hm⟩ := valueTokens_cancel v v' hmo
      obtain ⟨rfl, hr⟩ := membersTokens_cancel ms ms' hm
      exact ⟨rfl, hr⟩

end

theorem valueTokens_injective {first second : Json} (h : valueTokens first = valueTokens second) :
    first = second :=
  (@valueTokens_cancel first second [] [] (congrArg (· ++ []) h)).1

/-! ### Encoding and decoding -/

/-- Events that are a value from its first token to its last are encoded. -/
theorem encode_value {es : List JsonEvent} (h : es.map JsonEvent.token = valueTokens v) :
    ∃ t, encode es = some (.encoded t) := by
  have hval : ValueAt .value [.done] "" .done [] := fun _ _ => rfl
  obtain ⟨p, fragment, hrun⟩ := encodes_value v hval es [] 0 "" h
  rw [append_nil] at hrun
  exact ⟨"" ++ fragment, hrun⟩

/-- The text of events that are encoded spells a value with their tokens. -/
theorem encode_spells (es : List JsonEvent) : (∃ p m, encode es = some (.error p m)) ∨
    ∃ t value, encode es = some (.encoded t) ∧
      JsonText Body value (Utf8.encode t) ∧ es.map JsonEvent.token = valueTokens value := by
  rcases @encodeFrom_spec es 0 "" .value [.done] (.push EncodeExpectation.noConfusion .done) with
    ⟨p, m, hrun⟩ | ⟨t, hrun, hf⟩
  · exact Or.inl ⟨p, m, hrun⟩
  · obtain ⟨value, ht, hto⟩ := jsonText_of_completes hf
    rw [String.empty_append] at hrun
    exact Or.inr ⟨t, value, hrun, ht, hto⟩

/-- **Encoding and decoding are inverse: the events that are encoded are those of one value, and
a text that either side makes or takes comes back as the same tokens.** -/
theorem encode_decode : (∀ events : List JsonEvent, encode events ≠ none ∧
      ((∃ text, encode events = some (.encoded text)) ↔
        ∃ value, events.map JsonEvent.token = valueTokens value ∧
          ∀ other, events.map JsonEvent.token = valueTokens other → other = value) ∧
      ∀ text, encode events = some (.encoded text) →
        ∃ others, decode text = some (.decoded others) ∧
          others.map JsonEvent.token = events.map JsonEvent.token) ∧
    ∀ (text : String) (events : List JsonEvent), decode text = some (.decoded events) →
      ∃ text' others, encode events = some (.encoded text') ∧
        decode text' = some (.decoded others) ∧
        others.map JsonEvent.token = events.map JsonEvent.token := by
  have hb : ∀ (events : List JsonEvent) (text : String),
      encode events = some (.encoded text) → ∃ others, decode text = some (.decoded others) ∧
        others.map JsonEvent.token = events.map JsonEvent.token := by
    intro events text h
    rcases encode_spells events with ⟨p, m, hrun⟩ | ⟨text', value, hrun, hte, ht⟩
    · exact absurd (h.symm.trans hrun) (by simp)
    · obtain rfl := JsonEncodeResult.encoded.inj (Option.some.inj (hrun.symm.trans h))
      obtain ⟨others, hos, hs⟩ := decode_jsonText hte
      exact ⟨others, hos, hs.trans ht.symm⟩
  refine ⟨fun events => ⟨?_, ⟨?_, ?_⟩, hb events⟩, ?_⟩
  · rcases encode_spells events with ⟨p, m, hrun⟩ | ⟨text, value, hrun, -⟩
    · rw [hrun]
      exact Option.some_ne_none _
    · rw [hrun]
      exact Option.some_ne_none _
  · rintro ⟨text, h⟩
    rcases encode_spells events with ⟨p, m, hrun⟩ | ⟨text', value, -, -, ht⟩
    · exact absurd (h.symm.trans hrun) (by simp)
    · exact ⟨value, ht, fun other ho =>
        valueTokens_injective (ho.symm.trans ht)⟩
  · rintro ⟨value, ht, -⟩
    exact encode_value ht
  · intro text events h
    rcases decode_cases text with
      ⟨p, m, hrun, -⟩ | ⟨others, value, hrun, -, ht, -⟩
    · exact absurd (h.symm.trans hrun) (by simp)
    · obtain rfl := JsonDecodeResult.decoded.inj (Option.some.inj (hrun.symm.trans h))
      obtain ⟨text', ht'⟩ := encode_value ht
      obtain ⟨b, hdec, hs⟩ := hb _ _ ht'
      exact ⟨text', b, ht', hdec, hs⟩

end Beagle.JsonCodec
