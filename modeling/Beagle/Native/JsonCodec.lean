/-
JSON read into events, and written from them.

The decoder passes over the bytes of a text once: what it expects next is one of nine
states, and what it expects behind the value it is in stands on a stack.  The encoder passes
over the events in the same way.  An event is its token and the offset where the token
starts.  `none` is a trap, as when the top of an empty stack is taken.
-/
import Beagle.Lib.Json
import Beagle.Native.Text

namespace Beagle.JsonCodec

open Beagle.Native (Text)
open Beagle.Lib (Utf8.encode Utf8.decode)

inductive JsonToken where
  | objectStart
  | objectEnd
  | arrayStart
  | arrayEnd
  | key (value : String)
  | string (value : String)
  | number (lexeme : String)
  | boolean (value : Bool)
  | null
deriving DecidableEq

structure JsonEvent where
  offset : Nat
  token : JsonToken
deriving DecidableEq

inductive JsonDecodeResult where
  | decoded (events : List JsonEvent)
  | error (offset : Nat) (message : String)
deriving DecidableEq

inductive JsonEncodeResult where
  | encoded (text : String)
  | error (eventIndex : Nat) (message : String)
deriving DecidableEq

inductive StringScan where
  | scanned (value : String) (nextOffset : Nat)
  | rejected (offset : Nat) (message : String)
deriving DecidableEq

inductive NumberScan where
  | scanned (lexeme : String) (nextOffset : Nat)
  | rejected (offset : Nat) (message : String)
deriving DecidableEq

inductive ParseExpectation where
  | value
  | objectKeyFirst
  | objectKeyNext
  | colon
  | objectCommaOrEnd
  | arrayValueFirst
  | arrayValueNext
  | arrayCommaOrEnd
  | done
deriving DecidableEq

inductive EncodeExpectation where
  | value
  | objectKeyFirst
  | objectKeyNext
  | objectValue
  | arrayValueFirst
  | arrayValueNext
  | done
deriving DecidableEq

/-! ### Strings -/

def asciiWhitespace (byte : UInt8) : Bool := byte == 32 || byte == 9 || byte == 10 || byte == 13

def decimalDigit (byte : UInt8) : Bool := 48 ≤ byte && byte ≤ 57

def nonzeroDecimalDigit (byte : UInt8) : Bool := 49 ≤ byte && byte ≤ 57

def hexValue (byte : UInt8) : Option Nat :=
  if 48 ≤ byte ∧ byte ≤ 57 then some (byte.toNat - 48)
  else if 65 ≤ byte ∧ byte ≤ 70 then some (10 + (byte.toNat - 65))
  else if 97 ≤ byte ∧ byte ≤ 102 then some (10 + (byte.toNat - 97))
  else none

/-- The unit behind the four digits a text starts with. -/
def readHex4 : Text → Option Nat
  | a :: b :: c :: d :: _ =>
    match hexValue a, hexValue b, hexValue c, hexValue d with
    | some a, some b, some c, some d => some (a * 4096 + b * 256 + c * 16 + d)
    | _, _, _, _ => none
  | _ => none

def appendCodepoint (bytes : Text) (point : Nat) : Text :=
  if point ≤ 127 then bytes ++ [UInt8.ofNat point]
  else if point ≤ 2047 then
    bytes ++ [UInt8.ofNat (192 + point / 64), UInt8.ofNat (128 + point % 64)]
  else if point ≤ 65535 then
    bytes ++ [UInt8.ofNat (224 + point / 4096), UInt8.ofNat (128 + point / 64 % 64),
      UInt8.ofNat (128 + point % 64)]
  else
    bytes ++ [UInt8.ofNat (240 + point / 262144), UInt8.ofNat (128 + point / 4096 % 64),
      UInt8.ofNat (128 + point / 64 % 64), UInt8.ofNat (128 + point % 64)]

/-- The byte that a letter behind a backslash stands for. -/
def escapedByte (escaped : UInt8) : Option UInt8 :=
  if escaped = 34 then some 34
  else if escaped = 92 then some 92
  else if escaped = 47 then some 47
  else if escaped = 98 then some 8
  else if escaped = 102 then some 12
  else if escaped = 110 then some 10
  else if escaped = 114 then some 13
  else if escaped = 116 then some 9
  else none

/-- What an escape adds to a value, and how many bytes it takes behind its backslash. -/
inductive EscapeScan where
  | escaped (result : Text) (width : Nat)
  | rejected (offset : Nat) (message : String)
deriving DecidableEq

/-- A low surrogate behind the digits of a high one. -/
def scanLowSurrogate (digits : Text) (offset : Nat) (result : Text) (unit : Nat) : EscapeScan :=
  match digits.drop 4 with
  | 92 :: 117 :: lowDigits =>
    if lowDigits.length < 4 then
      .rejected offset "high surrogate is not followed by a low surrogate"
    else
      match readHex4 lowDigits with
      | none => .rejected (offset + 8) "high surrogate is not followed by a low surrogate"
      | some low =>
        if low < 56320 ∨ 57343 < low then
          .rejected (offset + 8) "high surrogate is not followed by a low surrogate"
        else
          .escaped (appendCodepoint result (65536 + (unit - 55296) * 1024 + (low - 56320))) 11
  | _ => .rejected offset "high surrogate is not followed by a low surrogate"

/-- An escape whose backslash stands at `offset`. -/
def scanEscape (more : Text) (offset : Nat) (result : Text) : EscapeScan :=
  match more with
  | [] => .rejected offset "unterminated string escape"
  | escaped :: digits =>
    match escapedByte escaped with
    | some value => .escaped (result ++ [value]) 1
    | none =>
      if escaped = 117 then
        match readHex4 digits with
        | none => .rejected (offset + 2) "invalid four-digit Unicode escape"
        | some unit =>
          if 55296 ≤ unit ∧ unit ≤ 56319 then scanLowSurrogate digits offset result unit
          else if 56320 ≤ unit ∧ unit ≤ 57343 then
            .rejected offset "unpaired low surrogate"
          else .escaped (appendCodepoint result unit) 5
      else .rejected (offset + 1) "invalid string escape"

/-- The rest of a string from `offset` on, with the bytes of its value so far. -/
def scanString (rest : Text) (offset : Nat) (result : Text) : Option StringScan :=
  match rest with
  | [] => some (.rejected offset "unterminated string")
  | byte :: more =>
    if byte = 34 then (Utf8.decode result).map fun value => .scanned value (offset + 1)
    else if byte < 32 then some (.rejected offset "unescaped control character in string")
    else if byte = 92 then
      match scanEscape more offset result with
      | .rejected place message => some (.rejected place message)
      | .escaped value width => scanString (more.drop width) (offset + 1 + width) value
    else scanString more (offset + 1) (result ++ [byte])
termination_by rest.length

/-! ### Numbers -/

/-- The offset of the first byte that is no digit. -/
def scanDigits (rest : Text) (offset : Nat) : Nat :=
  offset + ((rest.drop offset).takeWhile decimalDigit).length

/-- Where the digits of an exponent start, behind its mark and its sign. -/
def exponentDigits (rest : Text) (mark : Nat) : Nat :=
  if rest[mark + 1]? = some 43 ∨ rest[mark + 1]? = some 45 then mark + 2 else mark + 1

/-- The exponent of a number that starts with `rest`, at `start`, and its end. -/
def scanExponent (rest : Text) (start mark : Nat) : Option NumberScan :=
  if rest[mark]? = some 101 ∨ rest[mark]? = some 69 then
    let digitsStart := exponentDigits rest mark
    let exponentEnd := scanDigits rest digitsStart
    if digitsStart = exponentEnd then
      some (.rejected (start + digitsStart) "exponent requires at least one digit")
    else
      (Utf8.decode (rest.take exponentEnd)).map fun lexeme => .scanned lexeme (start + exponentEnd)
  else
    (Utf8.decode (rest.take mark)).map fun lexeme => .scanned lexeme (start + mark)

/-- The same from its fraction on. -/
def scanFraction (rest : Text) (start mark : Nat) : Option NumberScan :=
  let fractionEnd := if rest[mark]? = some 46 then scanDigits rest (mark + 1) else mark
  if rest[mark]? = some 46 ∧ fractionEnd = mark + 1 then
    some (.rejected (start + (mark + 1)) "fraction requires at least one digit")
  else scanExponent rest start fractionEnd

/-- A number that starts with `rest`, at `start`. -/
def scanNumber (rest : Text) (start : Nat) : Option NumberScan :=
  let integerStart := if rest[0]? = some 45 then 1 else 0
  match rest[integerStart]? with
  | none => some (.rejected (start + integerStart) "number requires an integer part")
  | some first =>
    if first = 48 then
      if (rest[integerStart + 1]?.map decimalDigit).getD false then
        some (.rejected (start + (integerStart + 1)) "leading zero is not allowed in a number")
      else
        scanFraction rest start (integerStart + 1)
    else if nonzeroDecimalDigit first then
      scanFraction rest start (scanDigits rest (integerStart + 1))
    else
      some (.rejected (start + integerStart) "number requires an integer part")

/-! ### Decoding -/

def valueDelimiter (byte : UInt8) : Bool :=
  asciiWhitespace byte || byte == 44 || byte == 93 || byte == 125

/-- A literal ends with the text or before a delimiter. -/
def tokenEnds : Text → Bool
  | [] => true
  | byte :: _ => valueDelimiter byte

/-- Where the decoder is: the bytes from `offset` on, the events so far, what comes next and
what comes behind it. -/
structure DecodeState where
  rest : Text
  offset : Nat
  events : List JsonEvent
  expectation : ParseExpectation
  continuations : List ParseExpectation

inductive DecodeStep where
  | next (state : DecodeState)
  | done (result : JsonDecodeResult)
  | trap

/-- Go on with the top of the stack. -/
def resume (rest : Text) (offset : Nat) (events : List JsonEvent) :
    List ParseExpectation → DecodeStep
  | [] => .trap
  | expectation :: continuations => .next ⟨rest, offset, events, expectation, continuations⟩

/-- A literal that starts with `rest`, at `at`. -/
def stepLiteral (rest : Text) (start : Nat) (events : List JsonEvent)
    (continuations : List ParseExpectation) (width : Nat) (token : JsonToken)
    (message : String) : DecodeStep :=
  if tokenEnds (rest.drop width) then
    resume (rest.drop width) (start + width) (events ++ [⟨start, token⟩]) continuations
  else .done (.error (start + width) message)

def stepValue (rest : Text) (start : Nat) (events : List JsonEvent)
    (continuations : List ParseExpectation) : DecodeStep :=
  match rest with
  | [] => .done (.error start "expected a JSON value")
  | byte :: more =>
    if byte = 123 then
      .next ⟨more, start + 1, events ++ [⟨start, .objectStart⟩], .objectKeyFirst, continuations⟩
    else if byte = 91 then
      .next ⟨more, start + 1, events ++ [⟨start, .arrayStart⟩], .arrayValueFirst, continuations⟩
    else if byte = 34 then
      match scanString more (start + 1) [] with
      | none => .trap
      | some (.scanned value nextOffset) =>
        resume (rest.drop (nextOffset - start)) nextOffset
          (events ++ [⟨start, .string value⟩]) continuations
      | some (.rejected offset message) => .done (.error offset message)
    else if byte = 45 ∨ decimalDigit byte = true then
      match scanNumber rest start with
      | none => .trap
      | some (.scanned lexeme nextOffset) =>
        resume (rest.drop (nextOffset - start)) nextOffset
          (events ++ [⟨start, .number lexeme⟩]) continuations
      | some (.rejected offset message) => .done (.error offset message)
    else if rest.take 4 = [116, 114, 117, 101] then
      stepLiteral rest start events continuations 4 (.boolean true) "invalid token after true"
    else if rest.take 5 = [102, 97, 108, 115, 101] then
      stepLiteral rest start events continuations 5 (.boolean false) "invalid token after false"
    else if rest.take 4 = [110, 117, 108, 108] then
      stepLiteral rest start events continuations 4 .null "invalid token after null"
    else .done (.error start "expected a JSON value")

/-- A key that starts with `rest`, at `start`. -/
def stepKey (rest : Text) (start : Nat) (events : List JsonEvent)
    (continuations : List ParseExpectation) : DecodeStep :=
  match scanString (rest.drop 1) (start + 1) [] with
  | none => .trap
  | some (.scanned value nextOffset) =>
    .next ⟨rest.drop (nextOffset - start), nextOffset, events ++ [⟨start, .key value⟩], .colon,
      continuations⟩
  | some (.rejected offset message) => .done (.error offset message)

/-- One step, past the blanks. -/
def stepPast (rest : Text) (start : Nat) (events : List JsonEvent)
    (expectation : ParseExpectation) (continuations : List ParseExpectation) : DecodeStep :=
  match expectation with
  | .value => stepValue rest start events continuations
  | .objectKeyFirst =>
    match rest with
    | [] => .done (.error start "unterminated object")
    | byte :: more =>
      if byte = 125 then
        resume more (start + 1) (events ++ [⟨start, .objectEnd⟩]) continuations
      else if byte = 34 then stepKey rest start events continuations
      else .done (.error start "object key must be a string")
  | .objectKeyNext =>
    if rest.head? = some 34 then stepKey rest start events continuations
    else .done (.error start "object key must be a string")
  | .colon =>
    if rest.head? = some 58 then
      .next ⟨rest.drop 1, start + 1, events, .value, .objectCommaOrEnd :: continuations⟩
    else .done (.error start "expected ':' after object key")
  | .objectCommaOrEnd =>
    match rest with
    | [] => .done (.error start "unterminated object")
    | byte :: more =>
      if byte = 44 then .next ⟨more, start + 1, events, .objectKeyNext, continuations⟩
      else if byte = 125 then
        resume more (start + 1) (events ++ [⟨start, .objectEnd⟩]) continuations
      else .done (.error start "expected ',' or '\x7d' after object value")
  | .arrayValueFirst =>
    if rest.head? = some 93 then
      resume (rest.drop 1) (start + 1) (events ++ [⟨start, .arrayEnd⟩]) continuations
    else .next ⟨rest, start, events, .value, .arrayCommaOrEnd :: continuations⟩
  | .arrayValueNext => .next ⟨rest, start, events, .value, .arrayCommaOrEnd :: continuations⟩
  | .arrayCommaOrEnd =>
    match rest with
    | [] => .done (.error start "unterminated array")
    | byte :: more =>
      if byte = 44 then .next ⟨more, start + 1, events, .arrayValueNext, continuations⟩
      else if byte = 93 then
        resume more (start + 1) (events ++ [⟨start, .arrayEnd⟩]) continuations
      else .done (.error start "expected ',' or ']' after array value")
  | .done =>
    match rest with
    | [] => .done (.decoded events)
    | _ :: _ => .done (.error start "unexpected data after JSON value")

def skipWhitespace (rest : Text) : Text := rest.dropWhile asciiWhitespace

def decodeStep (state : DecodeState) : DecodeStep :=
  let rest := skipWhitespace state.rest
  stepPast rest (state.offset + (state.rest.length - rest.length)) state.events state.expectation
    state.continuations

/-! ### The loop of the decoder -/

variable {offset : Nat} {r : Text} {next : Nat}

theorem lt_scanString {res : Text} {v : String}
    (h : scanString r offset res = some (.scanned v next)) : offset < next := by
  fun_induction scanString r offset res with
  | case1 => simp at h
  | case2 =>
    obtain ⟨_, -, heq⟩ := Option.map_eq_some_iff.mp h
    obtain ⟨-, rfl⟩ := StringScan.scanned.inj heq
    omega
  | case3 => simp at h
  | case4 => simp at h
  | case5 _ _ _ _ _ _ _ _ ih | case6 _ _ _ _ _ _ _ ih =>
    have := ih h
    omega

theorem le_scanDigits (r : Text) (offset : Nat) : offset ≤ scanDigits r offset :=
  Nat.le_add_right _ _

theorem le_exponentDigits (r : Text) (m : Nat) : m + 1 ≤ exponentDigits r m := by
  unfold exponentDigits
  split
  · omega
  · omega

variable {lexeme : String} {es : List JsonEvent} {continuations : List ParseExpectation} {m s : Nat}

theorem le_scanExponent
    (h : scanExponent r s m = some (.scanned lexeme next)) : s + m ≤ next := by
  unfold scanExponent at h
  dsimp only at h
  have hd := le_exponentDigits r m
  have hend := le_scanDigits r (exponentDigits r m)
  split at h
  · split at h
    · simp at h
    · obtain ⟨_, -, heq⟩ := Option.map_eq_some_iff.mp h
      obtain ⟨-, rfl⟩ := NumberScan.scanned.inj heq
      omega
  · obtain ⟨_, -, heq⟩ := Option.map_eq_some_iff.mp h
    obtain ⟨-, rfl⟩ := NumberScan.scanned.inj heq
    omega

theorem le_scanFraction
    (h : scanFraction r s m = some (.scanned lexeme next)) : s + m ≤ next := by
  have hf : m ≤ if r[m]? = some 46 then scanDigits r (m + 1) else m := by
    have := le_scanDigits r (m + 1)
    split
    · omega
    · omega
  unfold scanFraction at h
  dsimp only at h
  generalize (if r[m]? = some 46 then scanDigits r (m + 1) else m) = fractionEnd at *
  split at h
  · simp at h
  · have := le_scanExponent h
    omega

theorem lt_scanNumber
    (h : scanNumber r s = some (.scanned lexeme next)) : s < next := by
  unfold scanNumber at h
  dsimp only at h
  generalize (if r[0]? = some 45 then 1 else 0) = integerStart at h
  have hd := le_scanDigits r (integerStart + 1)
  split at h
  · simp at h
  split at h
  · split at h
    · simp at h
    · have := le_scanFraction h
      omega
  split at h
  · have := le_scanFraction h
    omega
  · simp at h

/-- What gets less: bytes, and at the same byte a value that is still to be announced. -/
def DecodeState.size (state : DecodeState) : Nat :=
  2 * state.rest.length +
    if state.expectation = .arrayValueFirst ∨ state.expectation = .arrayValueNext then 1 else 0

variable {state : DecodeState}

theorem resume_next {rest : Text} (h : resume rest offset es continuations = .next state) :
    state.rest = rest := by
  cases continuations with
  | nil => simp [resume] at h
  | cons expectation continuations => exact (DecodeStep.next.inj h) ▸ rfl

theorem stepLiteral_next {width : Nat} {t : JsonToken}
    {m : String}
    (h : stepLiteral r s es continuations width t m = .next state) :
    state.rest = r.drop width := by
  unfold stepLiteral at h
  split at h
  · exact resume_next h
  · simp at h

theorem stepValue_next (h : stepValue r s es continuations = .next state) :
    state.rest.length < r.length := by
  unfold stepValue at h
  split at h
  · simp at h
  · next b m =>
      have hlen : (b :: m).length = m.length + 1 := List.length_cons
      have hd : ∀ w, 0 < w → ((b :: m).drop w).length < (b :: m).length := by
        intro w hwd
        rw [List.length_drop]
        omega
      split at h
      · rw [← DecodeStep.next.inj h]
        exact Nat.lt_succ_self _
      split at h
      · rw [← DecodeStep.next.inj h]
        exact Nat.lt_succ_self _
      split at h
      · split at h
        · simp at h
        · next hs =>
            have := lt_scanString hs
            rw [resume_next h]
            exact hd _ (by omega)
        · simp at h
      split at h
      · split at h
        · simp at h
        · next hs =>
            have := lt_scanNumber hs
            rw [resume_next h]
            exact hd _ (by omega)
        · simp at h
      split at h
      · rw [stepLiteral_next h]
        exact hd _ (by omega)
      split at h
      · rw [stepLiteral_next h]
        exact hd _ (by omega)
      split at h
      · rw [stepLiteral_next h]
        exact hd _ (by omega)
      · simp at h

theorem stepKey_next (hr : r ≠ [])
    (h : stepKey r s es continuations = .next state) :
    state.rest.length < r.length := by
  have hpos := List.length_pos_of_ne_nil hr
  unfold stepKey at h
  split at h
  · simp at h
  · next hs =>
      have := lt_scanString hs
      rw [← DecodeStep.next.inj h, List.length_drop]
      omega
  · simp at h

variable {expectation : ParseExpectation}

theorem size_lt {c : Nat} (h : state.rest.length < c) : state.size < 2 * c +
      if expectation = .arrayValueFirst ∨ expectation = .arrayValueNext then 1 else 0 := by
  unfold DecodeState.size
  split
  · omega
  · omega

/-- **A step reads a byte, or announces a value.** -/
theorem stepPast_next
    (h : stepPast r s es expectation continuations = .next state) :
    state.size < 2 * r.length +
      if expectation = .arrayValueFirst ∨ expectation = .arrayValueNext then 1 else 0 := by
  have ha : ∀ {offset : Nat} {b : List ParseExpectation},
      (⟨r, offset, es, .value, b⟩ : DecodeState).size < 2 * r.length + 1 := by
    intro offset b
    exact Nat.lt_succ_self _
  cases expectation with
  | value => exact size_lt (stepValue_next h)
  | objectKeyFirst =>
    unfold stepPast at h
    dsimp only at h
    split at h
    · simp at h
    split at h
    · exact size_lt (resume_next h ▸ Nat.lt_succ_self _)
    split at h
    · exact size_lt (stepKey_next (List.cons_ne_nil _ _) h)
    · simp at h
  | objectKeyNext =>
    unfold stepPast at h
    dsimp only at h
    split at h
    · next hh => exact size_lt (stepKey_next (fun hnil => by simp [hnil] at hh) h)
    · simp at h
  | colon =>
    unfold stepPast at h
    dsimp only at h
    split at h
    · next hh =>
        cases r with
        | nil => simp at hh
        | cons byt m => exact size_lt (DecodeStep.next.inj h ▸ Nat.lt_succ_self _)
    · simp at h
  | objectCommaOrEnd | arrayCommaOrEnd =>
    unfold stepPast at h
    dsimp only at h
    split at h
    · simp at h
    split at h
    · exact size_lt (DecodeStep.next.inj h ▸ Nat.lt_succ_self _)
    split at h
    · exact size_lt (resume_next h ▸ Nat.lt_succ_self _)
    · simp at h
  | arrayValueFirst =>
    unfold stepPast at h
    dsimp only at h
    split at h
    · next hh =>
        cases r with
        | nil => simp at hh
        | cons byt m => exact size_lt (resume_next h ▸ Nat.lt_succ_self _)
    · exact DecodeStep.next.inj h ▸ ha
  | arrayValueNext => exact DecodeStep.next.inj h ▸ ha
  | done =>
    unfold stepPast at h
    dsimp only at h
    split at h
    · simp at h
    · simp at h

theorem decodeStep_next {next : DecodeState} (h : decodeStep state = .next next) :
    next.size < state.size := by
  have hst := stepPast_next h
  have hsk : (skipWhitespace state.rest).length ≤ state.rest.length :=
    (List.dropWhile_sublist _).length_le
  have hs : state.size = 2 * state.rest.length +
    if state.expectation = .arrayValueFirst ∨ state.expectation = .arrayValueNext then 1 else 0 :=
    rfl
  omega

def decodeFrom (state : DecodeState) : Option JsonDecodeResult :=
  match h : decodeStep state with
  | .next next => decodeFrom next
  | .done result => some result
  | .trap => none
termination_by state.size
decreasing_by exact decodeStep_next h

def decode (text : String) : Option JsonDecodeResult :=
  decodeFrom ⟨Utf8.encode text, 0, [], .value, [.done]⟩

/-! ### Encoding -/

def hexAscii (nibble : Nat) : UInt8 :=
  if nibble < 10 then UInt8.ofNat (48 + nibble) else UInt8.ofNat (87 + nibble)

/-- What spells a byte between quotation marks. -/
def encodeByte (byte : UInt8) : Text :=
  if byte = 34 then [92, 34]
  else if byte = 92 then [92, 92]
  else if byte = 8 then [92, 98]
  else if byte = 12 then [92, 102]
  else if byte = 10 then [92, 110]
  else if byte = 13 then [92, 114]
  else if byte = 9 then [92, 116]
  else if byte < 32 then [92, 117, 48, 48, hexAscii (byte.toNat / 16), hexAscii (byte.toNat % 16)]
  else [byte]

def encodeString (value : String) : Option String :=
  Utf8.decode (34 :: ((Utf8.encode value).flatMap encodeByte ++ [34]))

/-- A number from its first byte to its last; `none` is a trap. -/
def numberLexeme (lexeme : String) : Option Bool :=
  match scanNumber (Utf8.encode lexeme) 0 with
  | none => none
  | some (.scanned _ nextOffset) => some (nextOffset == (Utf8.encode lexeme).length)
  | some (.rejected _ _) => some false

inductive EncodeStep where
  | encoded (fragment : String) (expectation : EncodeExpectation)
      (continuations : List EncodeExpectation)
  | rejected (message : String)
deriving DecidableEq

/-- A value's first event, behind `lead`. -/
def encodeValueStep (token : JsonToken) (lead : String) (continuation : EncodeExpectation)
    (continuations : List EncodeExpectation) : Option EncodeStep :=
  match token with
  | .objectStart =>
    some (.encoded (lead ++ "\x7b") .objectKeyFirst (continuation :: continuations))
  | .arrayStart => some (.encoded (lead ++ "[") .arrayValueFirst (continuation :: continuations))
  | .string value =>
    (encodeString value).map fun text => .encoded (lead ++ text) continuation continuations
  | .number lexeme =>
    (numberLexeme lexeme).map fun accepted =>
      if accepted then .encoded (lead ++ lexeme) continuation continuations
      else .rejected "number event has an invalid JSON lexeme"
  | .boolean value =>
    some (.encoded (lead ++ if value then "true" else "false") continuation continuations)
  | .null => some (.encoded (lead ++ "null") continuation continuations)
  | .objectEnd => some (.rejected "unexpected object end event")
  | .arrayEnd => some (.rejected "unexpected array end event")
  | .key _ => some (.rejected "unexpected object key event")

/-- Go on with the top of the stack, behind an end. -/
def encodeEnd (fragment : String) : List EncodeExpectation → Option EncodeStep
  | [] => none
  | expectation :: continuations => some (.encoded fragment expectation continuations)

def encodeEvent (token : JsonToken) (continuations : List EncodeExpectation) :
    EncodeExpectation → Option EncodeStep
  | .value =>
    match continuations with
    | [] => none
    | continuation :: below => encodeValueStep token "" continuation below
  | .objectKeyFirst =>
    match token with
    | .objectEnd => encodeEnd "\x7d" continuations
    | .key value =>
      (encodeString value).map fun text => .encoded (text ++ ":") .objectValue continuations
    | _ => some (.rejected "object expects a key or object end event")
  | .objectKeyNext =>
    match token with
    | .objectEnd => encodeEnd "\x7d" continuations
    | .key value =>
      (encodeString value).map fun text =>
        .encoded ("," ++ text ++ ":") .objectValue continuations
    | _ => some (.rejected "object expects a key or object end event")
  | .objectValue => encodeValueStep token "" .objectKeyNext continuations
  | .arrayValueFirst =>
    match token with
    | .arrayEnd => encodeEnd "]" continuations
    | _ => encodeValueStep token "" .arrayValueNext continuations
  | .arrayValueNext =>
    match token with
    | .arrayEnd => encodeEnd "]" continuations
    | _ => encodeValueStep token "," .arrayValueNext continuations
  | .done => some (.rejected "unexpected event after complete JSON value")

/-- What is missing when the events end. -/
def encodeLast (index : Nat) (result : String) : EncodeExpectation → JsonEncodeResult
  | .value => .error index "expected a JSON value event"
  | .objectKeyFirst => .error index "unterminated object event sequence"
  | .objectKeyNext => .error index "unterminated object event sequence"
  | .objectValue => .error index "object key has no value event"
  | .arrayValueFirst => .error index "unterminated array event sequence"
  | .arrayValueNext => .error index "unterminated array event sequence"
  | .done => .encoded result

def encodeFrom (events : List JsonEvent) (index : Nat) (result : String)
    (expectation : EncodeExpectation) (continuations : List EncodeExpectation) :
    Option JsonEncodeResult :=
  match events with
  | [] => some (encodeLast index result expectation)
  | event :: events =>
    match encodeEvent event.token continuations expectation with
    | none => none
    | some (.encoded fragment expectation continuations) =>
      encodeFrom events (index + 1) (result ++ fragment) expectation continuations
    | some (.rejected message) => some (.error index message)

def encode (events : List JsonEvent) : Option JsonEncodeResult :=
  encodeFrom events 0 "" .value [.done]

end Beagle.JsonCodec
