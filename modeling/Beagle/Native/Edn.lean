/-
The reader of data: from a text to events.

The text is read byte by byte.  Blanks and comments are passed over; brackets, prefixes,
strings and atoms become events with the place where they start and the number of open
brackets around them.  The literal of a string is not what stands in the text but its
value written anew.

EDN values from the events of the data reader.

Maps and vectors nest, a map holds an even number of forms, and there is one value.
Symbols are integers or nothing.
-/
import Beagle.Native.Text

namespace Beagle.DatumReader

open Beagle.Native (Text)
open Beagle.Lib (Utf8.encode)

inductive Kind where
  | listOpen
  | vectorOpen
  | mapOpen
  | setOpen
  | listClose
  | vectorClose
  | mapClose
  | setClose
  | string
  | quote
  | quasiquote
  | metadata
  | unquote
  | unquoteSplicing
  | keyword
  | boolean
  | nil
  | symbol
deriving DecidableEq

structure ReaderEvent where
  kind : Kind
  value : Text
  literal : Text
  offset : Nat
  depth : Nat
deriving DecidableEq

/-- The events, and what went wrong where. -/
structure DatumRead where
  events : List ReaderEvent
  error : Option (Text × Nat)
deriving DecidableEq

/-- Space, tab, return, newline and comma. -/
def whitespace (byte : UInt8) : Bool :=
  byte == 32 || byte == 9 || byte == 13 || byte == 10 || byte == 44

/-- A blank, a bracket, or one of `"`, `;`, `^`, the backquote, `~` and the backslash. -/
def delimiter (byte : UInt8) : Bool :=
  whitespace byte || byte == 40 || byte == 41 || byte == 91 || byte == 93 || byte == 123 ||
    byte == 125 || byte == 34 || byte == 59 || byte == 94 || byte == 96 || byte == 126 || byte == 92

/-- `"`, the backslash, `n`, `r`, `t`, `b` and `f` behind a backslash. -/
def escapeCharacter (byte : UInt8) : Option UInt8 :=
  if byte = 34 then some 34
  else if byte = 92 then some 92
  else if byte = 110 then some 10
  else if byte = 114 then some 13
  else if byte = 116 then some 9
  else if byte = 98 then some 8
  else if byte = 102 then some 12
  else none

def renderStringCharacter (byte : UInt8) : Text :=
  if byte = 34 then [92, 34]
  else if byte = 92 then [92, 92]
  else if byte = 10 then [92, 110]
  else if byte = 13 then [92, 114]
  else if byte = 9 then [92, 116]
  else if byte = 8 then [92, 98]
  else if byte = 12 then [92, 102]
  else [byte]

def renderStringLiteral (value : Text) : Text := 34 :: (value.flatMap renderStringCharacter ++ [34])

/-- The value of a string, and the number of bytes up to its end. -/
def scanString : List UInt8 → (value : Text) → (width : Nat) → Except Text (Text × Nat)
  | [], _, _ => .error (Utf8.encode "unterminated string literal")
  | byte :: rest, value, width =>
    if byte = 34 then .ok (value, width + 1)
    else if byte = 92 then
      match rest with
      | [] => .error (Utf8.encode "unterminated string escape")
      | escaped :: rest =>
        match escapeCharacter escaped with
        | none => .error (Utf8.encode "unsupported string escape: \\" ++ [escaped])
        | some decoded => scanString rest (value ++ [decoded]) (width + 2)
    else scanString rest (value ++ [byte]) (width + 1)

/-- The bytes before the first delimiter. -/
def scanAtom (rest : List UInt8) : Text := rest.takeWhile fun byte => !delimiter byte

def atomKind (value : Text) : Kind :=
  if value.head? = some 58 then .keyword
  else if value = [116, 114, 117, 101] ∨ value = [102, 97, 108, 115, 101] then .boolean
  else if value = [110, 105, 108] then .nil
  else .symbol

def openKind (byte : UInt8) : Kind :=
  if byte = 40 then .listOpen
  else if byte = 91 then .vectorOpen
  else if byte = 123 then .mapOpen
  else .setOpen

def closeKind (opened : Kind) : Kind :=
  if opened = .listOpen then .listClose
  else if opened = .vectorOpen then .vectorClose
  else if opened = .mapOpen then .mapClose
  else .setClose

def matchingClose (opened : Kind) (byte : UInt8) : Bool :=
  (opened == .listOpen && byte == 41) || (opened == .vectorOpen && byte == 93) ||
    (opened == .mapOpen && byte == 125) || (opened == .setOpen && byte == 125)

def opening (byte : UInt8) : Bool := byte == 40 || byte == 91 || byte == 123

def closing (byte : UInt8) : Bool := byte == 41 || byte == 93 || byte == 125

/-- Of a byte and the one behind it. -/
def prefixKind (byte : UInt8) (rest : List UInt8) : Option Kind :=
  if byte = 39 then some .quote
  else if byte = 96 then some .quasiquote
  else if byte = 94 then some .metadata
  else if byte = 126 then
    if rest.head? = some 64 then some .unquoteSplicing else some .unquote
  else none

def prefixWidth (kind : Kind) : Nat := if kind = .unquoteSplicing then 2 else 1

/-- What one turn of the loop does with the bytes from the offset on. -/
inductive ReadStep where
  | skipped (width : Nat)
  | read (width : Nat) (event : ReaderEvent) (stack : List Kind)
  | failed (message : Text)
deriving DecidableEq

/-- One turn; the innermost bracket is the first of the stack. -/
def readStep (offset : Nat) (byte : UInt8) (rest : List UInt8) (stack : List Kind) : ReadStep :=
  if whitespace byte then .skipped 1
  else if byte = 59 then .skipped (1 + (rest.takeWhile fun byte => byte != 10).length)
  else if byte = 35 ∧ rest.head? = some 123 then
    .read 2 ⟨.setOpen, [], [35, 123], offset, stack.length⟩ (.setOpen :: stack)
  else if opening byte then
    .read 1 ⟨openKind byte, [], [byte], offset, stack.length⟩ (openKind byte :: stack)
  else if closing byte then
    match stack with
    | [] => .failed (Utf8.encode "unexpected closing delimiter")
    | opened :: outer =>
      if matchingClose opened byte then
        .read 1 ⟨closeKind opened, [], [byte], offset, outer.length⟩ outer
      else .failed (Utf8.encode "mismatched closing delimiter")
  else if byte = 34 then
    match scanString rest [] 1 with
    | .error message => .failed message
    | .ok (value, width) =>
      .read width ⟨.string, value, renderStringLiteral value, offset, stack.length⟩ stack
  else
    match prefixKind byte rest with
    | some kind =>
      .read (prefixWidth kind)
        ⟨kind, [], (byte :: rest).take (prefixWidth kind), offset, stack.length⟩ stack
    | none =>
      let value := scanAtom (byte :: rest)
      if value = [] then .failed (Utf8.encode "unsupported reader character")
      else .read value.length ⟨atomKind value, value, value, offset, stack.length⟩ stack

/-- With one more event in front. -/
def DatumRead.after (event : ReaderEvent) (read : DatumRead) : DatumRead :=
  ⟨event :: read.events, read.error⟩

/-- The loop over the bytes from the offset on; every turn takes one byte at least. -/
def readFrom (offset : Nat) (rest : List UInt8) (stack : List Kind) : DatumRead :=
  match rest with
  | [] =>
    if stack = [] then ⟨[], none⟩
    else ⟨[], some (Utf8.encode "unterminated data container", offset)⟩
  | byte :: more =>
    match readStep offset byte more stack with
    | .skipped width => readFrom (offset + width) (more.drop (width - 1)) stack
    | .read width event stack =>
      (readFrom (offset + width) (more.drop (width - 1)) stack).after event
    | .failed message => ⟨[], some (message, offset)⟩
termination_by rest.length
decreasing_by
  · rw [List.length_drop, List.length_cons]
    omega
  · rw [List.length_drop, List.length_cons]
    omega

def readEvents (source : Text) : DatumRead := readFrom 0 source []

end Beagle.DatumReader

namespace Beagle.Edn

open Beagle.Native (Text Long readLong)
open Beagle.DatumReader
open Beagle.Lib (Utf8.encode)
open Beagle.Lib.Frames (decimal)

inductive EdnEvent where
  | mapStart (offset : Nat)
  | mapEnd (offset : Nat)
  | vectorStart (offset : Nat)
  | vectorEnd (offset : Nat)
  | keyword (offset : Nat) (value : Text)
  | string (offset : Nat) (value : Text)
  | integer (offset : Nat) (value : Long)
  | boolean (offset : Nat) (value : Bool)
  | nil (offset : Nat)
deriving DecidableEq

/-- The error: where, and a message. -/
inductive EdnDecodeResult where
  | decoded (events : List EdnEvent)
  | failed (offset : Nat) (message : Text)
deriving DecidableEq

/-- What the innermost open bracket is, and how many forms are in it so far. -/
structure DecodeStackEntry where
  map : Bool
  items : Nat
deriving DecidableEq

/-- One more form; at the top only one. -/
def countValue (stack : List DecodeStackEntry) (roots : Nat) :
    Option (List DecodeStackEntry × Nat) :=
  match stack with
  | [] => if roots = 0 then some ([], 1) else none
  | entry :: outer => some ({ entry with items := entry.items + 1 } :: outer, roots)

def integerToken (value : Text) : Bool :=
  let digits := if value.head? = some 45 ∨ value.head? = some 43 then value.drop 1 else value
  digits != [] && digits.all decimal

/-- The event of a form without forms in it, or why it is none. -/
def scalarEvent (event : ReaderEvent) : Except Text EdnEvent :=
  match event.kind with
  | .keyword =>
    if event.value.length ≤ 1 ∨ event.value[1]? = some 58 then
      .error (Utf8.encode "keyword requires a name")
    else .ok (.keyword event.offset (event.value.drop 1))
  | .string => .ok (.string event.offset event.value)
  | .boolean => .ok (.boolean event.offset (event.value == [116, 114, 117, 101]))
  | .nil => .ok (.nil event.offset)
  | .symbol =>
    if !integerToken event.value then
      .error (Utf8.encode "unsupported EDN symbol; expected an integer")
    else
      match readLong event.value with
      | none => .error (Utf8.encode "integer is outside Int range")
      | some parsed => .ok (.integer event.offset parsed)
  | _ => .error (Utf8.encode "unsupported EDN form")

/-- With one more event in front. -/
def EdnDecodeResult.after (event : EdnEvent) : EdnDecodeResult → EdnDecodeResult
  | .decoded events => .decoded (event :: events)
  | .failed offset message => .failed offset message

/-- The loop over the reader events; `size` is that of the text. -/
def decodeFrom (size : Nat) :
    List ReaderEvent → List DecodeStackEntry → (roots : Nat) → EdnDecodeResult
  | [], _, roots =>
    if roots = 1 then .decoded []
    else .failed size (Utf8.encode "expected one EDN value")
  | event :: remaining, stack, roots =>
    if event.kind = .mapOpen ∨ event.kind = .vectorOpen then
      match countValue stack roots with
      | none => .failed event.offset (Utf8.encode "unexpected data after EDN value")
      | some (stack, roots) =>
        let map := event.kind = .mapOpen
        (decodeFrom size remaining (⟨map, 0⟩ :: stack) roots).after
          (if map then .mapStart event.offset else .vectorStart event.offset)
    else if event.kind = .mapClose then
      match stack with
      | [] => .failed event.offset (Utf8.encode "unexpected map end event")
      | entry :: outer =>
        if !entry.map then .failed event.offset (Utf8.encode "unexpected map end event")
        else if entry.items % 2 ≠ 0 then
          .failed event.offset (Utf8.encode "map requires an even number of forms")
        else (decodeFrom size remaining outer roots).after (.mapEnd event.offset)
    else if event.kind = .vectorClose then
      match stack with
      | [] => .failed event.offset (Utf8.encode "unexpected vector end event")
      | entry :: outer =>
        if entry.map then .failed event.offset (Utf8.encode "unexpected vector end event")
        else (decodeFrom size remaining outer roots).after (.vectorEnd event.offset)
    else
      match scalarEvent event with
      | .error message => .failed event.offset message
      | .ok value =>
        match countValue stack roots with
        | none => .failed event.offset (Utf8.encode "unexpected data after EDN value")
        | some (stack, roots) => (decodeFrom size remaining stack roots).after value

def decode (text : Text) : EdnDecodeResult :=
  let read := readEvents text
  match read.error with
  | some (message, offset) => .failed offset message
  | none => decodeFrom text.length read.events [] 0

end Beagle.Edn
