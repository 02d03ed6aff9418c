/-
The grammar of JSON, over the bytes of a UTF-8 text.

A value is a tree; `Spells` says which bytes spell it, rule by rule: blanks may stand around
every item, key and value, and a list of items or members ends in one.  What may stand
between quotation marks is a parameter: `StringBody` tells the characters behind the escapes,
where a high surrogate is followed by a low one; `AbnfBody` is the bare grammar, where four
hexadecimal digits may be any.
-/
import Beagle.Lib.Utf8

namespace Beagle.Lib.Json

/-- Space, tab, line feed and return. -/
def blank (byte : UInt8) : Bool := byte == 32 || byte == 9 || byte == 10 || byte == 13

def Blank (bytes : List UInt8) : Prop := ∀ byte ∈ bytes, blank byte = true

def digit (byte : UInt8) : Bool := 48 ≤ byte && byte ≤ 57

def Digits (bytes : List UInt8) : Prop := ∀ byte ∈ bytes, digit byte = true

/-! ### Numbers -/

inductive IntegerPart : List UInt8 → Prop where
  | zero : IntegerPart [48]
  | other {first : UInt8} {digits : List UInt8} (hlow : 49 ≤ first) (hhigh : first ≤ 57)
      (hdigits : Digits digits) : IntegerPart (first :: digits)

inductive FractionPart : List UInt8 → Prop where
  | absent : FractionPart []
  | present {digits : List UInt8} (hne : digits ≠ []) (hdigits : Digits digits) :
      FractionPart (46 :: digits)

inductive ExponentPart : List UInt8 → Prop where
  | absent : ExponentPart []
  | present {mark : UInt8} {sign digits : List UInt8} (hmark : mark = 101 ∨ mark = 69)
      (hsign : sign = [] ∨ sign = [43] ∨ sign = [45]) (hne : digits ≠ [])
      (hdigits : Digits digits) : ExponentPart (mark :: (sign ++ digits))

/-- A sign, an integer without leading zeros, a fraction and an exponent. -/
def Number (bytes : List UInt8) : Prop :=
  ∃ sign integer fraction exponent : List UInt8, (sign = [] ∨ sign = [45]) ∧
    IntegerPart integer ∧ FractionPart fraction ∧ ExponentPart exponent ∧
    bytes = sign ++ (integer ++ (fraction ++ exponent))

structure NumberLexeme where
  text : String
  number : Number (Utf8.encode text)

/-! ### Strings -/

def hexDigit (byte : UInt8) : Option Nat :=
  if 48 ≤ byte ∧ byte ≤ 57 then some (byte.toNat - 48)
  else if 65 ≤ byte ∧ byte ≤ 70 then some (byte.toNat - 55)
  else if 97 ≤ byte ∧ byte ≤ 102 then some (byte.toNat - 87)
  else none

/-- The unit behind four hexadecimal digits. -/
def hexUnit (a b c d : UInt8) : Option Nat :=
  match hexDigit a, hexDigit b, hexDigit c, hexDigit d with
  | some a, some b, some c, some d => some (a * 4096 + b * 256 + c * 16 + d)
  | _, _, _, _ => none

/-- The byte that is named by a letter behind a backslash. -/
def shortEscape (byte : UInt8) : Option UInt8 :=
  if byte = 34 then some 34
  else if byte = 92 then some 92
  else if byte = 47 then some 47
  else if byte = 98 then some 8
  else if byte = 102 then some 12
  else if byte = 110 then some 10
  else if byte = 114 then some 13
  else if byte = 116 then some 9
  else none

/-- A character that may stand for itself. -/
def Unescaped (c : Char) : Prop := 32 ≤ c.toNat ∧ c ≠ '"' ∧ c ≠ '\\'

def HighSurrogate (unit : Nat) : Prop := 55296 ≤ unit ∧ unit ≤ 56319

def LowSurrogate (unit : Nat) : Prop := 56320 ≤ unit ∧ unit ≤ 57343

/-- The characters, and the bytes that spell them between quotation marks. -/
inductive StringBody : List Char → List UInt8 → Prop where
  | nil : StringBody [] []
  | unescaped {c : Char} {cs : List Char} {bytes : List UInt8} (hc : Unescaped c)
      (h : StringBody cs bytes) : StringBody (c :: cs) (String.utf8EncodeChar c ++ bytes)
  | escape {byte value : UInt8} {cs : List Char} {bytes : List UInt8}
      (hbyte : shortEscape byte = some value) (h : StringBody cs bytes) :
      StringBody (Char.ofNat value.toNat :: cs) (92 :: byte :: bytes)
  | unicode {a b c d : UInt8} {unit : Nat} {cs : List Char} {bytes : List UInt8}
      (hunit : hexUnit a b c d = some unit) (hhigh : ¬ HighSurrogate unit)
      (hlow : ¬ LowSurrogate unit) (h : StringBody cs bytes) :
      StringBody (Char.ofNat unit :: cs) (92 :: 117 :: a :: b :: c :: d :: bytes)
  | pair {a b c d a' b' c' d' : UInt8} {high low : Nat} {cs : List Char} {bytes : List UInt8}
      (hunit : hexUnit a b c d = some high) (hunit' : hexUnit a' b' c' d' = some low)
      (hhigh : HighSurrogate high) (hlow : LowSurrogate low) (h : StringBody cs bytes) :
      StringBody (Char.ofNat (65536 + (high - 55296) * 1024 + (low - 56320)) :: cs)
        (92 :: 117 :: a :: b :: c :: d :: 92 :: 117 :: a' :: b' :: c' :: d' :: bytes)

/-- What the bare grammar allows between quotation marks. -/
inductive AbnfBody : List UInt8 → Prop where
  | nil : AbnfBody []
  | unescaped {c : Char} {bytes : List UInt8} (hc : Unescaped c) (h : AbnfBody bytes) :
      AbnfBody (String.utf8EncodeChar c ++ bytes)
  | escape {byte value : UInt8} {bytes : List UInt8} (hbyte : shortEscape byte = some value)
      (h : AbnfBody bytes) : AbnfBody (92 :: byte :: bytes)
  | unicode {a b c d : UInt8} {unit : Nat} {bytes : List UInt8}
      (hunit : hexUnit a b c d = some unit) (h : AbnfBody bytes) :
      AbnfBody (92 :: 117 :: a :: b :: c :: d :: bytes)

/-! ### Values -/

inductive Json where
  | null
  | boolean (value : Bool)
  | number (lexeme : NumberLexeme)
  | string (value : String)
  | array (items : List Json)
  | object (members : List (String × Json))

/-- What a rule of the grammar is about. -/
inductive Form where
  | value (value : Json)
  | items (items : List Json)
  | members (members : List (String × Json))

section Spelling

variable (Body : String → List UInt8 → Prop)

/-- The bytes spell the form. -/
inductive Spells : Form → List UInt8 → Prop where
  | null : Spells (.value .null) [110, 117, 108, 108]
  | true : Spells (.value (.boolean true)) [116, 114, 117, 101]
  | false : Spells (.value (.boolean false)) [102, 97, 108, 115, 101]
  | number (lexeme : NumberLexeme) : Spells (.value (.number lexeme)) (Utf8.encode lexeme.text)
  | string {value : String} {body : List UInt8} (hbody : Body value body) :
      Spells (.value (.string value)) (34 :: (body ++ [34]))
  | emptyArray {inner : List UInt8} (hinner : Blank inner) :
      Spells (.value (.array [])) (91 :: (inner ++ [93]))
  | array {items : List Json} {inner : List UInt8} (h : Spells (.items items) inner) :
      Spells (.value (.array items)) (91 :: (inner ++ [93]))
  | emptyObject {inner : List UInt8} (hinner : Blank inner) :
      Spells (.value (.object [])) (123 :: (inner ++ [125]))
  | object {members : List (String × Json)} {inner : List UInt8}
      (h : Spells (.members members) inner) :
      Spells (.value (.object members)) (123 :: (inner ++ [125]))
  | item {value : Json} {before bytes after : List UInt8} (hbefore : Blank before)
      (hafter : Blank after) (h : Spells (.value value) bytes) :
      Spells (.items [value]) (before ++ (bytes ++ after))
  | items {value : Json} {values : List Json} {before bytes after more : List UInt8}
      (hbefore : Blank before) (hafter : Blank after) (h : Spells (.value value) bytes)
      (hmore : Spells (.items values) more) :
      Spells (.items (value :: values)) (before ++ (bytes ++ (after ++ 44 :: more)))
  | member {key : String} {value : Json} {before body middle colon bytes after : List UInt8}
      (hbefore : Blank before) (hbody : Body key body) (hmiddle : Blank middle)
      (hcolon : Blank colon) (hafter : Blank after) (h : Spells (.value value) bytes) :
      Spells (.members [(key, value)])
        (before ++ 34 :: (body ++ 34 :: (middle ++ 58 :: (colon ++ (bytes ++ after)))))
  | members {key : String} {value : Json} {rest : List (String × Json)}
      {before body middle colon bytes after more : List UInt8}
      (hbefore : Blank before) (hbody : Body key body) (hmiddle : Blank middle)
      (hcolon : Blank colon) (hafter : Blank after) (h : Spells (.value value) bytes)
      (hmore : Spells (.members rest) more) :
      Spells (.members ((key, value) :: rest))
        (before ++ 34 :: (body ++ 34 :: (middle ++ 58 :: (colon ++
          (bytes ++ (after ++ 44 :: more))))))

/-- A text: one value with blanks around it. -/
def JsonText (value : Json) (text : List UInt8) : Prop :=
  ∃ before bytes after : List UInt8, Blank before ∧ Spells Body (.value value) bytes ∧
    Blank after ∧ text = before ++ (bytes ++ after)

end Spelling

end Beagle.Lib.Json
