/-
Strings and numbers of JSON are scanned as the grammar has them.

A string is scanned character by character: a character that stands for itself may be several
bytes, and an escape is bytes below 128 throughout, so what is behind either is whole
characters again.  A number is scanned as far as its grammar goes, and stops before whatever
may follow a value.
-/
import Beagle.Native.JsonCodec

namespace Beagle.JsonCodec

open Beagle.Native (Text)
open Beagle.Lib (Utf8.encode Utf8.decode Utf8.encode_ofList Utf8.decode_encode
  Utf8.encode_of_decode Utf8.flatMap_split Utf8.encodeChar_of_mem Utf8.encode_injective)
open Beagle.Lib.Json List

/-! ### Whole characters -/

/-- The bytes of whole characters. -/
def Whole (bytes : List UInt8) : Prop :=
  ∃ cs : List Char, bytes = cs.flatMap String.utf8EncodeChar

theorem whole_encode (t : String) : Whole (Utf8.encode t) := ⟨t.toList, rfl⟩

variable {byte : UInt8} {u : Nat} {c : Char} {escape bs e si : Text}

theorem whole_of_cons {more : List UInt8} (hby : byte.toNat < 128) (h : Whole (byte :: more)) :
    Whole more := by
  obtain ⟨cs, hcs⟩ := h
  obtain ⟨-, bk, -, hb⟩ := Utf8.flatMap_split hby cs [] hcs.symm
  exact ⟨bk, hb⟩

theorem whole_of_append {fr more : List UInt8} (hfr : ∀ byte ∈ fr, byte.toNat < 128)
    (h : Whole (fr ++ more)) : Whole more := by
  induction fr with
  | nil => exact h
  | cons byte fr ih =>
    exact ih (fun b hb => hfr b (mem_cons_of_mem _ hb)) (whole_of_cons (hfr byte mem_cons_self) h)

variable {p : Nat} {a b d : UInt8} {cs : List Char}

theorem toNat_ofNat (hp : p.isValidChar) : (Char.ofNat p).val.toNat = p := by
  unfold Char.ofNat
  rw [dif_pos hp]
  rfl

/-- A byte below 128 is the encoding of its character. -/
theorem encodeChar_ofNat {byte : UInt8} (h : byte.toNat < 128) :
    String.utf8EncodeChar (Char.ofNat byte.toNat) = [byte] := by
  have hval : (Char.ofNat byte.toNat).val.toNat = byte.toNat := toNat_ofNat (Or.inl (by omega))
  unfold String.utf8EncodeChar
  dsimp only
  rw [hval, if_pos (by omega), UInt8.ofNat_toNat]

/-- Bytes below 128 decode. -/
theorem decode_ascii {bs : List UInt8} (h : ∀ byte ∈ bs, byte.toNat < 128) :
    ∃ t, Utf8.decode bs = some t ∧ Utf8.encode t = bs := by
  have hbs : bs = (bs.map fun byte => Char.ofNat byte.toNat).flatMap
      String.utf8EncodeChar := by
    induction bs with
    | nil => rfl
    | cons byte bs ih =>
      rw [map_cons, flatMap_cons, encodeChar_ofNat (h byte mem_cons_self),
        ← ih fun b hb => h b (mem_cons_of_mem _ hb)]
      rfl
  refine ⟨String.ofList (bs.map fun byte => Char.ofNat byte.toNat), ?_, ?_⟩
  · conv_lhs => rw [hbs, ← Utf8.encode_ofList]
    exact Utf8.decode_encode _
  · rw [Utf8.encode_ofList, ← hbs]

theorem decode_flatMap (cs : List Char) :
    Utf8.decode (cs.flatMap String.utf8EncodeChar) = some (String.ofList cs) := by
  rw [← Utf8.encode_ofList]
  exact Utf8.decode_encode _

/-- A scalar value appended to bytes is its encoding appended. -/
theorem appendCodepoint_eq {res : Text} (hp : p.isValidChar) :
    appendCodepoint res p = res ++ String.utf8EncodeChar (Char.ofNat p) := by
  have hval : (Char.ofNat p).val.toNat = p := toNat_ofNat hp
  have hmax : p < 1114112 := by
    rcases hp with h | h
    · omega
    · exact h.2
  unfold appendCodepoint String.utf8EncodeChar
  dsimp only
  rw [hval]
  split
  · rfl
  split
  · rw [Nat.add_comm 192, Nat.add_comm 128, Nat.mod_eq_of_lt (show p / 64 < 32 by omega)]
  split
  · rw [Nat.add_comm 224, Nat.add_comm 128, Nat.add_comm 128,
      Nat.mod_eq_of_lt (show p / 4096 < 16 by omega)]
  · rw [Nat.add_comm 240, Nat.add_comm 128, Nat.add_comm 128, Nat.add_comm 128,
      Nat.mod_eq_of_lt (show p / 262144 < 8 by omega)]

/-! ### Escapes -/

theorem hexValue_eq (byte : UInt8) : hexValue byte = hexDigit byte := by
  unfold hexValue hexDigit
  split
  · rfl
  split
  · next h =>
      have : 65 ≤ byte.toNat := UInt8.le_iff_toNat_le.mp h.1
      rw [show 10 + (byte.toNat - 65) = byte.toNat - 55 by omega]
  split
  · next h =>
      have : 97 ≤ byte.toNat := UInt8.le_iff_toNat_le.mp h.1
      rw [show 10 + (byte.toNat - 97) = byte.toNat - 87 by omega]
  · rfl

theorem readHex4_cons (a b c d : UInt8) (m : Text) :
    readHex4 (a :: b :: c :: d :: m) = hexUnit a b c d := by
  rw [readHex4, hexValue_eq, hexValue_eq, hexValue_eq, hexValue_eq]
  rfl

theorem readHex4_eq {ds : Text} (h : readHex4 ds = some u) :
    ∃ a b c d m, ds = a :: b :: c :: d :: m ∧ hexUnit a b c d = some u := by
  match ds, h with
  | a :: b :: c :: d :: m, h => exact ⟨a, b, c, d, m, rfl, (readHex4_cons a b c d m) ▸ h⟩

theorem hexDigit_ascii {v : Nat} (h : hexDigit byte = some v) : byte.toNat < 128 ∧ v < 16 := by
  unfold hexDigit at h
  split_ifs at h with hrange hrange hrange
  all_goals
    have hlow := UInt8.le_iff_toNat_le.mp hrange.1
    have hh := UInt8.le_iff_toNat_le.mp hrange.2
    obtain rfl := Option.some.inj h
    exact ⟨by simp at hh; omega, by simp at hlow hh; omega⟩

theorem hexUnit_ascii {c : UInt8} (h : hexUnit a b c d = some u) :
    (∀ byte ∈ [a, b, c, d], byte.toNat < 128) ∧ u < 65536 := by
  unfold hexUnit at h
  split at h
  · next ha hb hc hd =>
      obtain rfl := Option.some.inj h
      have ha := hexDigit_ascii ha
      have hb := hexDigit_ascii hb
      have hc := hexDigit_ascii hc
      have hd := hexDigit_ascii hd
      refine ⟨?_, by omega⟩
      simp only [mem_cons, not_mem_nil, or_false]
      rintro byte (rfl | rfl | rfl | rfl)
      · exact ha.1
      · exact hb.1
      · exact hc.1
      · exact hd.1
  · simp at h

theorem shortEscape_ascii {v : UInt8} (h : shortEscape byte = some v) :
    byte.toNat < 128 ∧ v.toNat < 128 := by
  unfold shortEscape at h
  repeat' split at h
  all_goals try simp only [Option.some.injEq, reduceCtorEq] at h
  all_goals subst h; subst byte; exact ⟨by decide, by decide⟩

theorem isValidChar_of_unit (hu : u < 65536) (hh : ¬ HighSurrogate u)
    (hlow : ¬ LowSurrogate u) : u.isValidChar := by
  by_cases h : u < 55296
  · exact Or.inl h
  · refine Or.inr ⟨?_, by omega⟩
    unfold HighSurrogate at hh
    unfold LowSurrogate at hlow
    omega

theorem isValidChar_of_pair {h low : Nat} (hh : HighSurrogate h)
    (hlow : LowSurrogate low) : (65536 + (h - 55296) * 1024 + (low - 56320)).isValidChar := by
  unfold HighSurrogate at hh
  unfold LowSurrogate at hlow
  exact Or.inr ⟨by omega, by omega⟩

/-- An escape of the grammar, and the character it stands for. -/
inductive Escape : Char → Text → Prop where
  | short {byte value : UInt8} (h : shortEscape byte = some value) :
      Escape (Char.ofNat value.toNat) [byte]
  | unicode {a b c d : UInt8} {unit : Nat} (hunit : hexUnit a b c d = some unit)
      (hhigh : ¬ HighSurrogate unit) (hlow : ¬ LowSurrogate unit) :
      Escape (Char.ofNat unit) [117, a, b, c, d]
  | pair {a b c d a' b' c' d' : UInt8} {high low : Nat} (hunit : hexUnit a b c d = some high)
      (hunit' : hexUnit a' b' c' d' = some low) (hhigh : HighSurrogate high)
      (hlow : LowSurrogate low) :
      Escape (Char.ofNat (65536 + (high - 55296) * 1024 + (low - 56320)))
        [117, a, b, c, d, 92, 117, a', b', c', d']

theorem Escape.body (h : Escape c escape) (hbs : StringBody cs bs) :
    StringBody (c :: cs) (92 :: (escape ++ bs)) := by
  cases h with
  | short h => exact .escape h hbs
  | unicode hu hh hlow => exact .unicode hu hh hlow hbs
  | pair hu hu' hh hlow => exact .pair hu hu' hh hlow hbs

theorem Escape.ascii (h : Escape c escape) : ∀ byte ∈ escape, byte.toNat < 128 := by
  cases h with
  | short h =>
    intro byte hbyte
    rw [mem_singleton.mp hbyte]
    exact (shortEscape_ascii h).1
  | unicode hu hh hlow =>
    intro byte hbyte
    rcases mem_cons.mp hbyte with rfl | hbyte
    · decide
    · exact (hexUnit_ascii hu).1 byte hbyte
  | pair hu hu' hh hlow =>
    have h1 := (hexUnit_ascii hu).1
    have h2 := (hexUnit_ascii hu').1
    simp only [mem_cons, not_mem_nil, or_false] at h1 h2 ⊢
    rintro byte (rfl | h | h | h | h | rfl | rfl | h | h | h | h)
    · decide
    · exact h1 byte (by simp [h])
    · exact h1 byte (by simp [h])
    · exact h1 byte (by simp [h])
    · exact h1 byte (by simp [h])
    · decide
    · decide
    · exact h2 byte (by simp [h])
    · exact h2 byte (by simp [h])
    · exact h2 byte (by simp [h])
    · exact h2 byte (by simp [h])

/-- **An escape of the grammar is taken, and adds its character.** -/
theorem scanEscape_escape (h : Escape c escape) (t : Text) (off : Nat) (res : Text) :
    scanEscape (escape ++ t) off res = .escaped (res ++ String.utf8EncodeChar c) escape.length := by
  cases h with
  | short h =>
    rename_i byte value
    have hb : escapedByte byte = some value := h
    rw [encodeChar_ofNat (shortEscape_ascii h).2]
    simp only [cons_append, nil_append, scanEscape, hb, length_singleton]
  | unicode hu hh hlow =>
    rename_i a b c d u
    have hv := isValidChar_of_unit (hexUnit_ascii hu).2 hh hlow
    have hn : escapedByte 117 = none := rfl
    unfold HighSurrogate at hh
    unfold LowSurrogate at hlow
    simp only [cons_append, nil_append, scanEscape, hn, readHex4_cons, hu,
      if_pos, if_neg hh, if_neg hlow, appendCodepoint_eq hv, length_cons,
      length_nil]
  | pair hu hu' hh hlow =>
    rename_i a b c d a' b' c' d' hi low
    have hv := isValidChar_of_pair hh hlow
    have hn : escapedByte 117 = none := rfl
    unfold HighSurrogate at hh
    unfold LowSurrogate at hlow
    have hr : ¬ (low < 56320 ∨ 57343 < low) := by omega
    have hlen : ¬ t.length + 1 + 1 + 1 + 1 < 4 := by omega
    simp only [cons_append, nil_append, scanEscape, hn, readHex4_cons, hu,
      if_pos, if_pos hh, scanLowSurrogate, drop_succ_cons, drop_zero,
      length_cons, if_neg hlen, hu', if_neg hr, appendCodepoint_eq hv,
      length_nil]

theorem scanLowSurrogate_spec {c : UInt8} (hu : hexUnit a b c d = some u)
    (hh : HighSurrogate u) (digits : Text) (off : Nat) (res : Text) :
    (∃ p m, scanLowSurrogate (a :: b :: c :: d :: digits) off res u = .rejected p m ∧
      p ≤ off + 1 + (117 :: a :: b :: c :: d :: digits).length) ∨
    ∃ c' escape t, 117 :: a :: b :: c :: d :: digits = escape ++ t ∧ Escape c' escape := by
  have hd : (a :: b :: c :: d :: digits).drop 4 = digits := rfl
  unfold scanLowSurrogate
  rw [hd]
  split
  · next ld =>
      simp only [length_cons]
      split
      · exact Or.inl ⟨off, _, rfl, by omega⟩
      · split
        · exact Or.inl ⟨off + 8, _, rfl, by omega⟩
        · next low hhex =>
            split
            · exact Or.inl ⟨off + 8, _, rfl, by omega⟩
            · next hr =>
                obtain ⟨a', b', c', d', t, rfl, hu'⟩ := readHex4_eq hhex
                have hlow : LowSurrogate low := ⟨by omega, by omega⟩
                exact Or.inr ⟨_, [117, a, b, c, d, 92, 117, a', b', c', d'], t, rfl,
                  .pair hu hu' hh hlow⟩
  · exact Or.inl ⟨off, _, rfl, by omega⟩

/-- **Whatever else stands behind a backslash is refused where the text still is.** -/
theorem scanEscape_spec (mo : Text) (off : Nat) (res : Text) :
    (∃ p m, scanEscape mo off res = .rejected p m ∧ p ≤ off + 1 + mo.length) ∨
    ∃ c escape t, mo = escape ++ t ∧ Escape c escape := by
  cases mo with
  | nil => exact Or.inl ⟨off, _, rfl, by omega⟩
  | cons e ds =>
    cases hs : escapedByte e with
    | some v => exact Or.inr ⟨_, [e], ds, rfl, .short hs⟩
    | none =>
      by_cases hu : e = 117
      · subst hu
        cases hhex : readHex4 ds with
        | none =>
          refine Or.inl ⟨off + 2, "invalid four-digit Unicode escape", ?_, ?_⟩
          · simp only [scanEscape, hs, hhex, if_pos]
          · rw [length_cons]
            omega
        | some u =>
          obtain ⟨a, b, c, d, t, rfl, hun⟩ := readHex4_eq hhex
          by_cases hh : 55296 ≤ u ∧ u ≤ 56319
          · rw [show scanEscape (117 :: a :: b :: c :: d :: t) off res =
                scanLowSurrogate (a :: b :: c :: d :: t) off res u by
              simp only [scanEscape, hs, hhex, if_pos, if_pos hh]]
            exact scanLowSurrogate_spec hun hh t off res
          by_cases hlow : 56320 ≤ u ∧ u ≤ 57343
          · refine Or.inl ⟨off, "unpaired low surrogate", ?_, by omega⟩
            simp only [scanEscape, hs, hhex, if_pos, if_neg hh, if_pos hlow]
          · exact Or.inr ⟨_, [117, a, b, c, d], t, rfl, .unicode hun hh hlow⟩
      · refine Or.inl ⟨off + 1, "invalid string escape", ?_, by omega⟩
        simp only [scanEscape, hs, if_neg hu]

/-! ### Strings -/

/-- The only character whose encoding is one byte below 128 is that byte's. -/
theorem eq_of_encodeChar (hb : byte.toNat < 128) (h : String.utf8EncodeChar c = [byte]) :
    c = Char.ofNat byte.toNat := by
  have hs : Utf8.encode (String.ofList [c]) =
      Utf8.encode (String.ofList [Char.ofNat byte.toNat]) := by
    rw [Utf8.encode_ofList, Utf8.encode_ofList, flatMap_singleton, flatMap_singleton,
      h, encodeChar_ofNat hb]
  have hl := congrArg String.toList (Utf8.encode_injective hs)
  rw [String.toList_ofList, String.toList_ofList] at hl
  exact (List.cons.inj hl).1

theorem encodeChar_of_lt (h : c.toNat < 128) : String.utf8EncodeChar c = [UInt8.ofNat c.toNat] := by
  have hb : (UInt8.ofNat c.toNat).toNat = c.toNat := by
    rw [UInt8.toNat_ofNat']
    omega
  have hone := @encodeChar_ofNat (UInt8.ofNat c.toNat) (by omega)
  rw [hb, Char.ofNat_toNat] at hone
  exact hone

/-- A byte that a string goes past. -/
def Plain (byte : UInt8) : Prop := ¬ byte < 32 ∧ byte ≠ 34 ∧ byte ≠ 92

theorem plain_of_unescaped (h : Unescaped c) : ∀ byte ∈ String.utf8EncodeChar c, Plain byte := by
  intro byte hb
  by_cases hlow : byte.toNat < 128
  · have hc := eq_of_encodeChar hlow (Utf8.encodeChar_of_mem hlow hb)
    have hval : c.toNat = byte.toNat := by
      rw [hc]
      exact toNat_ofNat (Or.inl (by omega))
    refine ⟨?_, ?_, ?_⟩
    · intro hlt
      have := UInt8.lt_iff_toNat_lt.mp hlt
      have hlow := h.1
      simp at this
      omega
    · rintro rfl
      exact h.2.1 hc
    · rintro rfl
      exact h.2.2 hc
  · refine ⟨?_, ?_, ?_⟩
    · intro hlt
      have := UInt8.lt_iff_toNat_lt.mp hlt
      simp at this
      omega
    · rintro rfl
      exact hlow (by decide)
    · rintro rfl
      exact hlow (by decide)

theorem scanString_plain (h : ∀ byte ∈ bs, Plain byte) (m : Text) (off : Nat) (res : Text) :
    scanString (bs ++ m) off res = scanString m (off + bs.length) (res ++ bs) := by
  induction bs generalizing off res with
  | nil => rw [append_nil, nil_append, length_nil, Nat.add_zero]
  | cons byte bs ih =>
    obtain ⟨hlow, hq, hs⟩ := h byte mem_cons_self
    rw [cons_append, scanString, if_neg hq, if_neg hlow, if_neg hs,
      ih fun b hb => h b (mem_cons_of_mem _ hb), append_assoc, length_cons,
      Nat.add_assoc, Nat.add_comm 1]
    rfl

theorem scanString_escape (h : Escape c escape) (tail : Text) (off : Nat) (res : Text) :
    scanString (92 :: (escape ++ tail)) off res =
      scanString tail (off + (92 :: escape).length) (res ++ String.utf8EncodeChar c) := by
  have hd : (escape ++ tail).drop escape.length = tail := drop_left
  rw [scanString, if_neg (by decide), if_neg (by decide), if_pos rfl, scanEscape_escape h]
  dsimp only
  rw [hd, length_cons, Nat.add_assoc, Nat.add_comm 1]

theorem scanString_quote (m : Text) (off : Nat) (vs : List Char) :
    scanString (34 :: m) off (vs.flatMap String.utf8EncodeChar) =
      some (.scanned (String.ofList vs) (off + 1)) := by
  rw [scanString, if_pos rfl, decode_flatMap]
  rfl

/-- **What spells characters is scanned to them.** -/
theorem scanString_body {bo : Text} (h : StringBody cs bo) (m : Text) (off : Nat) (vs : List Char) :
    scanString (bo ++ 34 :: m) off (vs.flatMap String.utf8EncodeChar) =
      some (.scanned (String.ofList (vs ++ cs)) (off + (bo.length + 1))) := by
  have hs : ∀ (vs : List Char) (c : Char),
      vs.flatMap String.utf8EncodeChar ++ String.utf8EncodeChar c =
        (vs ++ [c]).flatMap String.utf8EncodeChar := by
    intro vs c
    rw [flatMap_append, flatMap_singleton]
  -- the escape at the front, whichever it is
  have he : ∀ {c : Char} {escape bs : Text} {cs : List Char} (off : Nat)
      (vs : List Char), Escape c escape →
      (∀ (off : Nat) (vs : List Char),
        scanString (bs ++ 34 :: m) off (vs.flatMap String.utf8EncodeChar) =
          some (.scanned (String.ofList (vs ++ cs)) (off + (bs.length + 1)))) →
      scanString (92 :: (escape ++ bs) ++ 34 :: m) off (vs.flatMap String.utf8EncodeChar) =
        some (.scanned (String.ofList (vs ++ c :: cs))
          (off + ((92 :: (escape ++ bs)).length + 1))) := by
    intro c escape bs cs off vs hc ih
    rw [cons_append, append_assoc, scanString_escape hc, hs, ih, append_assoc]
    simp only [length_cons, length_append, singleton_append]
    rw [show off + (escape.length + 1) + (bs.length + 1) =
      off + (escape.length + bs.length + 1 + 1) by omega]
  induction h generalizing off vs with
  | nil =>
    rw [nil_append, scanString_quote, append_nil]
    rfl
  | unescaped hc _ ih =>
    rw [append_assoc, scanString_plain (plain_of_unescaped hc), hs, ih, append_assoc,
      length_append, singleton_append, Nat.add_assoc, Nat.add_assoc]
  | escape hb _ ih => exact he off vs (.short hb) ih
  | unicode hu hh hlow _ ih => exact he off vs (.unicode hu hh hlow) ih
  | pair hu hu' hh hlow _ ih => exact he off vs (.pair hu hu' hh hlow) ih

theorem encodeChar_length_pos (c : Char) : 0 < (String.utf8EncodeChar c).length := by
  rw [String.length_utf8EncodeChar]
  exact Char.utf8Size_pos c

/-- What may not stand for itself is one byte. -/
theorem lt_of_not_unescaped (h : ¬ Unescaped c) : c.toNat < 128 := by
  by_cases hlow : c.toNat < 128
  · exact hlow
  · refine absurd ⟨by omega, ?_, ?_⟩ h
    · rintro rfl
      exact hlow (by decide)
    · rintro rfl
      exact hlow (by decide)

/-- **Whole characters are scanned to a string of the grammar, or refused where they are.** -/
theorem scanString_spec {r : Text} (hw : Whole r) (off : Nat) (vs : List Char) :
    (∃ p m, scanString r off (vs.flatMap String.utf8EncodeChar) =
      some (.rejected p m) ∧ p ≤ off + r.length) ∨
    ∃ cs bo more, r = bo ++ 34 :: more ∧ StringBody cs bo ∧ Whole more := by
  induction hlen : r.length using Nat.strongRecOn generalizing r off vs with
  | ind n ih =>
    subst hlen
    obtain ⟨cs, hcs⟩ := hw
    cases cs with
    | nil =>
      rw [hcs]
      exact Or.inl ⟨off, "unterminated string", by rw [flatMap_nil, scanString],
        Nat.le_add_right _ _⟩
    | cons c cs =>
      rw [flatMap_cons] at hcs
      by_cases hc : Unescaped c
      · have hpos := encodeChar_length_pos c
        have hsn : vs.flatMap String.utf8EncodeChar ++ String.utf8EncodeChar c =
            (vs ++ [c]).flatMap String.utf8EncodeChar := by
          rw [flatMap_append, flatMap_singleton]
        have hl : (cs.flatMap String.utf8EncodeChar).length < r.length := by
          rw [hcs, length_append]
          omega
        rcases ih _ hl ⟨cs, rfl⟩ (off + (String.utf8EncodeChar c).length) (vs ++ [c]) rfl
          with ⟨p, m, hscan, hplace⟩ | ⟨chars, bo, more, hm, hbody, hw⟩
        · refine Or.inl ⟨p, m, ?_, ?_⟩
          · rw [hcs, scanString_plain (plain_of_unescaped hc), hsn, hscan]
          · rw [hcs, length_append]
            omega
        · refine Or.inr ⟨c :: chars, String.utf8EncodeChar c ++ bo, more, ?_,
            .unescaped hc hbody, hw⟩
          rw [hcs, hm, append_assoc]
      · have hlow := lt_of_not_unescaped hc
        rw [encodeChar_of_lt hlow, singleton_append] at hcs
        by_cases hq : c = '"'
        · subst hq
          exact Or.inr ⟨[], [], _, hcs, .nil, cs, rfl⟩
        by_cases hs : c = '\\'
        · subst hs
          have hm : Whole (cs.flatMap String.utf8EncodeChar) := ⟨cs, rfl⟩
          change r = 92 :: cs.flatMap String.utf8EncodeChar at hcs
          rcases scanEscape_spec (cs.flatMap String.utf8EncodeChar) off
            (vs.flatMap String.utf8EncodeChar) with
            ⟨p, m, hscan, hplace⟩ | ⟨c, escape, tail, htail, hescape⟩
          · refine Or.inl ⟨p, m, ?_, ?_⟩
            · rw [hcs, scanString, if_neg (by decide), if_neg (by decide), if_pos rfl, hscan]
            · rw [hcs, length_cons]
              omega
          · rw [htail] at hcs hm
            have hsn : vs.flatMap String.utf8EncodeChar ++ String.utf8EncodeChar c =
                (vs ++ [c]).flatMap String.utf8EncodeChar := by
              rw [flatMap_append, flatMap_singleton]
            have hlen : r.length = (92 :: escape).length + tail.length := by
              rw [hcs, length_cons, length_append, length_cons]
              omega
            have hl : tail.length < r.length := by
              rw [hlen, length_cons]
              omega
            rcases ih _ hl (whole_of_append hescape.ascii hm)
              (off + (92 :: escape).length) (vs ++ [c]) rfl with
              ⟨p, m, hscan, hplace⟩ | ⟨chars, bo, more, hbody, hchars, hw⟩
            · refine Or.inl ⟨p, m, ?_, by omega⟩
              rw [hcs, scanString_escape hescape, hsn, hscan]
            · refine Or.inr ⟨c :: chars, 92 :: (escape ++ bo), more, ?_, hescape.body hchars, hw⟩
              rw [hcs, hbody, cons_append, append_assoc]
        · have hctl : c.toNat < 32 := by
            by_cases h : 32 ≤ c.toNat
            · exact absurd ⟨h, hq, hs⟩ hc
            · omega
          have hb : UInt8.ofNat c.toNat < 32 := by
            rw [UInt8.lt_iff_toNat_lt, UInt8.toNat_ofNat']
            simp
            omega
          have ho : UInt8.ofNat c.toNat ≠ 34 := by
            rintro heq
            rw [heq] at hb
            simp at hb
          refine Or.inl ⟨off, "unescaped control character in string", ?_, Nat.le_add_right _ _⟩
          rw [hcs, scanString, if_neg ho, if_pos hb]

/-! ### Numbers -/

/-- No digit comes next. -/
def NoDigit (more : Text) : Prop := ∀ byte ∈ more.head?, decimalDigit byte = false

theorem takeWhile_digits {digits m : Text} (hd : Digits digits) (hm : NoDigit m) :
    (digits ++ m).takeWhile decimalDigit = digits := by
  have hall : ∀ byte ∈ digits, decimalDigit byte = true := hd
  rw [takeWhile_append_of_pos hall]
  cases m with
  | nil => rw [takeWhile_nil, append_nil]
  | cons byte m =>
    rw [takeWhile_cons_of_neg (by rw [hm byte rfl]; exact Bool.false_ne_true), append_nil]

theorem scanDigits_append {fr ds m : Text} (hd : Digits ds) (hm : NoDigit m) :
    scanDigits (fr ++ (ds ++ m)) fr.length = fr.length + ds.length := by
  rw [scanDigits, drop_left, takeWhile_digits hd hm]

/-- Digits, as many as there are, and what comes behind them. -/
theorem digits_split (t : Text) : ∃ ds more, t = ds ++ more ∧ Digits ds ∧ NoDigit more := by
  refine ⟨t.takeWhile decimalDigit, t.dropWhile decimalDigit,
    (takeWhile_append_dropWhile).symm, all_eq_true.mp all_takeWhile, ?_⟩
  intro byte hb
  cases hd : t.dropWhile decimalDigit with
  | nil =>
    rw [hd] at hb
    simp at hb
  | cons first more =>
    rw [hd] at hb
    obtain rfl := Option.some.inj hb
    have hh := head?_dropWhile_not decimalDigit t
    rw [hd] at hh
    simpa using hh

theorem getElem?_front (fr t : Text) (n : Nat) : (fr ++ t)[fr.length + n]? = t[n]? := by
  rw [getElem?_append_right (Nat.le_add_right _ _), Nat.add_sub_cancel_left]

theorem take_front (front t : Text) : (front ++ t).take front.length = front := take_left

/-- An exponent does not come next. -/
def NoExponent (more : Text) : Prop := ∀ byte ∈ more.head?, byte ≠ 101 ∧ byte ≠ 69

/-- A scan that was not refused: the number read so far, as a text. -/
def scannedNumber (bytes : Text) (start : Nat) : Option NumberScan :=
  (Utf8.decode bytes).map fun lexeme => .scanned lexeme (start + bytes.length)

theorem exponentDigits_eq {fr si ds m : Text} {ma : UInt8} (hs : si = [] ∨ si = [43] ∨ si = [45])
    (hno : si = [] → (ds ++ m)[0]? ≠ some 43 ∧ (ds ++ m)[0]? ≠ some 45) :
    exponentDigits (fr ++ ma :: (si ++ (ds ++ m))) fr.length = (fr ++ ma :: si).length := by
  have hn : (fr ++ ma :: (si ++ (ds ++ m)))[fr.length + 1]? = (si ++ (ds ++ m))[0]? := by
    rw [getElem?_front, getElem?_cons_succ]
  unfold exponentDigits
  rw [hn, length_append, length_cons]
  rcases hs with rfl | rfl | rfl
  · obtain ⟨hp, hmin⟩ := hno rfl
    rw [nil_append, if_neg (not_or.mpr ⟨hp, hmin⟩)]
    rfl
  · have hp : ([43] ++ (ds ++ m))[0]? = some 43 := rfl
    rw [if_pos (Or.inl hp)]
    rfl
  · have hmin : ([45] ++ (ds ++ m))[0]? = some 45 := rfl
    rw [if_pos (Or.inr hmin)]
    rfl

/-- **An exponent of the grammar is read to its end.** -/
theorem scanExponent_part {fr m : Text} (start : Nat) (h : ExponentPart e)
    (hmo : e ≠ [] → NoDigit m) (hn : e = [] → NoExponent m) :
    scanExponent (fr ++ (e ++ m)) start fr.length = scannedNumber (fr ++ e) start := by
  unfold scanExponent
  cases h with
  | absent =>
    have hh : (fr ++ ([] ++ m))[fr.length]? = m.head? := by
      rw [nil_append, ← Nat.add_zero fr.length, getElem?_front, head?_eq_getElem?]
    rw [hh, if_neg, nil_append, take_front, append_nil]
    · rfl
    · rintro (h | h)
      · exact (hn rfl 101 h).1 rfl
      · exact (hn rfl 69 h).2 rfl
  | present hm hsi hne hd =>
    rename_i mark si ds
    obtain ⟨first, os, rfl⟩ := exists_cons_of_ne_nil hne
    have hfst : decimalDigit first = true := hd first mem_cons_self
    have hh : (fr ++ (mark :: (si ++ first :: os) ++ m))[fr.length]? = some mark := by
      rw [← Nat.add_zero fr.length, getElem?_front]
      rfl
    have hs : fr ++ (mark :: (si ++ first :: os) ++ m) =
        fr ++ mark :: (si ++ (first :: os ++ m)) := by
      rw [cons_append, append_assoc]
    have hw : exponentDigits (fr ++ (mark :: (si ++ first :: os) ++ m))
        fr.length = (fr ++ mark :: si).length := by
      rw [hs]
      refine exponentDigits_eq hsi ?_
      intro _
      refine ⟨?_, ?_⟩
      · intro heq
        obtain rfl := Option.some.inj heq
        exact absurd hfst (by decide)
      · intro heq
        obtain rfl := Option.some.inj heq
        exact absurd hfst (by decide)
    have hend : scanDigits (fr ++ (mark :: (si ++ first :: os) ++ m)) (fr ++ mark :: si).length =
        (fr ++ mark :: si).length + (first :: os).length := by
      have := @scanDigits_append (fr ++ mark :: si) (first :: os) m hd (hmo (cons_ne_nil _ _))
      rw [← this, hs]
      simp only [append_assoc, cons_append]
    have ht : (fr ++ (mark :: (si ++ first :: os) ++ m)).take
        ((fr ++ mark :: si).length + (first :: os).length) =
        fr ++ mark :: (si ++ first :: os) := by
      rw [← append_assoc]
      refine take_left' ?_
      simp only [length_append, length_cons]
      omega
    rw [hh, if_pos (hm.imp (congrArg some) (congrArg some))]
    simp only [hw, hend]
    rw [if_neg (by rw [length_cons]; omega), ht, scannedNumber]
    have hlen : (fr ++ mark :: si).length + (first :: os).length =
        (fr ++ mark :: (si ++ first :: os)).length := by
      simp only [length_append, length_cons]
      omega
    rw [hlen]

/-- Any text starts with an exponent, if only an empty one, or the scan is refused. -/
theorem scanExponent_spec (fr t : Text) (s : Nat) : (∃ p msg, scanExponent (fr ++ t) s fr.length =
      some (.rejected p msg) ∧ p ≤ s + (fr ++ t).length) ∨
    ∃ e m, t = e ++ m ∧ ExponentPart e ∧ (e ≠ [] → NoDigit m) ∧ (e = [] → NoExponent m) := by
  cases t with
  | nil =>
    exact Or.inr ⟨[], [], rfl, .absent, fun h => absurd rfl h, fun _ byte hb =>
      absurd hb (by simp)⟩
  | cons mark t =>
    by_cases hm : mark = 101 ∨ mark = 69
    · obtain ⟨si, af, hpo, hs, hpl⟩ : ∃ si af, t = si ++ af ∧ (si = [] ∨ si = [43] ∨ si = [45]) ∧
          (si = [] → af[0]? ≠ some 43 ∧ af[0]? ≠ some 45) := by
        by_cases hp : t[0]? = some 43
        · cases t with
          | nil => simp at hp
          | cons first af =>
            obtain rfl := Option.some.inj hp
            exact ⟨[43], af, rfl, Or.inr (Or.inl rfl), fun h => absurd h (by simp)⟩
        by_cases hmin : t[0]? = some 45
        · cases t with
          | nil => simp at hmin
          | cons first af =>
            obtain rfl := Option.some.inj hmin
            exact ⟨[45], af, rfl, Or.inr (Or.inr rfl), fun h => absurd h (by simp)⟩
        · exact ⟨[], t, rfl, Or.inl rfl, fun _ => ⟨hp, hmin⟩⟩
      obtain ⟨ds, m, rfl, hd, hmo⟩ := digits_split af
      subst hpo
      by_cases hne : ds = []
      · subst hne
        have hw := @exponentDigits_eq fr si [] m mark hs hpl
        have hh : (fr ++ mark :: (si ++ ([] ++ m)))[fr.length]? = some mark := by
          rw [← Nat.add_zero fr.length, getElem?_front]
          rfl
        have hend : scanDigits (fr ++ mark :: (si ++ ([] ++ m)))
            (fr ++ mark :: si).length = (fr ++ mark :: si).length := by
          have := @scanDigits_append (fr ++ mark :: si) [] m hd hmo
          rw [append_assoc, cons_append] at this
          exact this
        refine Or.inl ⟨s + (fr ++ mark :: si).length,
          "exponent requires at least one digit", ?_, ?_⟩
        · unfold scanExponent
          rw [hh, if_pos (hm.imp (congrArg some) (congrArg some))]
          simp only [hw, hend, if_true]
        · simp only [length_append, length_cons, nil_append]
          omega
      · refine Or.inr ⟨mark :: (si ++ ds), m, ?_, .present hm hs hne hd,
          fun _ => hmo, fun h => absurd h (cons_ne_nil _ _)⟩
        rw [cons_append, append_assoc]
    · refine Or.inr ⟨[], mark :: t, rfl, .absent, fun h => absurd rfl h, ?_⟩
      intro _ byte hb
      obtain rfl := Option.some.inj hb
      exact not_or.mp hm

/-- A fraction does not come next. -/
def NoPoint (more : Text) : Prop := more.head? ≠ some 46

/-- **A fraction and an exponent of the grammar are read to their end.** -/
theorem scanFraction_parts {fr f m : Text} (start : Nat) (h : FractionPart f)
    (hexp : ExponentPart e) (hdig : f ≠ [] → NoDigit (e ++ m))
    (hp : f = [] → NoPoint (e ++ m)) (hm : e ≠ [] → NoDigit m)
    (hn : e = [] → NoExponent m) :
    scanFraction (fr ++ (f ++ (e ++ m))) start fr.length =
      scannedNumber (fr ++ (f ++ e)) start := by
  unfold scanFraction
  cases h with
  | absent =>
    have hh : (fr ++ ([] ++ (e ++ m)))[fr.length]? ≠ some 46 := by
      rw [nil_append, ← Nat.add_zero fr.length, getElem?_front, ← head?_eq_getElem?]
      exact hp rfl
    rw [if_neg hh]
    dsimp only
    rw [if_neg fun h => hh h.1, nil_append, nil_append]
    exact scanExponent_part start hexp hm hn
  | present hne hd =>
    rename_i ds
    have hh : (fr ++ (46 :: ds ++ (e ++ m)))[fr.length]? = some 46 := by
      rw [← Nat.add_zero fr.length, getElem?_front]
      rfl
    have hs : fr ++ (46 :: ds ++ (e ++ m)) = (fr ++ [46]) ++ (ds ++ (e ++ m)) := by
      rw [append_assoc]
      rfl
    have hend : scanDigits (fr ++ (46 :: ds ++ (e ++ m))) (fr.length + 1) =
        (fr ++ 46 :: ds).length := by
      have := @scanDigits_append (fr ++ [46]) ds (e ++ m) hd (hdig (cons_ne_nil _ _))
      rw [length_append, length_singleton] at this
      rw [hs, this, length_append, length_cons]
      omega
    have hpos := length_pos_of_ne_nil hne
    rw [if_pos hh]
    dsimp only
    rw [hend, if_neg (by
      rw [length_append, length_cons]
      omega)]
    rw [← append_assoc, scanExponent_part start hexp hm hn, append_assoc]

theorem scanFraction_spec (fr t : Text) (start : Nat) :
    (∃ p m, scanFraction (fr ++ t) start fr.length =
      some (.rejected p m) ∧ p ≤ start + (fr ++ t).length) ∨
    ∃ bs mo, t = bs ++ mo ∧ (∃ f e, FractionPart f ∧ ExponentPart e ∧ bs = f ++ e) ∧
      scanFraction (fr ++ t) start fr.length = scannedNumber (fr ++ bs) start := by
  by_cases hpo : t.head? = some 46
  · obtain ⟨after, rfl⟩ : ∃ after, t = 46 :: after := by
      cases t with
      | nil => simp at hpo
      | cons first after => exact ⟨after, by rw [Option.some.inj hpo]⟩
    obtain ⟨ds, be, rfl, hd, hb⟩ := digits_split after
    have hh : (fr ++ 46 :: (ds ++ be))[fr.length]? = some 46 := by
      rw [← Nat.add_zero fr.length, getElem?_front]
      rfl
    have hend : scanDigits (fr ++ 46 :: (ds ++ be)) (fr.length + 1) = (fr ++ 46 :: ds).length := by
      have := @scanDigits_append (fr ++ [46]) ds be hd hb
      rw [length_append, length_singleton, append_assoc, singleton_append] at this
      rw [this, length_append, length_cons]
      omega
    by_cases hne : ds = []
    · subst hne
      refine Or.inl ⟨start + (fr.length + 1), "fraction requires at least one digit", ?_, ?_⟩
      · unfold scanFraction
        rw [if_pos hh]
        dsimp only
        rw [hend, if_pos ⟨hh, by rw [length_append, length_singleton]⟩]
      · simp only [length_append, length_cons]
        omega
    · have hs : scanFraction (fr ++ 46 :: (ds ++ be)) start fr.length =
          scanExponent ((fr ++ 46 :: ds) ++ be) start (fr ++ 46 :: ds).length := by
        have hpos := length_pos_of_ne_nil hne
        unfold scanFraction
        rw [if_pos hh]
        dsimp only
        rw [hend, if_neg (by
          rw [length_append, length_cons]
          omega), append_assoc, cons_append]
      rcases scanExponent_spec (fr ++ 46 :: ds) be start with
        ⟨p, m, hsc, hp⟩ | ⟨e, mo, rfl, hexp, hm, hn⟩
      · refine Or.inl ⟨p, m, hs.trans hsc, ?_⟩
        rw [append_assoc, cons_append] at hp
        exact hp
      · refine Or.inr ⟨46 :: (ds ++ e), mo, ?_, ⟨46 :: ds, e, .present hne hd, hexp, rfl⟩, ?_⟩
        · rw [cons_append, append_assoc]
        · rw [hs, scanExponent_part start hexp hm hn, append_assoc, cons_append]
  · have hh : (fr ++ t)[fr.length]? ≠ some 46 := by
      rw [← Nat.add_zero fr.length, getElem?_front, ← head?_eq_getElem?]
      exact hpo
    have hs : scanFraction (fr ++ t) start fr.length = scanExponent (fr ++ t) start fr.length := by
      unfold scanFraction
      rw [if_neg hh]
      dsimp only
      rw [if_neg fun h => hh h.1]
    rcases scanExponent_spec fr t start with
      ⟨p, m, hsc, hp⟩ | ⟨e, mo, rfl, hexp, hm, hn⟩
    · exact Or.inl ⟨p, m, hs.trans hsc, hp⟩
    · exact Or.inr ⟨e, mo, rfl, ⟨[], e, .absent, hexp, rfl⟩,
        hs.trans (scanExponent_part start hexp hm hn)⟩

theorem digit_ascii (h : digit byte = true) : byte.toNat < 128 := by
  simp only [digit, Bool.and_eq_true, decide_eq_true_eq] at h
  have := UInt8.le_iff_toNat_le.mp h.2
  simp at this
  omega

theorem digits_ascii {ds : Text} (h : Digits ds) : ∀ byte ∈ ds, byte.toNat < 128 :=
  fun byte hb => digit_ascii (h byte hb)

theorem number_ascii (h : Number bs) : ∀ byte ∈ bs, byte.toNat < 128 := by
  obtain ⟨si, i, fr, e, hs, hint, hf, hexp, rfl⟩ := h
  intro byte hbyte
  rcases List.mem_append.mp hbyte with hbyte | hbyte
  · rcases hs with rfl | rfl
    · exact absurd hbyte not_mem_nil
    · rw [mem_singleton.mp hbyte]
      decide
  rcases List.mem_append.mp hbyte with hbyte | hbyte
  · cases hint with
    | zero =>
      rw [mem_singleton.mp hbyte]
      decide
    | other hlow hh hd =>
      rcases mem_cons.mp hbyte with rfl | hbyte
      · have := UInt8.le_iff_toNat_le.mp hh
        simp at this
        omega
      · exact digits_ascii hd byte hbyte
  rcases List.mem_append.mp hbyte with hbyte | hbyte
  · cases hf with
    | absent => exact absurd hbyte not_mem_nil
    | present hne hd =>
      rcases mem_cons.mp hbyte with rfl | hbyte
      · decide
      · exact digits_ascii hd byte hbyte
  · cases hexp with
    | absent => exact absurd hbyte not_mem_nil
    | present hm hs hne hd =>
      rcases mem_cons.mp hbyte with rfl | hbyte
      · rcases hm with rfl | rfl
        · decide
        · decide
      rcases List.mem_append.mp hbyte with hbyte | hbyte
      · rcases hs with rfl | rfl | rfl
        · exact absurd hbyte not_mem_nil
        · rw [mem_singleton.mp hbyte]
          decide
        · rw [mem_singleton.mp hbyte]
          decide
      · exact digits_ascii hd byte hbyte

/-- A number is read as its own text. -/
theorem scannedNumber_eq (h : Number bs) (s : Nat) : ∃ lx, Utf8.encode lx = bs ∧
      scannedNumber bs s = some (.scanned lx (s + bs.length)) := by
  obtain ⟨lx, hdec, henc⟩ := decode_ascii (number_ascii h)
  exact ⟨lx, henc, by rw [scannedNumber, hdec]; rfl⟩

theorem integerStart_eq {t : Text} (hs : si = [] ∨ si = [45]) (ht : si = [] → t[0]? ≠ some 45) :
    (if (si ++ t)[0]? = some 45 then 1 else 0) = si.length := by
  rcases hs with rfl | rfl
  · rw [nil_append, if_neg (ht rfl)]
    rfl
  · have hmin : ([45] ++ t)[0]? = some 45 := rfl
    rw [if_pos hmin]
    rfl

/-- A scan behind the sign. -/
theorem scanNumber_sign {after : Text} {first : UInt8} (hsi : si = [] ∨ si = [45])
    (hfst : si = [] → first ≠ 45) (s : Nat) :
    scanNumber (si ++ first :: after) s =
      if first = 48 then
        if (after.head?.map decimalDigit).getD false then
          some (.rejected (s + (si.length + 1)) "leading zero is not allowed in a number")
        else scanFraction ((si ++ [first]) ++ after) s (si ++ [first]).length
      else if nonzeroDecimalDigit first then
        scanFraction ((si ++ [first]) ++ after) s
          (scanDigits ((si ++ [first]) ++ after) (si ++ [first]).length)
      else some (.rejected (s + si.length) "number requires an integer part") := by
  have hlen : (si ++ [first]).length = si.length + 1 := by
    rw [length_append, length_singleton]
  have hs : (si ++ [first]) ++ after = si ++ first :: after := by
    rw [append_assoc, singleton_append]
  have hh : (si ++ first :: after)[si.length]? = some first := by
    rw [← Nat.add_zero si.length, getElem?_front, getElem?_cons_zero]
  have hn : (si ++ first :: after)[si.length + 1]? = after.head? := by
    rw [getElem?_front, getElem?_cons_succ, head?_eq_getElem?]
  unfold scanNumber
  rw [integerStart_eq hsi fun hnil heq => hfst hnil (Option.some.inj heq), hlen, hs]
  dsimp only
  rw [hh, hn]

theorem scanNumber_nil (hs : si = [] ∨ si = [45]) (s : Nat) : scanNumber si s =
      some (.rejected (s + si.length) "number requires an integer part") := by
  rcases hs with rfl | rfl
  · rfl
  · rfl

theorem noDigit_parts {fr e m : Text} (hf : FractionPart fr)
    (hexp : ExponentPart e) (hmo : NoDigit m) :
    NoDigit (fr ++ (e ++ m)) := by
  cases hf with
  | absent =>
    cases hexp with
    | absent => exact hmo
    | present hm =>
      intro byte hb
      obtain rfl := Option.some.inj hb
      rcases hm with rfl | rfl
      · rfl
      · rfl
  | present =>
    intro byte hb
    obtain rfl := Option.some.inj hb
    rfl

theorem noPoint_exponent {m : Text} (hexp : ExponentPart e) (hmo : NoPoint m) :
    NoPoint (e ++ m) := by
  cases hexp with
  | absent => exact hmo
  | present hm =>
    intro heq
    rcases hm with rfl | rfl
    · exact absurd (Option.some.inj heq) (by decide)
    · exact absurd (Option.some.inj heq) (by decide)

/-- **A number of the grammar is read to its end.** -/
theorem scanNumber_number {bs m : Text} (h : Number bs) (hdig : NoDigit m)
    (hpo : NoPoint m) (hn : NoExponent m) (start : Nat) :
    scanNumber (bs ++ m) start = scannedNumber bs start := by
  obtain ⟨si, i, fr, e, hs, hint, hf, hexp, rfl⟩ := h
  have hp := noDigit_parts hf hexp hdig
  have hep := noPoint_exponent hexp hpo
  have hr : ∀ f : Text, scanFraction (f ++ (fr ++ (e ++ m))) start f.length =
        scannedNumber (f ++ (fr ++ e)) start :=
    fun f => scanFraction_parts start hf hexp
      (fun _ => @noDigit_parts [] _ _ .absent hexp hdig) (fun _ => hep)
      (fun _ => hdig) (fun _ => hn)
  have hsh : si ++ (i ++ (fr ++ e)) ++ m = si ++ (i ++ (fr ++ (e ++ m))) := by
    simp only [append_assoc]
  rw [hsh]
  cases hint with
  | zero =>
    have hh : (((fr ++ (e ++ m)).head?).map decimalDigit).getD false =
        false := by
      cases hc : (fr ++ (e ++ m)).head? with
      | none => rfl
      | some byte => exact hp byte hc
    rw [singleton_append, scanNumber_sign hs fun _ => by decide, if_pos rfl, hh,
      if_neg Bool.false_ne_true, hr, append_assoc]
  | other hlow hhi hd =>
    rename_i first ds
    have hnz : nonzeroDecimalDigit first = true := by
      rw [nonzeroDecimalDigit, decide_eq_true hlow, decide_eq_true hhi]
      rfl
    have hz : first ≠ 48 := by
      rintro rfl
      simp at hlow
    have hmin : first ≠ 45 := by
      rintro rfl
      simp at hlow
    rw [cons_append, scanNumber_sign hs fun _ => hmin, if_neg hz, if_pos hnz,
      scanDigits_append hd hp]
    have hfr : (si ++ [first]).length + ds.length =
        ((si ++ [first]) ++ ds).length := length_append.symm
    rw [hfr, ← append_assoc (si ++ [first]), hr]
    simp only [append_assoc, cons_append, nil_append]

/-- **Any text starts with a number, or the scan is refused.** -/
theorem scanNumber_spec (r : Text) (start : Nat) :
    (∃ p m, scanNumber r start = some (.rejected p m) ∧ p ≤ start + r.length) ∨
    ∃ bs mo, r = bs ++ mo ∧ Number bs ∧ scanNumber r start = scannedNumber bs start := by
  obtain ⟨si, t, rfl, hsi, ht⟩ : ∃ si t, r = si ++ t ∧
      (si = [] ∨ si = [45]) ∧ (si = [] → t.head? ≠ some 45) := by
    by_cases hmin : r.head? = some 45
    · cases r with
      | nil => simp at hmin
      | cons first t =>
        obtain rfl := Option.some.inj hmin
        exact ⟨[45], t, rfl, Or.inr rfl, fun h => absurd h (by simp)⟩
    · exact ⟨[], r, rfl, Or.inl rfl, fun _ => hmin⟩
  cases t with
  | nil =>
    rw [append_nil, scanNumber_nil hsi]
    exact Or.inl ⟨_, _, rfl, Nat.le_refl _⟩
  | cons first af =>
    have hfst : si = [] → first ≠ 45 := fun hnil heq => ht hnil (congrArg some heq)
    rw [scanNumber_sign hsi hfst]
    by_cases hz : first = 48
    · subst hz
      rw [if_pos rfl]
      by_cases hdig : (af.head?.map decimalDigit).getD false = true
      · rw [if_pos hdig]
        refine Or.inl ⟨_, _, rfl, ?_⟩
        simp only [length_append, length_cons]
        omega
      · rw [if_neg hdig]
        rcases scanFraction_spec (si ++ [48]) af start with
          ⟨p, m, hs, hp⟩ |
          ⟨bs, mo, rfl, ⟨fraction, e, hfrac, hexp, rfl⟩, hs⟩
        · refine Or.inl ⟨p, m, hs, ?_⟩
          rw [append_assoc] at hp
          exact hp
        · refine Or.inr ⟨(si ++ [48]) ++ (fraction ++ e), mo, ?_,
            ⟨si, [48], fraction, e, hsi, .zero, hfrac, hexp, ?_⟩, hs⟩
          · simp only [append_assoc, cons_append, nil_append]
          · rw [append_assoc]
    · rw [if_neg hz]
      by_cases hnz : nonzeroDecimalDigit first = true
      · rw [if_pos hnz]
        obtain ⟨ds, be, rfl, hd, hb⟩ := digits_split af
        have hfr : (si ++ [first]).length + ds.length =
            ((si ++ [first]) ++ ds).length := length_append.symm
        rw [scanDigits_append hd hb, hfr, ← append_assoc (si ++ [first])]
        simp only [nonzeroDecimalDigit, Bool.and_eq_true, decide_eq_true_eq] at hnz
        rcases scanFraction_spec ((si ++ [first]) ++ ds) be start with
          ⟨p, m, hs, hp⟩ |
          ⟨bs, mo, rfl, ⟨fraction, e, hfrac, hexp, rfl⟩, hs⟩
        · refine Or.inl ⟨p, m, hs, ?_⟩
          simp only [append_assoc, cons_append, nil_append] at hp ⊢
          exact hp
        · refine Or.inr ⟨((si ++ [first]) ++ ds) ++ (fraction ++ e), mo, ?_,
            ⟨si, first :: ds, fraction, e, hsi, .other hnz.1 hnz.2 hd, hfrac, hexp, ?_⟩, hs⟩
          · simp only [append_assoc, cons_append, nil_append]
          · simp only [append_assoc, cons_append, nil_append]
      · rw [if_neg hnz]
        refine Or.inl ⟨_, _, rfl, ?_⟩
        rw [length_append]
        omega

end Beagle.JsonCodec
