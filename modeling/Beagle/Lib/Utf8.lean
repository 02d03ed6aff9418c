/-
UTF-8, as a decoder that reads one scalar after another.

The decoder takes the width of a scalar from its first byte, asks the bytes after it
to be continuations, refuses the overlong forms, the surrogates and what lies past
the last scalar, and assembles the code point.  `encode` is the standard encoding
of a string.

The two are inverse: the encoding of a string decodes to it, and what decodes is
the encoding of what it decodes to.  So a byte sequence that decodes determines the
string and is determined by it.
-/
import Mathlib

namespace Beagle.Lib.Utf8

open List

/-- The UTF-8 bytes of a string. -/
def encode (s : String) : List UInt8 := s.toList.flatMap String.utf8EncodeChar

/-- The width a first byte announces; zero when it cannot begin a scalar. -/
def width (b0 : Nat) : Nat :=
  if b0 ≤ 127 then 1
  else if 194 ≤ b0 ∧ b0 ≤ 223 then 2
  else if 224 ≤ b0 ∧ b0 ≤ 239 then 3
  else if 240 ≤ b0 ∧ b0 ≤ 244 then 4
  else 0

def continuation (value : Nat) : Bool := value &&& 192 = 128

def codePoint (width b0 b1 b2 b3 : Nat) : Nat :=
  if width = 1 then b0
  else if width = 2 then ((b0 &&& 31) <<< 6) + (b1 &&& 63)
  else if width = 3 then ((b0 &&& 15) <<< 12) + (((b1 &&& 63) <<< 6) + (b2 &&& 63))
  else ((b0 &&& 7) <<< 18) + (((b1 &&& 63) <<< 12) + (((b2 &&& 63) <<< 6) + (b3 &&& 63)))

def scalarValid (width b0 b1 b2 b3 : Nat) : Bool :=
  (width = 1 || continuation b1) && (width < 3 || continuation b2) &&
    (width < 4 || continuation b3) &&
    (width ≠ 3 || ((b0 ≠ 224 || 160 ≤ b1) && (b0 ≠ 237 || b1 ≤ 159))) &&
    (width ≠ 4 || ((b0 ≠ 240 || 144 ≤ b1) && (b0 ≠ 244 || b1 ≤ 143))) &&
    !(55296 ≤ codePoint width b0 b1 b2 b3 ∧ codePoint width b0 b1 b2 b3 ≤ 57343 : Bool) &&
    codePoint width b0 b1 b2 b3 ≤ 1114111

/-- The scalars of a byte sequence, if it is UTF-8 from end to end. -/
def decodeChars : List UInt8 → Option (List Char)
  | [] => some []
  | b0 :: rest =>
    let w := width b0.toNat
    if w = 0 ∨ w > rest.length + 1 then none
    else
      let b1 := if w > 1 then (rest.getD 0 0).toNat else 0
      let b2 := if w > 2 then (rest.getD 1 0).toNat else 0
      let b3 := if w > 3 then (rest.getD 2 0).toNat else 0
      if scalarValid w b0.toNat b1 b2 b3 then
        (decodeChars (rest.drop (w - 1))).map (Char.ofNat (codePoint w b0.toNat b1 b2 b3) :: ·)
      else none
termination_by bytes => bytes.length
decreasing_by
  simp only [length_drop, length_cons]
  omega

def decode (bytes : List UInt8) : Option String := (decodeChars bytes).map String.ofList

/-! ### The bit tests as arithmetic -/

theorem and_31 (n : Nat) : n &&& 31 = n % 32 := Nat.and_two_pow_sub_one_eq_mod n 5
theorem and_15 (n : Nat) : n &&& 15 = n % 16 := Nat.and_two_pow_sub_one_eq_mod n 4
theorem and_7 (n : Nat) : n &&& 7 = n % 8 := Nat.and_two_pow_sub_one_eq_mod n 3
theorem and_63 (n : Nat) : n &&& 63 = n % 64 := Nat.and_two_pow_sub_one_eq_mod n 6

set_option maxRecDepth 4000 in
theorem continuation_iff {va : Nat} (h : va < 256) :
    continuation va = true ↔ 128 ≤ va ∧ va < 192 := by
  have hall : ∀ v : Fin 256, continuation v.val = true ↔ 128 ≤ v.val ∧ v.val < 192 := by decide
  exact hall ⟨va, h⟩

theorem codePoint_two (b0 b1 b2 b3 : Nat) : codePoint 2 b0 b1 b2 b3 = b0 % 32 * 64 + b1 % 64 := by
  simp [codePoint, and_31, and_63, Nat.shiftLeft_eq]

theorem codePoint_three (b0 b1 b2 b3 : Nat) :
    codePoint 3 b0 b1 b2 b3 = b0 % 16 * 4096 + (b1 % 64 * 64 + b2 % 64) := by
  simp [codePoint, and_15, and_63, Nat.shiftLeft_eq]

theorem codePoint_four (b0 b1 b2 b3 : Nat) : codePoint 4 b0 b1 b2 b3
      = b0 % 8 * 262144 + (b1 % 64 * 4096 + (b2 % 64 * 64 + b3 % 64)) := by
  simp [codePoint, and_7, and_63, Nat.shiftLeft_eq]

/-! ### A string's encoding decodes to it -/

/-- The code point of a character is a scalar value. -/
private theorem char_range (c : Char) :
    c.toNat < 55296 ∨ (57343 < c.toNat ∧ c.toNat ≤ 1114111) := by
  have := c.valid
  simp only [UInt32.isValidChar, Nat.isValidChar] at this
  unfold Char.toNat
  omega

variable {n w : Nat} {c : Char} {s : String} {byte : UInt8}

private theorem toNat_ofNat (h : n < 256) : (UInt8.ofNat n).toNat = n := by
  rw [UInt8.toNat_ofNat']
  omega

variable {b0 : UInt8} {bytes : List UInt8}

private theorem decodeChars_step (w v0 v1 v2 v3 : Nat) (r : List UInt8) {m : List UInt8}
    (h0 : b0.toNat = v0) (h1 : (if w > 1 then ((r ++ m).getD 0 0).toNat else 0) = v1)
    (h2 : (if w > 2 then ((r ++ m).getD 1 0).toNat else 0) = v2)
    (h3 : (if w > 3 then ((r ++ m).getD 2 0).toNat else 0) = v3) (hw : width v0 = w)
    (hpos : 0 < w) (hlen : r.length + 1 = w) (hv : scalarValid w v0 v1 v2 v3 = true)
    (hc : codePoint w v0 v1 v2 v3 = c.toNat) :
    decodeChars (b0 :: (r ++ m)) = (decodeChars m).map (c :: ·) := by
  rw [decodeChars]
  simp only [h0, hw, h1, h2, h3]
  rw [if_neg (by simp only [length_append]; omega), if_pos hv, hc, Char.ofNat_toNat]
  rw [show w - 1 = r.length by omega, drop_left]

/-- A continuation byte carries six bits. -/
private theorem continuation_low (n : Nat) : continuation (n % 64 + 128) = true :=
  (continuation_iff (by omega)).mpr (by omega)

theorem decodeChars_encodeChar (c : Char) (m : List UInt8) :
    decodeChars (String.utf8EncodeChar c ++ m) = (decodeChars m).map (c :: ·) := by
  have hr := char_range c
  have hval : c.val.toNat = c.toNat := rfl
  have hlow : ∀ n, (UInt8.ofNat (n % 64 + 128)).toNat = n % 64 + 128 :=
    fun n => toNat_ofNat (by omega)
  unfold String.utf8EncodeChar
  simp only [hval]
  split
  · have hc : codePoint 1 c.toNat 0 0 0 = c.toNat := rfl
    refine decodeChars_step 1 _ 0 0 0 []
      (toNat_ofNat (by omega)) rfl rfl rfl ?_ (by omega) rfl ?_ hc
    · unfold width; rw [if_pos (by omega)]
    · rw [scalarValid, hc]
      simp
      omega
  split
  · have hc : codePoint 2 (c.toNat / 64 + 192) (c.toNat % 64 + 128) 0 0 = c.toNat := by
      rw [codePoint_two]
      omega
    refine decodeChars_step 2 (c.toNat / 64 + 192) _ 0 0 [_]
      ?_ (hlow _) rfl rfl ?_ (by omega) rfl ?_ hc
    · rw [toNat_ofNat (by omega)]
      omega
    · unfold width; rw [if_neg (by omega), if_pos (by omega)]
    · rw [scalarValid, hc, continuation_low]
      simp
      omega
  split
  · have hc : codePoint 3 (c.toNat / 4096 + 224) (c.toNat / 64 % 64 + 128)
        (c.toNat % 64 + 128) 0 = c.toNat := by
      rw [codePoint_three]
      omega
    refine decodeChars_step 3 (c.toNat / 4096 + 224) _ _ 0 [_, _]
      ?_ (hlow _) (hlow _) rfl ?_ (by omega) rfl ?_ hc
    · rw [toNat_ofNat (by omega)]
      omega
    · unfold width
      rw [if_neg (by omega), if_neg (by omega), if_pos (by omega)]
    · rw [scalarValid, hc, continuation_low, continuation_low]
      simp
      omega
  · have hc : codePoint 4 (c.toNat / 262144 + 240) (c.toNat / 4096 % 64 + 128)
        (c.toNat / 64 % 64 + 128) (c.toNat % 64 + 128) = c.toNat := by
      rw [codePoint_four]
      omega
    refine decodeChars_step 4 (c.toNat / 262144 + 240) _ _ _ [_, _, _] ?_
      (hlow _) (hlow _) (hlow _) ?_ (by omega) rfl ?_ hc
    · rw [toNat_ofNat (by omega)]
      omega
    · unfold width
      rw [if_neg (by omega), if_neg (by omega), if_neg (by omega), if_pos (by omega)]
    · rw [scalarValid, hc, continuation_low, continuation_low, continuation_low]
      simp
      omega

theorem decodeChars_flatMap (cs : List Char) :
    decodeChars (cs.flatMap String.utf8EncodeChar) = some cs := by
  induction cs with
  | nil => simp [decodeChars]
  | cons c cs ih => rw [flatMap_cons, decodeChars_encodeChar, ih]; rfl

/-- **A string's bytes decode to the string.** -/
theorem decode_encode (s : String) : decode (encode s) = some s := by
  unfold decode encode
  rw [decodeChars_flatMap]
  simp

/-! ### What decodes is the encoding of what it decodes to -/

private theorem ofNat_eq {b : UInt8} (h : n = b.toNat) : UInt8.ofNat n = b := by
  rw [h, UInt8.ofNat_toNat]

private theorem toNat_scalar (h : n < 55296 ∨ (57343 < n ∧ n ≤ 1114111)) :
    (Char.ofNat n).toNat = n := by
  have hv : n.isValidChar := by
    unfold Nat.isValidChar
    omega
  rw [Char.ofNat, dif_pos hv]
  rfl

/-- What a scalar's bytes satisfy when they are valid. -/
private theorem scalarValid_iff {b0 b1 b2 b3 : Nat} (h1 : b1 < 256) (h2 : b2 < 256) (h3 : b3 < 256)
    (h : scalarValid w b0 b1 b2 b3 = true) :
    (w = 1 ∨ (128 ≤ b1 ∧ b1 < 192)) ∧ (w < 3 ∨ (128 ≤ b2 ∧ b2 < 192)) ∧
      (w < 4 ∨ (128 ≤ b3 ∧ b3 < 192)) ∧ (w ≠ 3 ∨ b0 ≠ 224 ∨ 160 ≤ b1) ∧
      (w ≠ 4 ∨ b0 ≠ 240 ∨ 144 ≤ b1) ∧
      (codePoint w b0 b1 b2 b3 < 55296 ∨ 57343 < codePoint w b0 b1 b2 b3) ∧
      codePoint w b0 b1 b2 b3 ≤ 1114111 := by
  simp only [scalarValid, Bool.and_eq_true, Bool.or_eq_true, decide_eq_true_eq, Bool.not_eq_true',
    decide_eq_false_iff_not, continuation_iff h1, continuation_iff h2, continuation_iff h3] at h
  obtain ⟨⟨⟨⟨⟨⟨v1, v2⟩, v3⟩, v4⟩, v5⟩, v6⟩, v7⟩ := h
  have v8 : codePoint w b0 b1 b2 b3 < 55296 ∨ 57343 < codePoint w b0 b1 b2 b3 := by
    clear v1 v2 v3 v4 v5
    omega
  exact ⟨v1, v2, v3, v4.imp_right And.left, v5.imp_right And.left, v8, v7⟩

private theorem width_cases {b0 : Nat} (h : width b0 = w) (hw : w ≠ 0) :
    (w = 1 ∧ b0 ≤ 127) ∨ (w = 2 ∧ 194 ≤ b0 ∧ b0 ≤ 223) ∨ (w = 3 ∧ 224 ≤ b0 ∧ b0 ≤ 239) ∨
      (w = 4 ∧ 240 ≤ b0 ∧ b0 ≤ 244) := by
  unfold width at h
  split at h
  · omega
  · split at h
    · omega
    · split at h
      · omega
      · split at h <;> omega

/-- The bytes of a valid scalar are the encoding of its character. -/
private theorem encodeChar_ofNat {b0 b1 b2 b3 : UInt8} {w : Nat} (hw : width b0.toNat = w)
    (hpos : w ≠ 0) (hv : scalarValid w b0.toNat b1.toNat b2.toNat b3.toNat = true) :
    String.utf8EncodeChar (Char.ofNat (codePoint w b0.toNat b1.toNat b2.toNat b3.toNat))
      = [b0, b1, b2, b3].take w := by
  have h0 := b0.toNat_lt
  have h1 := b1.toNat_lt
  have h2 := b2.toNat_lt
  have h3 := b3.toNat_lt
  obtain ⟨v1, v2, v3, v4, v5, v6, v7⟩ := scalarValid_iff h1 h2 h3 hv
  have hcp : (Char.ofNat (codePoint w b0.toNat b1.toNat b2.toNat b3.toNat)).val.toNat
      = codePoint w b0.toNat b1.toNat b2.toNat b3.toNat :=
    toNat_scalar (v6.imp_right fun h => ⟨h, v7⟩)
  unfold String.utf8EncodeChar
  simp only [hcp]
  rcases width_cases hw hpos with ⟨rfl, hb⟩ | ⟨rfl, hb⟩ | ⟨rfl, hb⟩ | ⟨rfl, hb⟩
  · have hc : codePoint 1 b0.toNat b1.toNat b2.toNat b3.toNat = b0.toNat := rfl
    rw [hc, if_pos hb, ofNat_eq rfl]
    rfl
  · have v1 := v1.resolve_left (by decide)
    clear v2 v3 v4 v5 v6
    rw [codePoint_two] at *
    rw [if_neg (by omega), if_pos (by omega)]
    rw [ofNat_eq (b := b0) (by omega), ofNat_eq (b := b1) (by omega)]
    rfl
  · have v1 := v1.resolve_left (by decide)
    have v2 := v2.resolve_left (by decide)
    have v4 := v4.resolve_left (by decide)
    clear v3 v5 v6
    rw [codePoint_three] at *
    rw [if_neg (by omega), if_neg (by omega), if_pos (by omega)]
    rw [ofNat_eq (b := b0) (by omega), ofNat_eq (b := b1) (by omega), ofNat_eq (b := b2) (by omega)]
    rfl
  · have v1 := v1.resolve_left (by decide)
    have v2 := v2.resolve_left (by decide)
    have v3 := v3.resolve_left (by decide)
    have v5 := v5.resolve_left (by decide)
    clear v4 v6
    rw [codePoint_four] at *
    rw [if_neg (by omega), if_neg (by omega), if_neg (by omega)]
    rw [ofNat_eq (b := b0) (by omega), ofNat_eq (b := b1) (by omega),
      ofNat_eq (b := b2) (by omega), ofNat_eq (b := b3) (by omega)]
    rfl

/-- A scalar's first bytes, and the bytes after it. -/
private theorem take_drop_scalar (b0 : UInt8) (rest : List UInt8) (hpos : w ≠ 0)
    (hlen : w ≤ rest.length + 1) (hw : w ≤ 4) :
    [b0, rest.getD 0 0, rest.getD 1 0, rest.getD 2 0].take w ++ rest.drop (w - 1) = b0 :: rest := by
  obtain ⟨k, rfl⟩ := Nat.exists_eq_succ_of_ne_zero hpos
  have ht : [rest.getD 0 0, rest.getD 1 0, rest.getD 2 0].take k = rest.take k := by
    match rest, k, hlen with
    | _, 0, _ => rfl
    | c :: rest, 1, _ => rfl
    | c :: d :: rest, 2, _ => rfl
    | c :: d :: e :: rest, 3, _ => rfl
  rw [take_succ_cons, ht, cons_append, Nat.succ_sub_one, take_append_drop]

/-- What decodes starts with the encoding of its first character. -/
private theorem decodeChars_cons {r : List UInt8} {cs : List Char}
    (h : decodeChars (b0 :: r) = some cs) :
    ∃ c m cs', cs = c :: cs' ∧ b0 :: r = String.utf8EncodeChar c ++ m ∧
      m.length ≤ r.length ∧ decodeChars m = some cs' := by
  rw [decodeChars] at h
  by_cases hw : width b0.toNat = 0 ∨ width b0.toNat > r.length + 1
  · rw [if_pos hw] at h
    cases h
  · rw [if_neg hw] at h
    have hpos : width b0.toNat ≠ 0 := fun h0 => hw (Or.inl h0)
    have hle : width b0.toNat ≤ 4 := by
      rcases width_cases rfl hpos with h | h | h | h <;> omega
    -- The bytes past the width are not read, and stand for zeros.
    have hget : ∀ k i, (if width b0.toNat > k then (r.getD i 0).toNat else 0)
        = (if width b0.toNat > k then r.getD i 0 else 0 : UInt8).toNat := by
      intro k i
      split <;> rfl
    simp only [hget] at h
    by_cases hv : scalarValid (width b0.toNat) b0.toNat
        (if width b0.toNat > 1 then r.getD 0 0 else 0 : UInt8).toNat
        (if width b0.toNat > 2 then r.getD 1 0 else 0 : UInt8).toNat
        (if width b0.toNat > 3 then r.getD 2 0 else 0 : UInt8).toNat = true
    · rw [if_pos hv] at h
      obtain ⟨cs', hcs', rfl⟩ := Option.map_eq_some_iff.mp h
      refine ⟨_, _, cs', rfl, ?_, ?_, hcs'⟩
      · rw [encodeChar_ofNat rfl hpos hv]
        rw [← take_drop_scalar b0 r hpos (by omega) hle]
        congr 1
        rcases width_cases rfl hpos with ⟨h, -⟩ | ⟨h, -⟩ | ⟨h, -⟩ | ⟨h, -⟩ <;> rw [h] <;> rfl
      · rw [length_drop]
        omega
    · rw [if_neg hv] at h
      cases h

private theorem flatMap_of_decodeChars :
    ∀ (n : Nat) (bytes : List UInt8) (cs : List Char), bytes.length ≤ n →
      decodeChars bytes = some cs → cs.flatMap String.utf8EncodeChar = bytes := by
  intro n
  induction n with
  | zero =>
    intro bytes cs hn h
    rw [length_eq_zero_iff.mp (Nat.le_zero.mp hn)] at h ⊢
    rw [decodeChars] at h
    cases Option.some.inj h
    rfl
  | succ n ih =>
    intro bytes cs hn h
    cases bytes with
    | nil => exact ih [] cs (Nat.zero_le _) h
    | cons b0 r =>
      obtain ⟨c, m, cs', rfl, hsp, hlen, hm⟩ := decodeChars_cons h
      rw [hsp, flatMap_cons, ih m cs' (by simp at hn; omega) hm]

/-- **Bytes that decode are the bytes of the string they decode to.** -/
theorem encode_of_decode (h : decode bytes = some s) : encode s = bytes := by
  unfold decode at h
  obtain ⟨cs, hcs, rfl⟩ := Option.map_eq_some_iff.mp h
  unfold encode
  rw [String.toList_ofList]
  exact flatMap_of_decodeChars _ bytes cs (Nat.le_refl _) hcs

theorem encode_injective {t : String} (h : encode s = encode t) : s = t := by
  have := decode_encode s
  rw [h, decode_encode] at this
  exact (Option.some.inj this).symm

/-! ### Cuts behind a byte below 128 -/

/-- A byte below 128 is a character of its own. -/
theorem encodeChar_of_mem (hb : byte.toNat < 128) (hmem : byte ∈ String.utf8EncodeChar c) :
    String.utf8EncodeChar c = [byte] := by
  unfold String.utf8EncodeChar at hmem ⊢
  dsimp only at hmem ⊢
  by_cases h1 : c.val.toNat ≤ 127
  · rw [if_pos h1] at hmem ⊢
    rw [mem_singleton.mp hmem]
  · exfalso
    -- a first byte or a continuation is 128 at least
    have hle : ∀ n, 128 ≤ n → n < 256 → byte ≠ UInt8.ofNat n := by
      intro n hlow hh heq
      rw [heq, UInt8.toNat_ofNat'] at hb
      omega
    rw [if_neg h1] at hmem
    split at hmem
    · simp only [mem_cons, not_mem_nil, or_false] at hmem
      rcases hmem with h | h
      all_goals exact hle _ (by omega) (by omega) h
    split at hmem
    · simp only [mem_cons, not_mem_nil, or_false] at hmem
      rcases hmem with h | h | h
      all_goals exact hle _ (by omega) (by omega) h
    · simp only [mem_cons, not_mem_nil, or_false] at hmem
      rcases hmem with h | h | h | h
      all_goals exact hle _ (by omega) (by omega) h

/-- A text may be cut behind such a byte. -/
theorem flatMap_split (hby : byte.toNat < 128) {a : List UInt8} :
    ∀ (cs : List Char) (pre : List UInt8), cs.flatMap String.utf8EncodeChar = pre ++ byte :: a →
      ∃ fr bk : List Char, pre ++ [byte] = fr.flatMap String.utf8EncodeChar ∧
        a = bk.flatMap String.utf8EncodeChar := by
  intro cs
  induction cs with
  | nil => intro pre h; simp at h
  | cons c cs ih =>
    intro pre h
    rw [flatMap_cons] at h
    rcases append_eq_append_iff.mp h with ⟨r, hpre, hr⟩ | ⟨r, hc, hr⟩
    · obtain ⟨fr, bk, hfr, hb⟩ := ih r hr
      exact ⟨c :: fr, bk, by rw [hpre, append_assoc, hfr, flatMap_cons], hb⟩
    · cases r with
      | nil =>
        obtain ⟨fr, bk, hfr, hb⟩ := ih [] hr.symm
        refine ⟨c :: fr, bk, ?_, hb⟩
        rw [flatMap_cons, ← hfr, hc, append_nil, nil_append]
      | cons h' r =>
        obtain ⟨rfl, hp⟩ := List.cons.inj hr
        have hone := encodeChar_of_mem hby (c := c) (by rw [hc]; simp)
        rw [hone] at hc
        obtain ⟨rfl, rfl⟩ : pre = [] ∧ r = [] := by
          cases pre with
          | nil => exact ⟨rfl, by simpa using hc⟩
          | cons b pre => simp at hc
        exact ⟨[c], cs, by simp [hone], hp⟩

theorem encode_ofList (cs : List Char) :
    encode (String.ofList cs) = cs.flatMap String.utf8EncodeChar := by
  rw [encode, String.toList_ofList]

variable {b a : List UInt8}

theorem encode_split (hby : byte.toNat < 128) (h : encode s = b ++ byte :: a) :
    ∃ fr back : String, b ++ [byte] = encode fr ∧ a = encode back := by
  obtain ⟨fr, back, hfr, hb⟩ := flatMap_split hby s.toList b h
  exact ⟨String.ofList fr, String.ofList back, by rw [encode_ofList, hfr],
    by rw [encode_ofList, hb]⟩

/-- What decodes is an encoding. -/
theorem isSome_decode_iff : (decode bytes).isSome = true ↔ ∃ s, bytes = encode s := by
  rw [Option.isSome_iff_exists]
  exact ⟨fun ⟨s, h⟩ => ⟨s, (encode_of_decode h).symm⟩, fun ⟨s, h⟩ => ⟨s, h ▸ decode_encode s⟩⟩

/-! ### Cuts before the first byte of a character -/

/-- Behind its first byte a character has continuations only. -/
theorem encodeChar_tail {first : UInt8} {r : List UInt8}
    (h : String.utf8EncodeChar c = first :: r) (hmem : byte ∈ r) :
    128 ≤ byte.toNat ∧ byte.toNat ≤ 191 := by
  have hlow : ∀ n, 128 ≤ n → n ≤ 191 → 128 ≤ (UInt8.ofNat n).toNat ∧ (UInt8.ofNat n).toNat ≤ 191 := by
    intro n hlow hh
    rw [UInt8.toNat_ofNat']
    omega
  unfold String.utf8EncodeChar at h
  dsimp only at h
  split at h
  · rw [← (List.cons.inj h).2] at hmem
    cases hmem
  split at h
  · rw [← (List.cons.inj h).2, mem_singleton] at hmem
    rw [hmem]
    exact hlow _ (by omega) (by omega)
  split at h
  · rw [← (List.cons.inj h).2] at hmem
    simp only [mem_cons, not_mem_nil, or_false] at hmem
    rcases hmem with rfl | rfl
    all_goals exact hlow _ (by omega) (by omega)
  · rw [← (List.cons.inj h).2] at hmem
    simp only [mem_cons, not_mem_nil, or_false] at hmem
    rcases hmem with rfl | rfl | rfl
    all_goals exact hlow _ (by omega) (by omega)

/-- A text may be cut before a byte that is no continuation. -/
theorem flatMap_cut (hby : byte.toNat < 128 ∨ 191 < byte.toNat) {a : List UInt8} :
    ∀ (cs : List Char) (b : List UInt8), cs.flatMap String.utf8EncodeChar = b ++ byte :: a →
      ∃ fr bk : List Char, b = fr.flatMap String.utf8EncodeChar ∧
        byte :: a = bk.flatMap String.utf8EncodeChar := by
  intro cs
  induction cs with
  | nil => intro b h; simp at h
  | cons c cs ih =>
    intro b h
    cases b with
    | nil => exact ⟨[], c :: cs, rfl, h.symm⟩
    | cons first b =>
      rw [flatMap_cons] at h
      rcases append_eq_append_iff.mp h with ⟨r, hpre, hr⟩ | ⟨r, hc, hr⟩
      · obtain ⟨fr, bk, hfr, hb⟩ := ih r hr
        exact ⟨c :: fr, bk, by rw [hpre, hfr, flatMap_cons], hb⟩
      · cases r with
        | nil =>
          refine ⟨[c], cs, ?_, hr⟩
          rw [flatMap_cons, hc]
          simp
        | cons h' r =>
          obtain ⟨rfl, -⟩ := List.cons.inj hr
          have ht : 128 ≤ byte.toNat ∧ byte.toNat ≤ 191 :=
            encodeChar_tail hc (mem_append_right _ mem_cons_self)
          omega

theorem encode_cut (hby : byte.toNat < 128 ∨ 191 < byte.toNat)
    (h : encode s = b ++ byte :: a) :
    ∃ front bk : String, s = front ++ bk ∧ b = encode front := by
  obtain ⟨front, bk, hfr, hb⟩ := flatMap_cut hby s.toList b h
  refine ⟨String.ofList front, String.ofList bk, ?_, by rw [encode_ofList, hfr]⟩
  refine encode_injective ?_
  have happ : encode (String.ofList front ++ String.ofList bk) =
      encode (String.ofList front) ++ encode (String.ofList bk) := by
    rw [encode, String.toList_append, flatMap_append]
    rfl
  rw [happ, encode_ofList, encode_ofList, ← hfr, ← hb, h]

end Beagle.Lib.Utf8
