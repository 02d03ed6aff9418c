/-
The texts and integers of native programs.

A text is its UTF-8 bytes: its size is a number of bytes, and a slice of it is a slice of
bytes.  An `Int` is a signed word of 64 bits.
-/
import Beagle.Lib.Frames

namespace Beagle.Native

open Beagle.Lib.Frames
open Beagle.Lib (Utf8.encode Utf8.decode)

/-- The bytes of a text. -/
abbrev Text := List UInt8

/-- SHA-256: 64 hexadecimal digits for any bytes. -/
structure Sha256 where
  bytes : List UInt8 → String
  size : ∀ input, (bytes input).length = 64
  hex : ∀ input, ∀ c ∈ (bytes input).toList, c ∈ "0123456789abcdef".toList

/-- A signed word. -/
@[ext] structure Long where
  val : Int
  low : -2 ^ 63 ≤ val
  high : val < 2 ^ 63
deriving DecidableEq

/-- The word for a number, unless it is too large. -/
def Long.ofInt? (n : Int) : Option Long :=
  if h : -2 ^ 63 ≤ n ∧ n < 2 ^ 63 then some ⟨n, h.1, h.2⟩ else none

/-- The number that a run of digits spells. -/
def magnitude (digits : List UInt8) : Option Nat :=
  if digits = [] ∨ !digits.all decimal then none else some (value digits)

/-- A number in decimal, behind a sign if it has one. -/
def signed : List UInt8 → Option Int
  | [] => none
  | first :: rest =>
    if first = 45 then (magnitude rest).map fun n => -Int.ofNat n
    else if first = 43 then (magnitude rest).map Int.ofNat
    else (magnitude (first :: rest)).map Int.ofNat

/-- `parse-long` on the bytes of a text. -/
def readLong (bytes : List UInt8) : Option Long := (signed bytes).bind Long.ofInt?

def parseLong (text : String) : Option Long := readLong (Utf8.encode text)

/-- Without a collision, equal digests are of equal texts. -/
theorem Sha256.eq_of_digest {sha : Sha256} {e other : String} {i : Set (List UInt8)}
    (hinj : Set.InjOn sha.bytes i) (hmem : Utf8.encode e ∈ i)
    (hmem' : Utf8.encode other ∈ i)
    (h : "sha256:" ++ sha.bytes (Utf8.encode e) =
      "sha256:" ++ sha.bytes (Utf8.encode other)) : e = other :=
  Beagle.Lib.Utf8.encode_injective (hinj hmem hmem' ((String.append_right_inj "sha256:").mp h))

variable {l : Long} {n : Int} {bytes : List UInt8}

theorem Long.ofInt?_eq : Long.ofInt? n = some l ↔ l.val = n := by
  unfold Long.ofInt?
  constructor
  · intro h
    split at h
    · cases h
      rfl
    · cases h
  · rintro rfl
    rw [dif_pos ⟨l.low, l.high⟩]

theorem magnitude_eq {ds : List UInt8} {n : Nat} : magnitude ds = some n ↔
      ds ≠ [] ∧ (∀ b ∈ ds, decimal b = true) ∧ value ds = n := by
  unfold magnitude
  constructor
  · intro h
    split at h
    · cases h
    · rename_i hd
      rw [not_or, Bool.not_eq_true, Bool.not_eq_false', List.all_eq_true] at hd
      exact ⟨hd.1, hd.2, Option.some.inj h⟩
  · rintro ⟨hne, hall, rfl⟩
    rw [if_neg]
    rw [not_or, Bool.not_eq_true, Bool.not_eq_false', List.all_eq_true]
    exact ⟨hne, hall⟩

/-- Digits alone are read as the number they spell. -/
theorem signed_of_decimal {digits : List UInt8} (hne : digits ≠ [])
    (hall : ∀ byte ∈ digits, decimal byte = true) : signed digits = some (value digits : Int) := by
  cases digits with
  | nil => exact absurd rfl hne
  | cons first rest =>
    have hfst := hall first List.mem_cons_self
    have hsign : first ≠ 45 ∧ first ≠ 43 := by
      refine ⟨?_, ?_⟩ <;> (rintro rfl; exact absurd hfst (by decide))
    show (if first = 45 then _ else if first = 43 then _ else _) = _
    rw [if_neg hsign.1, if_neg hsign.2, magnitude_eq.mpr ⟨hne, hall, rfl⟩]
    rfl

/-- What is read is a number of one sign or of the other. -/
theorem signed_cases (h : signed bytes = some n) : ∃ ds, magnitude ds = some n.natAbs ∧
      (bytes = ds ∧ 0 ≤ n ∨ bytes = 43 :: ds ∧ 0 ≤ n ∨ bytes = 45 :: ds ∧ n ≤ 0) := by
  cases bytes with
  | nil => cases h
  | cons first r =>
    replace h : (if first = 45 then (magnitude r).map fun n => -Int.ofNat n
      else if first = 43 then (magnitude r).map Int.ofNat
      else (magnitude (first :: r)).map Int.ofNat) = some n := h
    by_cases hmin : first = 45
    · rw [if_pos hmin, Option.map_eq_some_iff] at h
      obtain ⟨m, hm, rfl⟩ := h
      refine ⟨r, by simpa using hm, Or.inr (Or.inr ⟨by rw [hmin], ?_⟩)⟩
      simp
    · rw [if_neg hmin] at h
      by_cases hp : first = 43
      · rw [if_pos hp, Option.map_eq_some_iff] at h
        obtain ⟨m, hm, rfl⟩ := h
        exact ⟨r, by simpa using hm, Or.inr (Or.inl ⟨by rw [hp], Int.natCast_nonneg m⟩)⟩
      · rw [if_neg hp, Option.map_eq_some_iff] at h
        obtain ⟨m, hm, rfl⟩ := h
        exact ⟨first :: r, by simpa using hm, Or.inl ⟨rfl, Int.natCast_nonneg m⟩⟩

theorem readLong_eq : readLong bytes = some l ↔ signed bytes = some l.val := by
  unfold readLong
  rw [Option.bind_eq_some_iff]
  constructor
  · rintro ⟨n, hn, hl⟩
    rw [Long.ofInt?_eq.mp hl]
    exact hn
  · intro h
    exact ⟨l.val, h, Long.ofInt?_eq.mpr rfl⟩

theorem parseLong_eq {t : String} :
    parseLong t = some l ↔ signed (Utf8.encode t) = some l.val := readLong_eq

/-- A word is read back from its decimal text. -/
theorem parseLong_toString (l : Long) : parseLong (toString l.val) = some l := by
  rw [parseLong_eq]
  cases l.val with
  | ofNat n =>
    show signed (numeral n) = some (n : Int)
    rw [signed_of_decimal (numeral_ne_nil n) (fun b hb => decimal_of_mem_numeral hb), value_numeral]
  | negSucc n =>
    have hbs : Utf8.encode (toString (Int.negSucc n)) = 45 :: numeral (n + 1) := by
      show Utf8.encode ("-" ++ toString (n + 1)) = _
      rw [encode_append]
      rfl
    rw [hbs]
    show (magnitude (numeral (n + 1))).map _ = _
    rw [magnitude_eq.mpr ⟨numeral_ne_nil _, fun b hb => decimal_of_mem_numeral hb, value_numeral _⟩]
    rfl

/-- A plain numeral that is read is the text of its word. -/
theorem eq_toString_of_plain {t : String} (h : parseLong t = some l)
    (hpl : plain (Utf8.encode t) = true) : t = toString l.val.natAbs ∧ 0 ≤ l.val := by
  obtain ⟨ds, hd, hbs⟩ := signed_cases (parseLong_eq.mp h)
  obtain ⟨hne, hdec, hval⟩ := magnitude_eq.mp hd
  have hs : ∀ b : UInt8, b.toNat < 48 → plain (b :: ds) = true → False := by
    intro b hb hp
    have hfr : 48 ≤ b.toNat := by
      cases ds with
      | nil => exact (decimal_iff.mp hp).1
      | cons =>
        have hl : decide (49 ≤ b.toNat) = true := (Bool.and_eq_true _ _ ▸ hp).1
        have hle := of_decide_eq_true hl
        omega
    omega
  rcases hbs with ⟨hbs, hsi⟩ | ⟨hbs, -⟩ | ⟨hbs, -⟩
  · refine ⟨Beagle.Lib.Utf8.encode_injective ?_, hsi⟩
    rw [hbs] at hpl ⊢
    rw [eq_numeral_of_plain hdec hpl, hval]
    rfl
  · exact absurd (hbs ▸ hpl) fun hp => hs 43 (by decide) hp
  · exact absurd (hbs ▸ hpl) fun hp => hs 45 (by decide) hp

end Beagle.Native
