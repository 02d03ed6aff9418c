/-
The numbers of the 64-bit binary format, by their place.

Below the sign the bits of a number count the numbers from zero up, so a number has a place: the
count, negative for a negative number.  One number is less than another when its place is.  A whole
number is rounded to the nearest number of the format, to the one with the even last bit when two
are as near; it never passes another whole number in this.
-/
import Mathlib

namespace Beagle.Lib.Binary64

/-- The place of a number among the numbers of the format. -/
def place (bits : BitVec 64) : Int :=
  if bits.msb then -((bits.toNat % 2 ^ 63 : Nat) : Int) else (bits.toNat % 2 ^ 63 : Nat)

/-! ### Rounding -/

/-- The number without its last bits, rounded to the nearest, to even. -/
def roundShift (value shift : Nat) : Nat :=
  let quotient := value / 2 ^ shift
  let remainder := value % 2 ^ shift
  if 2 ^ shift < 2 * remainder ∨ (2 ^ shift = 2 * remainder ∧ quotient % 2 = 1) then quotient + 1
  else quotient

/-- The 53 leading bits of a number that is not zero. -/
def significand (value : Nat) : Nat :=
  if Nat.log2 value ≤ 52 then value * 2 ^ (52 - Nat.log2 value)
  else roundShift value (Nat.log2 value - 52)

/-- The bits of a number below the sign: a significand of one bit more carries into the exponent. -/
def magnitude (value : Nat) : Nat :=
  if value = 0 then 0 else (Nat.log2 value + 1022) * 2 ^ 52 + significand value

/-- The bits of a whole number. -/
def ofInt (value : Int) : BitVec 64 :=
  if value < 0 then BitVec.ofNat 64 (2 ^ 63 + magnitude value.natAbs)
  else BitVec.ofNat 64 (magnitude value.natAbs)

/-! ### Rounding keeps the order -/

theorem roundShift_mono {a b shift : Nat} (h : a ≤ b) : roundShift a shift ≤ roundShift b shift := by
  have hpos : 0 < 2 ^ shift := Nat.two_pow_pos shift
  have hq : a / 2 ^ shift ≤ b / 2 ^ shift := Nat.div_le_div_right h
  unfold roundShift
  by_cases heq : a / 2 ^ shift = b / 2 ^ shift
  · have ha := Nat.div_add_mod a (2 ^ shift)
    have hb := Nat.div_add_mod b (2 ^ shift)
    rw [heq] at ha
    simp only [heq]
    have hr : a % 2 ^ shift ≤ b % 2 ^ shift := by omega
    split_ifs <;> omega
  · dsimp only
    split_ifs <;> omega

theorem roundShift_bounds {v shift low high : Nat} (hlow : low * 2 ^ shift ≤ v)
    (hh : v ≤ high * 2 ^ shift) :
    low ≤ roundShift v shift ∧ roundShift v shift ≤ high := by
  have he : ∀ n, roundShift (n * 2 ^ shift) shift = n := by
    intro n
    have hpos : 0 < 2 ^ shift := Nat.two_pow_pos shift
    have hdiv : n * 2 ^ shift / 2 ^ shift = n := Nat.mul_div_cancel _ hpos
    have hmod : n * 2 ^ shift % 2 ^ shift = 0 := Nat.mul_mod_left _ _
    unfold roundShift
    rw [hdiv, hmod]
    simp only [Nat.mul_zero]
    rw [if_neg]
    omega
  constructor
  · calc low = roundShift (low * 2 ^ shift) shift := (he low).symm
      _ ≤ roundShift v shift := roundShift_mono hlow
  · calc roundShift v shift ≤ roundShift (high * 2 ^ shift) shift := roundShift_mono hh
      _ = high := he high

theorem significand_bounds {value : Nat} (h : value ≠ 0) :
    2 ^ 52 ≤ significand value ∧ significand value ≤ 2 ^ 53 := by
  have hlow : 2 ^ Nat.log2 value ≤ value := Nat.log2_self_le h
  have hh : value < 2 ^ (Nat.log2 value + 1) := Nat.lt_log2_self
  unfold significand
  by_cases hs : Nat.log2 value ≤ 52
  · rw [if_pos hs]
    have hsp : 2 ^ Nat.log2 value * 2 ^ (52 - Nat.log2 value) = 2 ^ 52 := by
      rw [← Nat.pow_add, Nat.add_sub_cancel' hs]
    have hsp' : 2 ^ (Nat.log2 value + 1) * 2 ^ (52 - Nat.log2 value) = 2 ^ 53 := by
      rw [← Nat.pow_add]
      congr 1
      omega
    constructor
    · calc 2 ^ 52 = 2 ^ Nat.log2 value * 2 ^ (52 - Nat.log2 value) := hsp.symm
        _ ≤ value * 2 ^ (52 - Nat.log2 value) := Nat.mul_le_mul_right _ hlow
    · calc value * 2 ^ (52 - Nat.log2 value)
          ≤ 2 ^ (Nat.log2 value + 1) * 2 ^ (52 - Nat.log2 value) :=
            Nat.mul_le_mul_right _ hh.le
        _ = 2 ^ 53 := hsp'
  · rw [if_neg hs]
    refine roundShift_bounds ?_ ?_
    · calc 2 ^ 52 * 2 ^ (Nat.log2 value - 52) = 2 ^ Nat.log2 value := by
            rw [← Nat.pow_add]
            congr 1
            omega
        _ ≤ value := hlow
    · calc value ≤ 2 ^ (Nat.log2 value + 1) := hh.le
        _ = 2 ^ 53 * 2 ^ (Nat.log2 value - 52) := by
            rw [← Nat.pow_add]
            congr 1
            omega

theorem log2_mono {a b : Nat} (ha : a ≠ 0) (h : a ≤ b) : Nat.log2 a ≤ Nat.log2 b := by
  have hlow : 2 ^ Nat.log2 a ≤ b := (Nat.log2_self_le ha).trans h
  exact (Nat.le_log2 (by omega)).mpr hlow

theorem magnitude_mono {a b : Nat} (h : a ≤ b) : magnitude a ≤ magnitude b := by
  unfold magnitude
  by_cases ha : a = 0
  · rw [if_pos ha]
    exact Nat.zero_le _
  have hb : b ≠ 0 := by omega
  rw [if_neg ha, if_neg hb]
  rcases Nat.eq_or_lt_of_le (log2_mono ha h) with heq | hlt
  · rw [heq]
    refine Nat.add_le_add_left ?_ _
    unfold significand
    rw [heq]
    by_cases hs : Nat.log2 b ≤ 52
    · rw [if_pos hs, if_pos hs]
      exact Nat.mul_le_mul_right _ h
    · rw [if_neg hs, if_neg hs]
      exact roundShift_mono h
  · calc (Nat.log2 a + 1022) * 2 ^ 52 + significand a
        ≤ (Nat.log2 a + 1022) * 2 ^ 52 + 2 ^ 53 :=
          Nat.add_le_add_left (significand_bounds ha).2 _
      _ = (Nat.log2 a + 1 + 1022) * 2 ^ 52 + 2 ^ 52 := by ring
      _ ≤ (Nat.log2 b + 1022) * 2 ^ 52 + significand b :=
          Nat.add_le_add (Nat.mul_le_mul_right _ (by omega)) (significand_bounds hb).1

/-- The last place is that of a significand of ones below the greatest exponent. -/
theorem magnitude_lt {v : Nat} (h : v ≤ 2 ^ 63) : magnitude v < 2047 * 2 ^ 52 :=
  (magnitude_mono h).trans_lt (by decide)

theorem place_ofInt {v : Int} (hlow : -2 ^ 63 ≤ v) (hh : v ≤ 2 ^ 63) : place (ofInt v) =
      if v < 0 then -(magnitude v.natAbs : Int) else magnitude v.natAbs := by
  have hb := magnitude_lt (show v.natAbs ≤ 2 ^ 63 by omega)
  have hp : ∀ bs : BitVec 64, place bs =
      if 2 ^ 63 ≤ bs.toNat then -((bs.toNat % 2 ^ 63 : Nat) : Int)
      else (bs.toNat % 2 ^ 63 : Nat) := by
    intro bs
    rw [place, BitVec.msb_eq_decide]
    simp
  unfold ofInt
  by_cases hneg : v < 0
  · rw [if_pos hneg, if_pos hneg, hp, BitVec.toNat_ofNat,
      Nat.mod_eq_of_lt (by omega), if_pos (by omega)]
    congr 2
    omega
  · rw [if_neg hneg, if_neg hneg, hp, BitVec.toNat_ofNat,
      Nat.mod_eq_of_lt (by omega), if_neg (by omega)]
    congr 1
    omega

/-- **Whole numbers are rounded in their order.** -/
theorem place_ofInt_mono {a b : Int} (hlow : -2 ^ 63 ≤ a) (hh : b ≤ 2 ^ 63) (h : a ≤ b) :
    place (ofInt a) ≤ place (ofInt b) := by
  rw [place_ofInt hlow (h.trans hh), place_ofInt (hlow.trans h) hh]
  by_cases ha : a < 0
  · rw [if_pos ha]
    by_cases hb : b < 0
    · rw [if_pos hb]
      have hm := @magnitude_mono b.natAbs a.natAbs (by omega)
      omega
    · rw [if_neg hb]
      omega
  · rw [if_neg ha, if_neg (by omega)]
    have hm := @magnitude_mono a.natAbs b.natAbs (by omega)
    omega

/-- No whole number has the greatest exponent. -/
theorem exponent_ofInt {v : Int} (hlow : -2 ^ 63 ≤ v) (hh : v ≤ 2 ^ 63) :
    (ofInt v).toNat % 2 ^ 63 < 2047 * 2 ^ 52 := by
  have hb := magnitude_lt (show v.natAbs ≤ 2 ^ 63 by omega)
  unfold ofInt
  by_cases hneg : v < 0
  · rw [if_pos hneg, BitVec.toNat_ofNat]
    omega
  · rw [if_neg hneg, BitVec.toNat_ofNat]
    omega

end Beagle.Lib.Binary64
