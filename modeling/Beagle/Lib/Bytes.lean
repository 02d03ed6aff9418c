/-
Numbers as bytes, low byte first.

`leBytes width n` is the low `width` bytes of a number and `leValue` the number of
some bytes.  They are inverse on numbers that fit and on bytes of that width.

A cyclic redundancy check, one bit at a time, low bit first.

The check of some bytes folds them into a register.  A step of the register can be
undone when the top bit of the polynomial is set, since the top bit of the result
then tells which branch was taken.  So two byte sequences that differ in one byte
only never have the same check.

Bytes of a memory, by range.

A write changes no byte outside its range, so it keeps what is read from a range apart from it.
-/
import Mathlib

namespace Beagle.Lib

/-- The low `width` bytes of a number, low byte first. -/
def leBytes : Nat → Nat → List UInt8
  | 0, _ => []
  | width + 1, n => UInt8.ofNat n :: leBytes width (n / 256)

/-- The number some bytes stand for. -/
def leValue : List UInt8 → Nat
  | [] => 0
  | byte :: rest => byte.toNat + 256 * leValue rest

@[simp] theorem length_leBytes (width n : Nat) : (leBytes width n).length = width := by
  induction width generalizing n with
  | zero => rfl
  | succ width ih => rw [leBytes, List.length_cons, ih]

theorem leValue_lt (bs : List UInt8) : leValue bs < 256 ^ bs.length := by
  induction bs with
  | nil => simp [leValue]
  | cons byte r ih =>
    have hb := byte.toNat_lt
    have hpow : 256 ^ (byte :: r).length = 256 * 256 ^ r.length := by
      rw [List.length_cons, Nat.pow_succ, Nat.mul_comm]
    rw [leValue, hpow]
    omega

theorem leValue_leBytes {width n : Nat} (h : n < 256 ^ width) : leValue (leBytes width n) = n := by
  induction width generalizing n with
  | zero =>
    rw [Nat.pow_zero] at h
    rw [leBytes, leValue]
    omega
  | succ width ih =>
    have hdiv : n / 256 < 256 ^ width := by
      rw [Nat.pow_succ] at h
      exact Nat.div_lt_of_lt_mul (by rw [Nat.mul_comm]; exact h)
    rw [leBytes, leValue, ih hdiv, UInt8.toNat_ofNat']
    omega

theorem leBytes_leValue (bytes : List UInt8) : leBytes bytes.length (leValue bytes) = bytes := by
  induction bytes with
  | nil => rfl
  | cons byte rest ih =>
    have hb := byte.toNat_lt
    have hlow : UInt8.ofNat (byte.toNat + 256 * leValue rest) = byte := by
      apply UInt8.toNat_inj.mp
      rw [UInt8.toNat_ofNat']
      omega
    have hh : (byte.toNat + 256 * leValue rest) / 256 = leValue rest := by omega
    rw [List.length_cons, leBytes, leValue, hlow, hh, ih]

/-- Bytes of one width are determined by their number. -/
theorem leValue_injective {bs bytes' : List UInt8} (hl : bs.length = bytes'.length)
    (h : leValue bs = leValue bytes') : bs = bytes' := by
  rw [← leBytes_leValue bs, ← leBytes_leValue bytes', hl, h]

end Beagle.Lib

namespace Beagle.Lib.Crc

variable {w : Nat}

/-- Shift the register by one bit. -/
def bitStep (polynomial value : BitVec w) : BitVec w :=
  if value.getLsbD 0 then (value >>> 1) ^^^ polynomial else value >>> 1

def bitSteps (polynomial : BitVec w) : Nat → BitVec w → BitVec w
  | 0, value => value
  | n + 1, value => bitSteps polynomial n (bitStep polynomial value)

/-- Mix a byte into the register and shift by its eight bits. -/
def byteStep (polynomial register : BitVec w) (byte : UInt8) : BitVec w :=
  bitSteps polynomial 8 (register ^^^ byte.toBitVec.setWidth w)

def register (polynomial start : BitVec w) (bytes : List UInt8) : BitVec w :=
  bytes.foldl (byteStep polynomial) start

/-- The check: all ones in, all ones mixed into what comes out. -/
def check (polynomial : BitVec w) (bytes : List UInt8) : BitVec w :=
  register polynomial (BitVec.allOnes w) bytes ^^^ BitVec.allOnes w

/-! ### A step can be undone -/

section

variable {p : BitVec w}

theorem msb_bitStep (hw : 0 < w) (htop : p.getLsbD (w - 1) = true) (v : BitVec w) :
    (bitStep p v).getLsbD (w - 1) = v.getLsbD 0 := by
  have hs : (v >>> 1).getLsbD (w - 1) = false := by
    rw [BitVec.getLsbD_ushiftRight]
    exact BitVec.getLsbD_of_ge v _ (by omega)
  unfold bitStep
  cases h : v.getLsbD 0 with
  | false => simpa using hs
  | true => rw [if_pos rfl, BitVec.getLsbD_xor, hs, htop]; rfl

variable {a b : BitVec w} {byte : UInt8}

theorem bitStep_injective (hw : 0 < w) (htop : p.getLsbD (w - 1) = true)
    (h : bitStep p a = bitStep p b) : a = b := by
  have hlow : a.getLsbD 0 = b.getLsbD 0 := by
    rw [← msb_bitStep hw htop a, ← msb_bitStep hw htop b, h]
  have hs : a >>> 1 = b >>> 1 := by
    unfold bitStep at h
    rw [hlow] at h
    cases hb : b.getLsbD 0 with
    | false => simpa [hb] using h
    | true =>
      rw [hb, if_pos rfl, if_pos rfl] at h
      exact BitVec.xor_right_inj p |>.mp (by rw [BitVec.xor_comm, h, BitVec.xor_comm])
  apply BitVec.eq_of_getLsbD_eq
  intro i hi
  cases i with
  | zero => exact hlow
  | succ i =>
    have := congrArg (fun v => v.getLsbD i) hs
    simpa [BitVec.getLsbD_ushiftRight, Nat.add_comm] using this

theorem bitSteps_injective (hw : 0 < w) (htop : p.getLsbD (w - 1) = true) (n : Nat)
    (h : bitSteps p n a = bitSteps p n b) : a = b := by
  induction n generalizing a b with
  | zero => exact h
  | succ n ih => exact bitStep_injective hw htop (ih h)

theorem byteStep_injective_register (hw : 0 < w) (htop : p.getLsbD (w - 1) = true)
    (h : byteStep p a byte = byteStep p b byte) : a = b := by
  have := bitSteps_injective hw htop 8 h
  exact (BitVec.xor_left_inj _).mp this

variable {b' : UInt8}

theorem byteStep_injective_byte (hw : 8 ≤ w) (htop : p.getLsbD (w - 1) = true)
    {r : BitVec w}
    (h : byteStep p r byte = byteStep p r b') :
    byte = b' := by
  have hmix := bitSteps_injective (by omega) htop 8 h
  have hext := (BitVec.xor_right_inj _).mp hmix
  apply UInt8.toBitVec_inj.mp
  have := congrArg (BitVec.setWidth 8) hext
  simpa [hw] using this

theorem register_injective (hw : 0 < w) (htop : p.getLsbD (w - 1) = true)
    (bs : List UInt8) (h : register p a bs = register p b bs) :
    a = b := by
  induction bs generalizing a b with
  | nil => exact h
  | cons byte r ih => exact byteStep_injective_register hw htop (ih h)

/-- **A single changed byte changes the check.** -/
theorem check_changed (hw : 8 ≤ w) (htop : p.getLsbD (w - 1) = true)
    {pre af : List UInt8} (hne : byte ≠ b') :
    check p (pre ++ byte :: af) ≠ check p (pre ++ b' :: af) := by
  intro h
  have hreg := (BitVec.xor_left_inj _).mp h
  unfold register at hreg
  rw [List.foldl_append, List.foldl_append, List.foldl_cons, List.foldl_cons] at hreg
  have := register_injective (by omega) htop af hreg
  exact hne (byteStep_injective_byte hw htop this)

end

end Beagle.Lib.Crc

namespace Beagle.Lib.ByteRanges

/-- A byte at every address. -/
abbrev Memory := Int → UInt8

/-- The addresses from a start on, as many as the size. -/
def range (start size : Int) : Set Int := Set.Ico start (start + size)

def write (memory : Memory) (start : Int) (bytes : List UInt8) : Memory := fun address =>
  if start ≤ address ∧ address < start + bytes.length then bytes.getD (address - start).toNat 0
  else memory address

def read (memory : Memory) (start size : Int) : List UInt8 :=
  (List.range size.toNat).map fun index : Nat => memory (start + index)

theorem mem_range {s size ad : Int} : ad ∈ range s size ↔ s ≤ ad ∧ ad < s + size := Iff.rfl

variable {s' n' s n : Int}

theorem range_subset (hst : s' ≤ s)
    (hend : s + n ≤ s' + n') : range s n ⊆ range s' n' :=
  Set.Ico_subset_Ico hst hend

theorem disjoint_range_of_apart (h : s + n ≤ s' ∨ s' + n' ≤ s) :
    Disjoint (range s n) (range s' n') := by
  rw [Set.disjoint_left]
  intro ad ha ha'
  rw [mem_range] at ha ha'
  omega

/-- Ranges of some bytes are disjoint just where one ends before the other starts. -/
theorem disjoint_range_iff {start n : Int} (hs : 0 < n) (hs' : 0 < n') :
    Disjoint (range start n) (range s' n') ↔ start + n ≤ s' ∨ s' + n' ≤ start := by
  refine ⟨fun h => ?_, disjoint_range_of_apart⟩
  by_contra hover
  rw [not_or, not_le, not_le] at hover
  have hmem : max start s' ∈ range start n ∧ max start s' ∈ range s' n' := by
    rw [mem_range, mem_range]
    omega
  exact Set.disjoint_left.mp h hmem.1 hmem.2

theorem disjoint_range_shift (ba : Int) (h : Disjoint (range s n) (range s' n')) :
    Disjoint (range (ba + s) n) (range (ba + s') n') := by
  rw [Set.disjoint_left] at h ⊢
  intro ad ha ha'
  rw [mem_range] at ha ha'
  exact h (mem_range.mpr (show s ≤ ad - ba ∧ ad - ba < s + n by omega)) (mem_range.mpr (by omega))

/-- **A write keeps what is read from a range apart from it.** -/
theorem read_write_of_disjoint {m : Memory} {s size : Int} {bs : List UInt8}
    (h : Disjoint (range s bs.length) (range s' size)) :
    read (write m s bs) s' size = read m s' size := by
  refine List.map_congr_left fun i hidx => if_neg fun hins => ?_
  refine Set.disjoint_left.mp h hins (mem_range.mpr ?_)
  rw [List.mem_range] at hidx
  omega

end Beagle.Lib.ByteRanges
