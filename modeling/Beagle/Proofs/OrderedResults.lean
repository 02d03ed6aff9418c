/-
Ordered results depend on the order of their rows only through rounded numbers.

Terms are ordered by kind and within a kind.  An Int and a Float are compared as doubles, two Ints
as integers, so a Float ties with every Int that is rounded to it, and a NaN with every number.
Where neither happens among the atoms of the rows the comparison of rows is a total order and its
sorted list is one; where it happens, three rows go round in a circle.
-/
import Beagle.Lib.Binary64
import Beagle.Lib.Comparators
import Beagle.Proofs.LeastModels
import Beagle.Query.Results

namespace Beagle.Query

open Beagle.Lib Beagle.Lib.Comparators Beagle.Store List

/-! ### Doubles as they are -/

/-- `<`, of doubles. -/
def doubleLt (a b : Float64) : Bool :=
  !a.isNan && !b.isNan && decide (Binary64.place a.bits < Binary64.place b.bits)

/-- `double`, of an Int. -/
def doubleOfLong (value : Int64) : Float64 := .ofBits (Binary64.ofInt value.toInt)

/-- The doubles of the host are those of the 64-bit binary format, and print differently unless
they are the same. -/
structure Doubles.Exact (D : Doubles) : Prop where
  str_injective : Function.Injective D.str
  lt : D.lt = doubleLt
  ofLong : D.ofLong = doubleOfLong

theorem nanBits_lt {bs : BitVec 64} (h : nanBits bs = true) :
    2047 * 2 ^ 52 ≤ bs.toNat % 2 ^ 63 := by
  simp only [nanBits, Bool.and_eq_true, beq_iff_eq] at h
  have hm := congrArg BitVec.toNat h.1
  rw [BitVec.toNat_and] at hm
  have hmod := congrArg (· % 2 ^ 63) hm
  simp only [Nat.and_mod_two_pow] at hmod
  have hle := @Nat.and_le_left (bs.toNat % 2 ^ 63) ((9218868437227405312#64).toNat % 2 ^ 63)
  rw [hmod] at hle
  exact le_trans (by decide) hle

theorem doubleOfLong_bits (v : Int64) :
    (doubleOfLong v).bits = Binary64.ofInt v.toInt ∧ (doubleOfLong v).isNan = false := by
  have hlow : -2 ^ 63 ≤ v.toInt := Int64.le_toInt v
  have hh : v.toInt ≤ 2 ^ 63 := (Int64.toInt_lt v).le
  have hnan : nanBits (Binary64.ofInt v.toInt) = false := by
    by_contra hcon
    have hge := nanBits_lt (Bool.not_eq_false _ |>.mp hcon)
    have hlt := Binary64.exponent_ofInt hlow hh
    omega
  unfold doubleOfLong Float64.ofBits Float64.isNan
  rw [dif_neg (by rw [hnan]; exact Bool.false_ne_true)]
  exact ⟨rfl, hnan⟩

/-- The place of an Int among the doubles. -/
def longPlace (value : Int64) : Int := Binary64.place (Binary64.ofInt value.toInt)

theorem longPlace_mono {a b : Int64} (h : a.toInt ≤ b.toInt) : longPlace a ≤ longPlace b :=
  Binary64.place_ofInt_mono (Int64.le_toInt a) (Int64.toInt_lt b).le h

/-! ### Numbers -/

/-- `<`, of two numbers. -/
def numberLess : AtomValue → AtomValue → Bool
  | .int a, .int b => decide (a.toInt < b.toInt)
  | .int a, .float y => doubleLt (doubleOfLong a) y
  | .float x, .int b => doubleLt x (doubleOfLong b)
  | .float x, .float y => doubleLt x y
  | _, _ => false

/-- Numbers are apart as they are compared: no Float is what two Ints are rounded to, and no NaN
stands beside numbers of which one is less. -/
structure NumbersApart (atoms : Set AtomValue) : Prop where
  rounding : ∀ a b x, .int a ∈ atoms → .int b ∈ atoms → .float x ∈ atoms → x.isNan = false →
    longPlace a = Binary64.place x.bits → longPlace b = Binary64.place x.bits → a = b
  nan : ∀ x, .float x ∈ atoms → x.isNan = true →
    ∀ p q, p ∈ atoms → q ∈ atoms → numberLess p q = false

variable {y x : Float64}

theorem doubleLt_long_left {a : Int64} (hy : y.isNan = false) :
    doubleLt (doubleOfLong a) y = true ↔ longPlace a < Binary64.place y.bits := by
  obtain ⟨hb, hnan⟩ := doubleOfLong_bits a
  simp [doubleLt, hnan, hy, hb, longPlace]

theorem doubleLt_long_right {b : Int64} (hx : x.isNan = false) :
    doubleLt x (doubleOfLong b) = true ↔ Binary64.place x.bits < longPlace b := by
  obtain ⟨hb, hnan⟩ := doubleOfLong_bits b
  simp [doubleLt, hnan, hx, hb, longPlace]

theorem doubleLt_iff (hx : x.isNan = false) (hy : y.isNan = false) :
    doubleLt x y = true ↔ Binary64.place x.bits < Binary64.place y.bits := by
  simp [doubleLt, hx, hy]

theorem doubleLt_asymm (h : doubleLt x y = true) : doubleLt y x = false := by
  simp only [doubleLt, Bool.and_eq_true, Bool.not_eq_true', decide_eq_true_eq] at h
  simp [doubleLt, h.1.1, h.1.2, h.2.le]

theorem numberLess_asymm {p q : AtomValue} (h : numberLess p q = true) : numberLess q p = false := by
  cases p with
  | int a =>
    cases q with
    | int b =>
      simp only [numberLess, decide_eq_true_eq] at h
      simp [numberLess, h.le]
    | float y => exact doubleLt_asymm h
    | _ => simp [numberLess] at h
  | float x =>
    cases q with
    | int b | float y => exact doubleLt_asymm h
    | _ => simp [numberLess] at h
  | _ => simp [numberLess] at h

theorem numberLess_int {a b : Int64} : numberLess (.int a) (.int b) = true ↔ a.toInt < b.toInt := by
  simp [numberLess]

/-- **Numbers that are apart are ordered.** -/
theorem NumbersApart.follows {ats : Set AtomValue} (h : NumbersApart ats) {p q r : AtomValue}
    (hp : p ∈ ats) (hq : q ∈ ats) (hr : r ∈ ats) (hisp : termRank (.atom p) = 1)
    (hisq : termRank (.atom q) = 1) (hisr : termRank (.atom r) = 1)
    (hqp : ¬numberLess q p = true) (hrq : ¬numberLess r q = true) :
    ¬numberLess r p = true := by
  by_cases hnan : ∃ x, .float x ∈ ats ∧ x.isNan = true
  · obtain ⟨x, hx, hxn⟩ := hnan
    rw [h.nan x hx hxn r p hr hp]
    exact Bool.false_ne_true
  have hre : ∀ x, .float x ∈ ats → x.isNan = false := by
    intro x hx
    by_contra hcon
    exact hnan ⟨x, hx, Bool.not_eq_false _ |>.mp hcon⟩
  cases p with
  | int a =>
    cases q with
    | int b =>
      cases r with
      | int c =>
        rw [numberLess_int] at *
        omega
      | float z =>
        have hz := hre z hr
        have hm := @longPlace_mono a b
        rw [numberLess_int] at hqp
        simp only [numberLess, doubleLt_long_right hz] at hrq ⊢
        omega
      | _ => simp [termRank] at hisr
    | float y =>
      have hy := hre y hq
      cases r with
      | int c =>
        have hm := @longPlace_mono c a
        have hro := h.rounding a c y hp hr hq hy
        simp only [numberLess, doubleLt_long_right hy] at hqp
        simp only [numberLess, doubleLt_long_left hy] at hrq
        rw [numberLess_int]
        intro hlt
        have hs := hro (by omega) (by omega)
        rw [hs] at hlt
        omega
      | float z =>
        have hz := hre z hr
        simp only [numberLess, doubleLt_long_right hy] at hqp
        simp only [numberLess, doubleLt_iff hz hy] at hrq
        simp only [numberLess, doubleLt_long_right hz]
        omega
      | _ => simp [termRank] at hisr
    | _ => simp [termRank] at hisq
  | float x =>
    have hx := hre x hp
    cases q with
    | int b =>
      simp only [numberLess, doubleLt_long_left hx] at hqp
      cases r with
      | int c =>
        have hm := @longPlace_mono b c
        rw [numberLess_int] at hrq
        simp only [numberLess, doubleLt_long_left hx]
        omega
      | float z =>
        have hz := hre z hr
        simp only [numberLess, doubleLt_long_right hz] at hrq
        simp only [numberLess, doubleLt_iff hz hx]
        omega
      | _ => simp [termRank] at hisr
    | float y =>
      have hy := hre y hq
      simp only [numberLess, doubleLt_iff hy hx] at hqp
      cases r with
      | int c =>
        simp only [numberLess, doubleLt_long_left hy] at hrq
        simp only [numberLess, doubleLt_long_left hx]
        omega
      | float z =>
        have hz := hre z hr
        simp only [numberLess, doubleLt_iff hz hy] at hrq
        simp only [numberLess, doubleLt_iff hz hx]
        omega
      | _ => simp [termRank] at hisr
    | _ => simp [termRank] at hisq
  | _ => simp [termRank] at hisp

/-! ### Terms -/

theorem intCompare_flips : Flips intCompare := flips_of_lt fun _ _ h => not_lt.mpr h.le

theorem intCompare_follows {am : Int → Prop} : Follows am intCompare :=
  follows_of_lt (fun _ _ _ _ _ _ hba hcb => not_lt.mpr ((not_lt.mp hba).trans (not_lt.mp hcb)))
    fun _ _ h => not_lt.mpr h.le

theorem intCompare_eq_zero {a b : Int} : intCompare a b = 0 ↔ a = b := by
  constructor
  · intro h
    unfold intCompare at h
    split_ifs at h <;> omega
  · rintro rfl
    simp [intCompare]

theorem textCompare_flips : Flips textCompare := flips_of_lt fun _ _ => String.lt_asymm

theorem textCompare_follows {am : String → Prop} : Follows am textCompare := by
  refine follows_of_lt (fun a b c _ _ _ hba hcb => ?_) fun _ _ => String.lt_asymm
  exact String.not_lt.mpr (String.le_trans (String.not_lt.mp hba) (String.not_lt.mp hcb))

theorem textCompare_eq_zero {a b : String} : textCompare a b = 0 ↔ a = b := by
  unfold textCompare
  constructor
  · intro h
    by_cases hab : a < b
    · rw [if_pos hab] at h
      simp at h
    · by_cases hba : b < a
      · rw [if_neg hab, if_pos hba] at h
        simp at h
      · exact String.le_antisymm (String.not_lt.mp hba) (String.not_lt.mp hab)
  · rintro rfl
    rw [if_neg (String.lt_irrefl a), if_neg (String.lt_irrefl a)]

theorem boolCompare_flips : Flips boolCompare := by
  intro a b
  cases a <;> cases b <;> decide

theorem boolCompare_follows {am : Bool → Prop} : Follows am boolCompare := by
  intro a b c _ _ _
  cases a <;> cases b <;> cases c <;> decide

/-- `compare`, of two numbers. -/
def numberCompare (p q : AtomValue) : Int :=
  if numberLess p q = true then -1 else if numberLess q p = true then 1 else 0

theorem numberCompare_flips : Flips numberCompare :=
  flips_of_lt fun p q h => by rw [numberLess_asymm h]; exact Bool.false_ne_true

/-- The order of Instants. -/
def instantCompare : Instant → Instant → Int :=
  before (fun left right => intCompare left.epochSeconds.toInt right.epochSeconds.toInt)
    fun left right => intCompare left.nanos right.nanos

theorem instantCompare_flips : Flips instantCompare :=
  (intCompare_flips.on fun i : Instant => i.epochSeconds.toInt).before
    (intCompare_flips.on fun i : Instant => (i.nanos : Int))

theorem instantCompare_follows {am : Instant → Prop} : Follows am instantCompare :=
  Follows.before ((@intCompare_follows fun _ => True).on _ |>.mono fun _ _ => True.intro)
    (intCompare_flips.on fun i : Instant => i.epochSeconds.toInt)
    fun a b c _ _ _ _ _ => @intCompare_follows (fun _ => True) a.nanos b.nanos c.nanos
      True.intro True.intro True.intro

section

variable {D : Doubles} {a b : Term} {p q c x : AtomValue} {n : Nat} {ord : List OrderClause}

theorem termCompare_of_rank_ne (h : termRank a ≠ termRank b) :
    termCompare D a b = intCompare (termRank a) (termRank b) := by
  have hne : intCompare (termRank a) (termRank b) ≠ 0 := fun hzero => h (intCompare_eq_zero.mp hzero)
  unfold termCompare
  simp only
  rw [if_pos hne]

theorem termCompare_number (hD : D.Exact) (hp : termRank (.atom p) = 1)
    (hq : termRank (.atom q) = 1) : termCompare D (.atom p) (.atom q) = numberCompare p q := by
  cases p with
  | int a =>
    cases q with
    | int b => simp [termCompare, termRank, intCompare, numberCompare, numberLess]
    | float y =>
      simp only [termCompare, termRank, intCompare, lt_self_iff_false, if_false, ne_eq,
        not_true_eq_false]
      rw [floatCompare, hD.lt, hD.ofLong]
      rfl
    | _ => simp [termRank] at hq
  | float x =>
    cases q with
    | int b =>
      simp only [termCompare, termRank, intCompare, lt_self_iff_false, if_false, ne_eq,
        not_true_eq_false]
      rw [floatCompare, hD.lt, hD.ofLong]
      rfl
    | float y =>
      simp only [termCompare, termRank, intCompare, lt_self_iff_false, if_false, ne_eq,
        not_true_eq_false]
      rw [floatCompare, hD.lt]
      rfl
    | _ => simp [termRank] at hq
  | _ => simp [termRank] at hp

theorem termCompare_triple {a1 a2 a3 b1 b2 b3 : Term} :
    termCompare D (.triple a1 a2 a3) (.triple b1 b2 b3) =
      if termCompare D a1 b1 = 0 then
        if termCompare D a2 b2 = 0 then termCompare D a3 b3 else termCompare D a2 b2
      else termCompare D a1 b1 := by
  rw [termCompare]
  simp only [termRank, intCompare, lt_self_iff_false, if_false, ne_eq, not_true_eq_false]
  by_cases hfst : termCompare D a1 b1 = 0
  · simp [hfst]
  · simp [hfst]

theorem termCompare_instant {a b : Instant} :
    termCompare D (.atom (.instant a)) (.atom (.instant b)) = instantCompare a b := by
  simp [termCompare, termRank, intCompare, instantCompare, before]

theorem termCompare_bool {a b : Bool} :
    termCompare D (.atom (.bool a)) (.atom (.bool b)) = boolCompare a b := by
  simp [termCompare, termRank, intCompare]

theorem termCompare_string {a b : String} :
    termCompare D (.atom (.string a)) (.atom (.string b)) = textCompare a b := by
  simp [termCompare, termRank, intCompare]

theorem termCompare_keyword {a b : Keyword} :
    termCompare D (.atom (.keyword a)) (.atom (.keyword b)) =
      textCompare (":" ++ a.spelling) (":" ++ b.spelling) := by
  simp [termCompare, termRank, intCompare]

/-- **Turning two Terms round turns their order round.** -/
theorem termCompare_flips (hD : D.Exact) : Flips (termCompare D) := by
  intro a
  induction a with
  | atom p =>
    intro b
    by_cases hr : termRank (.atom p) = termRank b
    case neg =>
      rw [termCompare_of_rank_ne hr, termCompare_of_rank_ne (Ne.symm hr)]
      exact intCompare_flips _ _
    cases b with
    | triple b1 b2 b3 => cases p <;> simp [termRank] at hr
    | atom q =>
      by_cases hnum : termRank (.atom p) = 1
      · rw [termCompare_number hD hnum (hr ▸ hnum), termCompare_number hD (hr ▸ hnum) hnum]
        exact numberCompare_flips p q
      cases p with
      | int _ | float _ => simp [termRank] at hnum
      | string a =>
        cases q <;> simp [termRank] at hr
        rw [termCompare_string, termCompare_string]
        exact textCompare_flips _ _
      | bool a =>
        cases q <;> simp [termRank] at hr
        rw [termCompare_bool, termCompare_bool]
        exact boolCompare_flips _ _
      | keyword a =>
        cases q <;> simp [termRank] at hr
        rw [termCompare_keyword, termCompare_keyword]
        exact textCompare_flips _ _
      | instant a =>
        cases q <;> simp [termRank] at hr
        rw [termCompare_instant, termCompare_instant]
        exact instantCompare_flips _ _
  | triple a1 a2 a3 ih1 ih2 ih3 =>
    intro b
    cases b with
    | atom q =>
      have hr : termRank (.triple a1 a2 a3) ≠ termRank (.atom q) := by
        cases q <;> simp [termRank]
      rw [termCompare_of_rank_ne hr, termCompare_of_rank_ne (Ne.symm hr)]
      exact intCompare_flips _ _
    | triple b1 b2 b3 =>
      rw [termCompare_triple, termCompare_triple, ih1, ih2, ih3]
      split_ifs <;> omega

/-- The atoms of a Term. -/
def termAtoms : Term → List AtomValue
  | .atom value => [value]
  | .triple t1 t2 t3 => termAtoms t1 ++ termAtoms t2 ++ termAtoms t3

/-- Only these atoms occur in the Term. -/
def OfAtoms (atoms : Set AtomValue) (t : Term) : Prop := ∀ value ∈ termAtoms t, value ∈ atoms

variable {t1 t2 t3 : Term} {row left right : Tuple} {ats : Set AtomValue}

theorem ofAtoms_triple :
    OfAtoms ats (.triple t1 t2 t3) ↔ OfAtoms ats t1 ∧ OfAtoms ats t2 ∧ OfAtoms ats t3 := by
  simp only [OfAtoms, termAtoms, List.mem_append]
  constructor
  · intro h
    exact ⟨fun v hv => h v (Or.inl (Or.inl hv)),
      fun v hv => h v (Or.inl (Or.inr hv)), fun v hv => h v (Or.inr hv)⟩
  · rintro ⟨h1, h2, h3⟩ v ((hv | hv) | hv)
    · exact h1 v hv
    · exact h2 v hv
    · exact h3 v hv

variable {atoms : Set AtomValue}

theorem ofAtoms_atom : OfAtoms atoms (.atom p) ↔ p ∈ atoms := by
  simp [OfAtoms, termAtoms]

/-- How deep a Term is. -/
def depth : Term → Nat
  | .atom _ => 0
  | .triple t1 t2 t3 => max (depth t1) (max (depth t2) (depth t3)) + 1

/-- Only these atoms occur in the Term, and it is less deep than this. -/
def Below (atoms : Set AtomValue) (n : Nat) (t : Term) : Prop := depth t < n ∧ OfAtoms atoms t

/-- The order of the parts of Triples, from the first on. -/
def partsCompare (D : Doubles) : Term × Term × Term → Term × Term × Term → Int :=
  before (fun s t => termCompare D s.1 t.1)
    (before (fun s t => termCompare D s.2.1 t.2.1) fun s t => termCompare D s.2.2 t.2.2)

theorem partsCompare_follows (hD : D.Exact)
    (ih : Follows (Below ats n) (termCompare D)) :
    Follows (fun t : Term × Term × Term => Below ats n t.1 ∧ Below ats n t.2.1 ∧
      Below ats n t.2.2) (partsCompare D) := by
  have hf := termCompare_flips hD
  have hl : Follows (fun t : Term × Term × Term => Below ats n t.1 ∧ Below ats n t.2.1 ∧
      Below ats n t.2.2) fun s t => termCompare D s.2.2 t.2.2 :=
    (ih.on fun t : Term × Term × Term => t.2.2).mono fun t ht => ht.2.2
  have hmid : Follows (fun t : Term × Term × Term => Below ats n t.1 ∧ Below ats n t.2.1 ∧
      Below ats n t.2.2) fun s t => termCompare D s.2.1 t.2.1 :=
    (ih.on fun t : Term × Term × Term => t.2.1).mono fun t ht => ht.2.1
  have hfst : Follows (fun t : Term × Term × Term => Below ats n t.1 ∧ Below ats n t.2.1 ∧
      Below ats n t.2.2) fun s t => termCompare D s.1 t.1 :=
    (ih.on fun t : Term × Term × Term => t.1).mono fun t ht => ht.1
  refine hfst.before (hf.on fun t : Term × Term × Term => t.1) ?_
  intro s t u hs ht hu _ _
  exact (hmid.before (hf.on fun t : Term × Term × Term => t.2.1)
    fun s t u hs ht hu _ _ => hl s t u hs ht hu) s t u hs ht hu

theorem below_parts (h : Below ats (n + 1) (.triple t1 t2 t3)) :
    Below ats n t1 ∧ Below ats n t2 ∧ Below ats n t3 := by
  obtain ⟨hd, ho⟩ := h
  obtain ⟨h1, h2, h3⟩ := ofAtoms_triple.mp ho
  rw [depth] at hd
  exact ⟨⟨by omega, h1⟩, ⟨by omega, h2⟩, by omega, h3⟩

/-- Terms of one kind are ordered, where their parts and their numbers are. -/
theorem termCompare_same_rank (hD : D.Exact) (hat : NumbersApart ats)
    (ih : Follows (Below ats n) (termCompare D)) {c : Term} (ha : Below ats (n + 1) a)
    (hb : Below ats (n + 1) b) (hc : Below ats (n + 1) c) (hab : termRank a = termRank b)
    (hbc : termRank b = termRank c) (hle : termCompare D a b ≤ 0) (hle' : termCompare D b c ≤ 0) :
    termCompare D a c ≤ 0 := by
  cases a with
  | triple a1 a2 a3 =>
    cases b with
    | atom q => cases q <;> simp [termRank] at hab
    | triple b1 b2 b3 =>
      cases c with
      | atom r => cases r <;> simp [termRank] at hbc
      | triple c1 c2 c3 =>
        rw [termCompare_triple] at hle hle' ⊢
        exact partsCompare_follows hD ih (a1, a2, a3) (b1, b2, b3) (c1, c2, c3)
          (below_parts ha) (below_parts hb) (below_parts hc) hle hle'
  | atom p =>
    cases b with
    | triple _ _ _ => cases p <;> simp [termRank] at hab
    | atom q =>
      cases c with
      | triple _ _ _ => cases q <;> simp [termRank] at hbc
      | atom r =>
        by_cases hnum : termRank (.atom p) = 1
        · have hq : termRank (.atom q) = 1 := hab ▸ hnum
          have hr : termRank (.atom r) = 1 := hbc ▸ hq
          rw [termCompare_number hD hnum hq] at hle
          rw [termCompare_number hD hq hr] at hle'
          rw [termCompare_number hD hnum hr]
          have hfol : Follows (fun p => p ∈ ats ∧ termRank (.atom p) = 1) numberCompare :=
            follows_of_lt (fun p q r hp hq hr =>
                hat.follows hp.1 hq.1 hr.1 hp.2 hq.2 hr.2)
              fun p q h => by rw [numberLess_asymm h]; exact Bool.false_ne_true
          exact hfol p q r ⟨ofAtoms_atom.mp ha.2, hnum⟩ ⟨ofAtoms_atom.mp hb.2, hq⟩
            ⟨ofAtoms_atom.mp hc.2, hr⟩ hle hle'
        cases p with
        | int _ | float _ => simp [termRank] at hnum
        | string _ =>
          cases q <;> simp [termRank] at hab
          cases r <;> simp [termRank] at hbc
          rw [termCompare_string] at hle hle' ⊢
          exact @textCompare_follows (fun _ => True) _ _ _ True.intro True.intro True.intro hle hle'
        | bool _ =>
          cases q <;> simp [termRank] at hab
          cases r <;> simp [termRank] at hbc
          rw [termCompare_bool] at hle hle' ⊢
          exact @boolCompare_follows (fun _ => True) _ _ _ True.intro True.intro True.intro hle hle'
        | keyword _ =>
          cases q <;> simp [termRank] at hab
          cases r <;> simp [termRank] at hbc
          rw [termCompare_keyword] at hle hle' ⊢
          exact @textCompare_follows (fun _ => True) _ _ _ True.intro True.intro True.intro hle hle'
        | instant _ =>
          cases q <;> simp [termRank] at hab
          cases r <;> simp [termRank] at hbc
          rw [termCompare_instant] at hle hle' ⊢
          exact @instantCompare_follows (fun _ => True) _ _ _ True.intro True.intro
            True.intro hle hle'

theorem termCompare_eq_before : termCompare D a b =
      before (fun a b => intCompare (termRank a) (termRank b)) (termCompare D) a b := by
  unfold before
  by_cases hr : termRank a = termRank b
  · rw [if_pos (intCompare_eq_zero.mpr hr)]
  · rw [if_neg fun hz => hr (intCompare_eq_zero.mp hz), termCompare_of_rank_ne hr]

/-- **Terms are ordered where their numbers are apart.** -/
theorem termCompare_follows (hD : D.Exact) (hatoms : NumbersApart atoms) :
    Follows (OfAtoms atoms) (termCompare D) := by
  have hall : ∀ n, Follows (Below atoms n) (termCompare D) := by
    intro n
    induction n with
    | zero => intro a b c ha; exact absurd ha.1 (Nat.not_lt_zero _)
    | succ n ih =>
      have hpre : Follows (Below atoms (n + 1))
          (before (fun a b => intCompare (termRank a) (termRank b)) (termCompare D)) := by
        refine Follows.before
          ((@intCompare_follows fun _ => True).on termRank |>.mono fun _ _ => True.intro)
          (intCompare_flips.on termRank) fun a b c ha hb hc hab hbc => ?_
        exact termCompare_same_rank hD hatoms ih ha hb hc (intCompare_eq_zero.mp hab)
          (intCompare_eq_zero.mp hbc)
      intro a b c ha hb hc hab hbc
      rw [termCompare_eq_before] at hab hbc ⊢
      exact hpre a b c ha hb hc hab hbc
  intro a b c ha hb hc
  exact hall (max (depth a) (max (depth b) (depth c)) + 1) a b c ⟨by omega, ha⟩ ⟨by omega, hb⟩
    ⟨by omega, hc⟩

/-! ### Rows -/

/-- The value of a row that has the column. -/
def columnOf (row : Tuple) (position : Int) : Term :=
  (row[position.toNat]?).getD (.atom (.bool false))

/-- The columns of the clauses are there. -/
def InRange (order : List OrderClause) (row : Tuple) : Prop :=
  ∀ clause ∈ order, 0 ≤ clause.column ∧ clause.column.toNat < row.length

/-- What one clause makes of two rows. -/
def clauseCompare (D : Doubles) (clause : OrderClause) (left right : Tuple) : Int :=
  if clause.direction = ⟨"desc"⟩ then
    0 - termCompare D (columnOf left clause.column) (columnOf right clause.column)
  else termCompare D (columnOf left clause.column) (columnOf right clause.column)

def rowCompare (D : Doubles) : List OrderClause → Tuple → Tuple → Int
  | [] => fun left right => textCompare (rowKey D.str left) (rowKey D.str right)
  | clause :: rest => before (clauseCompare D clause) (rowCompare D rest)

theorem column_eq {ps : Int} (hpos : 0 ≤ ps) (hlt : ps.toNat < row.length) :
    column row ps = pure (columnOf row ps) := by
  unfold column columnOf nth
  rw [if_neg (by omega), getElem?_eq_getElem hlt]
  rfl

theorem orderedRowCompare_eq (hl : InRange ord left) (hr : InRange ord right) :
    orderedRowCompare D left right ord = pure (rowCompare D ord left right) := by
  induction ord with
  | nil => rfl
  | cons cl r ih =>
    obtain ⟨hpos, hlt⟩ := hl cl mem_cons_self
    obtain ⟨_, hlt'⟩ := hr cl mem_cons_self
    have hre := ih (fun o hmem => hl o (mem_cons_of_mem _ hmem))
      fun o hmem => hr o (mem_cons_of_mem _ hmem)
    rw [orderedRowCompare, column_eq hpos hlt, column_eq hpos hlt', pure_bind, pure_bind, hre]
    show (if clauseCompare D cl left right = 0 then pure (rowCompare D r left right)
      else pure (clauseCompare D cl left right) : Eval Int) = _
    rw [rowCompare, before]
    split_ifs <;> rfl

theorem clauseCompare_flips (hD : D.Exact) (cl : OrderClause) : Flips (clauseCompare D cl) := by
  have hf := (termCompare_flips hD).on fun row : Tuple => columnOf row cl.column
  by_cases hd : cl.direction = ⟨"desc"⟩
  · intro left right
    rw [clauseCompare, clauseCompare, if_pos hd, if_pos hd]
    exact hf.turn left right
  · intro left right
    rw [clauseCompare, clauseCompare, if_neg hd, if_neg hd]
    exact hf left right

theorem rowCompare_flips (hD : D.Exact) (ord : List OrderClause) : Flips (rowCompare D ord) := by
  induction ord with
  | nil => exact textCompare_flips.on (rowKey D.str)
  | cons cl r ih => exact (clauseCompare_flips hD cl).before ih

/-- A row of these atoms alone, with the columns of the clauses. -/
structure RowOver (atoms : Set AtomValue) (order : List OrderClause) (row : Tuple) : Prop where
  ofAtoms : ∀ t ∈ row, OfAtoms atoms t
  inRange : InRange order row

theorem RowOver.column (h : RowOver ats ord row) {cl : OrderClause}
    (hcl : cl ∈ ord) : OfAtoms ats (columnOf row cl.column) := by
  obtain ⟨_, hlt⟩ := h.inRange cl hcl
  unfold columnOf
  rw [getElem?_eq_getElem hlt]
  exact h.ofAtoms _ (getElem_mem hlt)

theorem rowCompare_follows (hD : D.Exact) (hat : NumbersApart ats)
    (ord : List OrderClause) : Follows (RowOver ats ord) (rowCompare D ord) := by
  induction ord with
  | nil =>
    exact (@textCompare_follows fun _ => True).on (rowKey D.str) |>.mono
      fun _ _ => True.intro
  | cons cl r ih =>
    have hr : ∀ row, RowOver ats (cl :: r) row → RowOver ats r row :=
      fun row h => ⟨h.ofAtoms, fun o hmem => h.inRange o (mem_cons_of_mem _ hmem)⟩
    refine Follows.before ?_ (clauseCompare_flips hD cl) fun a b c ha hb hc _ _ =>
      ih a b c (hr a ha) (hr b hb) (hr c hc)
    have hfol := ((termCompare_follows hD hat).on fun row : Tuple =>
      columnOf row cl.column).mono fun row (h : RowOver ats (cl :: r) row) =>
        h.column mem_cons_self
    by_cases hd : cl.direction = ⟨"desc"⟩
    · intro a b c ha hb hc hab hbc
      rw [clauseCompare, if_pos hd] at hab hbc ⊢
      exact hfol.turn ((termCompare_flips hD).on fun row : Tuple =>
        columnOf row cl.column) a b c ha hb hc hab hbc
    · intro a b c ha hb hc hab hbc
      rw [clauseCompare, if_neg hd] at hab hbc ⊢
      exact hfol a b c ha hb hc hab hbc

/-- **Only a row ties with itself.** -/
theorem eq_of_rowCompare (hD : D.Exact) (h : rowCompare D ord left right = 0) : left = right := by
  induction ord with
  | nil => exact rowKey_injective hD.str_injective (textCompare_eq_zero.mp h)
  | cons cl r ih =>
    rw [rowCompare, before] at h
    by_cases hcl : clauseCompare D cl left right = 0
    · rw [if_pos hcl] at h
      exact ih h
    · rw [if_neg hcl] at h
      exact absurd h hcl

/-! ### Sorting -/

/-- Merging rows that have the columns keeps them, and their order where there is one. -/
theorem mergeOrderedRowVectors_spec {am : Tuple → Prop} {ord : List OrderClause}
    (hf : Flips (rowCompare D ord)) :
    ∀ left right : List Tuple, (∀ row ∈ left, InRange ord row) → (∀ row ∈ right, InRange ord row) →
      ∃ md, mergeOrderedRowVectors D ord left right = pure md ∧ md.Perm (left ++ right) ∧
        (Follows am (rowCompare D ord) → (∀ row ∈ left, am row) →
          (∀ row ∈ right, am row) → Sorted (rowCompare D ord) left →
          Sorted (rowCompare D ord) right → Sorted (rowCompare D ord) md) := by
  intro left right
  induction left, right using mergeOrderedRowVectors.induct with
  | case1 right =>
    intro _ _
    refine ⟨right, by rw [mergeOrderedRowVectors], Perm.refl _, ?_⟩
    intro _ _ _ _ hri
    exact hri
  | case2 left hne =>
    intro _ _
    refine ⟨left, ?_, by rw [append_nil], ?_⟩
    · cases left with
      | nil => exact absurd rfl hne
      | cons first ls =>
        rw [mergeOrderedRowVectors]
        exact hne
    · intro _ _ _ hlef _
      exact hlef
  | case3 a ls b rs ihleft ihright =>
    intro hlef hri
    have hd := orderedRowCompare_eq (D := D) (hlef a mem_cons_self) (hri b mem_cons_self)
    by_cases hle : rowCompare D ord a b ≤ 0
    · obtain ⟨md, hm, hp, hsrt⟩ :=
        ihleft (fun row hmem => hlef row (mem_cons_of_mem _ hmem)) hri
      refine ⟨a :: md, ?_, hp.cons a, ?_⟩
      · rw [mergeOrderedRowVectors, hd, pure_bind, if_pos hle, hm]
        rfl
      · intro hfol hl hr hsl hsr
        obtain ⟨hfst, hlefts⟩ := pairwise_cons.mp hsl
        refine pairwise_cons.mpr ⟨?_, hsrt hfol
          (fun row hmem => hl row (mem_cons_of_mem _ hmem)) hr hlefts hsr⟩
        intro row hrow
        rcases List.mem_append.mp (hp.mem_iff.mp hrow) with hmem | hmem
        · exact hfst row hmem
        · rcases mem_cons.mp hmem with rfl | hmem
          · exact hle
          · exact hfol a b row (hl a mem_cons_self) (hr b mem_cons_self)
              (hr row (mem_cons_of_mem _ hmem)) hle
              ((pairwise_cons.mp hsr).1 row hmem)
    · obtain ⟨md, hm, hp, hsrt⟩ :=
        ihright hlef fun row hmem => hri row (mem_cons_of_mem _ hmem)
      refine ⟨b :: md, ?_, (hp.cons b).trans perm_middle.symm, ?_⟩
      · rw [mergeOrderedRowVectors, hd, pure_bind, if_neg hle, hm]
        rfl
      · intro hfol hl hr hsl hsr
        obtain ⟨hfst, hrig⟩ := pairwise_cons.mp hsr
        refine pairwise_cons.mpr ⟨?_, hsrt hfol hl
          (fun row hmem => hr row (mem_cons_of_mem _ hmem)) hsl hrig⟩
        have hba : rowCompare D ord b a ≤ 0 := by
          rw [hf a b]
          omega
        intro row hrow
        rcases List.mem_append.mp (hp.mem_iff.mp hrow) with hmem | hmem
        · rcases mem_cons.mp hmem with rfl | hmem
          · exact hba
          · exact hfol b a row (hr b mem_cons_self) (hl a mem_cons_self)
              (hl row (mem_cons_of_mem _ hmem)) hba
              ((pairwise_cons.mp hsl).1 row hmem)
        · exact hfst row hmem

/-- **Sorting rows keeps them, and puts them in order where there is one.** -/
theorem mergeSortOrderedRows_spec {among : Tuple → Prop} (hflips : Flips (rowCompare D ord)) :
    ∀ rows : List Tuple, (∀ row ∈ rows, InRange ord row) →
      ∃ sorted, mergeSortOrderedRows D ord rows = pure sorted ∧ sorted.Perm rows ∧
        (Follows among (rowCompare D ord) → (∀ row ∈ rows, among row) →
          Sorted (rowCompare D ord) sorted) := by
  intro rows
  induction rows using mergeSortOrderedRows.induct with
  | case1 rows hshort =>
    intro _
    refine ⟨rows, by rw [mergeSortOrderedRows, if_pos hshort], Perm.refl _, ?_⟩
    intro _ _
    match rows, hshort with
    | [], _ => exact List.Pairwise.nil
    | [row], _ => exact pairwise_singleton _ row
  | case2 rows hlong middle ihleft ihright =>
    intro hrows
    obtain ⟨left, hl, hlperm, hlsorted⟩ :=
      ihleft fun row hmem => hrows row (mem_of_mem_take hmem)
    obtain ⟨right, hr, hrperm, hrsorted⟩ :=
      ihright fun row hmem => hrows row (mem_of_mem_drop hmem)
    obtain ⟨merged, hmerge, hperm, hsrt⟩ :=
      @mergeOrderedRowVectors_spec D among ord hflips left right
        (fun row hmem => hrows row (mem_of_mem_take (hlperm.mem_iff.mp hmem)))
        fun row hmem => hrows row (mem_of_mem_drop (hrperm.mem_iff.mp hmem))
    refine ⟨merged, ?_, ?_, ?_⟩
    · rw [mergeSortOrderedRows, if_neg hlong]
      show (mergeSortOrderedRows D ord (rows.take middle) >>= _) = _
      rw [hl, pure_bind, hr, pure_bind, hmerge]
    · have hwhole := hlperm.append hrperm
      rw [take_append_drop middle rows] at hwhole
      exact hperm.trans hwhole
    · intro hfol hamong
      exact hsrt hfol (fun row hmem => hamong row (mem_of_mem_take (hlperm.mem_iff.mp hmem)))
        (fun row hmem => hamong row (mem_of_mem_drop (hrperm.mem_iff.mp hmem)))
        (hlsorted hfol fun row hmem => hamong row (mem_of_mem_take hmem))
        (hrsorted hfol fun row hmem => hamong row (mem_of_mem_drop hmem))

theorem mergeSortOrderedRows_append {ord : List OrderClause} {left right : List Tuple}
    (hl : ¬(left ++ right).length ≤ 1) (hh : (left ++ right).length / 2 = left.length) :
    mergeSortOrderedRows D ord (left ++ right) = (do
      let left ← mergeSortOrderedRows D ord left
      let right ← mergeSortOrderedRows D ord right
      mergeOrderedRowVectors D ord left right) := by
  rw [mergeSortOrderedRows, if_neg hl]
  simp only [hh, take_left, drop_left]

/-- Three rows of which none is after the next stay where they are. -/
theorem mergeSortOrderedRows_three {a b c : Tuple} (ha : InRange ord a) (hb : InRange ord b)
    (hc : InRange ord c) (hab : rowCompare D ord a b ≤ 0) (hbc : rowCompare D ord b c ≤ 0) :
    mergeSortOrderedRows D ord [a, b, c] = pure [a, b, c] := by
  have hone : ∀ row, mergeSortOrderedRows D ord [row] = pure [row] := by
    intro row
    rw [mergeSortOrderedRows, if_pos (by simp)]
  have htwo : mergeSortOrderedRows D ord ([b] ++ [c]) = pure [b, c] := by
    rw [mergeSortOrderedRows_append (by simp) (by simp), hone, hone, pure_bind, pure_bind,
      mergeOrderedRowVectors, orderedRowCompare_eq hb hc, pure_bind, if_pos hbc,
      mergeOrderedRowVectors]
    rfl
  have ht := @mergeSortOrderedRows_append D ord [a] [b, c] (by simp) (by simp)
  rw [hone, pure_bind, show [b, c] = [b] ++ [c] from rfl, htwo, pure_bind, mergeOrderedRowVectors,
    orderedRowCompare_eq ha hb, pure_bind, if_pos hab, mergeOrderedRowVectors] at ht
  exact ht

/-- Rows of atoms that are apart come out the same in whatever order they went in. -/
theorem orderedPlanRows_perm (hD : D.Exact) (hatoms : NumbersApart atoms)
    {plan : QueryPlan} {rows others : List Tuple} (hrows : ∀ row ∈ rows, RowOver atoms plan.order row)
    (hperm : others.Perm rows) : orderedPlanRows D plan others = orderedPlanRows D plan rows := by
  unfold orderedPlanRows
  by_cases hemp : plan.order.isEmpty
  · rw [if_pos hemp, if_pos hemp, orderRowVector_perm hD.str_injective hperm]
  · have hflips := rowCompare_flips hD plan.order
    have hfol := rowCompare_follows hD hatoms plan.order
    have hos : ∀ row ∈ others, RowOver atoms plan.order row :=
      fun row hmem => hrows row (hperm.mem_iff.mp hmem)
    obtain ⟨sorted, hsort, hsrtPerm, hsrt⟩ :=
      mergeSortOrderedRows_spec hflips rows fun row hmem => (hrows row hmem).inRange
    obtain ⟨sorted', hsort', hsrtPerm', hsrt'⟩ :=
      mergeSortOrderedRows_spec hflips others fun row hmem => (hos row hmem).inRange
    have hsame : sorted' = sorted :=
      (hsrt' hfol hos).eq_of_perm hflips (fun _ _ => eq_of_rowCompare hD)
        (hsrt hfol hrows) ((hsrtPerm'.trans hperm).trans hsrtPerm.symm)
    rw [if_neg hemp, if_neg hemp, hsort, hsort', hsame]

/-! ### Going round in a circle -/

/-- One number is less than another, and a third one ties with both. -/
structure TiedBetween (p q x : AtomValue) : Prop where
  less : numberLess p q = true
  number : termRank (.atom x) = 1
  left : numberCompare x p = 0
  right : numberCompare q x = 0

theorem numberCompare_eq_zero (hpq : numberLess p q = false) (hqp : numberLess q p = false) :
    numberCompare p q = 0 := by
  simp [numberCompare, hpq, hqp]

/-- Where numbers are not apart, one of them ties with two of which one is less. -/
theorem exists_tiedBetween (h : ¬NumbersApart ats) :
    ∃ p q x, p ∈ ats ∧ q ∈ ats ∧ x ∈ ats ∧ TiedBetween p q x := by
  by_cases hnan : ∀ x, .float x ∈ ats → x.isNan = true →
      ∀ p q, p ∈ ats → q ∈ ats → numberLess p q = false
  · have hro : ∃ a b x, AtomValue.int a ∈ ats ∧ AtomValue.int b ∈ ats ∧
        AtomValue.float x ∈ ats ∧ x.isNan = false ∧ longPlace a = Binary64.place x.bits ∧
        longPlace b = Binary64.place x.bits ∧ a ≠ b := by
      by_contra hcon
      refine h ⟨fun a b x ha hb hx hre hs hs' => ?_, hnan⟩
      by_contra hne
      exact hcon ⟨a, b, x, ha, hb, hx, hre, hs, hs', hne⟩
    obtain ⟨a, b, x, ha, hb, hx, hre, hs, hs', hne⟩ := hro
    have ht : ∀ c : Int64, longPlace c = Binary64.place x.bits →
        numberCompare (.float x) (.int c) = 0 ∧ numberCompare (.int c) (.float x) = 0 := by
      intro c hc
      have hl : numberLess (.int c) (.float x) = false := by
        rw [← Bool.not_eq_true]
        simp only [numberLess, doubleLt_long_left hre]
        omega
      have hr : numberLess (.float x) (.int c) = false := by
        rw [← Bool.not_eq_true]
        simp only [numberLess, doubleLt_long_right hre]
        omega
      exact ⟨numberCompare_eq_zero hr hl, numberCompare_eq_zero hl hr⟩
    rcases Int.lt_or_gt_of_ne fun heq => hne (Int64.toInt_inj.mp heq) with hlt | hgt
    · exact ⟨.int a, .int b, .float x, ha, hb, hx, numberLess_int.mpr hlt, rfl, (ht a hs).1,
        (ht b hs').2⟩
    · exact ⟨.int b, .int a, .float x, hb, ha, hx, numberLess_int.mpr hgt, rfl, (ht b hs').1,
        (ht a hs).2⟩
  · push Not at hnan
    obtain ⟨x, hx, hin, p, q, hp, hq, hle⟩ := hnan
    have ht : ∀ r : AtomValue, numberCompare (.float x) r = 0 ∧ numberCompare r (.float x) = 0 := by
      intro r
      have hl : numberLess r (.float x) = false := by
        cases r <;> simp [numberLess, doubleLt, hin]
      have hr : numberLess (.float x) r = false := by
        cases r <;> simp [numberLess, doubleLt, hin]
      exact ⟨numberCompare_eq_zero hr hl, numberCompare_eq_zero hl hr⟩
    exact ⟨p, q, .float x, hp, hq, hx, Bool.not_eq_false _ |>.mp hle, rfl, (ht p).1, (ht q).2⟩

theorem termRank_of_numberLess (h : numberLess p q = true) :
    termRank (.atom p) = 1 ∧ termRank (.atom q) = 1 := by
  cases p <;> cases q <;> simp_all [numberLess, termRank]

/-- The first three columns, each from the least value on. -/
def threeColumns : List OrderClause := [⟨0, ⟨"asc"⟩⟩, ⟨1, ⟨"asc"⟩⟩, ⟨2, ⟨"asc"⟩⟩]

/-- Find three columns, in order. -/
def threeColumnPlan : QueryPlan := ⟨relationFind "scores", [], threeColumns, none⟩

/-- A row of three atoms. -/
def threeRow (a b c : AtomValue) : Tuple := [.atom a, .atom b, .atom c]

theorem threeRow_inRange {a b : AtomValue} : InRange threeColumns (threeRow a b c) := by
  intro cl hcl
  simp only [threeColumns, mem_cons, not_mem_nil, or_false] at hcl
  rcases hcl with rfl | rfl | rfl <;> simp [threeRow]

theorem rowCompare_three {a b a' b' c' : AtomValue} :
    rowCompare D threeColumns (threeRow a b c) (threeRow a' b' c') =
      if termCompare D (.atom a) (.atom a') = 0 then
        if termCompare D (.atom b) (.atom b') = 0 then
          if termCompare D (.atom c) (.atom c') = 0 then
            textCompare (rowKey D.str (threeRow a b c)) (rowKey D.str (threeRow a' b' c'))
          else termCompare D (.atom c) (.atom c')
        else termCompare D (.atom b) (.atom b')
      else termCompare D (.atom a) (.atom a') := by
  simp [rowCompare, threeColumns, before, clauseCompare, columnOf, threeRow]

/-- **Three rows around a tie are each less than the next.** -/
theorem TiedBetween.circle (hD : D.Exact) (h : TiedBetween p q x) :
    rowCompare D threeColumns (threeRow p q q) (threeRow q p p) < 0 ∧
      rowCompare D threeColumns (threeRow q p p) (threeRow x q p) < 0 ∧
      rowCompare D threeColumns (threeRow x q p) (threeRow p q q) < 0 := by
  obtain ⟨hp, hq⟩ := termRank_of_numberLess h.less
  have hle : termCompare D (.atom p) (.atom q) = -1 := by
    rw [termCompare_number hD hp hq]
    simp [numberCompare, h.less]
  have hl : termCompare D (.atom x) (.atom p) = 0 := by
    rw [termCompare_number hD h.number hp, h.left]
  have hr : termCompare D (.atom q) (.atom x) = 0 := by
    rw [termCompare_number hD hq h.number, h.right]
  have hs : termCompare D (.atom q) (.atom q) = 0 := (termCompare_flips hD).self _
  rw [rowCompare_three, rowCompare_three, rowCompare_three, hl, hr, hle, hs]
  simp

theorem TiedBetween.nodup (hD : D.Exact) (h : TiedBetween p q x) :
    [threeRow p q q, threeRow q p p, threeRow x q p].Nodup := by
  obtain ⟨hpq, hqx, hxp⟩ := h.circle hD
  have hne : ∀ {left right : Tuple}, rowCompare D threeColumns left right < 0 → left ≠ right := by
    rintro left _ hlt rfl
    rw [(rowCompare_flips hD threeColumns).self] at hlt
    exact absurd hlt (lt_irrefl 0)
  simp [hne hpq, hne hqx, (hne hxp).symm]

/-- The rows around a tie, and the same rows from the second one on. -/
theorem TiedBetween.differ (hD : D.Exact) (h : TiedBetween p q x) :
    orderedPlanRows D threeColumnPlan [threeRow q p p, threeRow x q p, threeRow p q q] ≠
      orderedPlanRows D threeColumnPlan [threeRow p q q, threeRow q p p, threeRow x q p] := by
  obtain ⟨hpq, hqx, hxp⟩ := h.circle hD
  have hsrt := mergeSortOrderedRows_three threeRow_inRange threeRow_inRange threeRow_inRange
    hpq.le hqx.le
  have hsrt' := mergeSortOrderedRows_three threeRow_inRange threeRow_inRange threeRow_inRange
    hqx.le hxp.le
  have hrun : ∀ rows, mergeSortOrderedRows D threeColumns rows = pure rows →
      orderedPlanRows D threeColumnPlan rows = pure rows := by
    intro rows hrows
    unfold orderedPlanRows
    rw [if_neg (by decide)]
    show (mergeSortOrderedRows D threeColumns rows >>= _) = _
    rw [hrows, pure_bind]
    rfl
  rw [hrun _ hsrt, hrun _ hsrt']
  intro heq
  have hne := h.nodup hD
  have hrows := (Prod.mk.inj (Except.ok.inj (congrFun heq 0))).1
  have hfst : threeRow q p p = threeRow p q q := (List.cons.inj hrows).1
  rw [hfst] at hne
  simp at hne

theorem threeRow_over {a b : AtomValue} (ha : a ∈ ats) (hb : b ∈ ats)
    (hc : c ∈ ats) : RowOver ats threeColumns (threeRow a b c) := by
  refine ⟨fun t ht => ?_, threeRow_inRange⟩
  simp only [threeRow, mem_cons, not_mem_nil, or_false] at ht
  rcases ht with rfl | rfl | rfl <;> rwa [ofAtoms_atom]

/-- **Ordered results do not depend on the order of their rows just where numbers are apart as
they are compared**, with any clauses and any limit. -/
theorem ordered_results_iff_numbersApart (hD : D.Exact) (atoms : Set AtomValue) :
    (∀ (plan : QueryPlan) (rows others : List Tuple), rows.Nodup →
      (∀ row ∈ rows, RowOver atoms plan.order row) → others.Perm rows →
        orderedPlanRows D plan others = orderedPlanRows D plan rows) ↔ NumbersApart atoms := by
  constructor
  · intro h
    by_contra hnot
    obtain ⟨p, q, x, hp, hq, hx, htied⟩ := exists_tiedBetween hnot
    refine htied.differ hD (h threeColumnPlan _ _ (htied.nodup hD) ?_ ?_)
    · intro row hrow
      simp only [mem_cons, not_mem_nil, or_false] at hrow
      rcases hrow with rfl | rfl | rfl
      · exact threeRow_over hp hq hq
      · exact threeRow_over hq hp hp
      · exact threeRow_over hx hq hp
    · exact (perm_append_comm : ([_, _] ++ [_] : List Tuple).Perm ([_] ++ [_, _]))
  · intro hatoms plan rows others _ hrows hperm
    exact orderedPlanRows_perm hD hatoms hrows hperm

end

/-! ### Rounded scores -/

/-- A host that compares doubles as they are. -/
def comparingDoubles : Doubles :=
  { bareDoubles with lt := doubleLt, ofLong := doubleOfLong }

theorem comparingDoubles_exact : comparingDoubles.Exact :=
  ⟨bareDoubles_lawful.str_injective, rfl, rfl⟩

/-- The least Int behind which doubles leave Ints out. -/
def wideScore : Int64 := 9007199254740992

/-- An Int that is not a double. -/
def oddScore : Int64 := 9007199254740993

/-- The double that both Ints are rounded to. -/
def roundScore : Float64 := doubleOfLong 9007199254740992

/-- A Float that is what one Int alone is rounded to. -/
def evenScores : Set AtomValue := {.int wideScore, .int (wideScore + 2), .float roundScore}

theorem evenScores_apart : NumbersApart evenScores := by
  refine ⟨?_, ?_⟩
  · intro a b x ha hb hx _ hs hs'
    simp only [evenScores, Set.mem_insert_iff, Set.mem_singleton_iff, AtomValue.int.injEq,
      AtomValue.float.injEq, reduceCtorEq, or_false, false_or] at ha hb hx
    have hp : longPlace wideScore ≠ longPlace (wideScore + 2) := by decide
    subst hx
    rcases ha with rfl | rfl <;> rcases hb with rfl | rfl
    · rfl
    · exact absurd (hs.trans hs'.symm) hp
    · exact absurd (hs'.trans hs.symm) hp
    · rfl
  · intro x hx hnan
    simp only [evenScores, Set.mem_insert_iff, Set.mem_singleton_iff, AtomValue.float.injEq,
      reduceCtorEq, false_or] at hx
    rw [hx, roundScore, (doubleOfLong_bits _).2] at hnan
    exact absurd hnan Bool.false_ne_true

theorem ordered_results_even_scores : NumbersApart evenScores ∧
      ∀ (plan : QueryPlan) (rows others : List Tuple), rows.Nodup →
        (∀ row ∈ rows, RowOver evenScores plan.order row) → others.Perm rows →
          orderedPlanRows comparingDoubles plan others =
            orderedPlanRows comparingDoubles plan rows :=
  ⟨evenScores_apart,
    (ordered_results_iff_numbersApart comparingDoubles_exact evenScores).mpr evenScores_apart⟩

/-- **The same rows in another order give another vector**, where a Float is what two Ints are
rounded to. -/
theorem ordered_results_rounded_scores : [threeRow (.int wideScore) (.int oddScore) (.int oddScore),
        threeRow (.int oddScore) (.int wideScore) (.int wideScore),
        threeRow (.float roundScore) (.int oddScore) (.int wideScore)].Nodup ∧
      Perm [threeRow (.int oddScore) (.int wideScore) (.int wideScore),
          threeRow (.float roundScore) (.int oddScore) (.int wideScore),
          threeRow (.int wideScore) (.int oddScore) (.int oddScore)]
        [threeRow (.int wideScore) (.int oddScore) (.int oddScore),
          threeRow (.int oddScore) (.int wideScore) (.int wideScore),
          threeRow (.float roundScore) (.int oddScore) (.int wideScore)] ∧
      orderedPlanRows comparingDoubles threeColumnPlan
          [threeRow (.int oddScore) (.int wideScore) (.int wideScore),
            threeRow (.float roundScore) (.int oddScore) (.int wideScore),
            threeRow (.int wideScore) (.int oddScore) (.int oddScore)] ≠
        orderedPlanRows comparingDoubles threeColumnPlan
          [threeRow (.int wideScore) (.int oddScore) (.int oddScore),
            threeRow (.int oddScore) (.int wideScore) (.int wideScore),
            threeRow (.float roundScore) (.int oddScore) (.int wideScore)] := by
  have htied : TiedBetween (.int wideScore) (.int oddScore) (.float roundScore) :=
    ⟨by decide, rfl, by decide, by decide⟩
  refine ⟨htied.nodup comparingDoubles_exact, ?_, htied.differ comparingDoubles_exact⟩
  exact (perm_append_comm : ([_, _] ++ [_] : List Tuple).Perm ([_] ++ [_, _]))

end Beagle.Query
