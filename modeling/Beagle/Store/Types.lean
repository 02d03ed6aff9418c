/-
Terms, rows and records of the store.

A Term is an atom or a triple of Terms.  The store keeps Terms as rows, one row an
atom and one row a triple of handles, and the transaction history as two more row
lists; a dump is those four lists with the SpaceId and the next sequence.

Two things about atoms need care.  An instant keeps its nanoseconds canonical, so
it carries the bound.  And equality is the language's `=`, which compares floats
as numbers: a NaN is not equal to itself and the two zeros are equal.  `same`
below is that equality, for atoms, rows and Terms alike; Lean's own equality is
finer and is used only where it makes no difference.

The language's `=` is symmetric and transitive, and reflexive away from NaN.

These are the laws an equality test must have before it can key a row index.
Transitivity of the comparison of doubles is the only one with content: the two
zeros are the only distinct bits that compare equal.
-/
import Mathlib

namespace Beagle.Store

/-! ### Atoms -/

/-- Canonical epoch seconds plus nanoseconds. -/
structure Instant where
  epochSeconds : Int64
  nanos : Nat
  canonical : nanos < 1000000000
deriving DecidableEq, Repr

structure Keyword where
  spelling : String
deriving DecidableEq, Repr

/-- The bits of a double that is not a number. -/
def nanBits (bits : BitVec 64) : Bool :=
  (bits &&& 0x7ff0000000000000#64) == 0x7ff0000000000000#64 &&
    (bits &&& 0x000fffffffffffff#64) != 0#64

/-- The one payload a NaN is given whenever its bits are taken. -/
def canonicalNan : BitVec 64 := 0x7ff8000000000000#64

/-- A double, as its bits; every NaN is the canonical one. -/
structure Float64 where
  bits : BitVec 64
  canonical : nanBits bits = true → bits = canonicalNan
deriving DecidableEq, Repr

namespace Float64

def isNan (f : Float64) : Bool := nanBits f.bits

def isZero (f : Float64) : Bool := (f.bits &&& 0x7fffffffffffffff#64) == 0#64

/-- `float-from-bits`. -/
def ofBits (bits : BitVec 64) : Float64 :=
  if h : nanBits bits = true then ⟨canonicalNan, fun _ => rfl⟩
  else ⟨bits, fun hn => absurd hn h⟩

/-- `float-to-bits`. -/
def toBits (f : Float64) : BitVec 64 := f.bits

def nan : Float64 := ofBits canonicalNan

/-- Equality of doubles as numbers. -/
def same (a b : Float64) : Bool :=
  !a.isNan && !b.isNan && (a.bits == b.bits || (a.isZero && b.isZero))

end Float64

/-- The closed grounding vocabulary. -/
inductive AtomValue where
  | string (value : String)
  | int (value : Int64)
  | float (value : Float64)
  | bool (value : Bool)
  | keyword (value : Keyword)
  | instant (value : Instant)
deriving DecidableEq, Repr

/-- A recursive Term. -/
inductive Term where
  | atom (value : AtomValue)
  | triple (t1 t2 t3 : Term)
deriving DecidableEq, Repr

structure Triple where
  t1 : Term
  t2 : Term
  t3 : Term
deriving DecidableEq, Repr

/-- A Triple is a Term. -/
def Triple.term (t : Triple) : Term := .triple t.t1 t.t2 t.t3

instance : Coe Triple Term := ⟨Triple.term⟩

/-- `term-as-triple`. -/
def termAsTriple : Term → Option Triple
  | .atom _ => none
  | .triple t1 t2 t3 => some ⟨t1, t2, t3⟩

def AtomValue.same : AtomValue → AtomValue → Bool
  | .float a, .float b => a.same b
  | a, b => a == b

def Term.same : Term → Term → Bool
  | .atom a, .atom b => a.same b
  | .triple a1 a2 a3, .triple b1 b2 b3 => a1.same b1 && a2.same b2 && a3.same b3
  | _, _ => false

/-- Does a NaN occur in the atom? -/
def AtomValue.hasNan : AtomValue → Bool
  | .float f => f.isNan
  | _ => false

/-- Does a NaN occur in the Term? -/
def Term.hasNan : Term → Bool
  | .atom a => a.hasNan
  | .triple t1 t2 t3 => t1.hasNan || t2.hasNan || t3.hasNan

/-- The Term and the Terms inside it. -/
def Term.parts : Term → List Term
  | .atom value => [.atom value]
  | .triple t1 t2 t3 => .triple t1 t2 t3 :: (t1.parts ++ t2.parts ++ t3.parts)

/-! ### Rows -/

inductive AtomKind where
  | string | int | float | bool | keyword | instant
  | other (kind : Keyword)
deriving DecidableEq, Repr

structure AtomRow where
  kind : AtomKind
  stringValue : Option String
  intValue : Option Int64
  floatValue : Option Float64
  boolValue : Option Bool
  keywordValue : Option Keyword
  instantValue : Option Instant
deriving DecidableEq, Repr

/-- Equality of optional doubles: both absent, or both present and equal as numbers. -/
def sameFloat? : Option Float64 → Option Float64 → Bool
  | none, none => true
  | some a, some b => a.same b
  | _, _ => false

/-- Equality of atom rows, field by field. -/
def AtomRow.same (a b : AtomRow) : Bool :=
  a.kind == b.kind && a.stringValue == b.stringValue && a.intValue == b.intValue &&
    sameFloat? a.floatValue b.floatValue && a.boolValue == b.boolValue &&
    a.keywordValue == b.keywordValue && a.instantValue == b.instantValue

structure TripleRow where
  t1 : Int
  t2 : Int
  t3 : Int
deriving DecidableEq, Repr

inductive Action where
  | assert
  | retract
  | other (action : Keyword)
deriving DecidableEq, Repr

structure TransactionRow where
  sequence : Int
  firstOperation : Int
  operationCount : Int
deriving DecidableEq, Repr

structure OperationRow where
  txSequence : Int
  ordinal : Int
  action : Action
  tripleHandle : Int
deriving DecidableEq, Repr

structure ActiveBucket where
  tripleHandle : Int
  positions : List Nat
deriving DecidableEq, Repr

/-! ### Commits and dumps -/

structure CommitOperation where
  action : Action
  proposition : Triple
deriving DecidableEq, Repr

structure TransactionRecord where
  sequence : Int64
  operations : List CommitOperation
deriving DecidableEq, Repr

structure TermStoreDump where
  version : Int
  spaceId : String
  nextSequence : Int
  atoms : List AtomRow
  triples : List TripleRow
  transactions : List TransactionRow
  operations : List OperationRow
deriving DecidableEq, Repr

/-! ### Coordinates and occurrences -/

def txSequence : Keyword := ⟨"kernel/tx-sequence"⟩
def opOrdinal : Keyword := ⟨"kernel/op-ordinal"⟩

/-- `(triple space-id tx-sequence sequence)`. -/
def transactionCoordinate (spaceId : String) (sequence : Int) : Triple :=
  ⟨.atom (.string spaceId), .atom (.keyword txSequence), .atom (.int (.ofInt sequence))⟩

/-- `(triple tx op-ordinal ordinal)`. -/
def occurrenceCoordinate (tx : Triple) (ordinal : Int) : Triple :=
  ⟨tx, .atom (.keyword opOrdinal), .atom (.int (.ofInt ordinal))⟩

/-- One assertion or retraction of a proposition, at its exact place in the history. -/
structure OperationOccurrence where
  coordinate : Triple
  action : Action
  proposition : Triple
deriving DecidableEq, Repr

namespace Float64

variable {a b : Float64}

theorem same_iff : a.same b = true ↔
      a.isNan = false ∧ b.isNan = false ∧ (a.bits = b.bits ∨ (a.isZero = true ∧ b.isZero = true)) := by
  simp [same, and_assoc]

theorem same_symm (h : a.same b = true) : b.same a = true := by
  obtain ⟨ha, hb, hab⟩ := same_iff.mp h
  refine same_iff.mpr ⟨hb, ha, ?_⟩
  rcases hab with heq | ⟨hza, hzb⟩
  · exact Or.inl heq.symm
  · exact Or.inr ⟨hzb, hza⟩

theorem same_trans {c : Float64} (hab : a.same b = true) (hbc : b.same c = true) :
    a.same c = true := by
  obtain ⟨ha, -, h1⟩ := same_iff.mp hab
  obtain ⟨-, hc, h2⟩ := same_iff.mp hbc
  refine same_iff.mpr ⟨ha, hc, ?_⟩
  rcases h1 with h1 | ⟨hza, hzb⟩
  · rcases h2 with h2 | ⟨hzb, hzc⟩
    · exact Or.inl (h1.trans h2)
    · refine Or.inr ⟨?_, hzc⟩
      unfold isZero at hzb ⊢
      rw [h1]
      exact hzb
  · rcases h2 with h2 | ⟨-, hzc⟩
    · refine Or.inr ⟨hza, ?_⟩
      unfold isZero at hzb ⊢
      rw [← h2]
      exact hzb
    · exact Or.inr ⟨hza, hzc⟩

theorem same_self : a.same a = !a.isNan := by
  cases h : a.isNan <;> simp [same, h]

end Float64

/-! ### Atoms -/

theorem AtomValue.same_symm {a b : AtomValue} (h : a.same b = true) : b.same a = true := by
  cases a <;> cases b <;> simp_all [AtomValue.same]
  exact Float64.same_symm h

theorem AtomValue.same_trans {a b c : AtomValue} (hab : a.same b = true)
    (hbc : b.same c = true) : a.same c = true := by
  cases a <;> cases b <;> cases c <;> simp_all [AtomValue.same]
  exact Float64.same_trans hab hbc

theorem AtomValue.same_self (a : AtomValue) : a.same a = !a.hasNan := by
  cases a <;> simp [AtomValue.same, AtomValue.hasNan, Float64.same_self]

/-! ### Terms -/

variable {a b : Term}

theorem Term.same_symm (h : a.same b = true) : b.same a = true := by
  induction a generalizing b with
  | atom a =>
    cases b with
    | atom b => exact AtomValue.same_symm h
    | triple => simp [Term.same] at h
  | triple a1 a2 a3 ih1 ih2 ih3 =>
    cases b with
    | atom => simp [Term.same] at h
    | triple b1 b2 b3 =>
      simp only [Term.same, Bool.and_eq_true] at h ⊢
      exact ⟨⟨ih1 h.1.1, ih2 h.1.2⟩, ih3 h.2⟩

theorem Term.same_trans {c : Term} (hab : a.same b = true) (hbc : b.same c = true) :
    a.same c = true := by
  induction a generalizing b c with
  | atom a =>
    cases b with
    | triple => simp [Term.same] at hab
    | atom b =>
      cases c with
      | triple => simp [Term.same] at hbc
      | atom c => exact AtomValue.same_trans hab hbc
  | triple a1 a2 a3 ih1 ih2 ih3 =>
    cases b with
    | atom => simp [Term.same] at hab
    | triple b1 b2 b3 =>
      cases c with
      | atom => simp [Term.same] at hbc
      | triple c1 c2 c3 =>
        simp only [Term.same, Bool.and_eq_true] at hab hbc ⊢
        exact ⟨⟨ih1 hab.1.1 hbc.1.1, ih2 hab.1.2 hbc.1.2⟩, ih3 hab.2 hbc.2⟩

/-- A Term equals itself exactly when no NaN occurs in it. -/
theorem Term.same_self (a : Term) : a.same a = !a.hasNan := by
  induction a with
  | atom a => exact AtomValue.same_self a
  | triple a1 a2 a3 ih1 ih2 ih3 => simp [Term.same, Term.hasNan, ih1, ih2, ih3]

theorem Term.same_of_hasNan (ha : a.hasNan = true) : a.same b = false := by
  cases h : a.same b with
  | false => rfl
  | true =>
    have := Term.same_trans h (Term.same_symm h)
    rw [Term.same_self, ha] at this
    simp at this

/-! ### Terms that agree -/

/-- Identical or equal, atom by atom: the two zeros agree, and a NaN agrees with itself. -/
def Term.agrees : Term → Term → Prop
  | .atom a, .atom b => a = b ∨ a.same b = true
  | .triple a1 a2 a3, .triple b1 b2 b3 => a1.agrees b1 ∧ a2.agrees b2 ∧ a3.agrees b3
  | _, _ => False

theorem Term.agrees_refl (a : Term) : a.agrees a := by
  induction a with
  | atom a => exact Or.inl rfl
  | triple a1 a2 a3 ih1 ih2 ih3 => exact ⟨ih1, ih2, ih3⟩

theorem Term.agrees_symm (h : a.agrees b) : b.agrees a := by
  induction a generalizing b with
  | atom a =>
    cases b with
    | triple => exact absurd h id
    | atom b => exact h.imp Eq.symm AtomValue.same_symm
  | triple a1 a2 a3 ih1 ih2 ih3 =>
    cases b with
    | atom => exact absurd h id
    | triple b1 b2 b3 => exact ⟨ih1 h.1, ih2 h.2.1, ih3 h.2.2⟩

theorem AtomValue.same_congr {a b : AtomValue} (h : a = b ∨ a.same b = true) (c : AtomValue) :
    a.same c = b.same c := by
  rcases h with rfl | h
  · rfl
  · rw [Bool.eq_iff_iff]
    exact ⟨AtomValue.same_trans (AtomValue.same_symm h), AtomValue.same_trans h⟩

/-- Equality does not tell Terms that agree apart. -/
theorem Term.same_of_agrees (h : a.agrees b) (c : Term) : a.same c = b.same c := by
  induction a generalizing b c with
  | atom a =>
    cases b with
    | triple => exact absurd h id
    | atom b =>
      cases c with
      | triple => rfl
      | atom c => exact AtomValue.same_congr h c
  | triple a1 a2 a3 ih1 ih2 ih3 =>
    cases b with
    | atom => exact absurd h id
    | triple b1 b2 b3 =>
      cases c with
      | atom => rfl
      | triple c1 c2 c3 =>
        simp only [Term.same]
        rw [ih1 h.1, ih2 h.2.1, ih3 h.2.2]

theorem Term.same_comm (a b : Term) : a.same b = b.same a := by
  rw [Bool.eq_iff_iff]
  exact ⟨Term.same_symm, Term.same_symm⟩

theorem Term.hasNan_of_agrees (h : a.agrees b) : a.hasNan = b.hasNan := by
  have hs : a.same a = b.same b := by
    rw [Term.same_of_agrees h a, Term.same_comm, Term.same_of_agrees h b]
  rw [Term.same_self, Term.same_self] at hs
  exact Bool.not_inj hs

theorem Term.same_of_agrees_clean (h : a.agrees b) (hn : b.hasNan = false) : a.same b = true := by
  rw [Term.same_of_agrees h, Term.same_self, hn]
  rfl

/-! ### Atom rows -/

theorem sameFloat?_symm {a b : Option Float64} (h : sameFloat? a b = true) :
    sameFloat? b a = true := by
  cases a <;> cases b <;> simp_all [sameFloat?]
  exact Float64.same_symm h

theorem sameFloat?_trans {a b c : Option Float64} (hab : sameFloat? a b = true)
    (hbc : sameFloat? b c = true) : sameFloat? a c = true := by
  cases a <;> cases b <;> cases c <;> simp_all [sameFloat?]
  exact Float64.same_trans hab hbc

theorem AtomRow.same_iff {a b : AtomRow} : a.same b = true ↔
      a.kind = b.kind ∧ a.stringValue = b.stringValue ∧ a.intValue = b.intValue ∧
        sameFloat? a.floatValue b.floatValue = true ∧ a.boolValue = b.boolValue ∧
        a.keywordValue = b.keywordValue ∧ a.instantValue = b.instantValue := by
  simp [AtomRow.same, and_assoc]

theorem AtomRow.same_symm {a b : AtomRow} (h : a.same b = true) : b.same a = true := by
  obtain ⟨h1, h2, h3, h4, h5, h6, h7⟩ := AtomRow.same_iff.mp h
  exact AtomRow.same_iff.mpr
    ⟨h1.symm, h2.symm, h3.symm, sameFloat?_symm h4, h5.symm, h6.symm, h7.symm⟩

theorem AtomRow.same_trans {a b c : AtomRow} (hab : a.same b = true) (hbc : b.same c = true) :
    a.same c = true := by
  obtain ⟨h1, h2, h3, h4, h5, h6, h7⟩ := AtomRow.same_iff.mp hab
  obtain ⟨k1, k2, k3, k4, k5, k6, k7⟩ := AtomRow.same_iff.mp hbc
  exact AtomRow.same_iff.mpr ⟨h1.trans k1, h2.trans k2, h3.trans k3, sameFloat?_trans h4 k4,
    h5.trans k5, h6.trans k6, h7.trans k7⟩

end Beagle.Store
