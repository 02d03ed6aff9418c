/-
The type terms that the checker compares.

Primitives, functions with an optional rest parameter, applications, unions, and the
metavariables of inference.  What a name means is kept apart, in tables: which names
are the members of a union, which are enumerations, which are members of a parametric
union, and the bare name behind a qualified one.

When one type is accepted where another is expected.

`typeCompatible` is a cascade of cases, and it recurs on parts of the two types, or on
the name of a member in place of its view.  One round of the cascade is `compatRound`,
with the recursive calls as a parameter; the size of the two types bounds how often it
is entered, so the relation is total and satisfies the cascade as an equation.
-/
import Mathlib

namespace Beagle.Types

inductive Ty where
  | prim (name : String)
  | fn (params : List Ty) (rest : Option Ty) (ret : Ty)
  | app (ctor : String) (args : List Ty)
  | union (alts : List Ty)
  | metavar (id : Nat)

/-- What the checker knows of names while it compares types. -/
structure Tables where
  /-- `current-union-members`. -/
  unionMembers : String → Option (List String)
  /-- `current-enum-types`. -/
  enumTypes : String → Bool
  /-- `current-parametric-members`. -/
  parametricMembers : String → Bool
  /-- `QUALIFIED-TYPE-NAME-LEAVES`. -/
  qualifiedLeaves : String → Option String

/-! ### Equality -/

mutual

/-- `equal?` of two types. -/
def Ty.equal : Ty → Ty → Bool
  | .prim a, .prim b => a == b
  | .fn ps r t, .fn ps' r' t' => Ty.equalList ps ps' && Ty.equalOption r r' && Ty.equal t t'
  | .app c as, .app d bs => c == d && Ty.equalList as bs
  | .union as, .union bs => Ty.equalList as bs
  | .metavar m, .metavar n => m == n
  | _, _ => false

def Ty.equalList : List Ty → List Ty → Bool
  | [], [] => true
  | a :: as, b :: bs => Ty.equal a b && Ty.equalList as bs
  | _, _ => false

def Ty.equalOption : Option Ty → Option Ty → Bool
  | none, none => true
  | some a, some b => Ty.equal a b
  | _, _ => false

end

mutual

theorem Ty.eq_of_equal : ∀ {a b : Ty}, Ty.equal a b = true → a = b
  | .prim a, .prim b, h => by
    rw [Ty.equal, beq_iff_eq] at h
    rw [h]
  | .fn ps r t, .fn ps' r' t', h => by
    rw [Ty.equal, Bool.and_eq_true, Bool.and_eq_true] at h
    rw [Ty.eq_of_equalList h.1.1, Ty.eq_of_equalOption h.1.2, Ty.eq_of_equal h.2]
  | .app c as, .app d bs, h => by
    rw [Ty.equal, Bool.and_eq_true, beq_iff_eq] at h
    rw [h.1, Ty.eq_of_equalList h.2]
  | .union as, .union bs, h => by
    rw [Ty.equal] at h
    rw [Ty.eq_of_equalList h]
  | .metavar m, .metavar n, h => by
    rw [Ty.equal, beq_iff_eq] at h
    rw [h]

theorem Ty.eq_of_equalList : ∀ {as bs : List Ty}, Ty.equalList as bs = true → as = bs
  | [], [], _ => rfl
  | a :: as, b :: bs, h => by
    rw [Ty.equalList, Bool.and_eq_true] at h
    rw [Ty.eq_of_equal h.1, Ty.eq_of_equalList h.2]

theorem Ty.eq_of_equalOption : ∀ {a b : Option Ty}, Ty.equalOption a b = true → a = b
  | none, none, _ => rfl
  | some a, some b, h => by
    rw [Ty.equalOption] at h
    rw [Ty.eq_of_equal h]

end

mutual

theorem Ty.equal_self : ∀ a : Ty, Ty.equal a a = true
  | .prim a => by rw [Ty.equal, beq_self_eq_true]
  | .fn ps r t => by
    rw [Ty.equal, Ty.equalList_self ps, Ty.equalOption_self r, Ty.equal_self t]
    rfl
  | .app c as => by
    rw [Ty.equal, beq_self_eq_true, Ty.equalList_self as]
    rfl
  | .union as => by rw [Ty.equal, Ty.equalList_self as]
  | .metavar m => by rw [Ty.equal, beq_self_eq_true]

theorem Ty.equalList_self : ∀ as : List Ty, Ty.equalList as as = true
  | [] => by rw [Ty.equalList]
  | a :: as => by
    rw [Ty.equalList, Ty.equal_self a, Ty.equalList_self as]
    rfl

theorem Ty.equalOption_self : ∀ a : Option Ty, Ty.equalOption a a = true
  | none => by rw [Ty.equalOption]
  | some a => by rw [Ty.equalOption, Ty.equal_self a]

end

variable {a : Ty}

theorem Ty.equal_iff {b : Ty} : Ty.equal a b = true ↔ a = b :=
  ⟨Ty.eq_of_equal, fun h => h ▸ Ty.equal_self a⟩

instance : DecidableEq Ty := fun _ _ => decidable_of_iff _ Ty.equal_iff

/-! ### Size -/

mutual

/-- What a comparison recurs on. -/
def Ty.size : Ty → Nat
  | .prim _ => 1
  | .fn ps r t => 2 + Ty.sizeList ps + Ty.sizeOption r + t.size
  | .app _ args => 2 + Ty.sizeList args
  | .union alts => 2 + Ty.sizeList alts
  | .metavar _ => 1

def Ty.sizeList : List Ty → Nat
  | [] => 0
  | a :: as => a.size + Ty.sizeList as

def Ty.sizeOption : Option Ty → Nat
  | none => 0
  | some a => a.size

end

attribute [local simp] Ty.size Ty.sizeList Ty.sizeOption in
theorem Ty.size_pos (t : Ty) : 0 < t.size := by
  cases t with
  | prim n | fn ps r t | app c args | union alts | metavar id => rw [Ty.size]; omega

variable {as : List Ty}

theorem Ty.size_le_of_mem (h : a ∈ as) : a.size ≤ Ty.sizeList as := by
  induction as with
  | nil => exact absurd h List.not_mem_nil
  | cons b bs ih =>
    rw [Ty.sizeList]
    rcases List.mem_cons.mp h with rfl | hmem
    · omega
    · have := ih hmem
      omega

variable {c : String} {args : List Ty}

theorem Ty.size_lt_app (h : a ∈ args) : a.size < (Ty.app c args).size := by
  have := Ty.size_le_of_mem h
  rw [Ty.size]
  omega

variable {alts ps : List Ty} {r : Option Ty} {t : Ty}

theorem Ty.size_lt_union (h : a ∈ alts) : a.size < (Ty.union alts).size := by
  have := Ty.size_le_of_mem h
  rw [Ty.size]
  omega

theorem Ty.size_lt_param (h : a ∈ ps) : a.size < (Ty.fn ps r t).size := by
  have := Ty.size_le_of_mem h
  rw [Ty.size]
  omega

theorem Ty.size_lt_rest (ps : List Ty) (t a : Ty) : a.size < (Ty.fn ps (some a) t).size := by
  rw [Ty.size, Ty.sizeOption]
  omega

theorem Ty.size_lt_ret (ps : List Ty) (r : Option Ty) (t : Ty) : t.size < (Ty.fn ps r t).size := by
  rw [Ty.size]
  omega

theorem Ty.size_prim_lt_app : (Ty.prim c).size < (Ty.app c args).size := by
  rw [Ty.size, Ty.size]
  omega

/-- Induction over the parts of a type. -/
theorem Ty.parts {P : Ty → Prop} (prim : ∀ name, P (.prim name))
    (fn : ∀ ps r t, (∀ p ∈ ps, P p) → (∀ a ∈ r, P a) → P t → P (.fn ps r t))
    (app : ∀ c args, (∀ a ∈ args, P a) → P (.app c args))
    (union : ∀ alts, (∀ a ∈ alts, P a) → P (.union alts)) (metavar : ∀ id, P (.metavar id))
    (t : Ty) : P t := by
  have hmain : ∀ n, ∀ t : Ty, t.size ≤ n → P t := by
    intro n
    induction n with
    | zero =>
      intro t hn
      have := t.size_pos
      omega
    | succ n ih =>
      intro t hn
      cases t with
      | prim name => exact prim name
      | fn ps r t =>
        refine fn ps r t ?_ ?_ ?_
        · intro p hp
          have := Ty.size_lt_param (r := r) (t := t) hp
          exact ih p (by omega)
        · intro a ha
          rw [Option.mem_def.mp ha] at hn
          have := Ty.size_lt_rest ps t a
          exact ih a (by omega)
        · have := Ty.size_lt_ret ps r t
          exact ih t (by omega)
      | app c args =>
        refine app c args fun a ha => ?_
        have := Ty.size_lt_app (c := c) ha
        exact ih a (by omega)
      | union alts =>
        refine union alts fun a ha => ?_
        have := Ty.size_lt_union ha
        exact ih a (by omega)
      | metavar id => exact metavar id
  exact hmain t.size t (Nat.le_refl _)

/-! ### Plain types -/

mutual

/-- No `Any` and no metavariable anywhere. -/
def Ty.plain : Ty → Bool
  | .prim name => name != "Any"
  | .fn ps r t => Ty.plainList ps && Ty.plainOption r && t.plain
  | .app c args => c != "Any" && Ty.plainList args
  | .union alts => Ty.plainList alts
  | .metavar _ => false

def Ty.plainList : List Ty → Bool
  | [] => true
  | a :: as => a.plain && Ty.plainList as

def Ty.plainOption : Option Ty → Bool
  | none => true
  | some a => a.plain

end

attribute [local simp] Ty.plain Ty.plainList Ty.plainOption in
theorem Ty.plain_prim {p : String} (h : p ≠ "Any") : (Ty.prim p).plain = true := by
  rw [Ty.plain]
  exact bne_iff_ne.mpr h

theorem Ty.plainList_iff : Ty.plainList as = true ↔ ∀ a ∈ as, a.plain = true := by
  induction as with
  | nil => simp [Ty.plainList]
  | cons a as ih => rw [Ty.plainList, Bool.and_eq_true, ih, List.forall_mem_cons]

theorem Ty.plain_app (h : (Ty.app c args).plain = true) :
    c ≠ "Any" ∧ ∀ a ∈ args, a.plain = true := by
  rw [Ty.plain, Bool.and_eq_true, bne_iff_ne, Ty.plainList_iff] at h
  exact h

theorem Ty.plain_union (h : (Ty.union alts).plain = true) : ∀ a ∈ alts, a.plain = true := by
  rw [Ty.plain, Ty.plainList_iff] at h
  exact h

theorem Ty.plain_fn (h : (Ty.fn ps r t).plain = true) :
    (∀ a ∈ ps, a.plain = true) ∧ (∀ a ∈ r, a.plain = true) ∧ t.plain = true := by
  rw [Ty.plain, Bool.and_eq_true, Bool.and_eq_true, Ty.plainList_iff] at h
  refine ⟨h.1.1, ?_, h.2⟩
  intro a ha
  have hr := h.1.2
  rw [Option.mem_def.mp ha, Ty.plainOption] at hr
  exact hr

/-! ### Names -/

/-- `unqualify-type-name`. -/
def Tables.unqualify (T : Tables) (name : String) : String :=
  (T.qualifiedLeaves name).getD name

/-- Is `name` listed as a member of the union `union`? -/
def Tables.isMember (T : Tables) (union name : String) : Bool :=
  match T.unionMembers union with
  | some members => members.contains name
  | none => false

/-- The widths that an `Int` coerces to. -/
def intWidths : List String := ["I8", "I16", "I32", "U8", "U16", "U32", "U64", "F32"]

/-- Two primitives: the enum arm and the arm by canonical name, widening or membership. -/
def Tables.primCompatible (T : Tables) (actual expected : String) : Bool :=
  (actual == "Keyword" && T.enumTypes expected) || (actual == expected ||
      (expected == "Float" && actual == "Int") ||
      (actual == "Int" && intWidths.contains expected) ||
      (actual == "Float" && expected == "F32") ||
      T.unqualify actual == T.unqualify expected ||
      T.isMember expected actual)

/-- `INVARIANT-TYPE-CONSTRUCTORS`. -/
def invariantConstructors : List String := ["Atom", "Buffer", "TransientVec", "JsMap"]

/-! ### Invariant positions -/

mutual

/-- `type-invariant-equal?`. -/
def typeInvariantEqual (T : Tables) : Ty → Ty → Bool
  | .prim a, .prim b => T.unqualify a == T.unqualify b
  | .app c as, .app d bs => c == d && allInvariantEqual T as bs
  | .union as, .union bs => allInvariantEqual T as bs
  | .metavar m, .metavar n => m == n
  | a, b => a.equal b

/-- Lists of one length that agree position by position. -/
def allInvariantEqual (T : Tables) : List Ty → List Ty → Bool
  | [], [] => true
  | a :: as, b :: bs => typeInvariantEqual T a b && allInvariantEqual T as bs
  | _, _ => false

end

/-! ### The cascade -/

/-- Lists of one length whose positions are related. -/
def pairwise (related : Ty → Ty → Bool) (as bs : List Ty) : Bool :=
  as.length == bs.length && (as.zip bs).all fun p => related p.1 p.2

/-- A function is accepted when it takes every call that the expected one permits. -/
def fnCompatible (related : Ty → Ty → Bool) (aParams : List Ty) (aRest : Option Ty) (aRet : Ty)
    (eParams : List Ty) (eRest : Option Ty) (eRet : Ty) : Bool :=
  -- the actual may not require more fixed arguments than the expected supplies
  decide (aParams.length ≤ eParams.length) &&
  -- parameters beyond its fixed ones need a rest to land in
  (aParams.length == eParams.length || aRest.isSome) &&
  ((eParams.take aParams.length).zip aParams).all (fun p => related p.1 p.2) &&
  (match aRest with
    | none => true
    | some rest => (eParams.drop aParams.length).all fun p => related p rest) &&
  -- a variadic expectation is met by a variadic actual only
  (match eRest with
    | none => true
    | some expected =>
      match aRest with
      | none => false
      | some rest => related expected rest) &&
  related aRet eRet

/-- `any-type?`. -/
def Ty.isAny : Ty → Bool
  | .prim name => name == "Any"
  | _ => false

def Ty.isMetavar : Ty → Bool
  | .metavar _ => true
  | _ => false

/-- Two applications that are no member views. -/
def appCompatible (T : Tables) (related : Ty → Ty → Bool) (c : String) (as : List Ty) (d : String)
    (es : List Ty) : Bool :=
  if invariantConstructors.contains c && c == d then allInvariantEqual T as es
  else if c == "HVec" && d == "Vec" && es.length == 1 then
    as.all fun a => es.all fun e => related a e
  else if d == "Dyn" then
    if c == "Dyn" then allInvariantEqual T as es
    else es.any fun alt => related (.app c as) alt
  else c == d && pairwise related as es

/-- The arms after those for unions and member views. -/
def shapeCompatible (T : Tables) (related : Ty → Ty → Bool) (actual expected : Ty) : Bool :=
  match actual, expected with
  | .prim p, .prim q => T.primCompatible p q
  | .prim p, .app d es =>
    T.isMember d p || (d == "Dyn" && es.any fun alt => related (.prim p) alt)
  | .fn ps r t, .fn ps' r' t' => fnCompatible related ps r t ps' r' t'
  | .fn ps r t, .app d es => d == "Dyn" && es.any fun alt => related (.fn ps r t) alt
  | .app c _, .prim q => c == "Regex" && q == "Regex"
  | .app c as, .app d es => appCompatible T related c as d es
  | _, _ => false

/-- The alternatives of a union. -/
def Ty.unionAlts : Ty → Option (List Ty)
  | .union alts => some alts
  | _ => none

/-- The member that a `member-view?` is a view of. -/
def Tables.memberView (T : Tables) : Ty → Option String
  | .app c _ => if T.parametricMembers c then some c else none
  | _ => none

/-- One round of `type-compatible?`, with `related` for the recursive calls. -/
def compatRound (T : Tables) (related : Ty → Ty → Bool) (actual expected : Ty) : Bool :=
  if actual.isAny then true
  else if expected.isAny then true
  else if actual.isMetavar || expected.isMetavar then true
  else
    match actual.unionAlts, expected.unionAlts with
    | some as, some es => as.all fun a => es.any fun e => related a e
    | none, some es => es.any fun alt => related actual alt
    | some as, none => as.all fun alt => related alt expected
    | none, none =>
      match T.memberView actual, T.memberView expected with
      | some c, _ => related (.prim c) expected
      | none, some d => related actual (.prim d)
      | none, none => shapeCompatible T related actual expected

/-- `type-compatible?` with a bound on the depth of the recursion. -/
def compatWithin (T : Tables) : Nat → Ty → Ty → Bool
  | 0 => fun _ _ => false
  | fuel + 1 => compatRound T (compatWithin T fuel)

/-- `type-compatible?`, of types in which no metavariable is solved. -/
def typeCompatible (T : Tables) (actual expected : Ty) : Bool :=
  compatWithin T (actual.size + expected.size) actual expected

end Beagle.Types
