/-
What the metavariables of inference stand for.

`set-type-meta-solution!` is run on a metavariable that has no solution yet, so the
state of the solver is the list of these assignments, the last one first.  A type is
read under it by replaying the assignments in order; the path compression of
`prune-type` changes no reading and is left out.

Directional unification of two types.

`unify-types!` walks two types together, solves metavariables, and asks
`type-compatible?` where both types are closed; below an invariant constructor it goes
on as `unify-invariant-types!`.  Both recur on the parts of pruned types, here with a
bound on the depth.  The types they return are left out, since every caller only asks
whether they raise.  `eq?` of two nodes is taken as equality.
-/
import Beagle.Types.Ty

namespace Beagle.Types

/-! ### Substitution -/

mutual

/-- A type with `θ` in place of its metavariables. -/
def Ty.subst (θ : Nat → Ty) : Ty → Ty
  | .prim name => .prim name
  | .fn ps r t => .fn (Ty.substList θ ps) (Ty.substOption θ r) (t.subst θ)
  | .app c args => .app c (Ty.substList θ args)
  | .union alts => .union (Ty.substList θ alts)
  | .metavar id => θ id

def Ty.substList (θ : Nat → Ty) : List Ty → List Ty
  | [] => []
  | a :: as => a.subst θ :: Ty.substList θ as

def Ty.substOption (θ : Nat → Ty) : Option Ty → Option Ty
  | none => none
  | some a => some (a.subst θ)

end

theorem Ty.substList_eq (θ : Nat → Ty) (as : List Ty) : Ty.substList θ as = as.map (Ty.subst θ) := by
  induction as with
  | nil => rfl
  | cons a as ih => rw [Ty.substList, ih, List.map_cons]

theorem Ty.substOption_eq (θ : Nat → Ty) (r : Option Ty) :
    Ty.substOption θ r = r.map (Ty.subst θ) := by
  cases r with
  | none => rfl
  | some a => rfl

/-- One metavariable is replaced. -/
def Ty.assign (m : Nat) (s : Ty) (k : Nat) : Ty := if k = m then s else .metavar k

/-! ### Grammars -/

/-- The nodes that a class of types is built from, beside functions and applications. -/
structure Grammar where
  prim : String → Bool
  union : Bool
  metavar : Nat → Bool

mutual

/-- Every node is one of the grammar. -/
def Ty.within (g : Grammar) : Ty → Bool
  | .prim name => g.prim name
  | .fn ps r t => Ty.withinList g ps && Ty.withinOption g r && t.within g
  | .app _ args => Ty.withinList g args
  | .union alts => g.union && Ty.withinList g alts
  | .metavar id => g.metavar id

def Ty.withinList (g : Grammar) : List Ty → Bool
  | [] => true
  | a :: as => a.within g && Ty.withinList g as

def Ty.withinOption (g : Grammar) : Option Ty → Bool
  | none => true
  | some a => a.within g

end

/-- No metavariable. -/
def Grammar.closed : Grammar := ⟨fun _ => true, true, fun _ => false⟩

/-- All metavariables but `m`. -/
def Grammar.without (m : Nat) : Grammar := ⟨fun _ => true, true, fun k => k != m⟩

/-! ### Assignments -/

/-- The assignments made so far, the last one first. -/
abbrev Solutions := List (Nat × Ty)

/-- `type-meta-solution`. -/
def Solutions.solution (σ : Solutions) (m : Nat) : Option Ty := σ.lookup m

/-- `prune-type`. -/
def Solutions.prune : Solutions → Ty → Ty
  | [], t => t
  | (m, s) :: σ, t =>
    match Solutions.prune σ t with
    | .metavar k => if k = m then Solutions.prune σ s else .metavar k
    | u => u

/-- `zonk-type`. -/
def Solutions.zonk : Solutions → Ty → Ty
  | [], t => t
  | (m, s) :: σ, t => (Solutions.zonk σ t).subst (Ty.assign m (Solutions.zonk σ s))

/-- Each assignment was to an open metavariable and passed the occurs check. -/
def Solutions.Acyclic : Solutions → Prop
  | [] => True
  | (m, s) :: σ =>
    Solutions.Acyclic σ ∧ Solutions.solution σ m = none ∧
      (Solutions.zonk σ s).within (.without m) = true

inductive Failure where
  /-- `exn:fail:type-unification`. -/
  | mismatch (left right : Ty) (reason : String)
  /-- The bound on the depth is reached. -/
  | spent

/-- `bind-type-meta!`. -/
def bindTypeMeta (σ : Solutions) (m : Nat) (type : Ty) : Except Failure Solutions :=
  let target := σ.prune type
  if target = .metavar m then .ok σ
  -- explicit `Any` is no evidence about an omitted binder
  else if target.isAny then .ok σ
  else if (σ.zonk target).within (.without m) then .ok ((m, target) :: σ)
  else .error (.mismatch (.metavar m) target "occurs check failed")

/-- `closed-monomorphic-type?`. -/
def closedMonomorphic (σ : Solutions) (type : Ty) : Bool := (σ.zonk type).within .closed

/-- Two lists of one length, from left to right. -/
def unifyPairs (unify : Solutions → Ty → Ty → Except Failure Solutions) :
    Solutions → List Ty → List Ty → Except Failure Solutions
  | σ, a :: as, e :: es => do
      let σ' ← unify σ a e
      unifyPairs unify σ' as es
  | σ, _, _ => .ok σ

/-- `unify-type-lists!`. -/
def unifyTypeLists (unify : Solutions → Ty → Ty → Except Failure Solutions) (left right : Ty)
    (σ : Solutions) (as es : List Ty) : Except Failure Solutions :=
  if as.length = es.length then unifyPairs unify σ as es
  else .error (.mismatch left right "different arity")

/-- The rest parameters of two functions. -/
def unifyRests (unify : Solutions → Ty → Ty → Except Failure Solutions) (left right : Ty)
    (σ : Solutions) : Option Ty → Option Ty → Except Failure Solutions
  | some a, some e => unify σ a e
  | none, none => .ok σ
  | _, _ => .error (.mismatch left right "different variadic shape")

/-- The metavariable that a pruned type is. -/
def Ty.openId : Ty → Option Nat
  | .metavar m => some m
  | _ => none

/-- Both types pruned: the arms for one node and for metavariables come first. -/
def unifyHeads (arms : Ty → Ty → Except Failure Solutions) (σ : Solutions) (actual expected : Ty) :
    Except Failure Solutions :=
  let left := σ.prune actual
  let right := σ.prune expected
  if left = right then .ok σ
  else
    match left.openId with
    | some m => bindTypeMeta σ m right
    | none =>
      match right.openId with
      | some m => bindTypeMeta σ m left
      | none => arms left right

/-- The arms of `unify-invariant-types!` for two types that are no metavariables. -/
def unifyInvariantArms (T : Tables) (unify : Solutions → Ty → Ty → Except Failure Solutions)
    (σ : Solutions) (left right : Ty) : Except Failure Solutions :=
  if left.isAny && right.isAny then .ok σ
  else if left.isAny || right.isAny then .error (.mismatch left right "invariant Any mismatch")
  else if closedMonomorphic σ left && closedMonomorphic σ right &&
      typeInvariantEqual T (σ.zonk left) (σ.zonk right) then .ok σ
  else
    match left, right with
    | .app c as, .app d es =>
      if c = d then unifyTypeLists unify left right σ as es
      else .error (.mismatch left right "invariant types differ")
    | .union as, .union es => unifyTypeLists unify left right σ as es
    | _, _ => .error (.mismatch left right "invariant types differ")

/-- `unify-invariant-types!`. -/
def unifyInvariantTypes (T : Tables) : Nat → Solutions → Ty → Ty → Except Failure Solutions
  | 0 => fun _ _ _ => .error .spent
  | fuel + 1 => fun σ => unifyHeads (unifyInvariantArms T (unifyInvariantTypes T fuel) σ) σ

/-- The arms of `unify-types!` for two types that are no metavariables. -/
def unifyArms (T : Tables) (invariant unify : Solutions → Ty → Ty → Except Failure Solutions)
    (σ : Solutions) (left right : Ty) : Except Failure Solutions :=
  if left.isAny || right.isAny then .ok σ
  else if closedMonomorphic σ left && closedMonomorphic σ right &&
      typeCompatible T (σ.zonk left) (σ.zonk right) then .ok σ
  else
    match left, right with
    | .fn ps rest ret, .fn ps' rest' ret' => do
        let σ₁ ← unifyTypeLists unify left right σ ps ps'
        let σ₂ ← unifyRests unify left right σ₁ rest rest'
        unify σ₂ ret ret'
    | .app c as, .app d es =>
      if invariantConstructors.contains c && c == d then
        unifyTypeLists invariant left right σ as es
      else if c = d then unifyTypeLists unify left right σ as es
      else .error (.mismatch left right "different type constructors")
    | .union as, .union es => unifyTypeLists unify left right σ as es
    | _, _ => .error (.mismatch left right "incompatible types")

/-- `unify-types!`. -/
def unifyTypes (T : Tables) : Nat → Solutions → Ty → Ty → Except Failure Solutions
  | 0 => fun _ _ _ => .error .spent
  | fuel + 1 => fun σ =>
    unifyHeads (unifyArms T (unifyInvariantTypes T fuel) (unifyTypes T fuel) σ) σ

end Beagle.Types
