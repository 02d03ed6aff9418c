/-
Where the walk of the unifier and assignability disagree on direction.

Every position below two types is to be related in one of five ways when the whole is
to be accepted, while `unify-types!` asks `type-compatible?` of closed types in the
one direction it walks in.  The walk strays where a comparison that it takes does not
relate the two types in the way of their position.
-/
import Beagle.Types.Unify

namespace Beagle.Types

/-- How the two types at a position are to be related. -/
inductive Position where
  /-- The left type is accepted where the right one is expected. -/
  | accepts
  /-- The other way round, as for the parameters of a function. -/
  | accepted
  /-- As `type-invariant-equal?` relates them. -/
  | same
  /-- As `equal?` relates them. -/
  | identical
  /-- Below a member view, whose arguments are not looked at. -/
  | free
deriving DecidableEq

def Position.holds (T : Tables) : Position → Ty → Ty → Bool
  | .accepts, left, right => typeCompatible T left right
  | .accepted, left, right => typeCompatible T right left
  | .same, left, right => typeInvariantEqual T left right
  | .identical, left, right => left.equal right
  | .free, _, _ => true

/-- The position of the parameters of a function. -/
def Position.param : Position → Position
  | .accepts => .accepted
  | .accepted => .accepts
  | .same => .identical
  | .identical => .identical
  | .free => .free

/-- The position of the result of a function. -/
def Position.ret : Position → Position
  | .same => .identical
  | position => position

/-- The position of the arguments of two applications of `c`, in one direction. -/
def Tables.argPosition (T : Tables) (c : String) (position : Position) : Position :=
  if T.parametricMembers c then .free
  else if invariantConstructors.contains c || c == "Dyn" then .same
  else position

/-- The position of the arguments of two applications of `c`. -/
def Position.arg (T : Tables) (c : String) : Position → Position
  | .accepts => T.argPosition c .accepts
  | .accepted => T.argPosition c .accepted
  | position => position

/-- Some pair of two lists strays, under the solutions that it is reached with. -/
def straysPairs (unify : Solutions → Ty → Ty → Except Failure Solutions)
    (strays : Solutions → Ty → Ty → Bool) : Solutions → List Ty → List Ty → Bool
  | σ, a :: as, e :: es =>
    strays σ a e ||
      match unify σ a e with
      | .ok σ' => straysPairs unify strays σ' as es
      | .error _ => false
  | _, _, _ => false

/-- What is asked of two types that are no metavariables. -/
def straysHeads (arms : Ty → Ty → Bool) (σ : Solutions) (actual expected : Ty) : Bool :=
  let left := σ.prune actual
  let right := σ.prune expected
  if left = right then false
  else
    match left.openId, right.openId with
    | none, none => arms left right
    | _, _ => false

def straysInvariantArms (T : Tables) (unify : Solutions → Ty → Ty → Except Failure Solutions)
    (strays : Position → Solutions → Ty → Ty → Bool) (position : Position) (σ : Solutions)
    (left right : Ty) : Bool :=
  if closedMonomorphic σ left && closedMonomorphic σ right &&
      typeInvariantEqual T (σ.zonk left) (σ.zonk right) then
    !position.holds T (σ.zonk left) (σ.zonk right)
  else
    match left, right with
    | .app c as, .app _ es => straysPairs unify (strays (position.arg T c)) σ as es
    | .union as, .union es => straysPairs unify (strays position) σ as es
    | _, _ => false

/-- `unify-invariant-types!` takes a comparison that its position does not allow. -/
def straysInvariant (T : Tables) : Nat → Position → Solutions → Ty → Ty → Bool
  | 0 => fun _ _ _ _ => false
  | fuel + 1 => fun position σ =>
    straysHeads
      (straysInvariantArms T (unifyInvariantTypes T fuel) (straysInvariant T fuel) position σ) σ

def straysArms (T : Tables) (invariant unify : Solutions → Ty → Ty → Except Failure Solutions)
    (straysInv strays : Position → Solutions → Ty → Ty → Bool) (position : Position)
    (σ : Solutions) (left right : Ty) : Bool :=
  if closedMonomorphic σ left && closedMonomorphic σ right &&
      typeCompatible T (σ.zonk left) (σ.zonk right) then
    !position.holds T (σ.zonk left) (σ.zonk right)
  else
    match left, right with
    | .fn ps rest ret, .fn ps' rest' ret' =>
      straysPairs unify (strays position.param) σ ps ps' ||
        match unifyTypeLists unify left right σ ps ps' with
        | .error _ => false
        | .ok σ₁ =>
          straysPairs unify (strays position.param) σ₁ rest.toList rest'.toList ||
            match unifyRests unify left right σ₁ rest rest' with
            | .error _ => false
            | .ok σ₂ => strays position.ret σ₂ ret ret'
    | .app c as, .app _ es =>
      if invariantConstructors.contains c then
        straysPairs invariant (straysInv (position.arg T c)) σ as es
      else straysPairs unify (strays (position.arg T c)) σ as es
    | .union as, .union es => straysPairs unify (strays position) σ as es
    | _, _ => false

/-- `unify-types!` takes a comparison that its position does not allow. -/
def strays (T : Tables) : Nat → Position → Solutions → Ty → Ty → Bool
  | 0 => fun _ _ _ _ => false
  | fuel + 1 => fun position σ =>
    straysHeads
      (straysArms T (unifyInvariantTypes T fuel) (unifyTypes T fuel) (straysInvariant T fuel)
        (strays T fuel) position σ) σ

end Beagle.Types
