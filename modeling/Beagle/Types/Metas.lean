/-
Inference over shared metavariables.

A metavariable is a cell: it has no solution, or it is solved by a type, and every type
that mentions it sees the same solution.  `prune-type` shortens the chain of cells that
it follows, so the traversals below rewrite solutions while they read them, and a
traversal that raises leaves what it has written.  The traversals recur through
solutions, which nothing but the occurs check keeps from leading back; here they run
within a bound, and one that reaches it gives nothing.

What the solutions of metavariables add up to.

The solutions are a graph: a metavariable leads to those that its solution mentions.  A
type shows a metavariable where the traversals of inference come to it, which is
everywhere but below a refinement.  The cells are reached from unsolved ones by
unification and by the traversals, in any order, whether they return or raise.
-/
import Beagle.Lib.Computations
import Beagle.Types.Ty

namespace Beagle.Types.Metas

open Beagle.Lib List

section

/-! ### Types -/

/-- The declaration parameters of a foreign substitution: node ids in order, none of them empty.
    `canonical-foreign-substitutions` finds its pairs in this order whenever a type is rebuilt. -/
structure ForeignIds where
  ids : List String
  ordered : ids.Pairwise (· < ·)
  nonempty : ∀ id ∈ ids, id ≠ ""

/-- The type terms; the bounds of a `poly` stand apart from the names that they bound. -/
inductive Ty where
  | prim (name : String)
  | var (name : String)
  | fn (params : List Ty) (restType : Option Ty) (ret : Ty)
  | app (ctor : String) (args : List Ty)
  | union (alts : List Ty)
  | refinement (base : Ty) (predicate placement : String)
  | poly (vars : List String) (body : Ty) (bounded : Option (List String)) (bounds : List Ty)
      (inferred : Bool)
  | foreign (interfaceId nodeId : String) (ids : ForeignIds) (types : List Ty)
  | metavar (id : Nat)

/-- `any-type?`. -/
def Ty.isAny : Ty → Bool
  | .prim name => name == "Any"
  | _ => false

def Ty.isForeign : Ty → Bool
  | .foreign .. => true
  | _ => false

/-- The types that the traversals of inference go on to; none of them goes into a refinement. -/
def Ty.parts : Ty → List Ty
  | .fn params restType ret => params ++ (restType.toList ++ [ret])
  | .app _ args => args
  | .union alts => alts
  | .poly _ body _ bounds _ => body :: bounds
  | .foreign _ _ _ types => types
  | _ => []

mutual

/-- `equal?` of two types. -/
def Ty.equal : Ty → Ty → Bool
  | .prim a, .prim b => a == b
  | .var a, .var b => a == b
  | .fn ps r t, .fn ps' r' t' => Ty.equalList ps ps' && Ty.equalOption r r' && t.equal t'
  | .app c as, .app d bs => c == d && Ty.equalList as bs
  | .union as, .union bs => Ty.equalList as bs
  | .refinement a p l, .refinement b q k => a.equal b && p == q && l == k
  | .poly vs t ns bs i, .poly vs' t' ns' bs' i' =>
    vs == vs' && t.equal t' && ns == ns' && Ty.equalList bs bs' && i == i'
  | .foreign i n ids ts, .foreign j k ids' ts' =>
    i == j && n == k && ids.ids == ids'.ids && Ty.equalList ts ts'
  | .metavar m, .metavar n => m == n
  | _, _ => false

def Ty.equalList : List Ty → List Ty → Bool
  | [], [] => true
  | a :: as, b :: bs => a.equal b && Ty.equalList as bs
  | _, _ => false

def Ty.equalOption : Option Ty → Option Ty → Bool
  | none, none => true
  | some a, some b => a.equal b
  | _, _ => false

end

/-! ### Cells -/

/-- `type-meta-solution` of each metavariable. -/
abbrev Cells := Nat → Option Ty

inductive Raised where
  /-- `exn:fail:type-unification`. -/
  | unification (message : String) (left right : Ty) (reason : String)
  /-- Beagle Any cannot cross a foreign substitution boundary. -/
  | anySubstitution (nodeId : String) (type : Ty)

abbrev Solve (α : Type) : Type := Attempt Cells Raised α

/-- `set-type-meta-solution!`. -/
def setSolution (id : Nat) (type : Ty) : Solve Unit :=
  Attempt.modify fun cells => Function.update cells id (some type)

def pruneType : Nat → Ty → Solve Ty
  | 0, _ => Attempt.spent
  | fuel + 1, .metavar id => do
      let cells ← Attempt.get
      match cells id with
      | none => pure (.metavar id)
      | some solution =>
        let solved ← pruneType fuel solution
        setSolution id solved
        pure solved
  | _ + 1, type => pure type

/-! ### Traversals -/

/-- `type-has-any?`; its `seen` is for types that lead back to themselves. -/
def typeHasAny : Nat → Ty → Solve Bool
  | 0, _ => Attempt.spent
  | fuel + 1, type => do
      let current ← pruneType fuel type
      if current.isAny then pure true
      else
        match current with
        | .refinement base _ _ => typeHasAny fuel base
        | current => Attempt.any (typeHasAny fuel) current.parts

/-- The checks of `canonical-foreign-substitutions`, in order. -/
def checkSubstitutions (fuel : Nat) : List String → List Ty → Solve Unit
  | id :: ids, type :: types => do
      if (← typeHasAny fuel type) then Attempt.raise (.anySubstitution id type)
      else checkSubstitutions fuel ids types
  | _, _ => pure ()

/-- `type-foreign/instantiated`. -/
def typeForeignInstantiated (fuel : Nat) (interfaceId nodeId : String) (ids : ForeignIds)
    (types : List Ty) : Solve Ty := do
  checkSubstitutions fuel ids.ids types
  pure (.foreign interfaceId nodeId ids types)

def zonkType : Nat → Ty → Solve Ty
  | 0, _ => Attempt.spent
  | fuel + 1, type => do
      let current ← pruneType fuel type
      match current with
      | .foreign interfaceId nodeId ids types => do
          let types' ← Attempt.each (zonkType fuel) types
          typeForeignInstantiated fuel interfaceId nodeId ids types'
      | .fn params restType ret => do
          let params' ← Attempt.each (zonkType fuel) params
          let rest' ← Attempt.each (zonkType fuel) restType.toList
          let ret' ← zonkType fuel ret
          pure (.fn params' rest'.head? ret')
      | .app ctor args => do
          let args' ← Attempt.each (zonkType fuel) args
          pure (.app ctor args')
      | .union alts => do
          let alts' ← Attempt.each (zonkType fuel) alts
          pure (.union alts')
      | .poly vars body bounded bounds inferred => do
          let body' ← zonkType fuel body
          let bounds' ← Attempt.each (zonkType fuel) bounds
          pure (.poly vars body' bounded bounds' inferred)
      | current => pure current

def typeOccurs : Nat → Nat → Ty → Solve Bool
  | 0, _, _ => Attempt.spent
  | fuel + 1, id, type => do
      let current ← pruneType fuel type
      match current with
      | .metavar other => pure (other == id)
      | current => Attempt.any (typeOccurs fuel id) current.parts

/-- `closed-monomorphic-type?`. -/
def closedMonomorphic : Nat → Ty → Solve Bool
  | 0, _ => Attempt.spent
  | fuel + 1, type => do
      let current ← pruneType fuel type
      match current with
      | .metavar _ | .var _ | .poly .. => pure false
      | current => Attempt.all (closedMonomorphic fuel) current.parts

/-! ### Comparisons -/

/-- Position by position, up to the first that is unrelated. -/
def pairwise (related : Ty → Ty → Solve Bool) (as bs : List Ty) : Solve Bool :=
  if as.length = bs.length then Attempt.all (fun pair => related pair.1 pair.2) (as.zip bs)
  else pure false

/-- `type-invariant-equal?`. -/
def typeInvariantEqual (T : Tables) : Nat → Ty → Ty → Solve Bool
  | 0, _, _ => Attempt.spent
  | fuel + 1, a, b => do
      let a ← pruneType fuel a
      let b ← pruneType fuel b
      match a, b with
      | .prim p, .prim q => pure (T.unqualify p == T.unqualify q)
      | .app c as, .app d bs =>
        if c = d then pairwise (typeInvariantEqual T fuel) as bs else pure false
      | .union as, .union bs => pairwise (typeInvariantEqual T fuel) as bs
      | a, b => pure (a.equal b)

/-- The metavariables were written to by `prune-type` only. -/
inductive Pruned : Cells → Cells → Prop
  | refl (cells : Cells) : Pruned cells cells
  | step {cells between after : Cells} {fuel : Nat} {type : Ty} {result : Except Raised Ty} :
      Pruned cells between → pruneType fuel type between = some (result, after) →
      Pruned cells after

/-- The parameters that the checker runs under. -/
structure Context where
  tables : Tables
  /-- `eq?` of two nodes. -/
  same : Ty → Ty → Bool
  same_metavar : ∀ m n, same (.metavar m) (.metavar n) = (m == n)
  eq_of_same : ∀ a b, same a b = true → a = b
  /-- `current-foreign-type-compatible?`, which reads types as the relations here do. -/
  foreignCompatible : Ty → Ty → Solve Bool
  /-- `type->string`, by its registry of renderers. -/
  typeString : Ty → Solve String
  foreign_prunes : ∀ actual expected, (foreignCompatible actual expected).Keeps Pruned
  string_prunes : ∀ type, (typeString type).Keeps Pruned

variable (C : Context)

/-- What is expected beyond the fixed parameters lands in the rest. -/
def beyondCompatible (related : Ty → Ty → Solve Bool) (eParams : List Ty) : Option Ty → Solve Bool
  | none => pure true
  | some aRest => Attempt.all (fun param => related param aRest) eParams

/-- A variadic expectation is met by a variadic actual only. -/
def restCompatible (related : Ty → Ty → Solve Bool) : Option Ty → Option Ty → Solve Bool
  | none, _ => pure true
  | some _, none => pure false
  | some eRest, some aRest => related eRest aRest

/-- The arm of `type-compatible?` for two functions. -/
def fnCompatible (related : Ty → Ty → Solve Bool) (aParams : List Ty) (aRest : Option Ty)
    (aRet : Ty) (eParams : List Ty) (eRest : Option Ty) (eRet : Ty) : Solve Bool :=
  -- the actual may not require more than is supplied, and what is beyond it needs a rest
  if aParams.length > eParams.length ∨ (aParams.length ≠ eParams.length ∧ aRest = none) then
    pure false
  else do
    if !(← Attempt.all (fun pair => related pair.1 pair.2)
        ((eParams.take aParams.length).zip aParams)) then pure false
    else if !(← beyondCompatible related (eParams.drop aParams.length) aRest) then pure false
    else if !(← restCompatible related eRest aRest) then pure false
    else related aRet eRet

/-- The arms for two applications. -/
def appCompatible (related invariant : Ty → Ty → Solve Bool) (c : String) (as : List Ty)
    (d : String) (es : List Ty) : Solve Bool :=
  if invariantConstructors.contains c ∧ c = d then pairwise invariant as es
  else if c = "HVec" ∧ d = "Vec" ∧ es.length = 1 then
    Attempt.all (fun a => Attempt.all (related a) es) as
  else if d = "Dyn" then
    if c = "Dyn" then pairwise invariant as es else Attempt.any (related (.app c as)) es
  else if c = d then pairwise related as es
  else pure false

/-- The arms after those for unions and member views. -/
def shapeCompatible (related invariant : Ty → Ty → Solve Bool) : Ty → Ty → Solve Bool
  | .prim p, .prim q => pure (C.tables.primCompatible p q)
  | .app "Regex" _, .prim "Regex" => pure true
  | .prim p, .app d es =>
    if C.tables.isMember d p then pure true
    else if d = "Dyn" then Attempt.any (related (.prim p)) es
    else pure false
  | .fn ps r t, .fn ps' r' t' => fnCompatible related ps r t ps' r' t'
  | .app c as, .app d es => appCompatible related invariant c as d es
  | actual, .app "Dyn" es => Attempt.any (related actual) es
  | _, _ => pure false

def Ty.memberView (T : Tables) : Ty → Option String
  | .app ctor _ => if T.parametricMembers ctor then some ctor else none
  | _ => none

/-- The arms of `type-compatible?` on pruned types, with `related` for the recursive calls. -/
def compatibleArms (related invariant : Ty → Ty → Solve Bool) (actual expected : Ty) : Solve Bool :=
  if actual.isForeign || expected.isForeign then C.foreignCompatible actual expected
  else if actual.isAny || expected.isAny then pure true
  else
    match actual, expected with
    | .metavar _, _ | _, .metavar _ | .var _, _ | _, .var _ => pure true
    | actual, .poly _ body _ _ _ => related actual body
    | .poly _ body _ _ _, expected => related body expected
    | .union as, .union es => Attempt.all (fun a => Attempt.any (related a) es) as
    | actual, .union es => Attempt.any (related actual) es
    | .union as, expected => Attempt.all (fun a => related a expected) as
    | actual, expected =>
      match actual.memberView C.tables, expected.memberView C.tables with
      | some member, _ => related (.prim member) expected
      | none, some member => related actual (.prim member)
      | none, none => shapeCompatible C related invariant actual expected

def typeCompatible : Nat → Ty → Ty → Solve Bool
  | 0, _, _ => Attempt.spent
  | fuel + 1, actual, expected => do
      let actual ← pruneType fuel actual
      let expected ← pruneType fuel expected
      compatibleArms C (typeCompatible fuel) (typeInvariantEqual C.tables fuel) actual expected

/-! ### Unification -/

def raiseTypeUnification {α : Type} (left right : Ty) (reason : String) : Solve α := do
  let leftText ← C.typeString left
  let rightText ← C.typeString right
  Attempt.raise (.unification ("cannot unify " ++ leftText ++ " with " ++ rightText ++ ": " ++
    reason) left right reason)

/-- The metavariable that a pruned type is. -/
def Ty.openId : Ty → Option Nat
  | .metavar id => some id
  | _ => none

def bindTypeMeta (fuel : Nat) (id : Nat) (type : Ty) : Solve Ty := do
  let target ← pruneType fuel type
  if target.openId = some id then pure (.metavar id)
  -- explicit `Any` is no evidence about an omitted binder
  else if target.isAny then pure (.metavar id)
  else if (← typeOccurs fuel id target) then
    raiseTypeUnification C (.metavar id) target "occurs check failed"
  else do
    setSolution id target
    pure target

/-- Two lists from left to right, up to the end of the shorter. -/
def unifyPairs (unify : Ty → Ty → Solve Ty) (as es : List Ty) : Solve Unit := do
  let _ ← Attempt.each (fun pair => unify pair.1 pair.2) (as.zip es)
  pure ()

def unifyTypeLists (unify : Ty → Ty → Solve Ty) (as es : List Ty) (left right : Ty) : Solve Unit :=
  if as.length = es.length then unifyPairs unify as es
  else raiseTypeUnification C left right "different arity"

/-- Both types pruned: the arms for one node and for metavariables come first. -/
def unifyHeads (fuel : Nat) (arms : Ty → Ty → Solve Ty) (actual expected : Ty) : Solve Ty := do
  let left ← pruneType fuel actual
  let right ← pruneType fuel expected
  if C.same left right then pure left
  else
    match left.openId with
    | some id => bindTypeMeta C fuel id right
    | none =>
      match right.openId with
      | some id => bindTypeMeta C fuel id left
      | none => arms left right

/-- Both types are closed and the comparison holds. -/
def closedAnd (fuel : Nat) (related : Ty → Ty → Solve Bool) (left right : Ty) : Solve Bool := do
  if !(← closedMonomorphic fuel left) then pure false
  else if !(← closedMonomorphic fuel right) then pure false
  else related left right

/-- `same-foreign-substitution-shape?`, with the substitutions of both. -/
def foreignPairs : Ty → Ty → Option (List Ty × List Ty)
  | .foreign i n ids types, .foreign j k ids' types' =>
    if i = j ∧ n = k ∧ ids.ids = ids'.ids then some (types, types') else none
  | _, _ => none

/-- The arms of `unify-invariant-types!` after those for metavariables. -/
def unifyInvariantArms (fuel : Nat) (unify : Ty → Ty → Solve Ty) (left right : Ty) : Solve Ty :=
  match foreignPairs left right with
  | some (types, types') => do
      unifyPairs unify types types'
      zonkType fuel right
  | none =>
    if left.isForeign || right.isForeign then
      raiseTypeUnification C left right "foreign types are invariant and cannot unify with Any"
    else if left.isAny && right.isAny then pure right
    else if left.isAny || right.isAny then
      raiseTypeUnification C left right "invariant Any mismatch"
    else do
      if (← closedAnd fuel (typeInvariantEqual C.tables fuel) left right) then pure right
      else
        match left, right with
        | .app c as, .app d es =>
          if c = d then do
            unifyTypeLists C unify as es left right
            zonkType fuel right
          else raiseTypeUnification C left right "invariant types differ"
        | .union as, .union es => do
            unifyTypeLists C unify as es left right
            zonkType fuel right
        | _, _ => raiseTypeUnification C left right "invariant types differ"

def unifyInvariantTypes : Nat → Ty → Ty → Solve Ty
  | 0 => fun _ _ => Attempt.spent
  | fuel + 1 => unifyHeads C fuel (unifyInvariantArms C fuel (unifyInvariantTypes fuel))

/-- The rest parameters of two functions. -/
def unifyRests (unify : Ty → Ty → Solve Ty) (left right : Ty) : Option Ty → Option Ty → Solve Unit
  | some a, some e => do
      let _ ← unify a e
      pure ()
  | none, none => pure ()
  | _, _ => raiseTypeUnification C left right "different variadic shape"

/-- The arms of `unify-types!` for functions, applications and unions. -/
def unifyShapes (fuel : Nat) (invariant unify : Ty → Ty → Solve Ty) (left right : Ty) : Solve Ty :=
  match left, right with
  | .fn ps restType ret, .fn ps' restType' ret' => do
      unifyTypeLists C unify ps ps' left right
      unifyRests C unify left right restType restType'
      let _ ← unify ret ret'
      zonkType fuel right
  | .app c as, .app d es =>
    if invariantConstructors.contains c ∧ c = d then do
      unifyTypeLists C invariant as es left right
      zonkType fuel right
    else if c = d then do
      unifyTypeLists C unify as es left right
      zonkType fuel right
    else raiseTypeUnification C left right "different type constructors"
  | .union as, .union es => do
      unifyTypeLists C unify as es left right
      zonkType fuel right
  | _, _ => raiseTypeUnification C left right "incompatible types"

/-- The arms of `unify-types!` after those for metavariables. -/
def unifyArms (fuel : Nat) (invariant unify : Ty → Ty → Solve Ty) (left right : Ty) : Solve Ty :=
  match foreignPairs left right with
  | some (types, types') => do
      unifyPairs unify types types'
      zonkType fuel right
  | none =>
    if left.isForeign || right.isForeign then do
      if (← typeCompatible C fuel left right) then pure right
      else raiseTypeUnification C left right "incompatible foreign type"
    else if left.isAny then pure right
    else if right.isAny then pure left
    else
      match left, right with
      | .var a, .var b =>
        if a = b then pure right
        else raiseTypeUnification C left right "authored type variables are rigid"
      | .var _, _ | _, .var _ =>
        raiseTypeUnification C left right "authored type variables are rigid"
      | .poly .., _ | _, .poly .. =>
        raiseTypeUnification C left right
          "polymorphic types must be instantiated before unification"
      | _, _ => do
          if (← closedAnd fuel (typeCompatible C fuel) left right) then pure right
          else unifyShapes C fuel invariant unify left right

def unifyTypes : Nat → Ty → Ty → Solve Ty
  | 0 => fun _ _ => Attempt.spent
  | fuel + 1 => unifyHeads C fuel
      (unifyArms C fuel (unifyInvariantTypes C fuel) (unifyTypes fuel))

end

/-! ### What a type mentions -/

/-- A traversal of the type comes to the metavariable. -/
inductive Ty.Shows (id : Nat) : Ty → Prop
  | self : Ty.Shows id (.metavar id)
  | part {t p : Ty} : p ∈ t.parts → p.Shows id → Ty.Shows id t

/-- The metavariable is somewhere in the type. -/
inductive Ty.Mentions (id : Nat) : Ty → Prop
  | self : Ty.Mentions id (.metavar id)
  | part {t p : Ty} : p ∈ t.parts → p.Mentions id → Ty.Mentions id t
  | base {b : Ty} {predicate placement : String} :
      b.Mentions id → Ty.Mentions id (.refinement b predicate placement)

/-- The refinements of the type refine types without metavariables. -/
inductive Ty.Built : Ty → Prop
  | intro {t : Ty} (parts : ∀ p ∈ t.parts, p.Built)
      (refined : ∀ b predicate placement, t = .refinement b predicate placement →
        ∀ id, ¬b.Mentions id) : Ty.Built t

/-- The type has Beagle Any in it. -/
inductive Ty.HasAny : Ty → Prop
  | self {t : Ty} : t.isAny = true → t.HasAny
  | part {t p : Ty} : p ∈ t.parts → p.HasAny → t.HasAny
  | base {b : Ty} {predicate placement : String} :
      b.HasAny → Ty.HasAny (.refinement b predicate placement)

/-! ### The graph -/

/-- The solution of one metavariable mentions the other. -/
def Leads (cells : Cells) (id other : Nat) : Prop :=
  ∃ solution, cells id = some solution ∧ solution.Mentions other

/-- The cells that calls on built types lead to, each returning or raising. -/
inductive Reached : Cells → Prop
  | fresh : Reached fun _ => none
  | unify {C : Context} {fuel : Nat} {actual expected : Ty} {cells after : Cells}
      {result : Except Raised Ty} : Reached cells → actual.Built → expected.Built →
      unifyTypes C fuel actual expected cells = some (result, after) → Reached after
  | unifyInvariant {C : Context} {fuel : Nat} {actual expected : Ty} {cells after : Cells}
      {result : Except Raised Ty} : Reached cells → actual.Built → expected.Built →
      unifyInvariantTypes C fuel actual expected cells = some (result, after) → Reached after
  | zonk {fuel : Nat} {type : Ty} {cells after : Cells} {result : Except Raised Ty} :
      Reached cells → zonkType fuel type cells = some (result, after) → Reached after
  | prune {fuel : Nat} {type : Ty} {cells after : Cells} {result : Except Raised Ty} :
      Reached cells → pruneType fuel type cells = some (result, after) → Reached after
  | occurs {fuel id : Nat} {type : Ty} {cells after : Cells} {result : Except Raised Bool} :
      Reached cells → typeOccurs fuel id type cells = some (result, after) → Reached after

/-! ### Substitution -/

mutual

/-- A type with `θ` in place of the metavariables that it shows. -/
def Ty.subst (θ : Nat → Ty) : Ty → Ty
  | .fn ps r t => .fn (Ty.substList θ ps) (Ty.substOption θ r) (t.subst θ)
  | .app c args => .app c (Ty.substList θ args)
  | .union alts => .union (Ty.substList θ alts)
  | .poly vars body bounded bounds inferred =>
    .poly vars (body.subst θ) bounded (Ty.substList θ bounds) inferred
  | .foreign i n ids types => .foreign i n ids (Ty.substList θ types)
  | .metavar id => θ id
  | .prim name => .prim name
  | .var name => .var name
  | .refinement base predicate placement => .refinement base predicate placement

def Ty.substList (θ : Nat → Ty) : List Ty → List Ty
  | [] => []
  | a :: as => a.subst θ :: Ty.substList θ as

def Ty.substOption (θ : Nat → Ty) : Option Ty → Option Ty
  | none => none
  | some a => some (a.subst θ)

end

variable (θ : Nat → Ty)
include θ

attribute [local simp] Ty.subst Ty.substList Ty.substOption in
theorem Ty.substList_eq (as : List Ty) : Ty.substList θ as = as.map (Ty.subst θ) := by
  induction as with
  | nil => rfl
  | cons a as ih => rw [Ty.substList, ih, map_cons]

theorem Ty.substOption_eq (r : Option Ty) : Ty.substOption θ r = r.map (Ty.subst θ) := by
  cases r with
  | none | some a => rfl

@[simp] theorem Ty.subst_prim (name : String) :
    (Ty.prim name).subst θ = .prim name := by rw [Ty.subst]

@[simp] theorem Ty.subst_var (name : String) :
    (Ty.var name).subst θ = .var name := by rw [Ty.subst]

@[simp] theorem Ty.subst_refinement (base : Ty) (predicate placement : String) :
    (Ty.refinement base predicate placement).subst θ = .refinement base predicate placement := by
  rw [Ty.subst]

@[simp] theorem Ty.subst_metavar (id : Nat) : (Ty.metavar id).subst θ = θ id := by
  rw [Ty.subst]

@[simp] theorem Ty.subst_fn (ps : List Ty) (r : Option Ty) (t : Ty) :
    (Ty.fn ps r t).subst θ = .fn (ps.map (Ty.subst θ)) (r.map (Ty.subst θ)) (t.subst θ) := by
  rw [Ty.subst, Ty.substList_eq, Ty.substOption_eq]

@[simp] theorem Ty.subst_app (c : String) (args : List Ty) :
    (Ty.app c args).subst θ = .app c (args.map (Ty.subst θ)) := by
  rw [Ty.subst, Ty.substList_eq]

@[simp] theorem Ty.subst_union (alts : List Ty) :
    (Ty.union alts).subst θ = .union (alts.map (Ty.subst θ)) := by
  rw [Ty.subst, Ty.substList_eq]

@[simp] theorem Ty.subst_poly (vars : List String) (body : Ty) (bounded : Option (List String))
    (bounds : List Ty) (inferred : Bool) :
    (Ty.poly vars body bounded bounds inferred).subst θ =
      .poly vars (body.subst θ) bounded (bounds.map (Ty.subst θ)) inferred := by
  rw [Ty.subst, Ty.substList_eq]

@[simp] theorem Ty.subst_foreign (i n : String) (ids : ForeignIds) (types : List Ty) :
    (Ty.foreign i n ids types).subst θ = .foreign i n ids (types.map (Ty.subst θ)) := by
  rw [Ty.subst, Ty.substList_eq]

omit θ

/-! ### Parts -/

theorem Ty.sizeOf_base (base : Ty) (predicate placement : String) :
    sizeOf base < sizeOf (Ty.refinement base predicate placement) := by
  simp only [Ty.refinement.sizeOf_spec]
  omega

variable {t : Ty} {θ : Nat → Ty} {p : Ty} {θ' : Nat → Ty}

/-- A part is smaller than the type. -/
theorem Ty.sizeOf_part (h : p ∈ t.parts) : sizeOf p < sizeOf t := by
  cases t with
  | prim name | var name | refinement base predicate placement | metavar id =>
    exact absurd h not_mem_nil
  | fn ps r t =>
    simp only [Ty.fn.sizeOf_spec]
    rcases List.mem_append.mp h with hparam | hrest
    · have := sizeOf_lt_of_mem hparam
      omega
    · rcases List.mem_append.mp hrest with hrest | hret
      · rw [Option.mem_toList.mp hrest]
        simp only [Option.some.sizeOf_spec]
        omega
      · rw [mem_singleton.mp hret]
        omega
  | app c args =>
    have := sizeOf_lt_of_mem (show p ∈ args from h)
    simp only [Ty.app.sizeOf_spec]
    omega
  | union alts =>
    have := sizeOf_lt_of_mem (show p ∈ alts from h)
    simp only [Ty.union.sizeOf_spec]
    omega
  | poly vars body bounded bounds inferred =>
    simp only [Ty.poly.sizeOf_spec]
    rcases mem_cons.mp h with rfl | hbound
    · omega
    · have := sizeOf_lt_of_mem hbound
      omega
  | foreign i n ids types =>
    have := sizeOf_lt_of_mem (show p ∈ types from h)
    simp only [Ty.foreign.sizeOf_spec]
    omega

theorem Ty.sizeOf_pos (t : Ty) : 0 < sizeOf t := by
  cases t <;> simp <;> omega

/-- Induction over the parts that the traversals go on to. -/
theorem Ty.partsRec {P : Ty → Prop} (step : ∀ t : Ty, (∀ p ∈ t.parts, P p) → P t) (t : Ty) : P t := by
  have hmain : ∀ n, ∀ t : Ty, sizeOf t ≤ n → P t := by
    intro n
    induction n with
    | zero =>
      intro t h
      have := t.sizeOf_pos
      omega
    | succ n ih =>
      intro t h
      refine step t fun p hp => ih p ?_
      have := Ty.sizeOf_part hp
      omega
  exact hmain _ t (Nat.le_refl _)

/-- Substitution goes to the parts, unless the type is a metavariable. -/
theorem Ty.parts_subst (h : t.openId = none) : (t.subst θ).parts = t.parts.map (Ty.subst θ) := by
  cases t with
  | metavar id => exact nomatch h
  | fn ps r t =>
    cases r <;> simp [Ty.parts]
  | prim name | var name | app c args | union alts | refinement base predicate placement
  | poly vars body bounded bounds inferred | foreign i n ids types => simp [Ty.parts]

/-- Substitutions that agree on the parts agree, where both keep the metavariables that the type
    is. -/
theorem Ty.subst_eq_subst (hopen : ∀ id, t = .metavar id → θ id = θ' id)
    (hparts : ∀ p ∈ t.parts, p.subst θ = p.subst θ') : t.subst θ = t.subst θ' := by
  cases t with
  | metavar id => simpa using hopen id rfl
  | prim name | var name | refinement base predicate placement => simp
  | fn ps r t =>
    simp only [Ty.parts, List.mem_append, Option.mem_toList, mem_singleton] at hparts
    rw [Ty.subst_fn, Ty.subst_fn, map_congr_left fun p hp => hparts p (Or.inl hp),
      hparts t (Or.inr (Or.inr rfl))]
    cases r with
    | none => rfl
    | some a => rw [Option.map_some, Option.map_some, hparts a (Or.inr (Or.inl rfl))]
  | app c args => rw [Ty.subst_app, Ty.subst_app, map_congr_left (l := args) hparts]
  | union alts => rw [Ty.subst_union, Ty.subst_union, map_congr_left (l := alts) hparts]
  | poly vars body bounded bounds inferred =>
    simp only [Ty.parts, forall_mem_cons] at hparts
    rw [Ty.subst_poly, Ty.subst_poly, hparts.1, map_congr_left hparts.2]
  | foreign i n ids types =>
    rw [Ty.subst_foreign, Ty.subst_foreign, map_congr_left (l := types) hparts]

theorem Ty.subst_congr (h : ∀ id, t.Shows id → θ id = θ' id) : t.subst θ = t.subst θ' := by
  induction t using Ty.partsRec with
  | step t ih =>
    refine Ty.subst_eq_subst ?_ ?_
    · rintro id rfl
      exact h id .self
    · intro p hp
      exact ih p hp fun id hid => h id (.part hp hid)

theorem Ty.subst_subst (θ θ' : Nat → Ty) (t : Ty) :
    (t.subst θ).subst θ' = t.subst fun id => (θ id).subst θ' := by
  induction t using Ty.partsRec with
  | step t ih =>
    cases t with
    | metavar id | prim name | var name | refinement base predicate placement => simp
    | fn ps r t =>
      simp only [Ty.parts, List.mem_append, Option.mem_toList, mem_singleton] at ih
      simp only [Ty.subst_fn, map_map, Option.map_map, ih t (Or.inr (Or.inr rfl))]
      congr 1
      · exact map_congr_left fun p hp => ih p (Or.inl hp)
      · cases r with
        | none => rfl
        | some a => exact congrArg some (ih a (Or.inr (Or.inl rfl)))
    | app c args =>
      simp only [Ty.subst_app, map_map]
      exact congrArg _ (map_congr_left ih)
    | union alts =>
      simp only [Ty.subst_union, map_map]
      exact congrArg _ (map_congr_left ih)
    | poly vars body bounded bounds inferred =>
      simp only [Ty.parts, forall_mem_cons] at ih
      simp only [Ty.subst_poly, map_map, ih.1]
      congr 1
      exact map_congr_left ih.2
    | foreign i n ids types =>
      simp only [Ty.subst_foreign, map_map]
      exact congrArg _ (map_congr_left ih)

theorem Ty.subst_metavars (t : Ty) : t.subst .metavar = t := by
  induction t using Ty.partsRec with
  | step t ih =>
    cases t with
    | metavar id | prim name | var name | refinement base predicate placement => simp
    | fn ps r t =>
      simp only [Ty.parts, List.mem_append, Option.mem_toList, mem_singleton] at ih
      rw [Ty.subst_fn, ih t (Or.inr (Or.inr rfl)),
        map_congr_left fun p hp => ih p (Or.inl hp), map_id']
      cases r with
      | none => rfl
      | some a => rw [Option.map_some, ih a (Or.inr (Or.inl rfl))]
    | app c args => rw [Ty.subst_app, map_congr_left (l := args) ih, map_id']
    | union alts => rw [Ty.subst_union, map_congr_left (l := alts) ih, map_id']
    | poly vars body bounded bounds inferred =>
      simp only [Ty.parts, forall_mem_cons] at ih
      rw [Ty.subst_poly, ih.1, map_congr_left ih.2, map_id']
    | foreign i n ids types =>
      rw [Ty.subst_foreign, map_congr_left (l := types) ih, map_id']

/-! ### Showing and mentioning -/

theorem Ty.Shows.of_metavar {id other : Nat} (h : (Ty.metavar other).Shows id) : other = id := by
  cases h with
  | self => rfl
  | part hp _ => exact absurd hp not_mem_nil

variable {id : Nat}

/-- What a type shows under a substitution is shown by what takes the place of what it shows. -/
theorem Ty.shows_subst :
    (t.subst θ).Shows id ↔ ∃ other, t.Shows other ∧ (θ other).Shows id := by
  induction t using Ty.partsRec with
  | step t ih =>
    cases hopen : t.openId with
    | some other =>
      cases t with
      | metavar k =>
        rw [Ty.subst_metavar]
        constructor
        · intro h
          exact ⟨k, .self, h⟩
        · rintro ⟨j, hj, h⟩
          rwa [hj.of_metavar]
      | _ => exact nomatch hopen
    | none =>
      constructor
      · intro h
        generalize hu : t.subst θ = u at h
        cases h with
        | self =>
          cases t with
          | metavar k => exact nomatch hopen
          | _ => simp at hu
        | part hp hshows =>
          rw [← hu, Ty.parts_subst hopen] at hp
          obtain ⟨p, hmem, rfl⟩ := mem_map.mp hp
          obtain ⟨other, ho, hid⟩ := (ih p hmem).mp hshows
          exact ⟨other, .part hmem ho, hid⟩
      · rintro ⟨other, ho, hid⟩
        cases ho with
        | self => exact nomatch hopen
        | part hp hshows =>
          refine .part ?_ ((ih _ hp).mpr ⟨other, hshows, hid⟩)
          rw [Ty.parts_subst hopen]
          exact mem_map_of_mem hp

theorem Ty.Shows.mentions (h : t.Shows id) : t.Mentions id := by
  induction h with
  | self => exact .self
  | part hp _ ih => exact .part hp ih

theorem Ty.Built.of_part (h : t.Built) (hp : p ∈ t.parts) : p.Built := by
  cases h with
  | intro parts _ => exact parts p hp

theorem Ty.Built.refined {base : Ty} {predicate placement : String}
    (h : (Ty.refinement base predicate placement).Built) (id : Nat) : ¬base.Mentions id := by
  cases h with
  | intro _ refined => exact refined base predicate placement rfl id

theorem Ty.built_metavar (id : Nat) : (Ty.metavar id).Built :=
  .intro (forall_mem_nil _) fun _ _ _ h => nomatch h

/-- A built type shows what it mentions. -/
theorem Ty.Built.shows (hbuilt : t.Built) (h : t.Mentions id) : t.Shows id := by
  induction h with
  | self => exact .self
  | part hp _ ih => exact .part hp (ih (hbuilt.of_part hp))
  | base h _ => exact absurd h (hbuilt.refined id)

theorem Ty.built_of_closed (h : ∀ id, ¬t.Mentions id) : t.Built := by
  induction t using Ty.partsRec with
  | step t ih =>
    refine .intro ?_ ?_
    · intro p hp
      exact ih p hp fun id hid => h id (.part hp hid)
    · rintro base predicate placement rfl id hid
      exact h id (.base hid)

theorem Ty.Built.subst (ht : t.Built) (hθ : ∀ id, t.Shows id → (θ id).Built) :
    (t.subst θ).Built := by
  induction t using Ty.partsRec with
  | step t ih =>
    cases hopen : t.openId with
    | some other =>
      cases t with
      | metavar id =>
        rw [Ty.subst_metavar]
        exact hθ id .self
      | _ => exact nomatch hopen
    | none =>
      refine .intro ?_ ?_
      · intro p hp
        rw [Ty.parts_subst hopen] at hp
        obtain ⟨q, hq, rfl⟩ := mem_map.mp hp
        exact ih q hq (ht.of_part hq) fun id hid => hθ id (.part hq hid)
      · intro base predicate placement heq id
        cases t with
        | refinement b p l =>
          rw [Ty.subst_refinement] at heq
          obtain ⟨rfl, rfl, rfl⟩ := Ty.refinement.inj heq
          exact ht.refined id
        | metavar k => exact nomatch hopen
        | _ => simp at heq

end Beagle.Types.Metas
