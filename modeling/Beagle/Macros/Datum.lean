/-
Datums and syntax values.

The macro evaluator and the expander pass one kind of value to and fro: trees of pairs over symbols
and literals, in which a syntax value may stand for a whole subtree.
-/
import Mathlib

namespace Beagle.Macros

/-! ### Tags -/

def bracketTag : String := "#%brackets"
def mapTag : String := "#%map"
def setTag : String := "#%set"

/-! ### Names -/

structure StructuralName where
  qualifier : Option String
  leaf : String
deriving DecidableEq, Repr

def structuralNameToSymbol (name : StructuralName) : String :=
  match name.qualifier with
  | some qualifier => qualifier ++ "/" ++ name.leaf
  | none => name.leaf

/-- A spelling is cut at its first slash, where something stands on either side of it. -/
def symbolToStructuralName (spelling : String) : StructuralName :=
  let front := spelling.toList.takeWhile (· != '/')
  let back := (spelling.toList.dropWhile (· != '/')).tail
  if front ≠ [] ∧ back ≠ [] then ⟨some (String.ofList front), String.ofList back⟩
  else ⟨none, spelling⟩

def syntaxKeywordSymbol (spelling : String) : Bool := spelling.toList.head? == some ':'

/-- **A name is spelled as the symbol it was read from.** -/
@[simp] theorem structuralNameToSymbol_symbol (spelling : String) :
    structuralNameToSymbol (symbolToStructuralName spelling) = spelling := by
  unfold symbolToStructuralName
  dsimp only
  split
  · next h =>
    have hw := List.takeWhile_append_dropWhile (p := (· != '/')) (l := spelling.toList)
    cases hb : spelling.toList.dropWhile (· != '/') with
    | nil => simp [hb] at h
    | cons s b =>
      have hs : s = '/' := by
        have hh := List.head?_dropWhile_not (· != '/') spelling.toList
        simpa [hb] using hh
      rw [hb, hs] at hw
      apply String.toList_injective
      simpa [structuralNameToSymbol] using hw
  · rfl

/-! ### Values -/

mutual

/-- A value of the evaluator over literals `ℓ`. What a syntax value says of its place (span, scopes,
origin and properties) is its context `κ`. -/
inductive Datum (ℓ κ : Type) where
  | null
  | symbol (spelling : String)
  | literal (value : ℓ)
  | pair (first rest : Datum ℓ κ)
  | embedded (value : BeagleSyntax ℓ κ)

inductive BeagleSyntax (ℓ κ : Type) where
  | atom (datum : Datum ℓ κ) (context : κ)
  | ident (name : StructuralName) (context : κ)
  | list (children : List (BeagleSyntax ℓ κ)) (context : κ)
  | vector (children : List (BeagleSyntax ℓ κ)) (context : κ)
  | quote (datum : Datum ℓ κ) (context : κ)
  | unquote (child : BeagleSyntax ℓ κ) (splicing : Bool) (context : κ)

end

variable {ℓ κ : Type}

namespace Datum

def isSymbol (spelling : String) : Datum ℓ κ → Bool
  | symbol other => other == spelling
  | _ => false

/-- A proper list. -/
def isList : Datum ℓ κ → Bool
  | null => true
  | pair _ rest => rest.isList
  | _ => false

/-- The list of one form under a name, as the reader makes it of its prefixes. -/
def prefixed (name : String) (datum : Datum ℓ κ) : Datum ℓ κ :=
  pair (symbol name) (pair datum null)

@[simp] theorem isSymbol_symbol (spelling other : String) :
    (symbol other : Datum ℓ κ).isSymbol spelling = (other == spelling) := rfl

theorem eq_of_isSymbol {d : Datum ℓ κ} {spelling : String}
    (h : d.isSymbol spelling = true) : d = symbol spelling := by
  cases d with
  | symbol o => rw [beq_iff_eq.mp h]
  | _ => simp [isSymbol] at h

end Datum

/-! ### From datums to syntax values and back -/

/-- A pair that is no quote or unquote: a vector, a list or, where it is no proper list, an atom. No
value stands for the error that a bracket without a proper list raises. -/
def sequenceToSyntax (context : κ) (first rest : Datum ℓ κ) (child : Option (BeagleSyntax ℓ κ))
    (children : Option (List (BeagleSyntax ℓ κ))) : Option (BeagleSyntax ℓ κ) :=
  if first.isSymbol bracketTag then children.map (.vector · context)
  else if rest.isList then do some (.list ((← child) :: (← children)) context)
  else some (.atom (.pair first rest) context)

mutual

def datumToSyntax (context : κ) : Datum ℓ κ → Option (BeagleSyntax ℓ κ)
  | .embedded value => some value
  | .symbol spelling =>
    some (if syntaxKeywordSymbol spelling then .atom (.symbol spelling) context
      else .ident (symbolToStructuralName spelling) context)
  | .null => some (.list [] context)
  | .literal value => some (.atom (.literal value) context)
  | .pair first rest =>
    let sequence := sequenceToSyntax context first rest (datumToSyntax context first)
      (datumChildren context rest)
    match rest with
    | .pair datum .null =>
      if first.isSymbol "quote" then some (.quote datum context)
      else if first.isSymbol "unquote" || first.isSymbol "unquote-splicing" then
        (datumToSyntax context datum).map (.unquote · (first.isSymbol "unquote-splicing") context)
      else sequence
    | _ => sequence

def datumChildren (context : κ) : Datum ℓ κ → Option (List (BeagleSyntax ℓ κ))
  | .null => some []
  | .pair first rest => do some ((← datumToSyntax context first) :: (← datumChildren context rest))
  | _ => none

end

mutual

def syntaxToDatum : BeagleSyntax ℓ κ → Datum ℓ κ
  | .atom datum _ => datum
  | .ident name _ => .symbol (structuralNameToSymbol name)
  | .list children _ => childrenToDatum children
  | .vector children _ => .pair (.symbol bracketTag) (childrenToDatum children)
  | .quote datum _ => .prefixed "quote" datum
  | .unquote child splicing _ =>
    .prefixed (if splicing then "unquote-splicing" else "unquote") (syntaxToDatum child)

def childrenToDatum : List (BeagleSyntax ℓ κ) → Datum ℓ κ
  | [] => .null
  | child :: children => .pair (syntaxToDatum child) (childrenToDatum children)

end

end Beagle.Macros
