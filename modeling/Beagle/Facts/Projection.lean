/-
Data and the facts that spell them out.

A datum is what the reader returns: pairs, the empty list, vectors and atoms.  A fact
is a subject, a predicate and an object; the subject is the number of a node, and the
object is a number of a node, a kind or the value of a leaf, which share one type here
as they do in the source.

The children of a node hang off predicates that spell an order key, `f<path>~<tie>`.
`parseOrderSlot` is the one reading of those keys, and `slotKeyLess` their order.

A datum as facts, and facts as a datum.

`walk` numbers the nodes of a datum from the outside in and writes one fact after the
other; the number of a node is the next one free when the walk enters it.  The pairs
of one list are one node, so the walk goes along the tails of a pair by `walkSpine`,
and a tail that is neither a pair nor empty hangs off `tail`.

`build` goes the other way and is the same for facts just written and for facts read
back from text; only the value of a leaf is decoded differently.
-/
import Mathlib

namespace Beagle.Facts

section

/-- A value that is neither a pair nor a vector nor the empty list.  Numbers that are not
exact integers are whatever `ν` is. -/
inductive Atom (ν : Type) where
  | symbol (name : String)
  | string (text : String)
  | keyword (name : String)
  | boolean (value : Bool)
  | char (c : Char)
  | integer (n : Int)
  | number (x : ν)
deriving DecidableEq, Repr

inductive Datum (ν : Type) where
  | null
  | pair (head tail : Datum ν)
  | vector (items : List (Datum ν))
  | atom (a : Atom ν)
deriving Repr

/-- One fact, `(list subj pred obj)`. -/
structure Triple (ν : Type) where
  subj : Int
  pred : String
  obj : Atom ν
deriving DecidableEq, Repr

variable {ν : Type}

/-- The kind of a leaf. -/
def Atom.kind : Atom ν → String
  | .symbol _ => "symbol"
  | .string _ => "string"
  | .keyword _ => "keyword"
  | .boolean _ => "bool"
  | .char _ => "char"
  | .integer _ => "number"
  | .number _ => "number"

/-- `split-improper`: the elements, and the tail, which is empty for a proper list. -/
def splitImproper : Datum ν → List (Datum ν) × Datum ν
  | .pair head tail => (head :: (splitImproper tail).1, (splitImproper tail).2)
  | d => ([], d)

/-- `(foldr cons tail elems)`. -/
def consAll (elems : List (Datum ν)) (tail : Datum ν) : Datum ν := elems.foldr Datum.pair tail

/-- `list->vector`, of a proper list. -/
def listToVector (d : Datum ν) : Option (Datum ν) :=
  match splitImproper d with
  | (items, .null) => some (.vector items)
  | _ => none

/-! ### Order keys -/

/-- `ORD-STEP`. -/
def ordStep : Nat := 65536

/-- `slot-predicate`. -/
def slotPredicate (index : Nat) (child : Int) : String :=
  "f" ++ toString ((index + 1) * ordStep) ++ "~" ++ toString child

/-- What an order slot is sorted by. -/
structure SlotKey where
  path : List Nat
  tie : Nat
deriving DecidableEq, Repr

/-- `[0-9]+`, as a number. -/
def digits (cs : List Char) : Option Nat :=
  if cs ≠ [] ∧ cs.all Char.isDigit = true then some (Nat.ofDigitChars 10 cs 0) else none

/-- `parse-order-slot`, the groups of `^f([0-9]+(?:\.[0-9]+)*)~([0-9]+)$`. -/
def parseOrderSlot (p : String) : Option SlotKey :=
  match p.toList with
  | 'f' :: rest =>
    match rest.dropWhile (· != '~') with
    | _ :: tie =>
      (((rest.takeWhile (· != '~')).splitOn '.').mapM digits).bind fun path =>
        (digits tie).map fun tie => ⟨path, tie⟩
    | [] => none
  | _ => none

/-- `order-slot?`. -/
def isOrderSlot (p : String) : Bool := (parseOrderSlot p).isSome

/-- The loop of `slot-key<?` over the two paths, with the answer for equal paths. -/
def pathLess (onTie : Bool) : List Nat → List Nat → Bool
  | [], [] => onTie
  | [], _ :: _ => true
  | _ :: _, [] => false
  | a :: pa, b :: pb => if a < b then true else if b < a then false else pathLess onTie pa pb

/-- `slot-key<?`. -/
def slotKeyLess (a b : SlotKey) : Bool := pathLess (decide (a.tie < b.tie)) a.path b.path

/-- A predicate that names a child, `ref-pred?`. -/
def isRefPred (p : String) : Bool := p == "tail" || isOrderSlot p

/-! ### Tables of facts -/

/-- The facts of one subject, by predicate. -/
abbrev Node (ν : Type) := AList (fun _ : String => Atom ν)

/-- The facts of every subject. -/
abbrev Props (ν : Type) := AList (fun _ : Int => Node ν)

/-- One fact put into the table; it replaces one with its subject and predicate. -/
def putTriple (props : Props ν) (t : Triple ν) : Props ν :=
  props.insert t.subj (((props.lookup t.subj).getD ∅).insert t.pred t.obj)

/-- `triples->props`. -/
def triplesToProps (triples : List (Triple ν)) : Props ν := triples.foldl putTriple ∅

/-- The order in which a hash table is walked: any order at all. -/
structure HashOrder where
  order : {α : Type} → List α → List α
  perm : ∀ {α : Type} (l : List α), (order l).Perm l

/-- `ordered-slot-children`: what the order slots of a node hold, by key. -/
def orderedSlotChildren (walked : HashOrder) (h : Node ν) : List (Atom ν) :=
  let slots := (walked.order h.entries).filterMap fun e =>
    (parseOrderSlot e.1).map fun key => (key, e.2)
  (slots.insertionSort fun a b => slotKeyLess b.1 a.1 = false).map (·.2)

/-- A node and nothing under it, or a missing one. -/
def Props.node (props : Props ν) (id : Int) : Node ν := (props.lookup id).getD ∅

/-- The object of one fact. -/
def Props.ref (props : Props ν) (id : Int) (p : String) : Option (Atom ν) :=
  (props.node id).lookup p

end

variable {ν : Type}

/-! ### From a datum -/

/-- The `kind` fact of a node. -/
def kindFact (id : Nat) (kind : String) : Triple ν := ⟨id, "kind", .string kind⟩

/-- The fact by which a node holds its child in slot `index`. -/
def slotFact (id index child : Nat) : Triple ν :=
  ⟨id, slotPredicate index child, .integer child⟩

/-- The fact by which a list holds its improper tail. -/
def tailFact (id child : Nat) : Triple ν := ⟨id, "tail", .integer child⟩

/-- The facts of a leaf. -/
def leafFacts (id : Nat) (a : Atom ν) : List (Triple ν) := [kindFact id a.kind, ⟨id, "v", a⟩]

mutual

/-- `walk` of `datum->facts`, from the last number taken: the last number taken after it
and the facts in the order they are written.  The node itself is `n + 1`. -/
def walk (n : Nat) : Datum ν → Nat × List (Triple ν)
  | .null => (n + 1, [kindFact (n + 1) "nil"])
  | .atom a => (n + 1, leafFacts (n + 1) a)
  | .pair head tail =>
    let first := walk (n + 1) head
    let rest := walkSpine (n + 1) 1 first.1 tail
    (rest.1, kindFact (n + 1) "list" :: (first.2 ++ slotFact (n + 1) 0 (n + 2) :: rest.2))
  | .vector items =>
    let rest := walkItems (n + 1) 0 (n + 1) items
    (rest.1, kindFact (n + 1) "vector" :: rest.2)

/-- What follows the first elements of the list `id`. -/
def walkSpine (id index n : Nat) : Datum ν → Nat × List (Triple ν)
  | .null => (n, [])
  | .pair head tail =>
    let first := walk n head
    let rest := walkSpine id (index + 1) first.1 tail
    (rest.1, first.2 ++ slotFact id index (n + 1) :: rest.2)
  | .atom a => (n + 1, leafFacts (n + 1) a ++ [tailFact id (n + 1)])
  | .vector items =>
    let rest := walkItems (n + 1) 0 (n + 1) items
    (rest.1, kindFact (n + 1) "vector" :: rest.2 ++ [tailFact id (n + 1)])

/-- The elements of the vector `id`. -/
def walkItems (id index n : Nat) : List (Datum ν) → Nat × List (Triple ν)
  | [] => (n, [])
  | x :: xs =>
    let first := walk n x
    let rest := walkItems id (index + 1) first.1 xs
    (rest.1, first.2 ++ slotFact id index (n + 1) :: rest.2)

end

/-- `datum->facts`: the root and the facts. -/
def datumToFacts (d : Datum ν) : Int × List (Triple ν) := (1, (walk 0 d).2)

/-- How many nodes a datum has. -/
def nodeCount (d : Datum ν) : Nat := (walk 0 d).1

/-- A list with its elements walked, and the tail after them unless it is empty. -/
def walkTail (id : Nat) (kids : Nat × List (Triple ν)) : Datum ν → Nat × List (Triple ν)
  | .null => kids
  | tail =>
    let last := walk kids.1 tail
    (last.1, kids.2 ++ last.2 ++ [tailFact id (kids.1 + 1)])

/-- `seq!`: the node, its elements in their slots and its tail. -/
def seq (n : Nat) (kind : String) (elems : List (Datum ν)) (tail : Datum ν) :
    Nat × List (Triple ν) :=
  let rest := walkTail (n + 1) (walkItems (n + 1) 0 (n + 1) elems) tail
  (rest.1, kindFact (n + 1) kind :: rest.2)

/-! ### From facts -/

/-- The kinds of leaves. -/
def leafKinds : List String := ["symbol", "string", "keyword", "bool", "char", "number", "other"]

/-- `build`, from the facts of every node.  A missing fact raises, and so does `decode`. -/
def build (walked : HashOrder) (decode : String → Atom ν → Option (Atom ν)) (props : Props ν) :
    Nat → Atom ν → Option (Datum ν)
  | fuel + 1, .integer id => do
      let h ← props.lookup id
      match h.lookup "kind" with
      | some (.string kind) =>
        if kind ∈ leafKinds then
          let v ← h.lookup "v"
          (decode kind v).map Datum.atom
        else if kind = "nil" then
          some .null
        else if kind = "list" ∨ kind = "vector" then
          let elems ← (orderedSlotChildren walked h).mapM (build walked decode props fuel)
          let tail ← match h.lookup "tail" with
            | some t => build walked decode props fuel t
            | none => some .null
          if kind = "vector" then listToVector (consAll elems tail)
          else some (consAll elems tail)
        else none
      | _ => none
  | _, _ => none

/-- `facts->datum`, which takes the value of a leaf as it is. -/
def factsToDatum (walked : HashOrder) (fuel : Nat) (root : Int) (triples : List (Triple ν)) :
    Option (Datum ν) :=
  build walked (fun _ v => some v) (triplesToProps triples) fuel (.integer root)

end Beagle.Facts
