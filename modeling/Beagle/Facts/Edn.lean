/-
Facts as lines of text, and the datum that facts read from text spell.

Every object of a line is a number of a node or a quoted string, so that the value of
a leaf is written as a string whatever its kind; the kind says how to read it back.
The reader below is the part of the Racket reader that such lines need.

A store gives facts back in any order, under new numbers and with facts of its own.
The root is then found by elimination: the one subject that no other names as a child,
the `beagle-file` wrapper before any other.

What a store may do to the facts of a datum.

Nodes get new numbers, and the tie inside an order key may be spelled anew with them.
The store adds facts: positions, types and comments beside a node's own, and whole
nodes left over from bodies that were moved away.  `Beside` says when such facts leave
the datum alone: they take no place that the walk wrote, they do not name the root as
a child, and no other node that is nobody's child is a file wrapper.
-/
import Beagle.Facts.Projection

namespace Beagle.Facts

section

variable {ν : Type}

/-! ### Writing -/

/-- `number->string` and `string->number` on the numbers that are not exact integers. -/
structure Numerals (ν : Type) where
  write : ν → String
  read : String → Option (Int ⊕ ν)

/-- What is written is read back. -/
structure Numerals.ReadsBack (numerals : Numerals ν) : Prop where
  integer : ∀ n : Int, numerals.read (toString n) = some (.inl n)
  number : ∀ x : ν, numerals.read (numerals.write x) = some (.inr x)

/-- One character of `edn-string`. -/
def escapeChar (c : Char) : List Char :=
  if c = '"' then ['\\', '"']
  else if c = '\\' then ['\\', '\\']
  else if c = '\n' then ['\\', 'n']
  else if c = '\r' then ['\\', 'r']
  else if c = '\t' then ['\\', 't']
  else if c.toNat < 32 ∨ c.toNat = 127 then
    '\\' :: 'u' :: List.leftpad 4 '0' (Nat.toDigits 16 c.toNat)
  else [c]

/-- `edn-string`. -/
def ednString (s : String) : List Char := '"' :: s.toList.flatMap escapeChar ++ ['"']

/-- `encode-leaf`. -/
def encodeLeaf (numerals : Numerals ν) (kind : String) (v : Atom ν) : Option String :=
  if kind = "symbol" then
    match v with
    | .symbol name => some name
    | _ => none
  else if kind = "keyword" then
    match v with
    | .keyword name => some name
    | _ => none
  else if kind = "char" then
    match v with
    | .char c => some (String.singleton c)
    | _ => none
  else if kind = "number" then
    match v with
    | .integer n => some (toString n)
    | .number x => some (numerals.write x)
    | _ => none
  else if kind = "bool" then
    match v with
    | .boolean false => some "false"
    | _ => some "true"
  else
    match v with
    | .string text => some text
    | _ => none

/-- `decode-leaf`; a string that is no number reads as `#f`. -/
def decodeLeaf (numerals : Numerals ν) (kind : String) (v : Atom ν) : Option (Atom ν) :=
  if kind = "string" ∨ kind = "other" then some v
  else
    match v with
    | .string s =>
      if kind = "symbol" then some (.symbol s)
      else if kind = "keyword" then some (.keyword s)
      else if kind = "char" then s.toList.head?.map Atom.char
      else if kind = "number" then
        match numerals.read s with
        | some (.inl n) => some (.integer n)
        | some (.inr x) => some (.number x)
        | none => some (.boolean false)
      else if kind = "bool" then some (.boolean (s == "true"))
      else some v
    | _ => none

/-- `~a` of an object. -/
def displayAtom (numerals : Numerals ν) : Atom ν → String
  | .symbol name => name
  | .string text => text
  | .keyword name => "#:" ++ name
  | .boolean value => if value then "#t" else "#f"
  | .char c => String.singleton c
  | .integer n => toString n
  | .number x => numerals.write x

/-- `[subj pred obj]`, with the predicate and the object as they are written. -/
def ednLine (subj : Int) (pred obj : List Char) : String :=
  String.ofList ('[' :: (toString subj).toList ++ ' ' :: pred ++ ' ' :: obj ++ [']'])

/-- The line of one fact, when `kindOf` is the kind of each node. -/
def tripleLine (numerals : Numerals ν) (kindOf : Int → Option (Atom ν)) (t : Triple ν) :
    Option String :=
  if t.pred = "kind" then
    match t.obj with
    | .string kind => some (ednLine t.subj "\"kind\"".toList (ednString kind))
    | _ => none
  else if t.pred = "v" then
    match kindOf t.subj with
    | some (.string kind) =>
      (encodeLeaf numerals kind t.obj).map fun v => ednLine t.subj "\"v\"".toList (ednString v)
    | some _ =>
      (encodeLeaf numerals "other" t.obj).map fun v => ednLine t.subj "\"v\"".toList (ednString v)
    | none => none
  else some (ednLine t.subj (ednString t.pred) (displayAtom numerals t.obj).toList)

/-- The kinds of the nodes, as the lines are written: the last `kind` fact of each. -/
def kindOf (triples : List (Triple ν)) (id : Int) : Option (Atom ν) :=
  (triples.reverse.find? fun t => t.pred == "kind" && t.subj == id).map (·.obj)

/-- `triples->edn-lines`. -/
def triplesToEdnLines (numerals : Numerals ν) (triples : List (Triple ν)) : Option (List String) :=
  triples.mapM (tripleLine numerals (kindOf triples))

/-- `datum->edn-lines`. -/
def datumToEdnLines (numerals : Numerals ν) (d : Datum ν) : Option (List String) :=
  triplesToEdnLines numerals (datumToFacts d).2

/-! ### Reading -/

/-- A hexadecimal digit. -/
def hexDigit (c : Char) : Option Nat :=
  if c.isDigit then some (c.toNat - '0'.toNat)
  else if 'a' ≤ c ∧ c ≤ 'f' then some (c.toNat - 'a'.toNat + 10)
  else if 'A' ≤ c ∧ c ≤ 'F' then some (c.toNat - 'A'.toNat + 10)
  else none

/-- At most `most` hexadecimal digits: what they spell and what follows. -/
def hexDigits : Nat → Nat → List Char → Nat × List Char
  | most + 1, value, c :: rest =>
    match hexDigit c with
    | some digit => hexDigits most (value * 16 + digit) rest
    | none => (value, c :: rest)
  | _, value, rest => (value, rest)

/-- The character that `\u` and its digits stand for, and what follows. -/
def readHex (rest : List Char) : Option (Char × List Char) :=
  let read := hexDigits 4 0 rest
  if read.2.length < rest.length ∧ read.1.isValidChar then some (Char.ofNat read.1, read.2)
  else none

/-- The character a backslash and a letter stand for. -/
def simpleEscape (c : Char) : Option Char :=
  if c = 'n' then some '\n'
  else if c = 'r' then some '\r'
  else if c = 't' then some '\t'
  else if c = '\\' ∨ c = '"' then some c
  else none

/-- One character of a string, and what follows. -/
def readChar : List Char → Option (Char × List Char)
  | [] => none
  | c :: rest =>
    if c = '\\' then
      match rest with
      | [] => none
      | e :: rest => if e = 'u' then readHex rest else (simpleEscape e).map fun c => (c, rest)
    else some (c, rest)

/-- The characters of a string up to its closing quote, and what follows. -/
def readString : Nat → List Char → Option (List Char × List Char)
  | fuel + 1, c :: rest =>
    if c = '"' then some ([], rest)
    else
      (readChar (c :: rest)).bind fun first =>
        (readString fuel first.2).map fun others => (first.1 :: others.1, others.2)
  | _, _ => none

/-- An exact integer. -/
def readInteger : List Char → Option Int
  | '-' :: cs => (digits cs).map fun n => -(n : Int)
  | cs => (digits cs).map fun n => (n : Int)

/-- What ends an integer inside a line. -/
def isDelimiter (c : Char) : Bool := c == ' ' || c == ']'

/-- A string or an integer, and what follows. -/
def readAtom : List Char → Option (Atom ν × List Char)
  | [] => none
  | c :: rest =>
    if c = '"' then
      (readString (rest.length + 1) rest).map fun read => (.string (String.ofList read.1), read.2)
    else
      (readInteger ((c :: rest).takeWhile fun c => !isDelimiter c)).map fun n =>
        (.integer n, (c :: rest).dropWhile fun c => !isDelimiter c)

/-- One line: `[`, a subject, a predicate and an object. -/
def readTriple (line : String) : Option (Triple ν) :=
  match line.toList with
  | '[' :: cs =>
    match (readAtom cs : Option (Atom ν × List Char)) with
    | some (.integer subj, ' ' :: cs) =>
      match (readAtom cs : Option (Atom ν × List Char)) with
      | some (.string pred, ' ' :: cs) =>
        match (readAtom cs : Option (Atom ν × List Char)) with
        | some (obj, ']' :: _) => some ⟨subj, pred, obj⟩
        | _ => none
      | _ => none
    | _ => none
  | _ => none

/-- `read-edn-triples`, on the lines of a file: those that open with a bracket. -/
def readEdnTriples (lines : List String) : Option (List (Triple ν)) :=
  (lines.filter fun line => line.toList.head? == some '[').mapM readTriple

/-! ### The root -/

/-- `beagle-file-wrapper?`. -/
def isBeagleFileWrapper [DecidableEq ν] (walked : HashOrder) (props : Props ν) (id : Int) : Bool :=
  match orderedSlotChildren walked (props.node id) with
  | .integer head :: _ => props.ref head "v" == some (.string "beagle-file")
  | _ => false

/-- Is `id` a child of some node? -/
def isReferenced [DecidableEq ν] (props : Props ν) (id : Int) : Bool :=
  props.entries.any fun node =>
    node.2.entries.any fun e => isRefPred e.1 && e.2 == .integer id

/-- `edn-root`: a subject that is no child, a wrapper before a list or a vector before any. -/
def ednRoot [DecidableEq ν] (walked : HashOrder) (props : Props ν) : Option Int :=
  let cands := (walked.order props.keys).filter fun id => !isReferenced props id
  (cands.find? (isBeagleFileWrapper walked props)).or ((cands.find? fun id =>
      props.ref id "kind" == some (.string "list") ||
        props.ref id "kind" == some (.string "vector")).or cands.head?)

/-- `edn-triples->datum`. -/
def ednTriplesToDatum [DecidableEq ν] (walked : HashOrder) (numerals : Numerals ν) (fuel : Nat)
    (triples : List (Triple ν)) : Option (Datum ν) :=
  let props := triplesToProps triples
  (ednRoot walked props).bind fun root =>
    build walked (decodeLeaf numerals) props fuel (.integer root)

end

variable {ν : Type}

/-- The form in which a file is kept, `(beagle-file form ...)`. -/
def wrap (forms : Datum ν) : Datum ν := .pair (.atom (.symbol "beagle-file")) forms

/-- A predicate with the tie of its order key put through `τ`. -/
def retie (τ : Nat → Nat) (p : String) : String :=
  match parseOrderSlot p with
  | some key => "f" ++ ".".intercalate (key.path.map toString) ++ "~" ++ toString (τ key.tie)
  | none => p

/-- The number of a node put through `ρ`. -/
def renumber (ρ : Int → Int) : Atom ν → Atom ν
  | .integer id => .integer (ρ id)
  | a => a

/-- A fact under new numbers. -/
def rename (ρ : Int → Int) (τ : Nat → Nat) (t : Triple ν) : Triple ν :=
  ⟨ρ t.subj, retie τ t.pred, if isRefPred t.pred then renumber ρ t.obj else t.obj⟩

/-- A predicate that a node's datum is built from. -/
def isStructural (p : String) : Bool := p == "kind" || p == "v" || isRefPred p

/-- `stored` holds the facts `live` and others, and the others leave the datum at `root` alone. -/
structure Beside [DecidableEq ν] (walked : HashOrder) (live extra stored : List (Triple ν))
    (root : Int) : Prop where
  perm : stored.Perm (live ++ extra)
  apart : ∀ e ∈ extra, (∃ t ∈ live, t.subj = e.subj) → isStructural e.pred = false
  rootFree : ∀ e ∈ extra, isRefPred e.pred = true → e.obj ≠ .integer root
  oneWrapper : ∀ id, (∀ t ∈ live, t.subj ≠ id) → isReferenced (triplesToProps stored) id = false →
    isBeagleFileWrapper walked (triplesToProps stored) id = false

end Beagle.Facts
