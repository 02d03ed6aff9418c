/-
Slot tables over an append-only row list, and the cells that hold them.

A slot table is a vector of cells.  Forked stores keep the same table, so a table
lives in a heap and a store names it by its address; putting a position into a
slot is seen by everybody who has the address.  A table is never rebound: growth
allocates a fresh one, and only the store that grew learns its address.

The hash of a row or a handle is the language's `hash`, taken as given: what is
relied on is that it agrees with `=`.

The term store: Terms interned as rows.

A store is a record of cells with one owner.  Here a `Root` is that owner's view,
the heap of slot tables beside the contents of the store's own cells, and every
function takes a `Root` to the one it leaves behind.  The slot tables are the only
cells two stores can share, so they are the only ones kept apart from the record.

Handles are tagged integers: an even handle is twice an atom row's position, an
odd one is twice a triple row's position and one more.
-/
import Beagle.Lib.KeyIndex
import Beagle.Store.Types

namespace Beagle.Store

open Beagle.Lib

/-- `hash` on the three kinds of key; equal atom rows hash alike. -/
structure Hashing where
  atomRow : AtomRow → Nat
  tripleRow : TripleRow → Nat
  handle : Int → Nat
  atomRow_same : ∀ a b : AtomRow, a.same b = true → atomRow a = atomRow b

/-! ### A hash that satisfies the law -/

/-- One byte of the FNV-1a hash the runtime computes. -/
def fnvByte (state : UInt64) (byte : UInt8) : UInt64 :=
  (state ^^^ byte.toUInt64) * 1099511628211

def fnvBytes (state : UInt64) (bytes : List UInt8) : UInt64 := bytes.foldl fnvByte state

/-- A word, low byte first. -/
def fnvWord (state : UInt64) (word : BitVec 64) : UInt64 :=
  fnvBytes state ((List.range 8).map fun i => UInt8.ofBitVec (word.extractLsb' (8 * i) 8))

def fnvText (state : UInt64) (text : String) : UInt64 :=
  fnvBytes (fnvWord state (.ofNat 64 text.utf8ByteSize)) text.toUTF8.toList

/-- The bits a double is hashed by: the two zeros hash alike. -/
def Float64.hashBits (f : Float64) : BitVec 64 := if f.isZero then 0#64 else f.bits

def AtomKind.spelling : AtomKind → String
  | .string => "string"
  | .int => "int"
  | .float => "float"
  | .bool => "bool"
  | .keyword => "keyword"
  | .instant => "instant"
  | .other kind => kind.spelling

def fnvOption {α : Type} (hash : UInt64 → α → UInt64) (state : UInt64) : Option α → UInt64
  | none => fnvWord state 0#64
  | some value => hash (fnvWord state 1#64) value

def fnvAtomRow (row : AtomRow) : UInt64 :=
  let state := fnvText 14695981039346656037 row.kind.spelling
  let state := fnvOption fnvText state row.stringValue
  let state := fnvOption (fun s n => fnvWord s n.toBitVec) state row.intValue
  let state := fnvOption fnvWord state (row.floatValue.map Float64.hashBits)
  let state := fnvOption (fun s b => fnvWord s (if b then 1#64 else 0#64)) state row.boolValue
  let state := fnvOption (fun s k => fnvText s k.spelling) state row.keywordValue
  fnvOption (fun s at_ => fnvWord (fnvWord s at_.epochSeconds.toBitVec) (.ofNat 64 at_.nanos)) state
    row.instantValue

theorem Float64.hashBits_same {a b : Float64} (h : a.same b = true) : a.hashBits = b.hashBits := by
  obtain ⟨-, -, heq | ⟨ha, hb⟩⟩ := Float64.same_iff.mp h
  · unfold Float64.hashBits Float64.isZero
    rw [heq]
  · unfold Float64.hashBits
    rw [if_pos ha, if_pos hb]

theorem sameFloat?_hashBits {a b : Option Float64} (h : sameFloat? a b = true) :
    a.map Float64.hashBits = b.map Float64.hashBits := by
  cases a <;> cases b <;> simp_all [sameFloat?]
  exact Float64.hashBits_same h

/-- FNV-1a over the fields of a row, as the runtime hashes a record, cut to 63 bits. -/
def Hashing.fnv : Hashing where
  atomRow row := (fnvAtomRow row).toNat % 2 ^ 63
  tripleRow row :=
    (fnvWord (fnvWord (fnvWord 14695981039346656037 (.ofInt 64 row.t1)) (.ofInt 64 row.t2))
      (.ofInt 64 row.t3)).toNat % 2 ^ 63
  handle h := (fnvWord 14695981039346656037 (.ofInt 64 h)).toNat % 2 ^ 63
  atomRow_same a b h := by
    obtain ⟨h1, h2, h3, h4, h5, h6, h7⟩ := AtomRow.same_iff.mp h
    simp only [fnvAtomRow, h1, h2, h3, sameFloat?_hashBits h4, h5, h6, h7]

/-! ### Keys -/

/-- Atom rows keyed by `=`. -/
def Hashing.atomKeys (H : Hashing) : Keying AtomRow where
  same := AtomRow.same
  hash := H.atomRow
  symm _ _ := AtomRow.same_symm
  trans _ _ _ := AtomRow.same_trans
  hash_eq := H.atomRow_same

/-- Triple rows are records of handles: `=` on them is equality. -/
def Hashing.tripleKeys (H : Hashing) : Keying TripleRow := Keying.ofEq H.tripleRow

def Hashing.handleKeys (H : Hashing) : Keying Int := Keying.ofEq H.handle

abbrev TermSlots := List (List Nat)

/-- The heap the slot tables live in. -/
abbrev SlotCells := List TermSlots

namespace SlotCells

/-- The table at an address. -/
def table (cells : SlotCells) (address : Nat) : TermSlots := cells.getD address []

/-- `slot-add!`. -/
def slotAdd (cells : SlotCells) (address slot position : Nat) : SlotCells :=
  cells.modify address fun table => KeyIndex.add table slot position

end SlotCells

/-- `fresh-slots`. -/
def freshSlots (width : Nat) : TermSlots := List.replicate width []

def initialSlots : Nat := 64
def slotLoad : Nat := 4

/-- Double a width until it is enough for `n` rows; the first argument bounds the doublings. -/
def widenFor (n : Nat) : Nat → Nat → Nat
  | 0, width => width
  | fuel + 1, width => if slotLoad * width ≥ n then width else widenFor n fuel (2 * width)

/-- `term-slots-width-for`. -/
def termSlotsWidthFor (n : Nat) : Nat := widenFor n n initialSlots

/-- `build-atom-term-slots!`, `build-triple-term-slots!` and `build-active-slots!`. -/
def buildSlots {κ : Type} (K : Keying κ) (keys : List κ) (width : Nat) : TermSlots :=
  KeyIndex.fillFrom K width keys 0 (freshSlots width)

/-- How a call ends when it does not return. -/
inductive Fault where
  /-- An exception with its message. -/
  | thrown (message : String)
  /-- A machine trap: integer overflow or an exhausted stack. -/
  | trap
deriving DecidableEq, Repr

/-- The contents of a store's cells; the slot tables are named by address. -/
structure TermStore where
  spaceId : String
  nextSequence : Int
  atoms : List AtomRow
  triples : List TripleRow
  transactions : List TransactionRow
  operations : List OperationRow
  withdrawalTargets : List (Option Nat)
  activeBuckets : List ActiveBucket
  activeCells : List (List Nat)
  foldOpen : Bool
  atomSlots : Nat
  tripleSlots : Nat
  activeSlots : Nat
deriving DecidableEq, Repr

/-- One owner's view: the heap of slot tables and the store. -/
structure Root where
  cells : SlotCells
  store : TermStore
deriving DecidableEq, Repr

namespace Root

def atomTable (root : Root) : TermSlots := root.cells.table root.store.atomSlots
def tripleTable (root : Root) : TermSlots := root.cells.table root.store.tripleSlots
def activeTable (root : Root) : TermSlots := root.cells.table root.store.activeSlots

end Root

def validSpaceId (spaceId : String) : Bool := spaceId ≠ ""

/-- `new-term-store-sized`: three fresh tables in the heap and empty rows beside them. -/
def newTermStoreSized (cells : SlotCells) (spaceId : String)
    (expectedAtoms expectedTriples expectedBuckets : Nat) : Except Fault Root :=
  if validSpaceId spaceId then
    .ok
      { cells := cells ++
          [freshSlots (termSlotsWidthFor expectedAtoms),
            freshSlots (termSlotsWidthFor expectedTriples),
            freshSlots (termSlotsWidthFor expectedBuckets)]
        store :=
          { spaceId, nextSequence := 1, atoms := [], triples := [], transactions := []
            operations := [], withdrawalTargets := [], activeBuckets := [], activeCells := []
            foldOpen := false, atomSlots := cells.length, tripleSlots := cells.length + 1
            activeSlots := cells.length + 2 } }
  else .error (.thrown "store: TermStore requires a non-empty SpaceId")

def newTermStore (spaceId : String) : Except Fault Root := newTermStoreSized [] spaceId 0 0 0

def newTermStoreForLog (spaceId : String) (logBytes : Nat) : Except Fault Root :=
  newTermStoreSized [] spaceId (logBytes / 64) (logBytes / 32) (logBytes / 128)

/-- `fork-state`: fresh cells over the same values.  The slot tables stay shared, so the fork
    holds their addresses; the positions of an open fold are copied cell by cell. -/
def forkState (store : TermStore) : TermStore :=
  { spaceId := store.spaceId
    nextSequence := store.nextSequence
    atoms := store.atoms
    triples := store.triples
    transactions := store.transactions
    operations := store.operations
    withdrawalTargets := store.withdrawalTargets
    activeBuckets := store.activeBuckets
    activeCells := store.activeCells
    foldOpen := store.foldOpen
    atomSlots := store.atomSlots
    tripleSlots := store.tripleSlots
    activeSlots := store.activeSlots }

def currentSequence (store : TermStore) : Int := store.nextSequence - 1

/-! ### Atom rows -/

def atomRow : AtomValue → AtomRow
  | .string value => ⟨.string, some value, none, none, none, none, none⟩
  | .int value => ⟨.int, none, some value, none, none, none, none⟩
  | .float value => ⟨.float, none, none, some value, none, none, none⟩
  | .bool value => ⟨.bool, none, none, none, some value, none, none⟩
  | .keyword value => ⟨.keyword, none, none, none, none, some value, none⟩
  | .instant value => ⟨.instant, none, none, none, none, none, some value⟩

def atomRowValue (row : AtomRow) : Option AtomValue :=
  match row.kind with
  | .string => row.stringValue.map .string
  | .int => row.intValue.map .int
  | .float => row.floatValue.map .float
  | .bool => row.boolValue.map .bool
  | .keyword => row.keywordValue.map .keyword
  | .instant => row.instantValue.map .instant
  | .other _ => none

/-- A row is valid when it equals the row of its own value; a NaN row never does. -/
def validAtomRow (row : AtomRow) : Bool :=
  match atomRowValue row with
  | some value => row.same (atomRow value)
  | none => false

/-! ### Handles -/

def atomHandle (position : Nat) : Int := 2 * position
def tripleHandle (position : Nat) : Int := 2 * position + 1
def isAtomHandle (handle : Int) : Bool := handle % 2 == 0

/-- `handle-position`; it is asked of non-negative handles only. -/
def handlePosition (handle : Int) : Nat := (handle / 2).toNat

def tripleHandleShape (handle : Int) : Bool := 0 ≤ handle ∧ handle % 2 = 1

def validHandle (store : TermStore) (handle : Int) : Bool :=
  0 ≤ handle ∧
    if isAtomHandle handle then handlePosition handle < store.atoms.length
    else handlePosition handle < store.triples.length

section

variable (H : Hashing)

/-! ### Interning -/

def findAtomPosition (rows : List AtomRow) (slots : TermSlots) (value : AtomRow) : Option Nat :=
  KeyIndex.probe H.atomKeys rows (KeyIndex.slotFor H.atomKeys slots value) value

def findTriplePosition (rows : List TripleRow) (slots : TermSlots) (value : TripleRow) :
    Option Nat :=
  KeyIndex.probe H.tripleKeys rows (KeyIndex.slotFor H.tripleKeys slots value) value

/-- Put the new row's position into its slot; past four rows a slot, rebuild at twice the
    width. -/
def indexAtomTerm (root : Root) (value : AtomRow) (position : Nat) : Root :=
  let width := root.atomTable.length
  let cells := root.cells.slotAdd root.store.atomSlots (H.atomRow value % width) position
  if root.store.atoms.length > slotLoad * width then
    { cells := cells ++ [buildSlots H.atomKeys root.store.atoms (2 * width)]
      store := { root.store with atomSlots := cells.length } }
  else { root with cells }

def indexTripleTerm (root : Root) (value : TripleRow) (position : Nat) : Root :=
  let width := root.tripleTable.length
  let cells := root.cells.slotAdd root.store.tripleSlots (H.tripleRow value % width) position
  if root.store.triples.length > slotLoad * width then
    { cells := cells ++ [buildSlots H.tripleKeys root.store.triples (2 * width)]
      store := { root.store with tripleSlots := cells.length } }
  else { root with cells }

/-- The atom arm of `intern-handle!`. -/
def internAtomRow (root : Root) (value : AtomRow) : Root × Int :=
  match findAtomPosition H root.store.atoms root.atomTable value with
  | some known => (root, atomHandle known)
  | none =>
    let position := root.store.atoms.length
    let store := { root.store with atoms := root.store.atoms ++ [value] }
    (indexAtomTerm H { root with store } value position, atomHandle position)

/-- The triple arm of `intern-handle!`, after the three components. -/
def internTripleRow (root : Root) (value : TripleRow) : Root × Int :=
  match findTriplePosition H root.store.triples root.tripleTable value with
  | some known => (root, tripleHandle known)
  | none =>
    let position := root.store.triples.length
    let store := { root.store with triples := root.store.triples ++ [value] }
    (indexTripleTerm H { root with store } value position, tripleHandle position)

def internHandle (root : Root) : Term → Root × Int
  | .atom value => internAtomRow H root (atomRow value)
  | .triple t1 t2 t3 =>
    let r1 := internHandle root t1
    let r2 := internHandle r1.1 t2
    let r3 := internHandle r2.1 t3
    internTripleRow H r3.1 ⟨r1.2, r2.2, r3.2⟩

def internAtomHandle (root : Root) (value : AtomValue) : Root × Int :=
  internAtomRow H root (atomRow value)

def internTripleHandle (root : Root) (t1 t2 t3 : Int) : Except Fault (Root × Int) :=
  if validHandle root.store t1 && (validHandle root.store t2 && validHandle root.store t3) then
    .ok (internTripleRow H root ⟨t1, t2, t3⟩)
  else .error (.thrown "store: term handle does not resolve")

/-- `known-term-handle`: the handle of a Term whose rows are all there. -/
def knownTermHandle (root : Root) : Term → Option Int
  | .atom value =>
    (findAtomPosition H root.store.atoms root.atomTable (atomRow value)).map atomHandle
  | .triple t1 t2 t3 =>
    match knownTermHandle root t1, knownTermHandle root t2, knownTermHandle root t3 with
    | some h1, some h2, some h3 =>
      (findTriplePosition H root.store.triples root.tripleTable ⟨h1, h2, h3⟩).map tripleHandle
    | _, _, _ => none

end

/-! ### Resolving -/

/-- `resolve-handle`.  A row names earlier rows, so the row count bounds the descent; the first
    argument is what is left of it. -/
def resolveWithin (store : TermStore) : Nat → Int → Except Fault Term
  | 0, _ => .error .trap
  | fuel + 1, handle =>
    if !validHandle store handle then .error (.thrown "store: term handle does not resolve")
    else if isAtomHandle handle then
      match store.atoms[handlePosition handle]?.bind atomRowValue with
      | some value => .ok (.atom value)
      | none => .error (.thrown "store: triple contains a value outside Term")
    else
      match store.triples[handlePosition handle]? with
      | some row => do
          let t1 ← resolveWithin store fuel row.t1
          let t2 ← resolveWithin store fuel row.t2
          let t3 ← resolveWithin store fuel row.t3
          .ok (.triple t1 t2 t3)
      | none => .error (.thrown "store: term handle does not resolve")

def resolveHandle (store : TermStore) (handle : Int) : Except Fault Term :=
  resolveWithin store (store.triples.length + 1) handle

def resolveTripleHandle (store : TermStore) (handle : Int) : Except Fault Triple := do
  let term ← resolveHandle store handle
  match termAsTriple term with
  | some triple => .ok triple
  | none => .error (.thrown "store: operation handle does not resolve to Triple")

end Beagle.Store
