/-
The cache of ordered results.

A session keeps the rows of its last queries, scans and lists of occurrences, under the snapshot of
the store they were read from, the operation and the digest of the request.  Entries and snapshots
stand from the least to the most recently used.  An entry that is retained may push out entries of
its own snapshot, whole snapshots, and entries of any snapshot until the bytes fit.
-/
import Beagle.Lib.Draining
import Beagle.Store.CodecCells
import Beagle.Store.Leases

namespace Beagle.Store

open Beagle.Lib List

def resultCacheSnapshotLimit : Nat := 4
def resultCachePerSnapshotLimit : Nat := 8
def resultCacheByteLimit : Int := 67108864

structure OrderedResultSnapshot where
  space : String
  version : Int
  lowerExclusive : Int
deriving DecidableEq, Repr

structure OrderedResultKey where
  snapshot : OrderedResultSnapshot
  operation : Keyword
  digest : String
deriving DecidableEq, Repr

structure OrderedResultEntry where
  key : OrderedResultKey
  queryRows : List (List Term)
  tripleRows : List Triple
  bytes : Int
deriving DecidableEq, Repr

structure OrderedResultCache where
  entries : List OrderedResultEntry
  snapshots : List OrderedResultSnapshot
  bytes : Int
  hits : Nat
  misses : Nat
  evictions : Nat
deriving DecidableEq, Repr

def emptyOrderedResultCache : OrderedResultCache := ⟨[], [], 0, 0, 0, 0⟩

structure ResultCacheLookup where
  found : Bool
  queryRows : List (List Term)
  tripleRows : List Triple
deriving DecidableEq, Repr

/-- The cells of a session that the cache is in. -/
structure ResultCells where
  orderedResults : OrderedResultCache
  derivedGeneration : Nat
deriving DecidableEq, Repr

/-- The cells of a fresh session. -/
def ResultCells.fresh : ResultCells := ⟨emptyOrderedResultCache, 0⟩

/-! ### Keys and snapshots -/

def resultSnapshotEqual (left right : OrderedResultSnapshot) : Bool :=
  left.space == right.space &&
    (left.version == right.version && left.lowerExclusive == right.lowerExclusive)

def resultKeyEqual (left right : OrderedResultKey) : Bool :=
  resultSnapshotEqual left.snapshot right.snapshot &&
    (left.operation == right.operation && left.digest == right.digest)

@[simp] theorem resultSnapshotEqual_iff {l right : OrderedResultSnapshot} :
    resultSnapshotEqual l right = true ↔ l = right := by
  cases l
  cases right
  simp [resultSnapshotEqual]

@[simp] theorem resultKeyEqual_iff {l right : OrderedResultKey} :
    resultKeyEqual l right = true ↔ l = right := by
  cases l
  cases right
  simp [resultKeyEqual]

def removeResultSnapshot (values : List OrderedResultSnapshot) (target : OrderedResultSnapshot) :
    List OrderedResultSnapshot := values.filter fun value => !resultSnapshotEqual value target

def removeResultEntryAt (values : List OrderedResultEntry) (targetIndex : Nat) :
    List OrderedResultEntry := values.eraseIdx targetIndex

/-- Is the entry of this snapshot? -/
def ofSnapshot (snapshot : OrderedResultSnapshot) (entry : OrderedResultEntry) : Bool :=
  resultSnapshotEqual snapshot entry.key.snapshot

def resultSnapshotPresent (entries : List OrderedResultEntry) (snapshot : OrderedResultSnapshot) :
    Bool := entries.any (ofSnapshot snapshot)

def resultEntryIndex (entries : List OrderedResultEntry) (key : OrderedResultKey) :
    Option (Fin entries.length) := entries.findFinIdx? fun entry => resultKeyEqual key entry.key

def snapshotEntryCount (entries : List OrderedResultEntry) (snapshot : OrderedResultSnapshot) :
    Nat := entries.countP (ofSnapshot snapshot)

def firstSnapshotEntryIndex (entries : List OrderedResultEntry)
    (snapshot : OrderedResultSnapshot) : Option (Fin entries.length) :=
  entries.findFinIdx? (ofSnapshot snapshot)

/-! ### One entry -/

def removeResultEntry (state : OrderedResultCache) (index : Fin state.entries.length) :
    OrderedResultCache :=
  let entry := state.entries[index]
  let remaining := removeResultEntryAt state.entries index
  let snapshot := entry.key.snapshot
  { state with
    entries := remaining
    snapshots := if resultSnapshotPresent remaining snapshot then state.snapshots
      else removeResultSnapshot state.snapshots snapshot
    bytes := state.bytes - entry.bytes
    evictions := state.evictions + 1 }

def touchResultEntry (state : OrderedResultCache) (index : Fin state.entries.length) :
    OrderedResultCache :=
  let entry := state.entries[index]
  let snapshot := entry.key.snapshot
  { state with
    entries := removeResultEntryAt state.entries index ++ [entry]
    snapshots := removeResultSnapshot state.snapshots snapshot ++ [snapshot] }

def countResultCacheHit (state : OrderedResultCache) : OrderedResultCache :=
  { state with hits := state.hits + 1 }

def countResultCacheMiss (state : OrderedResultCache) : OrderedResultCache :=
  { state with misses := state.misses + 1 }

def appendResultEntry (state : OrderedResultCache) (entry : OrderedResultEntry) :
    OrderedResultCache :=
  let snapshot := entry.key.snapshot
  { state with
    entries := state.entries ++ [entry]
    snapshots := removeResultSnapshot state.snapshots snapshot ++ [snapshot]
    bytes := state.bytes + entry.bytes }

def withoutResultSnapshot (state : OrderedResultCache) (snapshot : OrderedResultSnapshot) :
    OrderedResultCache :=
  { state with snapshots := removeResultSnapshot state.snapshots snapshot }

/-! ### Evictions -/

theorem length_removeResultEntry (s : OrderedResultCache) (i : Fin s.entries.length) :
    (removeResultEntry s i).entries.length + 1 = s.entries.length := by
  have hlt := i.isLt
  simp only [removeResultEntry, removeResultEntryAt, length_eraseIdx_of_lt hlt]
  omega

variable {snapshot : OrderedResultSnapshot}

theorem firstSnapshotEntryIndex_isSome {es : List OrderedResultEntry}
    (h : 0 < snapshotEntryCount es snapshot) :
    (firstSnapshotEntryIndex es snapshot).isSome = true := by
  obtain ⟨e, hmem, hent⟩ := countP_pos_iff.mp h
  rw [firstSnapshotEntryIndex, isSome_findFinIdx?, any_eq_true]
  exact ⟨e, hmem, hent⟩

/-- The first entry of a snapshot that has too many goes. -/
def entryLimitDrain (snapshot : OrderedResultSnapshot) : Drain OrderedResultCache where
  busy bounded := decide (resultCachePerSnapshotLimit < snapshotEntryCount bounded.entries snapshot)
  step bounded h :=
    removeResultEntry bounded ((firstSnapshotEntryIndex bounded.entries snapshot).get
      (firstSnapshotEntryIndex_isSome (Nat.zero_lt_of_lt (of_decide_eq_true h))))
  size bounded := bounded.entries.length
  smaller bounded _ := Nat.lt_of_succ_le (length_removeResultEntry bounded _).le

def enforceResultEntryLimit (state : OrderedResultCache) (snapshot : OrderedResultSnapshot) :
    OrderedResultCache := (entryLimitDrain snapshot).run state

/-- The least recently used snapshot goes, entry by entry; one without entries is taken off the
list. -/
def evictSnapshot (bounded : OrderedResultCache) (snapshot : OrderedResultSnapshot) :
    OrderedResultCache :=
  match firstSnapshotEntryIndex bounded.entries snapshot with
  | some index => removeResultEntry bounded index
  | none => withoutResultSnapshot bounded snapshot

theorem evictSnapshot_smaller {b : OrderedResultCache} (h : snapshot ∈ b.snapshots) :
    (evictSnapshot b snapshot).entries.length + (evictSnapshot b snapshot).snapshots.length <
      b.entries.length + b.snapshots.length := by
  unfold evictSnapshot
  cases firstSnapshotEntryIndex b.entries snapshot with
  | some i =>
    have he := length_removeResultEntry b i
    have hs : (removeResultEntry b i).snapshots.length ≤
        b.snapshots.length := by
      simp only [removeResultEntry]
      split_ifs
      · exact le_refl _
      · exact List.length_filter_le _ _
    simp only
    omega
  | none =>
    have hlt : (removeResultSnapshot b.snapshots snapshot).length <
        b.snapshots.length :=
      length_filter_lt_length_iff_exists.mpr ⟨snapshot, h, by simp⟩
    show b.entries.length + (removeResultSnapshot b.snapshots snapshot).length < _
    omega

def snapshotLimitDrain : Drain OrderedResultCache where
  busy bounded := decide (resultCacheSnapshotLimit < bounded.snapshots.length)
  step bounded h :=
    evictSnapshot bounded (bounded.snapshots.head fun hnil => by
      rw [decide_eq_true_iff, hnil] at h
      exact Nat.not_lt_zero _ h)
  size bounded := bounded.entries.length + bounded.snapshots.length
  smaller _ _ := evictSnapshot_smaller (head_mem _)

def enforceResultSnapshotLimit (state : OrderedResultCache) : OrderedResultCache :=
  snapshotLimitDrain.run state

/-- The least recently used entry goes while there are too many bytes. -/
def byteLimitDrain : Drain OrderedResultCache where
  busy bounded := decide (resultCacheByteLimit < bounded.bytes) && !bounded.entries.isEmpty
  step bounded h :=
    removeResultEntry bounded ⟨0, by
      rw [Bool.and_eq_true, Bool.not_eq_true', isEmpty_eq_false_iff] at h
      exact length_pos_iff.mpr h.2⟩
  size bounded := bounded.entries.length
  smaller bounded _ := Nat.lt_of_succ_le (length_removeResultEntry bounded _).le

def enforceResultByteLimit (state : OrderedResultCache) : OrderedResultCache :=
  byteLimitDrain.run state

/-! ### Lookups and retained results -/

/-- The answer to a lookup, and the cells after it. -/
def resultCacheLookup (cells : ResultCells) (key : OrderedResultKey) :
    ResultCacheLookup × ResultCells :=
  let state := cells.orderedResults
  match resultEntryIndex state.entries key with
  | none =>
    (⟨false, [], []⟩, ⟨countResultCacheMiss state, cells.derivedGeneration + 1⟩)
  | some index =>
    let entry := state.entries[index]
    (⟨true, entry.queryRows, entry.tripleRows⟩,
      ⟨countResultCacheHit (touchResultEntry state index), cells.derivedGeneration + 1⟩)

def retainResultEntry (cells : ResultCells) (entry : OrderedResultEntry) : ResultCells :=
  let bounded := enforceResultByteLimit (enforceResultSnapshotLimit
    (enforceResultEntryLimit (appendResultEntry cells.orderedResults entry) entry.key.snapshot))
  ⟨bounded, cells.derivedGeneration + 1⟩

/-- The bytes of a Term on the wire, none if it cannot be encoded. -/
def canonicalTermByteCount (term : Term) : Int :=
  let encoder := (Cells.appendTerm term 0 ⟨[], 0, none⟩).2
  match encoder.error with
  | some _ => 0
  | none => encoder.bytes.length

def rpcQueryRow (values : List Term) : Triple := rpcRecord "query/row" [rpcList values]

def queryResultWeight (rows : List (List Term)) : Int :=
  rows.foldl (fun total row => total + canonicalTermByteCount (rpcQueryRow row).term)
    (32 + 8 * rows.length)

def tripleResultWeight (rows : List Triple) : Int :=
  rows.foldl (fun total row => total + canonicalTermByteCount row.term) (32 + 8 * rows.length)

def retainQueryResult (cells : ResultCells) (key : OrderedResultKey) (rows : List (List Term)) :
    ResultCells := retainResultEntry cells ⟨key, rows, [], queryResultWeight rows⟩

def retainTripleResult (cells : ResultCells) (key : OrderedResultKey) (rows : List Triple) :
    ResultCells := retainResultEntry cells ⟨key, [], rows, tripleResultWeight rows⟩

end Beagle.Store
