/-
The cache of ordered results keeps its books, and a hit gives what was retained last.

Every update keeps the bytes the sum of the entries and the list of snapshots the snapshots of the
entries; the three loops that evict entries do nothing but remove them, so they keep this too, and
each one leaves its own limit kept.  Where a result is retained only behind a miss of its key, no
two entries have one key, and an entry has the rows that were retained last under it.
-/
import Beagle.Store.ResultCache

namespace Beagle.Store

open Beagle.Lib List

/-! ### The books -/

/-- Bytes, snapshots and keys are those of the entries. -/
structure OrderedResultCache.Kept (state : OrderedResultCache) : Prop where
  bytes : state.bytes = (state.entries.map (·.bytes)).sum
  nodup : state.snapshots.Nodup
  names : ∀ snapshot, snapshot ∈ state.snapshots ↔
    ∃ entry ∈ state.entries, entry.key.snapshot = snapshot
  keys : (state.entries.map (·.key)).Nodup

/-- The limits of the cache. -/
structure OrderedResultCache.Bounded (state : OrderedResultCache) : Prop where
  perSnapshot : ∀ snapshot, snapshotEntryCount state.entries snapshot ≤ resultCachePerSnapshotLimit
  snapshots : state.snapshots.length ≤ resultCacheSnapshotLimit
  bytes : state.bytes ≤ resultCacheByteLimit

variable {vs : List OrderedResultSnapshot} {snapshot : OrderedResultSnapshot}

theorem mem_removeResultSnapshot {target : OrderedResultSnapshot} :
    snapshot ∈ removeResultSnapshot vs target ↔ snapshot ∈ vs ∧ snapshot ≠ target := by
  simp [removeResultSnapshot, ← Bool.not_eq_true]

theorem nodup_removeResultSnapshot (h : vs.Nodup) (t : OrderedResultSnapshot) :
    (removeResultSnapshot vs t).Nodup := h.filter _

theorem resultSnapshotPresent_iff {es : List OrderedResultEntry} :
    resultSnapshotPresent es snapshot = true ↔ ∃ e ∈ es, e.key.snapshot = snapshot := by
  simp only [resultSnapshotPresent, any_eq_true, ofSnapshot, resultSnapshotEqual_iff]
  exact exists_congr fun e => and_congr_right fun _ => eq_comm

/-- An entry is the one taken out or one of the others. -/
theorem perm_removeResultEntryAt (es : List OrderedResultEntry) (i : Fin es.length) :
    (es[i] :: removeResultEntryAt es i).Perm es :=
  getElem_cons_eraseIdx_perm i.isLt

section

variable {state : OrderedResultCache}

theorem OrderedResultCache.Kept.keys_remove (h : state.Kept) (i : Fin state.entries.length) :
    ((removeResultEntryAt state.entries i).map (·.key)).Nodup :=
  h.keys.sublist ((eraseIdx_sublist ..).map _)

/-- **Removing an entry keeps the books.** -/
theorem OrderedResultCache.Kept.remove (h : state.Kept) (i : Fin state.entries.length) :
    (removeResultEntry state i).Kept := by
  have hpe := perm_removeResultEntryAt state.entries i
  refine ⟨?_, ?_, ?_, h.keys_remove i⟩
  · have hsum := (hpe.map (·.bytes)).sum_eq
    rw [map_cons, sum_cons] at hsum
    show state.bytes - state.entries[i].bytes = _
    rw [h.bytes, ← hsum]
    simp only [removeResultEntry]
    omega
  · simp only [removeResultEntry]
    split_ifs
    · exact h.nodup
    · exact nodup_removeResultSnapshot h.nodup _
  · intro snapshot
    have hsp : (∃ e ∈ state.entries, e.key.snapshot = snapshot) ↔
        state.entries[i].key.snapshot = snapshot ∨
          ∃ e ∈ removeResultEntryAt state.entries i, e.key.snapshot = snapshot := by
      simp only [← hpe.mem_iff, mem_cons, exists_eq_or_imp]
    simp only [removeResultEntry]
    by_cases hp : resultSnapshotPresent (removeResultEntryAt state.entries i)
        state.entries[i].key.snapshot = true
    · rw [if_pos hp, h.names, hsp]
      constructor
      · rintro (rfl | hrest)
        · exact resultSnapshotPresent_iff.mp hp
        · exact hrest
      · exact Or.inr
    · rw [if_neg hp, mem_removeResultSnapshot, h.names, hsp]
      constructor
      · rintro ⟨hent | hrest, hne⟩
        · exact absurd hent.symm hne
        · exact hrest
      · intro hrest
        refine ⟨Or.inr hrest, ?_⟩
        rintro rfl
        exact hp (resultSnapshotPresent_iff.mpr hrest)

variable {vs : List OrderedResultSnapshot}

/-- The snapshot of an entry goes to the end of the list. -/
theorem mem_moved_snapshot {target snapshot : OrderedResultSnapshot} :
    snapshot ∈ removeResultSnapshot vs target ++ [target] ↔ snapshot ∈ vs ∨ snapshot = target := by
  rw [List.mem_append, mem_removeResultSnapshot, mem_singleton]
  constructor
  · rintro (⟨hmem, -⟩ | heq)
    · exact Or.inl hmem
    · exact Or.inr heq
  · rintro (hmem | heq)
    · by_cases heq : snapshot = target
      · exact Or.inr heq
      · exact Or.inl ⟨hmem, heq⟩
    · exact Or.inr heq

theorem nodup_moved_snapshot (h : vs.Nodup) (t : OrderedResultSnapshot) :
    (removeResultSnapshot vs t ++ [t]).Nodup := by
  refine nodup_append.mpr ⟨nodup_removeResultSnapshot h t, nodup_singleton t, ?_⟩
  intro snapshot hmem o ho
  rw [mem_singleton.mp ho]
  exact (mem_removeResultSnapshot.mp hmem).2

/-- **Touching an entry keeps the books.** -/
theorem OrderedResultCache.Kept.touch (h : state.Kept) (i : Fin state.entries.length) :
    (touchResultEntry state i).Kept := by
  have hp : (removeResultEntryAt state.entries i ++ [state.entries[i]]).Perm
      state.entries :=
    perm_append_comm.trans (perm_removeResultEntryAt state.entries i)
  refine ⟨?_, nodup_moved_snapshot h.nodup _, ?_, ?_⟩
  · show state.bytes = _
    rw [h.bytes]
    exact ((hp.map OrderedResultEntry.bytes).sum_eq).symm
  · intro snapshot
    show snapshot ∈ removeResultSnapshot state.snapshots _ ++ [_] ↔ _
    rw [mem_moved_snapshot, h.names]
    show _ ↔ ∃ e ∈ removeResultEntryAt state.entries i ++ [state.entries[i]], _
    simp only [hp.mem_iff]
    constructor
    · rintro (hent | rfl)
      · exact hent
      · exact ⟨_, getElem_mem _, rfl⟩
    · exact Or.inl
  · exact (hp.map (·.key)).nodup_iff.mpr h.keys

/-- **An entry with a new key keeps the books.** -/
theorem OrderedResultCache.Kept.append (h : state.Kept) {e : OrderedResultEntry}
    (hnew : ∀ o ∈ state.entries, o.key ≠ e.key) :
    (appendResultEntry state e).Kept := by
  refine ⟨?_, nodup_moved_snapshot h.nodup _, ?_, ?_⟩
  · show state.bytes + e.bytes = ((state.entries ++ [e]).map (·.bytes)).sum
    rw [h.bytes, map_append, sum_append]
    simp
  · intro snapshot
    show snapshot ∈ removeResultSnapshot state.snapshots _ ++ [_] ↔
      ∃ o ∈ state.entries ++ [e], o.key.snapshot = snapshot
    rw [mem_moved_snapshot, h.names]
    simp only [List.mem_append, mem_singleton, or_and_right, exists_or, exists_eq_left]
    exact or_congr_right eq_comm
  · show ((state.entries ++ [e]).map (·.key)).Nodup
    rw [map_append, nodup_append]
    refine ⟨h.keys, nodup_singleton _, ?_⟩
    intro key hkey o ho
    obtain ⟨one, hone, rfl⟩ := mem_map.mp hkey
    rw [mem_singleton.mp ho]
    exact hnew one hone

theorem OrderedResultCache.Kept.evict (h : state.Kept) (snapshot : OrderedResultSnapshot) :
    (evictSnapshot state snapshot).Kept := by
  unfold evictSnapshot
  cases hidx : firstSnapshotEntryIndex state.entries snapshot with
  | some i => exact h.remove i
  | none =>
    refine ⟨h.bytes, nodup_removeResultSnapshot h.nodup _, ?_, h.keys⟩
    intro other
    show other ∈ removeResultSnapshot state.snapshots snapshot ↔ _
    rw [mem_removeResultSnapshot, h.names]
    refine ⟨And.left, fun ho => ⟨ho, ?_⟩⟩
    rintro rfl
    have hcnt : 0 < snapshotEntryCount state.entries other := by
      obtain ⟨e, hent, hsn⟩ := ho
      exact countP_pos_iff.mpr ⟨e, hent, by
        simp only [ofSnapshot, resultSnapshotEqual_iff, hsn]⟩
    have hs := firstSnapshotEntryIndex_isSome hcnt
    rw [hidx] at hs
    cases hs

end

/-! ### Evictions -/

/-- What is left of a cache: its books are kept, and it has only entries that it had. -/
structure LeftOf (first state : OrderedResultCache) : Prop where
  kept : state.Kept
  entries : state.entries.Sublist first.entries

section

variable {f state : OrderedResultCache}

theorem LeftOf.refl (h : state.Kept) : LeftOf state state := ⟨h, Sublist.refl _⟩

theorem LeftOf.remove (h : LeftOf f state) (i : Fin state.entries.length) :
    LeftOf f (removeResultEntry state i) :=
  ⟨h.kept.remove i, (eraseIdx_sublist ..).trans h.entries⟩

theorem LeftOf.evict (h : LeftOf f state) (snapshot : OrderedResultSnapshot) :
    LeftOf f (evictSnapshot state snapshot) := by
  refine ⟨h.kept.evict snapshot, ?_⟩
  unfold evictSnapshot
  cases firstSnapshotEntryIndex state.entries snapshot with
  | some i => exact (h.remove i).entries
  | none => exact h.entries

theorem LeftOf.count (h : LeftOf f state) (snapshot : OrderedResultSnapshot) :
    snapshotEntryCount state.entries snapshot ≤ snapshotEntryCount f.entries snapshot :=
  h.entries.countP_le

theorem enforceResultEntryLimit_left (h : state.Kept) (snapshot : OrderedResultSnapshot) :
    LeftOf state (enforceResultEntryLimit state snapshot) ∧
      snapshotEntryCount (enforceResultEntryLimit state snapshot).entries snapshot ≤
        resultCachePerSnapshotLimit := by
  refine ⟨(entryLimitDrain snapshot).run_keeps (fun _ _ hl => hl.remove _) (LeftOf.refl h), ?_⟩
  have hi := (entryLimitDrain snapshot).run_idle state
  exact Nat.le_of_not_lt (of_decide_eq_false hi)

theorem enforceResultSnapshotLimit_left (h : LeftOf f state) :
    LeftOf f (enforceResultSnapshotLimit state) ∧
      (enforceResultSnapshotLimit state).snapshots.length ≤ resultCacheSnapshotLimit := by
  refine ⟨snapshotLimitDrain.run_keeps (fun _ _ hl => hl.evict _) h, ?_⟩
  have hi := snapshotLimitDrain.run_idle state
  exact Nat.le_of_not_lt (of_decide_eq_false hi)

/-- Names of fewer entries are fewer. -/
theorem OrderedResultCache.Kept.snapshots_length {l : OrderedResultCache} (h : state.Kept)
    (hl : l.Kept) (he : l.entries.Sublist state.entries) :
    l.snapshots.length ≤ state.snapshots.length := by
  refine (subperm_of_subset hl.nodup fun snapshot hs => ?_).length_le
  obtain ⟨e, hent, hn⟩ := (hl.names snapshot).mp hs
  exact (h.names snapshot).mpr ⟨e, he.subset hent, hn⟩

theorem enforceResultByteLimit_left (h : LeftOf f state) :
    LeftOf f (enforceResultByteLimit state) ∧ LeftOf state (enforceResultByteLimit state) ∧
      (enforceResultByteLimit state).bytes ≤ resultCacheByteLimit := by
  have hl : LeftOf f (enforceResultByteLimit state) :=
    byteLimitDrain.run_keeps (fun _ _ hl => hl.remove _) h
  refine ⟨hl, byteLimitDrain.run_keeps (fun _ _ hl => hl.remove _) (LeftOf.refl h.kept), ?_⟩
  have hidle := byteLimitDrain.run_idle state
  rw [show byteLimitDrain.busy = fun bounded => decide (resultCacheByteLimit < bounded.bytes) &&
    !bounded.entries.isEmpty from rfl, Bool.and_eq_false_iff, decide_eq_false_iff_not,
    Bool.not_eq_false', List.isEmpty_iff] at hidle
  rcases hidle with hfits | hemp
  · exact Int.not_lt.mp hfits
  · have hbs := hl.kept.bytes
    rw [show (enforceResultByteLimit state).entries = [] from hemp] at hbs
    rw [hbs]
    decide

end

/-! ### Calls -/

inductive ResultCall where
  | lookup (key : OrderedResultKey)
  | retainQuery (key : OrderedResultKey) (rows : List (List Term))
  | retainTriple (key : OrderedResultKey) (rows : List Triple)

namespace ResultCall

def run (cells : ResultCells) : ResultCall → ResultCells
  | lookup key => (resultCacheLookup cells key).2
  | retainQuery key rows => retainQueryResult cells key rows
  | retainTriple key rows => retainTripleResult cells key rows

/-- The key and the rows that a call retains. -/
def retains : ResultCall → Option (OrderedResultKey × List (List Term) × List Triple)
  | lookup _ => none
  | retainQuery key rows => some (key, rows, [])
  | retainTriple key rows => some (key, [], rows)

def runAll (cells : ResultCells) (calls : List ResultCall) : ResultCells := calls.foldl run cells

/-- The keys whose last call was a lookup that missed. -/
def missed (cells : ResultCells) (keys : List OrderedResultKey) : ResultCall → List OrderedResultKey
  | lookup key =>
    if (resultCacheLookup cells key).1.found then keys.filter (· ≠ key) else key :: keys
  | retainQuery key _ => keys.filter (· ≠ key)
  | retainTriple key _ => keys.filter (· ≠ key)

/-- Results are retained only when the last call with their key was a lookup that missed. -/
def AfterMisses (cells : ResultCells) (keys : List OrderedResultKey) : List ResultCall → Prop
  | [] => True
  | call :: rest =>
    (∀ retained, call.retains = some retained → retained.1 ∈ keys) ∧
      AfterMisses (call.run cells) (call.missed cells keys) rest

/-- The rows that a key has behind a call. -/
def known (rows : OrderedResultKey → Option (List (List Term) × List Triple)) (call : ResultCall)
    (key : OrderedResultKey) : Option (List (List Term) × List Triple) :=
  match call.retains with
  | some (retained, found) => if retained = key then some found else rows key
  | none => rows key

/-- The rows that some calls retained last under a key. -/
def lastRetained (calls : List ResultCall) :
    OrderedResultKey → Option (List (List Term) × List Triple) :=
  calls.foldl known fun _ => none

end ResultCall

/-- The state of a cache behind some calls. -/
structure Remembers (cells : ResultCells) (keys : List OrderedResultKey)
    (rows : OrderedResultKey → Option (List (List Term) × List Triple)) : Prop where
  kept : cells.orderedResults.Kept
  bounded : cells.orderedResults.Bounded
  absent : ∀ key ∈ keys, ∀ entry ∈ cells.orderedResults.entries, entry.key ≠ key
  rows : ∀ entry ∈ cells.orderedResults.entries,
    rows entry.key = some (entry.queryRows, entry.tripleRows)

theorem remembers_fresh : Remembers ResultCells.fresh [] fun _ => none := by
  refine ⟨⟨rfl, nodup_nil, ?_, nodup_nil⟩, ⟨?_, Nat.zero_le _, by decide⟩, ?_, ?_⟩
  · intro snapshot
    simp [ResultCells.fresh, emptyOrderedResultCache]
  · intro snapshot
    exact Nat.zero_le _
  · intro key hkey
    exact absurd hkey not_mem_nil
  · intro e hent
    exact absurd hent not_mem_nil

section

variable {ces : ResultCells} {keys : List OrderedResultKey}
  {rows : OrderedResultKey → Option (List (List Term) × List Triple)} {es : List OrderedResultEntry}
  {key : OrderedResultKey}

theorem resultEntryIndex_none (h : resultEntryIndex es key = none) :
    ∀ e ∈ es, e.key ≠ key := by
  intro e hent heq
  have hf := findFinIdx?_eq_none_iff.mp h e hent
  exact hf (resultKeyEqual_iff.mpr heq.symm)

theorem resultEntryIndex_some {i : Fin es.length}
    (h : resultEntryIndex es key = some i) : es[i].key = key := by
  have hf := (findFinIdx?_eq_some_iff.mp h).1
  exact (resultKeyEqual_iff.mp hf).symm

theorem resultCacheLookup_miss
    (h : resultEntryIndex ces.orderedResults.entries key = none) :
    resultCacheLookup ces key = (⟨false, [], []⟩,
      ⟨countResultCacheMiss ces.orderedResults, ces.derivedGeneration + 1⟩) := by
  unfold resultCacheLookup
  simp only [h]

theorem resultCacheLookup_hit
    {i : Fin ces.orderedResults.entries.length}
    (h : resultEntryIndex ces.orderedResults.entries key = some i) :
    resultCacheLookup ces key = (⟨true, (ces.orderedResults.entries.get i).queryRows,
          (ces.orderedResults.entries.get i).tripleRows⟩,
        ⟨countResultCacheHit (touchResultEntry ces.orderedResults i),
          ces.derivedGeneration + 1⟩) := by
  unfold resultCacheLookup
  simp only [h]
  rfl

variable (h : Remembers ces keys rows)
include h

/-- **A hit gives the rows that the key has.** -/
theorem Remembers.hit (hf : (resultCacheLookup ces key).1.found = true) :
    rows key = some ((resultCacheLookup ces key).1.queryRows,
      (resultCacheLookup ces key).1.tripleRows) := by
  cases hidx : resultEntryIndex ces.orderedResults.entries key with
  | none =>
    rw [resultCacheLookup_miss hidx] at hf
    cases hf
  | some i =>
    rw [resultCacheLookup_hit hidx, ← resultEntryIndex_some hidx]
    exact h.rows _ (get_mem _ _)

/-- **A lookup keeps the cache as it should be.** -/
theorem Remembers.lookup (key : OrderedResultKey) :
    Remembers (ResultCall.run ces (.lookup key)) (ResultCall.missed ces keys (.lookup key))
      rows := by
  show Remembers (resultCacheLookup ces key).2
    (if (resultCacheLookup ces key).1.found then keys.filter (· ≠ key) else key :: keys) rows
  cases hidx : resultEntryIndex ces.orderedResults.entries key with
  | none =>
    rw [resultCacheLookup_miss hidx, if_neg Bool.false_ne_true]
    refine ⟨⟨h.kept.bytes, h.kept.nodup, h.kept.names, h.kept.keys⟩,
      ⟨h.bounded.perSnapshot, h.bounded.snapshots, h.bounded.bytes⟩, ?_, h.rows⟩
    intro o ho
    rcases mem_cons.mp ho with rfl | hmem
    · exact resultEntryIndex_none hidx
    · exact h.absent o hmem
  | some i =>
    rw [resultCacheLookup_hit hidx, if_pos rfl]
    have hk := h.kept.touch i
    have hp : (removeResultEntryAt ces.orderedResults.entries i ++
        [ces.orderedResults.entries[i]]).Perm ces.orderedResults.entries :=
      perm_append_comm.trans (perm_removeResultEntryAt _ i)
    refine ⟨⟨hk.bytes, hk.nodup, hk.names, hk.keys⟩, ⟨?_, ?_, h.bounded.bytes⟩, ?_, ?_⟩
    · intro snapshot
      exact (hp.countP_eq (ofSnapshot snapshot)).le.trans (h.bounded.perSnapshot snapshot)
    · refine le_trans (subperm_of_subset hk.nodup ?_).length_le h.bounded.snapshots
      intro snapshot hs
      rw [hk.names] at hs
      obtain ⟨e, hent, hn⟩ := hs
      exact (h.kept.names snapshot).mpr ⟨e, hp.mem_iff.mp hent, hn⟩
    · intro o ho e hent
      exact h.absent o (mem_of_mem_filter ho) e (hp.mem_iff.mp hent)
    · intro e hent
      exact h.rows e (hp.mem_iff.mp hent)

/-- **Retaining a result behind a miss keeps the cache as it should be.** -/
theorem Remembers.retain {entry : OrderedResultEntry} (hm : entry.key ∈ keys) :
    Remembers (retainResultEntry ces entry) (keys.filter (· ≠ entry.key)) fun key =>
      if entry.key = key then some (entry.queryRows, entry.tripleRows) else rows key := by
  have hnew := h.absent _ hm
  have happ := h.kept.append hnew
  obtain ⟨hel, hec⟩ := enforceResultEntryLimit_left happ entry.key.snapshot
  obtain ⟨hsl, hs⟩ := enforceResultSnapshotLimit_left hel
  obtain ⟨hl, hla, hbs⟩ := enforceResultByteLimit_left hsl
  have henl : (retainResultEntry ces entry).orderedResults.entries.Sublist
      (enforceResultEntryLimit (appendResultEntry ces.orderedResults entry)
        entry.key.snapshot).entries :=
    hla.entries.trans (enforceResultSnapshotLimit_left (LeftOf.refl hel.kept)).1.entries
  have hmem : ∀ o ∈ (retainResultEntry ces entry).orderedResults.entries,
      o ∈ ces.orderedResults.entries ∨ o = entry := by
    intro o ho
    have hin : o ∈ ces.orderedResults.entries ++ [entry] := hl.entries.subset ho
    rwa [List.mem_append, mem_singleton] at hin
  refine ⟨hl.kept, ⟨?_, ?_, hbs⟩, ?_, ?_⟩
  · intro snapshot
    by_cases hsa : snapshot = entry.key.snapshot
    · rw [hsa]
      exact henl.countP_le.trans hec
    · have hcnt : snapshotEntryCount (ces.orderedResults.entries ++ [entry]) snapshot =
          snapshotEntryCount ces.orderedResults.entries snapshot := by
        unfold snapshotEntryCount
        rw [countP_append, countP_singleton, if_neg, Nat.add_zero]
        simpa [ofSnapshot] using hsa
      exact (hl.count snapshot).trans (hcnt.le.trans (h.bounded.perSnapshot snapshot))
  · exact (hsl.kept.snapshots_length hl.kept hla.entries).trans hs
  · intro key hkey o ho
    rw [mem_filter] at hkey
    rcases hmem o ho with hold | rfl
    · exact h.absent key hkey.1 o hold
    · intro heq
      exact of_decide_eq_true hkey.2 heq.symm
  · intro o ho
    rcases hmem o ho with hold | rfl
    · rw [if_neg (hnew o hold).symm]
      exact h.rows o hold
    · rw [if_pos rfl]

/-- **Every call keeps the cache as it should be.** -/
theorem Remembers.run {c : ResultCall} (hc : ∀ r, c.retains = some r → r.1 ∈ keys) :
    Remembers (c.run ces) (c.missed ces keys) (c.known rows) := by
  cases c with
  | lookup key => exact h.lookup key
  | retainQuery key fd => exact h.retain (hc _ rfl)
  | retainTriple key fd => exact h.retain (hc _ rfl)

omit h

theorem Remembers.runAll {cs : List ResultCall} :
    ∀ {ces : ResultCells} {keys : List OrderedResultKey}
      {rows : OrderedResultKey → Option (List (List Term) × List Triple)},
      Remembers ces keys rows → ResultCall.AfterMisses ces keys cs →
        ∃ ks', Remembers (ResultCall.runAll ces cs) ks'
          (cs.foldl (fun rows c => c.known rows) rows) := by
  induction cs with
  | nil => intro ces keys rows h _; exact ⟨keys, h⟩
  | cons c r ih =>
    intro ces keys rows h hc
    exact ih (h.run hc.1) hc.2

end

/-- **The cache keeps its books, stays within its limits, and a hit gives what was retained last.**
The loops that evict end whatever the cache is, within as many steps as it has entries and
snapshots.  After every run of lookups and retained results, each retained behind a miss of its key,
the bytes are the sum of the entries and within the limit, at most four snapshots and eight entries
for each are held, the snapshots are named once and are those of the entries, and a lookup that hits
gives the rows that were retained last under its key. -/
theorem result_cache_sound {calls : List ResultCall}
    (hcalls : ResultCall.AfterMisses ResultCells.fresh [] calls) :
    ((∀ state snapshot, (entryLimitDrain snapshot).EndsWithin state.entries.length state) ∧
      (∀ state, snapshotLimitDrain.EndsWithin (state.entries.length + state.snapshots.length)
        state) ∧
      ∀ state, byteLimitDrain.EndsWithin state.entries.length state) ∧
    (ResultCall.runAll ResultCells.fresh calls).orderedResults.Kept ∧
      (ResultCall.runAll ResultCells.fresh calls).orderedResults.Bounded ∧
      ∀ key, (resultCacheLookup (ResultCall.runAll ResultCells.fresh calls) key).1.found = true →
        ResultCall.lastRetained calls key =
          some ((resultCacheLookup (ResultCall.runAll ResultCells.fresh calls) key).1.queryRows,
            (resultCacheLookup (ResultCall.runAll ResultCells.fresh calls) key).1.tripleRows) := by
  obtain ⟨keys, h⟩ := remembers_fresh.runAll hcalls
  refine ⟨⟨?_, ?_, ?_⟩, h.kept, h.bounded, fun _ hf => h.hit hf⟩
  · intro state snapshot
    exact (entryLimitDrain snapshot).endsWithin (le_refl _)
  · intro state
    exact snapshotLimitDrain.endsWithin (le_refl _)
  · intro state
    exact byteLimitDrain.endsWithin (le_refl _)

/-- The key of a scan. -/
def scanKey : OrderedResultKey := ⟨⟨"s", 1, -1⟩, ⟨"rpc/scan"⟩, "d"⟩

/-- A row of the scan. -/
def scanRow : Triple := ⟨.atom (.string "a"), .atom (.string "b"), .atom (.bool true)⟩

/-- A scan misses, is retained, and is looked up again. -/
def scanCalls : List ResultCall :=
  [.lookup scanKey, .retainTriple scanKey [scanRow], .lookup scanKey]

theorem result_cache_sound_scan :
    (ResultCall.runAll ResultCells.fresh scanCalls).orderedResults.Kept ∧
      (ResultCall.runAll ResultCells.fresh scanCalls).orderedResults.Bounded := by
  have hc : ResultCall.AfterMisses ResultCells.fresh [] scanCalls := by
    refine ⟨?_, ?_, ?_, True.intro⟩
    · intro r hret
      cases hret
    · intro r hret
      cases hret
      decide
    · intro r hret
      cases hret
  exact ⟨(result_cache_sound hc).2.1, (result_cache_sound hc).2.2.1⟩

end Beagle.Store
