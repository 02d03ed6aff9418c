/-
The derived state of a store is what folding its operation rows gives.

`Lifo` says what the operations amount to: an assertion pushes its position, a
retraction withdraws the newest live position of its proposition.  The store keeps
the live positions in buckets found through a slot table, and while a fold is open
in cells beside the buckets.  Both representations are read as one association of
handles to position lists, and `Derived` says that association, and the withdrawal
targets, are `Lifo`'s.
-/
import Beagle.Lib.Lifo
import Beagle.Proofs.Interning

namespace Beagle.Store

open Beagle.Lib List

/-! ### Buckets as one association -/

/-- The live positions, bucket by bucket, wherever they are kept. -/
def bucketValues (store : TermStore) : List (List Nat) :=
  if store.foldOpen then store.activeCells else store.activeBuckets.map (·.positions)

/-- Every bucket has its positions, and cells are kept only while a fold is open. -/
structure Shaped (store : TermStore) : Prop where
  length : (bucketValues store).length = store.activeBuckets.length
  closed : store.foldOpen = false → store.activeCells = []

section

variable {H : Hashing} {r : Root} {h' : Int} {p : Nat}

theorem activePositions_eq (h : Indexed H r) (h' : Int) : activePositions H r h'
      = match KeyIndex.search H.handleKeys (bucketHandles r.store) h' with
        | some p => (bucketValues r.store).getD p []
        | none => [] := by
  unfold activePositions bucketValues
  rw [findActiveBucketPosition_eq h]
  cases KeyIndex.search H.handleKeys (bucketHandles r.store) h' with
  | none => rfl
  | some p =>
    dsimp only
    by_cases hf : r.store.foldOpen = true
    · rw [if_pos hf, if_pos hf]
    · rw [if_neg hf, if_neg hf, getD_eq_getElem?_getD, getElem?_map]

variable {hs' : List Int}

theorem search_bucket
    (h : KeyIndex.search H.handleKeys hs' h' = some p) : hs'[p]? = some h' := by
  obtain ⟨k, hk, hs⟩ := KeyIndex.hits_iff.mp (KeyIndex.search_some h)
  rw [hk, beq_iff_eq.mp hs]

/-- What a change to the active positions keeps. -/
structure KeepsHistory (store store' : TermStore) : Prop where
  spaceId : store'.spaceId = store.spaceId
  nextSequence : store'.nextSequence = store.nextSequence
  atoms : store'.atoms = store.atoms
  triples : store'.triples = store.triples
  transactions : store'.transactions = store.transactions
  operations : store'.operations = store.operations
  foldOpen : store'.foldOpen = store.foldOpen

theorem KeepsHistory.refl (store : TermStore) : KeepsHistory store store :=
  ⟨rfl, rfl, rfl, rfl, rfl, rfl, rfl⟩

theorem KeepsHistory.trans {s s' s'' : TermStore} (h : KeepsHistory s s')
    (h' : KeepsHistory s' s'') : KeepsHistory s s'' :=
  ⟨h'.spaceId.trans h.spaceId, h'.nextSequence.trans h.nextSequence, h'.atoms.trans h.atoms,
    h'.triples.trans h.triples, h'.transactions.trans h.transactions,
    h'.operations.trans h.operations, h'.foldOpen.trans h.foldOpen⟩

/-- What setting the positions of one handle does. -/
structure SetSpec (H : Hashing) (root root' : Root) (handle : Int) (positions : List Nat) :
    Prop where
  indexed : Indexed H root'
  shaped : Shaped root'.store
  keeps : KeepsHistory root.store root'.store
  targets : root'.store.withdrawalTargets = root.store.withdrawalTargets
  grows : Grows root.cells root'.cells
  active : ∀ k, activePositions H root' k
    = if k = handle then positions else activePositions H root k

variable {vs : List (List Nat)}

private theorem search_set_value (hl : vs.length = hs'.length)
    (hp : KeyIndex.search H.handleKeys hs' h' = some p) (ps : List Nat) (k : Int) :
    (match KeyIndex.search H.handleKeys hs' k with
      | some q => (vs.set p ps).getD q []
      | none => [])
      = if k = h' then ps
        else match KeyIndex.search H.handleKeys hs' k with
          | some q => vs.getD q []
          | none => [] := by
  have hplt : p < vs.length := by
    rw [hl]; exact (List.getElem?_eq_some_iff.mp (search_bucket hp)).1
  by_cases hk : k = h'
  · subst hk
    rw [hp, if_pos rfl]
    dsimp only
    rw [getD_eq_getElem?_getD, getElem?_set_self hplt]
    rfl
  · rw [if_neg hk]
    cases hq : KeyIndex.search H.handleKeys hs' k with
    | none => rfl
    | some q =>
      dsimp only
      have hne : p ≠ q := by
        intro heq
        subst heq
        have h1 := search_bucket hp
        rw [search_bucket hq] at h1
        exact hk (Option.some.inj h1)
      rw [getD_eq_getElem?_getD, getElem?_set_ne hne, getD_eq_getElem?_getD]

private theorem search_append_value (hl : vs.length = hs'.length)
    (hn : KeyIndex.search H.handleKeys hs' h' = none) (ps : List Nat) (k : Int) :
    (match KeyIndex.search H.handleKeys (hs' ++ [h']) k with
      | some q => (vs ++ [ps]).getD q []
      | none => [])
      = if k = h' then ps
        else match KeyIndex.search H.handleKeys hs' k with
          | some q => vs.getD q []
          | none => [] := by
  by_cases hk : k = h'
  · subst hk
    rw [KeyIndex.search_append_self hn (beq_iff_eq.mpr rfl), if_pos rfl]
    dsimp only
    rw [getD_eq_getElem?_getD, ← hl, getElem?_append_right (Nat.le_refl _)]
    simp
  · rw [if_neg hk]
    cases hq : KeyIndex.search H.handleKeys hs' k with
    | some q =>
      rw [KeyIndex.search_append _ hq]
      dsimp only
      have hqlt : q < vs.length := by
        rw [hl]; exact (List.getElem?_eq_some_iff.mp (search_bucket hq)).1
      rw [getD_eq_getElem?_getD, getElem?_append_left hqlt, getD_eq_getElem?_getD]
    | none =>
      have hno : KeyIndex.search H.handleKeys (hs' ++ [h']) k = none := by
        unfold KeyIndex.search at hq ⊢
        rw [findIdx?_append, hq]
        have : (h' == k) = false := beq_eq_false_iff_ne.mpr (Ne.symm hk)
        simp [Hashing.handleKeys, this]
      rw [hno]

private theorem setActivePositions_known (h : Indexed H r) (hs : Shaped r.store)
    (hp : KeyIndex.search H.handleKeys (bucketHandles r.store) h' = some p)
    (positions : List Nat) :
    SetSpec H r (setActivePositions H r h' positions) h' positions := by
  have hb := search_bucket hp
  have hl : (bucketValues r.store).length = (bucketHandles r.store).length := by
    rw [hs.length]; simp [bucketHandles]
  unfold setActivePositions
  rw [findActiveBucketPosition_eq h, hp]
  dsimp only
  by_cases hf : r.store.foldOpen = true
  · rw [if_pos hf]
    have hi : Indexed H { r with store :=
        { r.store with activeCells := r.store.activeCells.set p positions } } :=
      ⟨h.atoms, h.triples, h.buckets, h.distinct, h.distinctBuckets⟩
    refine ⟨hi, ⟨?_, ?_⟩, ⟨rfl, rfl, rfl, rfl, rfl, rfl, rfl⟩, rfl, Grows.refl _, ?_⟩
    · have := hs.length
      simp only [bucketValues, hf, if_true, length_set] at this ⊢
      exact this
    · intro hc
      rw [show (_ : TermStore).foldOpen = r.store.foldOpen from rfl, hf] at hc
      simp at hc
    · intro k
      rw [activePositions_eq hi, activePositions_eq h]
      have hv : bucketValues { r.store with
          activeCells := r.store.activeCells.set p positions }
          = (bucketValues r.store).set p positions := by
        simp only [bucketValues, hf, if_true]
      dsimp only
      rw [hv]
      exact search_set_value hl hp positions k
  · rw [if_neg hf]
    have hplt : p < r.store.activeBuckets.length := by
      have := (List.getElem?_eq_some_iff.mp hb).1
      simpa [bucketHandles] using this
    -- The bucket written back carries the handle that was there.
    have hh : bucketHandles { r.store with
        activeBuckets := r.store.activeBuckets.set p ⟨h', positions⟩ }
        = bucketHandles r.store := by
      simp only [bucketHandles, map_set]
      refine ext_getElem? ?_
      intro q
      by_cases hq : p = q
      · subst hq
        rw [getElem?_set_self (by simpa using hplt)]
        exact hb.symm
      · rw [getElem?_set_ne hq]
    have hi : Indexed H { r with store :=
        { r.store with
          activeBuckets := r.store.activeBuckets.set p ⟨h', positions⟩ } } := by
      refine ⟨h.atoms, h.triples, ?_, h.distinct, ?_⟩
      · dsimp only; rw [hh]; exact h.buckets
      · dsimp only; rw [hh]; exact h.distinctBuckets
    have hv : bucketValues { r.store with
        activeBuckets := r.store.activeBuckets.set p ⟨h', positions⟩ }
        = (bucketValues r.store).set p positions := by
      simp only [bucketValues, hf, map_set]
      rfl
    refine ⟨hi, ⟨?_, ?_⟩, ⟨rfl, rfl, rfl, rfl, rfl, rfl, rfl⟩, rfl, Grows.refl _, ?_⟩
    · dsimp only
      rw [hv, length_set, hs.length, length_set]
    · intro _
      exact hs.closed (by simpa using hf)
    · intro k
      rw [activePositions_eq hi, activePositions_eq h]
      dsimp only
      rw [hh, hv]
      exact search_set_value hl hp positions k

/-- The store with a bucket appended for a handle, and its table at an address. -/
private def withBucket (store : TermStore) (handle : Int) (positions : List Nat) (address : Nat) :
    TermStore :=
  { store with
    activeBuckets := store.activeBuckets ++ [⟨handle, if store.foldOpen then [] else positions⟩]
    activeCells := if store.foldOpen then store.activeCells ++ [positions]
      else store.activeCells
    activeSlots := address }

private theorem withBucket_handles (s : TermStore) (h' : Int) (ps : List Nat) (ad : Nat) :
    bucketHandles (withBucket s h' ps ad) = bucketHandles s ++ [h'] := by
  simp [bucketHandles, withBucket]

private theorem withBucket_values (s : TermStore) (h' : Int) (ps : List Nat) (ad : Nat) :
    bucketValues (withBucket s h' ps ad) = bucketValues s ++ [ps] := by
  by_cases hf : s.foldOpen = true <;> simp [bucketValues, withBucket, hf]

/-- An appended bucket is a bucket set, wherever its table now lives, if the table covers it. -/
private theorem withBucket_spec (h : Indexed H r) (hs : Shaped r.store)
    (hn : KeyIndex.search H.handleKeys (bucketHandles r.store) h' = none)
    (positions : List Nat) {cs : SlotCells} {ad : Nat} (hg : Grows r.cells cs)
    (hc : KeyIndex.Covers H.handleKeys (bucketHandles r.store ++ [h']) (cs.table ad)) :
    SetSpec H r ⟨cs, withBucket r.store h' positions ad⟩ h' positions := by
  have hl : (bucketValues r.store).length = (bucketHandles r.store).length := by
    rw [hs.length]; simp [bucketHandles]
  have hi : Indexed H ⟨cs, withBucket r.store h' positions ad⟩ := by
    refine ⟨h.atoms.extend (hg.table _ h.atomSlots_lt),
      h.triples.extend (hg.table _ h.tripleSlots_lt), ?_, h.distinct, ?_⟩
    · rw [withBucket_handles]
      exact hc
    · rw [withBucket_handles]
      exact KeyIndex.distinct_append h.distinctBuckets hn
  refine ⟨hi, ⟨?_, ?_⟩, ⟨rfl, rfl, rfl, rfl, rfl, rfl, rfl⟩, rfl, hg, ?_⟩
  · rw [withBucket_values, length_append, hs.length]
    simp [withBucket]
  · intro hf
    have hf' : r.store.foldOpen = false := hf
    simp only [withBucket, hf']
    exact hs.closed hf'
  · intro k
    rw [activePositions_eq hi, activePositions_eq h, withBucket_handles, withBucket_values]
    exact search_append_value hl hn positions k

private theorem setActivePositions_new (h : Indexed H r) (hs : Shaped r.store)
    (hn : KeyIndex.search H.handleKeys (bucketHandles r.store) h' = none)
    (positions : List Nat) :
    SetSpec H r (setActivePositions H r h' positions) h' positions := by
  have hg := grows_slotAdd r.cells r.store.activeSlots
    (H.handle h' % r.activeTable.length) r.store.activeBuckets.length
  have hcov := covers_slotAdd h.buckets h'
  have hwd : 0 < r.activeTable.length := h.buckets.width
  rw [show (bucketHandles r.store).length = r.store.activeBuckets.length by
    simp [bucketHandles]] at hcov
  have hb : (r.store.activeBuckets ++
      [(⟨h', if r.store.foldOpen then [] else positions⟩ : ActiveBucket)]).map
        (·.tripleHandle) = bucketHandles r.store ++ [h'] := by
    simp [bucketHandles]
  unfold setActivePositions
  rw [findActiveBucketPosition_eq h, hn]
  dsimp only
  by_cases hbig : (r.store.activeBuckets ++
      [(⟨h', if r.store.foldOpen then [] else positions⟩ : ActiveBucket)]).length
        > slotLoad * r.activeTable.length
  · rw [if_pos hbig]
    refine withBucket_spec h hs hn positions (hg.trans (grows_append _ _)) ?_
    rw [show ∀ c : SlotCells, c.length = c.length + 0 from fun _ => rfl, table_append_right]
    unfold buildActiveSlots
    rw [hb]
    exact covers_buildSlots _ _ (by omega)
  · rw [if_neg hbig]
    exact withBucket_spec h hs hn positions hg hcov

/-- **Setting the positions of a handle sets those and no others.** -/
theorem setActivePositions_spec (h : Indexed H r) (hs : Shaped r.store) (h' : Int)
    (positions : List Nat) :
    SetSpec H r (setActivePositions H r h' positions) h' positions := by
  cases hp : KeyIndex.search H.handleKeys (bucketHandles r.store) h' with
  | some p => exact setActivePositions_known h hs hp positions
  | none => exact setActivePositions_new h hs hp positions

end

end Beagle.Store
