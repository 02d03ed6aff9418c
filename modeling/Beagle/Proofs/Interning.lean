/-
Interning through slot tables is interning into rows.

The tables of a store are a hint, and `Indexed` is what makes the hint usable: each
table covers its rows, and no row equals a later one.  Under it the probe of one
slot is the search of the whole row list, so every interning call does to the rows
exactly what `Rows` says, and keeps `Indexed`.

Nothing here asks who else holds the tables.  What is asked of the heap is only
that it grows: `Grows` says every table still holds what it held.

Resolving a handle returns the Term it denotes.

In sound rows a triple row names earlier rows only, so the descent from the row at
position `p` is at most `p + 1` deep and the row count is fuel enough.
-/
import Beagle.Ledger.Rows
import Beagle.Store.Dump

namespace Beagle.Store

section

open Beagle.Lib List

/-! ### The heap grows -/

/-- Every table of `cells` is still there and still holds what it held. -/
structure Grows (cells cells' : SlotCells) : Prop where
  length : cells.length ≤ cells'.length
  table : ∀ address, address < cells.length →
    KeyIndex.Extends (cells.table address) (cells'.table address)

theorem Grows.refl (cells : SlotCells) : Grows cells cells :=
  ⟨Nat.le_refl _, fun _ _ => KeyIndex.Extends.refl _⟩

theorem Grows.trans {c c' c'' : SlotCells} (h : Grows c c') (h' : Grows c' c'') : Grows c c'' :=
  ⟨Nat.le_trans h.length h'.length, fun address ha =>
    (h.table address ha).trans (h'.table address (Nat.lt_of_lt_of_le ha h.length))⟩

@[simp] theorem length_slotAdd (cells : SlotCells) (address s p : Nat) :
    (cells.slotAdd address s p).length = cells.length := by
  simp [SlotCells.slotAdd]

theorem table_slotAdd (cells : SlotCells) (address s p other : Nat) :
    (cells.slotAdd address s p).table other = if address = other ∧ other < cells.length then
          KeyIndex.add (cells.table other) s p
        else cells.table other := by
  unfold SlotCells.slotAdd SlotCells.table
  rw [getD_eq_getElem?_getD, getD_eq_getElem?_getD, getElem?_modify]
  by_cases hlt : other < cells.length
  · rw [getElem?_eq_getElem hlt]
    by_cases heq : address = other <;> simp [heq, hlt]
  · rw [getElem?_eq_none (Nat.le_of_not_lt hlt)]
    simp [hlt]

theorem grows_slotAdd (cells : SlotCells) (address s p : Nat) :
    Grows cells (cells.slotAdd address s p) := by
  refine ⟨by simp, ?_⟩
  intro o _
  rw [table_slotAdd]
  split
  · exact KeyIndex.add_extends _ _ _
  · exact KeyIndex.Extends.refl _

variable {address : Nat} {κ : Type}

theorem table_append_left {cells : SlotCells} (h : address < cells.length) (m : SlotCells) :
    SlotCells.table (cells ++ m) address = cells.table address := by
  unfold SlotCells.table
  rw [getD_eq_getElem?_getD, getD_eq_getElem?_getD, getElem?_append_left h]

theorem table_append_right (cells m : SlotCells) (offset : Nat) :
    SlotCells.table (cells ++ m) (cells.length + offset) = SlotCells.table m offset := by
  unfold SlotCells.table
  rw [getD_eq_getElem?_getD, getD_eq_getElem?_getD,
    getElem?_append_right (Nat.le_add_right ..), Nat.add_sub_cancel_left]

theorem grows_append (cells m : SlotCells) : Grows cells (cells ++ m) := by
  refine ⟨by simp, ?_⟩
  intro address ha
  rw [table_append_left ha]
  exact KeyIndex.Extends.refl _

/-! ### Widths -/

theorem widenFor_pos (n : Nat) : ∀ fuel width, 0 < width → 0 < widenFor n fuel width := by
  intro fuel
  induction fuel with
  | zero => intro width h; exact h
  | succ fuel ih =>
    intro width h
    unfold widenFor
    split
    · exact h
    · exact ih _ (by omega)

theorem termSlotsWidthFor_pos (n : Nat) : 0 < termSlotsWidthFor n :=
  widenFor_pos n n initialSlots (by decide)

theorem covers_buildSlots (K : Keying κ) (ks : List κ) {w : Nat} (h : 0 < w) :
    KeyIndex.Covers K ks (buildSlots K ks w) :=
  KeyIndex.covers_build h ks

theorem covers_freshSlots (K : Keying κ) {w : Nat} (h : 0 < w) :
    KeyIndex.Covers K [] (freshSlots w) :=
  KeyIndex.covers_nil (by simpa [freshSlots] using h)

/-- A table that covers anything is one the heap has. -/
theorem address_lt_of_width {cells : SlotCells} (h : 0 < (cells.table address).length) :
    address < cells.length := by
  by_contra hge
  unfold SlotCells.table at h
  rw [getD_eq_getElem?_getD, getElem?_eq_none (Nat.le_of_not_lt hge)] at h
  simp at h

/-! ### The invariant -/

section

variable (H : Hashing)

/-- The handles the buckets are for. -/
def bucketHandles (store : TermStore) : List Int := store.activeBuckets.map (·.tripleHandle)

/-- The rows of a store. -/
def TermStore.rows (store : TermStore) : Rows := ⟨store.atoms, store.triples⟩

@[simp] theorem rows_atoms (store : TermStore) : store.rows.atoms = store.atoms := rfl

@[simp] theorem rows_triples (store : TermStore) : store.rows.triples = store.triples := rfl

/-- Each slot table covers its rows, and no row or bucket equals a later one. -/
structure Indexed (root : Root) : Prop where
  atoms : KeyIndex.Covers H.atomKeys root.store.atoms root.atomTable
  triples : KeyIndex.Covers H.tripleKeys root.store.triples root.tripleTable
  buckets : KeyIndex.Covers H.handleKeys (bucketHandles root.store) root.activeTable
  distinct : root.store.rows.Distinct
  distinctBuckets : KeyIndex.Distinct H.handleKeys (bucketHandles root.store)

variable {H} {r : Root} {cells : SlotCells}

variable (h : Indexed H r)
include h

theorem Indexed.atomSlots_lt :
    r.store.atomSlots < r.cells.length := address_lt_of_width h.atoms.width

theorem Indexed.tripleSlots_lt :
    r.store.tripleSlots < r.cells.length := address_lt_of_width h.triples.width

theorem Indexed.activeSlots_lt :
    r.store.activeSlots < r.cells.length := address_lt_of_width h.buckets.width

/-- The invariant survives whatever anybody else puts into the heap. -/
theorem Indexed.grow (hg : Grows r.cells cells) : Indexed H { r with cells } where
  atoms := h.atoms.extend (hg.table _ h.atomSlots_lt)
  triples := h.triples.extend (hg.table _ h.tripleSlots_lt)
  buckets := h.buckets.extend (hg.table _ h.activeSlots_lt)
  distinct := h.distinct
  distinctBuckets := h.distinctBuckets

/-! ### Probing is searching -/

theorem findAtomPosition_eq (value : AtomRow) :
    findAtomPosition H r.store.atoms r.atomTable value = r.store.rows.findAtom value :=
  KeyIndex.probe_eq_search (K := H.atomKeys) h.distinct.atoms h.atoms value

theorem findTriplePosition_eq (value : TripleRow) :
    findTriplePosition H r.store.triples r.tripleTable value = r.store.rows.findTriple value :=
  KeyIndex.probe_eq_search (K := H.tripleKeys) h.distinct.triples h.triples value

theorem findActiveBucketPosition_eq (handle : Int) : findActiveBucketPosition H r handle
      = KeyIndex.search H.handleKeys (bucketHandles r.store) handle :=
  KeyIndex.probe_eq_search h.distinctBuckets h.buckets handle

/-- **`known-term-handle` answers from the rows alone.** -/
theorem knownTermHandle_eq (t : Term) : knownTermHandle H r t = r.store.rows.known t := by
  induction t with
  | atom v => simp only [knownTermHandle, Rows.known, findAtomPosition_eq h]
  | triple t1 t2 t3 ih1 ih2 ih3 =>
    simp only [knownTermHandle, ih1, ih2, ih3, findTriplePosition_eq h]
    rfl

omit h

/-! ### What an interning call leaves alone -/

/-- The two stores differ in their term rows and their term tables only. -/
structure SameHistory (store store' : TermStore) : Prop where
  spaceId : store'.spaceId = store.spaceId
  nextSequence : store'.nextSequence = store.nextSequence
  transactions : store'.transactions = store.transactions
  operations : store'.operations = store.operations
  withdrawalTargets : store'.withdrawalTargets = store.withdrawalTargets
  activeBuckets : store'.activeBuckets = store.activeBuckets
  activeCells : store'.activeCells = store.activeCells
  foldOpen : store'.foldOpen = store.foldOpen

theorem SameHistory.refl (store : TermStore) : SameHistory store store :=
  ⟨rfl, rfl, rfl, rfl, rfl, rfl, rfl, rfl⟩

theorem SameHistory.trans {s s' s'' : TermStore} (h : SameHistory s s')
    (h' : SameHistory s' s'') : SameHistory s s'' :=
  ⟨h'.spaceId.trans h.spaceId, h'.nextSequence.trans h.nextSequence,
    h'.transactions.trans h.transactions, h'.operations.trans h.operations,
    h'.withdrawalTargets.trans h.withdrawalTargets, h'.activeBuckets.trans h.activeBuckets,
    h'.activeCells.trans h.activeCells, h'.foldOpen.trans h.foldOpen⟩

/-- What an interning call does: the rows it leaves, the invariant, and what it keeps. -/
structure Interned (H : Hashing) (root root' : Root) (rows : Rows) : Prop where
  rows_eq : root'.store.rows = rows
  indexed : Indexed H root'
  grows : Grows root.cells root'.cells
  history : SameHistory root.store root'.store
  activeSlots : root'.store.activeSlots = root.store.activeSlots

theorem Interned.refl (h : Indexed H r) : Interned H r r r.store.rows :=
  ⟨rfl, h, Grows.refl _, SameHistory.refl _, rfl⟩

theorem Interned.trans {root' root'' : Root} {rows rows' : Rows} (h : Interned H r root' rows)
    (h' : Interned H root' root'' rows') : Interned H r root'' rows' :=
  ⟨h'.rows_eq, h'.indexed, h.grows.trans h'.grows, h.history.trans h'.history,
    h'.activeSlots.trans h.activeSlots⟩

/-! ### Indexing a row that was just appended -/

variable {κ : Type} {address : Nat}

private theorem covers_grown {K : Keying κ} {ks : List κ} {cs' : SlotCells}
    (h : KeyIndex.Covers K ks (cells.table address)) (hg : Grows cells cs') :
    KeyIndex.Covers K ks (cs'.table address) :=
  h.extend (hg.table _ (address_lt_of_width h.width))

/-- Putting the position of an appended key into its slot keeps the table covering. -/
theorem covers_slotAdd {K : Keying κ} {ks : List κ}
    (h : KeyIndex.Covers K ks (cells.table address)) (key : κ) :
    KeyIndex.Covers K (ks ++ [key])
      ((cells.slotAdd address (K.hash key % (cells.table address).length) ks.length).table
        address) := by
  rw [table_slotAdd, if_pos ⟨rfl, address_lt_of_width h.width⟩]
  exact h.append key

theorem indexAtomTerm_spec {atoms : List AtomRow} (h : Indexed H r)
    (ha : r.store.atoms = atoms) (v : AtomRow)
    (hd : Rows.Distinct ⟨atoms ++ [v], r.store.triples⟩) :
    Interned H r (indexAtomTerm H { r with store := { r.store with atoms := atoms ++ [v] } } v
        atoms.length)
      ⟨atoms ++ [v], r.store.triples⟩ := by
  subst ha
  have hwd := h.atoms.width
  have hcov := covers_slotAdd h.atoms v
  have hg := grows_slotAdd r.cells r.store.atomSlots
    (H.atomRow v % r.atomTable.length) r.store.atoms.length
  unfold indexAtomTerm
  dsimp only [Root.atomTable] at hwd hcov hg ⊢
  split
  · -- The table is rebuilt, in a cell nobody else has.
    refine ⟨rfl, ⟨?_, ?_, ?_, hd, h.distinctBuckets⟩, hg.trans (grows_append _ _), ?_, rfl⟩
    · show KeyIndex.Covers _ _ (SlotCells.table (_ ++ [_]) _)
      rw [show ∀ c : SlotCells, c.length = c.length + 0 from fun _ => rfl, table_append_right]
      exact covers_buildSlots _ _ (by omega)
    · exact covers_grown (covers_grown h.triples hg) (grows_append _ _)
    · exact covers_grown (covers_grown h.buckets hg) (grows_append _ _)
    · exact ⟨rfl, rfl, rfl, rfl, rfl, rfl, rfl, rfl⟩
  · refine ⟨rfl, ⟨hcov, covers_grown h.triples hg, covers_grown h.buckets hg, hd,
      h.distinctBuckets⟩, hg, ⟨rfl, rfl, rfl, rfl, rfl, rfl, rfl, rfl⟩, rfl⟩

theorem indexTripleTerm_spec {triples : List TripleRow} (h : Indexed H r)
    (ht : r.store.triples = triples) (v : TripleRow)
    (hd : Rows.Distinct ⟨r.store.atoms, triples ++ [v]⟩) :
    Interned H r (indexTripleTerm H { r with store := { r.store with triples := triples ++ [v] } }
        v triples.length)
      ⟨r.store.atoms, triples ++ [v]⟩ := by
  subst ht
  have hwd := h.triples.width
  have hcov := covers_slotAdd h.triples v
  have hg := grows_slotAdd r.cells r.store.tripleSlots
    (H.tripleRow v % r.tripleTable.length) r.store.triples.length
  unfold indexTripleTerm
  dsimp only [Root.tripleTable] at hwd hcov hg ⊢
  split
  · refine ⟨rfl, ⟨?_, ?_, ?_, hd, h.distinctBuckets⟩, hg.trans (grows_append _ _), ?_, rfl⟩
    · exact covers_grown (covers_grown h.atoms hg) (grows_append _ _)
    · show KeyIndex.Covers _ _ (SlotCells.table (_ ++ [_]) _)
      rw [show ∀ c : SlotCells, c.length = c.length + 0 from fun _ => rfl, table_append_right]
      exact covers_buildSlots _ _ (by omega)
    · exact covers_grown (covers_grown h.buckets hg) (grows_append _ _)
    · exact ⟨rfl, rfl, rfl, rfl, rfl, rfl, rfl, rfl⟩
  · refine ⟨rfl, ⟨covers_grown h.atoms hg, hcov, covers_grown h.buckets hg, hd,
      h.distinctBuckets⟩, hg, ⟨rfl, rfl, rfl, rfl, rfl, rfl, rfl, rfl⟩, rfl⟩

/-! ### The interning calls -/

theorem internAtomRow_spec (h : Indexed H r) (v : AtomRow) :
    Interned H r (internAtomRow H r v).1 (r.store.rows.internAtom v).1 ∧
      (internAtomRow H r v).2 = (r.store.rows.internAtom v).2 := by
  have hd := Rows.internAtom_distinct h.distinct v
  revert hd
  unfold internAtomRow Rows.internAtom
  rw [findAtomPosition_eq h]
  cases r.store.rows.findAtom v with
  | some ks => exact fun _ => ⟨Interned.refl h, rfl⟩
  | none => exact fun hd => ⟨indexAtomTerm_spec h rfl v hd, rfl⟩

theorem internTripleRow_spec (h : Indexed H r) (v : TripleRow) :
    Interned H r (internTripleRow H r v).1 (r.store.rows.internTriple v).1 ∧
      (internTripleRow H r v).2 = (r.store.rows.internTriple v).2 := by
  have hd := Rows.internTriple_distinct h.distinct v
  revert hd
  unfold internTripleRow Rows.internTriple
  rw [findTriplePosition_eq h]
  cases r.store.rows.findTriple v with
  | some ks => exact fun _ => ⟨Interned.refl h, rfl⟩
  | none => exact fun hd => ⟨indexTripleTerm_spec h rfl v hd, rfl⟩

/-- **Interning a Term through the tables is interning it into the rows.** -/
theorem internHandle_spec (h : Indexed H r) (t : Term) :
    Interned H r (internHandle H r t).1 (r.store.rows.intern t).1 ∧
      (internHandle H r t).2 = (r.store.rows.intern t).2 := by
  induction t generalizing r with
  | atom v => exact internAtomRow_spec h _
  | triple t1 t2 t3 ih1 ih2 ih3 =>
    obtain ⟨s1, e1⟩ := ih1 h
    obtain ⟨s2, e2⟩ := ih2 s1.indexed
    obtain ⟨s3, e3⟩ := ih3 s2.indexed
    obtain ⟨s4, e4⟩ := internTripleRow_spec s3.indexed
      ⟨(internHandle H r t1).2, (internHandle H (internHandle H r t1).1 t2).2,
        (internHandle H (internHandle H (internHandle H r t1).1 t2).1 t3).2⟩
    have heq : r.store.rows.intern (.triple t1 t2 t3)
        = (internHandle H (internHandle H (internHandle H r t1).1 t2).1
            t3).1.store.rows.internTriple
          ⟨(internHandle H r t1).2, (internHandle H (internHandle H r t1).1 t2).2,
            (internHandle H (internHandle H (internHandle H r t1).1 t2).1 t3).2⟩ := by
      rw [s3.rows_eq, e3, s2.rows_eq, e2, s1.rows_eq, e1]
      rfl
    rw [heq]
    exact ⟨((s1.trans s2).trans s3).trans s4, e4⟩

/-! ### A fresh store -/

theorem newTermStoreSized_ok {sid : String} {a b c : Nat}
    (h : newTermStoreSized cells sid a b c = .ok r) :
    Indexed H r ∧ r.store.rows = Rows.empty ∧ r.store.spaceId = sid ∧ sid ≠ "" := by
  unfold newTermStoreSized at h
  by_cases hs : validSpaceId sid = true
  · rw [if_pos hs] at h
    cases Except.ok.inj h
    have ht : ∀ off width, SlotCells.table
        [freshSlots (termSlotsWidthFor a), freshSlots (termSlotsWidthFor b),
          freshSlots (termSlotsWidthFor c)] off = freshSlots width →
        SlotCells.table (cells ++ [freshSlots (termSlotsWidthFor a),
          freshSlots (termSlotsWidthFor b), freshSlots (termSlotsWidthFor c)])
          (cells.length + off) = freshSlots width := by
      intro off width he
      rw [table_append_right]
      exact he
    refine ⟨⟨?_, ?_, ?_, ⟨List.Pairwise.nil, List.Pairwise.nil⟩, KeyIndex.distinct_nil⟩, rfl, rfl,
      by simpa [validSpaceId] using hs⟩
    · show KeyIndex.Covers _ [] (SlotCells.table _ (cells.length + 0))
      rw [ht 0 (termSlotsWidthFor a) rfl]
      exact covers_freshSlots _ (termSlotsWidthFor_pos _)
    · show KeyIndex.Covers _ [] (SlotCells.table _ (cells.length + 1))
      rw [ht 1 (termSlotsWidthFor b) rfl]
      exact covers_freshSlots _ (termSlotsWidthFor_pos _)
    · show KeyIndex.Covers _ [] (SlotCells.table _ (cells.length + 2))
      rw [ht 2 (termSlotsWidthFor c) rfl]
      exact covers_freshSlots _ (termSlotsWidthFor_pos _)
  · rw [if_neg hs] at h
    cases h

end

theorem newTermStoreSized_exists (cells : SlotCells) {sid : String} (h : sid ≠ "")
    (a b c : Nat) : ∃ r, newTermStoreSized cells sid a b c = .ok r := by
  unfold newTermStoreSized
  rw [if_pos (by simpa [validSpaceId] using h)]
  exact ⟨_, rfl⟩

end

variable {store : TermStore} {h : Int} {t : Term}

@[simp] theorem atomRowValue_atomRow (value : AtomValue) :
    atomRowValue (atomRow value) = some value := by
  cases value <;> rfl

theorem validHandle_iff : validHandle store h = true ↔ store.rows.Valid h := by
  simp only [validHandle, decide_eq_true_eq]
  constructor
  · rintro ⟨h0, hlt⟩
    rcases handle_cases h0 with ⟨p, rfl⟩ | ⟨p, rfl⟩
    · exact Or.inl ⟨p, rfl, by simpa using hlt⟩
    · exact Or.inr ⟨p, rfl, by simpa using hlt⟩
  · rintro (⟨p, rfl, hp⟩ | ⟨p, rfl, hp⟩)
    · exact ⟨atomHandle_nonneg p, by simpa using hp⟩
    · exact ⟨tripleHandle_nonneg p, by simpa using hp⟩

/-- How much fuel a handle may need. -/
private def depthOf (h : Int) : Nat := if isAtomHandle h then 0 else handlePosition h + 1

private theorem depthOf_prior {rs : Rows} {p : Nat} (hp : rs.Prior p h) : depthOf h ≤ p := by
  rcases hp with ⟨q, rfl, -⟩ | ⟨q, rfl, hq⟩
  · simp [depthOf]
  · simp [depthOf]; omega

private theorem resolveWithin_denotes (hs : store.rows.Sound) (d : store.rows.Denotes h t) :
    ∀ fuel, depthOf h < fuel → resolveWithin store fuel h = .ok t := by
  induction d with
  | @atom p v row =>
    intro fuel hf
    obtain ⟨fuel, rfl⟩ : ∃ k, fuel = k + 1 := ⟨fuel - 1, by omega⟩
    have hv : validHandle store (atomHandle p) = true :=
      validHandle_iff.mpr (Rows.Denotes.atom row).valid
    have hrow : store.atoms[p]? = some (atomRow v) := row
    simp [resolveWithin, hv, hrow]
  | @triple p row t1 t2 t3 at_row d1 d2 d3 ih1 ih2 ih3 =>
    intro fuel hf
    obtain ⟨fuel, rfl⟩ : ∃ k, fuel = k + 1 := ⟨fuel - 1, by omega⟩
    have hv : validHandle store (tripleHandle p) = true :=
      validHandle_iff.mpr (Rows.Denotes.triple at_row d1 d2 d3).valid
    have hrow : store.triples[p]? = some row := at_row
    obtain ⟨p1, p2, p3⟩ := hs.prior p row at_row
    have hp : p < fuel := by simp [depthOf] at hf; omega
    have r1 := ih1 fuel (Nat.lt_of_le_of_lt (depthOf_prior p1) hp)
    have r2 := ih2 fuel (Nat.lt_of_le_of_lt (depthOf_prior p2) hp)
    have r3 := ih3 fuel (Nat.lt_of_le_of_lt (depthOf_prior p3) hp)
    simp [resolveWithin, hv, hrow, r1, r2, r3]
    rfl

theorem resolveHandle_denotes (hs : store.rows.Sound) (d : store.rows.Denotes h t) :
    resolveHandle store h = .ok t := by
  refine resolveWithin_denotes hs d _ ?_
  rcases d.valid with ⟨p, rfl, -⟩ | ⟨p, rfl, hp⟩
  · simp [depthOf]
  · have : p < store.triples.length := hp
    simp [depthOf]; omega

private theorem resolveWithin_valid {k : Nat} (hr : resolveWithin store k h = .ok t) :
    validHandle store h = true := by
  cases k with
  | zero => simp [resolveWithin] at hr
  | succ k =>
    by_contra hv
    rw [Bool.not_eq_true] at hv
    simp [resolveWithin, hv] at hr

/-- **In sound rows `resolve-handle` returns exactly what the handle denotes.** -/
theorem resolveHandle_iff (hs : store.rows.Sound) :
    resolveHandle store h = .ok t ↔ store.rows.Denotes h t := by
  constructor
  · intro hr
    obtain ⟨u, d⟩ := (validHandle_iff.mp (resolveWithin_valid hr)).denotes hs
    have := resolveHandle_denotes hs d
    rw [this] at hr
    rwa [← Except.ok.inj hr]
  · exact resolveHandle_denotes hs

/-- A handle that names a triple row resolves to a Triple. -/
theorem resolveTripleHandle_iff (hs : store.rows.Sound) {t : Triple} :
    resolveTripleHandle store h = .ok t ↔ store.rows.Denotes h t.term := by
  unfold resolveTripleHandle
  constructor
  · intro hr
    cases hh : resolveHandle store h with
    | error e => rw [hh] at hr; simp [bind, Except.bind] at hr
    | ok u =>
      rw [hh] at hr
      have d := (resolveHandle_iff hs).mp hh
      cases u with
      | atom v => simp [bind, Except.bind, termAsTriple] at hr
      | triple u1 u2 u3 =>
        have : (⟨u1, u2, u3⟩ : Triple) = t := by
          simpa [bind, Except.bind, termAsTriple] using hr
        rw [← this]
        exact d
  · intro d
    rw [resolveHandle_denotes hs d]
    rfl

end Beagle.Store
