/-
The store refines the ledger.

`Holds root l` says a store holds a ledger: its dump is the ledger's dump, its slot
tables cover its rows, and its derived state is what folding the ledger's operation
rows gives.  Every operation of the store is shown to do to the ledger what
`Ledger` says, and to keep `Holds`.
-/
import Beagle.Ledger.Ledger
import Beagle.Proofs.Liveness

namespace Beagle.Store

open Beagle.Lib List

section

variable {H : Hashing}

/-- The derived state is what folding these acts gives. -/
structure DerivedFrom (H : Hashing) (acts : List (Lifo.Act Int)) (root : Root) : Prop where
  targets : root.store.withdrawalTargets = Lifo.targets acts
  active : ∀ k, activePositions H root k = Lifo.live acts k

/-- A store holds a ledger. -/
structure Holds (H : Hashing) (root : Root) (l : Ledger) : Prop where
  indexed : Indexed H root
  shaped : Shaped root.store
  derived : DerivedFrom H (actsOf l.operations) root
  dump : dumpTermStore root.store = l.dump

namespace Holds

variable {rt : Root} {l : Ledger} (h : Holds H rt l)
include h

theorem spaceId : rt.store.spaceId = l.spaceId :=
  congrArg TermStoreDump.spaceId h.dump

theorem nextSequence : rt.store.nextSequence = l.nextSequence :=
  congrArg TermStoreDump.nextSequence h.dump

theorem atoms : rt.store.atoms = l.rows.atoms :=
  congrArg TermStoreDump.atoms h.dump

theorem triples : rt.store.triples = l.rows.triples :=
  congrArg TermStoreDump.triples h.dump

theorem rows : rt.store.rows = l.rows := by
  unfold TermStore.rows
  rw [h.atoms, h.triples]

theorem transactions : rt.store.transactions = l.transactions :=
  congrArg TermStoreDump.transactions h.dump

theorem operations : rt.store.operations = l.operations :=
  congrArg TermStoreDump.operations h.dump

theorem targets :
    rt.store.withdrawalTargets = Lifo.targets (actsOf l.operations) := h.derived.targets

theorem active (k : Int) :
    activePositions H rt k = Lifo.live (actsOf l.operations) k := h.derived.active k

end Holds

/-! ### A fresh store -/

/-- A fresh store holds the empty ledger. -/
theorem newTermStoreSized_holds {cs : SlotCells} {sid : String} {a b c : Nat} {rt : Root}
    (h : newTermStoreSized cs sid a b c = .ok rt) :
    Holds H rt (Ledger.empty sid) ∧ rt.store.foldOpen = false ∧ sid ≠ "" := by
  obtain ⟨hidx, -, -, -⟩ := newTermStoreSized_ok (H := H) h
  unfold newTermStoreSized at h
  by_cases hs : validSpaceId sid = true
  · rw [if_pos hs] at h
    cases Except.ok.inj h
    refine ⟨⟨hidx, ⟨rfl, fun _ => rfl⟩, ⟨rfl, ?_⟩, rfl⟩, rfl, by simpa [validSpaceId] using hs⟩
    intro k
    rw [activePositions_eq hidx]
    rfl
  · rw [if_neg hs] at h
    cases h

/-! ### Interning -/

variable {r' : Root} {sq : Int} {α β : Type}

theorem activePositions_interned {rt : Root} {rs : Rows} (h : Indexed H rt)
    (hi : Interned H rt r' rs) (k : Int) :
    activePositions H r' k = activePositions H rt k := by
  rw [activePositions_eq hi.indexed, activePositions_eq h]
  unfold bucketHandles bucketValues
  rw [hi.history.activeBuckets, hi.history.activeCells, hi.history.foldOpen]

theorem shaped_interned {rt : Root} {rs : Rows} (h : Shaped rt.store)
    (hi : Interned H rt r' rs) : Shaped r'.store := by
  refine ⟨?_, ?_⟩
  · have := h.length
    unfold bucketValues at this ⊢
    rw [hi.history.activeBuckets, hi.history.activeCells, hi.history.foldOpen]
    exact this
  · intro hf
    rw [hi.history.foldOpen] at hf
    rw [hi.history.activeCells]
    exact h.closed hf

/-- Interning changes the rows of the ledger a store holds, and nothing else. -/
theorem Holds.interned {rt : Root} {l : Ledger} {rows : Rows} (h : Holds H rt l)
    (hi : Interned H rt r' rows) : Holds H r' { l with rows } := by
  refine ⟨hi.indexed, shaped_interned h.shaped hi, ⟨?_, ?_⟩, ?_⟩
  · rw [hi.history.withdrawalTargets, h.targets]; rfl
  · intro k
    rw [activePositions_interned h.indexed hi, h.active]; rfl
  · unfold dumpTermStore Ledger.dump
    have ha : r'.store.atoms = rows.atoms := congrArg Rows.atoms hi.rows_eq
    have ht : r'.store.triples = rows.triples := congrArg Rows.triples hi.rows_eq
    rw [hi.history.spaceId, hi.history.nextSequence, hi.history.transactions,
      hi.history.operations, h.spaceId, h.nextSequence, h.transactions, h.operations, ha, ht]
    rfl

theorem operationHandles_spec {rt : Root} (h : Indexed H rt) (ops : List CommitOperation) :
    Interned H rt (operationHandles H rt ops).1 (rt.store.rows.internAll (propositions ops)).1 ∧
      (operationHandles H rt ops).2 = (rt.store.rows.internAll (propositions ops)).2 := by
  induction ops generalizing rt with
  | nil => exact ⟨Interned.refl h, rfl⟩
  | cons op r ih =>
    obtain ⟨s, e⟩ := internHandle_spec h op.proposition.term
    obtain ⟨s', e'⟩ := ih s.indexed
    rw [s.rows_eq] at s' e'
    refine ⟨s.trans s', ?_⟩
    show _ :: _ = _ :: _
    rw [e, e']
    rfl

/-! ### Folding one operation row -/

variable {a : List (Lifo.Act Int)}

/-- What folding one operation row does. -/
theorem applyOperationState_spec {rt : Root} (h : Indexed H rt) (hs : Shaped rt.store)
    (hd : DerivedFrom H a rt) {r : OperationRow}
    {p : Nat} (hp : p = a.length) :
    Indexed H (applyOperationState H rt p r) ∧ Shaped (applyOperationState H rt p r).store ∧
      DerivedFrom H (a ++ [r.act]) (applyOperationState H rt p r) ∧
      KeepsHistory rt.store (applyOperationState H rt p r).store ∧
      Grows rt.cells (applyOperationState H rt p r).cells := by
  subst hp
  have hlen := Lifo.length_targets a
  -- The withdrawal targets are read by nobody below, so pushing one changes no answer.
  have htgt : ∀ t : Option Nat, Indexed H { rt with store :=
          { rt.store with withdrawalTargets := rt.store.withdrawalTargets ++ [t] } } ∧
        Shaped { rt.store with
          withdrawalTargets := rt.store.withdrawalTargets ++ [t] } :=
    fun t => ⟨⟨h.atoms, h.triples, h.buckets, h.distinct, h.distinctBuckets⟩,
      ⟨hs.length, hs.closed⟩⟩
  have hst : ∀ k, Lifo.live (a ++ [r.act]) k = (Lifo.step (Lifo.run a) r.act).live k := by
    intro k; unfold Lifo.live; rw [Lifo.run_append]
  unfold applyOperationState
  by_cases ha : r.action = .assert
  · have hpus : r.act.push = true := by simp [OperationRow.act, ha]
    have hsp := setActivePositions_spec (htgt none).1 (htgt none).2 r.tripleHandle
      (activePositions H rt r.tripleHandle ++ [a.length])
    simp only [if_pos ha]
    refine ⟨hsp.indexed, hsp.shaped, ⟨?_, ?_⟩, ?_, hsp.grows⟩
    · rw [hsp.targets, Lifo.targets_append, ← hd.targets]
      simp [Lifo.target, hpus]
    · intro k
      rw [hsp.active, hst, Lifo.step_live_push hpus]
      have hrun : (Lifo.run a).targets.length = a.length := hlen
      rw [hrun]
      show (if k = r.tripleHandle then activePositions H rt r.tripleHandle ++ [a.length]
        else activePositions H rt k) = _
      rw [hd.active, hd.active]
      rfl
    · exact ⟨hsp.keeps.spaceId, hsp.keeps.nextSequence, hsp.keeps.atoms,
        hsp.keeps.triples, hsp.keeps.transactions, hsp.keeps.operations,
        hsp.keeps.foldOpen⟩
  · have hpu : r.act.push = false := by simp [OperationRow.act, ha]
    simp only [if_neg ha]
    have hli : activePositions H rt r.tripleHandle = (Lifo.run a).live r.act.key := hd.active _
    cases hl : (activePositions H rt r.tripleHandle).getLast? with
    | none =>
      have hnil := getLast?_eq_none_iff.mp hl
      refine ⟨(htgt none).1, (htgt none).2, ⟨?_, ?_⟩, ⟨rfl, rfl, rfl, rfl, rfl, rfl, rfl⟩,
        Grows.refl _⟩
      · rw [Lifo.targets_append, ← hd.targets]
        simp [Lifo.target, hpu, ← hli, hnil]
      · intro k
        rw [hst, Lifo.step_live_pull hpu]
        show activePositions H rt k = _
        rw [hd.active]
        by_cases hk : k = r.act.key
        · rw [if_pos hk, ← hli, hnil, hk]
          show (Lifo.run a).live r.act.key = _
          rw [← hli, hnil]
          rfl
        · rw [if_neg hk]; rfl
    | some t =>
      have hsp := setActivePositions_spec (htgt (some t)).1 (htgt (some t)).2
        r.tripleHandle (activePositions H rt r.tripleHandle).dropLast
      refine ⟨hsp.indexed, hsp.shaped, ⟨?_, ?_⟩, ?_, hsp.grows⟩
      · rw [hsp.targets, Lifo.targets_append, ← hd.targets]
        simp [Lifo.target, hpu, ← hli, hl]
      · intro k
        rw [hsp.active, hst, Lifo.step_live_pull hpu, ← hli]
        show (if k = r.tripleHandle then _ else activePositions H rt k) = _
        rw [hd.active k]
        rfl
      · exact ⟨hsp.keeps.spaceId, hsp.keeps.nextSequence, hsp.keeps.atoms,
          hsp.keeps.triples, hsp.keeps.transactions, hsp.keeps.operations,
          hsp.keeps.foldOpen⟩

/-! ### Appending a transaction -/

/-- What the loop over the ordinals leaves behind. -/
structure Appended (H : Hashing) (root root' : Root) (rows : List OperationRow) : Prop where
  indexed : Indexed H root'
  shaped : Shaped root'.store
  derived : DerivedFrom H (actsOf root'.store.operations) root'
  operations : root'.store.operations = root.store.operations ++ rows
  spaceId : root'.store.spaceId = root.store.spaceId
  atoms : root'.store.atoms = root.store.atoms
  triples : root'.store.triples = root.store.triples
  transactions : root'.store.transactions = root.store.transactions
  foldOpen : root'.store.foldOpen = root.store.foldOpen
  grows : Grows root.cells root'.cells

theorem appendOperationRows_spec (sq : Int) (first : Nat) :
    ∀ (ac : List (Action × Int)) (n : Nat) (rt : Root), Indexed H rt →
      Shaped rt.store → DerivedFrom H (actsOf rt.store.operations) rt →
      first + n = rt.store.operations.length →
      Appended H rt (appendOperationRows H sq first n ac rt) (operationRowsFrom sq n ac) := by
  intro ac
  induction ac with
  | nil =>
    intro n rt h hs hd _
    exact ⟨h, hs, hd, (append_nil _).symm, rfl, rfl, rfl, rfl, rfl, Grows.refl _⟩
  | cons act rs ih =>
    intro n rt h hs hd hpos
    obtain ⟨a, h'⟩ := act
    have hi : Indexed H { rt with store := { rt.store with
        operations := rt.store.operations ++ [⟨sq, n, a, h'⟩] } } :=
      ⟨h.atoms, h.triples, h.buckets, h.distinct, h.distinctBuckets⟩
    have hsh : Shaped { rt.store with
        operations := rt.store.operations ++ [⟨sq, n, a, h'⟩] } :=
      ⟨hs.length, hs.closed⟩
    have hder : DerivedFrom H (actsOf rt.store.operations) { rt with store :=
        { rt.store with
          operations := rt.store.operations ++ [⟨sq, n, a, h'⟩] } } :=
      ⟨hd.targets, hd.active⟩
    obtain ⟨i1, s1, d1, k1, g1⟩ := applyOperationState_spec hi hsh hder
      (r := ⟨sq, n, a, h'⟩) (p := first + n)
      (by rw [length_actsOf]; exact hpos)
    have hops := k1.operations
    dsimp only at hops
    have hr := ih (n + 1) _ i1 s1 (by rw [hops, actsOf, map_append]; exact d1)
      (by rw [hops, length_append, length_singleton]; omega)
    refine ⟨hr.indexed, hr.shaped, hr.derived, ?_, hr.spaceId.trans k1.spaceId,
      hr.atoms.trans k1.atoms, hr.triples.trans k1.triples,
      hr.transactions.trans k1.transactions, hr.foldOpen.trans k1.foldOpen,
      g1.trans hr.grows⟩
    show (appendOperationRows H sq first (n + 1) rs _).store.operations = _
    rw [hr.operations, hops, append_assoc]
    rfl

theorem incInt_ok {v : Int} (h : v ≠ 9223372036854775807) : incInt v = .ok (v + 1) := if_neg h

/-- **Appending a transaction to a store appends it to the ledger it holds.** -/
theorem appendTransactionRows_spec {rt : Root} {l : Ledger} (h : Holds H rt l)
    (hseq : sq ≠ 9223372036854775807) (acts : List (Action × Int)) :
    ∃ r', appendTransactionRows H rt sq acts = .ok r' ∧ Holds H r' (l.append sq acts) ∧
      r'.store.foldOpen = rt.store.foldOpen ∧ Grows rt.cells r'.cells := by
  let started : Root := { rt with store := { rt.store with
    transactions := rt.store.transactions ++ [⟨sq, rt.store.operations.length, acts.length⟩] } }
  let a := appendOperationRows H sq rt.store.operations.length 0 acts started
  have hi : Indexed H started :=
    ⟨h.indexed.atoms, h.indexed.triples, h.indexed.buckets, h.indexed.distinct,
      h.indexed.distinctBuckets⟩
  have hd : DerivedFrom H (actsOf rt.store.operations) started := by
    rw [h.operations]
    exact ⟨h.derived.targets, h.derived.active⟩
  have happ : Appended H started a (operationRowsFrom sq 0 acts) :=
    appendOperationRows_spec sq rt.store.operations.length acts 0 started hi
      ⟨h.shaped.length, h.shaped.closed⟩ hd (Nat.add_zero _)
  have hops : a.store.operations
      = rt.store.operations ++ operationRowsFrom sq 0 acts := happ.operations
  refine ⟨{ a with store := { a.store with nextSequence := sq + 1 } }, ?_, ?_,
    happ.foldOpen, happ.grows⟩
  · unfold appendTransactionRows
    rw [incInt_ok hseq]
    rfl
  refine ⟨⟨happ.indexed.atoms, happ.indexed.triples, happ.indexed.buckets, happ.indexed.distinct,
    happ.indexed.distinctBuckets⟩, ⟨happ.shaped.length, happ.shaped.closed⟩, ⟨?_, ?_⟩, ?_⟩
  · rw [Ledger.append_operations, ← h.operations, ← hops]
    exact happ.derived.targets
  · rw [Ledger.append_operations, ← h.operations, ← hops]
    exact happ.derived.active
  · have htx : a.store.transactions = rt.store.transactions ++
        [⟨sq, rt.store.operations.length, acts.length⟩] := happ.transactions
    have hsp : a.store.spaceId = rt.store.spaceId := happ.spaceId
    have hat : a.store.atoms = rt.store.atoms := happ.atoms
    have htr : a.store.triples = rt.store.triples := happ.triples
    unfold dumpTermStore Ledger.dump
    rw [Ledger.append_operations, Ledger.append_transactions, Ledger.append_nextSequence]
    dsimp only
    rw [hops, hsp, hat, htr, htx, h.spaceId, h.atoms, h.triples, h.transactions, h.operations]
    rfl

theorem appendTransactionRows_trap (rt : Root) (a : List (Action × Int)) :
    appendTransactionRows H rt 9223372036854775807 a = .error .trap := rfl

/-- **Committing to a store commits to the ledger it holds.** -/
theorem appendValidTransaction_spec {rt : Root} {l : Ledger} (h : Holds H rt l)
    (hseq : sq ≠ 9223372036854775807) (operations : List CommitOperation) :
    ∃ r', appendValidTransaction H rt sq operations = .ok r' ∧ Holds H r' (l.commit sq operations) ∧
      r'.store.foldOpen = rt.store.foldOpen ∧ Grows rt.cells r'.cells := by
  obtain ⟨hi, hh⟩ := operationHandles_spec h.indexed operations
  rw [h.rows] at hi hh
  obtain ⟨r', hok, hhd, hfold, hg⟩ := appendTransactionRows_spec (h.interned hi) hseq
    ((operations.map CommitOperation.action).zip (operationHandles H rt operations).2)
  refine ⟨r', hok, ?_, hfold.trans hi.history.foldOpen, hi.grows.trans hg⟩
  rw [hh] at hhd
  exact hhd

/-! ### Opening and closing a fold -/

theorem openFold_spec {rt : Root} {l : Ledger} (h : Holds H rt l) :
    Holds H (openFold rt) l ∧ (openFold rt).store.foldOpen = true := by
  unfold openFold
  by_cases hf : rt.store.foldOpen = true
  · rw [if_pos hf]
    exact ⟨h, hf⟩
  · rw [if_neg hf]
    have hf' : rt.store.foldOpen = false := by simpa using hf
    have hh : bucketHandles { rt.store with
        activeBuckets := rt.store.activeBuckets.map fun b => ⟨b.tripleHandle, []⟩
        activeCells := rt.store.activeBuckets.map (·.positions)
        foldOpen := true } = bucketHandles rt.store := by
      simp [bucketHandles]
    have hi : Indexed H { rt with store := { rt.store with
        activeBuckets := rt.store.activeBuckets.map fun b => ⟨b.tripleHandle, []⟩
        activeCells := rt.store.activeBuckets.map (·.positions)
        foldOpen := true } } := by
      refine ⟨h.indexed.atoms, h.indexed.triples, ?_, h.indexed.distinct, ?_⟩
      · dsimp only; rw [hh]; exact h.indexed.buckets
      · dsimp only; rw [hh]; exact h.indexed.distinctBuckets
    refine ⟨⟨hi, ⟨by simp [bucketValues], by simp⟩, ⟨h.targets, ?_⟩, h.dump⟩, rfl⟩
    intro k
    rw [← h.active, activePositions_eq hi, activePositions_eq h.indexed]
    dsimp only
    rw [hh]
    simp [bucketValues, hf']

private theorem zipWith_fst {γ : Type} (f : α → γ) (l : List α) (l' : List β)
    (h : l.length = l'.length) : l.zipWith (fun a _ => f a) l' = l.map f := by
  induction l generalizing l' with
  | nil => rfl
  | cons a l ih =>
    cases l' with
    | nil => simp at h
    | cons b l' => simp only [zipWith, List.map, ih l' (by simpa using h)]

private theorem zipWith_snd (l : List α) (l' : List β) (h : l.length = l'.length) :
    l.zipWith (fun _ b => b) l' = l' := by
  induction l generalizing l' with
  | nil =>
    cases l' with
    | nil => rfl
    | cons b l' => simp at h
  | cons a l ih =>
    cases l' with
    | nil => rfl
    | cons b l' => simp only [zipWith, ih l' (by simpa using h)]

/-- Closing a fold changes where the positions are kept, and nothing else. -/
theorem closeFold_derived {rt : Root} (h : Indexed H rt) (hs : Shaped rt.store)
    (hd : DerivedFrom H a rt) :
    Indexed H (closeFold rt) ∧ Shaped (closeFold rt).store ∧ DerivedFrom H a (closeFold rt) ∧
      dumpTermStore (closeFold rt).store = dumpTermStore rt.store ∧
      (closeFold rt).store.foldOpen = false := by
  unfold closeFold
  by_cases hf : rt.store.foldOpen = true
  · rw [if_neg (by simp [hf])]
    have hlen : rt.store.activeBuckets.length = rt.store.activeCells.length := by
      have := hs.length
      simp only [bucketValues, hf, if_true] at this
      exact this.symm
    have hh : bucketHandles { rt.store with
        activeBuckets := rt.store.activeBuckets.zipWith
          (fun bk ps => ⟨bk.tripleHandle, ps⟩) rt.store.activeCells
        activeCells := []
        foldOpen := false } = bucketHandles rt.store := by
      simp only [bucketHandles, map_zipWith]
      exact zipWith_fst _ _ _ hlen
    have hv : bucketValues { rt.store with
        activeBuckets := rt.store.activeBuckets.zipWith
          (fun bk ps => ⟨bk.tripleHandle, ps⟩) rt.store.activeCells
        activeCells := []
        foldOpen := false } = bucketValues rt.store := by
      simp only [bucketValues, hf, if_true, map_zipWith]
      exact zipWith_snd _ _ hlen
    have hi : Indexed H { rt with store := { rt.store with
        activeBuckets := rt.store.activeBuckets.zipWith
          (fun bk ps => ⟨bk.tripleHandle, ps⟩) rt.store.activeCells
        activeCells := []
        foldOpen := false } } := by
      refine ⟨h.atoms, h.triples, ?_, h.distinct, ?_⟩
      · dsimp only; rw [hh]; exact h.buckets
      · dsimp only; rw [hh]; exact h.distinctBuckets
    refine ⟨hi, ⟨?_, fun _ => rfl⟩, ⟨hd.targets, ?_⟩, rfl, rfl⟩
    · dsimp only
      rw [hv, hs.length, length_zipWith, ← hlen, Nat.min_self]
    · intro k
      rw [← hd.active, activePositions_eq hi, activePositions_eq h]
      dsimp only
      rw [hh, hv]
  · rw [if_pos (by simp [hf])]
    exact ⟨h, hs, hd, rfl, by simpa using hf⟩

theorem closeFold_spec {rt : Root} {l : Ledger} (h : Holds H rt l) :
    Holds H (closeFold rt) l ∧ (closeFold rt).store.foldOpen = false := by
  obtain ⟨hi, hs, hd, hdu, hf⟩ := closeFold_derived h.indexed h.shaped h.derived
  exact ⟨⟨hi, hs, hd, hdu.trans h.dump⟩, hf⟩

end

end Beagle.Store
