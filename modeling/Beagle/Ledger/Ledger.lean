/-
What a store is for: a ledger.

A ledger is a SpaceId, the rows its Terms are interned into, and the transactions
in commit order, each a sequence and a list of acts on proposition handles.  The
four row lists of a dump, the next sequence, the withdrawal targets and the live
positions are all functions of it.
-/
import Beagle.Ledger.Rows
import Beagle.Lib.Lifo
import Beagle.Store.Dump

namespace Beagle.Store

open Beagle.Lib List

/-- One transaction: its sequence, and what it asserts and retracts. -/
structure Transaction where
  sequence : Int
  acts : List (Action × Int)
deriving DecidableEq, Repr

structure Ledger where
  spaceId : String
  rows : Rows
  history : List Transaction
deriving DecidableEq, Repr

/-! ### The row lists of a ledger -/

def operationRowsFrom (sequence : Int) : Nat → List (Action × Int) → List OperationRow
  | _, [] => []
  | ordinal, (action, handle) :: rest =>
    ⟨sequence, ordinal, action, handle⟩ :: operationRowsFrom sequence (ordinal + 1) rest

def Transaction.operationRows (t : Transaction) : List OperationRow :=
  operationRowsFrom t.sequence 0 t.acts

def transactionRowsFrom : Nat → List Transaction → List TransactionRow
  | _, [] => []
  | first, t :: rest =>
    ⟨t.sequence, first, t.acts.length⟩ :: transactionRowsFrom (first + t.acts.length) rest

namespace Ledger

def empty (spaceId : String) : Ledger := ⟨spaceId, Rows.empty, []⟩

def operations (l : Ledger) : List OperationRow := l.history.flatMap Transaction.operationRows

def transactions (l : Ledger) : List TransactionRow := transactionRowsFrom 0 l.history

def nextSequence (l : Ledger) : Int :=
  match l.history.getLast? with
  | none => 1
  | some t => t.sequence + 1

def dump (l : Ledger) : TermStoreDump :=
  { version := termStoreDumpVersion
    spaceId := l.spaceId
    nextSequence := l.nextSequence
    atoms := l.rows.atoms
    triples := l.rows.triples
    transactions := l.transactions
    operations := l.operations }

/-! ### Appending -/

/-- Append a transaction whose propositions are interned already. -/
def append (l : Ledger) (sequence : Int) (acts : List (Action × Int)) : Ledger :=
  { l with history := l.history ++ [⟨sequence, acts⟩] }

end Ledger

/-- Intern a list of Terms, first to last. -/
def Rows.internAll (rows : Rows) : List Term → Rows × List Int
  | [] => (rows, [])
  | t :: rest =>
    let r := rows.intern t
    let rs := internAll r.1 rest
    (rs.1, r.2 :: rs.2)

/-- The Terms of the propositions of a commit. -/
def propositions (operations : List CommitOperation) : List Term :=
  operations.map fun operation => operation.proposition.term

/-- Commit a list of operations: intern their propositions, then append the transaction. -/
def Ledger.commit (l : Ledger) (sequence : Int) (operations : List CommitOperation) : Ledger :=
  let interned := l.rows.internAll (propositions operations)
  { l with rows := interned.1 }.append sequence ((operations.map CommitOperation.action).zip interned.2)

/-! ### What makes a ledger well formed -/

/-- A transaction over these rows: some acts, each an assertion or a retraction of a triple. -/
structure Transaction.Wf (rows : Rows) (t : Transaction) : Prop where
  nonempty : t.acts ≠ []
  action : ∀ act ∈ t.acts, act.1 = .assert ∨ act.1 = .retract
  handle : ∀ act ∈ t.acts, ∃ p, act.2 = tripleHandle p ∧ p < rows.triples.length

structure Ledger.Wf (l : Ledger) : Prop where
  space : l.spaceId ≠ ""
  sound : l.rows.Sound
  distinct : l.rows.Distinct
  transactions : ∀ t ∈ l.history, t.Wf l.rows
  ascending : l.history.Pairwise fun t u => t.sequence < u.sequence
  nonneg : ∀ t ∈ l.history, 0 ≤ t.sequence

variable {t : Transaction}

theorem Transaction.Wf.mono {rs rows' : Rows} (he : Rows.Extends rs rows') (h : t.Wf rs) :
    t.Wf rows' := by
  refine ⟨h.nonempty, h.action, ?_⟩
  intro act hact
  obtain ⟨p, hp, hlt⟩ := h.handle act hact
  exact ⟨p, hp, Nat.lt_of_lt_of_le hlt he.triples.length_le⟩

theorem Ledger.empty_wf {sid : String} (h : sid ≠ "") : (Ledger.empty sid).Wf where
  space := h
  sound := Rows.empty_sound
  distinct := ⟨List.Pairwise.nil, List.Pairwise.nil⟩
  transactions t ht := by simp [Ledger.empty] at ht
  ascending := List.Pairwise.nil
  nonneg t ht := by simp [Ledger.empty] at ht

/-! ### Appending, row by row -/

variable {sq : Int} {l : Ledger}

@[simp] theorem length_operationRowsFrom (sq : Int) (n : Nat)
    (a : List (Action × Int)) : (operationRowsFrom sq n a).length = a.length := by
  induction a generalizing n with
  | nil => rfl
  | cons act a ih => simp [operationRowsFrom, ih]

variable {a : List (Action × Int)}

/-- The operation rows of a transaction have its sequence, and ascending ordinals. -/
theorem operationRowsFrom_place {row : OperationRow} :
    ∀ {n : Nat}, row ∈ operationRowsFrom sq n a →
      row.txSequence = sq ∧ n ≤ row.ordinal ∧ row.ordinal < n + a.length := by
  induction a with
  | nil => intro n h; exact absurd h not_mem_nil
  | cons act r ih =>
    intro n h
    rw [length_cons]
    rcases mem_cons.mp h with rfl | h
    · exact ⟨rfl, Int.le_refl _, by simp only []; omega⟩
    · obtain ⟨hseq, hle, hlt⟩ := ih h
      exact ⟨hseq, by omega, by omega⟩

theorem transactionRowsFrom_append (first : Nat) (ts us : List Transaction) :
    transactionRowsFrom first (ts ++ us) = transactionRowsFrom first ts
        ++ transactionRowsFrom (first + (ts.flatMap Transaction.operationRows).length) us := by
  induction ts generalizing first with
  | nil => simp [transactionRowsFrom]
  | cons t ts ih =>
    simp only [cons_append, transactionRowsFrom, ih, flatMap_cons, length_append,
      Transaction.operationRows, length_operationRowsFrom, Nat.add_assoc]

theorem Ledger.append_operations (l : Ledger) (sq : Int) (acts : List (Action × Int)) :
    (l.append sq acts).operations = l.operations ++ operationRowsFrom sq 0 acts := by
  simp [Ledger.append, Ledger.operations, Transaction.operationRows]

theorem Ledger.append_transactions (l : Ledger) (sq : Int) (a : List (Action × Int)) :
    (l.append sq a).transactions = l.transactions ++ [⟨sq, l.operations.length, a.length⟩] := by
  simp [Ledger.append, Ledger.transactions, Ledger.operations, transactionRowsFrom_append,
    transactionRowsFrom]

@[simp] theorem Ledger.append_nextSequence (l : Ledger) (sq : Int)
    (a : List (Action × Int)) : (l.append sq a).nextSequence = sq + 1 := by
  simp [Ledger.append, Ledger.nextSequence]

/-- Every sequence of the history is below the next one. -/
theorem Ledger.Wf.sequence_lt (h : l.Wf) (ht : t ∈ l.history) : t.sequence < l.nextSequence := by
  unfold Ledger.nextSequence
  cases hl : l.history.getLast? with
  | none => rw [getLast?_eq_none_iff.mp hl] at ht; simp at ht
  | some la =>
    have hsp := (dropLast_append_getLast? la hl).symm
    have hasc := h.ascending
    rw [hsp] at hasc ht
    rcases List.mem_append.mp ht with ht | ht
    · have := (pairwise_append.mp hasc).2.2 t ht la (mem_singleton.mpr rfl)
      dsimp only
      omega
    · rw [mem_singleton.mp ht]
      dsimp only
      omega

theorem Ledger.Wf.nextSequence_pos (h : l.Wf) : 1 ≤ l.nextSequence := by
  unfold Ledger.nextSequence
  cases hl : l.history.getLast? with
  | none => exact Int.le_refl 1
  | some la =>
    have := h.nonneg la (mem_of_getLast? hl)
    dsimp only
    omega

/-! ### Interning a list of Terms -/

theorem Rows.internAll_extends (rs : Rows) (ts : List Term) :
    Rows.Extends rs (rs.internAll ts).1 := by
  induction ts generalizing rs with
  | nil => exact Rows.Extends.refl rs
  | cons t ts ih => exact (Rows.intern_extends rs t).trans (ih _)

variable {rs : Rows}

theorem Rows.internAll_distinct (h : rs.Distinct) (ts : List Term) :
    (rs.internAll ts).1.Distinct := by
  induction ts generalizing rs with
  | nil => exact h
  | cons t ts ih => exact ih (Rows.intern_distinct h t)

theorem Rows.internAll_sound (h : rs.Sound) (ts : List Term) :
    (rs.internAll ts).1.Sound := by
  induction ts generalizing rs with
  | nil => exact h
  | cons t ts ih => exact ih (Rows.intern_sound h t)

/-- Each handle denotes a Term that agrees with the one interned. -/
theorem Rows.internAll_agrees (hs : rs.Sound) (ts : List Term) :
    Forall₂ (fun h' t => ∃ u, (rs.internAll ts).1.Denotes h' u ∧ u.agrees t)
      (rs.internAll ts).2 ts := by
  induction ts generalizing rs with
  | nil => exact .nil
  | cons t ts ih =>
    obtain ⟨u, d, hu⟩ := Rows.intern_agrees hs t
    exact .cons ⟨u, d.mono (Rows.internAll_extends _ ts), hu⟩ (ih (Rows.intern_sound hs t))

@[simp] theorem Rows.length_internAll (rs : Rows) (ts : List Term) :
    (rs.internAll ts).2.length = ts.length := by
  induction ts generalizing rs with
  | nil => rfl
  | cons t ts ih => simp [Rows.internAll, ih]

/-- A triple is interned to a triple handle. -/
theorem Rows.intern_triple_handle (rs : Rows) (t1 t2 t3 : Term) :
    ∃ p, (rs.intern (.triple t1 t2 t3)).2 = tripleHandle p ∧
      p < (rs.intern (.triple t1 t2 t3)).1.triples.length := by
  have hv := Rows.intern_valid rs (.triple t1 t2 t3)
  have hs : ∃ p, (rs.intern (.triple t1 t2 t3)).2 = tripleHandle p := by
    simp only [Rows.intern, Rows.internTriple]
    split
    · exact ⟨_, rfl⟩
    · exact ⟨_, rfl⟩
  obtain ⟨p, hp⟩ := hs
  rcases hv with ⟨q, hq, -⟩ | ⟨q, hq, hlt⟩
  · exact absurd (hq.symm.trans hp) (atomHandle_ne_tripleHandle _ _)
  · exact ⟨q, hq, hlt⟩

theorem Rows.internAll_handles (rs : Rows) (ts : List Term)
    (hts : ∀ t ∈ ts, ∃ t1 t2 t3, t = .triple t1 t2 t3) :
    ∀ h ∈ (rs.internAll ts).2, ∃ p, h = tripleHandle p ∧
      p < (rs.internAll ts).1.triples.length := by
  induction ts generalizing rs with
  | nil => intro h hh; simp [Rows.internAll] at hh
  | cons t ts ih =>
    intro h hh
    simp only [Rows.internAll, mem_cons] at hh ⊢
    rcases hh with rfl | hh
    · obtain ⟨t1, t2, t3, rfl⟩ := hts t (mem_cons_self ..)
      obtain ⟨p, hp, hlt⟩ := Rows.intern_triple_handle rs t1 t2 t3
      refine ⟨p, hp, Nat.lt_of_lt_of_le hlt ?_⟩
      exact (Rows.internAll_extends _ ts).triples.length_le
    · exact ih _ (fun t ht => hts t (mem_cons_of_mem _ ht)) h hh

theorem propositions_triple (ops : List CommitOperation) :
    ∀ t ∈ propositions ops, ∃ t1 t2 t3, t = .triple t1 t2 t3 := by
  intro t ht
  obtain ⟨op, -, rfl⟩ := mem_map.mp ht
  exact ⟨_, _, _, rfl⟩

/-- Appending a well-formed transaction with an advancing sequence keeps the ledger well
    formed. -/
theorem Ledger.Wf.append (h : l.Wf) (hseq : l.nextSequence ≤ sq)
    (ht : (⟨sq, a⟩ : Transaction).Wf l.rows) :
    (l.append sq a).Wf where
  space := h.space
  sound := h.sound
  distinct := h.distinct
  transactions t hmem := by
    rcases List.mem_append.mp hmem with hmem | hmem
    · exact h.transactions t hmem
    · rw [mem_singleton.mp hmem]; exact ht
  ascending := by
    refine pairwise_append.mpr ⟨h.ascending, pairwise_singleton _ _, ?_⟩
    intro t hmem u hu
    rw [mem_singleton.mp hu]
    exact Int.lt_of_lt_of_le (h.sequence_lt hmem) hseq
  nonneg t hmem := by
    rcases List.mem_append.mp hmem with hmem | hmem
    · exact h.nonneg t hmem
    · rw [mem_singleton.mp hmem]
      have := h.nextSequence_pos
      dsimp only
      omega

/-- Growing the rows keeps the ledger well formed. -/
theorem Ledger.Wf.grow (h : l.Wf) {rows : Rows} (he : Rows.Extends l.rows rows) (hs : rows.Sound)
    (hd : rows.Distinct) : ({ l with rows } : Ledger).Wf where
  space := h.space
  sound := hs
  distinct := hd
  transactions t ht := (h.transactions t ht).mono he
  ascending := h.ascending
  nonneg := h.nonneg

variable {ops : List CommitOperation}

theorem mem_zip_action {handles : List Int}
    {act : Action × Int} (h : act ∈ (ops.map CommitOperation.action).zip handles) :
    (∃ op ∈ ops, act.1 = op.action) ∧ act.2 ∈ handles := by
  obtain ⟨h1, h2⟩ := of_mem_zip (a := act.1) (b := act.2) h
  obtain ⟨op, hmem, heq⟩ := mem_map.mp h1
  exact ⟨⟨op, hmem, heq.symm⟩, h2⟩

theorem validOperations_iff :
    validOperations ops = true ↔ ops ≠ [] ∧ ∀ op ∈ ops,
        op.action = .assert ∨ op.action = .retract := by
  simp [validOperations, validCommitOperation]

/-- **Committing valid operations at an advancing sequence keeps the ledger well formed.** -/
theorem Ledger.Wf.commit (h : l.Wf) {operations : List CommitOperation}
    (hv : validOperations operations = true) (hseq : l.nextSequence ≤ sq) :
    (l.commit sq operations).Wf := by
  obtain ⟨hne, hacts⟩ := validOperations_iff.mp hv
  have hgrown := h.grow (Rows.internAll_extends l.rows (propositions operations))
    (Rows.internAll_sound h.sound _) (Rows.internAll_distinct h.distinct _)
  refine hgrown.append hseq ⟨?_, ?_, ?_⟩
  · intro hnil
    have := congrArg List.length hnil
    simp [propositions] at this
    exact hne this
  · intro act hact
    obtain ⟨⟨operation, hmem, heq⟩, -⟩ := mem_zip_action hact
    rw [heq]
    exact hacts operation hmem
  · intro act hact
    exact Rows.internAll_handles _ _ (propositions_triple operations) _ (mem_zip_action hact).2

/-! ### The derived state of a ledger -/

/-- What an operation row does to the live positions of its proposition. -/
def OperationRow.act (row : OperationRow) : Lifo.Act Int :=
  ⟨row.action = .assert, row.tripleHandle⟩

def actsOf (operations : List OperationRow) : List (Lifo.Act Int) :=
  operations.map OperationRow.act

@[simp] theorem length_actsOf (ops : List OperationRow) :
    (actsOf ops).length = ops.length := by simp [actsOf]

end Beagle.Store
