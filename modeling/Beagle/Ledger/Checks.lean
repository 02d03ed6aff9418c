/-
What the row checks of a dump accept: the dumps of ledgers.

The checks walk the row lists with counters; here each walk is matched with the
list it accepts.  A dump passes exactly when it is the dump of a ledger whose rows
are sound and hold no NaN, distinct rows not being asked for.
-/
import Beagle.Ledger.Ledger

namespace Beagle.Store

open List

/-! ### Atom rows -/

theorem atomRow_self_same (value : AtomValue) :
    (atomRow value).same (atomRow value) = !value.hasNan := by
  rw [Rows.atomRow_same, AtomValue.same_self]

private theorem sameFloat?_none {f : Option Float64} (h : sameFloat? f none = true) : f = none := by
  cases f with
  | none => rfl
  | some f => simp [sameFloat?] at h

variable {row : AtomRow} {h : Int}

/-- A row that equals the row of its own value is that row. -/
private theorem eq_atomRow_of_same {value : AtomValue} (hv : atomRowValue row = some value)
    (hs : row.same (atomRow value) = true) : row = atomRow value := by
  obtain ⟨k, s, i, f, b, w, n⟩ := row
  obtain ⟨h1, h2, h3, h4, h5, h6, h7⟩ := AtomRow.same_iff.mp hs
  cases k <;> simp only [atomRowValue, Option.map_eq_some_iff] at hv
  case other => simp at hv
  all_goals
    obtain ⟨x, hx, rfl⟩ := hv
    simp_all [atomRow]
  all_goals exact sameFloat?_none h4

theorem validAtomRow_iff :
    validAtomRow row = true ↔ ∃ value, row = atomRow value ∧ value.hasNan = false := by
  unfold validAtomRow
  constructor
  · intro h
    cases hv : atomRowValue row with
    | none => rw [hv] at h; simp at h
    | some value =>
      rw [hv] at h
      have heq := eq_atomRow_of_same hv h
      refine ⟨value, heq, ?_⟩
      have hs : (atomRow value).same (atomRow value) = true := by
        dsimp only at h
        rwa [heq] at h
      rw [atomRow_self_same] at hs
      simpa using hs
  · rintro ⟨value, rfl, hn⟩
    have hval : atomRowValue (atomRow value) = some value := by cases value <;> rfl
    rw [hval]
    dsimp only
    rw [atomRow_self_same, hn]
    rfl

/-! ### Triple rows -/

variable {rs : Rows}

theorem validPriorHandle_iff {p : Nat} :
    validPriorHandle rs.atoms.length p h = true ↔ rs.Prior p h := by
  simp only [validPriorHandle, decide_eq_true_eq]
  constructor
  · rintro ⟨h0, hlt⟩
    rcases handle_cases h0 with ⟨q, rfl⟩ | ⟨q, rfl⟩
    · exact Or.inl ⟨q, rfl, by simpa using hlt⟩
    · exact Or.inr ⟨q, rfl, by simpa using hlt⟩
  · rintro (⟨q, rfl, hq⟩ | ⟨q, rfl, hq⟩)
    · exact ⟨atomHandle_nonneg q, by simpa using hq⟩
    · exact ⟨tripleHandle_nonneg q, by simpa using hq⟩

private theorem validTripleRowsFrom_iff (rs : Rows) (ts : List TripleRow) (ps : Nat) :
    validTripleRowsFrom rs.atoms.length ps ts = true ↔
      ∀ (p : Nat) (row : TripleRow), ts[p]? = some row →
        rs.Prior (ps + p) row.t1 ∧ rs.Prior (ps + p) row.t2 ∧ rs.Prior (ps + p) row.t3 := by
  induction ts generalizing ps with
  | nil => simp [validTripleRowsFrom]
  | cons t ts ih =>
    simp only [validTripleRowsFrom, Bool.and_eq_true, validPriorHandle_iff, ih]
    constructor
    · rintro ⟨⟨h1, h2, h3⟩, hr⟩ p row hp
      cases p with
      | zero =>
        obtain rfl : t = row := by simpa using hp
        exact ⟨h1, h2, h3⟩
      | succ p =>
        have := hr p row (by simpa using hp)
        rwa [show ps + 1 + p = ps + (p + 1) by omega] at this
    · intro h
      refine ⟨h 0 t rfl, ?_⟩
      intro p row hp
      have := h (p + 1) row (by simpa using hp)
      rwa [show ps + (p + 1) = ps + 1 + p by omega] at this

theorem validTripleRows_iff (rs : Rows) : validTripleRows rs.atoms.length rs.triples = true ↔
      ∀ (p : Nat) (row : TripleRow), rs.triples[p]? = some row →
        rs.Prior p row.t1 ∧ rs.Prior p row.t2 ∧ rs.Prior p row.t3 := by
  unfold validTripleRows
  rw [validTripleRowsFrom_iff]
  simp only [Nat.zero_add]

/-! ### The operations of one transaction -/

/-- The acts the checks accept. -/
def ValidAct (tripleCount : Nat) (act : Action × Int) : Prop :=
  (act.1 = .assert ∨ act.1 = .retract) ∧ ∃ p, act.2 = tripleHandle p ∧ p < tripleCount

variable {tc : Nat}

private theorem validHandle_triple_iff : (0 ≤ h ∧ isAtomHandle h = false ∧ handlePosition h < tc) ↔
      ∃ p, h = tripleHandle p ∧ p < tc := by
  constructor
  · rintro ⟨h0, hodd, hlt⟩
    rcases handle_cases h0 with ⟨p, rfl⟩ | ⟨p, rfl⟩
    · simp at hodd
    · exact ⟨p, rfl, by simpa using hlt⟩
  · rintro ⟨p, rfl, hp⟩
    exact ⟨tripleHandle_nonneg p, isAtomHandle_tripleHandle p, by simpa using hp⟩

variable {sq : Int}

private theorem validDumpOperation_iff {n : Int} {row : OperationRow} :
    validDumpOperation tc sq n row = true ↔ row = ⟨sq, n, row.action, row.tripleHandle⟩ ∧
        ValidAct tc (row.action, row.tripleHandle) := by
  obtain ⟨s, o, a, h⟩ := row
  simp only [validDumpOperation, Bool.and_eq_true, Bool.or_eq_true, decide_eq_true_eq,
    Bool.not_eq_true', OperationRow.mk.injEq, ValidAct, and_true]
  rw [← validHandle_triple_iff]
  constructor
  · rintro ⟨rfl, rfl, ha, h0, hodd, hlt⟩
    exact ⟨⟨rfl, rfl⟩, ha, h0, hodd, hlt⟩
  · rintro ⟨⟨rfl, rfl⟩, ha, h0, hodd, hlt⟩
    exact ⟨rfl, rfl, ha, h0, hodd, hlt⟩

theorem validOperationSliceFrom_iff {n : Nat} {rs : List OperationRow} :
    validOperationSliceFrom tc sq n rs = true ↔
      ∃ a, rs = operationRowsFrom sq n a ∧ ∀ act ∈ a, ValidAct tc act := by
  induction rs generalizing n with
  | nil =>
    refine ⟨fun _ => ⟨[], rfl, by simp⟩, fun _ => rfl⟩
  | cons row rs ih =>
    simp only [validOperationSliceFrom, Bool.and_eq_true, validDumpOperation_iff, ih]
    constructor
    · rintro ⟨⟨hrow, hact⟩, a, rfl, ha⟩
      refine ⟨(row.action, row.tripleHandle) :: a, ?_, ?_⟩
      · rw [operationRowsFrom, ← hrow]
      · intro act hmem
        rcases mem_cons.mp hmem with rfl | hmem
        · exact hact
        · exact ha act hmem
    · rintro ⟨a, heq, ha⟩
      cases a with
      | nil => simp [operationRowsFrom] at heq
      | cons act a =>
        obtain ⟨ac, h'⟩ := act
        simp only [operationRowsFrom, List.cons.injEq] at heq
        obtain ⟨rfl, rfl⟩ := heq
        exact ⟨⟨rfl, ha _ (mem_cons_self ..)⟩, a, rfl,
          fun act hmem => ha act (mem_cons_of_mem _ hmem)⟩

/-! ### The history -/

/-- The sequence reached after some transactions. -/
def lastSequence (previous : Int) (ts : List Transaction) : Int :=
  match ts.getLast? with
  | none => previous
  | some t => t.sequence

theorem lastSequence_cons (p : Int) (t : Transaction) (ts : List Transaction) :
    lastSequence p (t :: ts) = lastSequence t.sequence ts := by
  unfold lastSequence
  cases ts with
  | nil => rfl
  | cons u us => rw [getLast?_cons_cons]; rfl

/-- Transactions the checks accept after a sequence. -/
structure ValidHistory (tripleCount : Nat) (previous : Int) (ts : List Transaction) : Prop where
  nonempty : ∀ t ∈ ts, t.acts ≠ []
  acts : ∀ t ∈ ts, ∀ act ∈ t.acts, ValidAct tripleCount act
  after : ∀ t ∈ ts, previous < t.sequence
  ascending : ts.Pairwise fun t u => t.sequence < u.sequence

theorem validHistory_cons {p : Int} {t : Transaction} {ts : List Transaction} :
    ValidHistory tc p (t :: ts) ↔ t.acts ≠ [] ∧ (∀ act ∈ t.acts, ValidAct tc act) ∧ p < t.sequence ∧
        ValidHistory tc t.sequence ts := by
  constructor
  · rintro ⟨hn, ha, hp, hasc⟩
    obtain ⟨hfst, hr⟩ := pairwise_cons.mp hasc
    have hmem := fun u (hu : u ∈ ts) => mem_cons_of_mem t hu
    exact ⟨hn t (mem_cons_self ..), ha t (mem_cons_self ..), hp t (mem_cons_self ..),
      ⟨fun u hu => hn u (hmem u hu), fun u hu => ha u (hmem u hu), hfst, hr⟩⟩
  · rintro ⟨hn, ha, hp, hr⟩
    refine ⟨?_, ?_, ?_, pairwise_cons.mpr ⟨hr.after, hr.ascending⟩⟩
    · intro u hu
      rcases mem_cons.mp hu with rfl | hu
      · exact hn
      · exact hr.nonempty u hu
    · intro u hu
      rcases mem_cons.mp hu with rfl | hu
      · exact ha
      · exact hr.acts u hu
    · intro u hu
      rcases mem_cons.mp hu with rfl | hu
      · exact hp
      · exact Int.lt_trans hp (hr.after u hu)

/-- What the last line of the history check asks of the next sequence. -/
def NextAfter (next last : Int) : Prop :=
  if last < 0 then next = 1 else 0 < next ∧ next - 1 = last

private theorem nextAfter_decide {next last : Int} :
    (if last < 0 then decide (next = 1) else decide (0 < next ∧ next - 1 = last)) = true ↔
      NextAfter next last := by
  unfold NextAfter
  split <;> simp

private theorem validHistoryFrom_sound (operations : List OperationRow) (tc : Nat) (next : Int) :
    ∀ (rows : List TransactionRow) (position : Nat) (previous : Int), position ≤ operations.length →
      validHistoryFrom operations tc next rows position previous = true →
      ∃ ts, rows = transactionRowsFrom position ts ∧
        operations.drop position = ts.flatMap Transaction.operationRows ∧
        ValidHistory tc previous ts ∧ NextAfter next (lastSequence previous ts) := by
  intro rows
  induction rows with
  | nil =>
    intro position previous _ h
    simp only [validHistoryFrom, Bool.and_eq_true, decide_eq_true_eq] at h
    refine ⟨[], rfl, ?_, ⟨by simp, by simp, by simp, List.Pairwise.nil⟩, nextAfter_decide.mp h.2⟩
    rw [h.1, drop_length]
    rfl
  | cons row rows ih =>
    intro position previous hpos h
    unfold validHistoryFrom at h
    split at h
    · rename_i hrow
      obtain ⟨hseq, hfst, hcnt, hle, hslice⟩ := hrow
      obtain ⟨sq, first, count⟩ := row
      dsimp only at hseq hfst hcnt hle hslice h
      subst hfst
      obtain ⟨n, rfl⟩ : ∃ n : Nat, count = n := ⟨count.toNat, by omega⟩
      rw [Int.toNat_natCast] at hslice h
      have hn : position + n ≤ operations.length := by omega
      obtain ⟨acts, hacts, hv⟩ := validOperationSliceFrom_iff.mp hslice
      have htake : (operations.drop position).take n = operationRowsFrom sq 0 acts := by
        rw [← hacts]; unfold subvec; rw [Nat.add_sub_cancel_left]
      have hlen : acts.length = n := by
        have := congrArg List.length htake
        rw [length_operationRowsFrom, length_take, length_drop] at this
        omega
      obtain ⟨ts, hts, hops, hhist, hnext⟩ := ih (position + n) sq hn h
      refine ⟨⟨sq, acts⟩ :: ts, ?_, ?_, ?_, ?_⟩
      · rw [transactionRowsFrom, hts, hlen]
      · rw [flatMap_cons, ← hops, ← drop_drop]
        show _ = operationRowsFrom sq 0 acts ++ _
        rw [← htake, take_append_drop]
      · refine validHistory_cons.mpr ⟨?_, hv, hseq, hhist⟩
        intro hnil
        dsimp only at hnil
        rw [hnil] at hlen
        simp at hlen
        omega
      · rw [lastSequence_cons]; exact hnext
    · simp at h

private theorem validHistoryFrom_complete (ops : List OperationRow) (tc : Nat) (next : Int) :
    ∀ (ts : List Transaction) (p : Nat) (prv : Int), p ≤ ops.length →
      ops.drop p = ts.flatMap Transaction.operationRows →
      ValidHistory tc prv ts → NextAfter next (lastSequence prv ts) →
      validHistoryFrom ops tc next (transactionRowsFrom p ts) p prv = true := by
  intro ts
  induction ts with
  | nil =>
    intro p prv hpos hops _ hn
    have hlen := congrArg List.length hops
    simp only [length_drop, flatMap_nil, length_nil] at hlen
    simp only [transactionRowsFrom, validHistoryFrom, Bool.and_eq_true, decide_eq_true_eq]
    exact ⟨by omega, nextAfter_decide.mpr hn⟩
  | cons t ts ih =>
    intro p prv hpos hops hh hn
    obtain ⟨hne, hv, hseq, hr⟩ := validHistory_cons.mp hh
    rw [flatMap_cons] at hops
    have hlen : t.operationRows.length = t.acts.length := length_operationRowsFrom _ _ _
    have hpos' : p + t.acts.length ≤ ops.length := by
      have := congrArg List.length hops
      rw [length_drop, length_append, hlen] at this
      omega
    have hd : ops.drop (p + t.acts.length) = ts.flatMap Transaction.operationRows := by
      rw [← drop_drop, hops, ← hlen, drop_left]
    have hs : validOperationSlice ops tc t.sequence p t.acts.length = true := by
      unfold validOperationSlice subvec
      rw [Nat.add_sub_cancel_left, hops, ← hlen, take_left]
      exact validOperationSliceFrom_iff.mpr ⟨t.acts, rfl, hv⟩
    have hp : 0 < t.acts.length := length_pos_iff.mpr hne
    simp only [transactionRowsFrom, validHistoryFrom, Int.toNat_natCast]
    rw [if_pos ⟨hseq, trivial, by omega, by omega, hs⟩]
    refine ih _ _ hpos' hd hr ?_
    rwa [lastSequence_cons] at hn

/-- The history check accepts exactly the row lists of valid histories. -/
theorem validHistoryRows_iff {trs : List TransactionRow} {ops : List OperationRow}
    {next : Int} :
    validHistoryRows trs ops tc next = true ↔ ∃ ts, trs = transactionRowsFrom 0 ts ∧
        ops = ts.flatMap Transaction.operationRows ∧
        ValidHistory tc (-1) ts ∧ NextAfter next (lastSequence (-1) ts) := by
  unfold validHistoryRows
  constructor
  · intro h
    obtain ⟨ts, h1, h2, h3⟩ := validHistoryFrom_sound ops tc next trs 0 (-1) (Nat.zero_le _) h
    exact ⟨ts, h1, by simpa using h2, h3⟩
  · rintro ⟨ts, rfl, rfl, h3, h4⟩
    exact validHistoryFrom_complete _ tc next ts 0 (-1) (Nat.zero_le _) (by simp) h3 h4

/-! ### A dump passes exactly when it is the dump of a ledger -/

/-- No atom row holds a NaN. -/
def Rows.NanFree (rows : Rows) : Prop :=
  ∀ row ∈ rows.atoms, ∃ value, row = atomRow value ∧ value.hasNan = false

theorem Rows.internAtom_nanFree (h : rs.NanFree) {v : AtomValue}
    (hv : v.hasNan = false) : (rs.internAtom (atomRow v)).1.NanFree := by
  unfold Rows.internAtom
  cases rs.findAtom (atomRow v) with
  | some ks => exact h
  | none =>
    intro row hrow
    rcases List.mem_append.mp hrow with hrow | hrow
    · exact h row hrow
    · exact ⟨v, mem_singleton.mp hrow, hv⟩

theorem Rows.internTriple_nanFree (h : rs.NanFree) (v : TripleRow) :
    (rs.internTriple v).1.NanFree := by
  unfold Rows.internTriple
  cases rs.findTriple v <;> exact h

theorem Rows.intern_nanFree (h : rs.NanFree) {t : Term} (ht : t.hasNan = false) :
    (rs.intern t).1.NanFree := by
  induction t generalizing rs with
  | atom v => exact Rows.internAtom_nanFree h ht
  | triple t1 t2 t3 ih1 ih2 ih3 =>
    unfold Term.hasNan at ht
    rw [Bool.or_eq_false_iff, Bool.or_eq_false_iff] at ht
    obtain ⟨⟨h1, h2⟩, h3⟩ := ht
    exact Rows.internTriple_nanFree (ih3 (ih2 (ih1 h h1) h2) h3) _

theorem Rows.internAll_nanFree (h : rs.NanFree) {ts : List Term}
    (hts : ∀ t ∈ ts, t.hasNan = false) : (rs.internAll ts).1.NanFree := by
  induction ts generalizing rs with
  | nil => exact h
  | cons t ts ih =>
    exact ih (Rows.intern_nanFree h (hts t (mem_cons_self ..)))
      fun u hu => hts u (mem_cons_of_mem _ hu)

/-- A ledger whose rows may repeat: what the checks accept. -/
structure Ledger.Checked (l : Ledger) : Prop where
  space : l.spaceId ≠ ""
  sound : l.rows.Sound
  nanFree : l.rows.NanFree
  transactions : ∀ t ∈ l.history, t.Wf l.rows
  ascending : l.history.Pairwise fun t u => t.sequence < u.sequence
  nonneg : ∀ t ∈ l.history, 0 ≤ t.sequence

variable {l : Ledger}

theorem Ledger.Checked.wf (h : l.Checked) (hd : l.rows.Distinct) : l.Wf :=
  ⟨h.space, h.sound, hd, h.transactions, h.ascending, h.nonneg⟩

theorem Ledger.Wf.checked (h : l.Wf) (hn : l.rows.NanFree) : l.Checked :=
  ⟨h.space, h.sound, hn, h.transactions, h.ascending, h.nonneg⟩

private theorem nextAfter_iff (hn : ∀ t ∈ l.history, 0 ≤ t.sequence) (next : Int) :
    NextAfter next (lastSequence (-1) l.history) ↔ next = l.nextSequence := by
  unfold NextAfter lastSequence Ledger.nextSequence
  cases hl : l.history.getLast? with
  | none => simp
  | some t =>
    have := hn t (mem_of_getLast? hl)
    dsimp only
    rw [if_neg (by omega)]
    omega

/-- **The row checks accept the dumps of NaN-free ledgers.** -/
theorem validRows_dump (h : l.Checked) : validRows l.dump = true := by
  have hpos : 1 ≤ l.nextSequence := by
    unfold Ledger.nextSequence
    cases hl : l.history.getLast? with
    | none => exact Int.le_refl 1
    | some la =>
      have := h.nonneg la (mem_of_getLast? hl)
      dsimp only
      omega
  simp only [validRows, Bool.and_eq_true, decide_eq_true_eq, all_eq_true]
  refine ⟨⟨⟨⟨decide_eq_true h.space, hpos⟩, ?_⟩, ?_⟩, ?_⟩
  · intro row hrow
    exact validAtomRow_iff.mpr (h.nanFree row hrow)
  · exact (validTripleRows_iff l.rows).mpr h.sound.prior
  · refine validHistoryRows_iff.mpr ⟨l.history, rfl, rfl, ⟨?_, ?_, ?_, h.ascending⟩,
      (nextAfter_iff h.nonneg _).mpr rfl⟩
    · exact fun t ht => (h.transactions t ht).nonempty
    · exact fun t ht act hact =>
        ⟨(h.transactions t ht).action act hact, (h.transactions t ht).handle act hact⟩
    · intro t ht
      have := h.nonneg t ht
      omega

/-- **The row checks accept nothing else.** -/
theorem exists_ledger_of_validRows {d : TermStoreDump} (h : validRows d = true)
    (hv : d.version = termStoreDumpVersion) : ∃ l : Ledger, l.dump = d ∧ l.Checked := by
  obtain ⟨vn, sid, next, ats, trs, tr, ops⟩ := d
  dsimp only at hv
  subst hv
  simp only [validRows, Bool.and_eq_true, decide_eq_true_eq, all_eq_true] at h
  obtain ⟨⟨⟨⟨hs, -⟩, ha⟩, htr⟩, hh⟩ := h
  obtain ⟨ts, rfl, rfl, hva, hn⟩ := validHistoryRows_iff.mp hh
  have hnan : Rows.NanFree ⟨ats, trs⟩ := fun row hrow => validAtomRow_iff.mp (ha row hrow)
  have hnn : ∀ t ∈ ts, 0 ≤ t.sequence := by
    intro t ht
    have := hva.after t ht
    omega
  have hl : (⟨sid, ⟨ats, trs⟩, ts⟩ : Ledger).nextSequence = next :=
    ((nextAfter_iff (l := ⟨sid, ⟨ats, trs⟩, ts⟩) hnn next).mp hn).symm
  refine ⟨⟨sid, ⟨ats, trs⟩, ts⟩, ?_, ?_⟩
  · unfold Ledger.dump
    rw [hl]
    rfl
  · refine ⟨by simpa [validSpaceId] using hs, ⟨?_, ?_⟩, hnan, ?_, hva.ascending, hnn⟩
    · intro row hrow
      obtain ⟨v, hval, -⟩ := hnan row hrow
      exact ⟨v, hval⟩
    · exact (validTripleRows_iff ⟨ats, trs⟩).mp htr
    · intro t ht
      exact ⟨hva.nonempty t ht, fun act hact => (hva.acts t ht act hact).1,
        fun act hact => (hva.acts t ht act hact).2⟩

end Beagle.Store
