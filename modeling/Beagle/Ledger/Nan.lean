/-
Terms a NaN occurs in.

A NaN equals nothing, so a Term with one is interned afresh each time: the handle it
gets was no handle before.  A handle that a history names twice is thus the handle of
a Term without a NaN, and such handles are one exactly when their Terms are equal.

One history over two row stores.

The rows of a ledger may come in any order and may hold Terms that no operation
names; replaying its records into other rows gives other handles.  What does not
change is which Term each handle denotes: rows that were interned from Terms which
distinct rows denote, denote just those Terms, the sign of a zero included.
-/
import Beagle.Ledger.Checks
import Beagle.Ledger.Log

namespace Beagle.Store

open List

namespace Rows

variable {rs : Rows}

theorem findAtom_nan (hs : rs.Sound) {v : AtomValue}
    (hn : v.hasNan = true) : rs.findAtom (atomRow v) = none := by
  cases hf : rs.findAtom (atomRow v) with
  | none => rfl
  | some p =>
    obtain ⟨row, hr, hsa⟩ := findAtom_some hf
    obtain ⟨o, rfl⟩ := hs.atoms row (mem_of_getElem? hr)
    rw [atomRow_same] at hsa
    have hse := AtomValue.same_trans (AtomValue.same_symm hsa) hsa
    rw [AtomValue.same_self, hn] at hse
    cases hse

/-- The handle of a triple row is that of a row that was there, or a new one. -/
theorem internTriple_handle (rs : Rows) (v : TripleRow) :
    ∃ p, (rs.internTriple v).2 = tripleHandle p ∧
      (p < rs.triples.length → rs.triples[p]? = some v) := by
  unfold internTriple
  cases hf : rs.findTriple v with
  | some p => exact ⟨p, rfl, fun _ => findTriple_some hf⟩
  | none => exact ⟨_, rfl, fun h => absurd h (Nat.lt_irrefl _)⟩

theorem valid_tripleHandle {p : Nat} :
    rs.Valid (tripleHandle p) ↔ p < rs.triples.length := by
  constructor
  · intro h
    rcases h with ⟨q, hq, -⟩ | ⟨q, hq, hlt⟩
    · exact absurd hq.symm (atomHandle_ne_tripleHandle _ _)
    · rw [tripleHandle_inj hq]
      exact hlt
  · intro h
    exact Or.inr ⟨p, rfl, h⟩

theorem Prior.valid {p : Nat} {h : Int} (hp : rs.Prior p h)
    (hlt : p ≤ rs.triples.length) : rs.Valid h := by
  rcases hp with ⟨q, rfl, hq⟩ | ⟨q, rfl, hq⟩
  · exact Or.inl ⟨q, rfl, hq⟩
  · exact Or.inr ⟨q, rfl, Nat.lt_of_lt_of_le hq hlt⟩

variable {t : Term}

/-- **A Term with a NaN gets a handle that was none.** -/
theorem intern_fresh (hs : rs.Sound) (hn : t.hasNan = true) :
    ¬rs.Valid (rs.intern t).2 := by
  induction t generalizing rs with
  | atom v =>
    have hno := findAtom_nan hs hn
    show ¬rs.Valid (rs.internAtom (atomRow v)).2
    unfold internAtom
    rw [hno]
    rintro (⟨p, hp, hlt⟩ | ⟨p, hp, -⟩)
    · rw [← atomHandle_inj hp] at hlt
      exact Nat.lt_irrefl _ hlt
    · exact atomHandle_ne_tripleHandle _ _ hp
  | triple t1 t2 t3 ih1 ih2 ih3 =>
    have e1 := intern_extends rs t1
    have e2 := intern_extends (rs.intern t1).1 t2
    have e3 := intern_extends ((rs.intern t1).1.intern t2).1 t3
    have hs1 := intern_sound hs t1
    have hs2 := intern_sound hs1 t2
    obtain ⟨p, hp, hrow⟩ := internTriple_handle (((rs.intern t1).1.intern t2).1.intern t3).1
      ⟨(rs.intern t1).2, ((rs.intern t1).1.intern t2).2,
        (((rs.intern t1).1.intern t2).1.intern t3).2⟩
    intro hv
    have hv : rs.Valid (internTriple _ ⟨_, _, _⟩).2 := hv
    rw [hp, valid_tripleHandle] at hv
    -- The row would be an old one, and name the fresh handle of a part.
    have e := e1.trans (e2.trans e3)
    have ht := hrow (Nat.lt_of_lt_of_le hv e.triples.length_le)
    have hold : rs.triples[p]? = some ⟨(rs.intern t1).2, ((rs.intern t1).1.intern t2).2,
        (((rs.intern t1).1.intern t2).1.intern t3).2⟩ := by
      obtain ⟨m, hm⟩ := e.triples
      rw [← hm, getElem?_append_left hv] at ht
      exact ht
    obtain ⟨p1, p2, p3⟩ := hs.prior p _ hold
    have hle := Nat.le_of_lt hv
    simp only [Term.hasNan, Bool.or_eq_true] at hn
    rcases hn with (hn | hn) | hn
    · exact ih1 hs hn (p1.valid hle)
    · exact ih2 hs1 hn ((p2.valid hle).mono e1)
    · exact ih3 hs2 hn ((p3.valid hle).mono (e1.trans e2))

/-- A handle that comes twice denotes a Term without a NaN. -/
def NanOnce (rows : Rows) (handles : List Int) : Prop :=
  handles.Pairwise fun h k => h = k → ∃ t, rows.Denotes h t ∧ t.hasNan = false

theorem NanOnce.mono {rs rs' : Rows} (he : Extends rs rs') {handles : List Int}
    (h : NanOnce rs handles) : NanOnce rs' handles := by
  refine h.imp ?_
  intro a b hab heq
  obtain ⟨t, ht, hn⟩ := hab heq
  exact ⟨t, ht.mono he, hn⟩

theorem intern_denotes_clean (hs : rs.Sound) (hv : rs.Valid (rs.intern t).2) :
    ∃ u, (rs.intern t).1.Denotes (rs.intern t).2 u ∧ u.hasNan = false := by
  have hn : t.hasNan = false := by
    cases hn : t.hasNan with
    | false => rfl
    | true => exact absurd hv (intern_fresh hs hn)
  obtain ⟨u, hu, hsa⟩ := intern_denotes hs hn
  refine ⟨u, hu, ?_⟩
  cases hnu : u.hasNan with
  | false => rfl
  | true =>
    rw [Term.same_of_hasNan hnu] at hsa
    cases hsa

/-- **Interning more Terms repeats no handle of a Term with a NaN.** -/
theorem NanOnce.internAll (hs : rs.Sound) {hs' : List Int}
    (hv : ∀ h ∈ hs', rs.Valid h) (h : NanOnce rs hs') (ts : List Term) :
    NanOnce (rs.internAll ts).1 (hs' ++ (rs.internAll ts).2) := by
  induction ts generalizing rs hs' with
  | nil =>
    show NanOnce rs (hs' ++ [])
    rw [append_nil]
    exact h
  | cons t r ih =>
    have he := intern_extends rs t
    have hone : NanOnce (rs.intern t).1 (hs' ++ [(rs.intern t).2]) := by
      refine pairwise_append.mpr ⟨h.mono he, pairwise_singleton _ _, ?_⟩
      intro old hold new hnew heq
      rw [mem_singleton] at hnew
      rw [heq, hnew]
      refine intern_denotes_clean hs ?_
      rw [← hnew, ← heq]
      exact hv old hold
    have hall : ∀ k ∈ hs' ++ [(rs.intern t).2], (rs.intern t).1.Valid k := by
      intro k hk
      rcases List.mem_append.mp hk with hk | hk
      · exact (hv k hk).mono he
      · rw [mem_singleton.mp hk]
        exact intern_valid rs t
    have hr := ih (intern_sound hs t) hall hone
    rw [append_assoc] at hr
    exact hr

/-- In rows without a NaN every handle denotes a Term without one. -/
theorem NanFree.denotes (h : rs.NanFree) {h' : Int}
    (d : rs.Denotes h' t) : t.hasNan = false := by
  induction d with
  | atom row =>
    obtain ⟨v, hval, hn⟩ := h _ (mem_of_getElem? row)
    rw [atomRow_inj hval]
    exact hn
  | triple _ _ _ _ ih1 ih2 ih3 =>
    unfold Term.hasNan
    rw [ih1, ih2, ih3]
    rfl

end Rows

/-! ### The operations of a ledger -/

theorem mem_operationRowsFrom {sq : Int} {acts : List (Action × Int)} {row : OperationRow} :
    ∀ {n : Nat}, row ∈ operationRowsFrom sq n acts → (row.action, row.tripleHandle) ∈ acts := by
  induction acts with
  | nil => intro n h; exact absurd h not_mem_nil
  | cons act r ih =>
    intro n h
    rcases mem_cons.mp h with rfl | h
    · exact mem_cons_self ..
    · exact mem_cons_of_mem _ (ih h)

theorem operationRowsFrom_handles (sq : Int) (a : List (Action × Int)) :
    ∀ n, (operationRowsFrom sq n a).map OperationRow.tripleHandle = a.map Prod.snd := by
  induction a with
  | nil => intro n; rfl
  | cons act r ih => intro n; exact congrArg (act.2 :: ·) (ih _)

namespace Ledger

/-- The proposition handles of a ledger's operations. -/
def handles (l : Ledger) : List Int := l.operations.map OperationRow.tripleHandle

/-- An operation of a well formed ledger asserts or retracts a Triple of its rows. -/
theorem Wf.operation {l : Ledger} (h : l.Wf) {row : OperationRow} (hrow : row ∈ l.operations) :
    (row.action = .assert ∨ row.action = .retract) ∧
      ∃ p, row.tripleHandle = tripleHandle p ∧ p < l.rows.triples.length := by
  obtain ⟨t, ht, hmem⟩ := mem_flatMap.mp hrow
  have hact := mem_operationRowsFrom hmem
  exact ⟨(h.transactions t ht).action _ hact, (h.transactions t ht).handle _ hact⟩

theorem Wf.handles_valid {l : Ledger} (h : l.Wf) : ∀ k ∈ l.handles, l.rows.Valid k := by
  intro k hk
  obtain ⟨row, hrow, rfl⟩ := mem_map.mp hk
  exact Or.inr (h.operation hrow).2

theorem commit_handles (l : Ledger) (sq : Int) (ops : List CommitOperation) :
    (l.commit sq ops).handles = l.handles ++ (l.rows.internAll (propositions ops)).2 := by
  let i := l.rows.internAll (propositions ops)
  have hlen : i.2.length = (ops.map CommitOperation.action).length := by
    rw [Rows.length_internAll, propositions, length_map, length_map]
  unfold handles commit
  rw [append_operations, map_append, operationRowsFrom_handles, map_snd_zip (Nat.le_of_eq hlen)]
  rfl

/-- A well formed ledger that names no handle of a Term with a NaN twice. -/
structure Settled (l : Ledger) : Prop where
  wf : l.Wf
  nanOnce : l.rows.NanOnce l.handles

theorem empty_settled {sid : String} (hs : sid ≠ "") : (empty sid).Settled :=
  ⟨empty_wf hs, List.Pairwise.nil⟩

theorem settled_of_nanFree {l : Ledger} (h : l.Wf) (hn : l.rows.NanFree) : l.Settled := by
  refine ⟨h, pairwise_iff_forall_sublist.mpr ?_⟩
  intro a b hab _
  have ha : a ∈ l.handles := hab.subset (mem_cons_self ..)
  obtain ⟨t, ht⟩ := (h.handles_valid a ha).denotes h.sound
  exact ⟨t, ht, hn.denotes ht⟩

theorem Settled.commit {l : Ledger} (h : l.Settled) {sq : Int}
    {ops : List CommitOperation} (hv : validOperations ops = true)
    (hseq : l.nextSequence ≤ sq) : (l.commit sq ops).Settled := by
  refine ⟨h.wf.commit hv hseq, ?_⟩
  rw [commit_handles]
  exact h.nanOnce.internAll h.wf.sound h.wf.handles_valid _

theorem Settled.replay {l l' : Ledger} (h : l.Settled) {rc : TransactionRecord}
    (hv : validTransactionRecord rc = true) (hr : l.replay rc = some l') : l'.Settled := by
  by_cases ha : l.accepts rc
  · rw [replay_accepted ha] at hr
    cases hr
    unfold validTransactionRecord at hv
    rw [Bool.and_eq_true] at hv
    exact h.commit hv.2 ha.1
  · rw [replay_refused ha] at hr
    cases hr

end Ledger

namespace Rows

/-- Every Term that these rows denote, the others denote. -/
def Within (rows others : Rows) : Prop :=
  ∀ h t, rows.Denotes h t → ∃ k, others.Denotes k t

variable {h : Int}

/-- What appended rows denote that the old rows did not, is a row that was appended. -/
theorem Denotes.old_or_new {rs rs' : Rows} (hs : rs.Sound) (he : Extends rs rs')
    {t : Term} (d : rs'.Denotes h t) : rs.Denotes h t ∨ ¬rs.Valid h := by
  by_cases hv : rs.Valid h
  · exact Or.inl (d.restrict hs he hv)
  · exact Or.inr hv

theorem internAtom_new {rs : Rows} {v : AtomRow} (hv : (rs.internAtom v).1.Valid h)
    (hnot : ¬rs.Valid h) : h = (rs.internAtom v).2 := by
  revert hv
  unfold internAtom
  cases rs.findAtom v with
  | some p => exact fun hv => absurd hv hnot
  | none =>
    rintro (⟨p, rfl, hp⟩ | hv)
    · have hnew : ¬p < rs.atoms.length := fun hlt => hnot (Or.inl ⟨p, rfl, hlt⟩)
      rw [length_append, length_singleton] at hp
      have heq : p = rs.atoms.length := by omega
      rw [heq]
    · exact absurd (Or.inr hv) hnot

theorem internTriple_new {rs : Rows} {v : TripleRow}
    (hv : (rs.internTriple v).1.Valid h) (hnot : ¬rs.Valid h) :
    h = (rs.internTriple v).2 := by
  revert hv
  unfold internTriple
  cases rs.findTriple v with
  | some p => exact fun hv => absurd hv hnot
  | none =>
    rintro (hv | ⟨p, rfl, hp⟩)
    · exact absurd (Or.inl hv) hnot
    · have hnew : ¬p < rs.triples.length := fun hlt => hnot (Or.inr ⟨p, rfl, hlt⟩)
      rw [length_append, length_singleton] at hp
      have heq : p = rs.triples.length := by omega
      rw [heq]

/-- Interning one Term keeps the rows within others that denote it. -/
theorem Within.grown {rs rs' os : Rows} (hw : rs.Within os) (hs : rs.Sound)
    (he : Extends rs rs') {k : Int} {t : Term} (d : rs'.Denotes h t) (hk : os.Denotes k t)
    (hnew : ∀ g, rs'.Valid g → ¬rs.Valid g → g = h) : rs'.Within os := by
  intro g u hg
  rcases hg.old_or_new hs he with hold | hnot
  · exact hw g u hold
  · rw [hnew g hg.valid hnot] at hg
    rw [hg.unique d]
    exact ⟨k, hk⟩

section

variable {os : Rows}

theorem internAtom_exact (hd : os.Distinct) {rs : Rows} (hs : rs.Sound)
    (hw : rs.Within os) {value : AtomValue} {k : Int} (hk : os.Denotes k (.atom value)) :
    (rs.internAtom (atomRow value)).1.Denotes (rs.internAtom (atomRow value)).2 (.atom value) := by
  obtain ⟨fd, hf, d⟩ := internAtom_denotes hs value
  rcases hf with rfl | hsame
  · exact d
  -- The row that was found is one of the others' rows, and equal rows there are one row.
  · have hold : rs.Denotes (rs.internAtom (atomRow value)).2 (.atom fd) ∨ fd = value := by
      revert d
      unfold internAtom
      cases rs.findAtom (atomRow value) with
      | some p => exact Or.inl
      | none =>
        intro d
        have heq := d.unique (.atom (by simp) : Denotes _ _ (.atom value))
        injection heq with heq
        exact Or.inr heq
    rcases hold with hold | heq
    · obtain ⟨g, hg⟩ := hw _ _ hold
      have hgk := hg.canonical hd hk hsame
      rw [hgk] at hg
      rw [hg.unique hk] at d
      exact d
    · rw [heq] at d
      exact d

/-- **Interning a Term that the others denote gives a handle that denotes just that Term.** -/
theorem intern_exact (hd : os.Distinct) {rs : Rows} (hs : rs.Sound)
    (hw : rs.Within os) {t : Term} {k : Int} (hk : os.Denotes k t) :
    (rs.intern t).1.Denotes (rs.intern t).2 t ∧ (rs.intern t).1.Within os := by
  induction t generalizing rs k with
  | atom v =>
    have d := internAtom_exact hd hs hw hk
    exact ⟨d, hw.grown hs (internAtom_extends rs _) d hk fun g => internAtom_new⟩
  | triple t1 t2 t3 ih1 ih2 ih3 =>
    cases hk with
    | triple at_row k1 k2 k3 =>
      have e2 := intern_extends (rs.intern t1).1 t2
      have e3 := intern_extends ((rs.intern t1).1.intern t2).1 t3
      have hs1 := intern_sound hs t1
      have hs2 := intern_sound hs1 t2
      obtain ⟨d1, w1⟩ := ih1 hs hw k1
      obtain ⟨d2, w2⟩ := ih2 hs1 w1 k2
      obtain ⟨d3, w3⟩ := ih3 hs2 w2 k3
      have d := internTriple_denotes (r := ⟨_, _, _⟩) ((d1.mono e2).mono e3) (d2.mono e3) d3
      exact ⟨d, w3.grown (intern_sound hs2 t3) (internTriple_extends _ _) d
        (.triple at_row k1 k2 k3) fun g => internTriple_new⟩

theorem internAll_exact (hd : os.Distinct) {ts : List Term} :
    ∀ {rs : Rows}, rs.Sound → rs.Within os → (∀ t ∈ ts, ∃ k, os.Denotes k t) →
      Forall₂ (rs.internAll ts).1.Denotes (rs.internAll ts).2 ts ∧
        (rs.internAll ts).1.Within os := by
  induction ts with
  | nil => intro rs _ hw _; exact ⟨Forall₂.nil, hw⟩
  | cons t r ih =>
    intro rs hs hw hall
    obtain ⟨k, hk⟩ := hall t (mem_cons_self ..)
    obtain ⟨d, hw1⟩ := intern_exact hd hs hw hk
    obtain ⟨dr, hw2⟩ := ih (intern_sound hs t) hw1
      fun u hu => hall u (mem_cons_of_mem _ hu)
    exact ⟨Forall₂.cons (d.mono (internAll_extends _ r)) dr, hw2⟩

end

end Rows

/-! ### The same history -/

/-- Two handles that denote one Term, each in its rows. -/
def SameDenoted (rows rows' : Rows) (h h' : Int) : Prop :=
  ∃ t, rows.Denotes h t ∧ rows'.Denotes h' t

/-- Two acts that are the same but for the handle. -/
def SameAct (rows rows' : Rows) (act act' : Action × Int) : Prop :=
  act.1 = act'.1 ∧ SameDenoted rows rows' act.2 act'.2

def Transaction.Same (rows rows' : Rows) (t t' : Transaction) : Prop :=
  t.sequence = t'.sequence ∧ Forall₂ (SameAct rows rows') t.acts t'.acts

variable {rs' : Rows}

theorem SameAct.mono {rs rs'' : Rows} (he : Rows.Extends rs' rs'') {act act' : Action × Int}
    (h : SameAct rs rs' act act') : SameAct rs rs'' act act' := by
  obtain ⟨hact, t, ht, ht'⟩ := h
  exact ⟨hact, t, ht, ht'.mono he⟩

theorem Transaction.Same.mono {rs rs'' : Rows} (he : Rows.Extends rs' rs'')
    {t t' : Transaction} (h : t.Same rs rs' t') : t.Same rs rs'' t' :=
  ⟨h.1, h.2.imp fun _ _ => SameAct.mono he⟩

/-- A record that says what a transaction says. -/
structure Transaction.Record (rows : Rows) (t : Transaction) (record : TransactionRecord) :
    Prop where
  sequence : record.sequence.toInt = t.sequence
  actions : record.operations.map CommitOperation.action = t.acts.map Prod.fst
  denotes : Forall₂ rows.Denotes (t.acts.map Prod.snd) (propositions record.operations)

theorem sameAct_zip {rs : Rows} {acs : List Action} {hs' : List Int} {ts : List Term}
    (hlen : acs.length = hs'.length) (h : Forall₂ rs.Denotes hs' ts) :
    ∀ {hs'' : List Int}, Forall₂ rs'.Denotes hs'' ts →
      Forall₂ (SameAct rs rs') (acs.zip hs') (acs.zip hs'') := by
  induction h generalizing acs with
  | nil => intro hs'' h'; cases h'; rw [zip_nil_right]; exact Forall₂.nil
  | cons d _ ih =>
    intro hs'' h'
    cases h' with
    | cons d' hr =>
      cases acs with
      | nil => cases hlen
      | cons a acs =>
        exact Forall₂.cons ⟨rfl, _, d, d'⟩ (ih (Nat.succ.inj hlen) hr)

theorem Transaction.Record.valid {rs : Rows} {t : Transaction} {rc : TransactionRecord}
    (h : t.Record rs rc) (hwf : t.Wf rs) (hpos : 0 ≤ t.sequence) :
    validTransactionRecord rc = true := by
  unfold validTransactionRecord
  rw [Bool.and_eq_true, decide_eq_true_eq, h.sequence, validOperations_iff]
  refine ⟨hpos, ?_, ?_⟩
  · intro hnil
    have ha := h.actions
    rw [hnil] at ha
    exact hwf.nonempty (map_eq_nil_iff.mp ha.symm)
  · intro op hmem
    have hact : op.action ∈ t.acts.map Prod.fst := by
      rw [← h.actions]
      exact mem_map_of_mem hmem
    obtain ⟨act, hact, heq⟩ := mem_map.mp hact
    rw [← heq]
    exact hwf.action act hact

section

variable {l : Ledger}

/-- A commit of a transaction's record is the transaction over again. -/
theorem Ledger.commit_record (hd : l.rows.Distinct) {m : Ledger} (hm : m.Wf)
    (hw : m.rows.Within l.rows) {t : Transaction} {rc : TransactionRecord}
    (h : t.Record l.rows rc) :
    ∃ t', (m.commit t.sequence rc.operations).history = m.history ++ [t'] ∧
      t.Same l.rows (m.commit t.sequence rc.operations).rows t' ∧
      (m.commit t.sequence rc.operations).rows.Within l.rows := by
  have hall : ∀ u ∈ propositions rc.operations, ∃ k, l.rows.Denotes k u := by
    intro u hu
    obtain ⟨i, hi, rfl⟩ := getElem_of_mem hu
    have hlen := h.denotes.length_eq
    exact ⟨_, h.denotes.get (by rw [hlen]; exact hi) hi⟩
  obtain ⟨hden, hwi⟩ := Rows.internAll_exact hd hm.sound hw hall
  refine ⟨⟨t.sequence, (rc.operations.map CommitOperation.action).zip
    (m.rows.internAll (propositions rc.operations)).2⟩, rfl, ⟨rfl, ?_⟩, hwi⟩
  have ha : t.acts = (rc.operations.map CommitOperation.action).zip (t.acts.map Prod.snd) := by
    rw [h.actions, ← unzip_fst, ← unzip_snd, zip_unzip]
  rw [ha]
  refine sameAct_zip ?_ h.denotes hden
  rw [h.actions, length_map, length_map]

/-- **Replaying the records of a history makes that history again, over other handles.** -/
theorem Ledger.replayAll_records (hd : l.rows.Distinct) {ts : List Transaction}
    {rcs : List TransactionRecord} (h : Forall₂ (Transaction.Record l.rows) ts rcs) :
    ∀ {m : Ledger}, m.Wf → m.rows.Within l.rows → (∀ t ∈ ts, t.Wf l.rows) →
      (ts.Pairwise fun t u => t.sequence < u.sequence) →
      (∀ t ∈ ts, m.nextSequence ≤ t.sequence ∧ t.sequence ≤ maxTransactionSequence) →
        ∃ m' more, m.replayAll rcs = some m' ∧ m'.Wf ∧ m'.spaceId = m.spaceId ∧
          Rows.Extends m.rows m'.rows ∧ m'.history = m.history ++ more ∧
          Forall₂ (Transaction.Same l.rows m'.rows) ts more := by
  induction h with
  | nil =>
    intro m hm _ _ _ _
    exact ⟨m, [], rfl, hm, rfl, Rows.Extends.refl _, (append_nil _).symm, Forall₂.nil⟩
  | @cons t record ts rcs hrec _ ih =>
    intro m hm hw hwf hp hb
    rw [pairwise_cons] at hp
    obtain ⟨hn, hmax⟩ := hb t (mem_cons_self ..)
    have hpos := hm.nextSequence_pos
    have hv := hrec.valid (hwf t (mem_cons_self ..)) (by omega)
    have hacc : m.accepts record := by
      unfold Ledger.accepts
      rw [hrec.sequence]
      exact ⟨hn, hmax⟩
    have hrep := Ledger.replay_accepted hacc
    rw [hrec.sequence] at hrep
    obtain ⟨t', hh, hsa, hwi⟩ := Ledger.commit_record hd hm hw hrec
    have hn' : (m.commit t.sequence record.operations).nextSequence = t.sequence + 1 :=
      Ledger.append_nextSequence _ _ _
    obtain ⟨m', more, hall, hm', hsp, he, hmo, hs⟩ := ih (hm.replay hv hrep) hwi
      (fun u hu => hwf u (mem_cons_of_mem _ hu)) hp.2 (by
        intro u hu
        have hlt := hp.1 u hu
        exact ⟨by rw [hn']; omega, (hb u (mem_cons_of_mem _ hu)).2⟩)
    refine ⟨m', t' :: more, ?_, hm', hsp, ?_, ?_, Forall₂.cons (hsa.mono he) hs⟩
    · unfold Ledger.replayAll
      rw [hrep]
      exact hall
    · exact (Rows.internAll_extends _ _).trans he
    · rw [hmo, hh, append_assoc]
      rfl

end

end Beagle.Store
