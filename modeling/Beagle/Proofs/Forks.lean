/-
Interning stays canonical across forks.

One call touches one member's rows and lets the shared heap grow.  That is the step
lemma; the run lemma carries three things through any interleaving: every member's
tables cover its own rows, its rows are sound and distinct, and what its rows
denote is exactly what was interned in its own history.
-/
import Beagle.Proofs.Interning

namespace Beagle.Store

open Beagle.Lib List

section

variable {H : Hashing}

/-! ### One call on one member -/

/-- What a call does to the member it is made on. -/
structure CallSpec (H : Hashing) (root : Root) (call : FamilyCall) : Prop where
  interned : Interned H root (call.run H root) (call.run H root).store.rows
  sound : (call.run H root).store.rows.Sound
  extends_rows : Rows.Extends root.store.rows (call.run H root).store.rows
  only : Rows.AddsOnly root.store.rows (call.run H root).store.rows (call.terms root)
  all : ∀ s ∈ call.terms root, s.hasNan = false →
    ∃ h u, (call.run H root).store.rows.Denotes h u ∧ u.same s = true

variable {root : Root} {tr : TracedFamily}

private theorem callSpec_unchanged (h : Indexed H root) (hs : root.store.rows.Sound)
    {call : FamilyCall} (hrun : call.run H root = root) (ht : call.terms root = []) :
    CallSpec H root call := by
  refine ⟨?_, ?_, ?_, ?_, ?_⟩
  · rw [hrun]; exact Interned.refl h
  · rw [hrun]; exact hs
  · rw [hrun]; exact Rows.Extends.refl _
  · rw [hrun]; exact Rows.AddsOnly.refl _ _
  · rw [ht]; intro s hmem; simp at hmem

private theorem callSpec_intern (h : Indexed H root) (hs : root.store.rows.Sound) (i : Nat)
    (t : Term) : CallSpec H root (.intern i t) := by
  obtain ⟨hi, -⟩ := internHandle_spec h t
  have hr : (FamilyCall.run H root (.intern i t)).store.rows = (root.store.rows.intern t).1 :=
    hi.rows_eq
  refine ⟨⟨rfl, hi.indexed, hi.grows, hi.history, hi.activeSlots⟩, ?_, ?_, ?_, ?_⟩
  · rw [hr]; exact Rows.intern_sound hs t
  · rw [hr]; exact Rows.intern_extends _ t
  · rw [hr]; exact Rows.intern_addsOnly hs t
  · intro s hmem hn
    rw [hr]
    exact Rows.intern_parts hs hmem hn

private theorem callSpec_internAtom (h : Indexed H root) (hs : root.store.rows.Sound) (i : Nat)
    (v : AtomValue) : CallSpec H root (.internAtom i v) := by
  obtain ⟨ho, hd, hg, ha, hall⟩ := callSpec_intern h hs i (.atom v)
  exact ⟨ho, hd, hg, ha, hall⟩

/-- `intern-triple-handle!` refuses exactly the handles that do not resolve. -/
theorem internTripleHandle_ok_iff {t1 t2 t3 : Int} {r : Root × Int} :
    internTripleHandle H root t1 t2 t3 = .ok r ↔
      (root.store.rows.Valid t1 ∧ root.store.rows.Valid t2 ∧ root.store.rows.Valid t3) ∧
        internTripleRow H root ⟨t1, t2, t3⟩ = r := by
  unfold internTripleHandle
  by_cases hv : (validHandle root.store t1 && (validHandle root.store t2 &&
    validHandle root.store t3)) = true
  · rw [if_pos hv]
    simp only [Bool.and_eq_true, validHandle_iff] at hv
    simp [hv]
  · rw [if_neg hv]
    simp only [Bool.and_eq_true, validHandle_iff] at hv
    simp [hv]

private theorem callSpec_internTriple (h : Indexed H root) (hs : root.store.rows.Sound) (i : Nat)
    (t1 t2 t3 : Int) : CallSpec H root (.internTriple i t1 t2 t3) := by
  by_cases hv : root.store.rows.Valid t1 ∧ root.store.rows.Valid t2 ∧ root.store.rows.Valid t3
  · have hok : internTripleHandle H root t1 t2 t3 = .ok (internTripleRow H root ⟨t1, t2, t3⟩) :=
      internTripleHandle_ok_iff.mpr ⟨hv, rfl⟩
    obtain ⟨v1, v2, v3⟩ := hv
    obtain ⟨u1, d1⟩ := v1.denotes hs
    obtain ⟨u2, d2⟩ := v2.denotes hs
    obtain ⟨u3, d3⟩ := v3.denotes hs
    obtain ⟨hi, -⟩ := internTripleRow_spec h ⟨t1, t2, t3⟩
    have hrun : FamilyCall.run H root (.internTriple i t1 t2 t3)
        = (internTripleRow H root ⟨t1, t2, t3⟩).1 := by
      simp only [FamilyCall.run, hok]
    have ht : FamilyCall.terms root (.internTriple i t1 t2 t3) = (Term.triple u1 u2 u3).parts := by
      simp only [FamilyCall.terms, FamilyCall.term?, resolveHandle_denotes hs d1,
        resolveHandle_denotes hs d2, resolveHandle_denotes hs d3]
    have hse : ∀ u : Term, u.hasNan = false → u.same u = true := by
      intro u hn; rw [Term.same_self, hn]; rfl
    refine ⟨?_, ?_, ?_, ?_, ?_⟩
    · rw [hrun]; exact ⟨rfl, hi.indexed, hi.grows, hi.history, hi.activeSlots⟩
    · rw [hrun, hi.rows_eq]; exact Rows.internTriple_sound hs v1 v2 v3
    · rw [hrun, hi.rows_eq]; exact Rows.internTriple_extends _ _
    · rw [hrun, hi.rows_eq, ht]
      exact (Rows.internTriple_addsOnly hs d1 d2 d3 (hse _)).subset (by simp [Term.parts])
    · rw [hrun, hi.rows_eq, ht]
      intro s hmem hn
      obtain ⟨k, d⟩ := (Rows.internTriple_denotes (r := ⟨t1, t2, t3⟩) d1 d2 d3).of_part hmem
      exact ⟨k, s, d, hse s hn⟩
  · refine callSpec_unchanged h hs ?_ ?_
    · unfold FamilyCall.run
      cases hok : internTripleHandle H root t1 t2 t3 with
      | error e => simp only [hok]
      | ok r => exact absurd (internTripleHandle_ok_iff.mp hok).1 hv
    · have hte : FamilyCall.term? root (.internTriple i t1 t2 t3) = none := by
        unfold FamilyCall.term?
        dsimp only
        split
        · rename_i u1 u2 u3 r1 r2 r3
          exact absurd ⟨((resolveHandle_iff hs).mp r1).valid, ((resolveHandle_iff hs).mp r2).valid,
            ((resolveHandle_iff hs).mp r3).valid⟩ hv
        · rfl
      simp only [FamilyCall.terms, hte]

/-- **What one interning call does to its own member.** -/
theorem callSpec (h : Indexed H root) (hs : root.store.rows.Sound) (call : FamilyCall) :
    CallSpec H root call := by
  cases call with
  | fork i => exact callSpec_unchanged h hs rfl rfl
  | intern i t => exact callSpec_intern h hs i t
  | internAtom i v => exact callSpec_internAtom h hs i v
  | internTriple i t1 t2 t3 => exact callSpec_internTriple h hs i t1 t2 t3

/-! ### The invariant of a family -/

/-- What the rows denote is what the history interned, NaNs apart. -/
structure Recorded (rows : Rows) (history : List Term) : Prop where
  only : ∀ h u, rows.Denotes h u → u.hasNan = false → ∃ s ∈ history, s.same u = true
  all : ∀ s ∈ history, s.hasNan = false → ∃ h u, rows.Denotes h u ∧ u.same s = true

theorem Recorded.step {rs rs' : Rows} {hi ts : List Term} (h : Recorded rs hi)
    (he : Rows.Extends rs rs') (ho : Rows.AddsOnly rs rs' ts)
    (hall : ∀ s ∈ ts, s.hasNan = false → ∃ h u, rs'.Denotes h u ∧ u.same s = true) :
    Recorded rs' (hi ++ ts) := by
  refine ⟨?_, ?_⟩
  · intro k u d hn
    rcases ho k u d hn with d' | ⟨s, hs, hu⟩
    · obtain ⟨s, hs, hu⟩ := h.only k u d' hn
      exact ⟨s, mem_append_left _ hs, hu⟩
    · exact ⟨s, mem_append_right _ hs, hu⟩
  · intro s hmem hn
    rcases List.mem_append.mp hmem with hmem | hmem
    · obtain ⟨k, u, d, hu⟩ := h.all s hmem hn
      exact ⟨k, u, d.mono he, hu⟩
    · exact hall s hmem hn

/-- What holds of one member of a family. -/
structure MemberOk (H : Hashing) (root : Root) (history : List Term) : Prop where
  indexed : Indexed H root
  sound : root.store.rows.Sound
  recorded : Recorded root.store.rows history

theorem MemberOk.grow {history : List Term} (h : MemberOk H root history) {cells : SlotCells}
    (hg : Grows root.cells cells) : MemberOk H { root with cells } history :=
  ⟨h.indexed.grow hg, h.sound, h.recorded⟩

theorem MemberOk.call {root : Root} {hi : List Term} (h : MemberOk H root hi)
    (c : FamilyCall) : MemberOk H (c.run H root) (hi ++ c.terms root) := by
  have hc := callSpec h.indexed h.sound c
  exact ⟨hc.interned.indexed, hc.sound, h.recorded.step hc.extends_rows hc.only hc.all⟩

/-- What holds of a family and the histories beside it. -/
structure FamilyOk (H : Hashing) (traced : TracedFamily) : Prop where
  length : traced.histories.length = traced.family.members.length
  member : ∀ (i : Nat) (root : Root) (history : List Term),
    traced.family.member? i = some root → traced.histories[i]? = some history →
    MemberOk H root history

variable {family : Family} {i : Nat}

theorem Family.member?_some : family.member? i = some root ↔
      family.members[i]? = some root.store ∧ root.cells = family.cells := by
  unfold Family.member?
  rw [Option.map_eq_some_iff]
  constructor
  · rintro ⟨s, hs, rfl⟩
    exact ⟨hs, rfl⟩
  · rintro ⟨hs, hc⟩
    refine ⟨root.store, hs, ?_⟩
    rw [← hc]

/-- How a call leaves the family: the heap has grown, the other members have their cells, and
    the member itself has at least the rows it had. -/
structure StepSpec (H : Hashing) (family : Family) (call : FamilyCall) : Prop where
  grows : Grows family.cells (family.step H call).cells
  others : ∀ j, j ≠ call.member → j < family.members.length →
    (family.step H call).members[j]? = family.members[j]?
  later : ∀ (i : Nat) (store : TermStore), family.members[i]? = some store →
    ∃ store', (family.step H call).members[i]? = some store' ∧ Rows.Extends store.rows store'.rows

private theorem step_put {c : FamilyCall} (hr : family.member? c.member = some root)
    (hc : ∀ i, c ≠ .fork i) :
    family.step H c = family.put c.member (c.run H root) := by
  unfold Family.step
  rw [hr]
  cases c with
  | fork i => exact absurd rfl (hc i)
  | intern i t | internAtom i v | internTriple i t1 t2 t3 => rfl

variable (h : FamilyOk H tr)
include h

theorem stepSpec (call : FamilyCall) : StepSpec H tr.family call := by
  cases hr : tr.family.member? call.member with
  | none =>
    have hst : tr.family.step H call = tr.family := by
      unfold Family.step; rw [hr]
    refine ⟨?_, ?_, ?_⟩
    · rw [hst]; exact Grows.refl _
    · intro j _ _; rw [hst]
    · intro i s hs; rw [hst]; exact ⟨s, hs, Rows.Extends.refl _⟩
  | some root =>
    obtain ⟨hsto, hce⟩ := Family.member?_some.mp hr
    have hi : call.member < tr.family.members.length :=
      (List.getElem?_eq_some_iff.mp hsto).1
    obtain ⟨hist, hh⟩ : ∃ hist, tr.histories[call.member]? = some hist :=
      ⟨_, getElem?_eq_getElem (by rw [h.length]; exact hi)⟩
    have hok := h.member _ _ _ hr hh
    by_cases hf : ∃ i, call = .fork i
    · obtain ⟨i, rfl⟩ := hf
      have hst : tr.family.step H (.fork i) =
          { tr.family with
            members := tr.family.members ++ [forkState root.store] } := by
        unfold Family.step; rw [hr]
      refine ⟨?_, ?_, ?_⟩
      · rw [hst]; exact Grows.refl _
      · intro j _ hj; rw [hst]; exact getElem?_append_left hj
      · intro j s hs
        rw [hst]
        refine ⟨s, ?_, Rows.Extends.refl _⟩
        rw [← hs]
        exact getElem?_append_left (List.getElem?_eq_some_iff.mp hs).1
    · have hca : ∀ i, call ≠ .fork i := fun i hc => hf ⟨i, hc⟩
      have hst := step_put (H := H) hr hca
      have hc := callSpec hok.indexed hok.sound call
      refine ⟨?_, ?_, ?_⟩
      · rw [hst, ← hce]; exact hc.interned.grows
      · intro j hj _
        rw [hst]
        exact getElem?_set_ne (Ne.symm hj)
      · intro j s hs
        rw [hst]
        by_cases hj : call.member = j
        · subst hj
          rw [hs] at hsto
          cases Option.some.inj hsto
          exact ⟨_, getElem?_set_self hi, hc.extends_rows⟩
        · exact ⟨s, by rw [← hs]; exact getElem?_set_ne hj, Rows.Extends.refl _⟩

/-- **The step lemma**: any call on any member keeps the family's invariant. -/
theorem step_familyOk (call : FamilyCall) : FamilyOk H (tr.step H call) := by
  have hspec := stepSpec h call
  unfold TracedFamily.step
  cases hr : tr.family.member? call.member with
  | none => exact h
  | some root =>
    obtain ⟨hstore, hcells⟩ := Family.member?_some.mp hr
    have hi : call.member < tr.family.members.length :=
      (List.getElem?_eq_some_iff.mp hstore).1
    have hih : call.member < tr.histories.length := by rw [h.length]; exact hi
    obtain ⟨hist, hhist⟩ : ∃ hist, tr.histories[call.member]? = some hist :=
      ⟨_, getElem?_eq_getElem hih⟩
    have hok := h.member _ _ _ hr hhist
    rw [hhist]
    by_cases hfork : ∃ i, call = .fork i
    · obtain ⟨i, rfl⟩ := hfork
      have hstep : tr.family.step H (.fork i) =
          { tr.family with
            members := tr.family.members ++ [forkState root.store] } := by
        unfold Family.step; rw [hr]
      dsimp only
      rw [hstep]
      refine ⟨by simp [h.length], ?_⟩
      intro j r history hj hh
      obtain ⟨hj, hc⟩ := Family.member?_some.mp hj
      dsimp only at hj hc
      rcases Nat.lt_or_ge j tr.family.members.length with hlt | hge
      · rw [getElem?_append_left hlt] at hj
        rw [getElem?_append_left (by rw [h.length]; exact hlt)] at hh
        exact h.member j r history (Family.member?_some.mpr ⟨hj, hc⟩) hh
      · -- The fork begins as the member it was taken from.
        have hlen : j = tr.family.members.length := by
          have := (List.getElem?_eq_some_iff.mp hj).1
          simp only [length_append, length_singleton] at this
          omega
        subst hlen
        rw [getElem?_append_right (Nat.le_refl _)] at hj
        rw [getElem?_append_right (Nat.le_of_eq h.length), h.length] at hh
        have hr' : r = root := by
          have : forkState root.store = r.store := by simpa using hj
          obtain ⟨rc, rs⟩ := r
          obtain ⟨c, s⟩ := root
          simp only at hc hcells this
          rw [hc, hcells, ← this]
          rfl
        have hhist' : hist = history := by simpa using hh
        rw [hr', ← hhist']
        exact hok
    · have hcall : ∀ i, call ≠ .fork i := fun i hc => hfork ⟨i, hc⟩
      have hstep := step_put (H := H) hr hcall
      have hfam : FamilyOk H
          { family := tr.family.put call.member (call.run H root)
            histories := tr.histories.set call.member (hist ++ call.terms root) } := by
        refine ⟨by simp [Family.put, h.length], ?_⟩
        intro j r history hj hh
        obtain ⟨hj, hc⟩ := Family.member?_some.mp hj
        dsimp only [Family.put] at hj hc hh
        by_cases heq : call.member = j
        · subst heq
          rw [getElem?_set_self hi] at hj
          rw [getElem?_set_self hih] at hh
          have hr' : r = call.run H root := by
            obtain ⟨rc, rs⟩ := r
            have := Option.some.inj hj
            simp only at hc this
            rw [hc, ← this]
          rw [hr', ← Option.some.inj hh]
          exact hok.call call
        · rw [getElem?_set_ne heq] at hj hh
          have hold := h.member j ⟨tr.family.cells, r.store⟩ history
            (Family.member?_some.mpr ⟨hj, rfl⟩) hh
          have hgr := hspec.grows
          rw [hstep] at hgr
          have := hold.grow hgr
          obtain ⟨rc, rs⟩ := r
          simp only [Family.put] at hc this ⊢
          rw [hc]
          exact this
      rw [hstep]
      cases call with
      | fork i => exact absurd rfl (hcall i)
      | intern i t | internAtom i value | internTriple i t1 t2 t3 => exact hfam

/-- **The run lemma.** -/
theorem run_familyOk (cs : List FamilyCall) : FamilyOk H (tr.run H cs) := by
  unfold TracedFamily.run
  induction cs generalizing tr with
  | nil => exact h
  | cons c cs ih => exact ih (step_familyOk h c)

/-- The histories are beside the family, not in it. -/
theorem run_family (calls : List FamilyCall) : (tr.run H calls).family = tr.family.run H calls := by
  unfold TracedFamily.run Family.run
  induction calls generalizing tr with
  | nil => rfl
  | cons call calls ih =>
    have hs : (tr.step H call).family = tr.family.step H call := by
      unfold TracedFamily.step Family.step
      cases hr : tr.family.member? call.member with
      | none => rfl
      | some root =>
        have hi := (List.getElem?_eq_some_iff.mp (Family.member?_some.mp hr).1).1
        rw [getElem?_eq_getElem (by rw [h.length]; exact hi)]
    rw [foldl_cons, foldl_cons, ih (step_familyOk h call), hs]

/-- A member keeps its rows, whatever the family goes on to do. -/
theorem run_later (cs : List FamilyCall) {s : TermStore} (hs : tr.family.members[i]? = some s) :
    ∃ s', (tr.run H cs).family.members[i]? = some s' ∧ Rows.Extends s.rows s'.rows := by
  unfold TracedFamily.run
  induction cs generalizing tr s with
  | nil => exact ⟨s, hs, Rows.Extends.refl _⟩
  | cons c cs ih =>
    obtain ⟨next, hn, hext⟩ := (stepSpec h c).later i s hs
    have hfam := run_family h [c]
    simp only [TracedFamily.run, Family.run, foldl_cons, foldl_nil] at hfam
    rw [← hfam] at hn
    obtain ⟨l, hl, hext'⟩ := ih (step_familyOk h c) hn
    exact ⟨l, hl, hext.trans hext'⟩

omit h

/-! ### A family of one -/

theorem single_familyOk (h : Indexed H root) (hro : root.store.rows = Rows.empty) :
    FamilyOk H (TracedFamily.single root) := by
  refine ⟨rfl, ?_⟩
  intro i r history hr hh
  obtain ⟨hr, hc⟩ := Family.member?_some.mp hr
  have hi := (List.getElem?_eq_some_iff.mp hr).1
  simp only [TracedFamily.single, Family.single, length_singleton] at hi
  obtain rfl : i = 0 := by omega
  have hs : root.store = r.store := by simpa [TracedFamily.single, Family.single] using hr
  have hhi : [] = history := by simpa [TracedFamily.single] using hh
  have hroo : r = root := by
    obtain ⟨rc, rs⟩ := r
    obtain ⟨c, s⟩ := root
    simp only [TracedFamily.single, Family.single] at hc hs
    rw [hc, ← hs]
  subst hroo hhi
  refine ⟨h, ?_, ?_⟩
  · rw [hro]
    exact Rows.empty_sound
  · rw [hro]
    refine ⟨?_, fun s hm => by simp at hm⟩
    intro k u d
    cases d with
    | atom row => simp [Rows.empty] at row
    | triple at_row => simp [Rows.empty] at at_row


/-! ### Canonicity, for any interleaving -/

/-- The two views answer every question alike. -/
structure SameAnswers (H : Hashing) (a b : Root) : Prop where
  resolve : ∀ h, resolveHandle a.store h = resolveHandle b.store h
  known : ∀ t, knownTermHandle H a t = knownTermHandle H b t
  returned : ∀ call : FamilyCall, call.returned H a = call.returned H b

theorem returned_eq (h : Indexed H root) (c : FamilyCall) : c.returned H root = match c with
      | .fork _ => none
      | .intern _ t => some (root.store.rows.intern t).2
      | .internAtom _ v => some (root.store.rows.intern (.atom v)).2
      | .internTriple _ t1 t2 t3 =>
        if validHandle root.store t1 && (validHandle root.store t2 &&
          validHandle root.store t3) then
          some (root.store.rows.internTriple ⟨t1, t2, t3⟩).2
        else none := by
  cases c with
  | fork i => rfl
  | intern i t => simp only [FamilyCall.returned, (internHandle_spec h t).2]
  | internAtom i v =>
    simp only [FamilyCall.returned, internAtomHandle, (internAtomRow_spec h _).2]
    rfl
  | internTriple i t1 t2 t3 =>
    simp only [FamilyCall.returned, internTripleHandle]
    split
    · simp [Except.toOption, (internTripleRow_spec h _).2]
    · rfl

/-- Views with the same rows answer alike, whatever their slot tables hold. -/
theorem sameAnswers_of_store {a b : Root} (ha : Indexed H a) (hb : Indexed H b)
    (h : a.store = b.store) : SameAnswers H a b where
  resolve k := by rw [h]
  known t := by rw [knownTermHandle_eq ha, knownTermHandle_eq hb, h]
  returned call := by rw [returned_eq ha, returned_eq hb, h]

/-- The handle a call returns denotes the Term the call interns, NaNs apart. -/
theorem returned_denotes (h : Indexed H root) (hs : root.store.rows.Sound) {c : FamilyCall}
    {k : Int} {t : Term} (hk : c.returned H root = some k) (ht : c.term? root = some t)
    (hn : t.hasNan = false) : ∃ u, (c.run H root).store.rows.Denotes k u ∧ u.same t = true := by
  cases c with
  | fork i => simp [FamilyCall.returned] at hk
  | intern i t' =>
    obtain rfl : t' = t := by simpa [FamilyCall.term?] using ht
    obtain ⟨hi, hh⟩ := internHandle_spec h t'
    simp only [FamilyCall.returned, Option.some.injEq] at hk
    rw [← hk, hh]
    show ∃ u, Rows.Denotes (internHandle H root t').1.store.rows _ u ∧ _
    rw [hi.rows_eq]
    exact Rows.intern_denotes hs hn
  | internAtom i v =>
    obtain rfl : Term.atom v = t := by simpa [FamilyCall.term?] using ht
    obtain ⟨hi, hh⟩ := internHandle_spec h (.atom v)
    simp only [FamilyCall.returned, Option.some.injEq] at hk
    rw [← hk]
    show ∃ u, Rows.Denotes (internHandle H root (.atom v)).1.store.rows
      (internHandle H root (.atom v)).2 u ∧ _
    rw [hi.rows_eq, hh]
    exact Rows.intern_denotes hs hn
  | internTriple i t1 t2 t3 =>
    cases hok : internTripleHandle H root t1 t2 t3 with
    | error e => simp [FamilyCall.returned, hok, Except.toOption] at hk
    | ok r =>
      simp only [FamilyCall.returned, hok, Except.toOption, Option.map_some,
        Option.some.injEq] at hk
      obtain ⟨⟨v1, v2, v3⟩, hr⟩ := internTripleHandle_ok_iff.mp hok
      obtain ⟨u1, d1⟩ := v1.denotes hs
      obtain ⟨u2, d2⟩ := v2.denotes hs
      obtain ⟨u3, d3⟩ := v3.denotes hs
      simp only [FamilyCall.term?, resolveHandle_denotes hs d1, resolveHandle_denotes hs d2,
        resolveHandle_denotes hs d3, Option.some.injEq] at ht
      obtain ⟨hi, hh⟩ := internTripleRow_spec h ⟨t1, t2, t3⟩
      have hrun : (FamilyCall.internTriple i t1 t2 t3).run H root = r.1 := by
        simp only [FamilyCall.run, hok]
      rw [hrun, ← hk, ← hr, hi.rows_eq, hh, ← ht]
      refine ⟨_, Rows.internTriple_denotes (r := ⟨t1, t2, t3⟩) d1 d2 d3, ?_⟩
      rw [Term.same_self, ht, hn]
      rfl

/-- **Interning is canonical across forks.**  In every member of a family grown from a fresh
    store, after any interleaving of calls: distinct handles resolve to Terms that are not
    equal; the handle a call returns resolves to the Term it interned, then and ever after, if
    no NaN occurs in it; a Term is known exactly when it equals a Term interned in the member's
    own history; and a call on another member changes none of the member's answers. -/
theorem interning_canonical_across_forks {spaceId : String} {a b c : Nat} {root : Root}
    (hroot : newTermStoreSized [] spaceId a b c = .ok root) (calls : List FamilyCall) (i : Nat)
    (member : Root) (history : List Term)
    (hm : ((Family.single root).run H calls).member? i = some member)
    (hh : ((TracedFamily.single root).run H calls).histories[i]? = some history) :
    (∀ h k t u, resolveHandle member.store h = .ok t → resolveHandle member.store k = .ok u →
        h ≠ k → t.same u = false) ∧
      (∀ call h t, call.member = i → call.returned H member = some h →
        call.term? member = some t → t.hasNan = false → ∀ more, ∃ later u,
          (((Family.single root).run H calls).run H (call :: more)).member? i = some later ∧
            resolveHandle later.store h = .ok u ∧ u.same t = true) ∧
      (∀ t, (knownTermHandle H member t).isSome = true ↔ ∃ s ∈ history, s.same t = true) ∧
      ∀ call, call.member ≠ i → ∃ member',
        (((Family.single root).run H calls).step H call).member? i = some member' ∧
          SameAnswers H member member' := by
  obtain ⟨hix, hr, -, -⟩ := newTermStoreSized_ok (H := H) hroot
  have h0 := single_familyOk hix hr
  have hok := run_familyOk h0 calls
  have hfam := run_family h0 calls
  have hfam' : ((TracedFamily.single root).run H calls).family
      = (Family.single root).run H calls := hfam
  have hm' := hm
  rw [← hfam'] at hm'
  obtain ⟨hi, hs, hrec⟩ := hok.member i member history hm' hh
  refine ⟨?_, ?_, ?_, ?_⟩
  · intro h k t u ht hu hne
    by_contra hsa
    rw [Bool.not_eq_false] at hsa
    exact hne (Rows.Denotes.canonical hi.distinct ((resolveHandle_iff hs).mp ht)
      ((resolveHandle_iff hs).mp hu) hsa)
  · intro call h t hc hret hte hn more
    subst hc
    obtain ⟨u, d, hu⟩ := returned_denotes hi hs hret hte hn
    have hca : ∀ j, call ≠ .fork j := by
      intro j hj; subst hj; simp [FamilyCall.returned] at hret
    have hste := step_put (H := H) hm' hca
    have hlen := (List.getElem?_eq_some_iff.mp (Family.member?_some.mp hm').1).1
    have hok1 := step_familyOk hok call
    have hfam1 := run_family hok [call]
    simp only [TracedFamily.run, Family.run, foldl_cons, foldl_nil] at hfam1
    have hput : (TracedFamily.step H ((TracedFamily.single root).run H calls)
        call).family.members[call.member]? = some (call.run H member).store := by
      have : (TracedFamily.step H ((TracedFamily.single root).run H calls) call).family
          = ((TracedFamily.single root).run H calls).family.put call.member
              (call.run H member) := hfam1.trans hste
      rw [this]
      exact getElem?_set_self hlen
    obtain ⟨l, hl, hext⟩ := run_later hok1 more hput
    have hfam2 := run_family hok (call :: more)
    rw [hfam'] at hfam2
    have hla := run_familyOk hok1 more
    refine ⟨⟨(((Family.single root).run H calls).run H (call :: more)).cells, l⟩, u, ?_, ?_, hu⟩
    · rw [← hfam2]
      exact Family.member?_some.mpr ⟨hl, rfl⟩
    · have hl' := hl
      obtain ⟨hist, hhi⟩ : ∃ hist, (TracedFamily.run H (TracedFamily.step H
          ((TracedFamily.single root).run H calls) call) more).histories[call.member]?
            = some hist :=
        ⟨_, getElem?_eq_getElem (by
          rw [hla.length]; exact (List.getElem?_eq_some_iff.mp hl').1)⟩
      have hlok := hla.member call.member ⟨_, l⟩ hist (Family.member?_some.mpr ⟨hl, rfl⟩) hhi
      exact resolveHandle_denotes hlok.sound (d.mono hext)
  · intro t
    rw [knownTermHandle_eq hi, Option.isSome_iff_exists]
    constructor
    · rintro ⟨h, hk⟩
      obtain ⟨u, d, hu⟩ := (Rows.known_iff hi.distinct hs).mp hk
      have hun : u.hasNan = false := by
        by_contra hn
        rw [Bool.not_eq_false] at hn
        rw [Term.same_of_hasNan hn] at hu
        simp at hu
      obtain ⟨s, hmem, hsu⟩ := hrec.only h u d hun
      exact ⟨s, hmem, Term.same_trans hsu hu⟩
    · rintro ⟨s, hmem, hst⟩
      have hsn : s.hasNan = false := by
        by_contra hn
        rw [Bool.not_eq_false] at hn
        rw [Term.same_of_hasNan hn] at hst
        simp at hst
      obtain ⟨h, u, d, hu⟩ := hrec.all s hmem hsn
      exact ⟨h, (Rows.known_iff hi.distinct hs).mpr ⟨u, d, Term.same_trans hu hst⟩⟩
  · intro call hne
    have hsp := stepSpec hok call
    rw [hfam'] at hsp
    obtain ⟨hsto, hce⟩ := Family.member?_some.mp hm
    have hlen := (List.getElem?_eq_some_iff.mp hsto).1
    refine ⟨⟨(((Family.single root).run H calls).step H call).cells, member.store⟩, ?_, ?_⟩
    · refine Family.member?_some.mpr ⟨?_, rfl⟩
      rw [hsp.others i (Ne.symm hne) hlen]
      exact hsto
    · have hg := hsp.grows
      rw [← hce] at hg
      exact sameAnswers_of_store hi (hi.grow hg) rfl

end

/-- A fork taken before its parent interns a Term does not come to know the Term. -/
theorem interning_canonical_in_a_fork : ∃ root member, newTermStoreSized [] "a" 0 0 0 = .ok root ∧
        ((Family.single root).run .fnv [.fork 0, .intern 0 (.atom (.bool true))]).member? 1
          = some member ∧
        (knownTermHandle .fnv member (.atom (.bool true))).isSome = false := by
  obtain ⟨root, hr⟩ := newTermStoreSized_exists [] (by decide : "a" ≠ "") 0 0 0
  refine ⟨root, _, hr, rfl, ?_⟩
  obtain ⟨-, -, hkn, -⟩ := interning_canonical_across_forks (H := .fnv) hr
    [.fork 0, .intern 0 (.atom (.bool true))] 1 _ [] rfl rfl
  rw [Bool.eq_false_iff]
  intro hk
  obtain ⟨s, hs, -⟩ := (hkn _).mp hk
  simp at hs

/-- The atom that is not a number. -/
def nanTerm : Term := .atom (.float .nan)

/-- Interning a NaN returns a handle, but the NaN is not known afterwards, and what the handle
    resolves to is not equal to what was interned. -/
theorem nan_interned_and_not_known : ∃ root, newTermStoreSized [] "a" 0 0 0 = .ok root ∧
      knownTermHandle .fnv (internHandle .fnv root nanTerm).1 nanTerm = none ∧
        resolveHandle (internHandle .fnv root nanTerm).1.store (internHandle .fnv root nanTerm).2
            = .ok nanTerm ∧
          nanTerm.same nanTerm = false := by
  obtain ⟨root, hro⟩ := newTermStoreSized_exists [] (by decide : "a" ≠ "") 0 0 0
  obtain ⟨hix, hr, -, -⟩ := newTermStoreSized_ok (H := .fnv) hro
  obtain ⟨hi, hh⟩ := internHandle_spec hix nanTerm
  have hs : root.store.rows.Sound := by
    rw [hr]
    exact Rows.empty_sound
  refine ⟨root, hro, ?_, ?_, by decide⟩
  · rw [knownTermHandle_eq hi.indexed, hi.rows_eq, hr]
    decide
  · refine resolveHandle_denotes (by rw [hi.rows_eq]; exact Rows.intern_sound hs nanTerm) ?_
    rw [hi.rows_eq, hh, hr]
    exact .atom (p := 0) rfl

end Beagle.Store
