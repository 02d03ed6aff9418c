/-
The fixpoint of a stratum is its least model.

Semi-naive rounds are an instance of the general scheme: the new facts are those of
the database of new tuples, and a consequence that uses one of them is found with
the literal that reads it pinned.  The loop keeps the scheme's invariant and the
sources of the round, so when it ends the database shows the least model; it ends
as soon as finitely many tuples, none with a NaN, cover what the rules can derive.
-/
import Beagle.Proofs.Rounds

namespace Beagle.Query

open Beagle.Lib Beagle.Store List

/-! ### Splitting a consequence by the new facts -/

section

variable {D : Doubles} {R : Reading} {I Δ : Facts}

/-- A literal reads an old fact, or it is positive and reads a new one. -/
theorem LiteralStep.split (Δ : Facts) {l : Literal} {σ σ' : Substitution}
    (h : LiteralStep D R I l σ σ') :
    LiteralStep D R (I \ Δ) l σ σ' ∨ l.positive = true ∧ LiteralStep D R Δ l σ σ' ∧
        ∃ t, (l.relation, t) ∈ Δ := by
  cases h with
  | @relation t _ hk hneg hpl hf hmat =>
    by_cases hnew : (l.relation, t) ∈ Δ
    · exact Or.inr ⟨positive_iff.mpr ⟨hk, hneg⟩, .relation hk hneg hpl hnew hmat, _, hnew⟩
    · exact Or.inl (.relation hk hneg hpl ⟨hf, hnew⟩ hmat)
  | text hk hneg ht hn hro hrow hmat =>
    exact Or.inl (.text hk hneg ht hn hro hrow hmat)
  | negated hk hneg hgr habs => exact Or.inl (.negated hk hneg hgr habs)
  | comparison hk hfst hsnd hl hr hhd =>
    exact Or.inl (.comparison hk hfst hsnd hl hr hhd)
  | builtin hk hfst hsnd hl hr hval =>
    exact Or.inl (.builtin hk hfst hsnd hl hr hval)

theorem pinned_of_ne {pin p : Nat} (h : p ≠ pin) : pinned I Δ pin p = I := by
  unfold pinned
  rw [if_neg h]

theorem pinned_self {pin : Nat} : pinned I Δ pin pin = Δ := by
  unfold pinned
  rw [if_pos rfl]

/-- A body uses old facts only, or some literal of it can be pinned to the new ones. -/
theorem BodyStep.split (Δ : Facts) : ∀ {b : List Literal} {p : Nat}
    {σ σ' : Substitution}, BodyStep D R (fun _ => I) p b σ σ' →
      BodyStep D R (fun _ => I \ Δ) p b σ σ' ∨ ∃ k l, b[k]? = some l ∧ l.positive = true ∧
          (∃ t, (l.relation, t) ∈ Δ) ∧
          BodyStep D R (pinned I Δ (p + k)) p b σ σ' := by
  intro b
  induction b with
  | nil =>
    intro p σ σ' h
    cases h
    exact Or.inl (.nil _)
  | cons l r ih =>
    intro p σ σ' h
    cases h with
    | @cons _ _ _ _ σ₁ _ hhead hrest =>
      rcases hhead.split Δ with hold | ⟨hpos, hnew, hf⟩
      · rcases ih hrest with ho | ⟨k, o, hget, hpos, hf, hpin⟩
        · exact Or.inl (.cons hold ho)
        · refine Or.inr ⟨k + 1, o, hget, hpos, hf, ?_⟩
          rw [show p + (k + 1) = p + 1 + k by omega]
          refine .cons ?_ hpin
          rw [pinned_of_ne (by omega)]
          exact hhead
      · have hr : LiteralStep D R (pinned I Δ (p + 0) p) l σ σ₁ := by
          rw [Nat.add_zero, pinned_self]
          exact hnew
        refine Or.inr ⟨0, l, rfl, hpos, hf, .cons hr ?_⟩
        refine hrest.mono_from fun q hq => ?_
        rw [pinned_of_ne (by omega)]

theorem mem_positiveRelationNames {rus : List Rule} {relation : String} :
    relation ∈ positiveRelationNames rus ↔ ∃ r ∈ rus, ∃ l ∈ r.body, l.positive = true ∧
        l.relation = relation := by
  unfold positiveRelationNames
  simp only [mem_insertionSort, mem_dedup, mem_flatMap, mem_map, mem_filter, and_assoc]

theorem nodup_positiveRelationNames (rus : List Rule) : (positiveRelationNames rus).Nodup := by
  unfold positiveRelationNames
  exact (perm_insertionSort _ _).nodup_iff.mpr (nodup_dedup _)

/-- The new facts are facts of relations that the rules derive. -/
def NewFacts (rules : List Rule) (I Δ : Facts) : Prop :=
  Δ ⊆ I ∧ ∀ fact ∈ Δ, fact.1 ∈ ruleHeadRelations rules

/-- The pinned rounds are semi-naive. -/
theorem differential (rus : List Rule) :
    SemiNaive.Differential (consequences D R rus) (NewFacts rus) (pinnedConsequences D R rus) where
  sound I Δ hnew := by
    rintro f ⟨r, hr, hh, pin, -, hd⟩
    refine ⟨r, hr, hh, hd.mono fun p => ?_⟩
    unfold pinned
    split
    · exact hnew.1
    · exact Set.Subset.rfl
  complete I Δ hnew := by
    rintro f ⟨r, hr, hh, σ, h', hb, hgr, hal⟩
    rcases hb.split Δ with hold | ⟨k, l, hget, hpos, ⟨t, hf⟩, hpin⟩
    · exact Or.inl ⟨r, hr, hh, σ, h', hold, hgr, hal⟩
    · refine Or.inr ⟨r, hr, hh, k, ?_, σ, h', ?_, hgr, hal⟩
      · refine mem_deltaRelationPositions.mpr ⟨l, hget, hpos, ?_⟩
        refine mem_deltaRelationNames.mpr ⟨mem_positiveRelationNames.mpr ?_, hnew.2 _ hf⟩
        exact ⟨r, hr, l, mem_of_getElem? hget, hpos, rfl⟩
      · rw [Nat.zero_add] at hpin
        exact hpin

/-- Every literal of a body that lets a substitution through is passed. -/
theorem BodyStep.at {fs : Nat → Facts} {l : Literal} : ∀ {b : List Literal}
    {p k : Nat} {σ σ' : Substitution}, BodyStep D R fs p b σ σ' →
      b[k]? = some l → ∃ τ τ', LiteralStep D R (fs (p + k)) l τ τ' := by
  intro b
  induction b with
  | nil => intro p k σ σ' _ hget; simp at hget
  | cons first r ih =>
    intro p k σ σ' h hget
    cases h with
    | cons hh hr =>
      cases k with
      | zero =>
        cases hget
        exact ⟨_, _, hh⟩
      | succ k =>
        have hs := ih hr (by simpa using hget)
        rw [show p + 1 + k = p + (k + 1) by omega] at hs
        exact hs

/-- A pinned rule reads a new fact. -/
theorem pinnedConsequences_reads {rus : List Rule}
    (hpl : ∀ relation ∈ ruleHeadRelations rus, relation ∉ textRelations)
    {f : String × Tuple} (h : f ∈ pinnedConsequences D R rus I Δ) :
    ∃ r ∈ rus, r.headRelation = f.1 ∧ ∃ l ∈ r.body, l.positive = true ∧
      l.relation ∈ deltaRelationNames rus ∧ ∃ t, (l.relation, t) ∈ Δ := by
  obtain ⟨r, hr, hh, pin, hpin, σ, h', hb, -, -⟩ := h
  obtain ⟨l, hget, hpos, hmem⟩ := mem_deltaRelationPositions.mp hpin
  refine ⟨r, hr, hh, l, mem_of_getElem? hget, hpos, hmem, ?_⟩
  obtain ⟨hki, hneg⟩ := positive_iff.mp hpos
  obtain ⟨τ, τ', hs⟩ := hb.at hget
  rw [Nat.zero_add, pinned_self] at hs
  cases hs with
  | relation _ _ _ hf _ => exact ⟨_, hf⟩
  | text _ _ ht => exact absurd ht (hpl _ (mem_deltaRelationNames.mp hmem).2)
  | negated _ hneg' => rw [hneg] at hneg'; simp at hneg'
  | comparison hk => rw [hki] at hk; simp at hk
  | builtin hk => rw [hki] at hk; simp at hk

end

/-! ### The rounds -/

section

variable {D : Doubles} (hD : D.Lawful) {R : Reading} {a : Stop → Prop}
  {co : Option QueryControl} (hch : AllowsChecks co a)
  {ar : String → Option Nat} {cs : CandidateSources} {rws : String → List Tuple}
  {rus : List Rule} {db₀ : Db} (ha : Answered D R ar cs rws rus db₀)

/-- The facts the rules derive from those a database shows. -/
def modelOf (D : Doubles) (R : Reading) (candidates : CandidateSources)
    (rows : String → List Tuple) (rules : List Rule) (db₀ : Db) : Facts :=
  leastModel D R rules (visible candidates rows db₀)

/-- What the rules derive with the registered text searches and proper negation. -/
def model (D : Doubles) (candidates : CandidateSources) (rows : String → List Tuple)
    (rules : List Rule) (db₀ : Db) : Facts :=
  modelOf D (reading candidates rows db₀) candidates rows rules db₀

/-- What the loop keeps. -/
structure Keeps (D : Doubles) (R : Reading) (candidates : CandidateSources) (rows : String → List Tuple)
    (rules : List Rule) (db₀ : Db) (round : Round) : Prop where
  frame : SameOutside (ruleHeadRelations rules) db₀ round.db
  serves : Serves (positiveRelationNames rules) candidates round.db round.sources
  invariant : SemiNaive.Invariant (consequences D R rules)
    (NewFacts rules) (visible candidates rows db₀) (visible candidates rows round.db)
    (fresh round.delta)

variable {db d' : Db}

include ha in
/-- Putting in facts of derived relations shows those facts. -/
theorem visible_grow {S : Facts} (hS : ∀ f ∈ S, f.1 ∈ ruleHeadRelations rus)
    (h : ∀ r t, d'.Has r t ↔ db.Has r t ∨ (r, t) ∈ S) :
    visible cs rws d' = visible cs rws db ∪ S := by
  ext ⟨r, t⟩
  rw [Set.mem_union, mem_visible, mem_visible]
  cases hf : cs.find r with
  | none =>
    rw [shown_of_find hf, shown_of_find hf]
    exact h r t
  | some v =>
    rw [shown_of_some hf, shown_of_some hf]
    constructor
    · exact Or.inl
    · rintro (hr | hmem)
      · exact hr
      · have := ha.unregistered _ (hS _ hmem)
        rw [hf] at this
        simp at this

theorem sub_model {I : Facts} (hI : I ⊆ modelOf D R cs rws rus db₀)
    (href : ∀ stop, Refused D R (modelOf D R cs rws rus db₀)
      rus stop → a stop) {r : Rule} (hr : r ∈ rus) {stop : Stop}
    (h : BodyStops D R (fun _ => I) 0 r.body [] stop) :
    a stop :=
  href stop ⟨r, hr, h.mono fun _ => hI⟩

variable (href : ∀ stop, Refused D R
  (modelOf D R cs rws rus db₀) rus stop → a stop)

include hD hch ha href in
/-- The seeding derives once from the given database. -/
theorem seedFrom_ends : ∀ (rs : List Rule) (c : Db), (∀ ru ∈ rs, ru ∈ rus) →
    Ends a (fun res => match res.error with
        | none => ∀ r t, res.db.Has r t ↔ c.Has r t ∨
            ∃ ru ∈ rs, ru.headRelation = r ∧ Derives D R (visible cs rws db₀) ru t
        | some e => a (.error e))
      (seedFrom D co db₀ (initialSources D db₀ rus cs) rs c) := by
  intro rs
  induction rs with
  | nil => intro c _; exact Ends.pure fun r t => by simp
  | cons ru rs ih =>
    intro c hin
    have hr : ru ∈ rus := hin ru (by simp)
    refine orKeep_ends ?_ fun e herr => herr
    refine Ends.bind (deriveRuleIndexed_ends hD hch ha (SameOutside.refl _ _)
      (serves_build hD.str_injective db₀) hr fun stop h =>
        sub_model SemiNaive.base_subset_least href hr h) fun d hder => ?_
    refine Ends.mono (ih _ fun o ho => hin o (by simp [ho])) ?_
    intro res hres
    cases herr : res.error with
    | some e =>
      rw [herr] at hres
      exact hres
    | none =>
      rw [herr] at hres
      dsimp only at hres ⊢
      intro r t
      rw [hres r t, Db.has_add, hder t]
      simp only [mem_cons, exists_eq_or_imp]
      rw [or_assoc]

include ha in
theorem newFacts_dbNewOnly {c : Db} (h : ∀ r t, c.Has r t → r ∈ ruleHeadRelations rus →
      d'.Has r t) :
    NewFacts rus (visible cs rws d') (fresh (dbNewOnly c db (ruleHeadRelations rus))) := by
  refine ⟨?_, ?_⟩
  · rintro ⟨r, t⟩ hmem
    obtain ⟨hh, hhas⟩ := has_dbNewOnly hmem
    rw [mem_visible, shown_of_find (ha.unregistered _ hh)]
    exact h r t hhas hh
  · rintro ⟨r, t⟩ hmem
    exact (has_dbNewOnly hmem).1

include hD ha in
/-- The round after the seeding keeps what the loop keeps. -/
theorem firstRound_keeps {s : Db} (hs : ∀ r t, s.Has r t ↔ db₀.Has r t ∨
      ∃ ru ∈ rus, ru.headRelation = r ∧ Derives D R (visible cs rws db₀) ru t)
    (hfrm : SameOutside (ruleHeadRelations rus) db₀ s) :
    Keeps D R cs rws rus db₀ (firstRound D db₀ rus cs s) := by
  have hhe : ∀ f ∈ consequences D R rus (visible cs rws db₀), f.1 ∈ ruleHeadRelations rus := by
    rintro f ⟨ru, hr, hh, -⟩
    exact mem_ruleHeadRelations.mpr (mem_map.mpr ⟨ru, hr, hh⟩)
  have hg : visible cs rws s = visible cs rws db₀ ∪ consequences D R rus (visible cs rws db₀) :=
    visible_grow ha hhe hs
  have hsp : ∀ r t, s.Has r t ↔ db₀.Has r t ∨
      (dbNewOnly s db₀ (ruleHeadRelations rus)).Has r t := by
    intro r t
    constructor
    · intro h
      rcases (hs r t).mp h with hold | hder
      · exact Or.inl hold
      · exact has_or_has_dbNewOnly (hhe (r, t) hder) h
    · rintro (hold | hnew)
      · exact (hs r t).mpr (Or.inl hold)
      · exact (has_dbNewOnly hnew).2
  refine ⟨hfrm, ?_, ?_⟩
  · refine (serves_build hD.str_injective db₀).addDelta hD.str_injective
      (nodup_positiveRelationNames rus) (fun r v hf => ?_) hsp
    refine dbNewOnly_tuples_of_notMem _ _ fun hh => ?_
    rw [ha.unregistered _ hh] at hf
    simp at hf
  · refine .first (newFacts_dbNewOnly ha fun r t h _ => h) hg ?_
    rintro ⟨r, t⟩ ⟨hmem, hnew⟩
    rw [mem_visible] at hmem ⊢
    cases hf : cs.find r with
    | some v =>
      rw [shown_of_some hf] at hmem ⊢
      exact hmem
    | none =>
      rw [shown_of_find hf] at hmem ⊢
      exact ((hsp r t).mp hmem).resolve_right hnew

variable {rd : Round} {J : List (String × Tuple)} {re : List String} {tp : Nat}

include hD hch ha href in
/-- A round derives what the pinned rules do. -/
theorem deriveDeltaFrom_ends (h : Keeps D R cs rws rus db₀ rd) :
    ∀ (rs : List Rule) (c : Db), (∀ ru ∈ rs, ru ∈ rus) → Ends a
        (fun res => ∀ r t, res.Has r t ↔ c.Has r t ∨ ∃ ru ∈ rs, ru.headRelation = r ∧
            ∃ pin ∈ deltaRelationPositions ru.body (deltaRelationNames rus), DerivesAt D R
                (pinned (visible cs rws rd.db) (fresh rd.delta) pin) ru t)
        (deriveDeltaFrom D co rd (buildCandidateSources D.str rd.delta (deltaRelationNames rus) [])
          (deltaRelationNames rus) rs c) := by
  intro rs
  induction rs with
  | nil => intro c _; exact Ends.pure fun r t => by simp
  | cons ru rs ih =>
    intro c hin
    have hr : ru ∈ rus := hin ru (by simp)
    refine Ends.bind (deriveRuleDelta_ends hD hch ha h.frame h.serves hr
      h.invariant.new.1 fun stop hs => sub_model h.invariant.subset_least href hr hs)
      fun d hder => ?_
    refine Ends.mono (ih _ fun o ho => hin o (by simp [ho])) ?_
    intro res hres r t
    rw [hres r t, Db.has_add, hder t]
    simp only [mem_cons, exists_eq_or_imp]
    rw [or_assoc]

/-- A round finds new tuples only, each by a rule that reads a relation with new tuples. -/
def FoundNew (rules : List Rule) (round next : Round) : Prop :=
  ∀ relation, ∀ t ∈ next.delta.tuples relation,
    round.db.contains relation t = false ∧ ∃ rule ∈ rules, rule.headRelation = relation ∧
      ∃ literal ∈ rule.body, literal.positive = true ∧
        literal.relation ∈ ruleHeadRelations rules ∧ round.delta.tuples literal.relation ≠ []

include hD hch ha href in
/-- A round keeps what the loop keeps and finds new tuples only. -/
theorem nextRound_ends (h : Keeps D R cs rws rus db₀ rd) : Ends a
      (fun next => Keeps D R cs rws rus db₀ next ∧ FoundNew rus rd next ∧
        (∀ r t, rd.db.Has r t ∨ next.delta.Has r t → next.db.Has r t) ∧
        ∀ f ∈ pinnedConsequences D R rus (visible cs rws rd.db) (fresh rd.delta),
            rd.db.contains f.1 f.2 = false → f ∈ fresh next.delta)
      (nextRound D co rus rd) := by
  refine Ends.mono (Ends.and (P := fun next => ∃ c : Db, (∀ r t,
      c.Has r t ↔ (r, t) ∈ pinnedConsequences D R rus (visible cs rws rd.db) (fresh rd.delta)) ∧
      next = ⟨dbMergeDelta rd.db (dbNewOnly c rd.db (ruleHeadRelations rus))
          (ruleHeadRelations rus),
        addDeltaSources D.str rd.sources
          (dbNewOnly c rd.db (ruleHeadRelations rus)) (positiveRelationNames rus),
        dbNewOnly c rd.db (ruleHeadRelations rus)⟩) ?_
    (nextRound_frame D co rus rd)) ?_
  · have hc := deriveDeltaFrom_ends hD hch ha href h rus []
      fun ru hr => hr
    unfold nextRound deriveDelta
    rw [bind_assoc]
    refine Ends.bind hc fun c hc => ?_
    rw [pure_bind]
    refine Ends.pure ⟨c, fun r t => ?_, rfl⟩
    rw [hc r t]
    constructor
    · rintro (⟨_, hmem, _⟩ | hder)
      · simp [Db.tuples, Likeness.get] at hmem
      · exact hder
    · exact Or.inr
  · rintro next ⟨⟨c, hc, rfl⟩, hfrm, -⟩
    have hhe : ∀ f ∈ pinnedConsequences D R rus
        (visible cs rws rd.db) (fresh rd.delta), f.1 ∈ ruleHeadRelations rus := by
      rintro f ⟨ru, hr, hh, -⟩
      exact mem_ruleHeadRelations.mpr (mem_map.mpr ⟨ru, hr, hh⟩)
    have hm : ∀ r t, (dbMergeDelta rd.db
        (dbNewOnly c rd.db (ruleHeadRelations rus)) (ruleHeadRelations rus)).Has
          r t ↔ rd.db.Has r t ∨ (dbNewOnly c rd.db (ruleHeadRelations rus)).Has r t := by
      intro r t
      rw [has_dbMergeDelta]
      constructor
      · rintro (hold | ⟨-, hnew⟩)
        · exact Or.inl hold
        · exact Or.inr hnew
      · rintro (hold | hnew)
        · exact Or.inl hold
        · exact Or.inr ⟨(has_dbNewOnly hnew).1, hnew⟩
    have hsp : ∀ r t, (dbMergeDelta rd.db
        (dbNewOnly c rd.db (ruleHeadRelations rus)) (ruleHeadRelations rus)).Has
          r t ↔ rd.db.Has r t ∨ (r, t) ∈ pinnedConsequences D R rus
              (visible cs rws rd.db) (fresh rd.delta) := by
      intro r t
      rw [hm]
      constructor
      · rintro (hold | hnew)
        · exact Or.inl hold
        · exact Or.inr ((hc r t).mp (has_dbNewOnly hnew).2)
      · rintro (hold | hder)
        · exact Or.inl hold
        · exact has_or_has_dbNewOnly (hhe (r, t) hder) ((hc r t).mpr hder)
    refine ⟨⟨h.frame.trans hfrm, ?_, ?_⟩, ?_, fun r t => (hm r t).mpr,
      fun f hfa hnew => has_dbNewOnly_of_new (hhe f hfa) ((hc f.1 f.2).mpr hfa) hnew⟩
    · refine h.serves.addDelta hD.str_injective (nodup_positiveRelationNames rus)
        (fun r v hf => ?_) hm
      refine dbNewOnly_tuples_of_notMem _ _ fun hh => ?_
      rw [ha.unregistered _ hh] at hf
      simp at hf
    · refine h.invariant.next (differential rus) ?_ (visible_grow ha hhe hsp) ?_
      · exact newFacts_dbNewOnly ha fun r t hhas _ =>
          (hsp r t).mpr (Or.inr ((hc r t).mp hhas))
      · rintro ⟨r, t⟩ ⟨hmem, hnew⟩
        rw [mem_visible] at hmem ⊢
        cases hf : cs.find r with
        | some v =>
          rw [shown_of_some hf] at hmem ⊢
          exact hmem
        | none =>
          rw [shown_of_find hf] at hmem ⊢
          exact ((hm r t).mp hmem).resolve_right hnew
    · intro r t hmem
      dsimp only at hmem
      rw [tuples_dbNewOnly] at hmem
      by_cases hh : r ∈ ruleHeadRelations rus
      · rw [if_pos hh] at hmem
        unfold newTuples at hmem
        rcases tupleLike.of_mem_into hmem with hnil | hfilter
        · simp at hnil
        obtain ⟨hc', hnew⟩ := mem_filter.mp hfilter
        refine ⟨by simpa using hnew, ?_⟩
        obtain ⟨ru, hr, hn, l, hlit, hpos, hre, tp, u, hu, -⟩ :=
          pinnedConsequences_reads ha.plain ((hc r t).mp (HasTuple.of_mem hc'))
        refine ⟨ru, hr, hn, l, hlit, hpos, (mem_deltaRelationNames.mp hre).2, fun hnil => ?_⟩
        rw [hnil] at hu
        simp at hu
      · rw [if_neg hh] at hmem
        simp at hmem

/-! ### The loop ends -/

/-- Finitely many tuples, none with a NaN, stand for what the rules can derive of the
recursive relations; the others have a rank above that of the relations they are derived
from. -/
structure Bounded (recursive : List String) (rules : List Rule) (M : Facts)
    (J : List (String × Tuple)) (rank : String → Nat) (top : Nat) : Prop where
  noNan : ∀ g ∈ J, tupleHasNan g.2 = false
  covers : ∀ relation ∈ ruleHeadRelations rules, relation ∈ recursive →
    ∀ t, (relation, t) ∈ M → ∃ u, (relation, u) ∈ J ∧ AlikeTuple u t
  rises : ∀ rule ∈ rules, rule.headRelation ∉ recursive → ∀ literal ∈ rule.body,
    literal.positive = true → rank literal.relation < rank rule.headRelation
  le_top : ∀ relation, rank relation ≤ top

/-- How many of the tuples a database does not have yet. -/
def missing (J : List (String × Tuple)) (db : Db) : Nat :=
  (J.filter fun g => !db.contains g.1 g.2).length

/-- The fuel that a loop needs from a round whose new tuples belong to relations of at least
this rank. -/
def need (J : List (String × Tuple)) (top : Nat) (db : Db) (least : Nat) : Nat :=
  missing J db * (top + 3) + (top + 2 - least)

/-- Every relation with new tuples has at least this rank. -/
def RankFrom (rank : String → Nat) (delta : Db) (least : Nat) : Prop :=
  ∀ relation, delta.tuples relation ≠ [] → least ≤ rank relation

theorem missing_le (hJ : ∀ g ∈ J, tupleHasNan g.2 = false) (hgr : ∀ r t, db.Has r t → d'.Has r t) :
    missing J d' ≤ missing J db := by
  refine Cycles.length_filter_le fun g hg habs => ?_
  by_contra hcont
  have ht : db.contains g.1 g.2 = true := by simpa using hcont
  have hl : d'.contains g.1 g.2 = true :=
    (hgr g.1 g.2 (HasTuple.of_contains ht)).contains (hJ g hg)
  rw [hl] at habs
  simp at habs

variable {rk : String → Nat}

/-- A round that finds a tuple of a recursive relation leaves fewer missing. -/
theorem missing_lt
    (hJ : Bounded re rus (modelOf D R cs rws rus db₀) J rk tp) {next : Round}
    (hn : Keeps D R cs rws rus db₀ next)
    (hgr : ∀ r t, rd.db.Has r t ∨ next.delta.Has r t →
      next.db.Has r t) {r : String} (hrec : r ∈ re) {t : Tuple}
    (ht : t ∈ next.delta.tuples r) (hold : rd.db.contains r t = false) :
    missing J next.db < missing J rd.db := by
  have hhas : next.delta.Has r t := HasTuple.of_mem ht
  have hf : (r, t) ∈ fresh next.delta := hhas
  obtain ⟨u, hu, hal⟩ := hJ.covers r (hn.invariant.new.2 _ hf) hrec t
    (hn.invariant.subset_least (hn.invariant.new.1 hf))
  have hs : ∀ db : Db, db.contains r u = db.contains r t :=
    fun db => mem_eq_of_hasTuple_iff (fun _ => Iff.rfl) hal
  refine Cycles.length_filter_lt ?_ ⟨(r, u), hu, ?_, ?_⟩
  · intro g hg habs
    by_contra hc
    have hth : rd.db.contains g.1 g.2 = true := by simpa using hc
    have hl : next.db.contains g.1 g.2 = true :=
      (hgr g.1 g.2 (Or.inl (HasTuple.of_contains hth))).contains (hJ.noNan g hg)
    rw [hl] at habs
    simp at habs
  · simp [hs, hold]
  · have : next.db.contains r u = true :=
      (hgr r u (Or.inr (hhas.congr hal.symm))).contains (hJ.noNan _ hu)
    simp [this]

/-- A round that finds something lowers the need. -/
theorem need_lt
    (hJ : Bounded re rus (modelOf D R cs rws rus db₀) J rk tp) {next : Round}
    (hn : Keeps D R cs rws rus db₀ next) (hnew : FoundNew rus rd next)
    (hg : ∀ r t, rd.db.Has r t ∨ next.delta.Has r t →
      next.db.Has r t) {least : Nat} (hl : RankFrom rk rd.delta least)
    (hs : ∃ r, rd.delta.tuples r ≠ []) :
    ∃ l', RankFrom rk next.delta l' ∧ need J tp next.db l' < need J tp rd.db least := by
  have htop : least ≤ tp := by
    obtain ⟨r, hrel⟩ := hs
    exact (hl r hrel).trans (hJ.le_top r)
  by_cases hrec : ∃ r ∈ re, next.delta.tuples r ≠ []
  · -- a recursive relation grows: start again from rank 0
    obtain ⟨r, hmem, hne⟩ := hrec
    obtain ⟨t, ht⟩ := exists_mem_of_ne_nil _ hne
    have hlt := missing_lt hJ hn hg hmem ht (hnew r t ht).1
    refine ⟨0, fun _ _ => Nat.zero_le _, ?_⟩
    have hmul : (missing J next.db + 1) * (tp + 3) ≤ missing J rd.db * (tp + 3) :=
      Nat.mul_le_mul_right _ hlt
    rw [Nat.add_mul] at hmul
    unfold need
    omega
  · -- otherwise everything new stands above something new of the round before
    refine ⟨least + 1, fun r hne => ?_, ?_⟩
    · obtain ⟨t, ht⟩ := exists_mem_of_ne_nil _ hne
      obtain ⟨-, ru, hru, rfl, l, hlit, hpos, -, hr⟩ := hnew r t ht
      have hri := hJ.rises ru hru (fun hmem => hrec ⟨_, hmem, hne⟩) l hlit hpos
      exact (hl l.relation hr).trans_lt hri
    · have hle := missing_le hJ.noNan (fun r t h => hg r t (Or.inl h))
      have hmul : missing J next.db * (tp + 3) ≤ missing J rd.db * (tp + 3) :=
        Nat.mul_le_mul_right _ hle
      unfold need
      omega

theorem deltaEmpty_eq_false {delta : Db} {ns : List String} (h : deltaEmpty delta ns = false) :
    ∃ r, delta.tuples r ≠ [] := by
  unfold deltaEmpty at h
  rw [all_eq_false] at h
  obtain ⟨r, -, hmem⟩ := h
  exact ⟨r, fun hnil => hmem (by rw [hnil]; rfl)⟩

include hD hch ha href in
/-- **The loop of rounds ends with the least model, or is stopped over it.** -/
theorem roundsFrom_ends {rank : String → Nat} (hJ : ¬a .outOfFuel →
      Bounded re rus (modelOf D R cs rws rus db₀) J rank tp) :
    ∀ (fuel : Nat) (rd : Round), Keeps D R cs rws rus db₀ rd →
      (¬a .outOfFuel → ∃ least, RankFrom rank rd.delta least ∧ need J tp rd.db least < fuel) →
      Ends a (fun result => match result.error with
          | none => visible cs rws result.db = modelOf D R cs rws rus db₀
          | some error => a (.error error))
        (roundsFrom D co rus fuel rd) := by
  intro fuel
  induction fuel with
  | zero =>
    intro rd _ hfuel
    refine Ends.halt ?_
    by_contra hnot
    obtain ⟨least, -, hbound⟩ := hfuel hnot
    omega
  | succ fuel ih =>
    intro rd hround hfuel
    unfold roundsFrom
    cases hemp : deltaEmpty rd.delta (deltaRelationNames rus) with
    | true =>
      rw [if_pos rfl]
      refine Ends.pure (hround.invariant.done (differential rus) fun fact hfact => ?_)
      exfalso
      obtain ⟨-, -, -, literal, -, -, hread, tuple, u, hu, -⟩ :=
        pinnedConsequences_reads ha.plain hfact
      have hnil : (rd.delta.tuples literal.relation).isEmpty = true :=
        all_eq_true.mp hemp _ hread
      rw [List.isEmpty_iff.mp hnil] at hu
      simp at hu
    | false =>
      rw [if_neg (by simp)]
      refine orKeep_ends ?_ fun error herr => herr
      refine Ends.bind (nextRound_ends hD hch ha href hround)
        fun next hnext => ih next hnext.1 fun hnot => ?_
      obtain ⟨least, hleast, hbound⟩ := hfuel hnot
      obtain ⟨least', hleast', hlt⟩ := need_lt (hJ hnot) hnext.1 hnext.2.1 hnext.2.2.1
        hleast (deltaEmpty_eq_false hemp)
      exact ⟨least', hleast', by omega⟩

include hD hch ha href in
/-- **The fixpoint of a stratum shows its least model, or is stopped over it.** -/
theorem fixpoint_ends {re : List String} {J : List (String × Tuple)}
    {rank : String → Nat} {tp : Nat} (hJ : ¬a .outOfFuel →
      Bounded re rus (modelOf D R cs rws rus db₀) J rank tp) {fuel : Nat}
    (hfuel : ¬a .outOfFuel → J.length * (tp + 3) + (tp + 2) < fuel) :
    Ends a (fun result => match result.error with
        | none => visible cs rws result.db = modelOf D R cs rws rus db₀
        | some error => a (.error error))
      (fixpointWithCandidates D co fuel db₀ rus cs) := by
  have hseed := Ends.and (seedFrom_ends hD hch ha href rus db₀
    fun rule hrule => hrule) (seedFrom_sameOutside D co db₀ (initialSources D db₀ rus cs)
      (ruleHeadRelations rus) rus db₀ fun rule hrule =>
        mem_ruleHeadRelations.mpr (mem_map.mpr ⟨rule, hrule, rfl⟩))
  refine Ends.bind hseed fun seeded hseeded => ?_
  obtain ⟨hres, hfrm⟩ := hseeded
  cases herr : seeded.error with
  | some error =>
    rw [herr] at hres
    refine Ends.pure ?_
    rw [herr]
    exact hres
  | none =>
    rw [herr] at hres
    refine roundsFrom_ends hD hch ha href hJ fuel _
      (firstRound_keeps hD ha hres hfrm) fun hnot => ?_
    refine ⟨0, fun _ _ => Nat.zero_le _, ?_⟩
    have hbound := hfuel hnot
    have hle : missing J (firstRound D db₀ rus cs seeded.db).db ≤ J.length :=
      List.length_filter_le _ _
    have hmul := Nat.mul_le_mul_right (tp + 3) hle
    unfold need
    omega

end

end Beagle.Query
