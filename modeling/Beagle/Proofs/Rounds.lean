/-
What the rules derive.

A rule evaluated over a database gives, up to alike values, the heads its body
satisfies; the pinned evaluation gives those that use a new tuple.  Both are read off
the evaluation of bodies.  The sources of a round present the database of the round,
which is what the loop keeps.
-/
import Beagle.Proofs.Bodies
import Beagle.Proofs.Strata
import Beagle.Query.RowKeys

namespace Beagle.Query

open Beagle.Lib Beagle.Store List

/-! ### Heads -/

section

variable {D : Doubles} {R : Reading} (hD : D.Lawful) (hR : R.Lawful) {al : Stop → Prop}
  {c : Option QueryControl} (hc : AllowsChecks c al)
  {a : String → Option Nat}

/-- The list holds what the relation `P` of tuples holds, up to likeness. -/
def Lists (P : Tuple → Prop) (tuples : List Tuple) : Prop := ∀ t, HasTuple tuples t ↔ P t

variable {P Q : Tuple → Prop} {xs ys : List Tuple}

theorem Lists.congr {tuples : List Tuple} (h : Lists P tuples) (hPQ : ∀ t, P t ↔ Q t) :
    Lists Q tuples :=
  fun t => (h t).trans (hPQ t)

theorem hasTuple_append {tp : Tuple} :
    HasTuple (xs ++ ys) tp ↔ HasTuple xs tp ∨ HasTuple ys tp := by
  simp [HasTuple, or_and_right, exists_or]

theorem Lists.append (hP : Lists P xs) (hQ : Lists Q ys) :
    Lists (fun t => P t ∨ Q t) (xs ++ ys) := by
  intro t
  rw [hasTuple_append, hP t, hQ t]

theorem Lists.into {ts : List Tuple} (h : Lists P ts) : Lists P (tupleLike.into [] ts) := by
  intro t
  rw [hasTuple_into, h t]
  constructor
  · rintro (⟨_, hmem, _⟩ | hP)
    · simp at hmem
    · exact hP
  · exact Or.inr

theorem lists_nil (h : ∀ t, ¬P t) : Lists P [] := by
  intro t
  constructor
  · rintro ⟨_, hmem, _⟩
    simp at hmem
  · intro hP
    exact absurd hP (h t)

theorem collect_lists {α : Type} {P : α → Tuple → Prop} {f : α → Eval (List Tuple)} {as : List α}
    (h : ∀ a ∈ as, Ends al (Lists (P a)) (f a)) :
    Ends al (Lists fun t => ∃ a ∈ as, P a t) (collect f as) := by
  induction as with
  | nil => exact Ends.pure (lists_nil (by simp))
  | cons a as ih =>
    refine Ends.bind (h a (by simp)) fun fd hf => ?_
    refine Ends.bind (ih fun b hb => h b (by simp [hb])) fun os hos => ?_
    refine Ends.pure ((hf.append hos).congr fun t => ?_)
    simp

/-- The head of a rule is ground under what satisfies its body. -/
theorem groundHeads_ends {h' : List QueryTerm} {ss : List Substitution}
    (hgr : ∀ σ ∈ ss, ∃ tp, groundValue σ h' = some tp) :
    Ends al (Lists fun t => ∃ σ ∈ ss, ∃ tp, groundValue σ h' = some tp ∧ AlikeTuple tp t)
      (groundHeads h' ss) := by
  refine collect_lists fun σ hσ => ?_
  obtain ⟨tp, htup⟩ := hgr σ hσ
  rw [ground_eq htup, pure_bind]
  refine Ends.pure fun t => ?_
  simp [HasTuple, htup]

include hD hR hc in
/-- A body and then the head: the tuples the rule derives from what its positions read. -/
theorem derive_ends (fs : Nat → Facts)
    (rd : Nat → Literal → Substitution → Eval (List Substitution)) {rule : Rule}
    (hsa : RuleSafe a rule)
    (hr : ∀ (k : Nat) (l : Literal), rule.body[k]? = some l →
      l.kind = .relation → ∀ (b : List String) (σ : Substitution),
        LiteralSafe a b l → Binds σ b → (∀ s, LiteralStops D R l σ s → al s) →
            Reads D R al (fs k) (rd k) l σ)
    (hsto : ∀ s, BodyStops D R fs 0 rule.body [] s → al s) :
    Ends al (Lists (DerivesAt D R fs rule))
      (bodyResultsFrom D c rd 0 rule.body [[]] >>= groundHeads rule.headArguments) := by
  have hemp : Binds [] [] := by
    intro n hn
    simp at hn
  have hbo := bodyResultsFrom_ends hD hR hc rule.body 0 [] [[]] hsa.body
    (fun k l hget hk b σ hlit hσ hstop => by
      rw [Nat.zero_add]
      exact hr k l hget hk b σ hlit hσ hstop)
    (by simpa using hemp) (by simpa using hsto)
  refine Ends.bind hbo fun ss hs => ?_
  have hst : ∀ σ ∈ ss, BodyStep D R fs 0 rule.body [] σ := by
    intro σ hσ
    obtain ⟨_, hmem, h⟩ := hs.1 σ hσ
    rw [mem_singleton] at hmem
    rw [← hmem]
    exact h
  refine Ends.mono (groundHeads_ends fun σ hσ => ?_) fun ts ht => ?_
  · have hb := (hst σ hσ).binds hemp
    rw [nil_append] at hb
    exact groundValue_of_bound hsa.head hb
  · refine ht.congr fun t => ?_
    constructor
    · rintro ⟨σ, hσ, h', hh, hal⟩
      exact ⟨σ, h', hst σ hσ, hh, hal⟩
    · rintro ⟨σ, h', hσ, hh, hal⟩
      obtain ⟨τ, hτ, hστ⟩ := hs.2 σ ⟨[], by simp, hσ⟩
      obtain ⟨head', hh', hal'⟩ := groundValue_alike hστ hh
      exact ⟨τ, hτ, head', hh', hal'.symm.trans hal⟩

end

/-! ### Sources of a database -/

variable {rs : List String} {sf : Float64 → String} {d : Db}

theorem find_build {db : Db} {s : CandidateSources} (relation : String) :
    (buildCandidateSources sf db rs s).find relation =
      match s.find relation with
      | some v => some v
      | none =>
        if relation ∈ rs then
          some (.candidate (candidateSourceAddRows relation emptyCandidateSource
            (orderRowVector sf (db.tuples relation))))
        else none := by
  unfold buildCandidateSources
  induction rs generalizing s with
  | nil =>
    rw [foldl_nil]
    cases s.find relation with
    | some v => rfl
    | none => exact (if_neg (by simp)).symm
  | cons name ns ih =>
    rw [foldl_cons, ih]
    unfold buildSource
    cases hn : s.find name with
    | some v =>
      rw [Option.isSome_some, if_pos rfl]
      cases hrel : s.find relation with
      | some o => rfl
      | none =>
        have hne : relation ≠ name := by
          rintro rfl
          rw [hrel] at hn
          simp at hn
        simp [hne]
    | none =>
      rw [Option.isSome_none, if_neg (by simp), CandidateSources.find_set]
      by_cases h : name = relation
      · subst h
        simp [hn]
      · rw [if_neg h]
        have hne : relation ≠ name := fun heq => h heq.symm
        cases s.find relation <;> simp [hne]

theorem find_addDelta (hnd : rs.Nodup) {ss : CandidateSources} (relation : String) :
    (addDeltaSources sf ss d rs).find relation =
      if relation ∈ rs ∧ (d.tuples relation).isEmpty = false then
        some (.candidate (candidateSourceAddRows relation (ss.base relation)
          (orderRowVector sf (d.tuples relation))))
      else ss.find relation := by
  unfold addDeltaSources
  induction rs generalizing ss with
  | nil => simp
  | cons name ns ih =>
    have hname : name ∉ ns := (nodup_cons.mp hnd).1
    rw [foldl_cons, ih (nodup_cons.mp hnd).2]
    have hfind : ∀ other, name ≠ other →
        (addDeltaSource sf d ss name).find other = ss.find other := by
      intro other hne
      unfold addDeltaSource
      split
      · rfl
      · rw [CandidateSources.find_set, if_neg hne]
    by_cases h : name = relation
    · subst h
      rw [if_neg fun hmem => hname hmem.1]
      unfold addDeltaSource
      cases hemp : (d.tuples name).isEmpty with
      | true => simp
      | false => simp [CandidateSources.find_set]
    · have hbase : (addDeltaSource sf d ss name).base relation = ss.base relation := by
        unfold CandidateSources.base
        rw [hfind relation h]
      rw [hbase, hfind relation h]
      have hne : relation ≠ name := fun heq => h heq.symm
      simp [hne]

/-- The sources answer for a database: a registered source stands, a relation that is read has
a source over its tuples, and nothing else has one. -/
structure Serves (names : List String) (candidates : CandidateSources) (db : Db)
    (sources : CandidateSources) : Prop where
  registered : ∀ relation value, candidates.find relation = some value →
    sources.find relation = some value
  built : ∀ relation ∈ names, candidates.find relation = none → ∃ source tuples,
    sources.find relation = some (.candidate source) ∧ Filed relation source tuples ∧
      ∀ t, HasTuple tuples t ↔ db.Has relation t
  unread : ∀ relation, relation ∉ names → sources.find relation = candidates.find relation

section

variable {D : Doubles} (hs : Function.Injective D.str) {ns : List String}
  {cs : CandidateSources}
include hs

theorem hasTuple_orderRowVector {ts : List Tuple} {tp : Tuple} :
    HasTuple (orderRowVector D.str ts) tp ↔ HasTuple ts tp := by
  unfold HasTuple
  simp only [mem_orderRowVector hs]

theorem serves_build (db : Db) : Serves ns cs db (buildCandidateSources D.str db ns cs) where
  registered relation v h := by rw [find_build, h]
  built relation hmem h := by
    rw [find_build, h]
    refine ⟨_, _, if_pos hmem, (filed_empty relation).addRows, fun t => ?_⟩
    rw [nil_append]
    exact hasTuple_orderRowVector hs
  unread relation hmem := by
    rw [find_build]
    cases cs.find relation with
    | some v => rfl
    | none => exact if_neg hmem

/-- New tuples of relations without a registered source go into the sources. -/
theorem Serves.addDelta (hnd : ns.Nodup) {db db' d : Db} {ss : CandidateSources}
    (h : Serves ns cs db ss)
    (hfr : ∀ relation v, cs.find relation = some v → d.tuples relation = [])
    (hdb : ∀ relation t, db'.Has relation t ↔ db.Has relation t ∨ d.Has relation t) :
    Serves ns cs db' (addDeltaSources D.str ss d ns) where
  registered relation v hfind := by
    rw [find_addDelta hnd, hfr relation v hfind, if_neg (by simp)]
    exact h.registered relation v hfind
  built relation hmem hfind := by
    obtain ⟨source, ts, hsrc, hf, ht⟩ := h.built relation hmem hfind
    rw [find_addDelta hnd]
    cases hemp : (d.tuples relation).isEmpty with
    | true =>
      have hnil : d.tuples relation = [] := List.isEmpty_iff.mp hemp
      refine ⟨source, ts, ?_, hf, fun t => ?_⟩
      · rw [if_neg (by simp)]
        exact hsrc
      · rw [ht t, hdb relation t]
        simp [Db.Has, HasTuple, hnil]
    | false =>
      have hb : ss.base relation = source := by
        unfold CandidateSources.base
        rw [hsrc]
      refine ⟨_, ts ++ orderRowVector D.str (d.tuples relation), if_pos ⟨hmem, rfl⟩, ?_,
        fun t => ?_⟩
      · rw [hb]
        exact hf.addRows
      · rw [hasTuple_append, ht t, hasTuple_orderRowVector hs, hdb relation t]
        rfl
  unread relation hmem := by
    rw [find_addDelta hnd, if_neg fun hbo => hmem hbo.1]
    exact h.unread relation hmem

end

/-! ### New tuples -/

theorem tuples_dbNewOnly (c db : Db) (rs : List String) (relation : String) :
    (dbNewOnly c db rs).tuples relation =
      if relation ∈ rs then newTuples c db relation else [] := by
  have hf : ∀ d : Db, Db.tuples (rs.foldl (putNew c db) d) relation =
      if relation ∈ rs ∧ (newTuples c db relation).isEmpty = false then
        newTuples c db relation
      else d.tuples relation := by
    induction rs with
    | nil => intro d; simp
    | cons name ns ih =>
      intro d
      rw [foldl_cons, ih]
      unfold putNew
      by_cases h : name = relation
      · subst h
        cases (newTuples c db name).isEmpty <;> simp [Db.tuples_set]
      · have hne : relation ≠ name := fun heq => h heq.symm
        cases (newTuples c db name).isEmpty <;> simp [hne, h, Db.tuples_set]
  unfold dbNewOnly
  rw [hf]
  have hnil : Db.tuples [] relation = [] := rfl
  by_cases hmem : relation ∈ rs
  · cases hemp : (newTuples c db relation).isEmpty with
    | true =>
      have : newTuples c db relation = [] := List.isEmpty_iff.mp hemp
      simp [hnil, this]
    | false => simp [hmem]
  · simp [hmem, hnil]

variable {relation : String} {tp : Tuple}

theorem hasTuple_newTuples {c db : Db} : HasTuple (newTuples c db relation) tp ↔
      ∃ t ∈ c.tuples relation, db.contains relation t = false ∧ AlikeTuple t tp := by
  unfold newTuples
  rw [hasTuple_into]
  constructor
  · rintro (⟨_, hmem, _⟩ | ⟨t, hmem, hal⟩)
    · simp at hmem
    · rw [mem_filter] at hmem
      exact ⟨t, hmem.1, by simpa using hmem.2, hal⟩
  · rintro ⟨t, hmem, hnew, hal⟩
    exact Or.inr ⟨t, mem_filter.mpr ⟨hmem, by simp [hnew]⟩, hal⟩

theorem has_dbNewOnly {c db : Db} (h : (dbNewOnly c db rs).Has relation tp) :
    relation ∈ rs ∧ c.Has relation tp := by
  unfold Db.Has at h
  rw [tuples_dbNewOnly] at h
  by_cases hmem : relation ∈ rs
  · rw [if_pos hmem, hasTuple_newTuples] at h
    obtain ⟨t, ht, -, hal⟩ := h
    exact ⟨hmem, t, ht, hal⟩
  · rw [if_neg hmem] at h
    obtain ⟨_, hnil, _⟩ := h
    simp at hnil

theorem has_dbNewOnly_of_new {c db : Db} (hmem : relation ∈ rs)
    (h : c.Has relation tp) (hnew : db.contains relation tp = false) :
    (dbNewOnly c db rs).Has relation tp := by
  obtain ⟨t, ht, hal⟩ := h
  unfold Db.Has
  rw [tuples_dbNewOnly, if_pos hmem, hasTuple_newTuples]
  refine ⟨t, ht, ?_, hal⟩
  rw [← hnew]
  exact mem_eq_of_hasTuple_iff (fun _ => Iff.rfl) hal

theorem has_or_has_dbNewOnly {c db : Db} (hmem : relation ∈ rs) (h : c.Has relation tp) :
    db.Has relation tp ∨ (dbNewOnly c db rs).Has relation tp := by
  obtain ⟨t, ht, hal⟩ := h
  cases hc : db.contains relation t with
  | true => exact Or.inl ((HasTuple.of_contains hc).congr hal)
  | false =>
    refine Or.inr (has_dbNewOnly_of_new hmem ⟨t, ht, hal⟩ ?_)
    rw [← hc]
    exact mem_eq_of_hasTuple_iff (fun _ => Iff.rfl) hal.symm

theorem has_dbMergeDelta : ∀ (rs : List String) (db : Db), (dbMergeDelta db d rs).Has relation tp ↔
      db.Has relation tp ∨ relation ∈ rs ∧ d.Has relation tp := by
  unfold dbMergeDelta
  intro rs
  induction rs with
  | nil => intro db; simp
  | cons n ns ih =>
    intro db
    rw [foldl_cons, ih]
    have hm : (mergeNew d db n).Has relation tp ↔
        db.Has relation tp ∨ n = relation ∧ d.Has relation tp := by
      unfold mergeNew
      cases hemp : (d.tuples n).isEmpty with
      | true =>
        have hnil : d.tuples n = [] := List.isEmpty_iff.mp hemp
        rw [if_pos rfl]
        constructor
        · exact Or.inl
        · rintro (h | ⟨rfl, _, hmem, _⟩)
          · exact h
          · rw [hnil] at hmem
            simp at hmem
      | false =>
        rw [if_neg (by simp), Db.has_add]
        constructor
        · rintro (h | ⟨rfl, h⟩)
          · exact Or.inl h
          · exact Or.inr ⟨rfl, h⟩
        · rintro (h | ⟨rfl, h⟩)
          · exact Or.inl h
          · exact Or.inr ⟨rfl, h⟩
    rw [hm, mem_cons]
    constructor
    · rintro ((h | ⟨rfl, h⟩) | ⟨hmem, h⟩)
      · exact Or.inl h
      · exact Or.inr ⟨Or.inl rfl, h⟩
      · exact Or.inr ⟨Or.inr hmem, h⟩
    · rintro (h | ⟨rfl | hmem, h⟩)
      · exact Or.inl (Or.inl h)
      · exact Or.inl (Or.inr ⟨rfl, h⟩)
      · exact Or.inr ⟨hmem, h⟩

/-! ### A stratum -/

/-- The registered sources belong to base relations and stand for the rows given for them. -/
structure Registry (arity : String → Option Nat) (candidates : CandidateSources)
    (rows : String → List Tuple) : Prop where
  base : ∀ relation value, candidates.find relation = some value → relation ∈ baseRelations
  candidate : ∀ relation source n, candidates.find relation = some (.candidate source) →
    arity relation = some n → Presents relation n source (rows relation)
  virtual : ∀ relation name source, candidates.find relation = some (.virtual name source) →
    name = relation ∧ relation ∈ textRelations
  text_congr : ∀ relation source, candidates.find relation = some (.virtual relation source) →
    ∀ needle needle', AlikeValue needle needle' →
      source.rows relation true needle = source.rows relation true needle'
  text_values : ∃ corpus : List Term, ∀ relation source needle found,
    candidates.find relation = some (.virtual relation source) →
      source.rows relation true needle = .ok found → ∃ s, needle = some (.atom (.string s)) ∧
        ∀ row ∈ found, ∀ v ∈ row, v ∈ corpus ∨ v = .atom (.string s) ∨ ∀ s', v ≠ .atom (.string s')

/-- The rules of a stratum can be evaluated, and none of them negates what one of them derives. -/
structure Stratum (arity : String → Option Nat) (candidates : CandidateSources)
    (rules : List Rule) : Prop where
  textArity : TextArity arity
  safe : ∀ rule ∈ rules, RuleSafe arity rule
  heads : ∀ rule ∈ rules, rule.headRelation ∉ baseRelations
  text : ∀ rule ∈ rules, ∀ literal ∈ rule.body, literal.kind = .relation →
    literal.relation ∈ textRelations →
      ∃ source, candidates.find literal.relation = some (.virtual literal.relation source) ∧
        ∀ needle, source.rows literal.relation false needle = source.rows literal.relation true needle
  negated : ∀ rule ∈ rules, ∀ literal ∈ rule.body, literal.kind = .relation →
    literal.negated = true → literal.arguments ≠ [] ∧ literal.relation ∉ ruleHeadRelations rules

theorem reading_lawful {a : String → Option Nat} {cs : CandidateSources}
    {rws : String → List Tuple} (h : Registry a cs rws) (db : Db) :
    (reading cs rws db).Lawful where
  text_congr relation needle needle' hal := by
    unfold reading
    dsimp only
    cases hf : cs.find relation with
    | none => rfl
    | some v =>
      cases v with
      | candidate s => rfl
      | virtual n s =>
        obtain ⟨rfl, -⟩ := h.virtual relation n s hf
        exact h.text_congr _ s hf needle needle' hal
  absent_congr relation tp tuple' hal := by
    unfold reading
    dsimp only
    rw [mem_eq_of_hasTuple_iff (fun t => Iff.rfl) hal]

section

variable {a : String → Option Nat} {cs : CandidateSources} {rws : String → List Tuple}
  {ns : List String} {db : Db} {ss : CandidateSources} {relation : String}

theorem mem_visible {tp : Tuple} : (relation, tp) ∈ visible cs rws db ↔
      HasTuple (shown cs rws db relation) tp := Iff.rfl

theorem shown_of_find (h : cs.find relation = none) :
    shown cs rws db relation = db.tuples relation := by
  unfold shown
  rw [h]

theorem shown_of_some {v : CandidateSourceValue} (h : cs.find relation = some v) :
    shown cs rws db relation = rws relation := by
  unfold shown
  rw [h]

theorem Serves.sourcesFor {R : Reading} (hr : Registry a cs rws)
    (h : Serves ns cs db ss) (ht : relation ∈ textRelations →
      ∃ s, cs.find relation = some (.virtual relation s) ∧
        ∀ nd, R.text relation nd = s.rows relation true nd) :
    SourcesFor R a (visible cs rws db) db ss relation where
  text hmem := by
    obtain ⟨s, hf, hro⟩ := ht hmem
    exact ⟨s, h.registered _ _ hf, hro⟩
  plain hpl n hn := by
    cases hf : cs.find relation with
    | some v =>
      cases v with
      | virtual nm s =>
        exact absurd (hr.virtual _ _ _ hf).2 hpl
      | candidate s =>
        refine ⟨rws relation, fun t => ?_, Or.inl ⟨s, h.registered _ _ hf,
          hr.candidate _ _ _ hf hn⟩⟩
        rw [mem_visible, shown_of_some hf]
    | none =>
      by_cases hmem : relation ∈ ns
      · obtain ⟨s, ts, hsrc, hfi, htu⟩ := h.built relation hmem hf
        refine ⟨ts, fun t => ?_, Or.inl ⟨s, hsrc, hfi.presents (fun _ => Iff.rfl) n⟩⟩
        rw [mem_visible, shown_of_find hf]
        exact htu t
      · refine ⟨db.tuples relation, fun t => ?_, Or.inr ⟨?_, rfl⟩⟩
        · rw [mem_visible, shown_of_find hf]
        · rw [h.unread relation hmem, hf]

end

/-- The sources of every database that a stratum passes through answer its relation literals,
the way `R` and the facts of that database say. -/
structure Answered (D : Doubles) (R : Reading) (arity : String → Option Nat)
    (candidates : CandidateSources) (rows : String → List Tuple) (rules : List Rule) (db₀ : Db) :
    Prop where
  lawful : R.Lawful
  textArity : TextArity arity
  safe : ∀ rule ∈ rules, RuleSafe arity rule
  unregistered : ∀ relation ∈ ruleHeadRelations rules, candidates.find relation = none
  plain : ∀ relation ∈ ruleHeadRelations rules, relation ∉ textRelations
  reads : ∀ {allowed : Stop → Prop} {control : Option QueryControl} {db : Db}
    {sources : CandidateSources}, AllowsChecks control allowed →
      SameOutside (ruleHeadRelations rules) db₀ db →
      Serves (positiveRelationNames rules) candidates db sources →
      ∀ rule ∈ rules, ∀ literal ∈ rule.body, literal.kind = .relation →
      ∀ (bound : List String) (σ : Substitution), LiteralSafe arity bound literal → Binds σ bound →
      (∀ stop, LiteralStops D R literal σ stop → allowed stop) →
        Reads D R allowed (visible candidates rows db) (relationResultsIndexed control db sources)
          literal σ

theorem heads_unregistered {a : String → Option Nat} {cs : CandidateSources}
    {rws : String → List Tuple} {rus : List Rule} (hre : Registry a cs rws)
    (hh : ∀ rule ∈ rus, rule.headRelation ∉ baseRelations) :
    ∀ relation ∈ ruleHeadRelations rus, cs.find relation = none ∧ relation ∉ textRelations := by
  intro relation h
  rw [mem_ruleHeadRelations] at h
  obtain ⟨rule, hr, rfl⟩ := mem_map.mp h
  refine ⟨?_, fun ht => hh rule hr (by simp [baseRelations, ht])⟩
  cases hf : cs.find rule.headRelation with
  | none => rfl
  | some v => exact absurd (hre.base _ _ hf) (hh rule hr)

theorem length_of_safe {a : String → Option Nat} {b : List String} {l : Literal}
    (hk : l.kind = .relation) (hs : LiteralSafe a b l) :
    a l.relation = some l.arguments.length := by
  unfold LiteralSafe at hs
  rw [hk] at hs
  exact hs.1

/-- Every literal of a stratum's rules reads what the relations show. -/
theorem answered_of_registry {D : Doubles} {a : String → Option Nat}
    {cs : CandidateSources} {rws : String → List Tuple} {rus : List Rule}
    (hr : Registry a cs rws) (hs : Stratum a cs rus)
    (db₀ : Db) : Answered D (reading cs rws db₀) a cs rws rus db₀ where
  lawful := reading_lawful hr db₀
  textArity := hs.textArity
  safe := hs.safe
  unregistered relation h := (heads_unregistered hr hs.heads relation h).1
  plain relation h := (heads_unregistered hr hs.heads relation h).2
  reads {_ _ db _} hc hfr hse rule hrule literal hlit hkind bound σ hsafe hbind
      hstops := by
    refine relationResultsIndexed_reads hc hs.textArity hkind
      (length_of_safe hkind hsafe) (hse.sourcesFor hr fun ht => ?_) hsafe hbind
      (fun hneg => ?_) hstops
    · obtain ⟨s, hf, -⟩ := hs.text rule hrule literal hlit hkind ht
      refine ⟨s, hf, fun nd => ?_⟩
      unfold reading
      dsimp only
      rw [hf]
    · obtain ⟨hne, hlo⟩ := hs.negated rule hrule literal hlit hkind hneg
      have hsh : shown cs rws db literal.relation = shown cs rws db₀ literal.relation := by
        unfold shown
        rw [hfr _ hlo]
      refine ⟨hne, shown cs rws db literal.relation, fun t => mem_visible.symm,
        fun t _ => ?_⟩
      rw [hsh]
      rfl

section

variable {D : Doubles} (hD : D.Lawful) {R : Reading} {al : Stop → Prop} {c : Option QueryControl}
  (hc : AllowsChecks c al) {a : String → Option Nat} {cs : CandidateSources}
  {rws : String → List Tuple} {rus : List Rule} {db₀ db : Db} {ss : CandidateSources}
  (ha : Answered D R a cs rws rus db₀) (hfr : SameOutside (ruleHeadRelations rus) db₀ db)
  (hse : Serves (positiveRelationNames rus) cs db ss) {rule : Rule}

include hD ha hfr hse hc in
theorem deriveRuleIndexed_ends (hr : rule ∈ rus) (hs : ∀ s, BodyStops D R
      (fun _ => visible cs rws db) 0 rule.body [] s → al s) :
    Ends al (Lists (Derives D R (visible cs rws db) rule)) (deriveRuleIndexed D c db ss rule) := by
  have hd := derive_ends hD ha.lawful hc
    (fun _ => visible cs rws db) (fun _ => relationResultsIndexed c db ss)
    (ha.safe rule hr) (fun k l hget hk b σ hsa hb hst =>
      ha.reads hc hfr hse rule hr l (mem_of_getElem? hget) hk b σ hsa hb hst) hs
  have heq : deriveRuleIndexed D c db ss rule =
      ((bodyResultsFrom D c (fun _ => relationResultsIndexed c db ss) 0 rule.body
        [[]] >>= groundHeads rule.headArguments) >>= fun ts =>
          pure (tupleLike.into [] ts)) := by
    rw [bind_assoc]
    rfl
  rw [heq]
  exact Ends.bind hd fun ts ht => Ends.pure ht.into

/-- The facts of the new tuples. -/
def fresh (delta : Db) : Facts := {fact | delta.Has fact.1 fact.2}

/-- Each position of a pinned body reads the facts, the pinned one the new ones. -/
def pinned (I Δ : Facts) (pin position : Nat) : Facts := if position = pin then Δ else I

/-- What the rules derive with a literal pinned to the new facts. -/
def pinnedConsequences (D : Doubles) (R : Reading) (rules : List Rule) (I Δ : Facts) : Facts :=
  {fact | ∃ rule ∈ rules, rule.headRelation = fact.1 ∧
    ∃ pin ∈ deltaRelationPositions rule.body (deltaRelationNames rules),
      DerivesAt D R (pinned I Δ pin) rule fact.2}

theorem mem_deltaRelationPositions {b : List Literal} {ns : List String} {pin : Nat} :
    pin ∈ deltaRelationPositions b ns ↔ ∃ l, b[pin]? = some l ∧ l.positive = true ∧
        l.relation ∈ ns := by
  unfold deltaRelationPositions
  simp only [mem_map, mem_filter, Prod.exists, Bool.and_eq_true,
    contains_iff_mem, mem_zipIdx_iff_getElem?]
  constructor
  · rintro ⟨l, p, ⟨hget, hpos, hmem⟩, rfl⟩
    exact ⟨l, hget, hpos, hmem⟩
  · rintro ⟨l, hget, hpos, hmem⟩
    exact ⟨l, pin, ⟨hget, hpos, hmem⟩, rfl⟩

theorem mem_deltaRelationNames {relation : String} : relation ∈ deltaRelationNames rus ↔
      relation ∈ positiveRelationNames rus ∧ relation ∈ ruleHeadRelations rus := by
  unfold deltaRelationNames
  simp [mem_filter]

theorem positive_iff {l : Literal} :
    l.positive = true ↔ l.kind = .relation ∧ l.negated = false := by
  unfold Literal.positive
  simp

include hD ha hfr hse hc in
/-- The pinned evaluation of a rule finds what it derives with a literal pinned. -/
theorem deriveRuleDelta_ends {d : Db} (hrule : rule ∈ rus)
    (hdelta : fresh d ⊆ visible cs rws db) (hstops : ∀ stop, BodyStops D R
      (fun _ => visible cs rws db) 0 rule.body [] stop → al stop) :
    Ends al (Lists fun t => ∃ pin ∈ deltaRelationPositions rule.body (deltaRelationNames rus),
        DerivesAt D R (pinned (visible cs rws db) (fresh d) pin) rule t)
      (deriveRuleDelta D c db ss d
        (buildCandidateSources D.str d (deltaRelationNames rus) []) (deltaRelationNames rus)
        rule) := by
  refine Ends.bind (collect_lists fun pin hpin => ?_) fun tuples htups => Ends.pure htups.into
  obtain ⟨target, hget, hpos, hname⟩ := mem_deltaRelationPositions.mp hpin
  have hle : ∀ position, pinned (visible cs rws db) (fresh d) pin position ⊆ visible cs rws db := by
    intro position
    unfold pinned
    split
    · exact hdelta
    · exact Set.Subset.rfl
  refine derive_ends hD ha.lawful hc _ _ (ha.safe rule hrule) ?_
    fun stop h => hstops stop (h.mono hle)
  intro k literal hlit hkind bound σ hsafe hbind hstop
  by_cases hk : k = pin
  · -- the pinned literal reads the sources of the new tuples
    subst hk
    rw [hget] at hlit
    cases hlit
    have hpinned : pinned (visible cs rws db) (fresh d) k k = visible [] rws d := by
      unfold pinned
      rw [if_pos rfl]
      rfl
    have hpl : target.relation ∉ textRelations :=
      ha.plain _ (mem_deltaRelationNames.mp hname).2
    have hsrcs : SourcesFor R a (visible [] rws d) d
        (buildCandidateSources D.str d (deltaRelationNames rus) []) target.relation := by
      obtain ⟨source, tuples, hsrc, hfiled, htups⟩ :=
        (@serves_build D hD.str_injective _ [] d).built target.relation hname rfl
      refine ⟨fun htext => absurd htext hpl, fun _ n _ => ⟨tuples, fun t => ?_,
        Or.inl ⟨source, hsrc, hfiled.presents (fun _ => Iff.rfl) n⟩⟩⟩
      rw [mem_visible]
      exact htups t
    rw [hpinned]
    unfold Reads
    dsimp only
    rw [if_pos ⟨rfl, hpos⟩]
    refine relationResultsIndexed_reads hc ha.textArity hkind
      (length_of_safe hkind hsafe) hsrcs hsafe hbind (fun hneg => ?_) hstop
    rw [(positive_iff.mp hpos).2] at hneg
    simp at hneg
  · have hpinned : pinned (visible cs rws db) (fresh d) pin k = visible cs rws db := by
      unfold pinned
      rw [if_neg hk]
    rw [hpinned]
    unfold Reads
    dsimp only
    rw [if_neg fun h => hk h.1]
    exact ha.reads hc hfr hse rule hrule literal
      (mem_of_getElem? hlit) hkind bound σ hsafe hbind hstop

end

end Beagle.Query
