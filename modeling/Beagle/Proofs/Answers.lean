/-
Aggregating and ordering the found rows stays inside them.

Validation checks every position of a plan against the width of what it applies to:
group and aggregate positions against the found relation, having indexes against the
aggregates, order columns against the rows of the result.  So over rows of that
width no access is out of range, and all that can stop the answer is a sum past the
machine range.
-/
import Beagle.Proofs.Strata
import Beagle.Query.Results

namespace Beagle.Query

open Beagle.Lib Beagle.Store List

/-! ### Columns -/

/-- The position is one of a row of this width. -/
def Inside (width : Nat) (position : Int) : Prop := 0 ≤ position ∧ position < width

/-- Every row has this width. -/
def Wide (width : Nat) (rows : List Tuple) : Prop := ∀ row ∈ rows, row.length = width

theorem inside_of_positionInRange {po : Int} {a : Option Nat} {w : Nat}
    (har : a = some w) (h : positionInRange po a = true) :
    Inside w po := by
  unfold positionInRange at h
  rw [har] at h
  exact of_decide_eq_true (p := 0 ≤ po ∧ po < (w : Int)) h

theorem Wide.cons {w : Nat} {row : Tuple} {rows : List Tuple} (h : Wide w (row :: rows)) :
    row.length = w ∧ Wide w rows :=
  ⟨h row (by simp), fun o ho => h o (by simp [ho])⟩

section

variable {al : Stop → Prop} {w : Nat} {po : Int} {row : Tuple}

theorem column_ends (hrow : row.length = w) (h : Inside w po) :
    Ends al (fun _ => True) (column row po) := by
  obtain ⟨hlow, hh⟩ := h
  unfold column nth
  rw [if_neg (by omega)]
  have hlt : po.toNat < row.length := by omega
  rw [getElem?_eq_getElem hlt]
  exact Ends.done

theorem columns_ends (hrow : row.length = w) : ∀ {ps : List Int}, (∀ po ∈ ps, Inside w po) →
      Ends al (fun vs => vs.length = ps.length) (columns row ps) := by
  intro ps
  induction ps with
  | nil => exact fun _ => Ends.pure rfl
  | cons po r ih =>
    intro h
    refine Ends.bind (column_ends hrow (h po (by simp))) fun v _ => ?_
    refine Ends.bind (ih fun o ho => h o (by simp [ho])) fun vs hv => ?_
    exact Ends.pure (by rw [length_cons, length_cons, hv])

theorem anyColumn_ends (h : Inside w po) (t : Term → Bool) : ∀ {rs : List Tuple}, Wide w rs →
      Ends al (fun _ => True) (anyColumn po t rs) := by
  intro rs
  induction rs with
  | nil => exact fun _ => Ends.done
  | cons row r ih =>
    intro hro
    refine Ends.bind (column_ends hro.cons.1 h) fun v _ => ?_
    by_cases ht : t v = true
    · rw [if_pos ht]
      exact Ends.done
    · rw [if_neg ht]
      exact ih hro.cons.2

theorem foldColumn_ends {β : Type} (h : Inside w po) {s : β → Term → Eval β}
    (hs : ∀ acc v, Ends al (fun _ => True) (s acc v)) :
    ∀ {rs : List Tuple} (acc : β), Wide w rs →
      Ends al (fun _ => True) (foldColumn po s rs acc) := by
  intro rs
  induction rs with
  | nil => exact fun _ _ => Ends.done
  | cons row r ih =>
    intro acc hro
    refine Ends.bind (column_ends hro.cons.1 h) fun v _ => ?_
    exact Ends.bind (hs acc v) fun next _ => ih next hro.cons.2

/-! ### Aggregates -/

variable (D : Doubles) (hov : al .overflow) {rs : List Tuple}

include hov in
theorem sumValues_ends (h : Inside w po) (hro : Wide w rs) :
    Ends al (fun _ => True) (sumValues D rs po) := by
  have hi : Ends al (fun _ => True) (allIntegers D rs po) :=
    Ends.bind (anyColumn_ends h _ hro) fun _ _ => Ends.done
  refine Ends.bind hi fun ins _ => ?_
  cases ins with
  | true =>
    rw [if_pos rfl]
    refine Ends.bind (foldColumn_ends h (fun acc v => ?_) 0 hro) fun _ _ =>
      Ends.done
    unfold checkedInt
    split
    · exact Ends.done
    · exact Ends.halt hov
  | false =>
    rw [if_neg (by simp)]
    exact Ends.bind (foldColumn_ends h (fun _ _ => Ends.done) _ hro) fun _ _ =>
      Ends.done

/-- An operator other than `count` has a position to read. -/
def SpecInside (width : Nat) (spec : AggregateSpec) : Prop :=
  spec.operator ∈ aggregateArgumentOperators → Inside width (spec.argument.getD 0)

variable {s : AggregateSpec} {kw : Nat} {gs : AggregateGroups}

theorem specInside_of_errors {arity : Option Nat} (har : arity = some w)
    (h : aggregateSpecErrors s arity = []) : SpecInside w s := by
  intro hmem
  unfold aggregateSpecErrors at h
  rw [if_neg (by simp [aggregateOperators, hmem])] at h
  cases harg : s.argument with
  | none =>
    rw [if_pos ⟨contains_iff_mem.mpr hmem, harg⟩] at h
    simp at h
  | some argument =>
    rw [if_neg (by simp [harg]), harg] at h
    dsimp only [Option.getD_some] at h ⊢
    by_contra hnot
    rw [if_neg fun hin => hnot (inside_of_positionInRange har hin)] at h
    simp at h

include hov in
theorem aggregateValue_ends (hs : SpecInside w s)
    (hro : Wide w rs) : Ends al (fun _ => True) (aggregateValue D rs s) := by
  have hpos : ∀ o ∈ aggregateArgumentOperators, s.operator = o → Inside w (s.argument.getD 0) := by
    intro o hmem heq
    rw [← heq] at hmem
    exact hs hmem
  have he : ∀ m, Inside w (s.argument.getD 0) → Ends al (fun _ => True)
      (extremeValue D rs (s.argument.getD 0) m) :=
    fun m h => foldColumn_ends h (fun _ _ => Ends.done) none hro
  unfold aggregateValue
  dsimp only
  split
  · exact Ends.done
  split
  · rename_i hop
    have hk : Ends al (fun _ => True) (foldColumn (s.argument.getD 0)
        (fun ks v => pure (nameLike.conj ks (termKey D.str v))) rs []) :=
      foldColumn_ends (hpos ⟨"count-distinct"⟩ (by decide) hop) (fun _ _ => Ends.done) [] hro
    exact Ends.bind (Ends.bind hk fun _ _ => Ends.done) fun _ _ => Ends.done
  split
  · rename_i hop
    exact sumValues_ends D hov (hpos ⟨"sum"⟩ (by decide) hop) hro
  split
  · rename_i hop
    exact Ends.bind (sumValues_ends D hov (hpos ⟨"avg"⟩ (by decide) hop) hro)
      fun _ _ => Ends.done
  split
  · rename_i hop
    exact Ends.bind (he false (hpos ⟨"min"⟩ (by decide) hop)) fun _ _ => Ends.done
  split
  · rename_i hop
    exact Ends.bind (he true (hpos ⟨"max"⟩ (by decide) hop)) fun _ _ => Ends.done
  · exact Ends.done

include hov in
theorem aggregateValues_ends (hro : Wide w rs) :
    ∀ {ss : List AggregateSpec}, (∀ s ∈ ss, SpecInside w s) →
      Ends al (fun vs => vs.length = ss.length) (aggregateValues D rs ss) := by
  intro ss
  induction ss with
  | nil => exact fun _ => Ends.pure rfl
  | cons s r ih =>
    intro h
    refine Ends.bind (aggregateValue_ends D hov (h s (by simp)) hro) fun v _ => ?_
    refine Ends.bind (ih fun o ho => h o (by simp [ho])) fun vs hv => ?_
    exact Ends.pure (by rw [length_cons, length_cons, hv])

theorem numericColumnError_ends (hro : Wide w rs) :
    ∀ {ss : List AggregateSpec}, (∀ s ∈ ss, SpecInside w s) →
      Ends al (fun _ => True) (numericColumnError D rs ss) := by
  have hn : ∀ o ∈ numericAggregateOperators, o ∈ aggregateArgumentOperators := by
    decide
  intro ss
  induction ss with
  | nil => exact fun _ => Ends.done
  | cons s r ih =>
    intro h
    have hr := ih fun ot ho => h ot (by simp [ho])
    unfold numericColumnError
    by_cases hmem : numericAggregateOperators.contains s.operator = true
    · rw [if_pos hmem]
      have hins := h s (by simp) (hn _ (contains_iff_mem.mp hmem))
      refine Ends.bind (anyColumn_ends hins _ hro) fun bad _ => ?_
      cases bad with
      | true => exact Ends.done
      | false => exact hr
    · rw [if_neg hmem]
      exact hr

/-! ### Groups -/

/-- Every group has a key of one width and members of the other. -/
structure Grouped (keyWidth width : Nat) (groups : AggregateGroups) : Prop where
  keys : ∀ keyText group, nameLike.get groups.byKey keyText = some group →
    group.key.length = keyWidth ∧ Wide width group.members
  ordered : ∀ keyText ∈ groups.order, ∃ group, nameLike.get groups.byKey keyText = some group

theorem Grouped.set {bk : List (String × AggregateGroup)} {ord : List String}
    (h : Grouped kw w ⟨bk, ord⟩) (kt : String) (g : AggregateGroup)
    (hkey : g.key.length = kw) (hm : Wide w g.members)
    {o' : List String} (hor : ∀ n ∈ o', n ∈ ord ∨ n = kt) :
    Grouped kw w ⟨nameLike.set bk kt g, o'⟩ where
  keys n found hget := by
    dsimp only at hget
    rw [nameLike.get_set] at hget
    split at hget
    · cases hget
      exact ⟨hkey, hm⟩
    · exact h.keys n found hget
  ordered n hname := by
    dsimp only
    rw [nameLike.get_set]
    split
    · exact ⟨g, rfl⟩
    · rename_i hne
      rcases hor n hname with hold | heq
      · exact h.ordered n hold
      · exact absurd (by simp [nameLike, Likeness.ofEq, heq]) hne

theorem addToGroup_grouped (h : Grouped kw w gs) {key : Tuple}
    (hkey : key.length = kw) (hrow : row.length = w) :
    Grouped kw w (addToGroup D gs key row) := by
  unfold addToGroup
  dsimp only
  cases hget : nameLike.get gs.byKey (rowKey D.str key) with
  | some g =>
    obtain ⟨hg, hme⟩ := h.keys _ _ hget
    dsimp only
    refine h.set _ ⟨g.key, g.members ++ [row]⟩ hg (fun m hm => ?_) fun n hn => Or.inl hn
    rcases List.mem_append.mp hm with hold | hnew
    · exact hme m hold
    · rw [mem_singleton.mp hnew]
      exact hrow
  | none =>
    dsimp only
    refine h.set _ ⟨key, [row]⟩ hkey (fun m hm => ?_) fun n hn => ?_
    · rw [mem_singleton.mp hm]
      exact hrow
    · rcases List.mem_append.mp hn with hold | hnew
      · exact Or.inl hold
      · exact Or.inr (mem_singleton.mp hnew)

theorem groupRows_ends {g : List Int} (hg : ∀ po ∈ g, Inside w po) :
    ∀ {rs : List Tuple} {gs : AggregateGroups}, Wide w rs → Grouped g.length w gs →
      Ends al (Grouped g.length w) (groupRows D g rs gs) := by
  intro rs
  induction rs with
  | nil => exact fun _ h => Ends.pure h
  | cons row r ih =>
    intro gs hro h
    refine Ends.bind (columns_ends hro.cons.1 hg) fun key hkey => ?_
    exact ih hro.cons.2 (addToGroup_grouped D h hkey hro.cons.1)

variable {find : FindSpec}

include hov in
theorem aggregateRow_ends (hs : ∀ s ∈ find.aggregates, SpecInside w s)
    (h : Grouped find.grouping.length w gs) {kt : String}
    (hkey : kt ∈ gs.order) :
    Ends al (fun rs => Wide (find.grouping.length + find.aggregates.length) rs)
      (aggregateRow D find gs kt) := by
  obtain ⟨g, hget⟩ := h.ordered kt hkey
  obtain ⟨hw, hm⟩ := h.keys kt g hget
  unfold aggregateRow
  rw [hget]
  refine Ends.bind (aggregateValues_ends D hov hm hs) fun vs hv => ?_
  refine Ends.pure fun row hrow => ?_
  rw [mem_singleton.mp hrow]
  unfold appendAggregateValues
  rw [length_append, length_map, hv]
  exact congrArg (· + _) hw

/-- A clause names one of the aggregates. -/
theorem having_inside {clause : HavingClause} (h : havingErrors clause find = []) :
    Inside (find.grouping.length + find.aggregates.length)
      (find.grouping.length + clause.aggregateIndex) := by
  unfold havingErrors at h
  split at h
  · simp at h
  · split at h
    · simp at h
    · rename_i hin
      rw [not_not] at hin
      unfold Inside
      push_cast
      omega

theorem keepPassing_ends (hc : ∀ clause ∈ find.having,
      havingErrors clause find = [])
    (hrow : row.length = find.grouping.length + find.aggregates.length) :
    Ends al (fun rs => Wide (find.grouping.length + find.aggregates.length) rs)
      (keepPassing D find row) := by
  have hp : ∀ cs : List HavingClause, (∀ clause ∈ cs, havingErrors clause find = []) →
      Ends al (fun _ => True) (havingPasses D row find.grouping.length cs) := by
    intro cs
    induction cs with
    | nil => exact fun _ => Ends.done
    | cons clause r ih =>
      intro h
      refine Ends.bind (column_ends hrow (having_inside (h clause (by simp)))) fun v _ => ?_
      split
      · exact ih fun o ho => h o (by simp [ho])
      · exact Ends.done
  refine Ends.bind (hp _ hc) fun ps _ => Ends.pure fun o ho => ?_
  cases ps with
  | true =>
    rw [if_pos rfl] at ho
    rw [mem_singleton.mp ho]
    exact hrow
  | false => simp at ho

/-! ### Order -/

section

variable {ord : List OrderClause} (hor : ∀ clause ∈ ord, Inside w clause.column)
include hor

theorem orderedRowCompare_ends {l r : Tuple} (hl : l.length = w) (hr : r.length = w) :
    Ends al (fun _ => True) (orderedRowCompare D l r ord) := by
  induction ord with
  | nil => exact Ends.done
  | cons clause rs ih =>
    refine Ends.bind (column_ends hl (hor clause (by simp))) fun lv _ => ?_
    refine Ends.bind (column_ends hr (hor clause (by simp))) fun rv _ => ?_
    dsimp only
    by_cases he : (if clause.direction = ⟨"desc"⟩ then 0 - termCompare D lv rv
        else termCompare D lv rv) = 0
    · rw [if_pos he]
      exact ih fun o ho => hor o (by simp [ho])
    · rw [if_neg he]
      exact Ends.done

theorem mergeOrderedRowVectors_ends (l r : List Tuple) (hl : Wide w l) (hr : Wide w r) :
    Ends al (Wide w) (mergeOrderedRowVectors D ord l r) := by
  induction l, r using mergeOrderedRowVectors.induct with
  | case1 r =>
    unfold mergeOrderedRowVectors
    exact Ends.pure hr
  | case2 l hne =>
    cases l with
    | nil => exact absurd rfl hne
    | cons first t =>
      unfold mergeOrderedRowVectors
      exact Ends.pure hl
  | case3 l ls r rs ihleft ihright =>
    unfold mergeOrderedRowVectors
    refine Ends.bind (orderedRowCompare_ends D hor hl.cons.1 hr.cons.1) fun c _ => ?_
    split
    · refine Ends.bind (ihleft hl.cons.2 hr) fun md hm => Ends.pure ?_
      intro row hrow
      rcases mem_cons.mp hrow with rfl | hrow
      · exact hl.cons.1
      · exact hm row hrow
    · refine Ends.bind (ihright hl hr.cons.2) fun md hm => Ends.pure ?_
      intro row hrow
      rcases mem_cons.mp hrow with rfl | hrow
      · exact hr.cons.1
      · exact hm row hrow

theorem mergeSortOrderedRows_ends (rs : List Tuple) (hro : Wide w rs) :
    Ends al (Wide w) (mergeSortOrderedRows D ord rs) := by
  induction rs using mergeSortOrderedRows.induct with
  | case1 rs hle =>
    unfold mergeSortOrderedRows
    rw [if_pos hle]
    exact Ends.pure hro
  | case2 rs hlt m ihleft ihright =>
    unfold mergeSortOrderedRows
    rw [if_neg hlt]
    refine Ends.bind (ihleft fun row hrow => hro row (mem_of_mem_take hrow))
      fun l hl => ?_
    refine Ends.bind (ihright fun row hrow => hro row (mem_of_mem_drop hrow))
      fun r hr => ?_
    exact mergeOrderedRowVectors_ends D hor l r hl hr

end

theorem orderedPlanRows_ends {p : QueryPlan}
    (hor : ∀ clause ∈ p.order, Inside w clause.column)
    (hro : Wide w rs) : Ends al (fun _ => True) (orderedPlanRows D p rs) := by
  unfold orderedPlanRows
  cases p.order.isEmpty with
  | true => exact Ends.done
  | false =>
    rw [if_neg (by simp)]
    exact Ends.bind (mergeSortOrderedRows_ends D hor rs hro) fun _ _ => Ends.done

end

/-! ### What validation checks -/

section

variable {nv : String → Option Term → Bool} {mr : Int} {p : QueryPlan}
  (h : validatePlan nv mr p = [])
include h

theorem arity_of_accepted {r : Rule} (hr : r ∈ p.rules) :
    nameLike.get (headArities p.rules) r.headRelation = some r.headArguments.length := by
  simp only [validatePlan, append_eq_nil_iff] at h
  have har := h.1.1.1.1.1.2
  unfold arityErrors at har
  rw [map_eq_nil_iff, filter_eq_nil_iff] at har
  simpa using har r hr

theorem findErrors_of_accepted :
    findErrors p.find (derivedRelations p.rules) (headArities p.rules) = [] := by
  simp only [validatePlan, append_eq_nil_iff] at h
  exact h.1.2

theorem found_of_accepted : p.find.relation ∈ derivedRelations p.rules := by
  have hf := findErrors_of_accepted h
  unfold findErrors at hf
  rw [append_eq_nil_iff] at hf
  by_contra hnot
  have hfst := hf.1
  split at hfst
  · simp at hfst
  · rw [if_pos (by simpa using hnot)] at hfst
    simp at hfst

theorem aggregate_of_accepted (hagg : p.find.aggregate = true) {w : Nat}
    (hw : nameLike.get (headArities p.rules) p.find.relation = some w) :
    (∀ po ∈ p.find.grouping, Inside w po) ∧ (∀ s ∈ p.find.aggregates, SpecInside w s) ∧
      ∀ clause ∈ p.find.having, havingErrors clause p.find = [] := by
  have hfind := findErrors_of_accepted h
  unfold findErrors at hfind
  rw [append_eq_nil_iff, if_pos hagg] at hfind
  obtain ⟨-, hrest⟩ := hfind
  rw [append_eq_nil_iff, append_eq_nil_iff, map_eq_nil_iff,
    filter_eq_nil_iff, flatMap_eq_nil_iff, flatMap_eq_nil_iff] at hrest
  obtain ⟨⟨hgrouping, hspecs⟩, hhaving⟩ := hrest
  refine ⟨fun po hpos => ?_, fun s hspec => ?_, hhaving⟩
  · exact inside_of_positionInRange hw (by simpa using hgrouping po hpos)
  · exact specInside_of_errors hw (hspecs s hspec)

theorem order_of_accepted {w : Nat} (hw : resultArity p.find (headArities p.rules) = some w) :
    ∀ clause ∈ p.order, Inside w clause.column := by
  have herrs : orderErrors mr p (headArities p.rules) = [] := by
    simp only [validatePlan, append_eq_nil_iff] at h
    exact h.2
  unfold orderErrors at herrs
  rw [append_eq_nil_iff, hw] at herrs
  have hclauses : ∀ (clauses : List OrderClause) (seen : List Int),
      orderClauseErrors (some w) seen clauses = [] →
        ∀ clause ∈ clauses, Inside w clause.column := by
    intro clauses
    induction clauses with
    | nil => exact fun _ _ clause hcl => absurd hcl (by simp)
    | cons first rest ih =>
      intro seen hseen clause hcl
      unfold orderClauseErrors at hseen
      rw [append_eq_nil_iff] at hseen
      rcases mem_cons.mp hcl with rfl | hcl
      · have hfst := hseen.1
        split at hfst
        · simp at hfst
        · split at hfst
          · simp at hfst
          · rename_i hin
            unfold Inside
            rw [not_or, not_lt] at hin
            refine ⟨hin.1, ?_⟩
            by_contra hpast
            have hpast' : (w : Int) ≤ clause.column := not_lt.mp hpast
            exact hin.2 (congrArg some (decide_eq_true hpast'))
      · exact ih _ hseen.2 clause hcl
  exact hclauses _ _ herrs.1

variable (D : Doubles) {al : Stop → Prop} (hov : al .overflow) {db : Db}
  {w : Nat} (hw : nameLike.get (headArities p.rules) p.find.relation = some w)
  (hro : Wide w (db.tuples p.find.relation))
include hw hro

include hov in
theorem aggregateResult_ends (hagg : p.find.aggregate = true) :
    Ends al (fun _ => True) (aggregateResult D mr db p) := by
  obtain ⟨hg, hsp, hh⟩ := aggregate_of_accepted h hagg hw
  have hor : ∀ clause ∈ p.order,
      Inside (p.find.grouping.length + p.find.aggregates.length) clause.column :=
    order_of_accepted h (by unfold resultArity; rw [if_pos hagg])
  unfold aggregateResult
  dsimp only
  split
  · exact Ends.done
  refine Ends.bind (numericColumnError_ends D hro hsp) fun e _ => ?_
  cases e with
  | some e => exact Ends.done
  | none =>
    refine Ends.bind (groupRows_ends D hg hro ?_) fun gs hgr => ?_
    · exact ⟨fun _ _ hget => absurd hget (by simp), fun _ hmem => absurd hmem (by simp)⟩
    refine Ends.bind (Ends.collect (P := (· ∈ gs.order)) (fun kt hkey =>
      aggregateRow_ends D hov hsp hgr hkey) fun _ hkey => hkey)
      fun a ha => ?_
    refine Ends.bind (Ends.collect (fun row hrow => keepPassing_ends D hh hrow) ha)
      fun ss hs => ?_
    split
    · exact Ends.done
    · exact Ends.bind (orderedPlanRows_ends D hor hs) fun _ _ => Ends.done

theorem rowsResult_ends (hagg : p.find.aggregate = false) :
    Ends al (fun _ => True) (rowsResult D mr db p) := by
  have hor : ∀ clause ∈ p.order, Inside w clause.column :=
    order_of_accepted h (by unfold resultArity; rw [if_neg (by simp [hagg])]; exact hw)
  unfold rowsResult
  dsimp only
  split
  · exact Ends.done
  · exact Ends.bind (orderedPlanRows_ends D hor hro) fun _ _ => Ends.done

end

end Beagle.Query
