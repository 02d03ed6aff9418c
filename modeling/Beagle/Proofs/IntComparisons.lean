/-
Ints are compared as the doubles nearest to them.

A comparison literal, a having clause and an extreme value convert their numbers to doubles first.
Rounding keeps the order of Ints but not their difference, so two Ints are compared as they are
ordered exactly when they are equal or have different doubles, and an extreme value is found in
every order of the rows exactly when no other Int of the column has its double.
-/
import Beagle.Proofs.OrderedResults

namespace Beagle.Query

open Beagle.Lib Beagle.Store List

/-! ### The order of doubles -/

/-- `<=`, of doubles. -/
def doubleLe (a b : Float64) : Bool :=
  !a.isNan && !b.isNan && decide (Binary64.place a.bits ≤ Binary64.place b.bits)

/-- The host compares doubles, and converts Ints to them, as the 64-bit binary format has it. -/
structure Doubles.Compares (D : Doubles) : Prop where
  lt : D.lt = doubleLt
  le : D.le = doubleLe
  ofLong : D.ofLong = doubleOfLong

def orderOperators : List Keyword := [ltOperator, leOperator, gtOperator, geOperator]

/-- The order of an operator, of integers. -/
def integersOrdered (operator : Keyword) (left right : Int64) : Bool :=
  if operator = ltOperator then decide (left.toInt < right.toInt)
  else if operator = leOperator then decide (left.toInt ≤ right.toInt)
  else if operator = gtOperator then decide (right.toInt < left.toInt)
  else if operator = geOperator then decide (right.toInt ≤ left.toInt)
  else false

/-- Two Ints are the same or have different doubles. -/
def ToldApart (left right : Int64) : Prop := longPlace left = longPlace right → left = right

/-- The order of an operator, of places. -/
def placesOrdered (operator : Keyword) (left right : Int) : Bool :=
  if operator = ltOperator then decide (left < right)
  else if operator = leOperator then decide (left ≤ right)
  else if operator = gtOperator then decide (right < left)
  else if operator = geOperator then decide (right ≤ left)
  else false

variable {l r : Int64}

/-- Ints that are told apart are ordered as their places. -/
theorem ToldApart.place_le (h : ToldApart l r) : longPlace l ≤ longPlace r ↔ l.toInt ≤ r.toInt := by
  refine ⟨fun hle => ?_, longPlace_mono⟩
  by_contra hlt
  have hge := longPlace_mono (a := r) (b := l) (by omega)
  rw [h (by omega)] at hlt
  exact hlt le_rfl

theorem ToldApart.symm (h : ToldApart l r) : ToldApart r l :=
  fun heq => (h heq.symm).symm

theorem ToldApart.place_lt (h : ToldApart l r) : longPlace l < longPlace r ↔ l.toInt < r.toInt := by
  rw [← not_le, ← not_le, h.symm.place_le]

/-- **Every operator orders the places of two Ints as the Ints just where they are told apart.** -/
theorem placesOrdered_iff : (∀ op ∈ orderOperators, placesOrdered op (longPlace l) (longPlace r) =
        integersOrdered op l r) ↔ ToldApart l r := by
  constructor
  · intro h heq
    have hlt := h ltOperator (by simp [orderOperators])
    have hgt := h gtOperator (by simp [orderOperators])
    simp only [placesOrdered, integersOrdered, if_true, heq, lt_irrefl, decide_false] at hlt
    rw [placesOrdered, integersOrdered, if_neg (by decide), if_neg (by decide), if_pos rfl,
      if_neg (by decide), if_neg (by decide), if_pos rfl, heq] at hgt
    simp only [lt_irrefl, decide_false] at hgt
    have hle := of_decide_eq_false hlt.symm
    have hge := of_decide_eq_false hgt.symm
    exact int64_toInt_injective (by omega)
  · intro h op _
    unfold placesOrdered integersOrdered
    simp only [h.place_le, h.symm.place_le, h.place_lt, h.symm.place_lt]

section

variable {D : Doubles} (hD : D.Compares)
include hD

theorem Doubles.Compares.lt_long (l r : Int64) :
    D.lt (D.ofLong l) (D.ofLong r) = decide (longPlace l < longPlace r) := by
  obtain ⟨hl, hln⟩ := doubleOfLong_bits l
  obtain ⟨hr, hrn⟩ := doubleOfLong_bits r
  rw [hD.lt, hD.ofLong, Bool.eq_iff_iff, decide_eq_true_iff]
  simp [doubleLt, hln, hrn, hl, hr, longPlace]

theorem Doubles.Compares.le_long (l r : Int64) :
    D.le (D.ofLong l) (D.ofLong r) = decide (longPlace l ≤ longPlace r) := by
  obtain ⟨hl, hln⟩ := doubleOfLong_bits l
  obtain ⟨hr, hrn⟩ := doubleOfLong_bits r
  rw [hD.le, hD.ofLong, Bool.eq_iff_iff, decide_eq_true_iff]
  simp [doubleLe, hln, hrn, hl, hr, longPlace]

/-! ### Comparison literals and having clauses -/

variable {op : Keyword}

theorem comparisonValue_long (hop : op ∈ orderOperators) (l r : Int64) :
    comparisonValue D op (.atom (.int l)) (.atom (.int r)) =
      placesOrdered op (longPlace l) (longPlace r) := by
  have ho : ∀ o ∈ orderOperators, o ≠ eqOperator ∧ o ≠ neOperator := by decide
  obtain ⟨heq, hne⟩ := ho op hop
  unfold comparisonValue placesOrdered
  rw [if_neg heq, if_neg hne]
  simp only [numericValue, hD.lt_long, hD.le_long]

theorem comparisonNumber_long (hop : op ∈ orderOperators) (l r : Int64) :
    comparisonNumber D op (.int l) (.int r) = placesOrdered op (longPlace l) (longPlace r) := by
  have ho : ∀ o ∈ orderOperators, o ≠ eqOperator ∧ o ≠ neOperator := by decide
  obtain ⟨heq, hne⟩ := ho op hop
  unfold comparisonNumber placesOrdered
  dsimp only
  rw [if_neg heq, if_neg hne]
  simp only [numericFloat, hD.lt_long, hD.le_long]

end

/-- The literal holds exactly when the integers of its arguments are so ordered. -/
def LiteralsOrder (D : Doubles) (left right : Int64) : Prop :=
  ∀ (literal : Literal) (subst : Substitution) (first second : QueryTerm) (rest : List QueryTerm),
    literal.operator ∈ orderOperators → literal.arguments = first :: second :: rest →
    termValue first subst = some (.atom (.int left)) →
    termValue second subst = some (.atom (.int right)) →
      comparisonResult D literal subst = pure (integersOrdered literal.operator left right)

/-- A having clause lets a row with the one Int pass exactly when the integers are so ordered. -/
def HavingOrders (D : Doubles) (left right : Int64) : Prop :=
  ∀ (row : Tuple) (groupingCount : Nat) (clause : HavingClause) (rest : List HavingClause),
    clause.operator ∈ orderOperators →
    column row (groupingCount + clause.aggregateIndex) = pure (.atom (.int left)) →
    clause.value = .atom (.int right) → havingPasses D row groupingCount (clause :: rest) =
        if integersOrdered clause.operator left right then havingPasses D row groupingCount rest
        else pure false

theorem literalsOrder_iff {D : Doubles} (hD : D.Compares) :
    LiteralsOrder D l r ↔ ToldApart l r := by
  rw [← placesOrdered_iff]
  constructor
  · intro h op hop
    have hres := h (comparisonLiteral op
      [.constant (.atom (.int l)), .constant (.atom (.int r))]) [] _ _ [] hop rfl rfl rfl
    have hval : comparisonValue D op (.atom (.int l)) (.atom (.int r)) = integersOrdered op l r :=
      congrArg Prod.fst (Except.ok.inj (congrFun hres 0))
    rwa [comparisonValue_long hD hop] at hval
  · intro h literal subst first second rest hop hargs hfst hsnd
    unfold comparisonResult nth
    rw [hargs]
    simp only [List.getElem?_cons_zero, List.getElem?_cons_succ, pure_bind, hfst, hsnd]
    rw [← h literal.operator hop, ← comparisonValue_long hD hop]

theorem havingOrders_iff {D : Doubles} (hD : D.Compares) : HavingOrders D l r ↔ ToldApart l r := by
  have hstep : ∀ (row : Tuple) (groupingCount : Nat) (clause : HavingClause)
      (rest : List HavingClause), clause.operator ∈ orderOperators →
      column row (groupingCount + clause.aggregateIndex) = pure (.atom (.int l)) →
      clause.value = .atom (.int r) → havingPasses D row groupingCount (clause :: rest) =
          if placesOrdered clause.operator (longPlace l) (longPlace r) then
            havingPasses D row groupingCount rest
          else pure false := by
    intro row groupingCount clause rest hop hcol hval
    rw [havingPasses, hcol, pure_bind, hval, ← comparisonNumber_long hD hop]
    rfl
  rw [← placesOrdered_iff]
  constructor
  · intro h op hop
    have hpass := h [.atom (.int l)] 0 ⟨op, 0, .atom (.int r)⟩ [] hop rfl rfl
    rw [hstep _ _ _ _ hop rfl rfl] at hpass
    cases hplaces : placesOrdered op (longPlace l) (longPlace r) <;>
      cases hints : integersOrdered op l r <;> rw [hplaces, hints] at hpass
    · exact absurd (congrArg Prod.fst (Except.ok.inj (congrFun hpass 0))) Bool.false_ne_true
    · exact absurd (congrArg Prod.fst (Except.ok.inj (congrFun hpass 0))).symm Bool.false_ne_true
  · intro h row groupingCount clause rest hop hcol hval
    rw [hstep row groupingCount clause rest hop hcol hval, h clause.operator hop]

/-! ### Extreme values -/

/-- The Int that a fold over a column keeps: the one before, unless the next is past it. -/
def betterInt (maximum : Bool) (present candidate : Int64) : Int64 :=
  if (if maximum then longPlace present < longPlace candidate
    else longPlace candidate < longPlace present) then candidate
  else present

/-- The column of the rows at the position holds these Ints. -/
def IntColumn (position : Int) : List Tuple → List Int64 → Prop :=
  Forall₂ fun row value => column row position = pure (.atom (.int value))

/-- The Int is the least of them, or the greatest. -/
def Extreme (maximum : Bool) (values : List Int64) (best : Int64) : Prop :=
  best ∈ values ∧ ∀ value ∈ values,
    if maximum then value.toInt ≤ best.toInt else best.toInt ≤ value.toInt

variable {m : Bool} {vs : List Int64} {p : Int} {be value : Int64}

theorem extremeValue_column {D : Doubles} (hD : D.Compares) {row : Tuple} {rows : List Tuple}
    (h : IntColumn p (row :: rows) (value :: vs)) :
    extremeValue D (row :: rows) p m = pure (some (.int (vs.foldl (betterInt m) value))) := by
  have hbetter : ∀ a b : Int64, better D m (.int a) (.int b) = .int (betterInt m a b) := by
    intro a b
    unfold better betterInt
    simp only [numericFloat, hD.lt_long]
    cases m <;> simp only [Bool.false_eq_true, if_true, if_false, decide_eq_true_iff] <;>
      split <;> rfl
  obtain ⟨hval, hrest⟩ := forall₂_cons.mp h
  unfold extremeValue
  rw [foldColumn, hval, pure_bind, pure_bind]
  change foldColumn p _ rows (some (NumericAtom.int value)) = _
  clear h hval
  induction hrest generalizing value with
  | nil => rfl
  | cons hval _ ih =>
    rw [foldColumn, hval, pure_bind, pure_bind, foldl_cons, ← ih, ← hbetter]
    rfl

/-- What a fold over a column makes least. -/
def foldRank (maximum : Bool) (value : Int64) : Int :=
  if maximum then -longPlace value else longPlace value

theorem betterInt_eq (m : Bool) (present c : Int64) : betterInt m present c =
      if foldRank m c < foldRank m present then c else present := by
  cases m with
  | true => simp [betterInt, foldRank]
  | false => simp [betterInt, foldRank]

/-- The fold keeps one of the Ints, and none of them is past it. -/
theorem foldl_betterInt (m : Bool) (vs : List Int64) (v : Int64) :
    vs.foldl (betterInt m) v ∈ v :: vs ∧ ∀ other ∈ v :: vs,
      foldRank m (vs.foldl (betterInt m) v) ≤ foldRank m other := by
  induction vs generalizing v with
  | nil => simp
  | cons next r ih =>
    rw [foldl_cons]
    obtain ⟨hmem, hl⟩ := ih (betterInt m v next)
    have hs : betterInt m v next ∈ [v, next] ∧ foldRank m (betterInt m v next) ≤ foldRank m v ∧
        foldRank m (betterInt m v next) ≤ foldRank m next := by
      rw [betterInt_eq]
      split
      · rename_i hlt
        exact ⟨by simp, hlt.le, le_rfl⟩
      · rename_i hnot
        exact ⟨by simp, le_rfl, not_lt.mp hnot⟩
    have hfst := hl _ mem_cons_self
    refine ⟨?_, ?_⟩
    · rcases mem_cons.mp hmem with heq | hrest
      · rw [heq]
        rcases mem_pair.mp hs.1 with h | h <;> simp [h]
      · simp [hrest]
    · intro other ho
      rcases mem_cons.mp ho with rfl | ho
      · exact hfst.trans hs.2.1
      rcases mem_cons.mp ho with rfl | ho
      · exact hfst.trans hs.2.2
      · exact hl other (mem_cons_of_mem _ ho)

/-- The fold keeps the first Int while none is past it. -/
theorem foldl_betterInt_first (h : ∀ o ∈ vs, foldRank m value ≤ foldRank m o) :
    vs.foldl (betterInt m) value = value := by
  induction vs with
  | nil => rfl
  | cons next r ih =>
    have hn := h next mem_cons_self
    rw [foldl_cons, betterInt_eq, if_neg (not_lt.mpr hn)]
    exact ih fun o ho => h o (mem_cons_of_mem _ ho)

theorem Extreme.rank_le (h : Extreme m vs be) (hval : value ∈ vs)
    : foldRank m be ≤ foldRank m value := by
  have hb := h.2 value hval
  cases m with
  | true =>
    have hp := longPlace_mono (by simpa using hb)
    simpa [foldRank] using hp
  | false => exact longPlace_mono hb

theorem place_eq_of_rank_eq {a b : Int64} (h : foldRank m a = foldRank m b) :
    longPlace a = longPlace b := by
  cases m with
  | true => simpa [foldRank] using h
  | false => exact h

def extremeOperator (maximum : Bool) : Keyword := if maximum then ⟨"max"⟩ else ⟨"min"⟩

/-- The extreme value of the column is this Int whatever the order of the rows. -/
def ExtremeFound (D : Doubles) (maximum : Bool) (position : Int) (rows : List Tuple)
    (best : Int64) : Prop :=
  ∀ others, others.Perm rows →
    aggregateValue D others ⟨extremeOperator maximum, some position⟩ = pure (.int best)

theorem aggregateValue_extreme (D : Doubles) (m : Bool) (p : Int)
    (rs : List Tuple) : aggregateValue D rs ⟨extremeOperator m, some p⟩ = (do
      let extreme ← extremeValue D rs p m
      pure (extreme.getD (.int 0))) := by
  cases m <;> rfl

/-- **An extreme value is found in every order of the rows just where no other Int of the column has
its double.** -/
theorem extremeFound_iff {D : Doubles} (hD : D.Compares) {rs : List Tuple}
    (hcol : IntColumn p rs vs) (hb : Extreme m vs be) :
    ExtremeFound D m p rs be ↔ ∀ v ∈ vs, ToldApart v be := by
  have hval : ∀ {row r v vs}, IntColumn p (row :: r) (v :: vs) →
      aggregateValue D (row :: r) ⟨extremeOperator m, some p⟩ =
        pure (.int (vs.foldl (betterInt m) v)) := by
    intro row r v vs h
    rw [aggregateValue_extreme, extremeValue_column hD h, pure_bind]
    rfl
  constructor
  · intro h v hmem hp
    -- a row with the value goes first
    obtain ⟨fr, back, rfl⟩ := append_of_mem hmem
    obtain ⟨os, hos, hpe⟩ := perm_comp_forall₂ perm_middle.symm hcol.flip
    cases hos.flip with
    | cons hfst hr =>
      have hf := h _ hpe
      rw [hval (.cons hfst hr), foldl_betterInt_first] at hf
      · have heq := NumericAtom.int.inj (congrArg Prod.fst (Except.ok.inj (congrFun hf 0)))
        exact heq
      · intro o ho
        have ho' : o ∈ fr ++ v :: back :=
          perm_middle.symm.subset (mem_cons_of_mem _ ho)
        have hra : foldRank m v = foldRank m be := by
          unfold foldRank
          rw [hp]
        rw [hra]
        exact hb.rank_le ho'
  · intro h os hpe
    obtain ⟨vs', hcol', hp'⟩ := perm_comp_forall₂ hpe hcol
    have hmem : ∀ v, v ∈ vs' ↔ v ∈ vs := fun v => hp'.mem_iff
    cases hcol' with
    | nil => exact absurd ((hmem be).mpr hb.1) not_mem_nil
    | cons hfst hr =>
      rename_i row v r vs''
      rw [hval (.cons hfst hr)]
      obtain ⟨hin, hl⟩ := foldl_betterInt m vs'' v
      have hk := (hmem _).mp hin
      have hp := place_eq_of_rank_eq (le_antisymm (hl be ((hmem be).mpr hb.1)) (hb.rank_le hk))
      rw [h _ hk hp]

/-! ### All three -/

/-- **Ints are compared as integers just where their doubles tell them apart**: in comparison
literals, in having clauses and in the extreme values of columns. -/
theorem int_order_iff {D : Doubles} (hD : D.Compares) :
    (∀ left right : Int64, (LiteralsOrder D left right ↔ ToldApart left right) ∧
      (HavingOrders D left right ↔ ToldApart left right)) ∧
    ∀ (maximum : Bool) (position : Int) (rows : List Tuple) (values : List Int64) (best : Int64),
      IntColumn position rows values → Extreme maximum values best →
        (ExtremeFound D maximum position rows best ↔ ∀ value ∈ values, ToldApart value best) :=
  ⟨fun _ _ => ⟨literalsOrder_iff hD, havingOrders_iff hD⟩,
    fun _ _ _ _ _ hcol hb => extremeFound_iff hD hcol hb⟩

/-- A host that compares doubles and converts Ints. -/
def orderingDoubles : Doubles := { comparingDoubles with le := doubleLe }

theorem orderingDoubles_compares : orderingDoubles.Compares := ⟨rfl, rfl, rfl⟩

/-- Small scores are compared as they are. -/
theorem small_scores_ordered :
    LiteralsOrder orderingDoubles 1 2 ∧ HavingOrders orderingDoubles 2 1 ∧
      ExtremeFound orderingDoubles false 0 [[.atom (.int 2)], [.atom (.int 1)]] 1 := by
  obtain ⟨hp, he⟩ := int_order_iff orderingDoubles_compares
  refine ⟨(hp 1 2).1.mpr (by unfold ToldApart; decide),
    (hp 2 1).2.mpr (by unfold ToldApart; decide), ?_⟩
  have hl : Extreme false [2, 1] 1 :=
    ⟨mem_cons_of_mem _ (mem_cons_self ..), by
      rintro v (_ | ⟨_, _ | ⟨_, ⟨⟩⟩⟩) <;> decide⟩
  refine (he false 0 _ [2, 1] 1 (.cons rfl (.cons rfl .nil)) hl).mpr ?_
  rintro v (_ | ⟨_, _ | ⟨_, ⟨⟩⟩⟩) <;> unfold ToldApart <;> decide

/-- **Two Ints behind 2^53 are not compared as integers**: neither by a literal, nor by a having
clause, nor by the least value of a column. -/
theorem odd_scores_not_ordered :
    wideScore.toInt < oddScore.toInt ∧ ¬LiteralsOrder orderingDoubles wideScore oddScore ∧
      ¬HavingOrders orderingDoubles wideScore oddScore ∧
      ¬ExtremeFound orderingDoubles false 0 [[.atom (.int oddScore)], [.atom (.int wideScore)]]
        wideScore := by
  refine ⟨by decide, fun h => ?_, fun h => ?_, fun h => ?_⟩
  · have hlit := h (comparisonLiteral ltOperator
      [.constant (.atom (.int wideScore)), .constant (.atom (.int oddScore))]) [] _ _ []
      (by decide) rfl rfl rfl
    have hval : comparisonValue orderingDoubles ltOperator (.atom (.int wideScore))
        (.atom (.int oddScore)) = integersOrdered ltOperator wideScore oddScore :=
      congrArg Prod.fst (Except.ok.inj (congrFun hlit 0))
    exact absurd hval (by decide)
  · have hp := h [.atom (.int wideScore)] 0 ⟨ltOperator, 0, .atom (.int oddScore)⟩ []
      (by decide) rfl rfl
    exact absurd (congrArg Prod.fst (Except.ok.inj (congrFun hp 0))) (by decide)
  · have hf := h _ (Perm.refl _)
    exact absurd (congrArg Prod.fst (Except.ok.inj (congrFun hf 0))) (by decide)

end Beagle.Query
