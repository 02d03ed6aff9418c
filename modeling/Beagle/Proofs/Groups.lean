/-
Row keys tell rows apart, and groups are the rows that agree.

Without doubles a key tells its row whatever the texts in it hold, so ordering rows by their keys
keeps every one of them, and rows are put together exactly when they agree on the grouping columns.
What the fold over the rows keeps is said by the key alone: the group of a key holds the rows so far
that have this key, in their order.
-/
import Beagle.Proofs.Answers
import Beagle.Query.RowKeys

namespace Beagle.Query

open Beagle.Lib Beagle.Store List

/-! ### Without doubles -/

def FloatFree (row : Tuple) : Prop := ∀ value ∈ row, Term.floats value = []

theorem FloatFree.printedApart {sf : Float64 → String} {a b : Tuple} (h : FloatFree a) :
    ∀ s ∈ a, ∀ t ∈ b, PrintedApart sf s t := by
  intro s hs t _ f hf
  rw [h s hs] at hf
  exact absurd hf not_mem_nil

theorem same_iff_eq {a : Term} (h : Term.floats a = []) (b : Term) : a.same b = true ↔ a = b := by
  induction a generalizing b with
  | atom v =>
    cases b with
    | triple => exact ⟨fun hs => absurd hs Bool.false_ne_true, fun he => by cases he⟩
    | atom o =>
      cases v with
      | float f => exact absurd h (cons_ne_nil f [])
      | _ => cases o <;> simp [Term.same, AtomValue.same]
  | triple a1 a2 a3 ih1 ih2 ih3 =>
    simp only [Term.floats, append_eq_nil_iff] at h
    cases b with
    | atom => exact ⟨fun hs => absurd hs Bool.false_ne_true, fun he => by cases he⟩
    | triple b1 b2 b3 =>
      simp only [Term.same, Bool.and_eq_true, ih1 h.1.1, ih2 h.1.2, ih3 h.2, Term.triple.injEq,
        and_assoc]

theorem sameTuple_iff_eq {a : Tuple} (h : FloatFree a) (b : Tuple) :
    sameTuple a b = true ↔ a = b := by
  induction a generalizing b with
  | nil => cases b <;> simp [sameTuple]
  | cons v rest ih =>
    have hr : FloatFree rest := fun t ht => h t (mem_cons_of_mem _ ht)
    cases b with
    | nil => simp [sameTuple]
    | cons o os =>
      simp only [sameTuple, Bool.and_eq_true, same_iff_eq (h v mem_cons_self), ih hr,
        List.cons.injEq]

/-! ### The values of a row at the grouping columns -/

def picked (row : Tuple) (grouping : List Int) : Tuple :=
  grouping.filterMap fun position => row[position.toNat]?

theorem columns_eq {row : Tuple} {grouping : List Int} (h : ∀ p ∈ grouping, Inside row.length p) :
    columns row grouping = pure (picked row grouping) := by
  induction grouping with
  | nil => rfl
  | cons p r ih =>
    obtain ⟨hlow, hh⟩ := h p mem_cons_self
    have hlt : p.toNat < row.length := by omega
    have hr := ih fun o ho => h o (mem_cons_of_mem _ ho)
    unfold columns column nth
    rw [if_neg (by omega), getElem?_eq_getElem hlt, hr]
    unfold picked
    rw [filterMap_cons, getElem?_eq_getElem hlt]
    rfl

/-! ### The fold over the rows -/

section

variable (D : Doubles) (grouping : List Int)

def groupKey (row : Tuple) : String := rowKey D.str (picked row grouping)

/-- The rows that have the key. -/
def having (rows : List Tuple) (keyText : String) : List Tuple :=
  rows.filter fun row => decide (groupKey D grouping row = keyText)

/-- The group of rows that have one key. -/
def groupOf : List Tuple → Option AggregateGroup
  | [] => none
  | row :: rest => some ⟨picked row grouping, row :: rest⟩

/-- What the groups hold once these rows are in. -/
structure GroupsHold (rows : List Tuple) (groups : AggregateGroups) : Prop where
  get : ∀ keyText, nameLike.get groups.byKey keyText =
    groupOf grouping (having D grouping rows keyText)
  mem_order : ∀ keyText, keyText ∈ groups.order ↔ ∃ row ∈ rows, groupKey D grouping row = keyText
  nodup : groups.order.Nodup

variable {D grouping}

theorem having_append (rs : List Tuple) (row : Tuple) (kt : String) :
    having D grouping (rs ++ [row]) kt = having D grouping rs kt ++
      if groupKey D grouping row = kt then [row] else [] := by
  unfold having
  rw [filter_append]
  by_cases h : groupKey D grouping row = kt <;> simp [h]

variable {rs : List Tuple}

theorem mem_having {row : Tuple} {keyText : String} :
    row ∈ having D grouping rs keyText ↔ row ∈ rs ∧ groupKey D grouping row = keyText := by
  unfold having
  rw [mem_filter, decide_eq_true_iff]

/-- One more row goes to the group of its key. -/
theorem GroupsHold.add {gs : AggregateGroups}
    (h : GroupsHold D grouping rs gs) (row : Tuple) :
    GroupsHold D grouping (rs ++ [row]) (addToGroup D gs (picked row grouping) row) := by
  have hset : ∀ (g : AggregateGroup) (kt : String),
      groupOf grouping (having D grouping rs (groupKey D grouping row) ++ [row]) = some g →
      nameLike.get (nameLike.set gs.byKey (groupKey D grouping row) g) kt =
        groupOf grouping (having D grouping (rs ++ [row]) kt) := by
    intro g kt hg
    rw [nameLike.get_set, having_append]
    by_cases heq : groupKey D grouping row = kt
    · rw [← heq, if_pos (by simp [nameLike]), if_pos rfl, hg]
    · rw [if_neg (by simpa [nameLike] using heq), if_neg heq, append_nil, h.get]
  have hget := h.get (groupKey D grouping row)
  have hkey : rowKey D.str (picked row grouping) = groupKey D grouping row := rfl
  unfold addToGroup
  dsimp only
  rw [hkey, hget]
  cases hh : having D grouping rs (groupKey D grouping row) with
  | nil =>
    have habs : ¬∃ o ∈ rs, groupKey D grouping o = groupKey D grouping row := by
      rintro ⟨o, ho, heq⟩
      have hmem := mem_having.mpr ⟨ho, heq⟩
      rw [hh] at hmem
      exact absurd hmem not_mem_nil
    have hnew : groupKey D grouping row ∉ gs.order := fun hmem =>
      habs ((h.mem_order _).mp hmem)
    refine ⟨fun kt => hset _ kt (by rw [hh]; rfl), fun kt => ?_, ?_⟩
    · simp only [groupOf, List.mem_append, mem_singleton, h.mem_order, or_and_right, exists_or,
        exists_eq_left, @eq_comm _ kt]
    · exact nodup_append.mpr ⟨h.nodup, nodup_singleton _, by
        intro a ha b hb heq
        rw [mem_singleton.mp hb] at heq
        exact hnew (heq ▸ ha)⟩
  | cons first r =>
    have hfst : first ∈ having D grouping rs (groupKey D grouping row) := by
      rw [hh]
      exact mem_cons_self
    refine ⟨fun kt => hset _ kt (by rw [hh]; rfl), fun kt => ?_, h.nodup⟩
    simp only [groupOf, List.mem_append, mem_singleton, h.mem_order, or_and_right, exists_or,
      exists_eq_left]
    refine ⟨Or.inl, ?_⟩
    rintro (hold | heq)
    · exact hold
    · exact ⟨first, (mem_having.mp hfst).1, (mem_having.mp hfst).2.trans heq⟩

/-- **The groups of the rows hold each of them under its key.** -/
theorem groupRows_hold (hr : ∀ row ∈ rs, ∀ p ∈ grouping,
      Inside row.length p) : ∀ {done : List Tuple} {gs : AggregateGroups},
      GroupsHold D grouping done gs →
      ∃ final, groupRows D grouping rs gs = pure final ∧
        GroupsHold D grouping (done ++ rs) final := by
  induction rs with
  | nil =>
    intro done gs h
    exact ⟨gs, rfl, by rwa [append_nil]⟩
  | cons row r ih =>
    intro done gs h
    obtain ⟨final, hfin, hhd⟩ :=
      ih (fun o ho => hr o (mem_cons_of_mem _ ho)) (h.add row)
    refine ⟨final, ?_, by rwa [append_assoc] at hhd⟩
    unfold groupRows
    rw [columns_eq (hr row mem_cons_self), pure_bind]
    exact hfin

end

/-! ### The rows of a group -/

/-- Every row is in one group, and the rows of a group are those that agree with its key. -/
structure Partitioned (grouping : List Int) (rows : List Tuple) (groups : AggregateGroups) : Prop where
  nodup : groups.order.Nodup
  agree : ∀ keyText ∈ groups.order, ∃ group, nameLike.get groups.byKey keyText = some group ∧
    group.members ≠ [] ∧
    group.members = rows.filter fun row => sameTuple (picked row grouping) group.key
  once : ∀ row ∈ rows, ∃! keyText, keyText ∈ groups.order ∧
    ∃ group, nameLike.get groups.byKey keyText = some group ∧ row ∈ group.members

theorem GroupsHold.partitioned {D : Doubles} {grouping : List Int} {rows : List Tuple}
    {groups : AggregateGroups} (h : GroupsHold D grouping rows groups)
    (hfree : ∀ row ∈ rows, FloatFree (picked row grouping)) : Partitioned grouping rows groups where
  nodup := h.nodup
  agree keyText hkey := by
    obtain ⟨row, hrow, hkeyText⟩ := (h.mem_order keyText).mp hkey
    have hmem : row ∈ having D grouping rows keyText := mem_having.mpr ⟨hrow, hkeyText⟩
    cases hhaving : having D grouping rows keyText with
    | nil =>
      rw [hhaving] at hmem
      exact absurd hmem not_mem_nil
    | cons first rest =>
      have hfst : first ∈ having D grouping rows keyText := by
        rw [hhaving]
        exact mem_cons_self
      obtain ⟨hin, hfstKey⟩ := mem_having.mp hfst
      refine ⟨⟨picked first grouping, first :: rest⟩, by rw [h.get, hhaving]; rfl,
        cons_ne_nil _ _, ?_⟩
      dsimp only
      rw [← hhaving]
      unfold having
      refine filter_congr fun other ho => ?_
      rw [Bool.eq_iff_iff, decide_eq_true_iff, sameTuple_iff_eq (hfree other ho), ← hfstKey]
      constructor
      · exact rowKey_faithful (hfree other ho).printedApart
      · intro heq
        unfold groupKey
        rw [heq]
  once row hrow := by
    have hmem : row ∈ having D grouping rows (groupKey D grouping row) :=
      mem_having.mpr ⟨hrow, rfl⟩
    refine ⟨groupKey D grouping row, ⟨(h.mem_order _).mpr ⟨row, hrow, rfl⟩, ?_⟩, ?_⟩
    · cases hhaving : having D grouping rows (groupKey D grouping row) with
      | nil =>
        rw [hhaving] at hmem
        exact absurd hmem not_mem_nil
      | cons first rest =>
        refine ⟨⟨picked first grouping, first :: rest⟩, by rw [h.get, hhaving]; rfl, ?_⟩
        rw [hhaving] at hmem
        exact hmem
    · rintro other ⟨-, group, hget, hin⟩
      rw [h.get] at hget
      cases hhaving : having D grouping rows other with
      | nil =>
        rw [hhaving] at hget
        exact absurd hget (Option.some_ne_none group).symm
      | cons first rest =>
        rw [hhaving] at hget
        obtain rfl := Option.some.inj hget
        have ho : row ∈ having D grouping rows other := by rwa [hhaving]
        exact (mem_having.mp ho).2.symm

/-- **Row keys are faithful**: without doubles no two rows have one key, ordering rows keeps each as
often as it is there, and the groups of rows are the rows that agree on the grouping columns. -/
theorem row_keys_partition (D : Doubles) :
    (∀ a b : Tuple, FloatFree a → FloatFree b → rowKey D.str a = rowKey D.str b → a = b) ∧
      (∀ rows : List Tuple, (∀ row ∈ rows, FloatFree row) → (orderRowVector D.str rows).Perm rows) ∧
      ∀ (grouping : List Int) (rows : List Tuple),
        (∀ row ∈ rows, ∀ position ∈ grouping, Inside row.length position) →
        (∀ row ∈ rows, FloatFree (picked row grouping)) →
        ∃ groups, groupRows D grouping rows ⟨[], []⟩ = pure groups ∧
          Partitioned grouping rows groups := by
  refine ⟨fun a b ha _ h => rowKey_faithful ha.printedApart h, fun rows hr => ?_, ?_⟩
  · exact orderRowVector_perm_self fun row _ o ho h =>
      rowKey_faithful (hr o ho).printedApart h
  · intro grouping rows hins hf
    have hemp : GroupsHold D grouping [] ⟨[], []⟩ :=
      ⟨fun _ => rfl, fun _ => by simp, nodup_nil⟩
    obtain ⟨groups, hg, hhd⟩ := groupRows_hold hins hemp
    exact ⟨groups, hg, hhd.partitioned hf⟩

end Beagle.Query
