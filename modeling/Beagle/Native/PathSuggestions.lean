/-
Suggestions for the path of an option.

The distance of two paths is computed row by row, and the candidates are put in order of their
distance one after another.  A character is what `subs` cuts out at an index, a byte of the text.
-/
import Beagle.Lib.EditDistance
import Beagle.Lib.KeySort
import Beagle.Native.LanguageContainer

namespace Beagle.PathSuggestions

open Beagle.LanguageContainer (subs)
open Beagle.Lib.EditDistance
open Beagle.Lib.KeySort
open Beagle.Native (Text)
open List

/-! ### Distance -/

def integerRow (lastValue : Nat) : List Nat := range (lastValue + 1)

/-- The row of a character of the left text, from the row before it. -/
def distanceRow (left right : Text) (leftIndex : Nat) (previous : List Nat) : List Nat :=
  (range' 1 right.length).foldl (fun row rightIndex =>
      let cost := if subs left (leftIndex - 1) leftIndex = subs right (rightIndex - 1) rightIndex
        then 0 else 1
      let insertion := row.getD (rightIndex - 1) 0 + 1
      let deletion := previous.getD rightIndex 0 + 1
      let substitution := cost + previous.getD (rightIndex - 1) 0
      row ++ [min (min insertion deletion) substitution])
    [leftIndex]

def levenshteinDistance (left right : Text) : Nat :=
  if left.length = 0 then right.length
  else if right.length = 0 then left.length
  else
    ((range' 1 left.length).foldl (fun previous leftIndex =>
        distanceRow left right leftIndex previous) (integerRow right.length)).getD right.length 0

/-! ### Ranking -/

structure PathSuggestion where
  path : Text
  distance : Nat

/-- `compare` of two texts: by their bytes. -/
def textBefore (left right : Text) : Bool :=
  decide (left.map UInt8.toNat < right.map UInt8.toNat)

def suggestionBefore (left right : PathSuggestion) : Bool :=
  decide (left.distance < right.distance) ||
    (left.distance == right.distance && textBefore left.path right.path)

/-- The loop of `insert-suggestion`, which looks at an element again when it has inserted. -/
def insertFrom (suggestion : PathSuggestion) :
    (remaining result : List PathSuggestion) → (inserted : Bool) → List PathSuggestion
  | [], result, inserted => if inserted then result else result ++ [suggestion]
  | current :: rest, result, inserted =>
    if !inserted && suggestionBefore suggestion current then
      insertFrom suggestion (current :: rest) (result ++ [suggestion]) true
    else insertFrom suggestion rest (result ++ [current]) inserted
termination_by remaining _ inserted => 2 * remaining.length + if inserted then 0 else 1
decreasing_by
  · cases inserted <;> simp_all
  · simp only [length_cons]
    omega

def insertSuggestion (ranked : List PathSuggestion) (suggestion : PathSuggestion) :
    List PathSuggestion :=
  insertFrom suggestion ranked [] false

/-- The loop of `first-suggestions`. -/
def firstFrom (limit : Int) : (remaining result : List PathSuggestion) → List PathSuggestion
  | [], result => result
  | suggestion :: rest, result =>
    if (result.length : Int) ≥ limit then result
    else firstFrom limit rest (result ++ [suggestion])

def firstSuggestions (ranked : List PathSuggestion) (limit : Int) : List PathSuggestion :=
  firstFrom limit ranked []

def suggestionFor (target candidate : Text) : PathSuggestion :=
  ⟨candidate, levenshteinDistance target candidate⟩

def rankPathSuggestions (target : Text) (candidates : List Text) (limit : Int) :
    List PathSuggestion :=
  if limit ≤ 0 then []
  else
    firstSuggestions (candidates.foldl (fun result candidate =>
        insertSuggestion result (suggestionFor target candidate)) []) limit

/-! ### Rows -/

variable {left right : Text}

theorem subs_one {i : Nat} (h : i < left.length) : subs left i (i + 1) = [left[i]] := by
  rw [subs, take_succ_eq_append_getElem h, drop_append_of_le_length (by simp; omega), drop_take,
    Nat.sub_self, take_zero, nil_append]

/-- The distance of what comes before two places. -/
def prefixDistance (left right : Text) (i j : Nat) : Nat :=
  Lib.EditDistance.distance (left.take i).reverse (right.take j).reverse

theorem prefixDistance_succ {i j : Nat} (hi : i < left.length) (hj : j < right.length) :
    prefixDistance left right (i + 1) (j + 1) =
      min (min (prefixDistance left right (i + 1) j + 1) (prefixDistance left right i (j + 1) + 1))
        ((if left[i] = right[j] then 0 else 1) + prefixDistance left right i j) := by
  unfold prefixDistance
  rw [take_succ_eq_append_getElem hi, take_succ_eq_append_getElem hj, reverse_append,
    reverse_append]
  exact distance.eq_3 _ _ _ _

def rowOf (left right : Text) (i : Nat) : List Nat :=
  (range (right.length + 1)).map (prefixDistance left right i)

theorem distanceRow_rowOf {i : Nat} (hi : i < left.length) :
    distanceRow left right (i + 1) (rowOf left right i) = rowOf left right (i + 1) := by
  have hrow : ∀ k ≤ right.length, (range' 1 k).foldl (fun row ri =>
      let c := if subs left (i + 1 - 1) (i + 1) = subs right (ri - 1) ri
        then 0 else 1
      let ins := row.getD (ri - 1) 0 + 1
      let d := (rowOf left right i).getD ri 0 + 1
      let s := c + (rowOf left right i).getD (ri - 1) 0
      row ++ [min (min ins d) s]) [i + 1] =
      (range (k + 1)).map (prefixDistance left right (i + 1)) := by
    intro k
    induction k with
    | zero =>
      intro _
      simp [prefixDistance, Nat.min_eq_left hi]
    | succ k ih =>
      intro hk
      rw [range'_1_concat, foldl_append, ih (Nat.le_of_succ_le hk), range_succ (n := k + 1),
        map_append]
      have hold : ∀ j ≤ right.length, (rowOf left right i).getD j 0 = prefixDistance left right i j := by
        intro j hj
        simp [rowOf, getD_eq_getElem?_getD, getElem?_range (Nat.lt_succ_of_le hj)]
      have hnew : ((range (k + 1)).map (prefixDistance left right (i + 1))).getD k 0 =
          prefixDistance left right (i + 1) k := by
        simp [getD_eq_getElem?_getD]
      simp only [foldl_cons, foldl_nil, Nat.add_sub_cancel, Nat.add_sub_cancel_left, map_cons,
        map_nil]
      rw [Nat.add_comm 1 k, hold (k + 1) hk, hold k (Nat.le_of_succ_le hk), hnew,
        subs_one hi, subs_one hk, prefixDistance_succ hi hk]
      simp
  exact hrow right.length (Nat.le_refl _)

/-- The rows end with the distance of the texts. -/
theorem levenshteinDistance_eq (left right : Text) :
    levenshteinDistance left right = Lib.EditDistance.distance left right := by
  unfold levenshteinDistance
  by_cases hl : left.length = 0
  · rw [if_pos hl, length_eq_zero_iff.mp hl, distance_nil]
  · rw [if_neg hl]
    by_cases hr : right.length = 0
    · rw [if_pos hr, length_eq_zero_iff.mp hr, distance_nil_right]
    · rw [if_neg hr]
      have hro : ∀ k ≤ left.length, (range' 1 k).foldl (fun p li =>
          distanceRow left right li p) (integerRow right.length) =
          rowOf left right k := by
        intro k
        induction k with
        | zero =>
          intro _
          refine (map_congr_left fun j hj => ?_).symm.trans (map_id' _) |>.symm
          simp [prefixDistance, Nat.min_eq_left (Nat.le_of_lt_succ (mem_range.mp hj))]
        | succ k ih =>
          intro hk
          rw [range'_1_concat, foldl_append, ih (Nat.le_of_succ_le hk), Nat.add_comm 1 k]
          exact distanceRow_rowOf hk
      rw [hro left.length (Nat.le_refl _), rowOf, getD_eq_getElem?_getD]
      simp [prefixDistance, distance_reverse]

/-! ### Order -/

/-- Suggestions are in order of their distance, and then of their path. -/
def rankKey (suggestion : PathSuggestion) : Nat ×ₗ List Nat :=
  toLex (suggestion.distance, suggestion.path.map UInt8.toNat)

variable {a b : PathSuggestion}

theorem suggestionBefore_iff :
    suggestionBefore a b = true ↔ rankKey a < rankKey b := by
  simp [suggestionBefore, textBefore, rankKey, Prod.Lex.toLex_lt_toLex]

variable {s : PathSuggestion}

theorem insertFrom_true (remaining res : List PathSuggestion) :
    insertFrom s remaining res true = res ++ remaining := by
  induction remaining generalizing res with
  | nil => simp [insertFrom]
  | cons c r ih => simp [insertFrom, ih]

theorem insertFrom_false (remaining res : List PathSuggestion) :
    insertFrom s remaining res false = res ++ insertBy rankKey s remaining := by
  induction remaining generalizing res with
  | nil => simp [insertFrom, insertBy]
  | cons c r ih =>
    rw [insertFrom, insertBy]
    by_cases h : suggestionBefore s c = true
    · simp [h, suggestionBefore_iff.mp h, insertFrom_true]
    · simp [h, mt suggestionBefore_iff.mpr h, ih]

theorem firstFrom_eq (l : Int) (rm res : List PathSuggestion) :
    firstFrom l rm res = res ++ rm.take (l - res.length).toNat := by
  induction rm generalizing res with
  | nil => simp [firstFrom]
  | cons s r ih =>
    rw [firstFrom]
    by_cases h : (res.length : Int) ≥ l
    · rw [if_pos h, Int.toNat_eq_zero.mpr (by omega)]
      simp
    · obtain ⟨k, hk⟩ : ∃ k, (l - res.length).toNat = k + 1 :=
        ⟨(l - res.length).toNat - 1, by omega⟩
      rw [if_neg h, ih, hk, take_succ_cons, append_assoc, singleton_append]
      congr 3
      rw [length_append, length_singleton]
      omega

theorem rankKey_injective (h : rankKey a = rankKey b) : a = b := by
  obtain ⟨hd, hp⟩ := Prod.mk.inj (toLex.injective h)
  have hpa := map_injective_iff.mpr (fun _ _ => UInt8.toNat_inj.mp) hp
  cases a
  cases b
  simp_all

/-- The candidates one after another are the candidates in order. -/
theorem ranked_eq (t : Text) (cs : List Text) : cs.foldl (fun res cd =>
      insertSuggestion res (suggestionFor t cd)) [] =
    (cs.map (suggestionFor t)).mergeSort
      fun a b => decide (rankKey a ≤ rankKey b) := by
  have hso : cs.foldl (fun res cd =>
      insertSuggestion res (suggestionFor t cd)) [] =
        sortBy rankKey (cs.map (suggestionFor t)) := by
    rw [sortBy, foldl_map]
    congr 1
    funext res cd
    exact insertFrom_false res []
  rw [hso]
  have hs : (sortBy rankKey (cs.map (suggestionFor t))).Perm _ := sortBy_perm _
  have hp := hs.trans (mergeSort_perm _ fun a b => decide (rankKey a ≤ rankKey b)).symm
  refine hp.eq_of_pairwise (fun a b _ _ hab hba => rankKey_injective (le_antisymm hab hba))
    (sortBy_sorted _) ?_
  refine (pairwise_mergeSort ?_ ?_ _).imp of_decide_eq_true
  · intro a b c hab hbc
    exact decide_eq_true (le_trans (of_decide_eq_true hab) (of_decide_eq_true hbc))
  · intro a b
    simpa using le_total (rankKey a) (rankKey b)

/-- **The distance of two texts is the least number of edits of one byte that turn one into the
other, and is a metric; and the suggestions are the first candidates in order of their distance
and then of their path.** -/
theorem suggestions_nearest :
    (∀ left right : Text, IsLeast {n | Edits n left right} (levenshteinDistance left right)) ∧
    (∀ left right : Text, (levenshteinDistance left right = 0 ↔ left = right) ∧
      levenshteinDistance left right = levenshteinDistance right left ∧
      ∀ middle, levenshteinDistance left right ≤
        levenshteinDistance left middle + levenshteinDistance middle right) ∧
    ∀ (target : Text) (candidates : List Text) (limit : Int),
      rankPathSuggestions target candidates limit =
        ((candidates.map (suggestionFor target)).mergeSort
          fun a b => decide (rankKey a ≤ rankKey b)).take limit.toNat := by
  simp only [levenshteinDistance_eq]
  refine ⟨isLeast_distance, fun l r => ⟨distance_eq_zero, distance_comm l r, fun m =>
    distance_triangle l m r⟩, fun target candidates limit => ?_⟩
  unfold rankPathSuggestions
  by_cases h : limit ≤ 0
  · rw [if_pos h, Int.toNat_eq_zero.mpr h, take_zero]
  · rw [if_neg h, firstSuggestions, firstFrom_eq, ranked_eq]
    simp

/-- A character of two bytes is put for one of one byte in two edits of bytes. -/
theorem accent_is_two_bytes : ¬ ∀ left right : String, IsLeast
    {n | Edits n left.toList right.toList}
    (levenshteinDistance (Lib.Utf8.encode left) (Lib.Utf8.encode right)) := by
  intro h
  have htwo : levenshteinDistance (Lib.Utf8.encode "é") (Lib.Utf8.encode "e") = 2 := by
    decide +kernel
  have hone : Edits 1 "é".toList "e".toList := .more (.none _) (.substitute 'é' 'e' [])
  have hle := (h "é" "e").2 hone
  rw [htwo] at hle
  omega

end Beagle.PathSuggestions
