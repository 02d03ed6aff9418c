/-
Edit distance.

An edit puts an element in, takes one out, or puts one for another.  The least number of edits from
a list to another is the least cost of an alignment of the two, and that is what the recursion on
the first elements gives; from the last elements it is the same.
-/
import Mathlib

namespace Beagle.Lib.EditDistance

open List

variable {α : Type}

inductive Edit : List α → List α → Prop where
  | insert (a : α) (xs : List α) : Edit xs (a :: xs)
  | delete (a : α) (xs : List α) : Edit (a :: xs) xs
  | substitute (a b : α) (xs : List α) : Edit (a :: xs) (b :: xs)
  | behind (a : α) {xs ys : List α} (h : Edit xs ys) : Edit (a :: xs) (a :: ys)

/-- So many edits, one after another. -/
inductive Edits : Nat → List α → List α → Prop where
  | none (xs : List α) : Edits 0 xs xs
  | more {n : Nat} {xs ys zs : List α} (h : Edits n xs ys) (e : Edit ys zs) : Edits (n + 1) xs zs

/-- An alignment, with what it costs. -/
inductive Aligned : Nat → List α → List α → Prop where
  | nil : Aligned 0 [] []
  | same (a : α) {n : Nat} {xs ys : List α} (h : Aligned n xs ys) : Aligned n (a :: xs) (a :: ys)
  | substitute (a b : α) {n : Nat} {xs ys : List α} (h : Aligned n xs ys) :
      Aligned (n + 1) (a :: xs) (b :: ys)
  | insert (b : α) {n : Nat} {xs ys : List α} (h : Aligned n xs ys) : Aligned (n + 1) xs (b :: ys)
  | delete (a : α) {n : Nat} {xs ys : List α} (h : Aligned n xs ys) : Aligned (n + 1) (a :: xs) ys

variable {n m : Nat} {xs ys zs : List α}

/-! ### Edits and alignments -/

theorem Aligned.edit (h : Aligned n xs ys) (e : Edit ys zs) : ∃ m ≤ n + 1, Aligned m xs zs := by
  induction h generalizing zs with
  | nil =>
    cases e with
    | insert a => exact ⟨1, Nat.le_refl 1, .insert a .nil⟩
  | @same a n xs ys h ih =>
    cases e with
    | insert b => exact ⟨n + 1, Nat.le_refl _, .insert b (.same a h)⟩
    | delete => exact ⟨n + 1, Nat.le_refl _, .delete a h⟩
    | substitute _ b => exact ⟨n + 1, Nat.le_refl _, .substitute a b h⟩
    | behind _ e =>
      obtain ⟨m, hm, h'⟩ := ih e
      exact ⟨m, hm, .same a h'⟩
  | @substitute a b n xs ys h ih =>
    cases e with
    | insert c => exact ⟨n + 2, Nat.le_refl _, .insert c (.substitute a b h)⟩
    | delete => exact ⟨n + 1, Nat.le_succ _, .delete a h⟩
    | substitute _ c => exact ⟨n + 1, Nat.le_succ _, .substitute a c h⟩
    | behind _ e =>
      obtain ⟨m, hm, h'⟩ := ih e
      exact ⟨m + 1, Nat.succ_le_succ hm, .substitute a b h'⟩
  | @insert b n xs ys h ih =>
    cases e with
    | insert c => exact ⟨n + 2, Nat.le_refl _, .insert c (.insert b h)⟩
    | delete => exact ⟨n, Nat.le_add_right n 2, h⟩
    | substitute _ c => exact ⟨n + 1, Nat.le_succ _, .insert c h⟩
    | behind _ e =>
      obtain ⟨m, hm, h'⟩ := ih e
      exact ⟨m + 1, Nat.succ_le_succ hm, .insert b h'⟩
  | @delete a n xs ys h ih =>
    obtain ⟨m, hm, h'⟩ := ih e
    exact ⟨m + 1, Nat.succ_le_succ hm, .delete a h'⟩

theorem Aligned.refl (xs : List α) : Aligned 0 xs xs := by
  induction xs with
  | nil => exact .nil
  | cons a xs ih => exact .same a ih

theorem Edits.aligned (h : Edits n xs ys) : ∃ m ≤ n, Aligned m xs ys := by
  induction h with
  | none xs => exact ⟨0, Nat.le_refl 0, .refl xs⟩
  | more _ e ih =>
    obtain ⟨m, hm, h⟩ := ih
    obtain ⟨k, hk, h'⟩ := h.edit e
    exact ⟨k, Nat.le_trans hk (Nat.succ_le_succ hm), h'⟩

theorem Edits.behind (a : α) (h : Edits n xs ys) : Edits n (a :: xs) (a :: ys) := by
  induction h with
  | none xs => exact .none _
  | more _ e ih => exact .more ih (.behind a e)

theorem Aligned.edits (h : Aligned n xs ys) : Edits n xs ys := by
  induction h with
  | nil => exact .none []
  | same a _ ih => exact ih.behind a
  | substitute a b _ ih => exact .more (ih.behind a) (.substitute a b _)
  | insert b _ ih => exact .more ih (.insert b _)
  | delete a _ ih => exact .more (ih.behind a) (.delete a _)

/-! ### The distance -/

def distance [DecidableEq α] : List α → List α → Nat
  | [], ys => ys.length
  | xs, [] => xs.length
  | x :: xs, y :: ys =>
    min (min (distance (x :: xs) ys + 1) (distance xs (y :: ys) + 1))
      ((if x = y then 0 else 1) + distance xs ys)
termination_by xs ys => xs.length + ys.length

variable [DecidableEq α]

@[simp] theorem distance_nil (ys : List α) : distance [] ys = ys.length := by
  rw [distance]

@[simp] theorem distance_nil_right (xs : List α) : distance xs [] = xs.length := by
  cases xs with
  | nil => rw [distance]
  | cons x xs => rw [distance]; exact List.cons_ne_nil x xs

theorem aligned_distance (xs ys : List α) : Aligned (distance xs ys) xs ys := by
  fun_induction distance xs ys with
  | case1 ys =>
    induction ys with
    | nil => exact .nil
    | cons y ys ih => exact .insert y ih
  | case2 xs h =>
    clear h
    induction xs with
    | nil => exact .nil
    | cons x xs ih => exact .delete x ih
  | case3 x xs y ys hins hdel hsub =>
    have hmin : ∀ a b c : Nat, min (min a b) c = a ∨ min (min a b) c = b ∨ min (min a b) c = c := by
      omega
    rcases hmin (distance (x :: xs) ys + 1) (distance xs (y :: ys) + 1)
      ((if x = y then 0 else 1) + distance xs ys) with h | h | h
    · rw [h]
      exact .insert y hins
    · rw [h]
      exact .delete x hdel
    · rw [h]
      by_cases hxy : x = y
      · subst hxy
        rw [if_pos rfl, Nat.zero_add]
        exact .same x hsub
      · rw [if_neg hxy, Nat.add_comm]
        exact .substitute x y hsub

theorem Aligned.distance_le (h : Aligned n xs ys) : distance xs ys ≤ n := by
  induction h with
  | nil => simp
  | @same a n xs ys _ ih =>
    rw [distance, if_pos rfl]
    omega
  | @substitute a b n xs ys _ ih =>
    rw [distance]
    split <;> omega
  | @insert b n xs ys _ ih =>
    cases xs with
    | nil => simpa using ih
    | cons x xs => rw [distance]; omega
  | @delete a n xs ys _ ih =>
    cases ys with
    | nil => simpa using ih
    | cons y ys => rw [distance]; omega

/-- **The distance is the least number of edits.** -/
theorem isLeast_distance (xs ys : List α) : IsLeast {n | Edits n xs ys} (distance xs ys) := by
  refine ⟨(aligned_distance xs ys).edits, fun n h => ?_⟩
  obtain ⟨m, hm, h⟩ := h.aligned
  exact Nat.le_trans h.distance_le hm

/-! ### A metric -/

omit [DecidableEq α] in
theorem Aligned.symm (h : Aligned n xs ys) : Aligned n ys xs := by
  induction h with
  | nil => exact .nil
  | same a _ ih => exact .same a ih
  | substitute a b _ ih => exact .substitute b a ih
  | insert b _ ih => exact .delete b ih
  | delete a _ ih => exact .insert a ih

theorem distance_comm (xs ys : List α) : distance xs ys = distance ys xs :=
  Nat.le_antisymm (aligned_distance ys xs).symm.distance_le
    (aligned_distance xs ys).symm.distance_le

theorem distance_eq_zero : distance xs ys = 0 ↔ xs = ys := by
  constructor
  · intro h
    have hal := aligned_distance xs ys
    rw [h] at hal
    generalize hn : 0 = n at hal
    induction hal with
    | nil => rfl
    | same a _ ih => rw [ih (Nat.le_zero.mp (hn ▸ Aligned.distance_le ‹_›)) hn]
    | _ => cases hn
  · rintro rfl
    exact Nat.le_zero.mp (Aligned.refl xs).distance_le

omit [DecidableEq α] in
theorem Edits.trans (h : Edits n xs ys) (h' : Edits m ys zs) : Edits (n + m) xs zs := by
  induction h' with
  | none => exact h
  | more _ e ih => exact .more (ih h) e

theorem distance_triangle (xs ys zs : List α) : distance xs zs ≤ distance xs ys + distance ys zs :=
  (isLeast_distance xs zs).2 ((isLeast_distance xs ys).1.trans (isLeast_distance ys zs).1)

/-! ### From the other end -/

omit [DecidableEq α] in
theorem Aligned.append {xs' ys' : List α} (h : Aligned n xs ys) (h' : Aligned m xs' ys') :
    Aligned (n + m) (xs ++ xs') (ys ++ ys') := by
  induction h with
  | nil => rwa [Nat.zero_add]
  | same a _ ih => exact .same a ih
  | substitute a b _ ih => rw [Nat.add_right_comm]; exact .substitute a b ih
  | insert b _ ih => rw [Nat.add_right_comm]; exact .insert b ih
  | delete a _ ih => rw [Nat.add_right_comm]; exact .delete a ih

omit [DecidableEq α] in
theorem Aligned.reverse (h : Aligned n xs ys) : Aligned n xs.reverse ys.reverse := by
  induction h with
  | nil => exact .nil
  | same a _ ih => rw [reverse_cons, reverse_cons]; exact ih.append (.same a .nil)
  | substitute a b _ ih => rw [reverse_cons, reverse_cons]; exact ih.append (.substitute a b .nil)
  | insert b _ ih => rw [reverse_cons]; simpa using ih.append (.insert b .nil)
  | delete a _ ih => rw [reverse_cons]; simpa using ih.append (.delete a .nil)

theorem distance_reverse (xs ys : List α) : distance xs.reverse ys.reverse = distance xs ys := by
  have h := (aligned_distance xs.reverse ys.reverse).reverse.distance_le
  rw [reverse_reverse, reverse_reverse] at h
  exact Nat.le_antisymm (aligned_distance xs ys).reverse.distance_le h

end Beagle.Lib.EditDistance
