/-
Parents that lie on every way.

Each node but the start has a parent, and a parent lies above every predecessor that is reached.
Then what lies above a node has been visited on every walk that reaches the node.

Elements on a cycle of a relation, and a rank that falls along the others.

The rank of an element counts which of finitely many elements it reaches that are on
no cycle.  It does not grow along the relation, and it falls on leaving an element
that is counted and on no cycle.
-/
import Mathlib

namespace Beagle.Lib.Dominators

open List

variable {κ : Type*}

/-- A node and all that lie above it. -/
def Above (up : κ → Option κ) : κ → κ → Prop := Relation.ReflTransGen fun a b => up a = some b

/-- A walk from the start to a node: what it has left behind, in order. -/
inductive Walk (edge : κ → κ → Prop) (start : κ) : List κ → κ → Prop where
  | start : Walk edge start [] start
  | step {left : List κ} {a b : κ} (walk : Walk edge start left a) (next : edge a b) :
      Walk edge start (left ++ [a]) b

variable {up : κ → Option κ} {e : κ → κ → Prop} {start : κ} {l right : List κ}

theorem Walk.append {a b : κ} (w : Walk e start l a) (rs : Walk e a right b) :
    Walk e start (l ++ right) b := by
  induction rs with
  | start => rwa [append_nil]
  | step _ next ih =>
    rw [← append_assoc]
    exact .step ih next

/-- A walk that has left a node has stood there. -/
theorem Walk.split {a b : κ} (w : Walk e start (l ++ a :: right) b) :
    Walk e start l a ∧ Walk e a (a :: right) b := by
  induction right using List.reverseRecOn generalizing b with
  | nil =>
    generalize hall : l ++ [a] = all at w
    cases w with
    | start => simp at hall
    | step w next =>
      obtain ⟨rfl, hla⟩ := append_inj' hall rfl
      cases hla
      exact ⟨w, .step .start next⟩
  | append_singleton right c ih =>
    generalize hall : l ++ a :: (right ++ [c]) = all at w
    cases w with
    | start => simp at hall
    | step w next =>
      rw [← cons_append, ← append_assoc] at hall
      obtain ⟨rfl, hla⟩ := append_inj' hall rfl
      cases hla
      obtain ⟨hl, hr⟩ := ih w
      exact ⟨hl, .step hr next⟩

theorem above_of_fixed {a b : κ} (hf : ∀ c, up a = some c → c = a) (h : Above up a b) : b = a := by
  induction h with
  | refl => rfl
  | tail _ hup ih =>
    subst ih
    exact hf _ hup

/-- **What lies above a node is visited on every walk to it.** -/
theorem visited_of_above (hst : ∀ c, up start = some c → c = start)
    (he : ∀ l a b, Walk e start l a → e a b → b ≠ start → ∀ c, up b = some c → Above up a c)
    {l : List κ} {a : κ} (w : Walk e start l a) {b : κ} (ha : Above up a b) :
    b ∈ l ++ [a] := by
  induction w generalizing b with
  | start =>
    rw [above_of_fixed hst ha]
    exact mem_singleton_self _
  | @step l a a' w next ih =>
    by_cases hb : a' = start
    · subst hb
      rw [above_of_fixed hst ha]
      exact mem_append_right _ (mem_singleton_self _)
    · rcases Relation.ReflTransGen.cases_head ha with rfl | ⟨c, hup, hr⟩
      · exact mem_append_right _ (mem_singleton_self _)
      · exact mem_append_left _ (ih ((he l a a' w next hb c hup).trans hr))

end Beagle.Lib.Dominators

namespace Beagle.Lib.Cycles

open List

variable {α : Type*} (r : α → α → Prop)

/-- The element is on a cycle. -/
def OnCycle (a : α) : Prop := Relation.TransGen r a a

variable {p q : α → Bool}

theorem length_filter_le {xs : List α} (h : ∀ x ∈ xs, p x = true → q x = true) :
    (xs.filter p).length ≤ (xs.filter q).length := by
  rw [← countP_eq_length_filter, ← countP_eq_length_filter]
  exact countP_mono_left h

theorem length_filter_lt : ∀ {xs : List α},
    (∀ x ∈ xs, p x = true → q x = true) → (∃ x ∈ xs, q x = true ∧ p x = false) →
      (xs.filter p).length < (xs.filter q).length := by
  intro xs
  induction xs with
  | nil => rintro - ⟨x, hx, -⟩; simp at hx
  | cons x xs ih =>
    intro himp hs
    have ht : ∀ y ∈ xs, p y = true → q y = true := fun y hy => himp y (by simp [hy])
    have hle := length_filter_le ht
    obtain ⟨y, hy, hqy, hpy⟩ := hs
    cases hp : p x with
    | true =>
      have hq := himp x (by simp) hp
      rw [filter_cons_of_pos hp, filter_cons_of_pos hq]
      rcases mem_cons.mp hy with rfl | hy
      · rw [hp] at hpy
        simp at hpy
      · simpa using ih ht ⟨y, hy, hqy, hpy⟩
    | false =>
      rw [filter_cons_of_neg (by simp [hp])]
      cases hq : q x with
      | true =>
        rw [filter_cons_of_pos hq, length_cons]
        omega
      | false =>
        rw [filter_cons_of_neg (by simp [hq])]
        rcases mem_cons.mp hy with rfl | hy
        · rw [hq] at hqy
          simp at hqy
        · exact ih ht ⟨y, hy, hqy, hpy⟩

section

open Classical in
/-- How many of the elements on no cycle are reached. -/
noncomputable def rank (xs : List α) (a : α) : Nat :=
  (xs.filter fun b => decide (¬OnCycle r b ∧ Relation.ReflTransGen r a b)).length

variable {r} {xs : List α} {a b : α}

theorem rank_le_length : rank r xs a ≤ xs.length := List.length_filter_le _ _

theorem rank_pos (ha : a ∈ xs) (hcyc : ¬OnCycle r a) : 0 < rank r xs a := by
  classical
  refine length_pos_of_mem (a := a) (mem_filter.mpr ⟨ha, ?_⟩)
  simpa using ⟨hcyc, .refl⟩

theorem rank_le (h : r a b) : rank r xs b ≤ rank r xs a := by
  classical
  refine length_filter_le fun c _ hc => ?_
  simp only [decide_eq_true_eq] at hc ⊢
  exact ⟨hc.1, .head h hc.2⟩

theorem rank_lt (h : r a b) (ha : a ∈ xs) (hcyc : ¬OnCycle r a) : rank r xs b < rank r xs a := by
  classical
  refine length_filter_lt (fun c _ hc => ?_) ⟨a, ha, ?_, ?_⟩
  · simp only [decide_eq_true_eq] at hc ⊢
    exact ⟨hc.1, .head h hc.2⟩
  · simpa using ⟨hcyc, .refl⟩
  · simp only [decide_eq_false_iff_not, not_and]
    intro _ hb
    exact hcyc (.head' h hb)

/-- Among elements on no cycle one leads to none of them. -/
theorem exists_free (hne : xs ≠ []) (h : ∀ a ∈ xs, ¬OnCycle r a) : ∃ a ∈ xs, ∀ b ∈ xs, ¬r a b := by
  by_contra hno
  have hn : ∀ a ∈ xs, ∃ b ∈ xs, r a b := by
    intro a ha
    by_contra hfr
    exact hno ⟨a, ha, fun b hb hab => hfr ⟨b, hb, hab⟩⟩
  have hf : ∀ n, ∀ a ∈ xs, rank r xs a = n → False := by
    intro n
    induction n using Nat.strongRecOn with
    | ind n ih =>
      intro a ha hr
      obtain ⟨b, hb, hab⟩ := hn a ha
      exact ih _ (hr ▸ rank_lt hab ha (h a ha)) b hb rfl
  obtain ⟨a, ha⟩ := exists_mem_of_ne_nil xs hne
  exact hf _ a ha rfl

/-- What falls along the relation keeps it from coming back. -/
theorem not_onCycle_of_falls {he : α → Nat} {p : α → Prop}
    (h : ∀ a b, p a → r a b → p b ∧ he b < he a) (ha : p a) : ¬OnCycle r a := by
  have hf : ∀ b, Relation.TransGen r a b → p b ∧ he b < he a := by
    intro b hab
    induction hab with
    | single hab => exact h _ _ ha hab
    | tail _ hbc ih =>
      obtain ⟨hp, hlt⟩ := h _ _ ih.1 hbc
      exact ⟨hp, Nat.lt_trans hlt ih.2⟩
  exact fun hcyc => Nat.lt_irrefl _ (hf a hcyc).2

end

end Beagle.Lib.Cycles
