/-
Comparators: functions whose sign orders two values.

A comparator is consistent on some values when turning the values round turns its sign round, and
what is not after something that is not after a third is not after the third.  Consistent
comparators stay so when they are read through a function, turned round, or tried one after the
other.  Lists sorted by a consistent comparator without ties are equal when they have the same
elements.
-/
import Mathlib

namespace Beagle.Lib.Comparators

variable {α β : Type*}

/-- Turning the values round turns the sign round. -/
def Flips (compare : α → α → Int) : Prop := ∀ a b, compare b a = -compare a b

/-- The comparator is transitive on some values. -/
def Follows (among : α → Prop) (compare : α → α → Int) : Prop :=
  ∀ a b c, among a → among b → among c → compare a b ≤ 0 → compare b c ≤ 0 → compare a c ≤ 0

/-- The second comparator decides where the first one sees no difference. -/
def before (first second : α → α → Int) (a b : α) : Int :=
  if first a b = 0 then second a b else first a b

theorem Flips.self {co : α → α → Int} (h : Flips co) (a : α) : co a a = 0 := by
  have := h a a
  omega

theorem Flips.on {co : α → α → Int} (h : Flips co) (f : β → α) :
    Flips fun a b => co (f a) (f b) := fun a b => h (f a) (f b)

theorem Flips.turn {co : α → α → Int} (h : Flips co) : Flips fun a b => 0 - co a b := by
  intro a b
  show 0 - co b a = -(0 - co a b)
  rw [h a b]
  omega

theorem Flips.before {f s : α → α → Int} (h : Flips f) (h' : Flips s) : Flips (before f s) := by
  intro a b
  unfold Comparators.before
  rw [h a b, h' a b]
  by_cases hz : f a b = 0
  · rw [if_pos hz, if_pos (by omega)]
  · rw [if_neg hz, if_neg (by omega)]

section

variable {am : α → Prop} {co f s : α → α → Int} {a b c : α}

theorem Follows.of_lt_of_le (h : Follows am co) (hf : Flips co) (ha : am a)
    (hb : am b) (hc : am c) (hab : co a b < 0) (hbc : co b c ≤ 0) :
    co a c < 0 := by
  by_contra hle
  have hca : co c a ≤ 0 := by
    rw [hf a c]
    omega
  have hba := h b c a hb hc ha hbc hca
  rw [hf a b] at hba
  omega

theorem Follows.of_le_of_lt (h : Follows am co) (hf : Flips co) (ha : am a)
    (hb : am b) (hc : am c) (hab : co a b ≤ 0) (hbc : co b c < 0) :
    co a c < 0 := by
  by_contra hle
  have hca : co c a ≤ 0 := by
    rw [hf a c]
    omega
  have hcb := h c a b hc ha hb hca hab
  rw [hf b c] at hcb
  omega

theorem Follows.on {am : α → Prop} (h : Follows am co) (f : β → α) :
    Follows (fun b => am (f b)) fun a b => co (f a) (f b) :=
  fun a b c ha hb hc => h (f a) (f b) (f c) ha hb hc

theorem Follows.mono {f : α → Prop} (h : Follows am co) (hsub : ∀ a, f a → am a) : Follows f co :=
  fun a b c ha hb hc => h a b c (hsub a ha) (hsub b hb) (hsub c hc)

theorem Follows.turn (h : Follows am co) (hf : Flips co) : Follows am fun a b => 0 - co a b := by
  intro a b c ha hb hc hab hbc
  have hba : 0 - co a b ≤ 0 := hab
  have hcb : 0 - co b c ≤ 0 := hbc
  have hca := h c b a hc hb ha (by rw [hf b c]; omega) (by rw [hf a b]; omega)
  rw [hf a c] at hca
  show 0 - co a c ≤ 0
  omega

/-- What decides behind a comparator need be transitive only where the first sees no difference. -/
theorem Follows.before (h : Follows am f) (hf : Flips f)
    (h' : ∀ a b c, am a → am b → am c → f a b = 0 → f b c = 0 → s a b ≤ 0 → s b c ≤ 0 → s a c ≤ 0) :
    Follows am (before f s) := by
  intro a b c ha hb hc hab hbc
  unfold Comparators.before at hab hbc ⊢
  by_cases hfst : f a b = 0
  · by_cases hsnd : f b c = 0
    · have hac : f a c = 0 := by
        have hle := h a b c ha hb hc (by omega) (by omega)
        have hge := h c b a hc hb ha (by rw [hf b c]; omega) (by rw [hf a b]; omega)
        rw [hf a c] at hge
        omega
      rw [if_pos hfst] at hab
      rw [if_pos hsnd] at hbc
      rw [if_pos hac]
      exact h' a b c ha hb hc hfst hsnd hab hbc
    · rw [if_neg hsnd] at hbc
      have hlt := h.of_le_of_lt hf ha hb hc (by omega) (show f b c < 0 by omega)
      rw [if_neg (by omega)]
      omega
  · rw [if_neg hfst] at hab
    have hle : f b c ≤ 0 := by
      by_cases hsnd : f b c = 0
      · omega
      · rwa [if_neg hsnd] at hbc
    have hlt := h.of_lt_of_le hf ha hb hc (by omega) hle
    rw [if_neg (by omega)]
    omega

end

/-! ### Sorted lists -/

/-- A list in the order of a comparator. -/
def Sorted (compare : α → α → Int) (values : List α) : Prop :=
  values.Pairwise fun a b => compare a b ≤ 0

/-- **The order of a comparator without ties is the only one of its elements.** -/
theorem Sorted.eq_of_perm {co : α → α → Int} (hf : Flips co)
    (ht : ∀ a b, co a b = 0 → a = b) {l right : List α} (hl : Sorted co l)
    (hr : Sorted co right) (hp : l.Perm right) : l = right := by
  refine hp.eq_of_pairwise ?_ hl hr
  intro a b _ _ hab hba
  rw [hf a b] at hba
  exact ht a b (by omega)

/-! ### Comparators that are there -/

variable {lt : α → α → Prop}

theorem flips_of_lt [DecidableRel lt] (ha : ∀ a b, lt a b → ¬lt b a) :
    Flips fun a b => if lt a b then (-1 : Int) else if lt b a then 1 else 0 := by
  intro a b
  by_cases hab : lt a b
  · simp [hab, ha a b hab]
  · by_cases hba : lt b a
    · simp [hab, hba]
    · simp [hab, hba]

theorem follows_of_lt {am : α → Prop} [DecidableRel lt]
    (htr : ∀ a b c, am a → am b → am c → ¬lt b a → ¬lt c b → ¬lt c a)
    (has : ∀ a b, lt a b → ¬lt b a) :
    Follows am fun a b => if lt a b then (-1 : Int) else if lt b a then 1 else 0 := by
  have hle : ∀ a b, (if lt a b then (-1 : Int) else if lt b a then 1 else 0) ≤ 0 ↔ ¬lt b a := by
    intro a b
    by_cases hab : lt a b
    · simp [hab, has a b hab]
    · by_cases hba : lt b a
      · simp [hab, hba]
      · simp [hab, hba]
  intro a b c ha hb hc hab hbc
  rw [hle] at hab hbc ⊢
  exact htr a b c ha hb hc hab hbc

end Beagle.Lib.Comparators
