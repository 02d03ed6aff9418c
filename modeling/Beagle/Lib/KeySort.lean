/-
Sorting by a key.

Every element is put behind those whose key is not larger, so elements of one key stay in
the order in which they came.  The keys in order depend on the keys alone; and where no
key comes twice, two lists that agree up to their order are sorted into lists that agree
one by one.
-/
import Mathlib

namespace Beagle.Lib.KeySort

open List

variable {α κ : Type} [LinearOrder κ] (key : α → κ)

/-- The value before the first element of a larger key. -/
def insertBy (value : α) : List α → List α
  | [] => [value]
  | current :: rest =>
    if key value < key current then value :: current :: rest
    else current :: insertBy value rest

def sortBy (values : List α) : List α :=
  values.foldl (fun ordered value => insertBy key value ordered) []

/-- The first key that an element shares with the one before it. -/
def firstRepeat : List α → Option κ
  | [] => none
  | [_] => none
  | previous :: current :: rest =>
    if key previous = key current then some (key current) else firstRepeat (current :: rest)

variable {key}

theorem insertBy_perm (v : α) (vs : List α) : (insertBy key v vs).Perm (v :: vs) := by
  induction vs with
  | nil => exact Perm.refl _
  | cons c r ih =>
    rw [insertBy]
    split
    · exact Perm.refl _
    · exact (ih.cons c).trans (Perm.swap v c r)

theorem foldl_insertBy_perm (vs os : List α) :
    (vs.foldl (fun os v => insertBy key v os) os).Perm (os ++ vs) := by
  induction vs generalizing os with
  | nil =>
    rw [append_nil]
    exact Perm.refl _
  | cons v vs ih =>
    rw [foldl_cons]
    refine (ih _).trans ?_
    refine ((insertBy_perm v os).append_right vs).trans ?_
    exact perm_middle.symm

theorem sortBy_perm (vs : List α) : (sortBy key vs).Perm vs :=
  foldl_insertBy_perm vs []

variable {vs os : List α} {β γ : Type}

theorem mem_sortBy {v : α} : v ∈ sortBy key vs ↔ v ∈ vs :=
  (sortBy_perm vs).mem_iff

theorem insertBy_sorted {v : α} (h : vs.Pairwise fun a b => key a ≤ key b) :
    (insertBy key v vs).Pairwise fun a b => key a ≤ key b := by
  induction h with
  | nil => exact pairwise_singleton _ _
  | @cons c r hh hr ih =>
    rw [insertBy]
    split
    · rename_i hl
      refine pairwise_cons.mpr ⟨?_, pairwise_cons.mpr ⟨hh, hr⟩⟩
      intro o ho
      rcases mem_cons.mp ho with rfl | ho
      · exact le_of_lt hl
      · exact le_trans (le_of_lt hl) (hh o ho)
    · rename_i hl
      refine pairwise_cons.mpr ⟨?_, ih⟩
      intro o ho
      rcases mem_cons.mp ((insertBy_perm v r).mem_iff.mp ho) with rfl | ho
      · exact not_lt.mp hl
      · exact hh o ho

theorem sortBy_sorted (vs : List α) : (sortBy key vs).Pairwise fun a b => key a ≤ key b := by
  have hf : ∀ (vs os : List α), (os.Pairwise fun a b => key a ≤ key b) →
      (vs.foldl (fun os v => insertBy key v os) os).Pairwise
        fun a b => key a ≤ key b := by
    intro vs
    induction vs with
    | nil => exact fun os h => h
    | cons v vs ih => exact fun os h => ih _ (insertBy_sorted h)
  exact hf vs [] List.Pairwise.nil

/-! ### Keys alone -/

theorem map_insertBy (v : α) (vs : List α) :
    (insertBy key v vs).map key = insertBy id (key v) (vs.map key) := by
  induction vs with
  | nil => rfl
  | cons c r ih =>
    rw [insertBy, map_cons, insertBy, id, id]
    by_cases h : key v < key c
    · rw [if_pos h, if_pos h]
      rfl
    · rw [if_neg h, if_neg h, map_cons, ih]

theorem map_sortBy (vs : List α) : (sortBy key vs).map key = sortBy id (vs.map key) := by
  have hf : ∀ (vs os : List α), (vs.foldl (fun os v => insertBy key v os) os).map key =
        (vs.map key).foldl (fun os v => insertBy id v os) (os.map key) := by
    intro vs
    induction vs with
    | nil => exact fun _ => rfl
    | cons v vs ih =>
      intro os
      rw [foldl_cons, map_cons, foldl_cons, ih, map_insertBy]
  exact hf vs []

/-- Keys in order do not depend on the order in which they came. -/
theorem sortBy_id_of_perm {ks keys' : List κ} (h : ks.Perm keys') :
    sortBy id ks = sortBy id keys' := by
  refine Perm.eq_of_pairwise (fun a b _ _ hab hba => le_antisymm hab hba)
    (sortBy_sorted ks) (sortBy_sorted keys') ?_
  exact (sortBy_perm ks).trans (h.trans (sortBy_perm keys').symm)

theorem firstRepeat_map (vs : List α) : firstRepeat key vs = firstRepeat id (vs.map key) := by
  induction vs with
  | nil => rfl
  | cons p r ih =>
    cases r with
    | nil => rfl
    | cons c r =>
      rw [firstRepeat, map_cons, map_cons, firstRepeat]
      rw [ih]
      rfl

theorem firstRepeat_sortBy_of_perm {vs' : List α} (h : (vs.map key).Perm (vs'.map key)) :
    firstRepeat key (sortBy key vs) = firstRepeat key (sortBy key vs') := by
  rw [firstRepeat_map, firstRepeat_map (sortBy key vs'), map_sortBy, map_sortBy,
    sortBy_id_of_perm h]

/-- In a sorted list no element shares its key with the one before it only if no two
elements share one. -/
theorem firstRepeat_eq_none (hsrt : vs.Pairwise fun a b => key a ≤ key b) :
    firstRepeat key vs = none ↔ vs.Pairwise fun a b => key a < key b := by
  induction hsrt with
  | nil => exact ⟨fun _ => List.Pairwise.nil, fun _ => rfl⟩
  | @cons p r hh hr ih =>
    cases r with
    | nil => exact ⟨fun _ => pairwise_singleton _ _, fun _ => rfl⟩
    | cons c r =>
      rw [firstRepeat]
      by_cases heq : key p = key c
      · rw [if_pos heq]
        refine ⟨nofun, fun h => ?_⟩
        have hl := (pairwise_cons.mp h).1 c mem_cons_self
        exact absurd heq (ne_of_lt hl)
      · rw [if_neg heq, ih, pairwise_cons (a := p)]
        refine ⟨fun h => ⟨?_, h⟩, fun h => h.2⟩
        have hl := lt_of_le_of_ne (hh c mem_cons_self) heq
        intro o ho
        rcases mem_cons.mp ho with rfl | ho
        · exact hl
        · exact lt_of_lt_of_le hl ((pairwise_cons.mp hr).1 o ho)

theorem nodup_of_strict (h : vs.Pairwise fun a b => key a < key b) : (vs.map key).Nodup := by
  rw [Nodup, pairwise_map]
  exact h.imp fun hl => ne_of_lt hl

theorem strict_of_nodup (hsrt : vs.Pairwise fun a b => key a ≤ key b)
    (hnd : (vs.map key).Nodup) : vs.Pairwise fun a b => key a < key b := by
  rw [Nodup, pairwise_map] at hnd
  exact (hsrt.and hnd).imp fun h => lt_of_le_of_ne h.1 h.2

/-- No key is found twice in a sorted list when no key comes twice. -/
theorem firstRepeat_sortBy_eq_none :
    firstRepeat key (sortBy key vs) = none ↔ (vs.map key).Nodup := by
  have hk : ((sortBy key vs).map key).Perm (vs.map key) := (sortBy_perm vs).map key
  rw [firstRepeat_eq_none (sortBy_sorted vs), ← hk.nodup_iff]
  exact ⟨nodup_of_strict, strict_of_nodup (sortBy_sorted vs)⟩

/-! ### Lists that agree up to their order -/

/-- One list in another order agrees with the other element by element. -/
def Reordered {β : Type} (R : α → β → Prop) (values : List α) (others : List β) : Prop :=
  ∃ middle, values.Perm middle ∧ Forall₂ R middle others

variable {R : α → β → Prop} {f : α → γ} {g : β → γ} {δ : Type} {a : α} {fd : Option β}

theorem map_eq_of_forall₂ (hfg : ∀ a b, R a b → f a = g b) {os : List β}
    (h : Forall₂ R vs os) : vs.map f = os.map g := by
  induction h with
  | nil => rfl
  | cons hab _ ih => rw [map_cons, map_cons, hfg _ _ hab, ih]

/-- An image tells what it determines. -/
theorem map_eq_of_map_eq {g : α → δ} (hfg : ∀ a b, f a = f b → g a = g b)
    (h : vs.map f = os.map f) : vs.map g = os.map g := by
  induction vs generalizing os with
  | nil =>
    cases os with
    | nil => rfl
    | cons => cases h
  | cons a vs ih =>
    cases os with
    | nil => cases h
    | cons b os =>
      obtain ⟨hh, ht⟩ := List.cons.inj h
      rw [map_cons, map_cons, hfg a b hh, ih ht]

/-- Images are no two the same if they determine others that are no two the same. -/
theorem nodup_map_of_determines {g : α → δ}
    (hfg : ∀ a ∈ vs, ∀ b ∈ vs, f a = f b → g a = g b) (h : (vs.map g).Nodup) :
    (vs.map f).Nodup := by
  rw [Nodup, pairwise_map] at h ⊢
  exact h.imp_of_mem fun ha hb hne hs => hne (hfg _ ha _ hb hs)

/-- Lists without common keys that are the same up to their order are sorted alike. -/
theorem sortBy_of_perm (h : vs.Perm os) (hnd : (vs.map key).Nodup) :
    sortBy key vs = sortBy key os := by
  have hinj : ∀ a b, a ∈ sortBy key vs → b ∈ sortBy key os → key a ≤ key b →
      key b ≤ key a → a = b := by
    intro a b ha hb hab hba
    exact inj_on_of_nodup_map hnd (mem_sortBy.mp ha)
      (h.mem_iff.mpr (mem_sortBy.mp hb)) (le_antisymm hab hba)
  refine Perm.eq_of_pairwise hinj (sortBy_sorted vs) (sortBy_sorted os) ?_
  exact (sortBy_perm vs).trans (h.trans (sortBy_perm os).symm)

/-- Lists whose images are the same up to their order agree in their images. -/
theorem reordered_of_perm_map {os : List β} (h : (vs.map f).Perm (os.map g)) :
    Reordered (fun a b => f a = g b) vs os := by
  have hs : Forall₂ (fun a c => f a = c) vs (vs.map f) := by
    rw [forall₂_map_right_iff]
    exact forall₂_same.mpr fun _ _ => rfl
  have hc : Relation.Comp (Forall₂ fun a c => f a = c) Perm vs (os.map g) := ⟨_, hs, h⟩
  rw [forall₂_comp_perm_eq_perm_comp_forall₂] at hc
  obtain ⟨m, hp, hmid⟩ := hc
  exact ⟨m, hp, forall₂_map_right_iff.mp hmid⟩

theorem perm_map_of_reordered (hfg : ∀ a b, R a b → f a = g b) {os : List β}
    (h : Reordered R vs os) : (vs.map f).Perm (os.map g) := by
  obtain ⟨m, hp, hall⟩ := h
  rw [← map_eq_of_forall₂ hfg hall]
  exact hp.map f

theorem exists_of_mem_forall₂ {os : List β} (h : Forall₂ R vs os) (ha : a ∈ vs) :
    ∃ b ∈ os, R a b := by
  induction h with
  | nil => exact absurd ha not_mem_nil
  | @cons c d vs os hcd _ ih =>
    rcases mem_cons.mp ha with rfl | ha
    · exact ⟨d, mem_cons_self, hcd⟩
    · obtain ⟨b, hb, hab⟩ := ih ha
      exact ⟨b, mem_cons_of_mem _ hb, hab⟩

theorem filterMap_of_forall₂ {f : α → Option γ} {g : β → Option γ} {os : List β}
    (h : Forall₂ R vs os) (hfg : ∀ a b, R a b → f a = g b) :
    vs.filterMap f = os.filterMap g := by
  induction h with
  | nil => rfl
  | cons hab _ ih => rw [filterMap_cons, filterMap_cons, hfg _ _ hab, ih]

theorem eq_none_of_rel (h : Option.Rel R none fd) : fd = none := by
  cases h
  rfl

theorem exists_of_rel (h : Option.Rel R (some a) fd) : ∃ b, fd = some b ∧ R a b := by
  cases h with
  | some hab => exact ⟨_, rfl, hab⟩

/-- What is found first by what agrees is the same. -/
theorem findSome?_of_forall₂ {f : α → Option γ} {g : β → Option γ} {os : List β}
    (h : Forall₂ R vs os) (hfg : ∀ a ∈ vs, ∀ b, R a b → f a = g b) :
    vs.findSome? f = os.findSome? g := by
  induction h with
  | nil => rfl
  | @cons a b vs os hab _ ih =>
    rw [findSome?_cons, findSome?_cons, hfg a mem_cons_self b hab,
      ih fun c hc => hfg c (mem_cons_of_mem _ hc)]

/-- Lists without common keys are sorted into lists that agree. -/
theorem sortBy_forall₂ {R : α → α → Prop} (hkey : ∀ a b, R a b → key a = key b)
    (h : Reordered R vs os) (hnd : (vs.map key).Nodup) :
    Forall₂ R (sortBy key vs) (sortBy key os) := by
  obtain ⟨m, hp, hf⟩ := h
  have hc : Relation.Comp (Forall₂ R) Perm m (sortBy key os) :=
    ⟨os, hf, (sortBy_perm os).symm⟩
  rw [forall₂_comp_perm_eq_perm_comp_forall₂] at hc
  obtain ⟨reordered, hmid, hag⟩ := hc
  have hk : reordered.map key = (sortBy key os).map key := map_eq_of_forall₂ hkey hag
  have hsrt : reordered.Pairwise fun a b => key a ≤ key b := by
    have hos : (sortBy key os).Pairwise fun a b => key a ≤ key b := sortBy_sorted os
    rw [← pairwise_map] at hos ⊢
    rw [hk]
    exact hos
  have hall : (sortBy key vs).Perm reordered :=
    (sortBy_perm vs).trans (hp.trans hmid)
  have hinj : ∀ a b, a ∈ sortBy key vs → b ∈ reordered → key a ≤ key b → key b ≤ key a → a = b := by
    intro a b ha hb hab hba
    have hb' := hall.mem_iff.mpr hb
    exact inj_on_of_nodup_map hnd (mem_sortBy.mp ha) (mem_sortBy.mp hb') (le_antisymm hab hba)
  rw [hall.eq_of_pairwise hinj (sortBy_sorted vs) hsrt]
  exact hag

end Beagle.Lib.KeySort
