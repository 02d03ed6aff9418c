/-
Names and aliases in one spelling space.

An identity is the name that it was entered under.  It may be named anew and be given
aliases, and it goes by everything that it was ever named.  Every name comes with a
marked form of it as a default alias.  In a sound registry no two identities go by one
spelling, so entering a free name, adding a free alias and naming anew keep what every
spelling stands for.
-/
import Mathlib

namespace Beagle.Lib

open List

/-- The names of each identity, the newest last, and its aliases. -/
@[ext] structure Registry (ν : Type) where
  names : ν → List ν
  aliases : ν → ν → Prop

namespace Registry

variable {ν : Type}

/-- Does the identity go by the spelling? -/
def Spells (r : Registry ν) (p spelling : ν) : Prop :=
  spelling ∈ r.names p ∨ r.aliases p spelling

def lastName (r : Registry ν) (p : ν) : Option ν := (r.names p).getLast?

/-- What was spelled stays spelled. -/
def Grows (r r' : Registry ν) : Prop := ∀ p spelling, r.Spells p spelling → r'.Spells p spelling

theorem Grows.refl (r : Registry ν) : r.Grows r := fun _ _ h => h

theorem Grows.trans {r r' r'' : Registry ν} (h : r.Grows r') (h' : r'.Grows r'') : r.Grows r'' :=
  fun p spelling hspell => h' p spelling (h p spelling hspell)

theorem spells_of_lastName {r : Registry ν} {p name : ν} (h : r.lastName p = some name) :
    r.Spells p name := Or.inl (mem_of_getLast? h)

/-! ### Writing -/

def addAlias (r : Registry ν) (p spelling : ν) : Registry ν :=
  { r with aliases := fun q other => r.aliases q other ∨ q = p ∧ other = spelling }

@[simp] theorem addAlias_names (r : Registry ν) (p spelling : ν) :
    (r.addAlias p spelling).names = r.names := rfl

@[simp] theorem addAlias_lastName (r : Registry ν) (p spelling q : ν) :
    (r.addAlias p spelling).lastName q = r.lastName q := rfl

theorem spells_addAlias {r : Registry ν} {p spelling q o : ν} :
    (r.addAlias p spelling).Spells q o ↔ r.Spells q o ∨ q = p ∧ o = spelling := by
  show (o ∈ r.names q ∨ (r.aliases q o ∨ _)) ↔ _
  exact or_assoc.symm

section

variable [DecidableEq ν]

/-- One more name, behind those there are. -/
def addName (r : Registry ν) (p name : ν) : Registry ν :=
  { r with names := Function.update r.names p (r.names p ++ [name]) }

/-- One name in the place of those there are. -/
def setName (r : Registry ν) (p name : ν) : Registry ν :=
  { r with names := Function.update r.names p [name] }

theorem names_addName (r : Registry ν) (p name q : ν) :
    (r.addName p name).names q = if q = p then r.names p ++ [name] else r.names q :=
  Function.update_apply _ _ _ _

theorem names_setName (r : Registry ν) (p name q : ν) :
    (r.setName p name).names q = if q = p then [name] else r.names q :=
  Function.update_apply _ _ _ _

theorem spells_addName {r : Registry ν} {p name q o : ν} :
    (r.addName p name).Spells q o ↔ r.Spells q o ∨ q = p ∧ o = name := by
  show (o ∈ (r.addName p name).names q ∨ r.aliases q o) ↔ (o ∈ r.names q ∨ r.aliases q o) ∨ _
  rw [names_addName]
  by_cases hq : q = p
  · subst hq
    rw [if_pos rfl, List.mem_append, mem_singleton]
    tauto
  · rw [if_neg hq]
    tauto

end

/-! ### Sound registries -/

/-- Every spelling is one identity's, every identity goes by itself and by the marked form of its
    name, and a reserved name is nobody else's. -/
structure Sound (mark : ν → ν) (reserved : ν → Prop) (r : Registry ν) : Prop where
  unique : ∀ {p q spelling}, r.Spells p spelling → r.Spells q spelling → p = q
  own : ∀ {p spelling}, r.Spells p spelling → r.Spells p p
  named : ∀ {p spelling}, r.Spells p spelling → ∃ name, r.lastName p = some name
  marked : ∀ {p name}, r.lastName p = some name → r.Spells p (mark name)
  old : ∀ {p name}, name ∈ r.names p → r.lastName p = some name ∨ r.aliases p name
  kept : ∀ {p name}, reserved name → r.Spells p name → p = name

/-- Every reserved name is registered. -/
def Ready (reserved : ν → Prop) (r : Registry ν) : Prop := ∀ name, reserved name → r.Spells name name

theorem Ready.grows {re : ν → Prop} {r r' : Registry ν} (h : r.Ready re)
    (hg : r.Grows r') : r'.Ready re := fun name hn => hg _ _ (h name hn)

/-- Nobody goes by the spelling. -/
def Free (r : Registry ν) (spelling : ν) : Prop := ∀ p, ¬r.Spells p spelling

/-- Nobody but the identity goes by the spelling. -/
def Only (r : Registry ν) (p spelling : ν) : Prop := ∀ q, r.Spells q spelling → q = p

theorem Free.only {r : Registry ν} {spelling : ν} (h : r.Free spelling) (p : ν) : r.Only p spelling :=
  fun q hq => absurd hq (h q)

section

variable {m : ν → ν} {re : ν → Prop} {r r' : Registry ν} {p name spelling : ν}

theorem Sound.only (h : Sound m re r) (hs : r.Spells p spelling) : r.Only p spelling :=
  fun _ hq => h.unique hq hs

theorem Sound.empty : Sound m re ⟨fun _ => [], fun _ _ => False⟩ where
  unique h := by rcases h with h | h; exacts [absurd h not_mem_nil, h.elim]
  own h := by rcases h with h | h; exacts [absurd h not_mem_nil, h.elim]
  named h := by rcases h with h | h; exacts [absurd h not_mem_nil, h.elim]
  marked h := nomatch h
  old h := absurd h not_mem_nil
  kept _ h := by rcases h with h | h; exacts [absurd h not_mem_nil, h.elim]

/-- **An alias that nobody else goes by keeps a registry sound.** -/
theorem Sound.addAlias (h : Sound m re r) (hr : r.Ready re)
    {ks : ν} (hk : r.Spells p ks) (hon : r.Only p spelling) :
    Sound m re (r.addAlias p spelling) where
  unique := by
    intro q q' o hq hq'
    rcases spells_addAlias.mp hq with hold | ⟨rfl, rfl⟩
    · rcases spells_addAlias.mp hq' with hold' | ⟨rfl, rfl⟩
      · exact h.unique hold hold'
      · exact hon q hold
    · rcases spells_addAlias.mp hq' with hold' | ⟨rfl, -⟩
      · exact (hon q' hold').symm
      · rfl
  own := by
    intro q o hq
    refine spells_addAlias.mpr (Or.inl ?_)
    rcases spells_addAlias.mp hq with hq | ⟨rfl, -⟩
    · exact h.own hq
    · exact h.own hk
  named := by
    intro q o hq
    rcases spells_addAlias.mp hq with hq | ⟨rfl, -⟩
    · exact h.named hq
    · exact h.named hk
  marked hq := spells_addAlias.mpr (Or.inl (h.marked hq))
  old hq := (h.old hq).imp_right Or.inl
  kept := by
    intro q o ho hq
    rcases spells_addAlias.mp hq with hq | ⟨rfl, rfl⟩
    · exact h.kept ho hq
    · exact (hon _ (hr _ ho)).symm

theorem grows_addAlias : r.Grows (r.addAlias p spelling) :=
  fun _ _ h => spells_addAlias.mpr (Or.inl h)

section

variable [DecidableEq ν]

theorem spells_enter {q o : ν} : ((r.addName p p).addAlias p (m p)).Spells q o ↔
    r.Spells q o ∨ q = p ∧ (o = p ∨ o = m p) := by
  rw [spells_addAlias, spells_addName]
  tauto

/-- **A free name whose marked form is free too may be entered.** -/
theorem Sound.enter (h : Sound m re r) (hmark : ∀ name, ¬re (m name))
    (hfree : r.Free p) (hfree' : r.Free (m p)) :
    Sound m re ((r.addName p p).addAlias p (m p)) where
  unique := by
    have hnew : ∀ {q other}, other = p ∨ other = m p → ¬r.Spells q other := by
      rintro q other (rfl | rfl)
      · exact hfree q
      · exact hfree' q
    intro q q' other hq hq'
    rcases spells_enter.mp hq with hold | ⟨rfl, ho⟩
    · rcases spells_enter.mp hq' with hold' | ⟨rfl, ho⟩
      · exact h.unique hold hold'
      · exact absurd hold (hnew ho)
    · rcases spells_enter.mp hq' with hold' | ⟨rfl, -⟩
      · exact absurd hold' (hnew ho)
      · rfl
  own := by
    intro q other hq
    rcases spells_enter.mp hq with hold | ⟨rfl, -⟩
    · exact spells_enter.mpr (Or.inl (h.own hold))
    · exact spells_enter.mpr (Or.inr ⟨rfl, Or.inl rfl⟩)
  named := by
    intro q other hq
    unfold lastName
    rw [addAlias_names, names_addName]
    rcases spells_enter.mp hq with hold | ⟨rfl, -⟩
    · have hne : q ≠ p := by
        rintro rfl
        exact hfree q (h.own hold)
      rw [if_neg hne]
      exact h.named hold
    · rw [if_pos rfl]
      exact ⟨q, getLast?_concat⟩
  marked := by
    intro q name hq
    unfold lastName at hq
    rw [addAlias_names, names_addName] at hq
    by_cases hqp : q = p
    · rw [if_pos hqp, getLast?_concat] at hq
      obtain rfl := Option.some.inj hq
      exact spells_enter.mpr (Or.inr ⟨hqp, Or.inr rfl⟩)
    · rw [if_neg hqp] at hq
      exact spells_enter.mpr (Or.inl (h.marked hq))
  old := by
    intro q name hq
    have hold : name ∈ r.names q → r.lastName q = some name ∨ r.aliases q name := h.old
    unfold lastName
    rw [addAlias_names, names_addName] at hq ⊢
    by_cases hqp : q = p
    · subst hqp
      rw [if_pos rfl] at hq ⊢
      rcases List.mem_append.mp hq with hq | hq
      · exact absurd (h.own (Or.inl hq)) (hfree q)
      · rw [mem_singleton.mp hq]
        exact Or.inl getLast?_concat
    · rw [if_neg hqp] at hq ⊢
      exact (hold hq).imp_right Or.inl
  kept := by
    intro q other ho hq
    rcases spells_enter.mp hq with hq | ⟨rfl, rfl | rfl⟩
    · exact h.kept ho hq
    · rfl
    · exact absurd ho (hmark q)

end

/-! ### Naming anew -/

/-- The identity has a new name and its marked form, and goes by all it went by before. -/
structure Renamed (mark : ν → ν) (r r' : Registry ν) (p name : ν) : Prop where
  spells : ∀ {q other}, r'.Spells q other ↔
    r.Spells q other ∨ q = p ∧ (other = name ∨ other = mark name)
  last : r'.lastName p = some name
  others : ∀ {q}, q ≠ p → r'.names q = r.names q
  names : ∀ {other}, other ∈ r'.names p → other = name ∨ other ∈ r.names p
  aliases : ∀ {q other}, r.aliases q other → r'.aliases q other

theorem Renamed.grows (h : Renamed m r r' p name) : r.Grows r' :=
  fun _ _ hs => h.spells.mpr (Or.inl hs)

variable {oln : ν}

/-- All names are aliases when the newest one is. -/
theorem Sound.aliased (h : Sound m re r) (hl : r.lastName p = some oln)
    (ha : r.aliases p oln) {other : ν} (ho : other ∈ r.names p) :
    r.aliases p other := by
  rcases h.old ho with hl' | halias'
  · rw [hl] at hl'
    exact Option.some.inj hl' ▸ ha
  · exact halias'

section

variable [DecidableEq ν] {r₁ : Registry ν}

/-- A name added behind the others, or put in their place when they are aliases. -/
theorem spells_named (hn : ∀ {o}, o ∈ r.names p → r.aliases p o)
    (hna : r₁ = r.addName p name ∨ r₁ = r.setName p name) {q o : ν} :
    r₁.Spells q o ↔ r.Spells q o ∨ q = p ∧ o = name := by
  rcases hna with rfl | rfl
  · exact spells_addName
  · show (o ∈ (r.setName p name).names q ∨ r.aliases q o) ↔ (o ∈ r.names q ∨ r.aliases q o) ∨ _
    rw [names_setName]
    by_cases hq : q = p
    · subst hq
      rw [if_pos rfl, mem_singleton]
      constructor
      · rintro (rfl | ho)
        · exact Or.inr ⟨rfl, rfl⟩
        · exact Or.inl (Or.inr ho)
      · rintro ((ho | ho) | ⟨-, rfl⟩)
        · exact Or.inr (hn ho)
        · exact Or.inr ho
        · exact Or.inl rfl
    · rw [if_neg hq]
      tauto

theorem lastName_named (hn : r₁ = r.addName p name ∨ r₁ = r.setName p name) :
    r₁.lastName p = some name := by
  unfold lastName
  rcases hn with rfl | rfl
  · rw [names_addName, if_pos rfl, getLast?_concat]
  · rw [names_setName, if_pos rfl]
    rfl

/-- **A new name and the marked form of it** name the identity anew, when the old name is an
    alias. -/
theorem Sound.renames (h : Sound m re r) {oln : ν} (hl : r.lastName p = some oln)
    (hal : r.aliases p oln) (hn : r₁ = r.addName p name ∨ r₁ = r.setName p name)
    (hm : r' = r₁ ∧ r₁.Spells p (m name) ∨ r' = r₁.addAlias p (m name)) :
    Renamed m r r' p name := by
  have hna : r'.names = r₁.names := by
    rcases hm with ⟨rfl, -⟩ | rfl <;> rfl
  have hs' : ∀ {q other}, r'.Spells q other ↔ r₁.Spells q other ∨ q = p ∧ other = m name := by
    intro q other
    rcases hm with ⟨rfl, hs⟩ | rfl
    · refine ⟨Or.inl, ?_⟩
      rintro (hq | ⟨rfl, rfl⟩)
      · exact hq
      · exact hs
    · exact spells_addAlias
  have ha : ∀ {q other}, r.aliases q other → r'.aliases q other := by
    intro q other hq
    have hq : r₁.aliases q other := by
      rcases hn with rfl | rfl <;> exact hq
    rcases hm with ⟨rfl, -⟩ | rfl
    · exact hq
    · exact Or.inl hq
  refine ⟨?_, ?_, ?_, ?_, ha⟩
  · intro q other
    rw [hs', spells_named (h.aliased hl hal) hn]
    tauto
  · unfold lastName
    rw [hna]
    exact lastName_named hn
  · intro q hq
    rw [hna]
    rcases hn with rfl | rfl
    · rw [names_addName, if_neg hq]
    · rw [names_setName, if_neg hq]
  · intro other ho
    rw [hna] at ho
    rcases hn with rfl | rfl
    · rw [names_addName, if_pos rfl] at ho
      rcases List.mem_append.mp ho with ho | ho
      · exact Or.inr ho
      · exact Or.inl (mem_singleton.mp ho)
    · rw [names_setName, if_pos rfl] at ho
      exact Or.inl (mem_singleton.mp ho)

end

/-- **Naming an identity anew keeps a registry sound**, when nobody else goes by the new name and
    its marked form. -/
theorem Sound.renamed (h : Sound m re r) (hr : r.Ready re)
    (hm : ∀ name, ¬re (m name)) (hl : r.lastName p = some oln)
    (ha : r.aliases p oln) (hon : r.Only p name) (ho' : r.Only p (m name))
    (hren : Renamed m r r' p name) : Sound m re r' where
  unique := by
    have hb : ∀ {q other}, r.Spells q other → other = name ∨ other = m name → q = p := by
      rintro q other hq (rfl | rfl)
      · exact hon q hq
      · exact ho' q hq
    intro q q' other hq hq'
    rcases hren.spells.mp hq with hold | ⟨rfl, ho⟩
    · rcases hren.spells.mp hq' with hold' | ⟨rfl, ho⟩
      · exact h.unique hold hold'
      · exact hb hold ho
    · rcases hren.spells.mp hq' with hold' | ⟨rfl, -⟩
      · exact (hb hold' ho).symm
      · rfl
  own := by
    intro q other hq
    refine hren.spells.mpr (Or.inl ?_)
    rcases hren.spells.mp hq with hq | ⟨rfl, -⟩
    · exact h.own hq
    · exact h.own (spells_of_lastName hl)
  named := by
    intro q other hq
    by_cases hqp : q = p
    · exact ⟨name, hqp ▸ hren.last⟩
    · unfold lastName
      rw [hren.others hqp]
      rcases hren.spells.mp hq with hq | ⟨hq, -⟩
      · exact h.named hq
      · exact absurd hq hqp
  marked := by
    intro q other hq
    by_cases hqp : q = p
    · subst hqp
      rw [hren.last] at hq
      obtain rfl := Option.some.inj hq
      exact hren.spells.mpr (Or.inr ⟨rfl, Or.inr rfl⟩)
    · unfold lastName at hq
      rw [hren.others hqp] at hq
      exact hren.spells.mpr (Or.inl (h.marked hq))
  old := by
    intro q other hq
    by_cases hqp : q = p
    · subst hqp
      rcases hren.names hq with rfl | hq
      · exact Or.inl hren.last
      · exact Or.inr (hren.aliases (h.aliased hl ha hq))
    · have hold : other ∈ r.names q → r.lastName q = some other ∨ r.aliases q other := h.old
      unfold lastName
      rw [hren.others hqp] at hq ⊢
      exact (hold hq).imp_right hren.aliases
  kept := by
    intro q other ho hq
    rcases hren.spells.mp hq with hq | ⟨rfl, rfl | rfl⟩
    · exact h.kept ho hq
    · exact (hon _ (hr _ ho)).symm
    · exact absurd ho (hm name)

end

end Registry

end Beagle.Lib
