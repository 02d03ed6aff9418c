/-
The facts of one walk, apart and together.

No subject has two facts in one place: the predicates of a leaf differ, and two slots
of a node differ in their paths already, so that nothing hangs on how ties are spelled.
Every node but the first is named as a child by one of the facts, and every fact that
names a child names such a node.
-/
import Beagle.Proofs.Walked
import Beagle.Proofs.OrderKeys

namespace Beagle.Facts

open List

variable {ν : Type}

/-- Where a predicate puts its object: slots are told apart by their path alone. -/
def place (p : String) : String ⊕ List Nat :=
  match parseOrderSlot p with
  | some key => .inr key.path
  | none => .inl p

@[simp] theorem place_slotText (p tie : Nat) : place (slotText p tie) = .inr [p] := by
  unfold place
  rw [parseOrderSlot_slotText]

@[simp] theorem place_kind : place "kind" = .inl "kind" := rfl

@[simp] theorem place_v : place "v" = .inl "v" := rfl

@[simp] theorem place_tail : place "tail" = .inl "tail" := rfl

@[simp] theorem place_kindFact (id : Nat) (kind : String) :
    place (kindFact id kind : Triple ν).pred = .inl "kind" := by
  show place "kind" = _
  exact place_kind

@[simp] theorem place_tailFact (id child : Nat) :
    place (tailFact id child : Triple ν).pred = .inl "tail" := by
  show place "tail" = _
  exact place_tail

@[simp] theorem place_slotFact (id index child : Nat) :
    place (slotFact id index child : Triple ν).pred = .inr [(index + 1) * ordStep] :=
  place_slotText _ _

@[simp] theorem isRefPred_slotText (p tie : Nat) : isRefPred (slotText p tie) = true := by
  unfold isRefPred isOrderSlot
  rw [parseOrderSlot_slotText]
  simp

theorem isRefPred_kind : isRefPred "kind" = false := rfl

theorem isRefPred_v : isRefPred "v" = false := rfl

theorem isRefPred_slotPredicate (i c : Nat) :
    isRefPred (slotPredicate i (c : Int)) = true := isRefPred_slotText _ _

theorem slotIndex_injective {i j : Nat} (h : (i + 1) * ordStep = (j + 1) * ordStep) : i = j := by
  unfold ordStep at h
  omega

/-! ### One object a place -/

variable {n : Nat} {elems : List (Datum ν)} {t : Triple ν} {ta : Datum ν}

/-- A tail is one child at most. -/
theorem eq_of_mem_starts_tailKids {kid kid' : Nat × Datum ν}
    (h : kid ∈ starts n (tailKids ta)) (h' : kid' ∈ starts n (tailKids ta)) : kid = kid' := by
  cases ta with
  | null => exact absurd h not_mem_nil
  | pair _ _ | vector _ | atom _ => rw [mem_singleton.mp h, mem_singleton.mp h']

variable {k : String}

theorem ownFacts_functional {id : Nat} {t' : Triple ν}
    (ht : t ∈ ownFacts id k elems ta) (ht' : t' ∈ ownFacts id k elems ta)
    (hp : place t.pred = place t'.pred) : t = t' := by
  rcases mem_ownFacts.mp ht with rfl | ⟨i, kid, hget, rfl⟩ | ⟨kid, hkid, rfl⟩
  · rcases mem_ownFacts.mp ht' with rfl | ⟨j, kid', hget', rfl⟩ | ⟨kid', hkid', rfl⟩
    · rfl
    · rw [place_kindFact, place_slotFact] at hp
      simp at hp
    · rw [place_kindFact, place_tailFact] at hp
      simp at hp
  · rcases mem_ownFacts.mp ht' with rfl | ⟨j, kid', hget', rfl⟩ | ⟨kid', hkid', rfl⟩
    · rw [place_kindFact, place_slotFact] at hp
      simp at hp
    · have hpa : (i + 1) * ordStep = (j + 1) * ordStep := by
        rw [place_slotFact, place_slotFact] at hp
        simpa using hp
      rw [slotIndex_injective hpa] at hget ⊢
      rw [Option.some.inj (hget.symm.trans hget')]
    · rw [place_slotFact, place_tailFact] at hp
      simp at hp
  · rcases mem_ownFacts.mp ht' with rfl | ⟨j, kid', hget', rfl⟩ | ⟨kid', hkid', rfl⟩
    · rw [place_tailFact, place_kindFact] at hp
      simp at hp
    · rw [place_tailFact, place_slotFact] at hp
      simp at hp
    · rw [eq_of_mem_starts_tailKids hkid hkid']

variable {d : Datum ν}

/-- The facts of a node that are about a number of one of its children are that child's. -/
theorem mem_kid_of_inRange (h : IsSeq d k elems ta)
    (ht : t ∈ (walk n d).2) {kid : Nat × Datum ν} (hkid : kid ∈ kidsOf n elems ta) {s : Nat}
    (hs : InRange kid.1 kid.2 s) (hsu : t.subj = s) : t ∈ (walk kid.1 kid.2).2 := by
  rcases (mem_walk_node h).mp ht with hown | ⟨kid', hkid', hin⟩
  · have hid : ((n + 1 : Nat) : Int) = s := by rw [← subj_of_mem_ownFacts hown, hsu]
    have hlow := (kid_inRange h hkid hs).1
    omega
  · obtain ⟨s', hs', hr⟩ := subj_of_mem_walk kid'.2 hin
    have hsa : s' = s := by
      rw [hsu] at hs'
      exact (Int.ofNat_inj.mp hs').symm
    rw [starts_disjoint hkid hkid' hs (hsa ▸ hr)]
    exact hin

/-- What a node says of itself are its own facts. -/
theorem mem_own_of_subj {tail : Datum ν} (h : IsSeq d k elems tail)
    (ht : t ∈ (walk n d).2) (hsu : t.subj = ((n + 1 : Nat) : Int)) :
    t ∈ ownFacts (n + 1) k elems tail := by
  rcases (mem_walk_node h).mp ht with hown | ⟨kid, hkid, hin⟩
  · exact hown
  · obtain ⟨s, hs, hr⟩ := subj_of_mem_walk kid.2 hin
    have hlow := (kid_inRange h hkid hr).1
    rw [hsu] at hs
    omega

/-- **No subject has two facts in one place.** -/
theorem walk_functional (d : Datum ν) : ∀ {n : Nat} {t t' : Triple ν}, t ∈ (walk n d).2 →
    t' ∈ (walk n d).2 → t.subj = t'.subj → place t.pred = place t'.pred → t = t' := by
  induction d using Datum.nodeInduction with
  | null =>
    intro n t t' ht ht' _ _
    rw [walk] at ht ht'
    rw [mem_singleton.mp ht, mem_singleton.mp ht']
  | atom a =>
    intro n t t' ht ht' _ hp
    rw [walk] at ht ht'
    unfold leafFacts at ht ht'
    rcases mem_cons.mp ht with rfl | ht
    · rcases mem_cons.mp ht' with rfl | ht'
      · rfl
      · rw [mem_singleton.mp ht'] at hp
        simp [kindFact] at hp
    · rcases mem_cons.mp ht' with rfl | ht'
      · rw [mem_singleton.mp ht] at hp
        simp [kindFact] at hp
      · rw [mem_singleton.mp ht, mem_singleton.mp ht']
  | node d k elems ta h ih =>
    intro n t t' ht ht' hsu hp
    rcases (mem_walk_node h).mp ht with hown | ⟨kid, hkid, hin⟩
    · have hown' := mem_own_of_subj h ht' (hsu ▸ subj_of_mem_ownFacts hown)
      exact ownFacts_functional hown hown' hp
    · obtain ⟨s, hs, hr⟩ := subj_of_mem_walk kid.2 hin
      have hin' := mem_kid_of_inRange h ht' hkid hr (hsu ▸ hs)
      exact ih kid.2 (mem_starts hkid).1 hin hin' hsu hp

/-! ### What a fact may look like -/

/-- The forms of the facts of a walk. -/
inductive Written (facts : List (Triple ν)) : Triple ν → Prop
  | kind (id : Nat) (kind : String) : Written facts (kindFact id kind)
  | value (id : Nat) (a : Atom ν) (h : kindFact id a.kind ∈ facts) : Written facts ⟨id, "v", a⟩
  | slot (id index child : Nat) : Written facts (slotFact id index child)
  | tail (id child : Nat) : Written facts (tailFact id child)

theorem Written.mono {fs fs' : List (Triple ν)} (hsub : ∀ t ∈ fs, t ∈ fs')
    (h : Written fs t) : Written fs' t := by
  cases h with
  | kind id kind => exact Written.kind id kind
  | value id a h => exact Written.value id a (hsub _ h)
  | slot id i c => exact Written.slot id i c
  | tail id c => exact Written.tail id c

theorem written_of_mem_walk (d : Datum ν) : ∀ {n : Nat} {t : Triple ν}, t ∈ (walk n d).2 →
    Written (walk n d).2 t := by
  induction d using Datum.nodeInduction with
  | null =>
    intro n t ht
    rw [walk] at ht
    rw [mem_singleton.mp ht]
    exact Written.kind _ _
  | atom a =>
    intro n t ht
    rw [walk] at ht ⊢
    rcases mem_cons.mp ht with rfl | ht
    · exact Written.kind _ _
    · rw [mem_singleton.mp ht]
      exact Written.value _ _ mem_cons_self
  | node d k elems ta h ih =>
    intro n t ht
    rcases (mem_walk_node h).mp ht with hown | ⟨kid, hkid, hin⟩
    · rcases mem_ownFacts.mp hown with rfl | ⟨_, _, _, rfl⟩ | ⟨_, _, rfl⟩
      · exact Written.kind _ _
      · exact Written.slot _ _ _
      · exact Written.tail _ _
    · refine (ih kid.2 (mem_starts hkid).1 hin).mono ?_
      intro t' ht'
      exact (mem_walk_node h).mpr (Or.inr ⟨kid, hkid, ht'⟩)

/-- A fact that names a child names a number of the walk past its first. -/
theorem child_of_mem_walk (d : Datum ν) : ∀ {n : Nat} {t : Triple ν}, t ∈ (walk n d).2 →
    isRefPred t.pred = true → ∃ c : Nat, t.obj = .integer c ∧ n + 1 < c ∧ c ≤ (walk n d).1 := by
  induction d using Datum.nodeInduction with
  | null =>
    intro n t ht href
    rw [walk] at ht
    rw [mem_singleton.mp ht] at href
    exact absurd href (Bool.eq_false_iff.mp isRefPred_kind)
  | atom a =>
    intro n t ht href
    rw [walk] at ht
    rcases mem_cons.mp ht with rfl | ht
    · exact absurd href (Bool.eq_false_iff.mp isRefPred_kind)
    · rw [mem_singleton.mp ht] at href
      exact absurd href (Bool.eq_false_iff.mp isRefPred_v)
  | node d k elems ta h ih =>
    intro n t ht href
    have hn : ∀ kid ∈ kidsOf n elems ta, n + 1 < kid.1 + 1 ∧ kid.1 + 1 ≤ (walk n d).1 :=
      fun kid hkid => kid_inRange h hkid ⟨Nat.lt_succ_self _, lt_walk kid.2 kid.1⟩
    rcases (mem_walk_node h).mp ht with hown | ⟨kid, hkid, hin⟩
    · rcases mem_ownFacts.mp hown with rfl | ⟨i, kid, hget, rfl⟩ | ⟨kid, hkid, rfl⟩
      · exact absurd href (Bool.eq_false_iff.mp isRefPred_kind)
      · refine ⟨kid.1 + 1, rfl, hn kid ?_⟩
        unfold kidsOf
        rw [starts_append]
        exact mem_append_left _ (mem_of_getElem? hget)
      · refine ⟨kid.1 + 1, rfl, hn kid ?_⟩
        unfold kidsOf
        rw [starts_append]
        exact mem_append_right _ hkid
    · obtain ⟨c, hc, hlow, hh⟩ := ih kid.2 (mem_starts hkid).1 hin href
      have hr := kid_inRange h hkid (s := c) ⟨Nat.lt_of_succ_lt hlow, hh⟩
      exact ⟨c, hc, hr⟩

/-- **Every number of a walk past its first is named as a child.** -/
theorem exists_parent (d : Datum ν) : ∀ {n s : Nat}, n + 1 < s → s ≤ (walk n d).1 →
    ∃ t ∈ (walk n d).2, isRefPred t.pred = true ∧ t.obj = .integer s := by
  induction d using Datum.nodeInduction with
  | null | atom =>
    intro n s hlow hh
    rw [walk] at hh
    exact absurd hh (Nat.not_le.mpr hlow)
  | node d k elems ta h ih =>
    intro n s hlow hh
    rw [walk_node_stop h] at hh
    obtain ⟨kid, hkid, hr⟩ := starts_cover hlow hh
    by_cases hfst : s = kid.1 + 1
    · subst hfst
      have hsp := hkid
      rw [starts_append] at hsp
      rcases List.mem_append.mp hsp with he | htail
      · obtain ⟨i, hi⟩ := mem_iff_getElem?.mp he
        refine ⟨slotFact (n + 1) i (kid.1 + 1), ?_, isRefPred_slotPredicate _ _, rfl⟩
        exact (mem_walk_node h).mpr (Or.inl (mem_ownFacts.mpr (Or.inr (Or.inl ⟨i, kid, hi, rfl⟩))))
      · refine ⟨tailFact (n + 1) (kid.1 + 1), ?_, rfl, rfl⟩
        exact (mem_walk_node h).mpr (Or.inl (mem_ownFacts.mpr (Or.inr (Or.inr ⟨kid, htail, rfl⟩))))
    · have hp : kid.1 + 1 < s := Nat.lt_of_le_of_ne hr.1 (fun heq => hfst heq.symm)
      obtain ⟨t, ht, href, hobj⟩ := ih kid.2 (mem_starts hkid).1 hp hr.2
      exact ⟨t, (mem_walk_node h).mpr (Or.inr ⟨kid, hkid, ht⟩), href, hobj⟩

/-- The first node of a walk has a kind. -/
theorem exists_kindFact (d : Datum ν) (n : Nat) : ∃ k, kindFact (n + 1) k ∈ (walk n d).2 := by
  cases d with
  | null => exact ⟨"nil", by rw [walk]; exact mem_cons_self⟩
  | atom a => exact ⟨a.kind, by rw [walk]; exact mem_cons_self⟩
  | pair h' ta => exact ⟨"list", by rw [walk]; exact mem_cons_self⟩
  | vector its => exact ⟨"vector", by rw [walk]; exact mem_cons_self⟩

/-- **Every number of a walk has a fact.** -/
theorem exists_fact (d : Datum ν) : ∀ {n s : Nat}, InRange n d s →
    ∃ t ∈ (walk n d).2, t.subj = s := by
  induction d using Datum.nodeInduction with
  | null =>
    intro n s hs
    obtain ⟨k, hk⟩ := exists_kindFact (.null : Datum ν) n
    have hfst : s = n + 1 := by
      obtain ⟨hlow, hh⟩ := hs
      rw [walk] at hh
      exact Nat.le_antisymm hh hlow
    exact ⟨_, hk, by rw [hfst]; rfl⟩
  | atom a =>
    intro n s hs
    obtain ⟨k, hk⟩ := exists_kindFact (.atom a) n
    have hfst : s = n + 1 := by
      obtain ⟨hlow, hh⟩ := hs
      rw [walk] at hh
      exact Nat.le_antisymm hh hlow
    exact ⟨_, hk, by rw [hfst]; rfl⟩
  | node d k elems ta h ih =>
    intro n s hs
    by_cases hfst : s = n + 1
    · obtain ⟨k, hk⟩ := exists_kindFact d n
      exact ⟨_, hk, by rw [hfst]; rfl⟩
    · have hp : n + 1 < s := Nat.lt_of_le_of_ne hs.1 (fun heq => hfst heq.symm)
      obtain ⟨kid, hkid, hr⟩ := starts_cover hp (walk_node_stop h n ▸ hs.2)
      obtain ⟨t, ht, hsu⟩ := ih kid.2 (mem_starts hkid).1 hr
      exact ⟨t, (mem_walk_node h).mpr (Or.inr ⟨kid, hkid, ht⟩), hsu⟩

end Beagle.Facts
