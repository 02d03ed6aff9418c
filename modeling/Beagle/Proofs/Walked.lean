/-
What the walk over a datum writes.

A list and a vector are one shape here: a node with its elements and perhaps a tail.
The facts of such a node are its own facts and those of its children, in some order,
and the children take consecutive ranges of numbers.  From that everything later
rests on: the range of each node, that no subject has two facts of one predicate, and
that every node but the root is named as a child exactly where the walk named it.
-/
import Beagle.Facts.Projection

namespace Beagle.Facts

open List

variable {ν : Type}

/-! ### One shape for lists and vectors -/

/-- `d` is one node with these elements and this tail. -/
inductive IsSeq : Datum ν → String → List (Datum ν) → Datum ν → Prop
  | list (head tail : Datum ν) :
      IsSeq (.pair head tail) "list" (splitImproper (.pair head tail)).1
        (splitImproper (.pair head tail)).2
  | vector (items : List (Datum ν)) : IsSeq (.vector items) "vector" items .null

@[simp] theorem splitImproper_pair (h' ta : Datum ν) :
    splitImproper (.pair h' ta) = (h' :: (splitImproper ta).1, (splitImproper ta).2) := rfl

theorem consAll_splitImproper : ∀ d : Datum ν, consAll (splitImproper d).1 (splitImproper d).2 = d
  | .null => rfl
  | .atom _ => rfl
  | .vector _ => rfl
  | .pair head tail => congrArg (Datum.pair head) (consAll_splitImproper tail)

theorem splitImproper_consAll_null (its : List (Datum ν)) :
    splitImproper (consAll its .null) = (its, .null) := by
  induction its with
  | nil => rfl
  | cons x xs ih =>
    show splitImproper (.pair x (consAll xs .null)) = _
    rw [splitImproper_pair, ih]

theorem listToVector_consAll (its : List (Datum ν)) :
    listToVector (consAll its .null) = some (.vector its) := by
  unfold listToVector
  rw [splitImproper_consAll_null]

variable {d : Datum ν} {els ds : List (Datum ν)} {n s : Nat} {t : Triple ν} {k : String}
  {ta : Datum ν}

/-- What a node is put together from. -/
theorem IsSeq.rebuilt (h : IsSeq d k els ta) :
    (if k = "vector" then listToVector (consAll els ta) else some (consAll els ta)) = some d := by
  cases h with
  | list h' ta =>
    rw [if_neg (by decide), consAll_splitImproper]
  | vector its =>
    rw [if_pos rfl, listToVector_consAll]

theorem IsSeq.kind_eq (h : IsSeq d k els ta) :
    k = "list" ∨ k = "vector" := by
  cases h with
  | list h' ta => exact Or.inl rfl
  | vector its => exact Or.inr rfl

theorem sizeOf_splitImproper_tail : ∀ d : Datum ν, sizeOf (splitImproper d).2 ≤ sizeOf d
  | .null => Nat.le_refl _
  | .atom _ => Nat.le_refl _
  | .vector _ => Nat.le_refl _
  | .pair head tail => by
    have := sizeOf_splitImproper_tail tail
    simp only [splitImproper_pair, Datum.pair.sizeOf_spec]
    omega

theorem sizeOf_lt_of_mem_splitImproper : ∀ {d e : Datum ν}, e ∈ (splitImproper d).1 →
    sizeOf e < sizeOf d
  | .null, _, h => by simp [splitImproper] at h
  | .atom _, _, h => by simp [splitImproper] at h
  | .vector _, _, h => by simp [splitImproper] at h
  | .pair head tail, e, h => by
    rw [splitImproper_pair] at h
    rcases mem_cons.mp h with rfl | htail
    · simp only [Datum.pair.sizeOf_spec]
      omega
    · have := sizeOf_lt_of_mem_splitImproper htail
      simp only [Datum.pair.sizeOf_spec]
      omega

/-- A tail as a list of children. -/
def tailKids : Datum ν → List (Datum ν)
  | .null => []
  | d => [d]

theorem eq_of_mem_tailKids {tail e : Datum ν} (h : e ∈ tailKids tail) : e = tail := by
  cases tail with
  | null => exact absurd h not_mem_nil
  | pair _ _ | vector _ | atom _ => exact mem_singleton.mp h

/-- Induction over nodes: leaves, and nodes over their elements and tail. -/
theorem Datum.nodeInduction {motive : Datum ν → Prop} (null : motive .null)
    (atom : ∀ a, motive (.atom a))
    (node : ∀ d kind els tail, IsSeq d kind els tail →
      (∀ e ∈ els ++ tailKids tail, motive e) → motive d) (d : Datum ν) : motive d := by
  have hsize : ∀ size, ∀ d : Datum ν, sizeOf d = size → motive d := by
    intro size
    induction size using Nat.strongRecOn with
    | _ size ih =>
      intro d hd
      cases d with
      | null => exact null
      | atom a => exact atom a
      | pair head tail =>
        refine node _ _ _ _ (IsSeq.list head tail) ?_
        intro e he
        rcases List.mem_append.mp he with helem | htail
        · exact ih _ (hd ▸ sizeOf_lt_of_mem_splitImproper helem) e rfl
        · rw [eq_of_mem_tailKids htail]
          refine ih _ ?_ _ rfl
          have := sizeOf_splitImproper_tail tail
          simp only [splitImproper_pair, Datum.pair.sizeOf_spec] at hd ⊢
          omega
      | vector items =>
        refine node _ _ _ _ (IsSeq.vector items) ?_
        intro e he
        have := sizeOf_lt_of_mem (show e ∈ items by simpa [tailKids] using he)
        refine ih _ ?_ e rfl
        simp only [Datum.vector.sizeOf_spec] at hd
        omega
  exact hsize _ d rfl

/-! ### The walk, node by node -/

/-- Where the walk enters each of the data it walks one after the other. -/
def starts : Nat → List (Datum ν) → List (Nat × Datum ν)
  | _, [] => []
  | n, d :: ds => (n, d) :: starts (walk n d).1 ds

/-- The last number taken by them. -/
def stop : Nat → List (Datum ν) → Nat
  | n, [] => n
  | n, d :: ds => stop (walk n d).1 ds

/-- The slots of a node, from a slot on. -/
def slotFacts (id : Nat) : Nat → List (Nat × Datum ν) → List (Triple ν)
  | _, [] => []
  | index, kid :: kids => slotFact id index (kid.1 + 1) :: slotFacts id (index + 1) kids

/-- The tail of a node. -/
def tailFacts (id : Nat) (kids : List (Nat × Datum ν)) : List (Triple ν) :=
  kids.map fun kid => tailFact id (kid.1 + 1)

/-- The facts whose subject is the node `id` itself. -/
def ownFacts (id : Nat) (kind : String) (elems : List (Datum ν)) (tail : Datum ν) :
    List (Triple ν) :=
  kindFact id kind :: (slotFacts id 0 (starts id elems) ++
    tailFacts id (starts (stop id elems) (tailKids tail)))

/-- The facts of data walked one after the other. -/
def kidFacts (kids : List (Nat × Datum ν)) : List (Triple ν) :=
  kids.flatMap fun kid => (walk kid.1 kid.2).2

theorem starts_append (xs ys : List (Datum ν)) : ∀ n,
    starts n (xs ++ ys) = starts n xs ++ starts (stop n xs) ys := by
  induction xs with
  | nil => intro n; rfl
  | cons x xs ih => intro n; exact congrArg ((n, x) :: ·) (ih _)

theorem stop_append (xs ys : List (Datum ν)) : ∀ n, stop n (xs ++ ys) = stop (stop n xs) ys := by
  induction xs with
  | nil => intro n; rfl
  | cons x xs ih => intro n; exact ih _

theorem walkItems_stop (id : Nat) (xs : List (Datum ν)) : ∀ i n,
    (walkItems id i n xs).1 = stop n xs := by
  induction xs with
  | nil => intro i n; rw [walkItems]; rfl
  | cons x xs ih =>
    intro i n
    rw [walkItems]
    exact ih _ _

theorem walkItems_perm (id : Nat) (xs : List (Datum ν)) : ∀ i n, (walkItems id i n xs).2.Perm
      (slotFacts id i (starts n xs) ++ kidFacts (starts n xs)) := by
  induction xs with
  | nil => intro i n; rw [walkItems]; exact Perm.refl _
  | cons x xs ih =>
    intro i n
    rw [walkItems]
    show ((walk n x).2 ++ slotFact id i (n + 1) :: (walkItems id (i + 1) (walk n x).1 xs).2).Perm
      (slotFact id i (n + 1) :: (slotFacts id (i + 1) (starts (walk n x).1 xs) ++
        ((walk n x).2 ++ kidFacts (starts (walk n x).1 xs))))
    refine perm_middle.trans (Perm.cons _ ?_)
    refine ((ih (i + 1) (walk n x).1).append_left _).trans ?_
    rw [← append_assoc, ← append_assoc]
    exact perm_append_comm.append_right _

theorem walkTail_append (id k : Nat) (b a : List (Triple ν)) (ta : Datum ν) :
    walkTail id (k, b ++ a) ta = ((walkTail id (k, a) ta).1, b ++ (walkTail id (k, a) ta).2) := by
  cases ta with
  | null => rfl
  | pair _ _ | vector _ | atom _ => simp [walkTail]

/-- The walk along a list is the walk over its elements and then over its tail. -/
theorem walkSpine_eq (id : Nat) : ∀ (d : Datum ν) (i n : Nat), walkSpine id i n d =
      walkTail id (walkItems id i n (splitImproper d).1) (splitImproper d).2
  | .null, i, n => by simp [walkSpine, splitImproper, walkItems, walkTail]
  | .atom a, i, n => by simp [walkSpine, splitImproper, walkItems, walkTail, walk]
  | .vector items, i, n => by simp [walkSpine, splitImproper, walkItems, walkTail, walk]
  | .pair head tail, i, n => by
    rw [walkSpine, splitImproper_pair, walkItems, walkSpine_eq id tail]
    show _ = walkTail id (_, (walk n head).2 ++ ([slotFact id i (n + 1)] ++ _)) _
    rw [walkTail_append, walkTail_append]
    rfl

/-- **The walk of a node is `seq!`, as the source has it.** -/
theorem walk_eq_seq {tail : Datum ν} (h : IsSeq d k els tail) (n : Nat) :
    walk n d = seq n k els tail := by
  cases h with
  | list h' tail =>
    have hi : walkItems (n + 1) 0 (n + 1) (h' :: (splitImproper tail).1) =
        ((walkItems (n + 1) 1 (walk (n + 1) h').1 (splitImproper tail).1).1,
          (walk (n + 1) h').2 ++ ([slotFact (n + 1) 0 (n + 2)] ++
            (walkItems (n + 1) 1 (walk (n + 1) h').1 (splitImproper tail).1).2)) := by
      rw [walkItems]
      rfl
    rw [walk, walkSpine_eq, splitImproper_pair, seq, hi, walkTail_append, walkTail_append]
    rfl
  | vector its => rw [walk, seq]; rfl

theorem walkTail_stop (id : Nat) (k : Nat × List (Triple ν)) (ta : Datum ν) :
    (walkTail id k ta).1 = stop k.1 (tailKids ta) := by
  cases ta with
  | null | pair _ _ | vector _ | atom _ => rfl

theorem walkTail_perm (id : Nat) (k : Nat × List (Triple ν)) (ta : Datum ν) :
    (walkTail id k ta).2.Perm (k.2 ++ (tailFacts id (starts k.1 (tailKids ta)) ++
      kidFacts (starts k.1 (tailKids ta)))) := by
  have hm : ∀ t : Datum ν, (k.2 ++ (walk k.1 t).2 ++ [tailFact id (k.1 + 1)]).Perm
      (k.2 ++ ([tailFact id (k.1 + 1)] ++ ((walk k.1 t).2 ++ []))) := by
    intro t
    rw [append_nil, append_assoc]
    exact perm_append_comm.append_left _
  cases ta with
  | null =>
    show k.2.Perm (k.2 ++ [])
    rw [append_nil]
  | pair _ _ | vector _ | atom _ => exact hm _

theorem seq_stop (n : Nat) (k : String) (els : List (Datum ν)) (ta : Datum ν) :
    (seq n k els ta).1 = stop (n + 1) (els ++ tailKids ta) := by
  show (walkTail (n + 1) (walkItems (n + 1) 0 (n + 1) els) ta).1 = _
  rw [walkTail_stop, walkItems_stop, stop_append]

theorem seq_perm (n : Nat) (k : String) (els : List (Datum ν)) (ta : Datum ν) :
    (seq n k els ta).2.Perm (ownFacts (n + 1) k els ta ++
        kidFacts (starts (n + 1) (els ++ tailKids ta))) := by
  have hi := walkItems_perm (n + 1) els 0 (n + 1)
  have ht := walkTail_perm (n + 1) (walkItems (n + 1) 0 (n + 1) els) ta
  rw [walkItems_stop] at ht
  have hk : kidFacts (starts (n + 1) (els ++ tailKids ta)) = kidFacts (starts (n + 1) els) ++
        kidFacts (starts (stop (n + 1) els) (tailKids ta)) := by
    rw [starts_append]
    exact flatMap_append
  rw [hk]
  refine Perm.cons _ (ht.trans ((hi.append_right _).trans ?_))
  -- the facts of the elements move behind the tail slot
  show Perm _ ((_ ++ _) ++ (_ ++ _))
  rw [append_assoc, append_assoc]
  refine Perm.append_left _ ?_
  rw [← append_assoc, ← append_assoc]
  exact perm_append_comm.append_right _

/-! ### Ranges of numbers -/

theorem walk_node_stop (h : IsSeq d k els ta) (n : Nat) :
    (walk n d).1 = stop (n + 1) (els ++ tailKids ta) := by
  rw [walk_eq_seq h, seq_stop]

/-- **A walk takes at least one number.** -/
theorem lt_walk (d : Datum ν) : ∀ n, n < (walk n d).1 := by
  induction d using Datum.nodeInduction with
  | null => intro n; rw [walk]; exact Nat.lt_succ_self n
  | atom a => intro n; rw [walk]; exact Nat.lt_succ_self n
  | node d k els ta h ih =>
    intro n
    have hs : ∀ ds : List (Datum ν), (∀ e ∈ ds, ∀ n, n < (walk n e).1) → ∀ n, n ≤ stop n ds := by
      intro ds
      induction ds with
      | nil => intro _ n; exact Nat.le_refl n
      | cons e es ihs =>
        intro hall n
        have hfst := hall e mem_cons_self n
        have hr := ihs (fun x hx => hall x (mem_cons_of_mem _ hx)) (walk n e).1
        exact Nat.le_trans (Nat.le_of_lt hfst) hr
    rw [walk_node_stop h]
    exact hs _ ih (n + 1)

theorem le_stop (ds : List (Datum ν)) : ∀ n, n ≤ stop n ds := by
  induction ds with
  | nil => intro n; exact Nat.le_refl n
  | cons d ds ih => intro n; exact Nat.le_trans (Nat.le_of_lt (lt_walk d n)) (ih _)

/-- The numbers that the walk of `d` from `n` takes. -/
def InRange (n : Nat) (d : Datum ν) (s : Nat) : Prop := n < s ∧ s ≤ (walk n d).1

variable {kid : Nat × Datum ν}

theorem mem_starts (h : kid ∈ starts n ds) :
    kid.2 ∈ ds ∧ n ≤ kid.1 ∧ (walk kid.1 kid.2).1 ≤ stop n ds := by
  induction ds generalizing n with
  | nil => exact absurd h not_mem_nil
  | cons d ds ih =>
    rcases mem_cons.mp h with rfl | hrest
    · exact ⟨mem_cons_self, Nat.le_refl n, le_stop ds _⟩
    · obtain ⟨hmem, hle, hs⟩ := ih hrest
      exact ⟨mem_cons_of_mem _ hmem, Nat.le_trans (Nat.le_of_lt (lt_walk d n)) hle, hs⟩

/-- Children share no number. -/
theorem starts_disjoint {kid kid' : Nat × Datum ν} (h : kid ∈ starts n ds) (h' : kid' ∈ starts n ds)
    (hs : InRange kid.1 kid.2 s) (hs' : InRange kid'.1 kid'.2 s) : kid = kid' := by
  induction ds generalizing n with
  | nil => exact absurd h not_mem_nil
  | cons d ds ih =>
    rcases mem_cons.mp h with rfl | hrest
    · rcases mem_cons.mp h' with rfl | hrest'
      · rfl
      · exact absurd (Nat.lt_of_le_of_lt (mem_starts hrest').2.1 hs'.1) (Nat.not_lt.mpr hs.2)
    · rcases mem_cons.mp h' with rfl | hrest'
      · exact absurd (Nat.lt_of_le_of_lt (mem_starts hrest).2.1 hs.1) (Nat.not_lt.mpr hs'.2)
      · exact ih hrest hrest'

/-- Every number between is some child's. -/
theorem starts_cover (hlow : n < s) (hh : s ≤ stop n ds) :
    ∃ kid ∈ starts n ds, InRange kid.1 kid.2 s := by
  induction ds generalizing n with
  | nil => exact absurd hh (Nat.not_le.mpr hlow)
  | cons d ds ih =>
    by_cases hs : s ≤ (walk n d).1
    · exact ⟨(n, d), mem_cons_self, hlow, hs⟩
    · obtain ⟨kid, hkid, hr⟩ := ih (Nat.not_le.mp hs) hh
      exact ⟨kid, mem_cons_of_mem _ hkid, hr⟩

/-! ### Membership -/

/-- The children of a node, with where the walk enters them. -/
abbrev kidsOf (n : Nat) (elems : List (Datum ν)) (tail : Datum ν) : List (Nat × Datum ν) :=
  starts (n + 1) (elems ++ tailKids tail)

theorem mem_walk_node (h : IsSeq d k els ta) :
    t ∈ (walk n d).2 ↔ t ∈ ownFacts (n + 1) k els ta ∨
      ∃ kid ∈ kidsOf n els ta, t ∈ (walk kid.1 kid.2).2 := by
  rw [walk_eq_seq h, (seq_perm n k els ta).mem_iff, List.mem_append]
  unfold kidFacts
  rw [mem_flatMap]

variable {id : Nat}

theorem mem_slotFacts {k : List (Nat × Datum ν)} {ix : Nat} : t ∈ slotFacts id ix k ↔
      ∃ i kid, k[i]? = some kid ∧ t = slotFact id (ix + i) (kid.1 + 1) := by
  induction k generalizing ix with
  | nil => simp [slotFacts]
  | cons kid k ih =>
    unfold slotFacts
    rw [mem_cons, ih]
    constructor
    · rintro (rfl | ⟨i, kid', hget, rfl⟩)
      · exact ⟨0, kid, rfl, rfl⟩
      · exact ⟨i + 1, kid', by simpa using hget, by rw [Nat.add_right_comm, Nat.add_assoc]⟩
    · rintro ⟨i, kid', hget, rfl⟩
      cases i with
      | zero =>
        have hkid : kid = kid' := by simpa using hget
        exact Or.inl (by rw [hkid, Nat.add_zero])
      | succ i =>
        refine Or.inr ⟨i, kid', by simpa using hget, ?_⟩
        rw [Nat.add_assoc, Nat.add_comm 1 i]

theorem mem_ownFacts :
    t ∈ ownFacts id k els ta ↔ t = kindFact id k ∨
      (∃ i kid, (starts id els)[i]? = some kid ∧ t = slotFact id i (kid.1 + 1)) ∨
      ∃ kid ∈ starts (stop id els) (tailKids ta), t = tailFact id (kid.1 + 1) := by
  unfold ownFacts tailFacts
  rw [mem_cons, List.mem_append, mem_slotFacts, mem_map]
  simp only [Nat.zero_add, eq_comm]

theorem subj_of_mem_ownFacts
    (h : t ∈ ownFacts id k els ta) : t.subj = id := by
  rcases mem_ownFacts.mp h with rfl | ⟨_, _, _, rfl⟩ | ⟨_, _, rfl⟩
  · rfl
  · rfl
  · rfl

/-- A child of a node lies in the node's range, past the node itself. -/
theorem kid_inRange (h : IsSeq d k els ta)
    (hkid : kid ∈ kidsOf n els ta) (hs : InRange kid.1 kid.2 s) :
    n + 1 < s ∧ s ≤ (walk n d).1 := by
  obtain ⟨-, hlow, hh⟩ := mem_starts hkid
  rw [walk_node_stop h]
  exact ⟨Nat.lt_of_le_of_lt hlow hs.1, Nat.le_trans hs.2 hh⟩

/-- **Every fact of a walk is about a node the walk numbered.** -/
theorem subj_of_mem_walk (d : Datum ν) : ∀ {n : Nat} {t : Triple ν}, t ∈ (walk n d).2 →
    ∃ s : Nat, t.subj = s ∧ InRange n d s := by
  induction d using Datum.nodeInduction with
  | null =>
    intro n t ht
    rw [walk] at ht
    rw [mem_singleton.mp ht]
    exact ⟨n + 1, rfl, Nat.lt_succ_self n, by rw [walk]⟩
  | atom a =>
    intro n t ht
    rw [walk] at ht
    have hsu : t.subj = ((n + 1 : Nat) : Int) := by
      rcases mem_cons.mp ht with rfl | ht
      · rfl
      · rw [mem_singleton.mp ht]
    exact ⟨n + 1, hsu, Nat.lt_succ_self n, by rw [walk]⟩
  | node d k els ta h ih =>
    intro n t ht
    rcases (mem_walk_node h).mp ht with hown | ⟨kid, hkid, hin⟩
    · refine ⟨n + 1, subj_of_mem_ownFacts hown, Nat.lt_succ_self n, ?_⟩
      exact lt_walk d n
    · obtain ⟨s, hs, hr⟩ := ih kid.2 (mem_starts hkid).1 hin
      have hn := kid_inRange h hkid hr
      exact ⟨s, hs, Nat.lt_of_succ_lt hn.1, hn.2⟩

end Beagle.Facts
