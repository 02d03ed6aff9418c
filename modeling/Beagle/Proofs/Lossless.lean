/-
What a table of facts holds.

A table keeps the last fact of each subject and predicate.  So it holds nothing but
given facts, and it holds a fact when no other of the list has its subject and
predicate with another object.

The occurrence projection loses nothing.

`Gives` says what a table must hold at the numbers of one walk: in the structural
places exactly what the walk wrote there, under other numbers and with leaf values in
another form.  A table with that property builds the datum, by induction over its
nodes.  Facts kept as they are have the property, and so have facts that went through
text and a store.
-/
import Beagle.Proofs.Numbered

namespace Beagle.Facts

open List

section

variable {ν : Type}

theorem node_putTriple (ps : Props ν) (t : Triple ν) (id : Int) : (putTriple ps t).node id =
      if id = t.subj then (ps.node id).insert t.pred t.obj else ps.node id := by
  unfold putTriple Props.node
  by_cases h : id = t.subj
  · subst h
    rw [AList.lookup_insert, if_pos rfl, Option.getD_some]
  · rw [AList.lookup_insert_ne h, if_neg h]

/-- One fact put into a table is found there, and every other lookup stays. -/
theorem ref_putTriple (ps : Props ν) (t : Triple ν) (id : Int) (p : String) :
    (putTriple ps t).ref id p =
      if id = t.subj ∧ p = t.pred then some t.obj else ps.ref id p := by
  unfold Props.ref
  rw [node_putTriple]
  by_cases hid : id = t.subj
  · rw [if_pos hid]
    by_cases hp : p = t.pred
    · subst hp
      rw [AList.lookup_insert, if_pos ⟨hid, rfl⟩]
    · rw [AList.lookup_insert_ne hp, if_neg (fun h => hp h.2)]
  · rw [if_neg hid, if_neg (fun h => hid h.1)]

theorem triplesToProps_append_singleton (ts : List (Triple ν)) (t : Triple ν) :
    triplesToProps (ts ++ [t]) = putTriple (triplesToProps ts) t := by
  unfold triplesToProps
  rw [foldl_append]
  rfl

variable {ts : List (Triple ν)} {p : String} {o : Atom ν} {id : Int}

/-- **A table holds only what was put there.** -/
theorem mem_of_ref (h : (triplesToProps ts).ref id p = some o) : ⟨id, p, o⟩ ∈ ts := by
  induction ts using reverseRecOn with
  | nil => simp [triplesToProps, Props.ref, Props.node] at h
  | append_singleton ts t ih =>
    rw [triplesToProps_append_singleton, ref_putTriple] at h
    by_cases hl : id = t.subj ∧ p = t.pred
    · rw [if_pos hl] at h
      refine mem_append_right _ (mem_singleton.mpr ?_)
      rw [hl.1, hl.2, ← Option.some.inj h]
    · rw [if_neg hl] at h
      exact mem_append_left _ (ih h)

/-- **A fact with no rival is held.** -/
theorem ref_of_mem {t : Triple ν} (h : t ∈ ts)
    (ha : ∀ t' ∈ ts, t'.subj = t.subj → t'.pred = t.pred → t'.obj = t.obj) :
    (triplesToProps ts).ref t.subj t.pred = some t.obj := by
  induction ts using reverseRecOn with
  | nil => exact absurd h not_mem_nil
  | append_singleton ts l ih =>
    rw [triplesToProps_append_singleton, ref_putTriple]
    by_cases hl : t.subj = l.subj ∧ t.pred = l.pred
    · rw [if_pos hl, ha l (by simp) hl.1.symm hl.2.symm]
    · rw [if_neg hl]
      have hmem : t ∈ ts := by
        rcases List.mem_append.mp h with hfst | hsame
        · exact hfst
        · rw [mem_singleton.mp hsame] at hl
          exact absurd ⟨rfl, rfl⟩ hl
      exact ih hmem fun t' ht' => ha t' (mem_append_left _ ht')

/-- The subjects of a table are those of its facts. -/
theorem mem_keys_triplesToProps :
    id ∈ (triplesToProps ts).keys ↔ ∃ t ∈ ts, t.subj = id := by
  induction ts using reverseRecOn with
  | nil => simp [triplesToProps]
  | append_singleton ts t ih =>
    rw [triplesToProps_append_singleton, ← AList.mem_keys]
    unfold putTriple
    rw [AList.mem_insert, AList.mem_keys, ih]
    constructor
    · rintro (rfl | ⟨t', ht', rfl⟩)
      · exact ⟨t, by simp, rfl⟩
      · exact ⟨t', by simp [ht'], rfl⟩
    · rintro ⟨t', ht', rfl⟩
      rcases List.mem_append.mp ht' with hfst | hlast
      · exact Or.inr ⟨t', hfst, rfl⟩
      · rw [mem_singleton.mp hlast]
        exact Or.inl rfl

theorem lookup_eq_node {ps : Props ν} (h : id ∈ ps.keys) :
    ps.lookup id = some (ps.node id) := by
  have hs := AList.lookup_isSome.mpr (AList.mem_keys.mpr h)
  obtain ⟨nd, hn⟩ := Option.isSome_iff_exists.mp hs
  unfold Props.node
  rw [hn, Option.getD_some]

theorem mem_node_entries {ps : Props ν} :
    (⟨p, o⟩ : (_ : String) × Atom ν) ∈ (ps.node id).entries ↔ ps.ref id p = some o :=
  AList.mem_lookup_iff.symm

theorem mem_props_entries {ps : Props ν} {nd : (_ : Int) × Node ν}
    (h : nd ∈ ps.entries) : ps.node nd.1 = nd.2 := by
  have hl : ps.lookup nd.1 = some nd.2 := AList.mem_lookup_iff.mpr h
  unfold Props.node
  rw [hl, Option.getD_some]

end

variable {ν : Type}

/-- A step that never fails is a map. -/
theorem mapM_of_forall {α β : Type} {f : α → Option β} {g : α → β} {xs : List α}
    (h : ∀ x ∈ xs, f x = some (g x)) : xs.mapM f = some (xs.map g) := by
  induction xs with
  | nil => rfl
  | cons x xs ih =>
    rw [mapM_cons, h x mem_cons_self, ih fun y hy => h y (mem_cons_of_mem _ hy)]
    rfl

/-! ### Building a node -/

section Build

variable {w : HashOrder} {de : String → Atom ν → Option (Atom ν)} {ps : Props ν}

theorem lookup_of_ref {id : Int} {p : String} {o : Atom ν} (h : ps.ref id p = some o) :
    ps.lookup id = some (ps.node id) := by
  refine lookup_eq_node ?_
  by_cases hmem : id ∈ ps.keys
  · exact hmem
  · have hn : ps.lookup id = none := AList.lookup_eq_none.mpr fun h => hmem (AList.mem_keys.mp h)
    unfold Props.ref Props.node at h
    rw [hn] at h
    simp at h

theorem build_leaf {id : Int} {k : String} {v : Atom ν} (fu : Nat)
    (hk : ps.ref id "kind" = some (.string k)) (hl : k ∈ leafKinds)
    (hv : ps.ref id "v" = some v) :
    build w de ps (fu + 1) (.integer id) = (de k v).map Datum.atom := by
  have hlo := lookup_of_ref hk
  unfold Props.ref at hk hv
  simp only [build, hlo, Option.bind_eq_bind, Option.bind_some, hk, if_pos hl, hv]

theorem build_nil {id : Int} (k : Nat) (hk : ps.ref id "kind" = some (.string "nil")) :
    build w de ps (k + 1) (.integer id) = some .null := by
  have hl := lookup_of_ref hk
  unfold Props.ref at hk
  simp only [build, hl, Option.bind_eq_bind, Option.bind_some, hk]
  rfl

theorem build_seq {id : Int} {k : String} {es : List (Datum ν)} {ta : Datum ν}
    (fu : Nat) (hk : ps.ref id "kind" = some (.string k))
    (hseq : k = "list" ∨ k = "vector")
    (he : (orderedSlotChildren w (ps.node id)).mapM (build w de ps fu) = some es)
    (ht : (match ps.ref id "tail" with
      | some t => build w de ps fu t
      | none => some .null) = some ta) :
    build w de ps (fu + 1) (.integer id) =
      if k = "vector" then listToVector (consAll es ta) else some (consAll es ta) := by
  have hlo := lookup_of_ref hk
  have hl : k ∉ leafKinds := by
    rcases hseq with rfl | rfl
    · decide
    · decide
  have hnil : k ≠ "nil" := by
    rcases hseq with rfl | rfl
    · decide
    · decide
  unfold Props.ref at hk ht
  simp only [build, hlo, Option.bind_eq_bind, Option.bind_some, hk, if_neg hl,
    if_neg hnil, if_pos hseq, he]
  cases htl : (ps.node id).lookup "tail" with
  | none =>
    rw [htl] at ht
    rw [← Option.some.inj ht]
  | some t =>
    rw [htl] at ht
    show (build w de ps fu t).bind _ = _
    rw [show build w de ps fu t = some ta from ht, Option.bind_some]

end Build

/-! ### A table that holds a walk -/

/-- A fact of a walk as a table holds it: under other numbers, the value of a leaf in
another form. -/
def carried (ρ : Int → Int) (τ : Nat → Nat) (form : Atom ν → Atom ν) (t : Triple ν) : Triple ν :=
  if t.pred = "v" then ⟨ρ t.subj, "v", form t.obj⟩ else rename ρ τ t

/-- At the numbers of a walk, the table holds in the structural places what the walk wrote. -/
def Gives (ρ : Int → Int) (τ : Nat → Nat) (form : Atom ν → Atom ν) (props : Props ν) (n : Nat)
    (d : Datum ν) : Prop :=
  ∀ s, InRange n d s → ∀ p o, isStructural p = true → (props.ref (ρ s) p = some o ↔
      ∃ t ∈ (walk n d).2, t.subj = s ∧ (carried ρ τ form t).pred = p ∧ (carried ρ τ form t).obj = o)

section Carried

variable (ρ : Int → Int) (τ : Nat → Nat) (fm : Atom ν → Atom ν)

theorem retie_slotText (pt tie : Nat) : retie τ (slotText pt tie) = slotText pt (τ tie) := by
  unfold retie
  rw [parseOrderSlot_slotText]
  simp [slotText]

@[simp] theorem carried_kindFact (id : Nat) (kind : String) :
    carried ρ τ fm (kindFact id kind : Triple ν) = ⟨ρ id, "kind", .string kind⟩ := by
  have hretie : retie τ "kind" = "kind" := rfl
  simp [carried, rename, kindFact, hretie, isRefPred_kind]

@[simp] theorem carried_value (id : Int) (a : Atom ν) :
    carried ρ τ fm ⟨id, "v", a⟩ = ⟨ρ id, "v", fm a⟩ := if_pos rfl

@[simp] theorem carried_tailFact (id child : Nat) :
    carried ρ τ fm (tailFact id child : Triple ν) = ⟨ρ id, "tail", .integer (ρ child)⟩ := by
  have hretie : retie τ "tail" = "tail" := rfl
  simp [carried, rename, tailFact, hretie, isRefPred, renumber]

@[simp] theorem carried_slotFact (id index child : Nat) :
    carried ρ τ fm (slotFact id index child : Triple ν) =
      ⟨ρ id, slotText ((index + 1) * ordStep) (τ child), .integer (ρ child)⟩ := by
  have hpred : (slotFact id index child : Triple ν).pred =
      slotText ((index + 1) * ordStep) child := rfl
  have hne : (slotFact id index child : Triple ν).pred ≠ "v" := by
    intro heq
    have hplace := congrArg place heq
    rw [place_slotFact, place_v] at hplace
    simp at hplace
  unfold carried
  rw [if_neg hne]
  unfold rename
  rw [hpred, retie_slotText, isRefPred_slotText, if_pos rfl]
  rfl

/-- The children of a node as its slots hold them. -/
def carriedSlots : Nat → List (Nat × Datum ν) → List ((_ : String) × Atom ν)
  | _, [] => []
  | index, kid :: kids =>
    ⟨slotText ((index + 1) * ordStep) (τ (kid.1 + 1)), .integer (ρ ((kid.1 + 1 : Nat) : Int))⟩ ::
      carriedSlots (index + 1) kids

/-- The same with their keys. -/
def carriedKeys : Nat → List (Nat × Datum ν) → List (SlotKey × Atom ν)
  | _, [] => []
  | index, kid :: kids =>
    (⟨[(index + 1) * ordStep], τ (kid.1 + 1)⟩, .integer (ρ ((kid.1 + 1 : Nat) : Int))) ::
      carriedKeys (index + 1) kids

theorem carriedSlots_map (kids : List (Nat × Datum ν)) : ∀ index,
    (carriedSlots ρ τ index kids).map slotEntry = (carriedKeys ρ τ index kids).map some := by
  induction kids with
  | nil => intro index; rfl
  | cons kid kids ih =>
    intro index
    unfold carriedSlots carriedKeys
    rw [map_cons, map_cons, ih]
    unfold slotEntry
    rw [parseOrderSlot_slotText]
    rfl

theorem carriedKeys_map_snd (kids : List (Nat × Datum ν)) : ∀ index,
    (carriedKeys ρ τ index kids).map (·.2) =
      kids.map fun kid => .integer (ρ ((kid.1 + 1 : Nat) : Int)) := by
  induction kids with
  | nil => intro index; rfl
  | cons kid kids ih =>
    intro index
    unfold carriedKeys
    rw [map_cons, map_cons, ih]

variable {kids : List (Nat × Datum ν)} {index : Nat}

theorem path_of_mem_carriedKeys {e : SlotKey × Atom ν} (h : e ∈ carriedKeys ρ τ index kids) :
    ∃ j, index ≤ j ∧ e.1.path = [(j + 1) * ordStep] := by
  induction kids generalizing index with
  | nil => exact absurd h not_mem_nil
  | cons kid kids ih =>
    rcases mem_cons.mp h with rfl | hrest
    · exact ⟨index, Nat.le_refl index, rfl⟩
    · obtain ⟨j, hj, hp⟩ := ih hrest
      exact ⟨j, Nat.le_of_succ_le hj, hp⟩

/-- The keys grow from slot to slot. -/
theorem carriedKeys_sorted (kids : List (Nat × Datum ν)) : ∀ index,
    (carriedKeys ρ τ index kids).Pairwise fun a b => a.1.path < b.1.path := by
  induction kids with
  | nil => intro index; exact List.Pairwise.nil
  | cons kid kids ih =>
    intro index
    refine List.Pairwise.cons ?_ (ih (index + 1))
    intro e he
    obtain ⟨j, hj, hp⟩ := path_of_mem_carriedKeys ρ τ he
    rw [hp]
    refine cons_lt_cons_iff.mpr (Or.inl ?_)
    unfold ordStep
    omega

theorem mem_carriedSlots (id : Nat) {e : (_ : String) × Atom ν} :
    e ∈ carriedSlots ρ τ index kids ↔ ∃ t ∈ slotFacts id index kids,
      (carried ρ τ fm t).pred = e.1 ∧ (carried ρ τ fm t).obj = e.2 := by
  induction kids generalizing index with
  | nil => simp [carriedSlots, slotFacts]
  | cons kid kids ih =>
    unfold carriedSlots slotFacts
    rw [mem_cons, ih]
    simp only [mem_cons, exists_eq_or_imp, carried_slotFact]
    constructor
    · rintro (rfl | h)
      · exact Or.inl ⟨rfl, rfl⟩
      · exact Or.inr h
    · rintro (⟨hpred, hobj⟩ | h)
      · exact Or.inl (Sigma.ext hpred.symm (heq_of_eq hobj.symm))
      · exact Or.inr h

end Carried

/-! ### Building a walk -/

section Walk

variable {w : HashOrder} {de : String → Atom ν → Option (Atom ν)} {ps : Props ν} {ρ : Int → Int}
  {τ : Nat → Nat} {fm : Atom ν → Atom ν} {ta : Datum ν} {k : String}

/-- A child's part of the table is held too. -/
theorem Gives.kid {n : Nat} {d : Datum ν} {es : List (Datum ν)}
    (hg : Gives ρ τ fm ps n d) (h : IsSeq d k es ta)
    {kid : Nat × Datum ν} (hkid : kid ∈ kidsOf n es ta) :
    Gives ρ τ fm ps kid.1 kid.2 := by
  intro s hs p o hp
  have hr := kid_inRange h hkid hs
  rw [hg s ⟨Nat.lt_of_succ_lt hr.1, hr.2⟩ p o hp]
  constructor
  · rintro ⟨t, ht, hsu, hcar⟩
    exact ⟨t, mem_kid_of_inRange h ht hkid hs hsu, hsu, hcar⟩
  · rintro ⟨t, ht, hcar⟩
    exact ⟨t, (mem_walk_node h).mpr (Or.inr ⟨kid, hkid, ht⟩), hcar⟩

variable {n : Nat} {d : Datum ν} {es : List (Datum ν)}

/-- What a node's own entry holds. -/
theorem Gives.own (hg : Gives ρ τ fm ps n d)
    (h : IsSeq d k es ta) {p : String} {o : Atom ν} (hp : isStructural p = true) :
    ps.ref (ρ ((n + 1 : Nat) : Int)) p = some o ↔
      ∃ t ∈ ownFacts (n + 1) k es ta, (carried ρ τ fm t).pred = p ∧ (carried ρ τ fm t).obj = o := by
  rw [hg (n + 1) ⟨Nat.lt_succ_self n, lt_walk d n⟩ p o hp]
  constructor
  · rintro ⟨t, ht, hs, hcar⟩
    exact ⟨t, mem_own_of_subj h ht hs, hcar⟩
  · rintro ⟨t, ht, hcar⟩
    exact ⟨t, (mem_walk_node h).mpr (Or.inl ht), subj_of_mem_ownFacts ht, hcar⟩

theorem Gives.kind {n : Nat} {d : Datum ν} {es : List (Datum ν)}
    (hg : Gives ρ τ fm ps n d) (h : IsSeq d k es ta) :
    ps.ref (ρ ((n + 1 : Nat) : Int)) "kind" = some (.string k) := by
  refine (hg.own h rfl).mpr ⟨kindFact (n + 1) k, mem_cons_self, ?_⟩
  rw [carried_kindFact]
  exact ⟨rfl, rfl⟩

/-- **The children of a node come back in the order the walk took them.** -/
theorem Gives.children (w : HashOrder) {kind : String} {tail : Datum ν}
    (hgives : Gives ρ τ fm ps n d) (h : IsSeq d kind es tail) :
    orderedSlotChildren w (ps.node (ρ ((n + 1 : Nat) : Int))) =
      (starts (n + 1) es).map fun kid => .integer (ρ ((kid.1 + 1 : Nat) : Int)) := by
  rw [← carriedKeys_map_snd ρ τ (starts (n + 1) es) 0]
  refine orderedSlotChildren_eq w _ (carriedSlots ρ τ 0 (starts (n + 1) es)) _ ?_
    (carriedSlots_map ρ τ _ 0) (carriedKeys_sorted ρ τ _ 0)
  intro e
  have hheld : isOrderSlot e.1 = true → (e ∈ (ps.node (ρ ((n + 1 : Nat) : Int))).entries ↔
        ∃ t ∈ ownFacts (n + 1) kind es tail, (carried ρ τ fm t).pred = e.1 ∧
          (carried ρ τ fm t).obj = e.2) := by
    intro hslot
    rw [show e = ⟨e.1, e.2⟩ from rfl, mem_node_entries]
    exact hgives.own h (by simp [isStructural, isRefPred, hslot])
  rw [mem_carriedSlots ρ τ fm (n + 1)]
  constructor
  · rintro ⟨t, ht, hpred, hobj⟩
    have hslot : isOrderSlot e.1 = true := by
      obtain ⟨i, kid, -, rfl⟩ := mem_slotFacts.mp ht
      rw [← hpred, carried_slotFact]
      unfold isOrderSlot
      rw [parseOrderSlot_slotText]
      rfl
    refine ⟨(hheld hslot).mpr ⟨t, ?_, hpred, hobj⟩, hslot⟩
    exact mem_cons_of_mem _ (mem_append_left _ ht)
  · rintro ⟨hmem, hslot⟩
    obtain ⟨t, ht, hpred, hobj⟩ := (hheld hslot).mp hmem
    refine ⟨t, ?_, hpred, hobj⟩
    -- neither the kind nor the tail hangs off an order slot
    rcases mem_ownFacts.mp ht with rfl | ⟨i, kid, hget, rfl⟩ | ⟨kid, -, rfl⟩
    · rw [carried_kindFact] at hpred
      rw [← show "kind" = e.1 from hpred] at hslot
      exact absurd hslot (by decide)
    · exact mem_slotFacts.mpr ⟨i, kid, hget, by rw [Nat.zero_add]⟩
    · rw [carried_tailFact] at hpred
      rw [← show "tail" = e.1 from hpred] at hslot
      exact absurd hslot (by decide)

/-- The tail of a node, when it has one. -/
theorem Gives.tail {n : Nat} {d : Datum ν} {k : String} {es : List (Datum ν)}
    {ta : Datum ν} (hg : Gives ρ τ fm ps n d) (h : IsSeq d k es ta) :
    ps.ref (ρ ((n + 1 : Nat) : Int)) "tail" =
      ((starts (stop (n + 1) es) (tailKids ta)).head?).map fun kid =>
        .integer (ρ ((kid.1 + 1 : Nat) : Int)) := by
  have hown : ∀ o, ps.ref (ρ ((n + 1 : Nat) : Int)) "tail" = some o ↔
      ∃ kid ∈ starts (stop (n + 1) es) (tailKids ta),
        (.integer (ρ ((kid.1 + 1 : Nat) : Int))) = o := by
    intro o
    rw [hg.own h rfl]
    constructor
    · rintro ⟨t, ht, hp, hobj⟩
      rcases mem_ownFacts.mp ht with rfl | ⟨i, kid, -, rfl⟩ | ⟨kid, hkid, rfl⟩
      · rw [carried_kindFact] at hp
        exact absurd (show "kind" = "tail" from hp) (by decide)
      · rw [carried_slotFact] at hp
        have hpl := congrArg place hp
        rw [place_slotText, place_tail] at hpl
        simp at hpl
      · rw [carried_tailFact] at hobj
        exact ⟨kid, hkid, hobj⟩
    · rintro ⟨kid, hkid, rfl⟩
      refine ⟨tailFact (n + 1) (kid.1 + 1), mem_ownFacts.mpr (Or.inr (Or.inr ⟨kid, hkid, rfl⟩)), ?_⟩
      rw [carried_tailFact]
      exact ⟨rfl, rfl⟩
  cases hk : starts (stop (n + 1) es) (tailKids ta) with
  | nil =>
    refine Option.eq_none_iff_forall_ne_some.mpr ?_
    intro o ho
    obtain ⟨kid, hkid, -⟩ := (hown o).mp ho
    rw [hk] at hkid
    exact not_mem_nil hkid
  | cons kid kids =>
    exact (hown _).mpr ⟨kid, by rw [hk]; exact mem_cons_self, rfl⟩

/-- A leaf's entry. -/
theorem Gives.leaf {a : Atom ν} (hg : Gives ρ τ fm ps n (.atom a)) :
    ps.ref (ρ ((n + 1 : Nat) : Int)) "kind" = some (.string a.kind) ∧
      ps.ref (ρ ((n + 1 : Nat) : Int)) "v" = some (fm a) := by
  have hr : InRange n (.atom a) (n + 1) := ⟨Nat.lt_succ_self n, lt_walk _ n⟩
  have hf : (walk n (.atom a)).2 = leafFacts (n + 1) a := by rw [walk]
  constructor
  · refine (hg (n + 1) hr "kind" _ rfl).mpr ⟨kindFact (n + 1) a.kind, ?_, rfl, ?_⟩
    · rw [hf]
      exact mem_cons_self
    · rw [carried_kindFact]
      exact ⟨rfl, rfl⟩
  · refine (hg (n + 1) hr "v" _ rfl).mpr ⟨⟨((n + 1 : Nat) : Int), "v", a⟩, ?_, rfl, ?_⟩
    · rw [hf]
      exact mem_cons_of_mem _ mem_cons_self
    · rw [carried_value]
      exact ⟨rfl, rfl⟩

theorem starts_map_snd (ds : List (Datum ν)) : ∀ n, (starts n ds).map (·.2) = ds := by
  induction ds with
  | nil => intro n; rfl
  | cons d ds ih => intro n; exact congrArg (d :: ·) (ih _)

/-- **A table that holds a walk builds the datum**, with fuel for as many nodes as it has. -/
theorem build_walk (hdec : ∀ a : Atom ν, de a.kind (fm a) = some a) (d : Datum ν) :
    ∀ {n : Nat}, Gives ρ τ fm ps n d → ∀ k, (walk n d).1 ≤ n + k →
      build w de ps k (.integer (ρ ((n + 1 : Nat) : Int))) = some d := by
  have hf : ∀ {d : Datum ν} {n k : Nat}, (walk n d).1 ≤ n + k → ∃ f, k = f + 1 := by
    intro d n k hle
    have := lt_walk d n
    exact ⟨k - 1, by omega⟩
  induction d using Datum.nodeInduction with
  | null =>
    intro n hg k hle
    obtain ⟨f, rfl⟩ := hf hle
    have hr : InRange n (.null : Datum ν) (n + 1) := ⟨Nat.lt_succ_self n, lt_walk _ n⟩
    refine build_nil f ((hg (n + 1) hr "kind" _ rfl).mpr ⟨kindFact (n + 1) "nil", ?_, rfl, ?_⟩)
    · rw [walk]
      exact mem_cons_self
    · rw [carried_kindFact]
      exact ⟨rfl, rfl⟩
  | atom a =>
    intro n hg k hle
    obtain ⟨f, rfl⟩ := hf hle
    obtain ⟨hki, hv⟩ := hg.leaf
    have hlea : a.kind ∈ leafKinds := by cases a <;> simp [Atom.kind, leafKinds]
    rw [build_leaf f hki hlea hv, hdec a]
    rfl
  | node d kd es tail h ih =>
    intro n hg k hle
    obtain ⟨f, rfl⟩ := hf hle
    have hb : ∀ kid ∈ kidsOf n es tail,
        build w de ps f (.integer (ρ ((kid.1 + 1 : Nat) : Int))) = some kid.2 := by
      intro kid hkid
      obtain ⟨hmem, hlow, hh⟩ := mem_starts hkid
      have hs := walk_node_stop h n
      exact ih kid.2 hmem (hg.kid h hkid) f (by omega)
    have hsp : kidsOf n es tail =
        starts (n + 1) es ++ starts (stop (n + 1) es) (tailKids tail) := starts_append _ _ _
    have he : (orderedSlotChildren w (ps.node (ρ ((n + 1 : Nat) : Int)))).mapM
        (build w de ps f) = some es := by
      have hk : ∀ kid ∈ starts (n + 1) es,
          build w de ps f (.integer (ρ ((kid.1 + 1 : Nat) : Int))) = some kid.2 :=
        fun kid hkid => hb kid (by rw [hsp]; exact mem_append_left _ hkid)
      rw [hg.children w h, mapM_map]
      exact (mapM_of_forall hk).trans (congrArg some (starts_map_snd es (n + 1)))
    have hta : (match ps.ref (ρ ((n + 1 : Nat) : Int)) "tail" with
        | some t => build w de ps f t
        | none => some .null) = some tail := by
      rw [hg.tail h]
      have hl : ∀ t : Datum ν, tailKids tail = [t] →  build w de ps f
            (.integer (ρ ((stop (n + 1) es + 1 : Nat) : Int))) = some t := by
        intro t ht
        refine hb (stop (n + 1) es, t) ?_
        rw [hsp, ht]
        exact mem_append_right _ mem_cons_self
      cases tail with
      | null => rfl
      | pair _ _ | vector _ | atom _ => exact hl _ rfl
    rw [build_seq f (hg.kind h) h.kind_eq he hta, h.rebuilt]

end Walk

/-! ### Facts that are given back -/

section Given

variable {ρ : Int → Int} {τ : Nat → Nat} {fm : Atom ν → Atom ν}

theorem subj_carried (t : Triple ν) : (carried ρ τ fm t).subj = ρ t.subj := by
  unfold carried
  by_cases h : t.pred = "v"
  · rw [if_pos h]
  · rw [if_neg h]
    rfl

variable {t : Triple ν} {fs : List (Triple ν)}

/-- A fact keeps its place. -/
theorem place_carried (h : Written fs t) :
    place (carried ρ τ fm t).pred = place t.pred := by
  cases h with
  | kind id kind => rw [carried_kindFact, place_kindFact]; exact place_kind
  | value id a _ => rw [carried_value]
  | slot id index c => rw [carried_slotFact, place_slotFact, place_slotText]
  | tail id c => rw [carried_tailFact, place_tailFact]; exact place_tail

theorem structural_carried (h : Written fs t) :
    isStructural (carried ρ τ fm t).pred = true := by
  cases h with
  | kind id kind => rw [carried_kindFact]; rfl
  | value id a _ => rw [carried_value]; rfl
  | slot id index c => rw [carried_slotFact]; simp [isStructural]
  | tail id c => rw [carried_tailFact]; rfl

/-- **Facts of a walk beside facts that take none of their places give the datum.** -/
theorem gives_of_perm {n : Nat} {d : Datum ν} {ex stored : List (Triple ν)}
    (hinj : ∀ s s', InRange n d s → InRange n d s' → ρ (s : Int) = ρ (s' : Int) → s = s')
    (hpe : stored.Perm ((walk n d).2.map (carried ρ τ fm) ++ ex))
    (ha : ∀ e ∈ ex, (∃ t ∈ (walk n d).2.map (carried ρ τ fm), t.subj = e.subj) →
      isStructural e.pred = false) :
    Gives ρ τ fm (triplesToProps stored) n d := by
  have hex : ∀ e ∈ ex, ∀ s, InRange n d s → e.subj = ρ s → isStructural e.pred = false := by
    intro e he s hs hsu
    obtain ⟨t, ht, hts⟩ := exists_fact d hs
    refine ha e he ⟨carried ρ τ fm t, mem_map_of_mem ht, ?_⟩
    rw [subj_carried, hts, hsu]
  have hl : ∀ t ∈ (walk n d).2, ∀ s, InRange n d s → (carried ρ τ fm t).subj = ρ s →
      t.subj = s := by
    intro t ht s hs hsu
    obtain ⟨s', hs', hr⟩ := subj_of_mem_walk d ht
    rw [subj_carried, hs'] at hsu
    rw [hs', hinj s' s hr hs hsu]
  intro s hs p o hp
  constructor
  · intro href
    rcases List.mem_append.mp (hpe.mem_iff.mp (mem_of_ref href)) with hmem | hmem
    · obtain ⟨t, ht, hcar⟩ := mem_map.mp hmem
      refine ⟨t, ht, hl t ht s hs (by rw [hcar]), by rw [hcar], by rw [hcar]⟩
    · have hf := hex _ hmem s hs rfl
      exact absurd hp (Bool.eq_false_iff.mp hf)
  · rintro ⟨t, ht, hsu, rfl, rfl⟩
    have hst : carried ρ τ fm t ∈ stored :=
      hpe.mem_iff.mpr (mem_append_left _ (mem_map_of_mem ht))
    have hid : (carried ρ τ fm t).subj = ρ s := by rw [subj_carried, hsu]
    rw [← hid]
    refine ref_of_mem hst ?_
    intro t' ht' hsu' hp'
    rcases List.mem_append.mp (hpe.mem_iff.mp ht') with hmem | hmem
    · obtain ⟨u, hu, rfl⟩ := mem_map.mp hmem
      have hus := hl u hu s hs (hsu'.trans hid)
      have hpl := congrArg place hp'
      rw [place_carried (written_of_mem_walk d hu), place_carried (written_of_mem_walk d ht)] at hpl
      rw [walk_functional d hu ht (hus.trans hsu.symm) hpl]
    · have hf := hex t' hmem s hs (hsu'.trans hid)
      rw [hp'] at hf
      exact absurd (structural_carried (written_of_mem_walk d ht)) (Bool.eq_false_iff.mp hf)

end Given

/-- Facts that are kept as they are. -/
theorem carried_self {fs : List (Triple ν)} {t : Triple ν} (h : Written fs t) :
    carried id id id t = t := by
  cases h with
  | kind id kind => rw [carried_kindFact]; rfl
  | value id a _ => rw [carried_value]; rfl
  | slot id index c => rw [carried_slotFact]; rfl
  | tail id c => rw [carried_tailFact]; rfl

/-- **Facts just written build the datum.** -/
theorem factsToDatum_datumToFacts (w : HashOrder) (d : Datum ν) {k : Nat} (hf : nodeCount d ≤ k) :
    factsToDatum w k (datumToFacts d).1 (datumToFacts d).2 = some d := by
  have hs : (walk 0 d).2.map (carried id id id) = (walk 0 d).2 := by
    rw [map_congr_left fun t ht => carried_self (written_of_mem_walk d ht)]
    exact map_id' _
  have hg : Gives id id id (triplesToProps (walk 0 d).2) 0 d := by
    have hp : (walk 0 d).2.Perm ((walk 0 d).2.map (carried id id id) ++ []) := by
      rw [hs, append_nil]
    exact gives_of_perm (fun s s' _ _ heq => Int.ofNat_inj.mp heq) hp
      (forall_mem_nil _)
  exact build_walk (fun _ => rfl) d hg k (by rw [Nat.zero_add]; exact hf)

end Beagle.Facts
