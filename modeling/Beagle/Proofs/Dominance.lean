/-
What the dominator index knows.

The index ends when a pass changes nothing.  Then the parent of each reachable block is what was
met above all its predecessors, so it lies above each of them, and a block that the index says
dominates another is on every walk to it.
-/
import Beagle.Lib.Graphs
import Beagle.Native.Obligations

namespace Beagle.Obligations

open Beagle.Lib List
open Beagle.Lib.Dominators
open Beagle.NativeCore

namespace Table

variable {β : Type}

@[simp] theorem get_nil (key : String) : Table.get ([] : Table β) key = none := rfl

theorem get_assoc (t : Table β) (key : String) (v : β) (key' : String) :
    Table.get (Table.assoc t key v) key' =
      if key = key' then some v else Table.get t key' := by
  unfold Table.get Table.assoc
  rw [Likeness.get_set, Likeness.ofEq_same]
  by_cases h : key = key'
  · rw [if_pos (beq_iff_eq.mpr h), if_pos h]
  · rw [if_neg (by simpa using h), if_neg h]

theorem get_assoc_self (t : Table β) (key : String) (value : β) :
    Table.get (Table.assoc t key value) key = some value := by
  rw [get_assoc, if_pos rfl]

variable {key key' : String}

theorem get_assoc_of_ne {t : Table β} {v : β} (h : key ≠ key') :
    Table.get (Table.assoc t key v) key' = Table.get t key' := by
  rw [get_assoc, if_neg h]

theorem isSome_assoc {t : Table β} {v : β}
    (h : (Table.get t key').isSome) : (Table.get (Table.assoc t key v) key').isSome := by
  rw [get_assoc]
  by_cases hs : key = key'
  · rw [if_pos hs]
    rfl
  · rw [if_neg hs]
    exact h

/-- Putting what is there changes nothing. -/
theorem assoc_of_get {table : Table β} {key : String} {v : β}
    (h : Table.get table key = some v) : Table.assoc table key v = table := by
  induction table with
  | nil => simp at h
  | cons e r ih =>
    obtain ⟨key', v'⟩ := e
    unfold Table.get at h ih
    unfold Table.assoc at ih ⊢
    rw [Likeness.get_cons] at h
    rw [Likeness.set]
    rw [Likeness.ofEq_same] at h ⊢
    by_cases hs : key' = key
    · rw [if_pos (beq_iff_eq.mpr hs)] at h ⊢
      rw [Option.some.inj h]
    · rw [if_neg (by simpa using hs)] at h ⊢
      rw [ih h]

end Table

theorem id_eq {id other : NativeId} (h : id.value = other.value) : id = other := by
  cases id
  cases other
  exact congrArg NativeId.mk h

/-! ### Predecessors -/

/-- What one step brings about and every step keeps holds at the end. -/
theorem foldl_of_mem {α σ : Type} (P : σ → Prop) {st : σ → α → σ} {a : α}
    (hk : ∀ s b, P s → P (st s b)) (hb : ∀ s, P (st s a)) :
    ∀ {r : List α}, a ∈ r → ∀ s, P (r.foldl st s) := by
  intro r
  induction r with
  | nil => exact fun h => absurd h not_mem_nil
  | cons b r ih =>
    intro h s
    rw [foldl_cons]
    rcases mem_cons.mp h with rfl | h
    · have hst := hb s
      clear ih h
      generalize st s a = t at hst
      induction r generalizing t with
      | nil => exact hst
      | cons c r ih => exact ih _ (hk t c hst)
    · exact ih h _

theorem foldl_keeps {α σ : Type} (P : σ → Prop) {st : σ → α → σ}
    (hk : ∀ s b, P s → P (st s b)) {s : σ} (h : P s) (r : List α) :
    P (r.foldl st s) := by
  induction r generalizing s with
  | nil => exact h
  | cons b r ih => exact ih (hk s b h)

theorem addPredecessor_keeps {bi o s : NativeId} {key : String}
    {c : Table (List NativeId)} (h : o ∈ (Table.get c key).getD []) :
    o ∈ (Table.get (addPredecessor bi c s) key).getD [] := by
  unfold addPredecessor
  rw [Table.get_assoc]
  by_cases hkey : s.value = key
  · subst hkey
    rw [if_pos rfl]
    exact mem_append_left _ h
  · rw [if_neg hkey]
    exact h

theorem mem_addPredecessor (bi s : NativeId) (c : Table (List NativeId)) :
    bi ∈ (Table.get (addPredecessor bi c s) s.value).getD [] := by
  unfold addPredecessor
  rw [Table.get_assoc_self]
  exact mem_append_right _ (mem_singleton_self _)

variable {block : BasicBlock} {bs : Table BasicBlock} {p : List NativeId}
  {sn : List String} {ds : Table String}

theorem mem_predecessorIndex {bs : List BasicBlock} {s : NativeId}
    (hblk : block ∈ bs) (hs : s ∈ blockSuccessors block) :
    block.id ∈ (Table.get (predecessorIndex bs) s.value).getD [] := by
  let P (t : Table (List NativeId)) := block.id ∈ (Table.get t s.value).getD []
  refine foldl_of_mem P (fun t o h => ?_) (fun t => ?_) hblk []
  · exact foldl_keeps P (fun _ _ => addPredecessor_keeps) h _
  · exact @foldl_of_mem _ _ P (addPredecessor block.id) s
      (fun _ _ => addPredecessor_keeps) (mem_addPredecessor block.id s) _ hs t

/-! ### Reachable blocks -/

theorem blockIndex_spec (bs : List BasicBlock) :
    (∀ key block, Table.get (blockIndex bs) key = some block → block ∈ bs ∧ block.id.value = key) ∧
    ∀ block ∈ bs, (Table.get (blockIndex bs) block.id.value).isSome := by
  constructor
  · refine foldlRecOn bs _ (motive := fun table => ∀ key block, Table.get table key = some block →
        block ∈ bs ∧ block.id.value = key) ?_ ?_
    · exact fun key block h => absurd h (by simp)
    · intro table ih block hblk key found h
      split at h
      · rw [Table.get_assoc] at h
        by_cases hkey : block.id.value = key
        · rw [if_pos hkey, Option.some.injEq] at h
          subst h
          exact ⟨hblk, hkey⟩
        · rw [if_neg hkey] at h
          exact ih key found h
      · exact ih key found h
  · intro block hblk
    refine foldl_of_mem (fun table => (Table.get table block.id.value).isSome)
      (fun table other h => ?_) (fun table => ?_) hblk []
    · split
      · exact Table.isSome_assoc h
      · exact h
    · split
      · rw [Table.get_assoc_self]
        rfl
      · rename_i found hf
        rw [hf]
        rfl

/-- What holds of the blocks that are ordered while others are pending. -/
structure Ordered (blocks : Table BasicBlock) (pending : List NativeId) (seen : List String)
    (order : List NativeId) : Prop where
  nodup : order.Nodup
  seen_of_mem : ∀ current ∈ order, current.value ∈ seen
  mem_of_seen : ∀ key ∈ seen, (Table.get blocks key).isSome → (⟨key⟩ : NativeId) ∈ order
  known : ∀ current ∈ order, (Table.get blocks current.value).isSome
  closed : ∀ current ∈ order, ∀ block, Table.get blocks current.value = some block →
    ∀ successor ∈ blockSuccessors block, successor.value ∈ seen ∨ successor ∈ pending

theorem Ordered.skip {bs : Table BasicBlock} {c : NativeId} {p ord : List NativeId}
    {sn : List String} (h : Ordered bs (c :: p) sn ord)
    (hs : c.value ∈ sn) : Ordered bs p sn ord :=
  { h with
    closed := by
      intro o ho block hblk s hsu
      rcases h.closed o ho block hblk s hsu with h | h
      · exact Or.inl h
      · rcases mem_cons.mp h with rfl | h
        · exact Or.inl hs
        · exact Or.inr h }

theorem Ordered.unknown {c : NativeId} {ord : List NativeId} (h : Ordered bs (c :: p) sn ord)
    (hn : Table.get bs c.value = none) :
    Ordered bs p (c.value :: sn) ord where
  nodup := h.nodup
  seen_of_mem o ho := mem_cons_of_mem _ (h.seen_of_mem o ho)
  mem_of_seen key hkey hsome := by
    rcases mem_cons.mp hkey with rfl | hkey
    · rw [hn] at hsome
      simp at hsome
    · exact h.mem_of_seen key hkey hsome
  known := h.known
  closed := by
    intro o ho block hblk s hs
    rcases h.closed o ho block hblk s hs with h | h
    · exact Or.inl (mem_cons_of_mem _ h)
    · rcases mem_cons.mp h with rfl | h
      · exact Or.inl mem_cons_self
      · exact Or.inr h

theorem Ordered.visit {c : NativeId} {ord : List NativeId}
    (h : Ordered bs (c :: p) sn ord) (hnew : c.value ∉ sn)
    (hblk : Table.get bs c.value = some block) :
    Ordered bs (p ++ blockSuccessors block) (c.value :: sn) (ord ++ [c]) where
  nodup := by
    refine nodup_append.mpr ⟨h.nodup, nodup_singleton _, ?_⟩
    intro o ho l hl hsa
    rw [mem_singleton] at hl
    subst hl
    subst hsa
    exact hnew (h.seen_of_mem o ho)
  seen_of_mem o ho := by
    rcases List.mem_append.mp ho with ho | ho
    · exact mem_cons_of_mem _ (h.seen_of_mem o ho)
    · rw [mem_singleton.mp ho]
      exact mem_cons_self
  mem_of_seen key hkey hsome := by
    rcases mem_cons.mp hkey with rfl | hkey
    · exact mem_append_right _ (mem_singleton_self _)
    · exact mem_append_left _ (h.mem_of_seen key hkey hsome)
  known o ho := by
    rcases List.mem_append.mp ho with ho | ho
    · exact h.known o ho
    · rw [mem_singleton.mp ho, hblk]
      rfl
  closed := by
    intro o ho fd hf s hs
    rcases List.mem_append.mp ho with ho | ho
    · rcases h.closed o ho fd hf s hs with h | h
      · exact Or.inl (mem_cons_of_mem _ h)
      · rcases mem_cons.mp h with rfl | h
        · exact Or.inl mem_cons_self
        · exact Or.inr (mem_append_left _ h)
    · rw [mem_singleton.mp ho, hblk, Option.some.injEq] at hf
      subst hf
      exact Or.inr (mem_append_right _ hs)

theorem reachableFrom_ordered {k : Nat} {ord res : List NativeId} (h : Ordered bs p sn ord)
    (hrun : reachableFrom bs k p sn ord = some res) :
    (∃ sn', Ordered bs [] sn' res) ∧ ∃ more, res = ord ++ more := by
  induction k generalizing p sn ord with
  | zero => simp [reachableFrom] at hrun
  | succ k ih =>
    cases p with
    | nil =>
      rw [reachableFrom, Option.some.injEq] at hrun
      subst hrun
      exact ⟨⟨sn, h⟩, [], (append_nil _).symm⟩
    | cons c p =>
      rw [reachableFrom] at hrun
      by_cases hs : c.value ∈ sn
      · rw [if_pos hs] at hrun
        exact ih (h.skip hs) hrun
      · rw [if_neg hs] at hrun
        cases hblk : Table.get bs c.value with
        | none =>
          rw [hblk] at hrun
          exact ih (h.unknown hblk) hrun
        | some block =>
          rw [hblk] at hrun
          obtain ⟨hord, more, hm⟩ := ih (h.visit hs hblk) hrun
          exact ⟨hord, c :: more, by rw [hm, append_assoc]; rfl⟩

/-- The order of the reachable blocks: it starts with the entry and goes on with successors. -/
structure Reaches (blocks : Table BasicBlock) (entry : NativeId) (order : List NativeId) : Prop where
  nodup : order.Nodup
  known : ∀ current ∈ order, (Table.get blocks current.value).isSome
  starts : (Table.get blocks entry.value).isSome → ∃ rest, order = entry :: rest
  closed : ∀ current ∈ order, ∀ block, Table.get blocks current.value = some block →
    ∀ successor ∈ blockSuccessors block, (Table.get blocks successor.value).isSome →
      successor ∈ order

theorem reachableBlockOrder_reaches {k : Nat} {e : NativeId} {ord : List NativeId}
    (hrun : reachableBlockOrder k bs e = some ord) : Reaches bs e ord := by
  have hst : Ordered bs [e] [] [] :=
    { nodup := nodup_nil
      seen_of_mem := forall_mem_nil _
      mem_of_seen := forall_mem_nil _
      known := forall_mem_nil _
      closed := forall_mem_nil _ }
  obtain ⟨⟨sn, hord⟩, -⟩ := reachableFrom_ordered hst hrun
  refine ⟨hord.nodup, hord.known, fun hent => ?_, ?_⟩
  · unfold reachableBlockOrder at hrun
    cases k with
    | zero => simp [reachableFrom] at hrun
    | succ k =>
      obtain ⟨block, hblk⟩ := Option.isSome_iff_exists.mp hent
      rw [reachableFrom, if_neg not_mem_nil, hblk] at hrun
      obtain ⟨-, m, hm⟩ := reachableFrom_ordered (hst.visit not_mem_nil hblk) hrun
      exact ⟨m, hm⟩
  · intro c hcur block hblk s hsu hs
    rcases hord.closed c hcur block hblk s hsu with h | h
    · exact hord.mem_of_seen _ h hs
    · exact absurd h not_mem_nil

/-! ### Parents -/

/-- Every block with a parent has a name, and its parent has a parent. -/
def Closed (dominators : Table String) : Prop :=
  ∀ key parent, Table.get dominators key = some parent →
    key ≠ "" ∧ (Table.get dominators parent).isSome

theorem Closed.named (h : Closed ds) {key : String}
    (hs : (Table.get ds key).isSome) : key ≠ "" := by
  obtain ⟨p, hpar⟩ := Option.isSome_iff_exists.mp hs
  exact (h key p hpar).1

theorem Closed.above {ds : Table String} (h : Closed ds) {key a : String}
    (hs : (Table.get ds key).isSome) (ha : Above (Table.get ds) key a) :
    (Table.get ds a).isSome := by
  induction ha with
  | refl => exact hs
  | tail _ hup _ => exact (h _ _ hup).2

theorem Closed.assoc (h : Closed ds) {key p : String} (hkey : key ≠ "")
    (hpar : (Table.get ds p).isSome) :
    Closed (Table.assoc ds key p) := by
  intro key' p' hget
  rw [Table.get_assoc] at hget
  by_cases hs : key = key'
  · rw [if_pos hs, Option.some.injEq] at hget
    subst hs
    subst hget
    exact ⟨hkey, Table.isSome_assoc hpar⟩
  · rw [if_neg hs] at hget
    exact ⟨(h _ _ hget).1, Table.isSome_assoc (h _ _ hget).2⟩

theorem intersect_above {ord : Table Int} (hcl : Closed ds) {k : Nat}
    {l r met : String} (hle : (Table.get ds l).isSome)
    (hri : (Table.get ds r).isSome)
    (hrun : intersectDominatorChains ds ord k l r = some met) :
    Above (Table.get ds) l met ∧ Above (Table.get ds) r met := by
  induction k generalizing l r with
  | zero => simp [intersectDominatorChains] at hrun
  | succ k ih =>
    rw [intersectDominatorChains] at hrun
    by_cases hs : l = r
    · rw [if_pos hs, Option.some.injEq] at hrun
      subst hrun
      subst hs
      exact ⟨.refl, .refl⟩
    · rw [if_neg hs] at hrun
      split at hrun
      · obtain ⟨p, hpar⟩ := Option.isSome_iff_exists.mp hle
        rw [hpar, Option.getD_some] at hrun
        obtain ⟨hl, hr⟩ := ih (hcl _ _ hpar).2 hri hrun
        exact ⟨.head hpar hl, hr⟩
      · obtain ⟨p, hpar⟩ := Option.isSome_iff_exists.mp hri
        rw [hpar, Option.getD_some] at hrun
        obtain ⟨hl, hr⟩ := ih hle (hcl _ _ hpar).2 hrun
        exact ⟨hl, .head hpar hr⟩

/-- A candidate that is met has a parent and lies above the candidate before and above every
predecessor that has one. -/
theorem commonFrom_above {k : Nat} {ord : Table Int} (hcl : Closed ds)
    {c met : String} {prs : List NativeId}
    (hc : c ≠ "" → (Table.get ds c).isSome)
    (hrun : commonFrom k ds ord c prs = some met) :
    (met ≠ "" → (Table.get ds met).isSome) ∧
    (c ≠ "" → met ≠ "" ∧ Above (Table.get ds) c met) ∧
    ∀ p ∈ prs, (Table.get ds p.value).isSome → met ≠ "" ∧ Above (Table.get ds) p.value met := by
  induction prs generalizing c with
  | nil =>
    rw [commonFrom, Option.some.injEq] at hrun
    subst hrun
    exact ⟨hc, fun h => ⟨h, .refl⟩, forall_mem_nil _⟩
  | cons p r ih =>
    rw [commonFrom] at hrun
    by_cases hk : (Table.get ds p.value).isSome
    · rw [if_pos hk] at hrun
      have hn := hcl.named hk
      by_cases hemp : c = ""
      · rw [if_pos hemp] at hrun
        obtain ⟨hmet, ha, hre⟩ := ih (fun _ => hk) hrun
        refine ⟨hmet, fun h => absurd hemp h, ?_⟩
        intro o ho hs
        rcases mem_cons.mp ho with rfl | ho
        · exact ha hn
        · exact hre o ho hs
      · rw [if_neg hemp, Option.bind_eq_bind, Option.bind_eq_some_iff] at hrun
        obtain ⟨m, hmid, hrun⟩ := hrun
        obtain ⟨hl, hr⟩ := intersect_above hcl hk (hc hemp) hmid
        have hs := hcl.above hk hl
        obtain ⟨hmet, ha, hre⟩ := ih (fun _ => hs) hrun
        obtain ⟨hne, hma⟩ := ha (hcl.named hs)
        refine ⟨hmet, fun _ => ⟨hne, hr.trans hma⟩, ?_⟩
        intro o ho ho'
        rcases mem_cons.mp ho with rfl | ho
        · exact ⟨hne, hl.trans hma⟩
        · exact hre o ho ho'
    · rw [if_neg hk] at hrun
      obtain ⟨hmet, ha, hre⟩ := ih hc hrun
      refine ⟨hmet, ha, ?_⟩
      intro o ho hs
      rcases mem_cons.mp ho with rfl | ho
      · exact absurd hs hk
      · exact hre o ho hs

/-! ### Passes -/

section

variable {k : Nat} {prs : Table (List NativeId)} {ord : Table Int} {r : List NativeId}

/-- What a pass keeps. -/
theorem dominatorPass_keeps {c next : Table String}
    (hcl : Closed c) (hn : ∀ block ∈ r, block.value ≠ "")
    (hrun : dominatorPass k prs ord r c = some next) :
    Closed next ∧
    ∀ key : String, (∀ block ∈ r, block.value ≠ key) → Table.get next key = Table.get c key := by
  induction r generalizing c with
  | nil =>
    rw [dominatorPass, Option.some.injEq] at hrun
    subst hrun
    exact ⟨hcl, fun _ _ => rfl⟩
  | cons block r ih =>
    rw [dominatorPass, Option.bind_eq_bind, Option.bind_eq_some_iff] at hrun
    obtain ⟨cd, hc, hrun⟩ := hrun
    have hmet := (commonFrom_above hcl (fun h => absurd rfl h) hc).1
    have hn' : ∀ o ∈ r, o.value ≠ "" :=
      fun o h => hn o (mem_cons_of_mem _ h)
    by_cases hemp : cd = ""
    · rw [if_pos hemp] at hrun
      obtain ⟨hne, hk⟩ := ih hcl hn' hrun
      exact ⟨hne, fun key hkey => hk key fun o h => hkey o (mem_cons_of_mem _ h)⟩
    · rw [if_neg hemp] at hrun
      have ha := hcl.assoc (hn block mem_cons_self) (hmet hemp)
      obtain ⟨hne, hk⟩ := ih ha hn' hrun
      refine ⟨hne, fun key hkey => ?_⟩
      rw [hk key fun o h => hkey o (mem_cons_of_mem _ h),
        Table.get_assoc_of_ne (hkey block mem_cons_self)]

/-- In a pass that changes nothing every block has the parent that is met for it. -/
theorem dominatorPass_fixed {ds : Table String}
    (hcl : Closed ds) (hn : ∀ block ∈ r, block.value ≠ "") (hnd : r.Nodup)
    (hrun : dominatorPass k prs ord r ds = some ds) :
    ∀ block ∈ r, ∃ candidate, commonPredecessorDominator k ((Table.get prs block.value).getD []) ds
        ord = some candidate ∧
      (candidate ≠ "" → Table.get ds block.value = some candidate) := by
  induction r with
  | nil => exact forall_mem_nil _
  | cons block r ih =>
    rw [dominatorPass, Option.bind_eq_bind, Option.bind_eq_some_iff] at hrun
    obtain ⟨candidate, hc, hrun⟩ := hrun
    obtain ⟨hnew, hnd'⟩ := nodup_cons.mp hnd
    have hn' : ∀ o ∈ r, o.value ≠ "" :=
      fun o h => hn o (mem_cons_of_mem _ h)
    have hmet := (commonFrom_above hcl (fun h => absurd rfl h) hc).1
    have ho : ∀ o ∈ r, o.value ≠ block.value := by
      intro o h hs
      have hid : o = block := id_eq hs
      exact hnew (hid ▸ h)
    -- the entry that the pass has put is still there at its end, so it was there before
    have hpar : candidate ≠ "" → Table.get ds block.value = some candidate := by
      intro hne
      rw [if_neg hne] at hrun
      have ha := hcl.assoc (hn block mem_cons_self) (hmet hne)
      obtain ⟨-, hk⟩ := dominatorPass_keeps ha hn' hrun
      rw [hk block.value ho, Table.get_assoc_self]
    have hr : dominatorPass k prs ord r ds = some ds := by
      by_cases hemp : candidate = ""
      · rwa [if_pos hemp] at hrun
      · rwa [if_neg hemp, Table.assoc_of_get (hpar hemp)] at hrun
    intro o h
    rcases mem_cons.mp h with rfl | h
    · exact ⟨candidate, hc, hpar⟩
    · exact ih hn' hnd' hr o h

theorem dominatorPasses_fixed {ps : Nat} {s f : Table String}
    (hcl : Closed s) (hna : ∀ block ∈ r, block.value ≠ "")
    (hrun : dominatorPasses k prs ord r ps s = some f) :
    Closed f ∧ dominatorPass k prs ord r f = some f ∧
    ∀ key : String, (∀ block ∈ r, block.value ≠ key) → Table.get f key = Table.get s key := by
  induction ps generalizing s with
  | zero => simp [dominatorPasses] at hrun
  | succ ps ih =>
    rw [dominatorPasses, Option.bind_eq_bind, Option.bind_eq_some_iff] at hrun
    obtain ⟨next, hn, hrun⟩ := hrun
    obtain ⟨hcl', hk⟩ := dominatorPass_keeps hcl hna hn
    by_cases hs : s = next
    · rw [if_pos hs, Option.some.injEq] at hrun
      subst hrun
      exact ⟨hcl, by rw [hn, ← hs], fun _ _ => rfl⟩
    · rw [if_neg hs] at hrun
      obtain ⟨hfin, hf, hk'⟩ := ih hcl' hrun
      exact ⟨hfin, hf, fun key hkey => (hk' key hkey).trans (hk key hkey)⟩

end

/-! ### Walks through a function -/

/-- An edge of a function, between the names of two of its blocks. -/
def Edge (function : FunctionDef) (source target : String) : Prop :=
  ∃ block ∈ function.blocks, block.id.value = source ∧
    ∃ successor ∈ blockSuccessors block, successor.value = target ∧
      ∃ other ∈ function.blocks, other.id = successor

variable {fn : FunctionDef}

theorem eq_of_id (hnd : (fn.blocks.map (·.id)).Nodup) {other : BasicBlock}
    (hblk : block ∈ fn.blocks) (ho : other ∈ fn.blocks)
    (h : block.id = other.id) : block = other :=
  inj_on_of_nodup_map hnd hblk ho h

/-- The index at its end: every block that is walked to has a parent, which lies above the block
that the walk came from. -/
theorem dominatorIndex_walk {k : Nat} (hnd : (fn.blocks.map (·.id)).Nodup)
    (hent : ∃ block ∈ fn.blocks, block.id = fn.entryBlock)
    (hrun : dominatorIndex k fn = some ds) :
    Table.get ds fn.entryBlock.value = some fn.entryBlock.value ∧
    ∀ l key, Walk (Edge fn) fn.entryBlock.value l key → (Table.get ds key).isSome ∧
      ∀ t, Edge fn key t → t ≠ fn.entryBlock.value → ∀ parent, Table.get ds t = some parent →
          Above (Table.get ds) key parent := by
  unfold dominatorIndex at hrun
  rw [Option.bind_eq_bind, Option.bind_eq_some_iff] at hrun
  obtain ⟨r, hre, hrun⟩ := hrun
  have hr := reachableBlockOrder_reaches hre
  obtain ⟨hf, hidx⟩ := blockIndex_spec fn.blocks
  obtain ⟨eb, hmem, hid⟩ := hent
  obtain ⟨rest, rfl⟩ := hr.starts (by rw [← hid]; exact hidx eb hmem)
  rw [if_neg (by simp), tail_cons] at hrun
  have hn : ∀ block ∈ rest, block.value ≠ "" := by
    intro block hblk hemp
    obtain ⟨fd, hget⟩ := Option.isSome_iff_exists.mp (hr.known block (mem_cons_of_mem _ hblk))
    exact fd.named ((hf _ _ hget).2.trans hemp)
  have hen : fn.entryBlock.value ≠ "" := hid ▸ eb.named
  have hst : Closed [(fn.entryBlock.value, fn.entryBlock.value)] := by
    intro key parent h
    have hget := Table.get_assoc [] fn.entryBlock.value fn.entryBlock.value key
    rw [show Table.assoc [] fn.entryBlock.value fn.entryBlock.value =
      [(fn.entryBlock.value, fn.entryBlock.value)] from rfl, h] at hget
    by_cases hs : fn.entryBlock.value = key
    · rw [if_pos hs, Option.some.injEq] at hget
      subst hget
      refine ⟨hs ▸ hen, ?_⟩
      exact Option.isSome_iff_exists.mpr ⟨_, Table.get_assoc_self [] fn.entryBlock.value _⟩
    · rw [if_neg hs] at hget
      simp at hget
  obtain ⟨hcl, hfi, hk⟩ := dominatorPasses_fixed hst hn hrun
  obtain ⟨hnew, hrn⟩ := nodup_cons.mp hr.nodup
  have hp := dominatorPass_fixed hcl hn hrn hfi
  have hep : Table.get ds fn.entryBlock.value = some fn.entryBlock.value := by
    have hke : ∀ block ∈ rest, block.value ≠ fn.entryBlock.value := by
      intro block hblk hs
      have hid' : block = fn.entryBlock := id_eq hs
      exact hnew (hid' ▸ hblk)
    rw [hk _ hke]
    exact Table.get_assoc_self [] fn.entryBlock.value _
  -- the successor of an ordered block with a parent
  have hste : ∀ s t, (⟨s⟩ : NativeId) ∈ fn.entryBlock :: rest →
      (Table.get ds s).isSome → Edge fn s t →
      (⟨t⟩ : NativeId) ∈ fn.entryBlock :: rest ∧
      (Table.get ds t).isSome ∧
      (t ≠ fn.entryBlock.value → ∀ parent, Table.get ds t = some parent →
        Above (Table.get ds) s parent) := by
    rintro s t hsrc hso ⟨block, hblk, rfl, su, hsu, rfl, o, ho, rfl⟩
    obtain ⟨fd, hget⟩ := Option.isSome_iff_exists.mp (hidx block hblk)
    obtain ⟨hfm, hfoi⟩ := hf _ _ hget
    have hs := eq_of_id hnd hfm hblk (id_eq hfoi)
    subst hs
    have hord := hr.closed _ hsrc fd hget o.id hsu (hidx o ho)
    refine ⟨hord, ?_⟩
    by_cases hb : o.id.value = fn.entryBlock.value
    · rw [hb, hep]
      exact ⟨rfl, fun h => absurd rfl h⟩
    · have hmr : o.id ∈ rest := by
        rcases mem_cons.mp hord with h | h
        · exact absurd (congrArg NativeId.value h) hb
        · exact h
      obtain ⟨c, hc, hpar⟩ := hp o.id hmr
      obtain ⟨hne, ha⟩ := (commonFrom_above hcl (fun h => absurd rfl h) hc).2.2
        fd.id (mem_predecessorIndex hblk hsu) hso
      rw [hpar hne]
      refine ⟨rfl, fun _ parent h => ?_⟩
      rw [← Option.some.inj h]
      exact ha
  have hw : ∀ l key, Walk (Edge fn) fn.entryBlock.value l key →
      (⟨key⟩ : NativeId) ∈ fn.entryBlock :: rest ∧ (Table.get ds key).isSome := by
    intro l key w
    induction w with
    | start =>
      rw [hep]
      exact ⟨mem_cons_self, rfl⟩
    | step w next ih =>
      obtain ⟨hord, hso, -⟩ := hste _ _ ih.1 ih.2 next
      exact ⟨hord, hso⟩
  refine ⟨hep, fun l key w => ?_⟩
  obtain ⟨hord, hso⟩ := hw l key w
  exact ⟨hso, fun t hnex => (hste key t hord hso hnex).2.2⟩

theorem dominatesFrom_above {definitionKey c : String} {k : Nat}
    (hrun : dominatesFrom ds definitionKey k c = some true) :
    Above (Table.get ds) c definitionKey := by
  induction k generalizing c with
  | zero => simp [dominatesFrom] at hrun
  | succ k ih =>
    rw [dominatesFrom] at hrun
    by_cases hs : c = definitionKey
    · subst hs
      exact .refl
    · rw [if_neg hs] at hrun
      dsimp only at hrun
      split at hrun
      · simp at hrun
      · rename_i hpar
        rw [not_or] at hpar
        cases hget : Table.get ds c with
        | none =>
          rw [hget] at hpar
          exact absurd rfl hpar.1
        | some p =>
          rw [hget, Option.getD_some] at hrun
          exact .head hget (ih hrun)

/-- **A block that dominates is on every walk** to the block it dominates. -/
theorem visited_of_dominates {k : Nat} (hnd : (fn.blocks.map (·.id)).Nodup)
    (hent : ∃ block ∈ fn.blocks, block.id = fn.entryBlock)
    (hrun : dominatorIndex k fn = some ds) {l : List String}
    {deb ub : NativeId}
    (w : Walk (Edge fn) fn.entryBlock.value l ub.value)
    (hdom : blockDominates k ds deb ub = some true) :
    deb.value ∈ l ++ [ub.value] := by
  obtain ⟨hst, hw⟩ := dominatorIndex_walk hnd hent hrun
  obtain ⟨hs, -⟩ := hw l ub.value w
  refine @visited_of_above _ (Table.get ds) _ _ (fun c hc => (Option.some.inj (hst.symm.trans hc)).symm) ?_ _ _ w _ ?_
  · intro l' s t w' hn hne p hpar
    exact (hw l' s w').2 t hn hne p hpar
  · unfold blockDominates at hdom
    rw [if_neg (by rw [Option.isNone_iff_eq_none]; exact Option.isSome_iff_ne_none.mp hs)] at hdom
    split at hdom
    · simp at hdom
    · exact dominatesFrom_above hdom

end Beagle.Obligations
