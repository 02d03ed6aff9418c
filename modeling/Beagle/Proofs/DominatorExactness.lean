/-
The dominator index is exact.

Blocks are ordered so that each but the entry follows one of its predecessors.  A pass makes a tree
of parents better block by block, and as long as one of them changes anything, parents move up.  The
tree at the end keeps every dominator, and holds nothing else.
-/
import Beagle.Lib.DominatorTrees
import Beagle.Proofs.Dominance

namespace Beagle.Obligations

open List

open Beagle.Lib.Dominators
open Beagle.NativeCore

variable {blocks : Table BasicBlock} {entry : NativeId} {order p : List NativeId}
  {seen : List String} {fu : Nat} {ds : Table String}

/-! ### The order of the blocks -/

/-- A successor of one of these blocks. -/
def FedBy (blocks : Table BasicBlock) (order : List NativeId) (b : NativeId) : Prop :=
  ∃ c ∈ order, ∃ block, Table.get blocks c.value = some block ∧ b ∈ blockSuccessors block

/-- What is pending, and each block in the order, is the entry or follows a predecessor. -/
structure Fed (blocks : Table BasicBlock) (entry : NativeId) (pending order : List NativeId) :
    Prop where
  pending : ∀ b ∈ pending, b = entry ∨ FedBy blocks order b
  order : ∀ before b after, order = before ++ b :: after → b = entry ∨ FedBy blocks before b

theorem reachableFrom_fed {res : List NativeId} (h : Fed blocks entry p order)
    (hrun : reachableFrom blocks fu p seen order = some res) : Fed blocks entry [] res := by
  induction fu generalizing p seen order with
  | zero => cases hrun
  | succ fu ih =>
    cases p with
    | nil => exact Option.some.inj hrun ▸ h
    | cons c p =>
      have hre : Fed blocks entry p order :=
        ⟨fun b hb => h.pending b (mem_cons_of_mem _ hb), h.order⟩
      rw [reachableFrom] at hrun
      split at hrun
      · exact ih hre hrun
      · split at hrun
        · exact ih hre hrun
        · next blk hblk =>
          refine ih ⟨fun b hb => ?_, fun pre b a heq => ?_⟩ hrun
          · rcases mem_append.mp hb with hb | hb
            · exact (h.pending b (mem_cons_of_mem _ hb)).imp id fun hd =>
                hd.imp fun d hd => hd.imp_left (mem_append_left _)
            · exact Or.inr ⟨c, mem_append_right _ mem_cons_self, blk, hblk, hb⟩
          · rcases eq_nil_or_concat a with rfl | ⟨a, x, rfl⟩
            · obtain ⟨rfl, hl⟩ := append_inj' heq rfl
              obtain rfl := (cons.inj hl).1
              exact h.pending c mem_cons_self
            · rw [concat_eq_append, ← cons_append, ← append_assoc] at heq
              exact h.order pre b a (append_inj' heq rfl).1

theorem Table.mem_keys {β : Type} {t : Table β} {key : String} {v : β}
    (h : Table.get t key = some v) : key ∈ t.map (·.1) := by
  induction t with
  | nil => cases h
  | cons e t ih =>
    unfold Table.get at h ih
    rw [Lib.Likeness.get_cons, Lib.Likeness.ofEq_same] at h
    by_cases hk : e.1 = key
    · exact hk ▸ mem_cons_self
    · rw [if_neg (by simpa using hk)] at h
      exact mem_cons_of_mem _ (ih h)

theorem Table.get_update {β : Type} (t : Table β) (key : String) (v : β) :
    Table.get (Table.assoc t key v) = Function.update (Table.get t) key (some v) := by
  funext key'
  rw [Table.get_assoc, Function.update_apply]
  simp only [eq_comm]

/-- Enough fuel orders the blocks. -/
theorem reachableFrom_ends (n : Nat) (seen : List String)
    (hn : ((blocks.map (·.1)).filter (· ∉ seen)).length ≤ n) (p order : List NativeId) :
    ∃ e, ∀ fu ≥ e, (reachableFrom blocks fu p seen order).isSome := by
  induction n using Nat.strong_induction_on generalizing seen p order with
  | _ n ihn =>
    have hone : ∀ {st : Nat → Option (List NativeId)} {on : Nat → Option (List NativeId)},
        (∀ f, st (f + 1) = on f) → (∃ e, ∀ fu ≥ e, (on fu).isSome) →
        ∃ e, ∀ fu ≥ e, (st fu).isSome := by
      rintro st on hst ⟨e, hall⟩
      refine ⟨e + 1, fun fu hf => ?_⟩
      obtain ⟨f, rfl⟩ := Nat.exists_eq_add_of_le' (Nat.le_trans (Nat.le_add_left 1 e) hf)
      rw [hst]
      exact hall f (by omega)
    induction p generalizing seen order with
    | nil => exact hone (fun _ => reachableFrom.eq_2 ..) ⟨0, fun _ _ => rfl⟩
    | cons c p ihp =>
      by_cases hs : c.value ∈ seen
      · exact hone (fun f => by rw [reachableFrom, if_pos hs]) (ihp seen hn order)
      have hle : ((blocks.map (·.1)).filter (· ∉ c.value :: seen)).length ≤
          ((blocks.map (·.1)).filter (· ∉ seen)).length :=
        Lib.Cycles.length_filter_le fun x _ hx => by simp_all
      cases hblk : Table.get blocks c.value with
      | none =>
        exact hone (fun f => by rw [reachableFrom, if_neg hs, hblk])
          (ihp (c.value :: seen) (Nat.le_trans hle hn) order)
      | some b =>
        have hlt : ((blocks.map (·.1)).filter (· ∉ c.value :: seen)).length <
            ((blocks.map (·.1)).filter (· ∉ seen)).length :=
          Lib.Cycles.length_filter_lt (fun x _ hx => by simp_all)
            ⟨c.value, Table.mem_keys hblk, by simpa using hs, by simp⟩
        exact hone (fun f => by rw [reachableFrom, if_neg hs, hblk])
          (ihn _ (Nat.lt_of_lt_of_le hlt hn) _ (Nat.le_refl _) _ _)

theorem get_orderFrom {l : List NativeId} (hnd : (l.map (·.value)).Nodup) (n : Nat) (t : Table Int)
    (k : String) : Table.get (orderFrom n t l) k =
      if k ∈ l.map (·.value) then some ↑(n + (l.map (·.value)).idxOf k) else Table.get t k := by
  induction l generalizing n t with
  | nil => rfl
  | cons b l ih =>
    rw [map_cons] at hnd ⊢
    obtain ⟨hb, hnd⟩ := nodup_cons.mp hnd
    rw [orderFrom, ih hnd]
    by_cases hk : b.value = k
    · subst hk
      rw [if_neg hb, if_pos mem_cons_self, Table.get_assoc_self, idxOf_cons_self]
      rfl
    · rw [Table.get_assoc_of_ne hk, idxOf_cons_ne _ hk, Nat.add_right_comm n 1, Nat.add_assoc n]
      simp only [mem_cons, Ne.symm hk, false_or]

/-! ### Chains that meet -/

/-- How high the parents are, added up. -/
def height (pos : String → Nat) (keys : List String) (dominators : Table String) : Nat :=
  (keys.map fun k => (Table.get dominators k).elim keys.length pos).sum

/-- The numbering of the blocks, with the tables that hold it. -/
structure Ranked (edge : String → String → Prop) (start : String) (pos : String → Nat)
    (nodes : String → Prop) (feeder : String → String) (index : Table Int)
    (predecessors : Table (List NativeId)) (keys : List String) : Prop where
  numbered : Numbered edge start pos nodes feeder
  index : ∀ k, nodes k → Table.get index k = some (pos k : Int)
  named : ∀ k, nodes k → k ≠ ""
  bound : ∀ k, nodes k → pos k < keys.length
  mem : ∀ k, nodes k → k ∈ keys
  predecessors : ∀ k, nodes k → ∀ p, nodes p →
    ((⟨p⟩ : NativeId) ∈ (Table.get predecessors k).getD [] ↔ edge p k)

section

variable {edge : String → String → Prop} {start : String} {pos : String → Nat}
  {nodes : String → Prop} {fe : String → String} {index : Table Int}
  {ps : Table (List NativeId)} {ks : List String} {i : Nat}
  (hr : Ranked edge start pos nodes fe index ps ks)

include hr

theorem Ranked.closed (h : Tree edge start pos nodes fe i (Table.get ds)) :
    Closed ds := fun k t hup =>
  ⟨hr.named k (h.inside k (Option.isSome_iff_exists.mpr ⟨t, hup⟩)), h.closed k t hup⟩

/-- Where two chains meet is the lowest place above both. -/
theorem intersect_lowest (h : Tree edge start pos nodes fe i (Table.get ds))
    {l r : String} (hl : (Table.get ds l).isSome) (hrs : (Table.get ds r).isSome)
    (hf : pos l + pos r < fu) :
    ∃ met, intersectDominatorChains ds index fu l r = some met ∧
      ∀ c, Above (Table.get ds) l c → Above (Table.get ds) r c → Above (Table.get ds) met c := by
  have hpa : ∀ {a o c : String}, (Table.get ds a).isSome → pos o < pos a →
      Above (Table.get ds) a c → Above (Table.get ds) o c →
      ∃ p, Table.get ds a = some p ∧ Above (Table.get ds) p c := by
    intro a o c hs hlt ha ho
    rcases Relation.ReflTransGen.cases_head ha with rfl | ⟨w, hup, hw⟩
    · have := h.le ho
      omega
    · exact ⟨w, hup, hw⟩
  have hfa : ∀ {a o p : String}, pos o < pos a → Table.get ds a = some p →
      pos p < pos a := fun hlt hup => h.falls _ _ hup fun hs => by
    rw [hs, hr.numbered.pos_start] at hlt
    omega
  induction fu generalizing l r with
  | zero => omega
  | succ fu ih =>
    rw [intersectDominatorChains]
    by_cases hs : l = r
    · exact ⟨l, if_pos hs, fun c hc _ => hc⟩
    rw [if_neg hs, hr.index l (h.inside l hl), hr.index r (h.inside r hrs), Option.getD_some,
      Option.getD_some]
    obtain ⟨p, hp⟩ := Option.isSome_iff_exists.mp hl
    obtain ⟨q, hq⟩ := Option.isSome_iff_exists.mp hrs
    by_cases hgt : pos r < pos l
    · have := hfa hgt hp
      obtain ⟨met, hm, hlow⟩ := ih (h.closed _ _ hp) hrs (by omega)
      rw [if_pos (by omega), hp]
      refine ⟨met, hm, fun c hlc hrc => hlow c ?_ hrc⟩
      obtain ⟨w, hw, hwc⟩ := hpa hl hgt hlc hrc
      exact Option.some.inj (hp.symm.trans hw) ▸ hwc
    · have hne : pos l ≠ pos r := fun heq =>
        hs (hr.numbered.injective _ _ (h.inside l hl) (h.inside r hrs) heq)
      have := @hfa r l q (by omega) hq
      obtain ⟨met, hm, hlow⟩ := ih hl (h.closed _ _ hq) (by omega)
      rw [if_neg (by omega), hq]
      refine ⟨met, hm, fun c hlc hrc => hlow c hlc ?_⟩
      obtain ⟨w, hw, hwc⟩ := @hpa r l c hrs (by omega) hrc hlc
      exact Option.some.inj (hq.symm.trans hw) ▸ hwc

theorem commonFrom_lowest (h : Tree edge start pos nodes fe i (Table.get ds))
    (hf : ks.length * 2 ≤ fu) {c : String} (hc : c ≠ "" → (Table.get ds c).isSome)
    (ps : List NativeId) : ∃ met, commonFrom fu ds index c ps = some met ∧
      ∀ a, (c ≠ "" → Above (Table.get ds) c a) → (∀ p ∈ ps, (Table.get ds p.value).isSome →
          Above (Table.get ds) p.value a) →
        met ≠ "" → Above (Table.get ds) met a := by
  induction ps generalizing c with
  | nil => exact ⟨c, rfl, fun a ha _ => ha⟩
  | cons p ps ih =>
    rw [commonFrom]
    by_cases hs : (Table.get ds p.value).isSome
    · rw [if_pos hs]
      by_cases hemp : c = ""
      · obtain ⟨met, hm, hlow⟩ := ih fun _ => hs
        rw [if_pos hemp]
        exact ⟨met, hm, fun a _ hall => hlow a (fun _ => hall p mem_cons_self hs)
          fun q hq => hall q (mem_cons_of_mem _ hq)⟩
      · have h1 := hr.bound _ (h.inside _ hs)
        have h2 := hr.bound _ (h.inside _ (hc hemp))
        have hsum : pos p.value + pos c < fu := by omega
        obtain ⟨m, hm, hlow⟩ := intersect_lowest hr h hs (hc hemp) hsum
        have hab := intersect_above (hr.closed h) hs (hc hemp) hm
        obtain ⟨met, hmet, hall⟩ := ih fun _ => h.isSome hs hab.1
        rw [if_neg hemp, hm]
        exact ⟨met, hmet, fun a hca hps => hall a
          (fun _ => hlow a (hps p mem_cons_self hs) (hca hemp))
          fun q hq => hps q (mem_cons_of_mem _ hq)⟩
    · obtain ⟨met, hm, hlow⟩ := ih hc
      rw [if_neg hs]
      exact ⟨met, hm, fun a hca hps => hlow a hca fun q hq => hps q (mem_cons_of_mem _ hq)⟩

/-- **What is met for a block is the lowest place above its predecessors.** -/
theorem commonPredecessorDominator_lowest {b : String}
    (h : Tree edge start pos nodes fe (pos b) (Table.get ds)) (hb : nodes b)
    (hne : b ≠ start) (hf : ks.length * 2 ≤ fu) :
    ∃ t, commonPredecessorDominator fu ((Table.get ps b).getD []) ds index =
      some t ∧ t ≠ "" ∧ Next edge start pos nodes fe (Table.get ds) b t := by
  obtain ⟨met, hm, hlow⟩ := commonFrom_lowest hr h hf (fun hn => absurd rfl hn)
    ((Table.get ps b).getD [])
  obtain ⟨-, -, hall⟩ := commonFrom_above (hr.closed h) (fun hn => absurd rfl hn) hm
  have he : ∀ p, (Table.get ds p).isSome →
      ((⟨p⟩ : NativeId) ∈ (Table.get ps b).getD [] ↔ edge p b) :=
    fun p hs => hr.predecessors b hb p (h.inside p hs)
  obtain ⟨hfn, hfe, hfp⟩ := hr.numbered.feeder b hb hne
  have hfs := h.reached _ hfn hfp
  have hmet := (hall _ ((he _ hfs).mpr hfe) hfs).1
  refine ⟨met, hm, hmet, hr.numbered, h, hb, hne, fun p hp hs => ?_, fun c hc => ?_⟩
  · exact (hall _ ((he p hs).mpr hp) hs).2
  · exact hlow c (fun hn => absurd rfl hn) (fun p hp hs => hc p.value ((he _ hs).mp hp) hs) hmet

/-! ### Passes that end -/

/-- A parent that changes moves up. -/
theorem height_step {b t : String} (h : Next edge start pos nodes fe (Table.get ds) b t) :
    Table.assoc ds b t = ds ∨ height pos ks (Table.assoc ds b t) < height pos ks ds := by
  have hsum : ((Table.get ds b).elim ks.length pos > pos t) →
      height pos ks (Table.assoc ds b t) < height pos ks ds := by
    intro hlt
    refine sum_lt_sum _ _ (fun k _ => ?_) ⟨b, hr.mem b h.mem, ?_⟩
    · rw [Table.get_assoc]
      by_cases hk : b = k
      · rw [if_pos hk, ← hk]
        exact Nat.le_of_lt hlt
      · rw [if_neg hk]
    · rwa [Table.get_assoc_self]
  cases ho : Table.get ds b with
  | none =>
    refine Or.inr (hsum ?_)
    rw [ho]
    exact hr.bound t (h.tree.inside t h.isSome)
  | some old =>
    by_cases heq : t = old
    · exact Or.inl (Table.assoc_of_get (heq ▸ ho))
    · refine Or.inr (hsum ?_)
      rw [ho]
      exact h.tree.lt (h.old_above ho) heq

/-- A pass keeps the tree, and changes nothing or brings the parents up. -/
theorem dominatorPass_tree (hf : ks.length * 2 ≤ fu) (r : List NativeId)
    (hpos : ∀ j b, r[j]? = some b → nodes b.value ∧ b.value ≠ start ∧ pos b.value = i + j)
    (h : Tree edge start pos nodes fe i (Table.get ds)) :
    ∃ next, dominatorPass fu ps index r ds = some next ∧
      Tree edge start pos nodes fe (i + r.length) (Table.get next) ∧
      (next = ds ∨ height pos ks next < height pos ks ds) := by
  induction r generalizing i ds with
  | nil => exact ⟨ds, rfl, h, Or.inl rfl⟩
  | cons b r ih =>
    obtain ⟨hb, hne, hp⟩ := hpos 0 b rfl
    obtain rfl : pos b.value = i := hp
    obtain ⟨t, ht, hemp, hn⟩ := commonPredecessorDominator_lowest hr h hb hne hf
    have hst := hn.step
    rw [← Table.get_update] at hst
    obtain ⟨next, hrun, htr, hh⟩ := ih (fun j c hc => by
      have := hpos (j + 1) c hc
      exact ⟨this.1, this.2.1, by omega⟩) hst
    refine ⟨next, ?_, ?_, ?_⟩
    · rw [dominatorPass, ht, Option.bind_eq_bind, Option.bind_some, if_neg hemp, hrun]
    · rwa [length_cons, Nat.add_comm r.length, ← Nat.add_assoc]
    · rcases height_step hr hn with heq | hlt
      · rwa [heq] at hh
      · rcases hh with rfl | hh
        · exact Or.inr hlt
        · exact Or.inr (Nat.lt_trans hh hlt)

/-- **The passes end**, with a tree. -/
theorem dominatorPasses_ends (hf : ks.length * 2 ≤ fu) (r : List NativeId)
    (hpos : ∀ j b, r[j]? = some b → nodes b.value ∧ b.value ≠ start ∧ pos b.value = 1 + j)
    (hall : ∀ k, nodes k → pos k < 1 + r.length) (pas : Nat)
    (h : Tree edge start pos nodes fe 1 (Table.get ds))
    (hp : height pos ks ds < pas) :
    ∃ l, dominatorPasses fu ps index r pas ds = some l ∧
      Tree edge start pos nodes fe (1 + r.length) (Table.get l) := by
  induction pas generalizing ds with
  | zero => omega
  | succ pas ih =>
    obtain ⟨next, hrun, ht, hh⟩ := dominatorPass_tree hr hf r hpos h
    rw [dominatorPasses, hrun, Option.bind_eq_bind, Option.bind_some]
    by_cases heq : ds = next
    · exact ⟨ds, if_pos heq, heq ▸ ht⟩
    · rw [if_neg heq]
      have := hh.resolve_left fun hn => heq hn.symm
      exact ih (ht.restart hall) (by omega)

theorem dominatesFrom_ends (h : Tree edge start pos nodes fe i (Table.get ds))
    {c d : String} (hs : (Table.get ds c).isSome) (hf : pos c < fu) :
    ∃ ve, dominatesFrom ds d fu c = some ve ∧ (Above (Table.get ds) c d → ve = true) := by
  induction fu generalizing c with
  | zero => omega
  | succ fu ih =>
    rw [dominatesFrom]
    by_cases heq : c = d
    · exact ⟨true, if_pos heq, fun _ => rfl⟩
    obtain ⟨t, ht⟩ := Option.isSome_iff_exists.mp hs
    have hts := h.closed c t ht
    rw [if_neg heq, ht, Option.getD_some]
    by_cases hst : t = c
    · have hab : ∀ w, Table.get ds c = some w → w = c :=
        fun w hw => (Option.some.inj (ht.symm.trans hw)).symm.trans hst
      exact ⟨false, if_pos (Or.inr hst), fun ha => absurd (above_of_fixed hab ha).symm heq⟩
    · have hne : c ≠ start := fun hc => hst (by
        rw [hc, h.root] at ht
        rw [← Option.some.inj ht, hc])
      have := h.falls c t ht hne
      obtain ⟨v, hv, hall⟩ := ih hts (by omega)
      refine ⟨v, ?_, fun ha => hall ?_⟩
      · dsimp only
        rw [if_neg (not_or.mpr ⟨hr.named t (h.inside t hts), hst⟩), hv]
      · obtain ⟨w, hw, hwd⟩ := (Relation.ReflTransGen.cases_head ha).resolve_left heq
        exact Option.some.inj (ht.symm.trans hw) ▸ hwd

end

/-! ### The index -/

theorem of_mem_predecessorIndex {blocks : List BasicBlock} {o : NativeId} {key : String}
    (h : o ∈ (Table.get (predecessorIndex blocks) key).getD []) :
    ∃ block ∈ blocks, block.id = o ∧ ∃ s ∈ blockSuccessors block, s.value = key := by
  let P (t : Table (List NativeId)) := ∀ o key, o ∈ (Table.get t key).getD [] →
    ∃ block ∈ blocks, block.id = o ∧ ∃ s ∈ blockSuccessors block, s.value = key
  suffices hall : P (predecessorIndex blocks) from hall o key h
  refine @foldlRecOn _ _ P blocks _ _ (fun o key ho => absurd ho not_mem_nil)
    fun t ht block hblk => ?_
  refine @foldlRecOn _ _ P (blockSuccessors block) _ _ ht fun t ht s hs => ?_
  intro o key ho
  unfold addPredecessor at ho
  by_cases hk : s.value = key
  · subst hk
    rw [Table.get_assoc_self, Option.getD_some] at ho
    rcases mem_append.mp ho with ho | ho
    · exact ht o _ ho
    · exact ⟨block, hblk, (mem_singleton.mp ho).symm, s, hs, rfl⟩
  · rw [Table.get_assoc_of_ne hk] at ho
    exact ht o key ho

variable {fn : FunctionDef}

/-- The keys of an order, each with its place. -/
def keysOf (order : List NativeId) : List String := order.map (·.value)

theorem nodup_keysOf (h : order.Nodup) : (keysOf order).Nodup :=
  h.map fun _ _ hv => id_eq hv

/-- Every key of an order that is reached names a block. -/
theorem block_of_key {order : List NativeId}
    (hr : Reaches (blockIndex fn.blocks) fn.entryBlock order) :
    ∀ k ∈ keysOf order, ∃ blk ∈ fn.blocks, blk.id.value = k := by
  intro k hk
  obtain ⟨b, hb, rfl⟩ := mem_map.mp hk
  obtain ⟨blk, hget⟩ := Option.isSome_iff_exists.mp (hr.known b hb)
  exact ⟨blk, (blockIndex_spec fn.blocks).1 _ _ hget⟩

theorem ranked_order {r : List NativeId}
    (hr : Reaches (blockIndex fn.blocks) fn.entryBlock (fn.entryBlock :: r))
    (hf : Fed (blockIndex fn.blocks) fn.entryBlock [] (fn.entryBlock :: r)) :
    ∃ fe, Ranked (Edge fn) fn.entryBlock.value (fun k => (keysOf (fn.entryBlock :: r)).idxOf k)
      (· ∈ keysOf (fn.entryBlock :: r)) fe
      (blockOrderIndex (fn.entryBlock :: r)) (predecessorIndex fn.blocks)
      (keysOf (fn.entryBlock :: r)) := by
  obtain ⟨hblk, -⟩ := blockIndex_spec fn.blocks
  have hkno := block_of_key hr
  have hkn := nodup_keysOf hr.nodup
  have hfe : ∀ k, ∃ p, k ∈ keysOf (fn.entryBlock :: r) → k ≠ fn.entryBlock.value →
      p ∈ keysOf (fn.entryBlock :: r) ∧ Edge fn p k ∧ (keysOf (fn.entryBlock :: r)).idxOf p <
          (keysOf (fn.entryBlock :: r)).idxOf k := by
    intro k
    by_cases hk : k ∈ keysOf (fn.entryBlock :: r) ∧ k ≠ fn.entryBlock.value
    · obtain ⟨b, hb, rfl⟩ := mem_map.mp hk.1
      obtain ⟨before, after, heq⟩ := append_of_mem hb
      obtain ⟨c, hc, blk, hget, hs⟩ := (hf.order before b after heq).resolve_left
        fun h => hk.2 (congrArg NativeId.value h)
      obtain ⟨hm, hid⟩ := hblk _ _ hget
      obtain ⟨o, ho, hob⟩ := hkno b.value hk.1
      have hke : keysOf (fn.entryBlock :: r) = keysOf before ++ b.value :: keysOf after := by
        rw [heq, keysOf, map_append, map_cons]
        rfl
      have hcm : c.value ∈ keysOf before := mem_map_of_mem hc
      rw [hke] at hkn
      have hnb : b.value ∉ keysOf before := fun hmem =>
        (nodup_append.mp hkn).2.2 _ hmem _ mem_cons_self rfl
      refine ⟨c.value, fun _ _ => ⟨?_, ⟨blk, hm, hid, b, hs, rfl, o, ho, id_eq hob⟩, ?_⟩⟩
      · rw [hke]
        exact mem_append_left _ hcm
      · rw [hke, idxOf_append_of_mem hcm, idxOf_append_of_notMem hnb, idxOf_cons_self]
        have := idxOf_lt_length_of_mem hcm
        omega
    · exact ⟨k, fun h1 h2 => absurd ⟨h1, h2⟩ hk⟩
  choose fe hfeeder using hfe
  refine ⟨fe, ⟨fun a b ha _ h => (idxOf_inj ha).mp h, mem_cons_self, idxOf_cons_self,
    hfeeder⟩, fun k hk => ?_, fun k hk => ?_, fun k => idxOf_lt_length_of_mem, fun k hk => hk,
    fun k hk p _ => ⟨fun h => ?_, ?_⟩⟩
  · have hget := (get_orderFrom hkn 0 [] k).trans (if_pos hk)
    rwa [Nat.zero_add] at hget
  · obtain ⟨blk, -, rfl⟩ := hkno k hk
    exact blk.named
  · obtain ⟨blk, hm, hid, s, hs, hsk⟩ := of_mem_predecessorIndex h
    obtain ⟨o, ho, hok⟩ := hkno k hk
    exact ⟨blk, hm, congrArg NativeId.value hid, s, hs, hsk, o, ho, id_eq (hok.trans hsk.symm)⟩
  · rintro ⟨blk, hm, rfl, s, hs, rfl, -⟩
    exact mem_predecessorIndex hm hs

/-- With enough fuel there is an index, and it is a tree over the blocks that are reached. -/
theorem dominatorIndex_tree (hent : ∃ blk ∈ fn.blocks, blk.id = fn.entryBlock) :
    ∃ e, ∀ fu ≥ e, ∃ ds ks pos fe index ps i, dominatorIndex fu fn = some ds ∧
      Ranked (Edge fn) fn.entryBlock.value pos (· ∈ ks) fe index ps ks ∧
      Tree (Edge fn) fn.entryBlock.value pos (· ∈ ks) fe i (Table.get ds) ∧
      ks.length ≤ fu ∧ ∀ k ∈ ks, ∃ blk ∈ fn.blocks, blk.id.value = k := by
  obtain ⟨hblk, hidx⟩ := blockIndex_spec fn.blocks
  obtain ⟨blk, hm, hid⟩ := hent
  obtain ⟨e, hen⟩ := @reachableFrom_ends (blockIndex fn.blocks) _ [] (Nat.le_refl _)
    [fn.entryBlock] []
  let n := fn.blocks.length
  refine ⟨e + (n * 2 + n * n + 1), fun fu hfu => ?_⟩
  obtain ⟨order, hrun⟩ := Option.isSome_iff_exists.mp (hen fu (by omega))
  have hr : Reaches (blockIndex fn.blocks) fn.entryBlock order :=
    reachableBlockOrder_reaches hrun
  have hfed : Fed (blockIndex fn.blocks) fn.entryBlock [] order :=
    reachableFrom_fed ⟨fun b hb => Or.inl (mem_singleton.mp hb), fun pre b a heq => by
      simp at heq⟩ hrun
  obtain ⟨r, rfl⟩ := hr.starts (hid ▸ hidx blk hm)
  obtain ⟨fe, hrk⟩ := ranked_order hr hfed
  have hkno := block_of_key hr
  have hkn := nodup_keysOf hr.nodup
  have hlen : (keysOf (fn.entryBlock :: r)).length ≤ n := by
    have hsub : keysOf (fn.entryBlock :: r) ⊆ fn.blocks.map (·.id.value) :=
      fun k hk => by
        obtain ⟨b, hb, rfl⟩ := hkno k hk
        exact mem_map_of_mem hb
    have hle := (subperm_of_subset hkn hsub).length_le
    rwa [length_map] at hle
  generalize hke : keysOf (fn.entryBlock :: r) = ks at *
  have hs := tree_start hrk.numbered
  rw [show Function.update (fun _ => none) fn.entryBlock.value (some fn.entryBlock.value) =
    Table.get [(fn.entryBlock.value, fn.entryBlock.value)] from
      (Table.get_update [] _ _).symm] at hs
  have hlr : ks.length = r.length + 1 := by
    rw [← hke, keysOf, length_map, length_cons]
  have hh : height (fun k => ks.idxOf k) ks
      [(fn.entryBlock.value, fn.entryBlock.value)] ≤ n * n := by
    refine Nat.le_trans (sum_le_card_nsmul _ ks.length fun x hx => ?_) ?_
    · obtain ⟨k, -, rfl⟩ := mem_map.mp hx
      cases Table.get [(fn.entryBlock.value, fn.entryBlock.value)] k with
      | none => exact Nat.le_refl _
      | some t => exact idxOf_le_length
    · rw [length_map]
      exact Nat.mul_le_mul hlen hlen
  have hf : ks.length * 2 ≤ fu := by omega
  have hpos : ∀ j b, r[j]? = some b → b.value ∈ ks ∧
      b.value ≠ fn.entryBlock.value ∧ ks.idxOf b.value = 1 + j := by
    intro j b hj
    have hget : ks[j + 1]? = some b.value := by
      rw [← hke, keysOf, map_cons, getElem?_cons_succ, getElem?_map, hj]
      rfl
    obtain ⟨hlt, heq⟩ := List.getElem?_eq_some_iff.mp hget
    have hidx : ks.idxOf b.value = j + 1 := by rw [← heq, hkn.idxOf_getElem]
    refine ⟨mem_of_getElem? hget, fun hb => ?_, by omega⟩
    rw [hb, ← hke, keysOf, map_cons, idxOf_cons_self] at hidx
    omega
  have hall : ∀ k ∈ ks, ks.idxOf k < 1 + r.length := by
    intro k hk
    have := hrk.bound k hk
    omega
  obtain ⟨l, hl, ht⟩ := dominatorPasses_ends hrk hf r hpos hall fu hs (by omega)
  refine ⟨l, ks, _, fe, _, _, _, ?_, hrk, ht, by omega, hkno⟩
  have hro : reachableBlockOrder fu (blockIndex fn.blocks) fn.entryBlock =
    some (fn.entryBlock :: r) := hrun
  simp only [dominatorIndex, hro, Option.bind_eq_bind, Option.bind_some, length_cons,
    Nat.add_one_ne_zero, if_false, tail_cons, hl]

/-! ### Exactness -/

/-- A block that a walk from the entry reaches. -/
def Reached (function : FunctionDef) (block : NativeId) : Prop :=
  (∃ found ∈ function.blocks, found.id = block) ∧
    ∃ left, Walk (Edge function) function.entryBlock.value left block.value

theorem Reached.entry_mem {use : NativeId} (h : Reached fn use) :
    ∃ b ∈ fn.blocks, b.id = fn.entryBlock := by
  obtain ⟨⟨b, hm, rfl⟩, lef, w⟩ := h
  have hall : ∀ l v, Walk (Edge fn) fn.entryBlock.value l v →
      v = fn.entryBlock.value ∨ ∃ b ∈ fn.blocks, b.id = fn.entryBlock := by
    intro l v w
    induction w with
    | start => exact Or.inl rfl
    | step w next ih =>
      obtain ⟨fd, hf, hv, -⟩ := next
      exact Or.inr (ih.elim (fun heq => ⟨fd, hf, id_eq (hv.trans heq)⟩) id)
  exact (hall lef _ w).elim (fun heq => ⟨b, hm, id_eq heq⟩) id

theorem start_onEvery {κ : Type} {edge : κ → κ → Prop} {start a : κ} :
    OnEvery edge start start a := by
  intro l w
  induction w with
  | start => exact mem_singleton_self _
  | step _ _ ih => exact mem_append_left _ ih

/-- **The dominator index is exact.**  Enough fuel gives an index; with it, a block dominates a block
that is reached exactly if it is on every walk to it, and every block that is not reached. -/
theorem dominatorIndex_exact (fn : FunctionDef) (hnd : (fn.blocks.map (·.id)).Nodup) :
    ∃ e, ∀ fu ≥ e, ∃ ds, dominatorIndex fu fn = some ds ∧
      ∀ d use : NativeId, ∃ ve, blockDominates fu ds d use = some ve ∧
        (Reached fn use → (ve = true ↔ OnEvery (Edge fn) fn.entryBlock.value d.value use.value)) ∧
        (¬ Reached fn use → ve = true) := by
  by_cases hent : ∃ b ∈ fn.blocks, b.id = fn.entryBlock
  · obtain ⟨e, hall⟩ := dominatorIndex_tree hent
    refine ⟨e, fun fu hf => ?_⟩
    obtain ⟨ds, ks, pos, fe, index, ps, i, hrun, hr, ht, hlen, hk⟩ :=
      hall fu hf
    have hnn : ∀ {o : Option String}, o.isSome = true → ¬ o.isNone = true := by
      intro o ho
      rw [Option.isNone_iff_eq_none]
      exact Option.isSome_iff_ne_none.mp ho
    refine ⟨ds, hrun, fun d use => ?_⟩
    unfold blockDominates
    by_cases hu : (Table.get ds use.value).isSome
    · have hre : Reached fn use := by
        obtain ⟨b, hm, hid⟩ := hk _ (ht.inside _ hu)
        obtain ⟨l, w, -⟩ := (ht.climb (ht.complete _ _ hu start_onEvery)).walk .start
        exact ⟨⟨b, hm, id_eq hid⟩, l, w⟩
      rw [if_neg (hnn hu)]
      by_cases hd : (Table.get ds d.value).isSome
      · have hpos := Nat.lt_of_lt_of_le (hr.bound _ (ht.inside _ hu)) hlen
        obtain ⟨v, hv, ha⟩ := dominatesFrom_ends hr ht hu hpos
        rw [if_neg (hnn hd)]
        refine ⟨v, hv, fun _ => ⟨?_, fun hon => ha (ht.complete _ _ hu hon)⟩,
          fun hn => absurd hre hn⟩
        rintro rfl l w
        refine visited_of_dominates hnd hent hrun w ?_
        rw [blockDominates, if_neg (hnn hu), if_neg (hnn hd), hv]
      · refine ⟨false, by rw [if_pos (by simpa using hd)], fun _ => ?_,
          fun hn => absurd hre hn⟩
        exact iff_of_false Bool.false_ne_true
          fun hon => hd (ht.isSome hu (ht.complete _ _ hu hon))
    · refine ⟨true, by rw [if_pos (by simpa using hu)], fun hre => ?_, fun _ => rfl⟩
      obtain ⟨-, l, w⟩ := hre
      exact absurd ((dominatorIndex_walk hnd hent hrun).2 l _ w).1 hu
  · have hno : Table.get (blockIndex fn.blocks) fn.entryBlock.value = none := by
      refine Option.eq_none_iff_forall_not_mem.mpr fun b hb => hent ?_
      obtain ⟨hm, hid⟩ := (blockIndex_spec fn.blocks).1 _ _ hb
      exact ⟨b, hm, id_eq hid⟩
    refine ⟨2, fun fu hf => ?_⟩
    obtain ⟨f, rfl⟩ := Nat.exists_eq_add_of_le' hf
    have hro : reachableBlockOrder (f + 2) (blockIndex fn.blocks) fn.entryBlock = some [] := by
      rw [reachableBlockOrder, reachableFrom, if_neg not_mem_nil, hno, reachableFrom]
    refine ⟨[], by simp [dominatorIndex, hro], fun d use => ⟨true, ?_,
      fun hre => absurd hre.entry_mem hent, fun _ => rfl⟩⟩
    rw [blockDominates]
    exact if_pos rfl

/-- Two ways around a loop that is entered in two places, and a block that no walk reaches. -/
def crossed : FunctionDef :=
  let block (name : String) (ends : Terminator) (h : name ≠ "") : BasicBlock :=
    ⟨⟨name⟩, [], [], [ends], h⟩
  { parameters := []
    blocks := [block "a" (.branch ⟨"x"⟩ ⟨"b"⟩ ⟨"c"⟩) (by decide),
      block "b" (.jump ⟨"c"⟩ []) (by decide), block "c" (.jump ⟨"b"⟩ []) (by decide),
      block "d" (.jump ⟨"d"⟩ []) (by decide)]
    entryBlock := ⟨"a"⟩ }

theorem crossed_exact : (crossed.blocks.map (·.id)).Nodup ∧
    ∃ e, ∀ fu ≥ e, ∃ ds, dominatorIndex fu crossed = some ds ∧
      ∀ d use : NativeId, ∃ v, blockDominates fu ds d use = some v ∧
        (Reached crossed use → (v = true ↔
          OnEvery (Edge crossed) crossed.entryBlock.value d.value use.value)) ∧
        (¬ Reached crossed use → v = true) :=
  ⟨by decide, dominatorIndex_exact crossed (by decide)⟩

end Beagle.Obligations
