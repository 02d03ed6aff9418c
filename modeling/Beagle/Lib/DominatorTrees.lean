/-
Trees that come closer to the dominators.

Nodes are numbered so that each but the start has a predecessor with a smaller number.  A tree over
the nodes met so far is made better one node at a time, in the order of the numbers: the node gets
the lowest node above all its predecessors as its parent.

A dominator is never lost: what leaves the chain of a node is not on every walk to it, and from a
node down to what hangs below it there is a walk by larger numbers.  A parent only moves up: as
long as a node is not evaluated again, its parent is above its early predecessor or has a number
that is already done.
-/
import Beagle.Lib.Graphs

namespace Beagle.Lib.Dominators

open Function (update)

variable {κ : Type*}

/-- The node is on every walk to the other. -/
def OnEvery (edge : κ → κ → Prop) (start d a : κ) : Prop :=
  ∀ left, Walk edge start left a → d ∈ left ++ [a]

/-- A way by nodes with numbers from that of the first on. -/
def Climb (edge : κ → κ → Prop) (pos : κ → Nat) (a : κ) : κ → Prop :=
  Relation.ReflTransGen (fun b c => edge b c ∧ pos a ≤ pos c) a

/-- A numbering of nodes. -/
structure Numbered (edge : κ → κ → Prop) (start : κ) (pos : κ → Nat) (nodes : κ → Prop)
    (feeder : κ → κ) : Prop where
  injective : ∀ a b, nodes a → nodes b → pos a = pos b → a = b
  start_mem : nodes start
  pos_start : pos start = 0
  feeder : ∀ a, nodes a → a ≠ start → nodes (feeder a) ∧ edge (feeder a) a ∧ pos (feeder a) < pos a

/-- The lowest node above all predecessors. -/
structure Lowest (edge : κ → κ → Prop) (up : κ → Option κ) (b t : κ) : Prop where
  above : ∀ p, edge p b → (up p).isSome → Above up p t
  lowest : ∀ c, (∀ p, edge p b → (up p).isSome → Above up p c) → Above up t c

/-- A tree when the nodes with numbers below `i` are evaluated. -/
structure Tree (edge : κ → κ → Prop) (start : κ) (pos : κ → Nat) (nodes : κ → Prop)
    (feeder : κ → κ) (i : Nat) (up : κ → Option κ) : Prop where
  inside : ∀ a, (up a).isSome → nodes a
  closed : ∀ a t, up a = some t → (up t).isSome
  root : up start = some start
  falls : ∀ a t, up a = some t → a ≠ start → pos t < pos a
  reached : ∀ a, nodes a → pos a < i → (up a).isSome
  climbs : ∀ a t, up a = some t → Climb edge pos t a
  complete : ∀ a d, (up a).isSome → OnEvery edge start d a → Above up a d
  settled : ∀ a t, up a = some t → a ≠ start → Above up (feeder a) t ∨ i ≤ pos a ∧ pos t < i
  common : ∀ a t, up a = some t → a ≠ start →
    ∀ c, (∀ p, edge p a → (up p).isSome → Above up p c) → Above up t c

variable {e : κ → κ → Prop} {s : κ} {po : κ → Nat} {ns : κ → Prop} {f : κ → κ}
  {i : Nat} {up : κ → Option κ} {a b c t : κ}

theorem above_total (hb : Above up a b) (hc : Above up a c) : Above up b c ∨ Above up c b :=
  Relation.ReflTransGen.total_of_right_unique
    (fun _ _ _ h k => Option.some.inj (h.symm.trans k)) hb hc

theorem isSome_of_above (ha : Above up a c) (hs : (up c).isSome) : (up a).isSome := by
  rcases Relation.ReflTransGen.cases_head ha with rfl | ⟨w, hup, -⟩
  · exact hs
  · rw [hup]
    rfl

theorem Climb.trans (hl : Climb e po a b) (hr : Climb e po b c) (hp : po a ≤ po b) :
    Climb e po a c :=
  Relation.ReflTransGen.trans hl (Relation.ReflTransGen.mono
    (fun _ _ h => ⟨h.1, Nat.le_trans hp h.2⟩) _ _ hr)

/-- A walk that goes on upwards by numbers meets nothing before them. -/
theorem Climb.walk {l : List κ} (h : Climb e po a b) (w : Walk e s l a) :
    ∃ m, Walk e s m b ∧ ∀ d ∈ m ++ [b], d ∈ l ++ [a] ∨ po a ≤ po d := by
  induction h with
  | refl => exact ⟨l, w, fun d hd => Or.inl hd⟩
  | tail _ hs ih =>
    obtain ⟨m, hw, hm⟩ := ih
    refine ⟨_, .step hw hs.1, fun d hd => ?_⟩
    rcases List.mem_append.mp hd with hd | hd
    · exact hm d hd
    · rw [List.mem_singleton.mp hd]
      exact Or.inr hs.2

namespace Tree

theorem le (h : Tree e s po ns f i up) (ha : Above up a c) : po c ≤ po a := by
  induction ha with
  | refl => exact Nat.le_refl _
  | @tail b c _ hup ih =>
    by_cases hb : b = s
    · rw [hb, h.root] at hup
      rw [← Option.some.inj hup, ← hb]
      exact ih
    · have := h.falls b c hup hb
      omega

theorem lt (h : Tree e s po ns f i up) (ha : Above up a c) (hne : c ≠ a) : po c < po a := by
  rcases Relation.ReflTransGen.cases_head ha with rfl | ⟨w, hup, hw⟩
  · exact absurd rfl hne
  · by_cases hs : a = s
    · subst hs
      exact absurd (above_of_fixed (fun c hc => (Option.some.inj (h.root.symm.trans hc)).symm) ha) hne
    · have := h.falls a w hup hs
      have := h.le hw
      omega

theorem isSome (h : Tree e s po ns f i up) (hs : (up a).isSome)
    (ha : Above up a c) : (up c).isSome := by
  induction ha with
  | refl => exact hs
  | tail _ hup _ => exact h.closed _ _ hup

theorem climb (h : Tree e s po ns f i up) (ha : Above up a c) : Climb e po c a := by
  induction ha using Relation.ReflTransGen.head_induction_on with
  | refl => exact .refl
  | head hup hw ih => exact ih.trans (h.climbs _ _ hup) (h.le hw)

/-- All evaluated: the numbers start again. -/
theorem restart (h : Tree e s po ns f i up) (hall : ∀ a, ns a → po a < i) : Tree e s po ns f 1 up :=
  { h with
    reached := fun a ha hp => h.reached a ha (hall a ha)
    settled := fun a t hup hs => Or.inl ((h.settled a t hup hs).resolve_right fun hr => by
      have := hall a (h.inside a (Option.isSome_iff_exists.mpr ⟨t, hup⟩))
      omega) }

end Tree

/-- The lowest node above all predecessors of `b`, which is next. -/
structure Next (edge : κ → κ → Prop) (start : κ) (pos : κ → Nat) (nodes : κ → Prop)
    (feeder : κ → κ) (up : κ → Option κ) (b t : κ) : Prop where
  numbered : Numbered edge start pos nodes feeder
  tree : Tree edge start pos nodes feeder (pos b) up
  mem : nodes b
  ne : b ≠ start
  lowest : Lowest edge up b t

namespace Next

variable (h : Next e s po ns f up b t)

include h

theorem feeder_mem : (up (f b)).isSome := by
  obtain ⟨hn, -, hp⟩ := h.numbered.feeder b h.mem h.ne
  exact h.tree.reached _ hn hp

theorem feeder_above : Above up (f b) t :=
  h.lowest.above _ (h.numbered.feeder b h.mem h.ne).2.1 h.feeder_mem

theorem isSome : (up t).isSome := h.tree.isSome h.feeder_mem h.feeder_above

theorem pos_lt : po t < po b :=
  Nat.lt_of_le_of_lt (h.tree.le h.feeder_above) (h.numbered.feeder b h.mem h.ne).2.2

/-- **A parent moves up.** -/
theorem old_above {old : κ} (ho : up b = some old) : Above up old t :=
  h.tree.common b old ho h.ne t h.lowest.above

end Next

variable [DecidableEq κ]

/-- What stays above a node, and what leaves its chain at the node with the new parent. -/
theorem above_update (ha : Above up a c) : Above (update up b (some t)) a c ∨
    Above (update up b (some t)) a b ∧ c ≠ b ∧ Above up b c := by
  induction ha using Relation.ReflTransGen.head_induction_on with
  | refl => exact Or.inl .refl
  | @head a w hup hw ih =>
    by_cases hab : a = b
    · subst hab
      by_cases hca : c = a
      · exact Or.inl (hca ▸ .refl)
      · exact Or.inr ⟨.refl, hca, .head hup hw⟩
    · have hst : update up b (some t) a = some w := by rw [Function.update_of_ne hab, hup]
      exact ih.imp (.head hst) fun h => ⟨.head hst h.1, h.2⟩

theorem isSome_update (hs : (up a).isSome) : (update up b (some t) a).isSome := by
  by_cases ha : a = b
  · rw [ha, Function.update_self]
    rfl
  · rwa [Function.update_of_ne ha]

theorem above_self : Above (update up b (some t)) b t :=
  .single (Function.update_self b (some t) up)

namespace Next

variable (h : Next e s po ns f up b t)

include h

theorem above_of_update (hs : (up a).isSome) (ha : Above (update up b (some t)) a c) :
    Above up a c := by
  have hb : Above up a c ∧ (up c).isSome := by
    induction ha with
    | refl => exact ⟨.refl, hs⟩
    | @tail c w _ hup ih =>
      by_cases hc : c = b
      · subst hc
        rw [Function.update_self] at hup
        obtain rfl := Option.some.inj hup
        obtain ⟨old, ho⟩ := Option.isSome_iff_exists.mp ih.2
        exact ⟨ih.1.trans (.head ho (h.old_above ho)), h.isSome⟩
      · rw [Function.update_of_ne hc] at hup
        exact ⟨ih.1.tail hup, h.tree.closed _ _ hup⟩
  exact hb.1

/-- The chains above earlier nodes stay. -/
theorem above_early (ha : Above up a c) (hp : po a < po b) (hs : (up a).isSome) :
    Above (update up b (some t)) a c := by
  refine (above_update ha).resolve_right fun hr => ?_
  have := h.tree.le (h.above_of_update hs hr.1)
  omega

/-- A dominator of the node is above its predecessors, and stays above it. -/
theorem complete_self {d : κ} (hd : OnEvery e s d b) : Above (update up b (some t)) b d := by
  by_cases hdb : d = b
  · exact hdb ▸ .refl
  · refine above_self.trans (h.above_early (h.lowest.lowest d fun p hp hs => ?_) h.pos_lt h.isSome)
    refine h.tree.complete p d hs fun l w => ?_
    exact (List.mem_append.mp (hd _ (.step w hp))).resolve_right
      fun hm => hdb (List.mem_singleton.mp hm)

/-- **A step keeps the tree.** -/
theorem step : Tree e s po ns f (po b + 1) (update up b (some t)) where
  inside a hs := by
    by_cases ha : a = b
    · exact ha ▸ h.mem
    · exact h.tree.inside a (by rwa [Function.update_of_ne ha] at hs)
  closed a w hup := by
    by_cases ha : a = b
    · rw [ha, Function.update_self] at hup
      exact isSome_update (Option.some.inj hup ▸ h.isSome)
    · rw [Function.update_of_ne ha] at hup
      exact isSome_update (h.tree.closed a w hup)
  root := by rw [Function.update_of_ne h.ne.symm, h.tree.root]
  falls a w hup hs := by
    by_cases ha : a = b
    · rw [ha, Function.update_self] at hup
      exact ha ▸ Option.some.inj hup ▸ h.pos_lt
    · rw [Function.update_of_ne ha] at hup
      exact h.tree.falls a w hup hs
  reached a hn hp := by
    by_cases ha : a = b
    · rw [ha, Function.update_self]
      rfl
    · have : po a ≠ po b := fun heq => ha (h.numbered.injective a b hn h.mem heq)
      exact isSome_update (h.tree.reached a hn (by omega))
  climbs a w hup := by
    by_cases ha : a = b
    · rw [ha, Function.update_self] at hup
      obtain rfl := Option.some.inj hup
      obtain ⟨-, he, -⟩ := h.numbered.feeder b h.mem h.ne
      have := h.pos_lt
      exact ha ▸ (h.tree.climb h.feeder_above).tail ⟨he, by omega⟩
    · rw [Function.update_of_ne ha] at hup
      exact h.tree.climbs a w hup
  complete a d hs hd := by
    by_cases ha : a = b
    · exact ha ▸ h.complete_self (ha ▸ hd)
    rw [Function.update_of_ne ha] at hs
    refine (above_update (h.tree.complete a d hs hd)).elim id fun hr => hr.1.trans
      (h.complete_self fun l w => ?_)
    -- from `b` down to `a` there is a walk that does not meet `d`
    obtain ⟨m, hw, hm⟩ := (h.tree.climb (h.above_of_update hs hr.1)).walk w
    refine (hm d (hd m hw)).resolve_right fun hle => ?_
    have := h.tree.lt hr.2.2 hr.2.1
    omega
  settled a w hup hs := by
    by_cases ha : a = b
    · rw [ha, Function.update_self] at hup
      obtain rfl := Option.some.inj hup
      refine Or.inl (ha ▸ h.above_early h.feeder_above ?_ h.feeder_mem)
      exact (h.numbered.feeder b h.mem h.ne).2.2
    rw [Function.update_of_ne ha] at hup
    have hn := h.tree.inside a (Option.isSome_iff_exists.mpr ⟨w, hup⟩)
    have hne : po a ≠ po b := fun heq => ha (h.numbered.injective a b hn h.mem heq)
    obtain ⟨hfn, -, hfp⟩ := h.numbered.feeder a hn hs
    rcases h.tree.settled a w hup hs with hab | ⟨hle, hlt⟩
    · have hfs := isSome_of_above hab (h.tree.closed a w hup)
      refine (above_update hab).imp id fun hr => ?_
      have := h.tree.lt hr.2.2 hr.2.1
      have := h.tree.le (h.above_of_update hfs hr.1)
      exact ⟨by omega, by omega⟩
    · exact Or.inr ⟨by omega, by omega⟩
  common a w hup hs c hc := by
    by_cases ha : a = b
    · subst ha
      rw [Function.update_self] at hup
      obtain rfl := Option.some.inj hup
      refine h.above_early (h.lowest.lowest c fun p hp hps => ?_) h.pos_lt h.isSome
      exact h.above_of_update hps (hc p hp (isSome_update hps))
    rw [Function.update_of_ne ha] at hup
    have hws := h.tree.closed a w hup
    have hwc : Above up w c := h.tree.common a w hup hs c fun p hp hps =>
      h.above_of_update hps (hc p hp (isSome_update hps))
    refine (above_update hwc).elim id fun hr => ?_
    -- `b` is above `w`, so it is above the early predecessor of `a`, and so is `c`
    have hwb := h.tree.le (h.above_of_update hws hr.1)
    have hfw := (h.tree.settled a w hup hs).resolve_right (by omega)
    have hfs := isSome_of_above hfw hws
    have hfb : Above (update up b (some t)) (f a) b :=
      (above_update (hfw.trans (h.above_of_update hws hr.1))).resolve_right fun hn => hn.2.1 rfl
    have hn := h.tree.inside a (Option.isSome_iff_exists.mpr ⟨w, hup⟩)
    have hfc := hc _ (h.numbered.feeder a hn hs).2.1 (isSome_update hfs)
    refine hr.1.trans ((above_total hfb hfc).resolve_right fun hcb => ?_)
    have := h.tree.le (h.above_of_update (h.tree.isSome hws hwc) hcb)
    have := h.tree.lt hr.2.2 hr.2.1
    omega

end Next

/-- The tree of the start alone. -/
theorem tree_start (h : Numbered e s po ns f) :
    Tree e s po ns f 1 (update (fun _ => none) s (some s)) := by
  have heq : ∀ a t, update (fun _ => none) s (some s) a = some t → a = s ∧ t = s := by
    intro a t hup
    by_cases ha : a = s
    · rw [ha, Function.update_self] at hup
      exact ⟨ha, (Option.some.inj hup).symm⟩
    · rw [Function.update_of_ne ha] at hup
      cases hup
  have hmem : ∀ a, (update (fun _ => none) s (some s) a).isSome → a = s := by
    intro a hs
    obtain ⟨t, hup⟩ := Option.isSome_iff_exists.mp hs
    exact (heq a t hup).1
  have hr : update (fun _ : κ => none) s (some s) s = some s :=
    Function.update_self ..
  refine ⟨fun a hs => hmem a hs ▸ h.start_mem, fun a t hup => ?_, hr,
    fun a t hup hs => absurd (heq a t hup).1 hs, fun a hn hp => ?_, fun a t hup => ?_,
    fun a d hs hd => ?_, fun a t hup hs => absurd (heq a t hup).1 hs,
    fun a t hup hs => absurd (heq a t hup).1 hs⟩
  · rw [(heq a t hup).2, hr]
    rfl
  · rw [h.injective a s hn h.start_mem (by rw [h.pos_start]; omega), hr]
    rfl
  · obtain ⟨rfl, rfl⟩ := heq a t hup
    exact .refl
  · obtain rfl := hmem a hs
    rw [List.mem_singleton.mp (hd [] .start)]
    exact .refl

end Beagle.Lib.Dominators
