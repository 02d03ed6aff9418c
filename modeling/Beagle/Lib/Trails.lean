/-
A walk over the states of nodes, with a memo.

Each piece of work carries the path that led to it.  A node that the path has already met is
compared with the state in which it was met and goes no further; a state that the memo holds is
passed over; every other is visited, and what it leads to is added behind the rest of the work.

Three facts are needed of it.  When it is done, what it visited is closed: every step out of it
comes back to it.  When it is not, a path without a repetition shows why.  And it ends, where the
states that can be visited are finitely many up to what the memo holds to be the same.
-/
import Beagle.Lib.Graphs

namespace Beagle.Lib.Trails

open List

structure Walker (ν σ ω : Type) where
  /-- A visit gives the next state and the nodes it is taken to. -/
  visit : ν → σ → Except ω (σ × List ν)
  agrees : (entered current : σ) → Bool
  differ : (entered current : σ) → ω
  same : (visited current : σ) → Bool
  done : ω

structure Work (ν σ : Type) where
  node : ν
  state : σ
  path : List (ν × σ)

variable {ν σ ω : Type}

/-- The loop over the work, from a position on. -/
def explore [DecidableEq ν] (w : Walker ν σ ω) :
    (fuel : Nat) → List (Work ν σ) → (memo : List (ν × σ)) → Option ω
  | 0, _, _ => none
  | _ + 1, [], _ => some w.done
  | fuel + 1, item :: work, memo =>
    match item.path.find? fun met => met.1 == item.node with
    | some entered =>
      if w.agrees entered.2 item.state then explore w fuel work memo
      else some (w.differ entered.2 item.state)
    | none =>
      if memo.any fun met => met.1 == item.node && w.same met.2 item.state then
        explore w fuel work memo
      else
        match w.visit item.node item.state with
        | .error answer => some answer
        | .ok (next, successors) =>
          explore w fuel (work ++ successors.map fun successor =>
              ⟨successor, next, item.path ++ [(item.node, item.state)]⟩)
            (memo ++ [(item.node, item.state)])

/-- A path that meets no node twice, up to a node and the state it is entered in. -/
inductive Trail (w : Walker ν σ ω) (start : ν) (first : σ) : List (ν × σ) → ν → σ → Prop where
  | start : Trail w start first [] start first
  | step {path : List (ν × σ)} {node : ν} {state : σ} (trail : Trail w start first path node state)
      (fresh : node ∉ path.map Prod.fst) {next : σ} {successors : List ν}
      (visited : w.visit node state = .ok (next, successors)) {successor : ν}
      (onward : successor ∈ successors) :
      Trail w start first (path ++ [(node, state)]) successor next

variable {w : Walker ν σ ω} {start : ν} {f state : σ} {p : List (ν × σ)}

theorem Trail.nodup {n : ν} (h : Trail w start f p n state) :
    (p.map Prod.fst).Nodup := by
  induction h with
  | start => exact nodup_nil
  | step _ fr _ _ ih =>
    rw [map_append, nodup_append]
    refine ⟨ih, nodup_singleton _, ?_⟩
    intro a ha b hb hab
    rw [map_singleton, mem_singleton] at hb
    rw [hab, hb] at ha
    exact fr ha

/-- What a path has met stands at the end of a path of its own. -/
theorem Trail.of_mem {n : ν} (h : Trail w start f p n state)
    {met : ν × σ} (hmem : met ∈ p) :
    ∃ b a, p = b ++ met :: a ∧ Trail w start f b met.1 met.2 := by
  induction h with
  | start => exact absurd hmem not_mem_nil
  | @step p n state t _ _ _ _ _ _ ih =>
    rcases List.mem_append.mp hmem with hmem | hmem
    · obtain ⟨b, a, rfl, hpre⟩ := ih hmem
      exact ⟨b, a ++ [(n, state)], by simp, hpre⟩
    · rw [mem_singleton.mp hmem]
      exact ⟨p, [], rfl, t⟩

/-- Each piece of work stands at the end of its path. -/
def Standing (w : Walker ν σ ω) (start : ν) (first : σ) (work : List (Work ν σ)) : Prop :=
  ∀ item ∈ work, Trail w start first item.path item.node item.state

theorem standing_start : Standing w start f [⟨start, f, []⟩] := by
  intro item hi
  rw [mem_singleton.mp hi]
  exact .start

/-! ### One piece of work -/

/-- The work is passed over: its path has met the node in a state that agrees, or the memo holds
the same. -/
def Passed (w : Walker ν σ ω) (memo : List (ν × σ)) (item : Work ν σ) : Prop :=
  ∃ met, (item.node, met) ∈ item.path ∧ w.agrees met item.state = true ∨
    (item.node, met) ∈ memo ∧ w.same met item.state = true

/-- Why the walk stops at the end of a path: the node was met in a state that differs, or its
visit fails. -/
def Stops (w : Walker ν σ ω) (path : List (ν × σ)) (node : ν) (state : σ) (answer : ω) : Prop :=
  (∃ met, (node, met) ∈ path ∧ w.agrees met state = false ∧ answer = w.differ met state) ∨
    node ∉ path.map Prod.fst ∧ w.visit node state = .error answer

/-- The work is visited: its path has not met the node, and the memo does not hold its state. -/
structure Visited (w : Walker ν σ ω) (memo : List (ν × σ)) (item : Work ν σ) (next : σ)
    (successors : List ν) : Prop where
  fresh : item.node ∉ item.path.map Prod.fst
  unknown : ∀ met, (item.node, met) ∈ memo → w.same met item.state = false
  visit : w.visit item.node item.state = .ok (next, successors)

/-- Where a visit leads. -/
def onward (item : Work ν σ) (next : σ) (successors : List ν) : List (Work ν σ) :=
  successors.map fun successor => ⟨successor, next, item.path ++ [(item.node, item.state)]⟩

/-- What the loop does with the first piece of work. -/
theorem explore_cons [DecidableEq ν] (w : Walker ν σ ω) (item : Work ν σ) (work : List (Work ν σ))
    (me : List (ν × σ)) :
    (Passed w me item ∧ ∀ k, explore w (k + 1) (item :: work) me = explore w k work me) ∨
      (∃ answer, Stops w item.path item.node item.state answer ∧
        ∀ k, explore w (k + 1) (item :: work) me = some answer) ∨
      ∃ next ss, Visited w me item next ss ∧ ∀ k, explore w (k + 1) (item :: work) me =
          explore w k (work ++ onward item next ss) (me ++ [(item.node, item.state)]) := by
  cases hf : item.path.find? fun met => met.1 == item.node with
  | some e =>
    have hmem : (item.node, e.2) ∈ item.path := by
      have hn : e.1 = item.node := by simpa using find?_some hf
      rw [← hn]
      exact mem_of_find?_eq_some hf
    by_cases ha : w.agrees e.2 item.state = true
    · refine Or.inl ⟨⟨e.2, Or.inl ⟨hmem, ha⟩⟩, fun k => ?_⟩
      simp only [explore, hf]
      rw [if_pos ha]
    · refine Or.inr (Or.inl ⟨_, Or.inl ⟨e.2, hmem, by simpa using ha, rfl⟩,
        fun k => ?_⟩)
      simp only [explore, hf]
      rw [if_neg ha]
  | none =>
    have hfr : item.node ∉ item.path.map Prod.fst := by
      intro hn
      obtain ⟨met, hmem, heq⟩ := mem_map.mp hn
      exact find?_eq_none.mp hf met hmem (by simpa using heq)
    by_cases hm : (me.any fun met =>
        met.1 == item.node && w.same met.2 item.state) = true
    · obtain ⟨met, hmem, heq⟩ := any_eq_true.mp hm
      simp only [Bool.and_eq_true, beq_iff_eq] at heq
      refine Or.inl ⟨⟨met.2, Or.inr ⟨?_, heq.2⟩⟩, fun k => ?_⟩
      · rw [← heq.1]
        exact hmem
      · simp only [explore, hf]
        rw [if_pos hm]
    · cases hv : w.visit item.node item.state with
      | error answer =>
        refine Or.inr (Or.inl ⟨answer, Or.inr ⟨hfr, hv⟩, fun k => ?_⟩)
        simp only [explore, hf, hv]
        rw [if_neg hm]
      | ok res =>
        obtain ⟨next, ss⟩ := res
        refine Or.inr (Or.inr ⟨next, ss, ⟨hfr, ?_, hv⟩, fun k => ?_⟩)
        · intro met hmem
          by_contra hs
          exact hm (any_eq_true.mpr ⟨_, hmem, by simpa using hs⟩)
        · simp only [explore, hf, hv]
          rw [if_neg hm]
          rfl

variable {item : Work ν σ} {work : List (Work ν σ)} {k : Nat}

theorem Standing.rest (h : Standing w start f (item :: work)) : Standing w start f work :=
  fun o hmem => h o (mem_cons_of_mem _ hmem)

variable {me old : List (ν × σ)} {answer : ω}

theorem Standing.visited (h : Standing w start f (item :: work)) {next : σ}
    {ss : List ν} (hvis : Visited w me item next ss) :
    Standing w start f (work ++ onward item next ss) := by
  intro o ho
  rcases List.mem_append.mp ho with hold | hnew
  · exact h.rest o hold
  · obtain ⟨s, hmem, rfl⟩ := mem_map.mp hnew
    exact .step (h item mem_cons_self) hvis.fresh hvis.visit hmem

/-! ### Done -/

/-- A node and a state are covered by a visit of the node in a state that stands for this one. -/
def Covered (w : Walker ν σ ω) (memo : List (ν × σ)) (node : ν) (state : σ) : Prop :=
  ∃ met, (node, met) ∈ memo ∧ (met = state ∨ w.agrees met state = true ∨ w.same met state = true)

/-- A visit went well, and where it leads is covered. -/
def Settled (w : Walker ν σ ω) (memo : List (ν × σ)) (met : ν × σ) : Prop :=
  ∃ next successors, w.visit met.1 met.2 = .ok (next, successors) ∧
    ∀ successor ∈ successors, Covered w memo successor next

/-- What the walk has visited when it is done with some work, beside what it had before. -/
structure Closure (w : Walker ν σ ω) (start : ν) (first : σ) (old : List (ν × σ))
    (work : List (Work ν σ)) (memo : List (ν × σ)) : Prop where
  kept : old ⊆ memo
  covers : ∀ item ∈ work, Covered w memo item.node item.state
  settled : ∀ met ∈ memo, met ∉ old → Settled w memo met
  reached : ∀ met ∈ memo, met ∉ old → ∃ path, Trail w start first path met.1 met.2

variable {all : List (ν × σ)}

theorem Closure.passed (h : Closure w start f old work all)
    (hpa : item.path ⊆ old) (hp : Passed w old item) :
    Closure w start f old (item :: work) all := by
  refine ⟨h.kept, ?_, h.settled, h.reached⟩
  intro o ho
  rcases mem_cons.mp ho with rfl | ho
  · obtain ⟨met, ⟨hmem, ha⟩ | ⟨hmem, hs⟩⟩ := hp
    · exact ⟨met, h.kept (hpa hmem), Or.inr (Or.inl ha)⟩
    · exact ⟨met, h.kept hmem, Or.inr (Or.inr hs)⟩
  · exact h.covers o ho

theorem Closure.visited {next : σ} {ss : List ν}
    (h : Closure w start f (old ++ [(item.node, item.state)]) (work ++ onward item next ss) all)
    (ht : Trail w start f item.path item.node item.state)
    (hvis : Visited w old item next ss) :
    Closure w start f old (item :: work) all := by
  have hh : (item.node, item.state) ∈ all :=
    h.kept (mem_append_right _ (mem_singleton_self _))
  have hnew : ∀ met, met ∉ old → met ≠ (item.node, item.state) →
      met ∉ old ++ [(item.node, item.state)] := by
    intro met hnot hne hmem
    rcases List.mem_append.mp hmem with hmem | hmem
    · exact hnot hmem
    · exact hne (mem_singleton.mp hmem)
  refine ⟨fun _ hmem => h.kept (mem_append_left _ hmem), ?_, ?_, ?_⟩
  · intro o ho
    rcases mem_cons.mp ho with rfl | ho
    · exact ⟨_, hh, Or.inl rfl⟩
    · exact h.covers o (mem_append_left _ ho)
  · intro met hmem hnot
    by_cases hmet : met = (item.node, item.state)
    · subst hmet
      refine ⟨next, ss, hvis.visit, ?_⟩
      intro s hs
      exact h.covers ⟨s, next, _⟩ (mem_append_right _ (mem_map_of_mem hs))
    · exact h.settled met hmem (hnew met hnot hmet)
  · intro met hmem hnot
    by_cases hmet : met = (item.node, item.state)
    · subst hmet
      exact ⟨item.path, ht⟩
    · exact h.reached met hmem (hnew met hnot hmet)

theorem explore_closure [DecidableEq ν] (hst : ∀ p n state answer,
      Stops w p n state answer → answer ≠ w.done) :
    ∀ (k : Nat) (work : List (Work ν σ)) (me : List (ν × σ)),
      Standing w start f work → (∀ item ∈ work, item.path ⊆ me) →
      explore w k work me = some w.done → ∃ all, Closure w start f me work all := by
  intro k
  induction k with
  | zero => intro work me _ _ h; simp [explore] at h
  | succ k ih =>
    intro work me hs hp h
    cases work with
    | nil =>
      exact ⟨me, ⟨fun _ hmem => hmem, by simp, fun _ hmem hnot => absurd hmem hnot,
        fun _ hmem hnot => absurd hmem hnot⟩⟩
    | cons item work =>
      have hr : ∀ o ∈ work, o.path ⊆ me :=
        fun o hmem => hp o (mem_cons_of_mem _ hmem)
      have hpa := hp item mem_cons_self
      rcases explore_cons w item work me with
        ⟨hpas, hgo⟩ | ⟨answer, hsto, hgo⟩ | ⟨next, ss, hvis, hgo⟩
      · rw [hgo] at h
        obtain ⟨all, hall⟩ := ih work me hs.rest hr h
        exact ⟨all, hall.passed hpa hpas⟩
      · rw [hgo] at h
        exact absurd (Option.some.inj h) (hst _ _ _ _ hsto)
      · rw [hgo] at h
        obtain ⟨all, hall⟩ := ih _ _ (hs.visited hvis) (by
          intro o ho
          rcases List.mem_append.mp ho with hold | hnew
          · exact fun _ hmem => mem_append_left _ (hr o hold hmem)
          · obtain ⟨s, _, rfl⟩ := mem_map.mp hnew
            intro met hmet
            rcases List.mem_append.mp hmet with hmet | hmet
            · exact mem_append_left _ (hpa hmet)
            · exact mem_append_right _ hmet) h
        exact ⟨all, hall.visited (hs item mem_cons_self) hvis⟩

/-- **What a walk that is done has visited is closed**, and covers the start. -/
theorem closed_of_done [DecidableEq ν] (hs : ∀ p n state answer,
      Stops w p n state answer → answer ≠ w.done)
    (h : explore w k [⟨start, f, []⟩] [] = some w.done) :
    ∃ me, Covered w me start f ∧ (∀ met ∈ me, Settled w me met) ∧
      ∀ met ∈ me, ∃ p, Trail w start f p met.1 met.2 := by
  obtain ⟨me, hall⟩ := explore_closure hs k _ [] standing_start (by simp) h
  exact ⟨me, hall.covers _ mem_cons_self,
    fun met hmem => hall.settled met hmem not_mem_nil,
    fun met hmem => hall.reached met hmem not_mem_nil⟩

/-! ### Not done -/

theorem explore_stops [DecidableEq ν] :
    ∀ (k : Nat) (work : List (Work ν σ)) (me : List (ν × σ)) (answer : ω),
      Standing w start f work → explore w k work me = some answer → answer ≠ w.done →
        ∃ p n state, Trail w start f p n state ∧ Stops w p n state answer := by
  intro k
  induction k with
  | zero => intro work me answer _ h _; simp [explore] at h
  | succ k ih =>
    intro work me answer hs h hne
    cases work with
    | nil =>
      rw [explore] at h
      exact absurd (Option.some.inj h).symm hne
    | cons item work =>
      rcases explore_cons w item work me with
        ⟨_, hgo⟩ | ⟨s, hst, hgo⟩ | ⟨next, ss, hvis, hgo⟩
      · rw [hgo] at h
        exact ih work me answer hs.rest h hne
      · rw [hgo] at h
        rw [← Option.some.inj h]
        exact ⟨_, _, _, hs item mem_cons_self, hst⟩
      · rw [hgo] at h
        exact ih _ _ answer (hs.visited hvis) h hne

/-- **A walk that is not done stops at the end of a path that meets no node twice.** -/
theorem stops_of_not_done [DecidableEq ν] (h : explore w k [⟨start, f, []⟩] [] = some answer)
    (hne : answer ≠ w.done) :
    ∃ p n state, Trail w start f p n state ∧ Stops w p n state answer :=
  explore_stops k _ [] answer standing_start h hne

/-! ### It ends -/

theorem explore_succ [DecidableEq ν] :
    ∀ (k : Nat) (work : List (Work ν σ)) (me : List (ν × σ)) (answer : ω),
      explore w k work me = some answer → explore w (k + 1) work me = some answer := by
  intro k
  induction k with
  | zero => intro work me answer h; simp [explore] at h
  | succ k ih =>
    intro work me answer h
    cases work with
    | nil => rw [explore] at h ⊢; exact h
    | cons item work =>
      rcases explore_cons w item work me with
        ⟨_, hgo⟩ | ⟨s, _, hgo⟩ | ⟨next, ss, _, hgo⟩
      · rw [hgo] at h ⊢
        exact ih _ _ _ h
      · rw [hgo] at h ⊢
        exact h
      · rw [hgo] at h ⊢
        exact ih _ _ _ h

theorem explore_mono [DecidableEq ν] {m : Nat} (hle : k ≤ m)
    (h : explore w k work me = some answer) : explore w m work me = some answer := by
  induction hle with
  | refl => exact h
  | step _ ih => exact explore_succ _ _ _ _ ih

section

variable {κ : Type} {key : ν → σ → κ} {ks : Set κ}

/-- The states that were visited have keys of their own, among finitely many. -/
structure Distinct (w : Walker ν σ ω) (start : ν) (first : σ) (key : ν → σ → κ) (keys : Set κ)
    (memo : List (ν × σ)) : Prop where
  nodup : (memo.map fun met => key met.1 met.2).Nodup
  among : ∀ met ∈ memo, key met.1 met.2 ∈ keys
  reached : ∀ met ∈ memo, ∃ path, Trail w start first path met.1 met.2

/-- The keys tell the states apart that the memo does not hold to be the same. -/
structure Keyed (w : Walker ν σ ω) (start : ν) (first : σ) (key : ν → σ → κ) (keys : Set κ) :
    Prop where
  among : ∀ path node state result, Trail w start first path node state →
    w.visit node state = .ok result → key node state ∈ keys
  same : ∀ path node met other state, Trail w start first path node met →
    Trail w start first other node state → key node met = key node state → w.same met state = true
  node : ∀ node met other state, key node met = key other state → node = other

variable {me : List (ν × σ)}

theorem Distinct.length_le (h : Distinct w start f key ks me) (hfin : ks.Finite) :
    me.length ≤ ks.ncard := by
  classical
  have hc : (me.map fun met => key met.1 met.2).toFinset.card = me.length := by
    rw [toFinset_card_of_nodup h.nodup, length_map]
  rw [← hc, ← Set.ncard_coe_finset]
  refine Set.ncard_le_ncard ?_ hfin
  intro k hk
  obtain ⟨met, hmem, rfl⟩ := mem_map.mp (mem_toFinset.mp (Finset.mem_coe.mp hk))
  exact h.among met hmem

theorem Distinct.visited (h : Distinct w start f key ks me)
    (hk : Keyed w start f key ks) {item : Work ν σ} {next : σ} {ss : List ν}
    (ht : Trail w start f item.path item.node item.state)
    (hvis : Visited w me item next ss) :
    Distinct w start f key ks (me ++ [(item.node, item.state)]) := by
  refine ⟨?_, ?_, ?_⟩
  · rw [map_append, nodup_append]
    refine ⟨h.nodup, nodup_singleton _, ?_⟩
    intro a ha b hb hab
    rw [map_singleton, mem_singleton] at hb
    obtain ⟨⟨n, met⟩, hmem, rfl⟩ := mem_map.mp ha
    have hkey : key n met = key item.node item.state := hab.trans hb
    have hn : n = item.node := hk.node _ _ _ _ hkey
    subst hn
    obtain ⟨p, hp⟩ := h.reached _ hmem
    have hs := hk.same _ _ _ _ _ hp ht hkey
    rw [hvis.unknown met hmem] at hs
    simp at hs
  · intro met hmem
    rcases List.mem_append.mp hmem with hmem | hmem
    · exact h.among met hmem
    · rw [mem_singleton.mp hmem]
      exact hk.among _ _ _ _ ht hvis.visit
  · intro met hmem
    rcases List.mem_append.mp hmem with hmem | hmem
    · exact h.reached met hmem
    · rw [mem_singleton.mp hmem]
      exact ⟨_, ht⟩

theorem explore_ends [DecidableEq ν] (hfin : ks.Finite) (hk : Keyed w start f key ks) :
    ∀ (r n : Nat) (work : List (Work ν σ)) (me : List (ν × σ)),
      Standing w start f work → Distinct w start f key ks me →
      ks.ncard - me.length = r → work.length = n →
      ∃ k, (explore w k work me).isSome = true := by
  intro r
  -- a visit takes a key that no visit had before; all else takes a piece of work away
  induction r using Nat.strongRecOn with
  | _ r ihRoom =>
    intro n
    induction n with
    | zero =>
      intro work me _ _ _ hlen
      rw [length_eq_zero_iff.mp hlen]
      exact ⟨1, rfl⟩
    | succ n ihLength =>
      intro work me hs hd hr hlen
      cases work with
      | nil => exact ⟨1, rfl⟩
      | cons item work =>
        rcases explore_cons w item work me with
          ⟨_, hgo⟩ | ⟨s, _, hgo⟩ | ⟨next, ss, hvis, hgo⟩
        · obtain ⟨k, hf⟩ := ihLength work me hs.rest hd hr (by simpa using hlen)
          exact ⟨k + 1, by rw [hgo]; exact hf⟩
        · exact ⟨1, by rw [hgo]; rfl⟩
        · have hnew := hd.visited hk (hs item mem_cons_self) hvis
          have hle := hnew.length_le hfin
          rw [length_append, length_singleton] at hle
          obtain ⟨k, hf⟩ := ihRoom (ks.ncard - (me ++ [(item.node, item.state)]).length)
            (by rw [length_append, length_singleton]; omega) _ _ _
            (hs.visited hvis) hnew rfl rfl
          exact ⟨k + 1, by rw [hgo]; exact hf⟩

/-- **The walk ends**, where the states it visits have finitely many keys. -/
theorem ends [DecidableEq ν] (key : ν → σ → κ) (ks : Set κ) (hfin : ks.Finite)
    (hk : Keyed w start f key ks) :
    ∃ k answer, ∀ m ≥ k, explore w m [⟨start, f, []⟩] [] = some answer := by
  obtain ⟨k, hf⟩ := explore_ends hfin hk _ _ [⟨start, f, []⟩] []
    standing_start ⟨nodup_nil, by simp, by simp⟩ rfl rfl
  obtain ⟨answer, hans⟩ := Option.isSome_iff_exists.mp hf
  exact ⟨k, answer, fun m hle => explore_mono hle hans⟩

end

end Beagle.Lib.Trails
