/-
Occurrences that are withdrawn newest first.

A log of acts on keys: an act either pushes a new occurrence of its key or
withdraws the newest occurrence of it that is still live, if there is one.  An
occurrence is named by its position in the log.  `run` folds the log into the live
positions of every key and, for each act, the position it withdrew.

Everything that can be said about such a log is said by one invariant, `Ok`, which
a single act preserves: the live positions of a key are exactly its pushes that
nothing withdrew, in log order; a withdrawal names an earlier push of its own key;
and no push is withdrawn twice.
-/
import Mathlib

namespace Beagle.Lib.Lifo

open List

/-- One act on a key. -/
structure Act (κ : Type) where
  push : Bool
  key : κ
deriving DecidableEq, Repr

/-- The live positions of every key, and what each act withdrew. -/
structure State (κ : Type) where
  live : κ → List Nat
  targets : List (Option Nat)

variable {κ : Type}

def State.init : State κ := { live := fun _ => [], targets := [] }

section

variable [DecidableEq κ]

/-- The effect of one act; its position is the number of acts before it. -/
def step (s : State κ) (a : Act κ) : State κ :=
  if a.push then
    { live := Function.update s.live a.key (s.live a.key ++ [s.targets.length])
      targets := s.targets ++ [none] }
  else
    match (s.live a.key).getLast? with
    | none => { s with targets := s.targets ++ [none] }
    | some target =>
      { live := Function.update s.live a.key (s.live a.key).dropLast
        targets := s.targets ++ [some target] }

def run (acts : List (Act κ)) : State κ := acts.foldl step State.init

/-- The positions of a key's occurrences that are live after the log. -/
def live (acts : List (Act κ)) (k : κ) : List Nat := (run acts).live k

/-- What each act of the log withdrew. -/
def targets (acts : List (Act κ)) : List (Option Nat) := (run acts).targets

theorem run_append (ac : List (Act κ)) (a : Act κ) : run (ac ++ [a]) = step (run ac) a := by
  simp [run, foldl_append]

/-- What an act withdraws when it meets a state. -/
def target (s : State κ) (a : Act κ) : Option Nat :=
  if a.push then none else (s.live a.key).getLast?

theorem step_targets (s : State κ) (a : Act κ) :
    (step s a).targets = s.targets ++ [target s a] := by
  unfold step target
  by_cases hp : a.push = true
  · simp only [hp, if_true]
  · simp only [hp]
    cases (s.live a.key).getLast? with
    | none => rfl
    | some t => rfl

variable {a : Act κ}

theorem step_live_push {s : State κ} (h : a.push = true) (k : κ) : (step s a).live k
      = if k = a.key then s.live a.key ++ [s.targets.length] else s.live k := by
  unfold step
  rw [if_pos h]
  by_cases hk : k = a.key
  · subst hk; simp
  · simp [hk]

theorem step_live_pull {s : State κ} (h : a.push = false) (k : κ) :
    (step s a).live k = if k = a.key then (s.live a.key).dropLast else s.live k := by
  unfold step
  rw [if_neg (by simp [h])]
  cases hl : (s.live a.key).getLast? with
  | none =>
    rw [getLast?_eq_none_iff] at hl
    by_cases hk : k = a.key
    · subst hk; simp [hl]
    · simp [hk]
  | some t =>
    by_cases hk : k = a.key
    · subst hk; simp
    · simp [hk]

theorem length_targets (ac : List (Act κ)) : (targets ac).length = ac.length := by
  unfold targets
  induction ac using reverseRecOn with
  | nil => rfl
  | append_singleton ac a ih =>
    rw [run_append, step_targets, length_append, ih]
    simp

end

/-! ### The invariant one act preserves -/

/-- What the state says about the log that led to it. -/
structure Ok (acts : List (Act κ)) (s : State κ) : Prop where
  length : s.targets.length = acts.length
  live_iff : ∀ (k : κ) (p : Nat), p ∈ s.live k ↔
    acts[p]? = some ⟨true, k⟩ ∧ ∀ i : Nat, s.targets[i]? ≠ some (some p)
  sorted : ∀ k, (s.live k).Pairwise (· < ·)
  earlier : ∀ i p : Nat, s.targets[i]? = some (some p) →
    ∃ k, p < i ∧ acts[i]? = some ⟨false, k⟩ ∧ acts[p]? = some ⟨true, k⟩
  once : ∀ i j p : Nat, s.targets[i]? = some (some p) → s.targets[j]? = some (some p) → i = j

theorem ok_init : Ok ([] : List (Act κ)) State.init := by
  refine ⟨rfl, ?_, ?_, ?_, ?_⟩
  · intro k p; simp [State.init]
  · intro k; simp [State.init]
  · intro i p h; simp [State.init] at h
  · intro i j p h; simp [State.init] at h

private theorem getElem?_snoc {α : Type} (l : List α) (x y : α) (i : Nat) :
    (l ++ [x])[i]? = some y ↔ l[i]? = some y ∨ (i = l.length ∧ x = y) := by
  rcases Nat.lt_trichotomy i l.length with hlt | heq | hgt
  · rw [getElem?_append_left hlt]
    simp [Nat.ne_of_lt hlt]
  · subst heq
    simp
  · rw [getElem?_eq_none (by simp; omega), getElem?_eq_none (by omega)]
    simp [Nat.ne_of_gt hgt]

/-- A live position lies inside the log. -/
theorem Ok.live_lt {ac : List (Act κ)} {s : State κ} (h : Ok ac s) {k : κ} {p : Nat}
    (hp : p ∈ s.live k) : p < ac.length :=
  (List.getElem?_eq_some_iff.mp ((h.live_iff k p).mp hp).1).1

section

variable [DecidableEq κ] {s : State κ} {k : κ} {i p : Nat} {ac : List (Act κ)}

private theorem step_ok_push (h : Ok ac s) {a : Act κ}
    (ha : a.push = true) : Ok (ac ++ [a]) (step s a) := by
  obtain ⟨pu, key⟩ := a
  subst ha
  have htar : (step s ⟨true, key⟩).targets = s.targets ++ [none] := by
    rw [step_targets]; simp [target]
  have hs : ∀ i p : Nat, (step s ⟨true, key⟩).targets[i]? = some (some p) ↔
      s.targets[i]? = some (some p) := by
    intro i p
    rw [htar, getElem?_snoc]
    simp
  -- The new position is the length of the log, which nothing has named before.
  have hf : ∀ i : Nat, s.targets[i]? ≠ some (some ac.length) := by
    intro i hi
    obtain ⟨k, -, -, hpu⟩ := h.earlier i _ hi
    have := (List.getElem?_eq_some_iff.mp hpu).1
    omega
  refine ⟨?_, ?_, ?_, ?_, ?_⟩
  · rw [htar, length_append, length_append, h.length]; rfl
  · intro k p
    rw [step_live_push rfl, getElem?_snoc]
    simp only [ne_eq, hs]
    by_cases hk : k = key
    · subst hk
      simp only [if_true, List.mem_append, mem_singleton, h.live_iff, h.length]
      constructor
      · rintro (⟨hac, hn⟩ | rfl)
        · exact ⟨Or.inl hac, hn⟩
        · exact ⟨Or.inr ⟨rfl, trivial⟩, hf⟩
      · rintro ⟨hac | ⟨rfl, -⟩, hn⟩
        · exact Or.inl ⟨hac, hn⟩
        · exact Or.inr rfl
    · rw [if_neg hk, h.live_iff]
      constructor
      · rintro ⟨hac, hn⟩
        exact ⟨Or.inl hac, hn⟩
      · rintro ⟨hac | ⟨-, heq⟩, hn⟩
        · exact ⟨hac, hn⟩
        · exact absurd (by simpa using heq.symm : k = key) hk
  · intro k
    rw [step_live_push rfl]
    by_cases hk : k = key
    · subst hk
      rw [if_pos rfl]
      refine pairwise_append.mpr ⟨h.sorted k, pairwise_singleton _ _, ?_⟩
      intro p hp q hq
      rw [mem_singleton.mp hq, h.length]
      exact h.live_lt hp
    · rw [if_neg hk]
      exact h.sorted k
  · intro i p hi
    obtain ⟨k, hlt, hpul, hpu⟩ := h.earlier i p ((hs i p).mp hi)
    exact ⟨k, hlt, (getElem?_snoc ..).mpr (Or.inl hpul), (getElem?_snoc ..).mpr (Or.inl hpu)⟩
  · intro i j p hi hj
    exact h.once i j p ((hs i p).mp hi) ((hs j p).mp hj)

private theorem step_ok_none (h : Ok ac s)
    (hl : (s.live k).getLast? = none) : Ok (ac ++ [⟨false, k⟩]) (step s ⟨false, k⟩) := by
  have htar : (step s ⟨false, k⟩).targets = s.targets ++ [none] := by
    rw [step_targets]; simp [target, hl]
  have hli : ∀ k', (step s ⟨false, k⟩).live k' = s.live k' := by
    intro k'
    rw [step_live_pull rfl]
    rw [getLast?_eq_none_iff] at hl
    by_cases hk : k' = k
    · subst hk; simp [hl]
    · rw [if_neg hk]
  have hs : ∀ i p : Nat, (step s ⟨false, k⟩).targets[i]? = some (some p) ↔
      s.targets[i]? = some (some p) := by
    intro i p
    rw [htar, getElem?_snoc]
    simp
  refine ⟨?_, ?_, ?_, ?_, ?_⟩
  · rw [htar, length_append, length_append, h.length]; rfl
  · intro k' p
    rw [hli, getElem?_snoc]
    simp only [ne_eq, hs, h.live_iff]
    simp
  · intro k'
    rw [hli]
    exact h.sorted k'
  · intro i p hi
    obtain ⟨k', hlt, hp, hpu⟩ := h.earlier i p ((hs i p).mp hi)
    exact ⟨k', hlt, (getElem?_snoc ..).mpr (Or.inl hp), (getElem?_snoc ..).mpr (Or.inl hpu)⟩
  · intro i j p hi hj
    exact h.once i j p ((hs i p).mp hi) ((hs j p).mp hj)

private theorem step_ok_some (h : Ok ac s) {t : Nat}
    (hl : (s.live k).getLast? = some t) : Ok (ac ++ [⟨false, k⟩]) (step s ⟨false, k⟩) := by
  have htar : (step s ⟨false, k⟩).targets = s.targets ++ [some t] := by
    rw [step_targets]; simp [target, hl]
  have hs : ∀ i p : Nat, (step s ⟨false, k⟩).targets[i]? = some (some p) ↔
      s.targets[i]? = some (some p) ∨ (i = ac.length ∧ t = p) := by
    intro i p
    rw [htar, getElem?_snoc, h.length]
    simp
  have hsp : s.live k = (s.live k).dropLast ++ [t] :=
    (dropLast_append_getLast? t hl).symm
  have htm : t ∈ s.live k := by rw [hsp]; simp
  obtain ⟨htpu, ht⟩ := (h.live_iff k t).mp htm
  have hsrt := h.sorted k
  rw [hsp] at hsrt
  obtain ⟨hin, -, hb⟩ := pairwise_append.mp hsrt
  refine ⟨?_, ?_, ?_, ?_, ?_⟩
  · rw [htar, length_append, length_append, h.length]; rfl
  · intro k' p
    rw [step_live_pull rfl, getElem?_snoc]
    simp only [ne_eq, hs]
    by_cases hk : k' = k
    · subst hk
      rw [if_pos rfl]
      constructor
      · intro hp
        have hlt : p < t := hb p hp t (mem_singleton.mpr rfl)
        obtain ⟨ha, hn⟩ := (h.live_iff k' p).mp (by rw [hsp]; simp [hp])
        refine ⟨Or.inl ha, ?_⟩
        rintro i (hi | ⟨-, htp⟩)
        · exact hn i hi
        · exact Nat.ne_of_gt hlt htp
      · rintro ⟨ha | ⟨-, heq⟩, hn⟩
        · have hp := (h.live_iff k' p).mpr ⟨ha, fun i hi => hn i (Or.inl hi)⟩
          rw [hsp] at hp
          rcases List.mem_append.mp hp with hp | hp
          · exact hp
          · exact absurd (Or.inr ⟨rfl, (mem_singleton.mp hp).symm⟩) (hn ac.length)
        · simp at heq
    · rw [if_neg hk, h.live_iff]
      constructor
      · rintro ⟨ha, hn⟩
        refine ⟨Or.inl ha, ?_⟩
        rintro i (hi | ⟨-, rfl⟩)
        · exact hn i hi
        · rw [htpu] at ha
          exact hk (by simpa using ha.symm)
      · rintro ⟨ha | ⟨-, heq⟩, hn⟩
        · exact ⟨ha, fun i hi => hn i (Or.inl hi)⟩
        · simp at heq
  · intro k'
    rw [step_live_pull rfl]
    by_cases hk : k' = k
    · rw [if_pos hk]; exact hin
    · rw [if_neg hk]; exact h.sorted k'
  · intro i p hi
    rcases (hs i p).mp hi with hi | ⟨rfl, rfl⟩
    · obtain ⟨k', hlt, hpu, hpus⟩ := h.earlier i p hi
      exact ⟨k', hlt, (getElem?_snoc ..).mpr (Or.inl hpu), (getElem?_snoc ..).mpr (Or.inl hpus)⟩
    · exact ⟨k, h.live_lt htm, (getElem?_snoc ..).mpr (Or.inr ⟨rfl, rfl⟩),
        (getElem?_snoc ..).mpr (Or.inl htpu)⟩
  · intro i j p hi hj
    rcases (hs i p).mp hi with hi | ⟨rfl, hti⟩
    · rcases (hs j p).mp hj with hj | ⟨rfl, htj⟩
      · exact h.once i j p hi hj
      · exact absurd hi (by rw [← htj]; exact ht i)
    · rcases (hs j p).mp hj with hj | ⟨rfl, htj⟩
      · exact absurd hj (by rw [← hti]; exact ht j)
      · rfl

theorem step_ok (h : Ok ac s) (a : Act κ) : Ok (ac ++ [a]) (step s a) := by
  obtain ⟨pu, k⟩ := a
  cases pu with
  | true => exact step_ok_push h rfl
  | false =>
    cases hl : (s.live k).getLast? with
    | none => exact step_ok_none h hl
    | some t => exact step_ok_some h hl

/-- **Folding a log keeps the invariant.** -/
theorem run_ok (ac : List (Act κ)) : Ok ac (run ac) := by
  induction ac using reverseRecOn with
  | nil => exact ok_init
  | append_singleton ac a ih => rw [run_append]; exact step_ok ih a

/-! ### What an act withdraws is decided by the acts before it -/

theorem targets_append (ac : List (Act κ)) (a : Act κ) :
    targets (ac ++ [a]) = targets ac ++ [target (run ac) a] := by
  unfold targets
  rw [run_append, step_targets]

theorem targets_getElem? (ac : List (Act κ)) (i : Nat) (a : Act κ) (h : ac[i]? = some a) :
    (targets ac)[i]? = some (target (run (ac.take i)) a) := by
  induction ac using reverseRecOn with
  | nil => simp at h
  | append_singleton ac b ih =>
    rw [targets_append]
    rcases (getElem?_snoc ..).mp h with hi | ⟨rfl, rfl⟩
    · have hlt : i < ac.length := (List.getElem?_eq_some_iff.mp hi).1
      rw [getElem?_append_left (by rw [length_targets]; exact hlt), ih hi,
        take_append_of_le_length (Nat.le_of_lt hlt)]
    · rw [getElem?_append_right (Nat.le_of_eq (length_targets ac))]
      simp [length_targets]

/-- The acts before a position decide what is withdrawn before it. -/
theorem targets_take (ac : List (Act κ)) (i : Nat) : targets (ac.take i) = (targets ac).take i := by
  refine ext_getElem? ?_
  intro j
  by_cases hj : j < i
  · rw [getElem?_take_of_lt hj]
    cases ha : ac[j]? with
    | none =>
      rw [List.getElem?_eq_none_iff] at ha
      rw [getElem?_eq_none (by rw [length_targets, length_take]; omega),
        getElem?_eq_none (by rw [length_targets]; exact ha)]
    | some a =>
      have ha' : (ac.take i)[j]? = some a := by rw [getElem?_take_of_lt hj, ha]
      rw [targets_getElem? ac j a ha, targets_getElem? _ j a ha', take_take,
        Nat.min_eq_left (Nat.le_of_lt hj)]
  · rw [getElem?_eq_none (by rw [length_targets, length_take]; omega),
      getElem?_eq_none (by rw [length_take]; omega)]

/-- A live position just before an act is a push of its key that nothing has withdrawn yet. -/
theorem mem_live_take_iff :
    p ∈ live (ac.take i) k ↔ p < i ∧ ac[p]? = some ⟨true, k⟩ ∧
      ∀ j, j < i → (targets ac)[j]? ≠ some (some p) := by
  have hiff := (run_ok (ac.take i)).live_iff k p
  have ht : (run (ac.take i)).targets = (targets ac).take i := targets_take ac i
  rw [ht] at hiff
  refine hiff.trans ⟨?_, ?_⟩
  · intro ⟨hpush, hfree⟩
    have hlt : p < i := by
      have := (List.getElem?_eq_some_iff.mp hpush).1
      rw [length_take] at this
      omega
    rw [getElem?_take_of_lt hlt] at hpush
    refine ⟨hlt, hpush, ?_⟩
    intro j hj
    have := hfree j
    rwa [getElem?_take_of_lt hj] at this
  · intro ⟨hlt, hpush, hfree⟩
    refine ⟨by rw [getElem?_take_of_lt hlt]; exact hpush, ?_⟩
    intro j
    by_cases hj : j < i
    · rw [getElem?_take_of_lt hj]
      exact hfree j hj
    · rw [getElem?_eq_none (by rw [length_take]; omega)]
      exact nofun

/-- No live position comes after the newest. -/
theorem le_newest {q : Nat} (hp : (live ac k).getLast? = some p)
    (hq : q ∈ live ac k) : q ≤ p := by
  obtain ⟨fr, hfr⟩ := getLast?_eq_some_iff.mp hp
  have hsrt := (run_ok ac).sorted k
  have hl : (run ac).live k = fr ++ [p] := hfr
  rw [hl] at hsrt
  rw [hfr] at hq
  rcases List.mem_append.mp hq with hq | hq
  · exact Nat.le_of_lt ((pairwise_append.mp hsrt).2.2 q hq p (mem_singleton.mpr rfl))
  · exact Nat.le_of_eq (mem_singleton.mp hq)

/-- An act that withdraws something withdraws the newest live occurrence of its key. -/
theorem newest_of_target (h : (targets ac)[i]? = some (some p)) :
    ∃ k, p < i ∧ ac[i]? = some ⟨false, k⟩ ∧ ac[p]? = some ⟨true, k⟩ ∧
      (live (ac.take i) k).getLast? = some p := by
  obtain ⟨k, hlt, hp, hpu⟩ := (run_ok ac).earlier i p h
  refine ⟨k, hlt, hp, hpu, ?_⟩
  rw [targets_getElem? ac i _ hp] at h
  simpa [target, live] using h

/-- An act that pulls withdraws nothing exactly when its key had nothing live. -/
theorem target_none_iff (h : ac[i]? = some ⟨false, k⟩) :
    (targets ac)[i]? = some none ↔ live (ac.take i) k = [] := by
  rw [targets_getElem? ac i _ h]
  simp [target, live, getLast?_eq_none_iff]

/-! ### Renaming keys -/

section

variable {κ' : Type} [DecidableEq κ'] {rel : κ → κ' → Prop}

/-- Two acts that are the same but for the name of the key. -/
def Act.Renamed (rel : κ → κ' → Prop) (a : Act κ) (a' : Act κ') : Prop :=
  a.push = a'.push ∧ rel a.key a'.key

/-- Two states that are the same but for the names of the keys. -/
structure State.Renamed (rel : κ → κ' → Prop) (s : State κ) (s' : State κ') : Prop where
  live : ∀ k k', rel k k' → s.live k = s'.live k'
  targets : s.targets = s'.targets

theorem step_renamed (hrel : ∀ a b a' b', rel a a' → rel b b' → (a = b ↔ a' = b')) {s : State κ}
    {s' : State κ'} (h : s.Renamed rel s') {a : Act κ} {a' : Act κ'} (ha : a.Renamed rel a') :
    (step s a).Renamed rel (step s' a') := by
  obtain ⟨hpu, hkey⟩ := ha
  refine ⟨?_, ?_⟩
  · intro k k' hk
    have hiff := hrel _ _ _ _ hk hkey
    cases hp : a.push with
    | true =>
      rw [step_live_push hp, step_live_push (hpu.symm.trans hp), h.targets, h.live _ _ hkey,
        h.live _ _ hk]
      simp only [hiff]
    | false =>
      rw [step_live_pull hp, step_live_pull (hpu.symm.trans hp), h.live _ _ hkey, h.live _ _ hk]
      simp only [hiff]
  · rw [step_targets, step_targets, h.targets]
    unfold target
    rw [hpu, h.live _ _ hkey]

/-- **What is withdrawn does not depend on the names of the keys.** -/
theorem targets_renamed (hrel : ∀ a b a' b', rel a a' → rel b b' → (a = b ↔ a' = b'))
    {ac : List (Act κ)} {acts' : List (Act κ')}
    (h : Forall₂ (Act.Renamed rel) ac acts') : targets ac = targets acts' := by
  have hf : ∀ (s : State κ) (s' : State κ'), s.Renamed rel s' →
      (ac.foldl step s).Renamed rel (acts'.foldl step s') := by
    induction h with
    | nil => exact fun s s' hs => hs
    | cons ha _ ih => exact fun s s' hs => ih _ _ (step_renamed hrel hs ha)
  exact (hf State.init State.init ⟨fun _ _ _ => rfl, rfl⟩).targets

end

/-- The pushes of a key that nothing withdrew, in log order. -/
theorem mem_live_iff :
    p ∈ live ac k ↔ ac[p]? = some ⟨true, k⟩ ∧ ∀ i : Nat, (targets ac)[i]? ≠ some (some p) :=
  (run_ok ac).live_iff k p

end

end Beagle.Lib.Lifo
