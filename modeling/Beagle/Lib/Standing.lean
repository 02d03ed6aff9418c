/-
What stands of a log.

An act of a log either puts an entry at the end of a list or erases the last entry
that is the same as its own.  The list at the end is what stands.  Sameness need not be
reflexive, so an entry that is not the same as itself can be put and never erased.

Two facts are needed of such lists.  The entries of a kind that sameness respects can
be kept alone from the start, which is what an index of that kind does.  And where
sameness amounts to having one key, what stands are the pushes of the keyed log that
nothing withdrew.
-/
import Beagle.Lib.Lifo

namespace Beagle.Lib

open List

variable {ε α β : Type}

/-- Without the last element of a test, if there is one. -/
def eraseLast (test : α → Bool) (xs : List α) : List α := (xs.reverse.eraseP test).reverse

variable {xs : List α} {x : α} {t : α → Bool}

theorem eraseLast_of_not (h : ∀ x ∈ xs, t x = false) : eraseLast t xs = xs := by
  unfold eraseLast
  rw [eraseP_of_forall_not, reverse_reverse]
  intro x hx
  rw [h x (mem_reverse.mp hx)]
  exact Bool.false_ne_true

theorem eraseLast_split {b after : List α} (hx : t x = true)
    (h : ∀ y ∈ after, t y = false) :
    eraseLast t (b ++ x :: after) = b ++ after := by
  unfold eraseLast
  rw [reverse_append, reverse_cons, append_assoc, eraseP_append_right]
  · simp [hx]
  · intro y hy
    rw [h y (mem_reverse.mp hy)]
    exact Bool.false_ne_true

/-- Nothing in the list passes the test, or there is a last one that does. -/
theorem exists_last (t : α → Bool) (xs : List α) : (∀ x ∈ xs, t x = false) ∨
      ∃ b x af, xs = b ++ x :: af ∧ t x = true ∧ ∀ y ∈ af, t y = false := by
  induction xs using reverseRecOn with
  | nil => exact Or.inl nofun
  | append_singleton xs x ih =>
    by_cases hx : t x = true
    · exact Or.inr ⟨xs, x, [], rfl, hx, nofun⟩
    · rw [Bool.not_eq_true] at hx
      rcases ih with hn | ⟨b, y, af, rfl, hy, hp⟩
      · left
        intro y hy
        rcases List.mem_append.mp hy with hy | hy
        · exact hn y hy
        · rw [mem_singleton.mp hy]
          exact hx
      · refine Or.inr ⟨b, y, af ++ [x], by simp, hy, ?_⟩
        intro z hz
        rcases List.mem_append.mp hz with hz | hz
        · exact hp z hz
        · rw [mem_singleton.mp hz]
          exact hx

theorem eraseLast_congr {t t' : α → Bool} (h : ∀ x ∈ xs, t x = t' x) :
    eraseLast t xs = eraseLast t' xs := by
  rcases exists_last t xs with hn | ⟨b, x, af, rfl, hx, hp⟩
  · rw [eraseLast_of_not hn, eraseLast_of_not fun x hx => (h x hx).symm.trans (hn x hx)]
  · rw [eraseLast_split hx hp, eraseLast_split]
    · exact (h x (by simp)).symm.trans hx
    · intro y hy
      exact (h y (by simp [hy])).symm.trans (hp y hy)

theorem eraseLast_filterMap {f : α → Option β} {t : β → Bool} (xs : List α) :
    eraseLast t (xs.filterMap f) = (eraseLast (fun x => (f x).any t) xs).filterMap f := by
  unfold eraseLast
  rw [← filterMap_reverse, eraseP_filterMap, filterMap_reverse]
  refine congrArg (fun fd => (filterMap f (eraseP fd xs.reverse)).reverse) ?_
  funext x
  cases f x <;> rfl

theorem mem_of_mem_eraseLast (h : x ∈ eraseLast t xs) : x ∈ xs := by
  unfold eraseLast at h
  rw [mem_reverse] at h
  exact mem_reverse.mp (eraseP_subset h)

theorem mem_eraseLast_of_not (hx : t x = false) (h : x ∈ xs) :
    x ∈ eraseLast t xs := by
  unfold eraseLast
  rw [mem_reverse, mem_eraseP_of_neg (by rw [hx]; exact Bool.false_ne_true), mem_reverse]
  exact h

variable {r : α → β → Prop} {t' : β → Bool} {ys : List β}

theorem eraseP_forall₂ (ht : ∀ a b, r a b → t a = t' b)
    (h : Forall₂ r xs ys) : Forall₂ r (xs.eraseP t) (ys.eraseP t') := by
  induction h with
  | nil => exact .nil
  | @cons x y _ _ hh hr ih =>
    rw [eraseP_cons, eraseP_cons, ht x y hh]
    cases t' y with
    | true => exact hr
    | false => exact .cons hh ih

theorem eraseLast_forall₂ (ht : ∀ a b, r a b → t a = t' b)
    (h : Forall₂ r xs ys) : Forall₂ r (eraseLast t xs) (eraseLast t' ys) :=
  rel_reverse (eraseP_forall₂ ht (rel_reverse h))

/-- Erasing among the elements of a kind is erasing, when the test keeps to the kind or out of
    it. -/
theorem filter_eraseLast {t kind : α → Bool}
    (h : ∀ x y, t x = true → t y = true → kind x = kind y) (xs : List α) :
    (eraseLast t xs).filter kind = eraseLast t (xs.filter kind) := by
  rcases exists_last t xs with hn | ⟨b, x, af, rfl, hx, hp⟩
  · rw [eraseLast_of_not hn, eraseLast_of_not]
    intro y hy
    exact hn y (mem_of_mem_filter hy)
  · rw [eraseLast_split hx hp, filter_append, filter_append, filter_cons]
    by_cases hk : kind x = true
    · rw [if_pos hk, eraseLast_split hx]
      intro y hy
      exact hp y (mem_of_mem_filter hy)
    · rw [if_neg hk, eraseLast_of_not]
      intro y hy
      have hy : y ∈ (b ++ af).filter kind := by rw [filter_append]; exact hy
      obtain ⟨-, hyk⟩ := mem_filter.mp hy
      cases hty : t y with
      | false => rfl
      | true => exact absurd ((h x y hx hty).trans hyk) hk

/-! ### What stands -/

section

variable (put : ε → Bool) (same : ε → ε → Bool)

/-- One act on what stands. -/
def standStep (standing : List ε) (act : ε) : List ε :=
  if put act then standing ++ [act] else eraseLast (same act) standing

/-- What stands after some acts, of the acts and of what stood before. -/
def stand (standing acts : List ε) : List ε := acts.foldl (standStep put same) standing

/-- One act, of which an entry of another kind is not put. -/
def standStepWithin (kind : ε → Bool) (standing : List ε) (act : ε) : List ε :=
  if put act then (if kind act then standing ++ [act] else standing)
  else eraseLast (same act) standing

def standWithin (kind : ε → Bool) (standing acts : List ε) : List ε :=
  acts.foldl (standStepWithin put same kind) standing

variable {put same}

theorem stand_append (sd ac more : List ε) :
    stand put same sd (ac ++ more) = stand put same (stand put same sd ac) more := by
  unfold stand
  rw [foldl_append]

variable {kind : ε → Bool}

/-- **The entries of a kind that stand are what stands of that kind alone.** -/
theorem standWithin_eq
    (hki : ∀ act x y, same act x = true → same act y = true → kind x = kind y)
    (ac : List ε) :
    ∀ sd, standWithin put same kind (sd.filter kind) ac = (stand put same sd ac).filter kind := by
  induction ac with
  | nil => intro sd; rfl
  | cons act r ih =>
    intro sd
    have hs : standStepWithin put same kind (sd.filter kind) act
        = (standStep put same sd act).filter kind := by
      unfold standStepWithin standStep
      by_cases hput : put act = true
      · rw [if_pos hput, if_pos hput, filter_append, filter_singleton]
        by_cases hk : kind act = true
        · simp [hk]
        · simp [hk]
      · rw [if_neg hput, if_neg hput, filter_eraseLast (hki act)]
    unfold standWithin stand
    rw [foldl_cons, foldl_cons, hs]
    exact ih _

theorem mem_of_mem_stand {ac : List ε} : ∀ {sd : List ε} {x : ε}, x ∈ stand put same sd ac →
      x ∈ sd ∨ x ∈ ac ∧ put x = true := by
  induction ac with
  | nil => intro sd x h; exact Or.inl h
  | cons act r ih =>
    intro sd x h
    rcases ih h with h | ⟨h, hput⟩
    · unfold standStep at h
      by_cases hput : put act = true
      · rw [if_pos hput] at h
        rcases List.mem_append.mp h with h | h
        · exact Or.inl h
        · rw [mem_singleton.mp h]
          exact Or.inr ⟨mem_cons_self .., hput⟩
      · rw [if_neg hput] at h
        exact Or.inl (mem_of_mem_eraseLast h)
    · exact Or.inr ⟨mem_cons_of_mem _ h, hput⟩

/-- An entry that no act is the same as stands from when it is put. -/
theorem mem_stand_of_free {x : ε} (hf : ∀ act, same act x = false) {acts : List ε} :
    ∀ {sd : List ε}, x ∈ sd ∨ x ∈ acts ∧ put x = true → x ∈ stand put same sd acts := by
  induction acts with
  | nil =>
    intro sd h
    rcases h with h | ⟨h, -⟩
    · exact h
    · exact absurd h not_mem_nil
  | cons act r ih =>
    intro sd h
    refine ih ?_
    unfold standStep
    by_cases hput : put act = true
    · rw [if_pos hput]
      rcases h with h | ⟨h, hx⟩
      · exact Or.inl (mem_append_left _ h)
      · rcases mem_cons.mp h with rfl | h
        · exact Or.inl (mem_append_right _ (mem_singleton.mpr rfl))
        · exact Or.inr ⟨h, hx⟩
    · rw [if_neg hput]
      rcases h with h | ⟨h, hx⟩
      · exact Or.inl (mem_eraseLast_of_not (hf act) h)
      · rcases mem_cons.mp h with rfl | h
        · exact absurd hx hput
        · exact Or.inr ⟨h, hx⟩

/-- **Erasing the entries of a kind newest first leaves the others.** -/
theorem stand_newest_first
    (hkind : ∀ e x, same e x = true → kind e = kind x) {named : List ε} :
    ∀ {standing acts : List ε}, standing.filter kind = named → (∀ e ∈ named, same e e = true) →
      Forall₂ (fun e act => put act = false ∧ ∀ x, same act x = same e x) named.reverse acts →
        stand put same standing acts = standing.filter fun x => !kind x := by
  induction named using reverseRecOn with
  | nil =>
    intro standing acts hnone _ hacts
    cases hacts
    refine (filter_eq_self.mpr ?_).symm
    intro x hx
    rw [Bool.not_eq_true', Bool.eq_false_iff]
    exact filter_eq_nil_iff.mp hnone x hx
  | append_singleton named e ih =>
    intro standing acts hnamed hself hacts
    rw [reverse_append, reverse_singleton, singleton_append] at hacts
    obtain ⟨act, rest, ⟨hput, hsame⟩, hrest, rfl⟩ := forall₂_cons_left_iff.mp hacts
    rcases exists_last kind standing with hnone | ⟨before, x, after, rfl, hx, hpost⟩
    · have hemp : standing.filter kind = [] :=
        filter_eq_nil_iff.mpr fun y hy => Bool.eq_false_iff.mp (hnone y hy)
      rw [hemp] at hnamed
      exact absurd hnamed.symm (append_ne_nil_of_right_ne_nil _ nofun)
    · have hlate : after.filter kind = [] :=
        filter_eq_nil_iff.mpr fun y hy => Bool.eq_false_iff.mp (hpost y hy)
      rw [filter_append, filter_cons, if_pos hx, hlate] at hnamed
      obtain ⟨hpre, hlast⟩ := append_inj' hnamed rfl
      cases hlast
      have hstep : standStep put same (before ++ e :: after) act = before ++ after := by
        unfold standStep
        rw [if_neg (Bool.eq_false_iff.mp hput), eraseLast_split]
        · rw [hsame]
          exact hself e (mem_append_right _ (mem_singleton.mpr rfl))
        · intro y hy
          rw [hsame]
          refine Bool.eq_false_iff.mpr fun hey => ?_
          exact Bool.false_ne_true ((hpost y hy).symm.trans ((hkind e y hey).symm.trans hx))
      have hfr : (before ++ after).filter kind = named := by
        rw [filter_append, hpre, hlate, append_nil]
      have hos := ih hfr (fun f hf => hself f (mem_append_left _ hf)) hrest
      unfold stand at hos ⊢
      rw [foldl_cons, hstep, hos, filter_append, filter_append, filter_cons, hx]
      rfl

/-- Acts that are alike one by one leave entries that are alike one by one. -/
theorem stand_forall₂ {r : ε → ε → Prop} (hput : ∀ a b, r a b → put a = put b)
    (hs : ∀ a b x y, r a b → r x y → same a x = same b y) {ac a' : List ε}
    (ha : Forall₂ r ac a') :
    ∀ {sd sd' : List ε}, Forall₂ r sd sd' →
      Forall₂ r (stand put same sd ac) (stand put same sd' a') := by
  induction ha with
  | nil => intro sd sd' h; exact h
  | @cons a b _ _ hh _ ih =>
    intro sd sd' h
    refine ih ?_
    unfold standStep
    rw [hput a b hh]
    by_cases hb : put b = true
    · rw [if_pos hb, if_pos hb]
      exact rel_append h (.cons hh .nil)
    · rw [if_neg hb, if_neg hb]
      exact eraseLast_forall₂ (fun x y hxy => hs a b x y hh hxy) h

end

/-! ### The pushes that nothing withdrew -/

namespace Lifo

variable {κ : Type} [DecidableEq κ]

/-- The positions of the pushes that nothing withdrew, in log order. -/
def standing (acts : List (Act κ)) : List Nat :=
  (List.range acts.length).filter fun p =>
    (acts[p]?.any Act.push) && !(targets acts).contains (some p)

variable {ac : List (Act κ)}

theorem mem_standing_iff {p : Nat} : p ∈ standing ac ↔ ∃ k, p ∈ live ac k := by
  unfold standing
  rw [mem_filter, List.mem_range]
  constructor
  · rintro ⟨hlt, h⟩
    rw [getElem?_eq_getElem hlt] at h
    simp only [Option.any_some, Bool.and_eq_true, Bool.not_eq_true', contains_eq_mem,
      decide_eq_false_iff_not] at h
    refine ⟨ac[p].key, mem_live_iff.mpr ⟨?_, ?_⟩⟩
    · rw [getElem?_eq_getElem hlt, ← h.1]
    · intro i hi
      exact h.2 (mem_of_getElem? hi)
  · rintro ⟨k, h⟩
    obtain ⟨hact, hf⟩ := mem_live_iff.mp h
    refine ⟨(List.getElem?_eq_some_iff.mp hact).1, ?_⟩
    rw [hact]
    simp only [Option.any_some, Bool.true_and, Bool.not_eq_true', contains_eq_mem,
      decide_eq_false_iff_not]
    intro hmem
    obtain ⟨i, hi⟩ := mem_iff_getElem?.mp hmem
    exact hf i hi

theorem standing_sorted (ac : List (Act κ)) : (standing ac).Pairwise (· < ·) :=
  List.Pairwise.filter _ pairwise_lt_range

/-- Two ascending lists with the same members are one list. -/
theorem eq_of_ascending {xs ys : List Nat} (hx : xs.Pairwise (· < ·)) (hy : ys.Pairwise (· < ·))
    (h : ∀ p, p ∈ xs ↔ p ∈ ys) : xs = ys := by
  have hp : xs.Perm ys := (perm_ext_iff_of_nodup
    (hx.imp fun hlt => Nat.ne_of_lt hlt) (hy.imp fun hlt => Nat.ne_of_lt hlt)).mpr h
  exact hp.eq_of_pairwise (fun a b _ _ h1 h2 => absurd h1 (Nat.lt_asymm h2)) hx hy

variable {a : Act κ} {acts : List (Act κ)}

theorem standing_push (h : a.push = true) :
    standing (acts ++ [a]) = standing acts ++ [acts.length] := by
  have hlive : ∀ k, live (acts ++ [a]) k
      = if k = a.key then live acts a.key ++ [acts.length] else live acts k := by
    intro k
    unfold live
    rw [run_append, step_live_push h]
    have hlen : (run acts).targets.length = acts.length := length_targets acts
    rw [hlen]
  refine eq_of_ascending (standing_sorted _) ?_ ?_
  · refine pairwise_append.mpr ⟨standing_sorted acts, pairwise_singleton _ _, ?_⟩
    intro p hp q hq
    rw [mem_singleton.mp hq]
    obtain ⟨k, hk⟩ := mem_standing_iff.mp hp
    exact (List.getElem?_eq_some_iff.mp (mem_live_iff.mp hk).1).1
  · intro p
    rw [mem_standing_iff, List.mem_append, mem_singleton, mem_standing_iff]
    constructor
    · intro ⟨k, hk⟩
      rw [hlive] at hk
      by_cases heq : k = a.key
      · rw [if_pos heq] at hk
        rcases List.mem_append.mp hk with hk | hk
        · exact Or.inl ⟨_, hk⟩
        · exact Or.inr (mem_singleton.mp hk)
      · rw [if_neg heq] at hk
        exact Or.inl ⟨k, hk⟩
    · intro hp
      rcases hp with ⟨k, hk⟩ | rfl
      · refine ⟨k, ?_⟩
        rw [hlive]
        by_cases heq : k = a.key
        · rw [if_pos heq, ← heq]
          exact mem_append_left _ hk
        · rw [if_neg heq]
          exact hk
      · refine ⟨a.key, ?_⟩
        rw [hlive, if_pos rfl]
        exact mem_append_right _ (mem_singleton.mpr rfl)

/-- A pull erases the last standing push of its key. -/
theorem standing_pull (h : a.push = false) : standing (acts ++ [a])
      = eraseLast (fun p => acts[p]?.any fun b => b.key = a.key) (standing acts) := by
  have hlive : ∀ k, live (acts ++ [a]) k
      = if k = a.key then (live acts a.key).dropLast else live acts k := by
    intro k
    unfold live
    rw [run_append, step_live_pull h]
  have hkey : ∀ p ∈ standing acts, (acts[p]?.any fun b => b.key = a.key) = true ↔
      p ∈ live acts a.key := by
    intro p hp
    obtain ⟨k, hk⟩ := mem_standing_iff.mp hp
    have hact := (mem_live_iff.mp hk).1
    rw [hact]
    simp only [Option.any_some, decide_eq_true_eq]
    constructor
    · intro heq
      rw [← heq]
      exact hk
    · intro hlive'
      have := (mem_live_iff.mp hlive').1
      rw [hact] at this
      exact congrArg Act.key (Option.some.inj this)
  let ofKey : Nat → Bool := fun p => acts[p]?.any fun b => b.key = a.key
  rcases exists_last ofKey (standing acts) with hnone | ⟨before, p, after, hsp, hp, hpost⟩
  · -- Nothing of the key stands, so nothing changes.
    have hnil : live acts a.key = [] := by
      refine eq_nil_iff_forall_not_mem.mpr ?_
      intro p hp
      have hmem : p ∈ standing acts := mem_standing_iff.mpr ⟨_, hp⟩
      exact Bool.false_ne_true ((hnone p hmem).symm.trans ((hkey p hmem).mpr hp))
    rw [eraseLast_of_not hnone]
    refine eq_of_ascending (standing_sorted _) (standing_sorted _) ?_
    intro p
    rw [mem_standing_iff, mem_standing_iff]
    refine exists_congr fun k => ?_
    rw [hlive, hnil]
    by_cases heq : k = a.key
    · rw [if_pos heq, heq, hnil]
      rfl
    · rw [if_neg heq]
  · rw [hsp, eraseLast_split hp hpost]
    have hsrt := standing_sorted acts
    rw [hsp] at hsrt
    have hmem : p ∈ standing acts := by rw [hsp]; simp
    have hplive := (hkey p hmem).mp hp
    -- The last of the key that stands is its newest live position.
    have hlast : (live acts a.key).getLast? = some p := by
      cases hl : (live acts a.key).getLast? with
      | none =>
        rw [getLast?_eq_none_iff] at hl
        rw [hl] at hplive
        cases hplive
      | some q =>
        have hle := le_newest hl hplive
        have hq : q ∈ live acts a.key := mem_of_getLast? hl
        have hqmem : q ∈ standing acts := mem_standing_iff.mpr ⟨_, hq⟩
        have hqkey := (hkey q hqmem).mpr hq
        rw [hsp] at hqmem
        rcases List.mem_append.mp hqmem with hq' | hq'
        · have := (pairwise_append.mp hsrt).2.2 q hq' p (mem_cons_self ..)
          omega
        · rcases mem_cons.mp hq' with rfl | hq'
          · rfl
          · exact absurd ((hpost q hq').symm.trans hqkey) Bool.false_ne_true
    obtain ⟨front, hfr⟩ := getLast?_eq_some_iff.mp hlast
    have hnd : p ∉ front := by
      have := (run_ok acts).sorted a.key
      rw [show (run acts).live a.key = front ++ [p] from hfr] at this
      intro hin
      exact Nat.lt_irrefl _ ((pairwise_append.mp this).2.2 p hin p (mem_singleton.mpr rfl))
    have hdrop : ∀ q, q ∈ (live acts a.key).dropLast ↔ q ∈ live acts a.key ∧ q ≠ p := by
      intro q
      rw [hfr, dropLast_concat]
      constructor
      · intro hq
        refine ⟨mem_append_left _ hq, ?_⟩
        rintro rfl
        exact hnd hq
      · intro ⟨hq, hne⟩
        rcases List.mem_append.mp hq with hq | hq
        · exact hq
        · exact absurd (mem_singleton.mp hq) hne
    refine eq_of_ascending (standing_sorted _) ?_ ?_
    · exact hsrt.sublist (by simp)
    · intro q
      have hrest : q ∈ before ++ after ↔ q ∈ standing acts ∧ q ≠ p := by
        rw [hsp]
        constructor
        · intro hq
          refine ⟨by rcases List.mem_append.mp hq with hq | hq <;> simp [hq], ?_⟩
          rintro rfl
          rw [pairwise_append, pairwise_cons] at hsrt
          rcases List.mem_append.mp hq with hq | hq
          · exact Nat.lt_irrefl _ (hsrt.2.2 q hq q (mem_cons_self ..))
          · exact Nat.lt_irrefl _ (hsrt.2.1.1 q hq)
        · intro ⟨hq, hne⟩
          rcases List.mem_append.mp hq with hq | hq
          · exact mem_append_left _ hq
          · rcases mem_cons.mp hq with rfl | hq
            · exact absurd rfl hne
            · exact mem_append_right _ hq
      rw [mem_standing_iff, hrest, mem_standing_iff]
      constructor
      · intro ⟨k, hk⟩
        rw [hlive] at hk
        by_cases heq : k = a.key
        · rw [if_pos heq] at hk
          obtain ⟨hk, hne⟩ := (hdrop q).mp hk
          exact ⟨⟨_, hk⟩, hne⟩
        · rw [if_neg heq] at hk
          refine ⟨⟨k, hk⟩, ?_⟩
          rintro rfl
          have h1 := (mem_live_iff.mp hk).1
          rw [(mem_live_iff.mp hplive).1] at h1
          exact heq (congrArg Act.key (Option.some.inj h1)).symm
      · intro ⟨⟨k, hk⟩, hne⟩
        refine ⟨k, ?_⟩
        rw [hlive]
        by_cases heq : k = a.key
        · rw [if_pos heq]
          rw [heq] at hk
          exact (hdrop q).mpr ⟨hk, hne⟩
        · rw [if_neg heq]
          exact hk

/-- The entries of a log that do what its acts do. -/
structure Entered (put : ε → Bool) (same : ε → ε → Bool) (acts : List (Act κ)) (entries : List ε) :
    Prop where
  length : acts.length = entries.length
  put : ∀ (p : Nat) (a : Act κ) (e : ε), acts[p]? = some a → entries[p]? = some e → put e = a.push
  same : ∀ (p q : Nat) (a b : Act κ) (d e : ε), p < q → acts[p]? = some a → acts[q]? = some b →
    entries[p]? = some d → entries[q]? = some e → same e d = decide (a.key = b.key)

theorem Entered.front {put : ε → Bool} {same : ε → ε → Bool} {ac : List (Act κ)}
    {entries : List ε} {a : Act κ} {e : ε}
    (h : Entered put same (ac ++ [a]) (entries ++ [e])) : Entered put same ac entries := by
  have hlen : ac.length = entries.length := by simpa using h.length
  refine ⟨hlen, ?_, ?_⟩
  · intro p b d hb hd
    have hlt := (List.getElem?_eq_some_iff.mp hb).1
    exact h.put p b d (by rw [getElem?_append_left hlt, hb])
      (by rw [getElem?_append_left (by omega), hd])
  · intro p q b c d e hlt hb hc hd he
    have hq := (List.getElem?_eq_some_iff.mp hc).1
    have hq' := (List.getElem?_eq_some_iff.mp he).1
    exact h.same p q b c d e hlt (by rw [getElem?_append_left (by omega), hb])
      (by rw [getElem?_append_left hq, hc]) (by rw [getElem?_append_left (by omega), hd])
      (by rw [getElem?_append_left hq', he])

/-- **What stands of the entries are the pushes of the log that nothing withdrew.** -/
theorem Entered.stand {put : ε → Bool} {same : ε → ε → Bool}
    {es : List ε} (h : Entered put same ac es) :
    Lib.stand put same [] es = (standing ac).filterMap fun p => es[p]? := by
  induction ac using reverseRecOn generalizing es with
  | nil =>
    rw [length_eq_zero_iff.mp h.length.symm]
    rfl
  | append_singleton ac a ih =>
    obtain ⟨es, e, rfl⟩ : ∃ fr e, es = fr ++ [e] := by
      have := h.length
      rw [length_append] at this
      cases hl : es.getLast? with
      | none =>
        rw [getLast?_eq_none_iff.mp hl] at this
        simp at this
      | some e => exact ⟨es.dropLast, e, (dropLast_append_getLast? e hl).symm⟩
    have hfr := h.front
    have hlen := hfr.length
    have hput : put e = a.push := h.put ac.length a e (by simp) (by simp [hlen])
    have hr : ∀ p ∈ standing ac, (es ++ [e])[p]? = es[p]? := by
      intro p hp
      obtain ⟨k, hk⟩ := mem_standing_iff.mp hp
      have := (List.getElem?_eq_some_iff.mp (mem_live_iff.mp hk).1).1
      exact getElem?_append_left (by omega)
    rw [stand_append, ih hfr]
    show standStep put same _ e = _
    unfold standStep
    by_cases hpu : a.push = true
    · rw [if_pos (hput.trans hpu), standing_push hpu, filterMap_append, filterMap_congr hr]
      simp [hlen]
    · rw [Bool.not_eq_true] at hpu
      rw [if_neg (by rw [hput, hpu]; exact Bool.false_ne_true), standing_pull hpu,
        eraseLast_filterMap]
      rw [filterMap_congr fun p hp => hr p (mem_of_mem_eraseLast hp)]
      refine congrArg _ (eraseLast_congr ?_)
      intro p hp
      obtain ⟨k, hk⟩ := mem_standing_iff.mp hp
      have hact := (mem_live_iff.mp hk).1
      have hlt := (List.getElem?_eq_some_iff.mp hact).1
      have hent : es[p]? = some es[p] := getElem?_eq_getElem (by omega)
      rw [hent, hact]
      simp only [Option.any_some]
      exact h.same p ac.length ⟨true, k⟩ a es[p] e hlt
        (by rw [getElem?_append_left hlt, hact]) (by simp)
        (by rw [getElem?_append_left (by omega), hent]) (by simp [hlen])

end Lifo

end Beagle.Lib
