/-
Keys linked by slot.

Keys are numbered in the order they come, and each is put at the front of the chain of
its slot: `heads` has the newest key of every slot and `chain` has, for every key, the
next older one of the same slot.  There is none where the entry is negative.  Walking
a chain meets the keys of its slot newest first, so a walk that stops at the first key
of a test finds the newest one.

Entries grouped by key, the keys linked by slot.

Every key has a leaf, which is what was put under an equal key, in order.  Keys are
compared by a test of their own, and a key that is not equal to itself gets a leaf that
no probe reaches.  When there are too many keys for the slots the keys are linked again
over twice as many.
-/
import Beagle.Lib.Keyed

namespace Beagle.Lib

open List

structure HashChain where
  heads : List Int
  chain : List Int
deriving DecidableEq, Repr

namespace HashChain

/-- No keys, over that many slots. -/
def fresh (width : Nat) : HashChain := ⟨replicate width (-1), []⟩

/-- Put the next key at the front of a slot. -/
def push (links : HashChain) (slot : Nat) : HashChain :=
  { heads := links.heads.set slot links.chain.length
    chain := links.chain ++ [links.heads.getD slot (-1)] }

/-- Follow a chain from a key to the first one of a test; the fuel bounds the keys passed. -/
def walk (chain : List Int) (test : Nat → Bool) : Nat → Int → Option Nat
  | 0, _ => none
  | fuel + 1, key =>
    if key < 0 then none
    else if test key.toNat then some key.toNat
    else walk chain test fuel (chain.getD key.toNat (-1))

/-- The first key of a test in the chain of a slot.  A chain passes no key twice. -/
def find (links : HashChain) (slot : Nat) (test : Nat → Bool) : Option Nat :=
  walk links.chain test (links.chain.length + 1) (links.heads.getD slot (-1))

/-! ### What the links say -/

variable {so : Nat → Nat}

/-- The newest of the first `n` keys of a slot. -/
def newest (slotOf : Nat → Nat) (slot : Nat) : Nat → Int
  | 0 => -1
  | n + 1 => if slotOf n = slot then n else newest slotOf slot n

/-- The newest of the first `n` keys of a slot that the test holds of. -/
def newestOf (slotOf : Nat → Nat) (slot : Nat) (test : Nat → Bool) : Nat → Option Nat
  | 0 => none
  | n + 1 => if slotOf n = slot ∧ test n then some n else newestOf slotOf slot test n

/-- The links of `n` keys, each under its slot. -/
structure Linked (slotOf : Nat → Nat) (width n : Nat) (links : HashChain) : Prop where
  widthEq : links.heads.length = width
  lengthEq : links.chain.length = n
  head : ∀ slot, slot < width → links.heads.getD slot (-1) = newest slotOf slot n
  next : ∀ key, key < n → links.chain.getD key (-1) = newest slotOf (slotOf key) key

variable {so' : Nat → Nat}

theorem newest_congr {slot : Nat} : ∀ {n : Nat}, (∀ key, key < n → so key = so' key) →
      newest so slot n = newest so' slot n := by
  intro n
  induction n with
  | zero => intro _; rfl
  | succ n ih =>
    intro h
    unfold newest
    rw [h n (Nat.lt_succ_self n), ih fun key hkey => h key (Nat.lt_succ_of_lt hkey)]

variable {n : Nat}

/-- Only the slots of the keys that are there count. -/
theorem Linked.congr {width : Nat} {links : HashChain} (h : Linked so width n links)
    (hslots : ∀ key, key < n → so key = so' key) :
    Linked so' width n links where
  widthEq := h.widthEq
  lengthEq := h.lengthEq
  head slot hslot := by rw [h.head slot hslot, newest_congr hslots]
  next key hkey := by
    rw [h.next key hkey, hslots key hkey]
    exact newest_congr fun other ho => hslots other (Nat.lt_trans ho hkey)

theorem fresh_linked (so : Nat → Nat) (w : Nat) : Linked so w 0 (fresh w) where
  widthEq := by simp [fresh]
  lengthEq := rfl
  head slot hslot := by simp [fresh, newest, getD_eq_getElem?_getD, hslot]
  next key hkey := absurd hkey (Nat.not_lt_zero key)

variable {ls : HashChain} {w : Nat}

/-- **Putting a key at the front of its slot links one key more.** -/
theorem Linked.push (h : Linked so w n ls)
    (hs : so n < w) : Linked so w (n + 1) (ls.push (so n)) where
  widthEq := by simp [HashChain.push, h.widthEq]
  lengthEq := by simp [HashChain.push, h.lengthEq]
  head slot hlt := by
    have hin : so n < ls.heads.length := by rw [h.widthEq]; exact hs
    unfold newest HashChain.push
    by_cases heq : so n = slot
    · subst heq
      rw [if_pos rfl, getD_eq_getElem?_getD, getElem?_set_self hin, h.lengthEq]
      rfl
    · rw [if_neg heq, getD_eq_getElem?_getD, getElem?_set_ne heq, ← getD_eq_getElem?_getD]
      exact h.head slot hlt
  next key hkey := by
    unfold HashChain.push
    by_cases heq : key = n
    · subst heq
      rw [getD_eq_getElem?_getD, ← h.lengthEq, getElem?_append_right (Nat.le_refl _), h.lengthEq]
      simp only [Nat.sub_self, getElem?_cons_zero, Option.getD_some]
      exact h.head _ hs
    · have hlt : key < n := by omega
      rw [getD_eq_getElem?_getD, getElem?_append_left (by rw [h.lengthEq]; exact hlt),
        ← getD_eq_getElem?_getD]
      exact h.next key hlt

/-! ### What a walk finds -/

/-- A walk from the newest key of a slot finds the newest one of the test. -/
theorem walk_newest (h : Linked so w n ls) (ts' : Nat → Bool) (s : Nat) :
    ∀ m fu, m ≤ n → m < fu → walk ls.chain ts' fu (newest so s m) = newestOf so s ts' m := by
  intro m
  induction m with
  | zero =>
    intro fu _ hf
    obtain ⟨fu, rfl⟩ := Nat.exists_eq_succ_of_ne_zero (Nat.ne_of_gt hf)
    rfl
  | succ m ih =>
    intro fu hm hf
    obtain ⟨fu, rfl⟩ := Nat.exists_eq_succ_of_ne_zero (Nat.ne_of_gt (Nat.zero_lt_of_lt hf))
    unfold newest newestOf
    by_cases hs : so m = s
    · rw [if_pos hs]
      unfold walk
      rw [if_neg (by omega), Int.toNat_natCast]
      by_cases ht : ts' m = true
      · rw [if_pos ht, if_pos ⟨hs, ht⟩]
      · rw [if_neg ht, if_neg fun hb => ht hb.2, h.next m (by omega), hs]
        exact ih fu (by omega) (by omega)
    · rw [if_neg hs, if_neg fun hb => hs hb.1]
      exact ih (fu + 1) (by omega) (by omega)

variable {s : Nat}

theorem find_eq (h : Linked so w n ls)
    (hs : s < w) (ts' : Nat → Bool) :
    ls.find s ts' = newestOf so s ts' n := by
  unfold find
  rw [h.head s hs, h.lengthEq]
  exact walk_newest h ts' s n (n + 1) (Nat.le_refl n) (Nat.lt_succ_self n)

variable {ts' : Nat → Bool}

theorem newestOf_some {key : Nat}
    (h : newestOf so s ts' n = some key) :
    key < n ∧ ts' key = true ∧ ∀ l, key < l → l < n → so l = s → ts' l = false := by
  induction n with
  | zero => cases h
  | succ n ih =>
    unfold newestOf at h
    by_cases hb : so n = s ∧ ts' n = true
    · rw [if_pos hb] at h
      rw [← Option.some.inj h]
      exact ⟨Nat.lt_succ_self n, hb.2, fun l h1 h2 => by omega⟩
    · rw [if_neg hb] at h
      obtain ⟨hlt, hte, hl⟩ := ih h
      refine ⟨Nat.lt_succ_of_lt hlt, hte, ?_⟩
      intro l h1 h2 hs
      by_cases heq : l = n
      · subst heq
        exact Bool.eq_false_iff.mpr fun ht => hb ⟨hs, ht⟩
      · exact hl l h1 (by omega) hs

theorem newestOf_none (h : newestOf so s ts' n = none) :
    ∀ key, key < n → so key = s → ts' key = false := by
  induction n with
  | zero => intro key hkey; exact absurd hkey (Nat.not_lt_zero key)
  | succ n ih =>
    unfold newestOf at h
    by_cases hb : so n = s ∧ ts' n = true
    · rw [if_pos hb] at h
      cases h
    · rw [if_neg hb] at h
      intro key hkey hs
      by_cases heq : key = n
      · subst heq
        exact Bool.eq_false_iff.mpr fun ht => hb ⟨hs, ht⟩
      · exact ih h key (by omega) hs

/-- **A key that is found is the newest the test holds of**, when all those are in the slot. -/
theorem find_some (h : Linked so w n ls)
    (hs : s < w)
    (hin : ∀ key, key < n → ts' key = true → so key = s) {key : Nat}
    (hf : ls.find s ts' = some key) :
    key < n ∧ ts' key = true ∧ ∀ l, key < l → l < n → ts' l = false := by
  rw [find_eq h hs] at hf
  obtain ⟨hlt, hte, hl⟩ := newestOf_some hf
  refine ⟨hlt, hte, ?_⟩
  intro l h1 h2
  exact Bool.eq_false_iff.mpr fun ht =>
    Bool.false_ne_true ((hl l h1 h2 (hin l h2 ht)).symm.trans ht)

/-- Where no key is found the test holds of none. -/
theorem find_none (h : Linked so w n ls)
    (hs : s < w)
    (hin : ∀ key, key < n → ts' key = true → so key = s)
    (hf : ls.find s ts' = none) : ∀ key, key < n → ts' key = false := by
  rw [find_eq h hs] at hf
  intro key hkey
  exact Bool.eq_false_iff.mpr fun ht =>
    Bool.false_ne_true ((newestOf_none hf key hkey (hin key hkey ht)).symm.trans ht)

end HashChain

structure Leaves (κ β : Type) where
  width : Nat
  keys : List κ
  leaves : List (List β)
  links : HashChain

namespace Leaves

variable {κ β : Type}

def fresh (width : Nat) : Leaves κ β := ⟨width, [], [], HashChain.fresh width⟩

section

variable (L : Likeness κ) (hash : κ → Int)

/-- The slot of a key, of that many. -/
def slot (width : Nat) (k : κ) : Nat := (hash k % width).toNat

def findKey (t : Leaves κ β) (k : κ) : Option Nat :=
  t.links.find (slot hash t.width k) fun key => t.keys[key]?.any (L.same k)

/-- What was put under an equal key. -/
def leaf (t : Leaves κ β) (k : κ) : List β :=
  match findKey L hash t k with
  | some key => t.leaves.getD key []
  | none => []

def relink (keys : List κ) (width : Nat) : HashChain :=
  keys.foldl (fun links k => links.push (slot hash width k)) (HashChain.fresh width)

/-- Give a key a leaf. -/
def add (load : Nat) (t : Leaves κ β) (k : κ) (leaf : List β) : Leaves κ β :=
  let keys := t.keys ++ [k]
  if keys.length > load * t.width then
    ⟨2 * t.width, keys, t.leaves ++ [leaf], relink hash keys (2 * t.width)⟩
  else ⟨t.width, keys, t.leaves ++ [leaf], t.links.push (slot hash t.width k)⟩

def put (load : Nat) (t : Leaves κ β) (k : κ) (v : β) : Leaves κ β :=
  match findKey L hash t k with
  | some key => { t with leaves := t.leaves.modify key (· ++ [v]) }
  | none => add hash load t k [v]

/-! ### What the leaves hold -/

/-- The values of the entries under an equal key. -/
def under (entries : List (κ × β)) (k : κ) : List β :=
  (entries.filter fun entry => L.same k entry.1).map Prod.snd

/-- The slot of the key with this number. -/
def slotAt (width : Nat) (keys : List κ) (key : Nat) : Nat :=
  (keys[key]?.map (slot hash width)).getD 0

structure Holds (t : Leaves κ β) (entries : List (κ × β)) : Prop where
  pos : 0 < t.width
  length : t.leaves.length = t.keys.length
  linked : HashChain.Linked (slotAt hash t.width t.keys) t.width t.keys.length t.links
  distinct : t.keys.Pairwise fun a b => L.same a b = false
  leafOf : ∀ (key : Nat) (k : κ), t.keys[key]? = some k → L.same k k = true →
    t.leaves[key]? = some (under L entries k)
  covered : ∀ entry ∈ entries, L.same entry.1 entry.1 = true → ∃ k ∈ t.keys, L.same entry.1 k = true

end

variable {L : Likeness κ} {hash : κ → Int}

theorem slot_lt {width : Nat} (h : 0 < width) (k : κ) : slot hash width k < width := by
  have h1 := Int.emod_nonneg (hash k) (b := (width : Int)) (by omega)
  have h2 := Int.emod_lt_of_pos (hash k) (b := (width : Int)) (by omega)
  unfold slot
  omega

variable {keys : List κ}

theorem slotAt_of {w key : Nat} {k : κ} (h : keys[key]? = some k) :
    slotAt hash w keys key = slot hash w k := by
  unfold slotAt
  rw [h]
  rfl

theorem slotAt_append {w : Nat} (k : κ) {key : Nat} (h : key < keys.length) :
    slotAt hash w (keys ++ [k]) key = slotAt hash w keys key := by
  unfold slotAt
  rw [getElem?_append_left h]

theorem slotAt_last {w : Nat} (keys : List κ) (k : κ) :
    slotAt hash w (keys ++ [k]) keys.length = slot hash w k :=
  slotAt_of (by simp)

theorem push_linked {w : Nat} (hpos : 0 < w) {ls : HashChain}
    (h : HashChain.Linked (slotAt hash w keys) w keys.length ls) (k : κ) :
    HashChain.Linked (slotAt hash w (keys ++ [k])) w (keys ++ [k]).length
      (ls.push (slot hash w k)) := by
  have hm := h.congr fun key hkey => (slotAt_append k hkey).symm
  have hp := hm.push (by rw [slotAt_last]; exact slot_lt hpos k)
  rw [slotAt_last] at hp
  rw [length_append]
  exact hp

theorem relink_linked {w : Nat} (hpos : 0 < w) (keys : List κ) :
    HashChain.Linked (slotAt hash w keys) w keys.length (relink hash keys w) := by
  induction keys using reverseRecOn with
  | nil => exact HashChain.fresh_linked _ _
  | append_singleton keys k ih =>
    unfold relink
    rw [foldl_append]
    exact push_linked hpos ih k

theorem fresh_holds {width : Nat} (h : 0 < width) : Holds L hash (fresh width : Leaves κ β) [] where
  pos := h
  length := rfl
  linked := HashChain.fresh_linked _ _
  distinct := List.Pairwise.nil
  leafOf key k hk := by simp [fresh] at hk
  covered entry hent := absurd hent not_mem_nil

theorem under_append (es m : List (κ × β)) (k : κ) :
    under L (es ++ m) k = under L es k ++ under L m k := by
  unfold under
  rw [filter_append, map_append]

theorem under_same {es : List (κ × β)} {a b : κ} (h : L.same a b = true) :
    under L es a = under L es b := by
  unfold under
  refine congrArg _ (filter_congr ?_)
  intro e _
  exact L.same_congr h e.1

section

variable (hh : ∀ a b, L.same a b = true → hash a = hash b) {t : Leaves κ β} {k : κ}
  {es : List (κ × β)}

include hh

variable {key : Nat}

theorem test_in_slot (ht : (t.keys[key]?.any (L.same k)) = true) :
    slotAt hash t.width t.keys key = slot hash t.width k := by
  cases hk : t.keys[key]? with
  | none =>
    rw [hk] at ht
    cases ht
  | some ks =>
    rw [hk] at ht
    rw [slotAt_of hk]
    unfold slot
    rw [hh k ks ht]

variable (h : Holds L hash t es)
include h

theorem findKey_some (hf : findKey L hash t k = some key) :
    ∃ ks, t.keys[key]? = some ks ∧ L.same k ks = true := by
  obtain ⟨hlt, ht, -⟩ := HashChain.find_some h.linked (slot_lt h.pos k)
    (fun key _ ht => test_in_slot hh ht) hf
  rw [getElem?_eq_getElem hlt] at ht
  exact ⟨t.keys[key], getElem?_eq_getElem hlt, ht⟩

theorem findKey_none (hf : findKey L hash t k = none) : ∀ ks ∈ t.keys, L.same k ks = false := by
  intro ks hk
  obtain ⟨key, hkey⟩ := mem_iff_getElem?.mp hk
  have hn := HashChain.find_none h.linked (slot_lt h.pos k)
    (fun key _ ht => test_in_slot hh ht) hf key (List.getElem?_eq_some_iff.mp hkey).1
  rw [hkey] at hn
  exact hn

/-- **A probe gives what was put under an equal key, in order.** -/
theorem leaf_eq (k : κ) : leaf L hash t k = under L es k := by
  unfold leaf
  cases hf : findKey L hash t k with
  | some key =>
    obtain ⟨ks, hk, hs⟩ := findKey_some hh h hf
    have hse := L.trans ks k ks (L.symm k ks hs) hs
    dsimp only
    rw [getD_eq_getElem?_getD, h.leafOf key ks hk hse, under_same hs]
    rfl
  | none =>
    symm
    unfold under
    rw [map_eq_nil_iff, filter_eq_nil_iff]
    intro e hent hs
    have hse := L.trans e.1 k e.1 (L.symm k e.1 hs) hs
    obtain ⟨ks, hk, hl⟩ := h.covered e hent hse
    have := findKey_none hh h hf ks hk
    rw [L.trans k e.1 ks hs hl] at this
    cases this

theorem put_known (v : β) (hfind : findKey L hash t k = some key) :
    Holds L hash { t with leaves := t.leaves.modify key (· ++ [v]) } (es ++ [(k, v)]) := by
  obtain ⟨known, hknown, hsame⟩ := findKey_some hh h hfind
  have hone : ∀ other, L.same other k = true → under L [(k, v)] other = [v] := by
    intro other ho
    unfold under
    simp [ho]
  have hzero : ∀ other, L.same other k = false → under L [(k, v)] other = [] := by
    intro other ho
    unfold under
    simp [ho]
  refine ⟨h.pos, by rw [length_modify]; exact h.length, h.linked, h.distinct, ?_, ?_⟩
  · intro other k' hk' hself
    rw [under_append, getElem?_modify]
    have hleaf := h.leafOf other k' hk' hself
    by_cases heq : key = other
    · subst heq
      rw [hknown] at hk'
      cases hk'
      rw [hleaf, hone known (L.symm k known hsame)]
      simp
    · rw [hleaf, hzero]
      · simp [heq]
      · -- Two keys of the table are never equal.
        cases hlike : L.same k' k with
        | false => rfl
        | true =>
          have hboth := L.trans k' k known hlike hsame
          have hboth' := L.symm k' known hboth
          have hd := pairwise_iff_getElem.mp h.distinct
          obtain ⟨h1, e1⟩ := List.getElem?_eq_some_iff.mp hknown
          obtain ⟨h2, e2⟩ := List.getElem?_eq_some_iff.mp hk'
          rcases Nat.lt_or_gt_of_ne heq with hlt | hlt
          · have := hd key other h1 h2 hlt
            rw [e1, e2, hboth'] at this
            cases this
          · have := hd other key h2 h1 hlt
            rw [e1, e2, hboth] at this
            cases this
  · intro entry hent hself
    rcases List.mem_append.mp hent with hent | hent
    · exact h.covered entry hent hself
    · rw [mem_singleton.mp hent]
      exact ⟨known, mem_of_getElem? hknown, hsame⟩

theorem put_new (v : β) (l : Nat) (hfi : findKey L hash t k = none) :
    Holds L hash (add hash l t k [v]) (es ++ [(k, v)]) := by
  have hf := findKey_none hh h hfi
  have hd : (t.keys ++ [k]).Pairwise fun a b => L.same a b = false := by
    refine pairwise_append.mpr ⟨h.distinct, pairwise_singleton _ _, ?_⟩
    intro a ha b hb
    rw [mem_singleton.mp hb, L.same_comm]
    exact hf a ha
  have hle : ∀ (key : Nat) (k' : κ), (t.keys ++ [k])[key]? = some k' → L.same k' k' = true →
      (t.leaves ++ [[v]])[key]? = some (under L (es ++ [(k, v)]) k') := by
    intro key k' hk' hs
    rw [under_append]
    rcases Nat.lt_or_ge key t.keys.length with hlt | hge
    · rw [getElem?_append_left hlt] at hk'
      rw [getElem?_append_left (by rw [h.length]; exact hlt), h.leafOf key k' hk' hs]
      have ho : L.same k' k = false := by
        rw [L.same_comm]
        exact hf k' (mem_of_getElem? hk')
      unfold under
      simp [ho]
    · rw [getElem?_append_right hge] at hk'
      have hz : key - t.keys.length = 0 := by
        have := (List.getElem?_eq_some_iff.mp hk').1
        rw [length_singleton] at this
        omega
      rw [getElem?_append_right (by rw [h.length]; exact hge), h.length, hz]
      rw [hz] at hk'
      cases hk'
      have hn : under L es k = [] := by
        unfold under
        rw [map_eq_nil_iff, filter_eq_nil_iff]
        intro e hent hsa
        have hes := L.trans e.1 k e.1 (L.symm k e.1 hsa) hsa
        obtain ⟨ks, hk, hl⟩ := h.covered e hent hes
        have := hf ks hk
        rw [L.trans k e.1 ks hsa hl] at this
        cases this
      rw [hn]
      unfold under
      simp [hs]
  have hcov : ∀ e ∈ es ++ [(k, v)], L.same e.1 e.1 = true →
      ∃ k' ∈ t.keys ++ [k], L.same e.1 k' = true := by
    intro e hent hs
    rcases List.mem_append.mp hent with hent | hent
    · obtain ⟨ks, hk, hl⟩ := h.covered e hent hs
      exact ⟨ks, mem_append_left _ hk, hl⟩
    · rw [mem_singleton.mp hent] at hs ⊢
      exact ⟨k, mem_append_right _ (mem_singleton.mpr rfl), hs⟩
  have hlen : (t.leaves ++ [[v]]).length = (t.keys ++ [k]).length := by
    rw [length_append, length_append, h.length]
    rfl
  unfold add
  by_cases hfu : (t.keys ++ [k]).length > l * t.width
  · simp only [if_pos hfu]
    have hpos : 0 < 2 * t.width := Nat.mul_pos (Nat.zero_lt_succ 1) h.pos
    exact ⟨hpos, hlen, relink_linked hpos _, hd, hle, hcov⟩
  · simp only [if_neg hfu]
    exact ⟨h.pos, hlen, push_linked h.pos h.linked k, hd, hle, hcov⟩

/-- **Putting an entry holds one entry more.** -/
theorem Holds.put (l : Nat) (k : κ) (v : β) :
    Holds L hash (Leaves.put L hash l t k v) (es ++ [(k, v)]) := by
  unfold Leaves.put
  cases hf : findKey L hash t k with
  | some key => exact put_known hh h v hf
  | none => exact put_new hh h v l hf

end

end Leaves

end Beagle.Lib
