/-
Append-only key lists probed through a table of positions.

A key list only ever grows at its end.  Beside it stands a table of slots, each
slot holding positions of the list, and a key is looked up by scanning one slot:
the slot its hash names.  The table is only a hint.  A slot may hold positions
that lie past the end of the list, or positions of other keys, because the table
may be shared with somebody who appends to another list; every candidate is
therefore confirmed against the list itself.

What makes the hint usable is one invariant, `Covers`: every position of the list
is in the slot of its own key.  It survives any addition to the table, so sharing
cannot break it, and it is what turns the probe into a search of the whole list.

The equality of keys is a test that need not be reflexive: a key that is not equal
to itself is never found, and appending it again adds a second entry.
-/
import Mathlib

namespace Beagle.Lib

open List

/-- A symmetric and transitive equality test and a hash that respects it. -/
structure Keying (κ : Type) where
  same : κ → κ → Bool
  hash : κ → Nat
  symm : ∀ a b, same a b = true → same b a = true
  trans : ∀ a b c, same a b = true → same b c = true → same a c = true
  hash_eq : ∀ a b, same a b = true → hash a = hash b

/-- Keying by equality: any hash respects it. -/
def Keying.ofEq {κ : Type} [DecidableEq κ] (hash : κ → Nat) : Keying κ where
  same a b := a == b
  hash := hash
  symm a b h := by simpa using (beq_iff_eq.mp h).symm
  trans a b c hab hbc := by rw [beq_iff_eq.mp hab]; exact hbc
  hash_eq a b h := by rw [beq_iff_eq.mp h]

@[simp] theorem Keying.ofEq_same {κ : Type} [DecidableEq κ] (hash : κ → Nat) (a b : κ) :
    (Keying.ofEq hash).same a b = (a == b) := rfl

namespace KeyIndex

variable {κ : Type} (K : Keying κ)

/-- No key of the list equals a later one. -/
def Distinct (keys : List κ) : Prop := keys.Pairwise fun a b => K.same a b = false

/-- Is there a key equal to `k` at position `p`? -/
def hits (keys : List κ) (k : κ) (p : Nat) : Bool :=
  match keys[p]? with
  | some k' => K.same k' k
  | none => false

/-- Scan a list of candidate positions for the key. -/
def probe (keys : List κ) (positions : List Nat) (k : κ) : Option Nat :=
  positions.find? (hits K keys k)

/-- Search the whole key list. -/
def search (keys : List κ) (k : κ) : Option Nat :=
  keys.findIdx? fun k' => K.same k' k

/-- The positions in the slot a key hashes to. -/
def slotFor (table : List (List Nat)) (k : κ) : List Nat :=
  table.getD (K.hash k % table.length) []

/-- Every position of the list is in the slot of its own key. -/
structure Covers (keys : List κ) (table : List (List Nat)) : Prop where
  width : 0 < table.length
  mem : ∀ p k, keys[p]? = some k → p ∈ slotFor K table k

/-- `t'` holds, slot by slot, everything `t` holds. -/
structure Extends (t t' : List (List Nat)) : Prop where
  width : t'.length = t.length
  mem : ∀ slot p, p ∈ t.getD slot [] → p ∈ t'.getD slot []

variable {K}

theorem Extends.refl (t : List (List Nat)) : Extends t t := ⟨rfl, fun _ _ h => h⟩

theorem Extends.trans {t t' t'' : List (List Nat)} (h : Extends t t') (h' : Extends t' t'') :
    Extends t t'' :=
  ⟨h'.width.trans h.width, fun slot p hp => h'.mem slot p (h.mem slot p hp)⟩

variable {ks : List κ} {k : κ} {p : Nat}

/-- A larger table still covers the list. -/
theorem Covers.extend {t t' : List (List Nat)} (h : Covers K ks t) (hext : Extends t t') :
    Covers K ks t' := by
  refine ⟨by rw [hext.width]; exact h.width, ?_⟩
  intro p k hk
  unfold slotFor
  rw [hext.width]
  exact hext.mem _ p (h.mem p k hk)

/-! ### What a hit means -/

theorem hits_iff : hits K ks k p = true ↔ ∃ k', ks[p]? = some k' ∧ K.same k' k = true := by
  unfold hits
  cases h : ks[p]? with
  | none => simp
  | some k' => simp

/-- Among distinct keys at most one position hits. -/
theorem hits_unique (hd : Distinct K ks) {q : Nat} (hp : hits K ks k p = true)
    (hq : hits K ks k q = true) : p = q := by
  obtain ⟨a, ha, hak⟩ := hits_iff.mp hp
  obtain ⟨b, hb, hbk⟩ := hits_iff.mp hq
  obtain ⟨hpl, rfl⟩ := List.getElem?_eq_some_iff.mp ha
  obtain ⟨hql, rfl⟩ := List.getElem?_eq_some_iff.mp hb
  have hs : K.same ks[p] ks[q] = true := K.trans _ _ _ hak (K.symm _ _ hbk)
  have hs' : K.same ks[q] ks[p] = true := K.symm _ _ hs
  rcases Nat.lt_trichotomy p q with hlt | heq | hgt
  · rw [pairwise_iff_getElem.mp hd p q hpl hql hlt] at hs
    simp at hs
  · exact heq
  · rw [pairwise_iff_getElem.mp hd q p hql hpl hgt] at hs'
    simp at hs'

/-! ### The search, and the probe that stands in for it -/

theorem search_some (h : search K ks k = some p) : hits K ks k p = true := by
  obtain ⟨hp, hs, -⟩ := findIdx?_eq_some_iff_getElem.mp h
  exact hits_iff.mpr ⟨_, getElem?_eq_getElem hp, hs⟩

theorem search_none (h : search K ks k = none) (p : Nat) : hits K ks k p = false := by
  by_contra hc
  rw [Bool.not_eq_false] at hc
  obtain ⟨k', hk', hs⟩ := hits_iff.mp hc
  have := findIdx?_eq_none_iff.mp h k' (mem_of_getElem? hk')
  rw [this] at hs
  simp at hs

theorem search_of_hits (hd : Distinct K ks) (h : hits K ks k p = true) :
    search K ks k = some p := by
  cases hs : search K ks k with
  | none => rw [search_none hs p] at h; simp at h
  | some q => rw [hits_unique hd h (search_some hs)]

/-- **Scanning the key's own slot is searching the whole list.** -/
theorem probe_eq_search {t : List (List Nat)} (hd : Distinct K ks) (hc : Covers K ks t)
    (k : κ) : probe K ks (slotFor K t k) k = search K ks k := by
  unfold probe
  cases hf : (slotFor K t k).find? (hits K ks k) with
  | some p =>
    exact (search_of_hits hd (find?_some hf)).symm
  | none =>
    cases hs : search K ks k with
    | none => rfl
    | some p =>
      exfalso
      have hhit := search_some hs
      obtain ⟨k', hk', hsa⟩ := hits_iff.mp hhit
      have hmem := hc.mem p k' hk'
      -- Equal keys hash alike, so the position sits in the slot that was scanned.
      unfold slotFor at hmem hf
      rw [K.hash_eq _ _ hsa] at hmem
      exact absurd hhit (find?_eq_none.mp hf p hmem)

/-! ### Appending a key -/

theorem distinct_nil : Distinct K [] := List.Pairwise.nil

theorem distinct_append (hd : Distinct K ks) (h : search K ks k = none) :
    Distinct K (ks ++ [k]) := by
  refine pairwise_append.mpr ⟨hd, pairwise_singleton _ _, ?_⟩
  intro a ha b hb
  rw [mem_singleton.mp hb]
  obtain ⟨p, hp, rfl⟩ := getElem_of_mem ha
  have := search_none h p
  unfold hits at this
  rwa [getElem?_eq_getElem hp] at this

/-- Keys appended behind the list do not change what was found in it. -/
theorem search_append (m : List κ) (h : search K ks k = some p) :
    search K (ks ++ m) k = some p := by
  unfold search at h ⊢
  rw [findIdx?_append, h]
  rfl

/-- A key equal to itself is found where it was appended. -/
theorem search_append_self (h : search K ks k = none) (hr : K.same k k = true) :
    search K (ks ++ [k]) k = some ks.length := by
  unfold search at h ⊢
  rw [findIdx?_append, h]
  simp [hr]

/-! ### The table follows -/

/-- Put a position into a slot. -/
def add (table : List (List Nat)) (slot position : Nat) : List (List Nat) :=
  table.modify slot (· ++ [position])

@[simp] theorem length_add (t : List (List Nat)) (s ps : Nat) :
    (add t s ps).length = t.length := by
  simp [add]

theorem getD_add (t : List (List Nat)) (s ps o : Nat) : (add t s ps).getD o []
      = if s = o ∧ o < t.length then t.getD o [] ++ [ps]
        else t.getD o [] := by
  unfold add
  rw [getD_eq_getElem?_getD, getD_eq_getElem?_getD, getElem?_modify]
  by_cases hlt : o < t.length
  · rw [getElem?_eq_getElem hlt]
    by_cases heq : s = o <;> simp [heq, hlt]
  · rw [getElem?_eq_none (Nat.le_of_not_lt hlt)]
    simp [hlt]

theorem add_extends (t : List (List Nat)) (s ps : Nat) : Extends t (add t s ps) := by
  refine ⟨length_add _ _ _, ?_⟩
  intro o p hp
  rw [getD_add]
  split
  · exact mem_append_left _ hp
  · exact hp

variable {table : List (List Nat)}

/-- Appending a key and putting its position into its slot keeps the table covering. -/
theorem Covers.append (h : Covers K ks table) (k : κ) :
    Covers K (ks ++ [k]) (add table (K.hash k % table.length) ks.length) := by
  refine ⟨by rw [length_add]; exact h.width, ?_⟩
  intro p k' hk'
  unfold slotFor
  rw [length_add]
  rcases Nat.lt_or_ge p ks.length with hlt | hge
  · rw [getElem?_append_left hlt] at hk'
    exact (add_extends table _ _).mem _ p (h.mem p k' hk')
  · rw [getElem?_append_right hge] at hk'
    have hp : p = ks.length := by
      have := (List.getElem?_eq_some_iff.mp hk').1
      simp only [length_singleton] at this
      omega
    subst hp
    have hkk : k' = k := by simpa using hk'.symm
    subst hkk
    rw [getD_add, if_pos ⟨rfl, Nat.mod_lt _ h.width⟩]
    exact mem_append_right _ (mem_singleton.mpr rfl)

/-- An empty list is covered by any table that has a slot. -/
theorem covers_nil (h : 0 < table.length) : Covers K [] table :=
  ⟨h, by intro p k hk; simp at hk⟩

/-- Put every key of the list into a table, from a position on. -/
def fillFrom (K : Keying κ) (width : Nat) : List κ → Nat → List (List Nat) → List (List Nat)
  | [], _, table => table
  | k :: rest, position, table =>
    fillFrom K width rest (position + 1) (add table (K.hash k % width) position)

theorem fillFrom_covers {w : Nat} : ∀ (r done : List κ) (t : List (List Nat)), t.length = w →
      Covers K done t → Covers K (done ++ r) (fillFrom K w r done.length t) := by
  intro r
  induction r with
  | nil => intro done t _ hc; simpa [fillFrom] using hc
  | cons k r ih =>
    intro done t hlen hc
    have hs := hc.append k
    rw [hlen] at hs
    have := ih (done ++ [k]) (add t (K.hash k % w) done.length) (by rw [length_add, hlen]) hs
    rw [length_append, length_singleton, append_assoc, singleton_append] at this
    exact this

/-- **A table built from scratch covers its list.** -/
theorem covers_build {w : Nat} (hw : 0 < w) (ks : List κ) :
    Covers K ks (fillFrom K w ks 0 (replicate w [])) := by
  have := fillFrom_covers (K := K) ks [] (replicate w [])
    (length_replicate ..) (covers_nil (by simpa using hw))
  simpa using this

end KeyIndex

end Beagle.Lib
