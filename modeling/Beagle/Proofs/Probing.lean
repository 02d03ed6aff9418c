/-
A materialised source presents its rows.

The handles a probe answers with are those of the rows whose filed values are equal
to the keys, whatever else the index holds.  A literal therefore finds, among the
rows it unifies with, every row that can match it, and a ground tuple is in the
source exactly when it is among the rows.
-/
import Beagle.Query.Semantics

namespace Beagle.Query

open Beagle.Lib Beagle.Store List

/-! ### Handles under a key -/

/-- The handles a leaf files under any key. -/
def InLeaf (leaf : HandleTrieLeaf) (handle : Nat) : Prop := ∃ entry ∈ leaf, handle ∈ entry.2

/-- The handles a branch files under any keys. -/
def InBranch (branch : HandleTrieBranch) (handle : Nat) : Prop :=
  ∃ entry ∈ branch, InLeaf entry.2 handle

variable {handle h'' : Nat} {t : HandleTrie} {k1 v w : Term} {tp row : Tuple}
  {argument : QueryTerm} {σ σ' : Substitution} {ars : List QueryTerm}

theorem mem_addHandleValues {hs' values : List Nat} :
    handle ∈ addHandleValues hs' values ↔ handle ∈ hs' ∨ handle ∈ values := by
  have hmem : ∀ xs : List Nat, (Likeness.ofEq Nat).mem xs handle = true ↔ handle ∈ xs := by
    intro xs
    simp [Likeness.mem]
  rw [← hmem, ← hmem hs', ← hmem values]
  unfold addHandleValues
  rw [Likeness.mem_into, Bool.or_eq_true]

theorem mem_foldl_addHandleValues {γ : Type} (vs : γ → List Nat) : ∀ (es : List γ) (hs' : List Nat),
      handle ∈ es.foldl (fun hs' entry => addHandleValues hs' (vs entry)) hs' ↔
        handle ∈ hs' ∨ ∃ entry ∈ es, handle ∈ vs entry := by
  intro es
  induction es with
  | nil => intro hs'; simp
  | cons entry es ih =>
    intro hs'
    rw [foldl_cons, ih, mem_addHandleValues]
    simp [or_assoc]

theorem mem_orderedHandles {handles : List Nat} :
    handle ∈ orderedHandles handles ↔ handle ∈ handles := mem_insertionSort _

theorem mem_trieLeafHandles {l : HandleTrieLeaf} :
    handle ∈ trieLeafHandles l ↔ InLeaf l handle := by
  unfold trieLeafHandles
  rw [mem_orderedHandles, mem_foldl_addHandleValues]
  simp [InLeaf]

theorem mem_trieBranchHandles {b : HandleTrieBranch} :
    handle ∈ trieBranchHandles b ↔ InBranch b handle := by
  unfold trieBranchHandles
  rw [mem_orderedHandles, mem_foldl_addHandleValues]
  simp [InBranch, mem_trieLeafHandles]

theorem mem_get_appendHandle {i : HandleBucket} {key key' : Term} :
    h'' ∈ (termLike.get (appendHandle i key handle) key').getD [] ↔
      h'' ∈ (termLike.get i key').getD [] ∨ h'' = handle ∧ key.same key' = true := by
  unfold appendHandle
  rw [termLike.get_set]
  by_cases h : termLike.same key key' = true
  · rw [if_pos h, termLike.get_congr i h]
    have h' : key.same key' = true := h
    simp [h']
  · rw [if_neg h]
    have h' : key.same key' = false := by simpa [termLike] using h
    simp [h']

theorem inLeaf_appendHandle {i : HandleTrieLeaf} {key : Term} :
    InLeaf (appendHandle i key handle) h'' ↔ InLeaf i h'' ∨ h'' = handle := by
  unfold InLeaf appendHandle
  rw [termLike.exists_mem_set (Q := fun vs => h'' ∈ vs)]
  · constructor
    · rintro (h | h)
      · rcases List.mem_append.mp h with hold | hnew
        · cases hget : termLike.get i key with
          | none =>
            rw [hget] at hold
            simp at hold
          | some old =>
            rw [hget] at hold
            obtain ⟨e, hent, rfl⟩ := termLike.exists_of_get hget
            exact Or.inl ⟨e, hent, hold⟩
        · exact Or.inr (by simpa using hnew)
      · exact Or.inl h
    · rintro (h | rfl)
      · exact Or.inr h
      · exact Or.inl (by simp)
  · intro old hget hold
    rw [hget]
    simp [hold]

/-! ### Tries -/

/-- The trie answers each leading key list with the handles filed under it. -/
structure TrieHolds (trie : HandleTrie) (filed : Nat → Term → Term → Term → Prop) : Prop where
  one : ∀ k1 handle, handle ∈ trieProbe trie [k1] ↔ ∃ a b c, filed handle a b c ∧ a.same k1 = true
  two : ∀ k1 k2 handle, handle ∈ trieProbe trie [k1, k2] ↔
    ∃ a b c, filed handle a b c ∧ a.same k1 = true ∧ b.same k2 = true
  three : ∀ k1 k2 k3 handle, handle ∈ trieProbe trie [k1, k2, k3] ↔
    ∃ a b c, filed handle a b c ∧ a.same k1 = true ∧ b.same k2 = true ∧ c.same k3 = true

theorem mem_trieProbe_one :
    handle ∈ trieProbe t [k1] ↔ InBranch ((termLike.get t k1).getD []) handle := by
  simp only [trieProbe]
  cases termLike.get t k1 with
  | none => simp [InBranch]
  | some b => exact mem_trieBranchHandles

variable {k2 : Term} {f : Nat → Term → Term → Term → Prop}

theorem mem_trieProbe_two : handle ∈ trieProbe t [k1, k2] ↔
      InLeaf ((termLike.get ((termLike.get t k1).getD []) k2).getD []) handle := by
  simp only [trieProbe]
  cases termLike.get t k1 with
  | none => simp [InLeaf]
  | some b =>
    dsimp only [Option.getD_some]
    cases termLike.get b k2 with
    | none => simp [InLeaf]
    | some l => exact mem_trieLeafHandles

theorem mem_trieProbe_three {k3 : Term} : handle ∈ trieProbe t [k1, k2, k3] ↔
      handle ∈ (termLike.get ((termLike.get ((termLike.get t k1).getD []) k2).getD [])
        k3).getD [] := by
  simp only [trieProbe]
  cases termLike.get t k1 with
  | none => simp
  | some b =>
    dsimp only [Option.getD_some]
    cases termLike.get b k2 with
    | none => simp
    | some l => exact Iff.rfl

theorem get_trieAdd (t : HandleTrie) (a b c : Term) (handle : Nat) (k : Term) :
    termLike.get (trieAdd t a b c handle) k =
      if a.same k = true then
        some (termLike.set ((termLike.get t k).getD []) b
          (appendHandle ((termLike.get ((termLike.get t k).getD []) b).getD []) c handle))
      else termLike.get t k := by
  unfold trieAdd
  dsimp only
  rw [termLike.get_set]
  by_cases h : a.same k = true
  · have h' : termLike.same a k = true := h
    rw [if_pos h', if_pos h, termLike.get_congr t h']
  · have h' : ¬termLike.same a k = true := h
    rw [if_neg h', if_neg h]

theorem trieHolds_nil : TrieHolds [] fun _ _ _ _ => False where
  one _ _ := by simp [trieProbe]
  two _ _ _ := by simp [trieProbe]
  three _ _ _ _ := by simp [trieProbe]

theorem inBranch_set {br : HandleTrieBranch} {b c : Term} : InBranch (termLike.set br b
        (appendHandle ((termLike.get br b).getD []) c handle)) h'' ↔
      InBranch br h'' ∨ h'' = handle := by
  unfold InBranch
  rw [termLike.exists_mem_set (Q := fun l => InLeaf l h''), inLeaf_appendHandle]
  · constructor
    · rintro ((hl | hnew) | hold)
      · cases hget : termLike.get br b with
        | none => simp [hget, InLeaf] at hl
        | some l =>
          rw [hget] at hl
          obtain ⟨e, hent, rfl⟩ := termLike.exists_of_get hget
          exact Or.inl ⟨e, hent, hl⟩
      · exact Or.inr hnew
      · exact Or.inl hold
    · rintro (hold | hnew)
      · exact Or.inr hold
      · exact Or.inl (Or.inr hnew)
  · intro old hget hold
    rw [hget]
    exact inLeaf_appendHandle.mpr (Or.inl hold)

theorem exists_filed_or {a b c : Term} {P : Term → Term → Term → Prop} :
    (∃ x y z, (f h'' x y z ∨ h'' = handle ∧ x = a ∧ y = b ∧ z = c) ∧ P x y z) ↔
      (∃ x y z, f h'' x y z ∧ P x y z) ∨ h'' = handle ∧ P a b c := by
  constructor
  · rintro ⟨x, y, z, hf | ⟨rfl, rfl, rfl, rfl⟩, hk⟩
    · exact Or.inl ⟨x, y, z, hf, hk⟩
    · exact Or.inr ⟨rfl, hk⟩
  · rintro (⟨x, y, z, hf, hk⟩ | ⟨rfl, hk⟩)
    · exact ⟨x, y, z, Or.inl hf, hk⟩
    · exact ⟨a, b, c, Or.inr ⟨rfl, rfl, rfl, rfl⟩, hk⟩

/-- Filing a handle adds it under its three keys. -/
theorem TrieHolds.add (h : TrieHolds t f) (a b c : Term) (handle : Nat) :
    TrieHolds (trieAdd t a b c handle)
      fun n x y z => f n x y z ∨ n = handle ∧ x = a ∧ y = b ∧ z = c where
  one k1 n := by
    rw [exists_filed_or, ← h.one, mem_trieProbe_one, mem_trieProbe_one, get_trieAdd]
    by_cases hk : a.same k1 = true
    · rw [if_pos hk, Option.getD_some, inBranch_set]
      simp [hk]
    · simp [hk]
  two k1 k2 n := by
    rw [exists_filed_or, ← h.two, mem_trieProbe_two, mem_trieProbe_two, get_trieAdd]
    by_cases hk : a.same k1 = true
    · rw [if_pos hk, Option.getD_some, termLike.get_set]
      by_cases hb : termLike.same b k2 = true
      · rw [if_pos hb, Option.getD_some, inLeaf_appendHandle, termLike.get_congr _ hb]
        simp [hk, show b.same k2 = true from hb]
      · simp [hb, show ¬b.same k2 = true from hb]
    · simp [hk]
  three k1 k2 k3 n := by
    rw [exists_filed_or, ← h.three, mem_trieProbe_three, mem_trieProbe_three, get_trieAdd]
    by_cases hk : a.same k1 = true
    · rw [if_pos hk, Option.getD_some, termLike.get_set]
      by_cases hb : termLike.same b k2 = true
      · rw [if_pos hb, Option.getD_some, mem_get_appendHandle, termLike.get_congr _ hb]
        simp [hk, show b.same k2 = true from hb]
      · simp [hb, show ¬b.same k2 = true from hb]
    · simp [hk]

/-! ### Position buckets -/

theorem bucketAt_set (i : List (Nat × HandleBucket)) (p : Nat) (bk : HandleBucket) (q : Nat) :
    bucketAt ((Likeness.ofEq Nat).set i p bk) q =
      if p = q then bk else bucketAt i q := by
  unfold bucketAt
  rw [Likeness.get_set]
  by_cases h : p = q <;> simp [h]

theorem mem_addPositionHandles {p : Nat} :
    ∀ (tp : Tuple) (start : Nat) (index : List (Nat × HandleBucket)),
      h'' ∈ (termLike.get (bucketAt (addPositionHandles index handle start tp) p) v).getD [] ↔
        h'' ∈ (termLike.get (bucketAt index p) v).getD [] ∨
          h'' = handle ∧ ∃ i value, tp[i]? = some value ∧ p = start + i ∧ value.same v = true := by
  intro tp
  induction tp with
  | nil => intro start index; simp [addPositionHandles]
  | cons value rest ih =>
    intro start index
    unfold addPositionHandles
    rw [ih, bucketAt_set]
    have hstep : h'' ∈ (termLike.get (if start = p then
          appendHandle (bucketAt index start) value handle else bucketAt index p) v).getD [] ↔
        h'' ∈ (termLike.get (bucketAt index p) v).getD [] ∨
          h'' = handle ∧ start = p ∧ value.same v = true := by
      by_cases h : start = p
      · rw [if_pos h, mem_get_appendHandle, h]
        simp
      · rw [if_neg h]
        simp [h]
    rw [hstep, or_assoc, ← and_or_left]
    refine or_congr Iff.rfl (and_congr Iff.rfl ?_)
    constructor
    · rintro (⟨rfl, hsame⟩ | ⟨i, other, hget, rfl, hsame⟩)
      · exact ⟨0, value, rfl, rfl, hsame⟩
      · exact ⟨i + 1, other, by simpa using hget, by omega, hsame⟩
    · rintro ⟨i, other, hget, rfl, hsame⟩
      cases i with
      | zero =>
        have hval : value = other := by simpa using hget
        exact Or.inl ⟨rfl, by rw [hval]; exact hsame⟩
      | succ i => exact Or.inr ⟨i, other, by simpa using hget, by omega, hsame⟩

/-! ### Filed sources -/

/-- The source holds exactly these rows, each filed under its own values. -/
structure Filed (relation : String) (source : CandidateSource) (rows : List Tuple) : Prop where
  rows_eq : source.rows = rows
  occurrence : source.occurrence = none
  rotation : source.rotation = none
  positions : ∀ p v handle, handle ∈ (termLike.get (bucketAt source.positions p) v).getD [] ↔
      ∃ row value, rows[handle]? = some row ∧ ¬(relation = tripleRelation ∧ row.length = 3) ∧
        row[p]? = some value ∧ value.same v = true
  spo : TrieHolds source.spo fun handle a b c =>
    relation = tripleRelation ∧ rows[handle]? = some [a, b, c]
  pos : TrieHolds source.pos fun handle b c a =>
    relation = tripleRelation ∧ rows[handle]? = some [a, b, c]
  osp : TrieHolds source.osp fun handle c a b =>
    relation = tripleRelation ∧ rows[handle]? = some [a, b, c]

theorem filed_empty (re : String) : Filed re emptyCandidateSource [] where
  rows_eq := rfl
  occurrence := rfl
  rotation := rfl
  positions p v handle := by simp [emptyCandidateSource, bucketAt]
  spo := by
    have h : (fun (handle : Nat) (a b c : Term) =>
        re = tripleRelation ∧ ([] : List Tuple)[handle]? = some [a, b, c]) =
        fun _ _ _ _ => False := by simp
    rw [h]
    exact trieHolds_nil
  pos := by
    have h : (fun (handle : Nat) (b c a : Term) =>
        re = tripleRelation ∧ ([] : List Tuple)[handle]? = some [a, b, c]) =
        fun _ _ _ _ => False := by simp
    rw [h]
    exact trieHolds_nil
  osp := by
    have h : (fun (handle : Nat) (c a b : Term) =>
        re = tripleRelation ∧ ([] : List Tuple)[handle]? = some [a, b, c]) =
        fun _ _ _ _ => False := by simp
    rw [h]
    exact trieHolds_nil

/-- A row of a list with one more at its end is an old one or the new one. -/
theorem getElem?_concat_eq_some {rows : List Tuple} : (rows ++ [tp])[handle]? = some row ↔
      rows[handle]? = some row ∨ handle = rows.length ∧ row = tp := by
  rcases Nat.lt_trichotomy handle rows.length with h | h | h
  · rw [getElem?_append_left h]
    simp [Nat.ne_of_lt h]
  · subst h
    simp [eq_comm]
  · have hn : (rows ++ [tp])[handle]? = none := by
      rw [List.getElem?_eq_none_iff]
      simp
      omega
    have hn' : rows[handle]? = none := by
      rw [List.getElem?_eq_none_iff]
      omega
    rw [hn, hn']
    simp
    omega

theorem TrieHolds.congr {filed' : Nat → Term → Term → Term → Prop} (h : TrieHolds t f)
    (heq : ∀ n a b c, f n a b c ↔ filed' n a b c) : TrieHolds t filed' := by
  have hfun : f = filed' := by
    funext n a b c
    exact propext (heq n a b c)
  rw [← hfun]
  exact h

/-- A row that is not a triple of `triple` goes to the position buckets. -/
theorem candidateSourceAdd_positions {re : String} {s : CandidateSource}
    (h : ¬(re = tripleRelation ∧ tp.length = 3)) :
    candidateSourceAdd re s tp =
      { s with
        rows := s.rows ++ [tp]
        positions := addPositionHandles s.positions s.rows.length 0 tp } := by
  unfold candidateSourceAdd
  match tp with
  | [] => rfl
  | [_] => rfl
  | [_, _] => rfl
  | [_, _, _] =>
    have hne : re ≠ tripleRelation := fun heq => h ⟨heq, rfl⟩
    simp only [hne, if_false]
  | _ :: _ :: _ :: _ :: _ => rfl

theorem Filed.add {re : String} {s : CandidateSource} {rows : List Tuple}
    (h : Filed re s rows) (tp : Tuple) :
    Filed re (candidateSourceAdd re s tp) (rows ++ [tp]) := by
  by_cases hc : re = tripleRelation ∧ tp.length = 3
  · obtain ⟨rfl, hlen⟩ := hc
    obtain ⟨a, b, c, rfl⟩ := length_eq_three.mp hlen
    have hadd : candidateSourceAdd tripleRelation s [a, b, c] =
        { s with
          rows := s.rows ++ [[a, b, c]]
          spo := trieAdd s.spo a b c s.rows.length
          pos := trieAdd s.pos b c a s.rows.length
          osp := trieAdd s.osp c a b s.rows.length } := by
      simp [candidateSourceAdd]
    rw [hadd]
    have hl : s.rows.length = rows.length := by rw [h.rows_eq]
    refine ⟨by simp [h.rows_eq], h.occurrence, h.rotation, ?_, ?_, ?_, ?_⟩
    · intro p v handle
      refine (h.positions p v handle).trans ?_
      constructor
      · rintro ⟨row, va, hrow, hnot, hget, hs⟩
        exact ⟨row, va, getElem?_concat_eq_some.mpr (Or.inl hrow), hnot, hget, hs⟩
      · rintro ⟨row, va, hrow, hnot, hget, hs⟩
        rcases getElem?_concat_eq_some.mp hrow with hold | ⟨-, rfl⟩
        · exact ⟨row, va, hold, hnot, hget, hs⟩
        · exact absurd ⟨rfl, rfl⟩ hnot
    · refine (h.spo.add a b c _).congr fun n x y z => ?_
      rw [getElem?_concat_eq_some, hl]
      simp
    · refine (h.pos.add b c a _).congr fun n x y z => ?_
      rw [getElem?_concat_eq_some, hl]
      simp
      tauto
    · refine (h.osp.add c a b _).congr fun n x y z => ?_
      rw [getElem?_concat_eq_some, hl]
      simp
      tauto
  · rw [candidateSourceAdd_positions hc]
    have hl : s.rows.length = rows.length := by rw [h.rows_eq]
    have hk : ∀ (n : Nat) (a b c : Term), re = tripleRelation ∧ rows[n]? = some [a, b, c] ↔
        re = tripleRelation ∧ (rows ++ [tp])[n]? = some [a, b, c] := by
      intro n a b c
      rw [getElem?_concat_eq_some]
      constructor
      · rintro ⟨hrel, hrow⟩
        exact ⟨hrel, Or.inl hrow⟩
      · rintro ⟨hrel, hrow | ⟨-, htup⟩⟩
        · exact ⟨hrel, hrow⟩
        · exact absurd ⟨hrel, by rw [← htup]; rfl⟩ hc
    refine ⟨by simp [h.rows_eq], h.occurrence, h.rotation, ?_, ?_, ?_, ?_⟩
    · intro p v handle
      dsimp only
      rw [mem_addPositionHandles, h.positions, hl]
      constructor
      · rintro (⟨row, va, hrow, hnot, hget, hs⟩ | ⟨rfl, i, va, hget, hp, hs⟩)
        · exact ⟨row, va, getElem?_concat_eq_some.mpr (Or.inl hrow), hnot, hget, hs⟩
        · have hi : p = i := by omega
          subst hi
          exact ⟨tp, va, getElem?_concat_eq_some.mpr (Or.inr ⟨rfl, rfl⟩), hc, hget, hs⟩
      · rintro ⟨row, va, hrow, hnot, hget, hs⟩
        rcases getElem?_concat_eq_some.mp hrow with hold | ⟨rfl, rfl⟩
        · exact Or.inl ⟨row, va, hold, hnot, hget, hs⟩
        · exact Or.inr ⟨rfl, p, va, hget, by omega, hs⟩
    · exact h.spo.congr fun n a b c => hk n a b c
    · exact h.pos.congr fun n b c a => hk n a b c
    · exact h.osp.congr fun n c a b => hk n a b c

theorem Filed.addRows {re : String} {ts : List Tuple} :
    ∀ {s : CandidateSource} {rows : List Tuple}, Filed re s rows →
      Filed re (candidateSourceAddRows re s ts) (rows ++ ts) := by
  induction ts with
  | nil =>
    intro s rows h
    rw [append_nil]
    exact h
  | cons tp ts ih =>
    intro s rows h
    have := ih (h.add tp)
    rw [append_assoc] at this
    exact this

/-! ### Rows that can match -/

/-- The row agrees with every argument that has a value. -/
def Fits (arguments : List QueryTerm) (σ : Substitution) (row : Tuple) : Prop :=
  arguments.length = row.length ∧
    ∀ (i : Nat) (argument : QueryTerm) (v : Term), arguments[i]? = some argument →
      termValue argument σ = some v → ∃ value, row[i]? = some value ∧ value.same v = true

theorem unify_keeps (h : unify argument v σ = some σ') {n : String}
    (hw : σ.value n = some w) : σ'.value n = some w := by
  unfold unify at h
  cases hn : argument.name with
  | some o =>
    rw [hn] at h
    dsimp only at h
    cases ho : σ.value o with
    | some b =>
      rw [ho] at h
      dsimp only at h
      split at h
      · cases h
        exact hw
      · simp at h
    | none =>
      rw [ho] at h
      cases h
      rw [Substitution.value_bind]
      by_cases heq : o = n
      · rw [← heq, ho] at hw
        simp at hw
      · rw [if_neg heq]
        exact hw
  | none =>
    rw [hn] at h
    dsimp only at h
    split at h
    · split at h
      · cases h
        exact hw
      · simp at h
    · simp at h

theorem unify_same (h : unify argument v σ = some σ') (hw : termValue argument σ = some w) :
    v.same w = true := by
  have hwv : w.same v = true := by
    unfold unify at h
    unfold termValue at hw
    cases hn : argument.name with
    | _ =>
      rw [hn] at h hw
      dsimp only at h hw
      rw [hw] at h
      dsimp only at h
      split at h
      · assumption
      · simp at h
  exact Term.same_symm hwv

theorem termValue_keeps {o : QueryTerm} (h : unify argument v σ = some σ')
    (hw : termValue o σ = some w) : termValue o σ' = some w := by
  unfold termValue at hw ⊢
  cases hn : o.name with
  | none =>
    rw [hn] at hw
    exact hw
  | some n =>
    rw [hn] at hw
    exact unify_keeps h hw

theorem unifyAll_fits : ∀ {ars : List QueryTerm} {row : Tuple} {σ σ' : Substitution},
    unifyAll σ ars row = some σ' → ars.length = row.length →
    ∀ (i : Nat) (argument : QueryTerm) (v : Term), ars[i]? = some argument →
      termValue argument σ = some v → ∃ va, row[i]? = some va ∧ va.same v = true := by
  intro ars
  induction ars with
  | nil => intro row σ σ' _ _ i argument v hget; simp at hget
  | cons first r ih =>
    intro row σ σ' h hlen i argument v hget hv
    cases row with
    | nil => simp at hlen
    | cons va vs =>
      unfold unifyAll at h
      cases hfst : unify first va σ with
      | none =>
        rw [hfst] at h
        simp at h
      | some next =>
        rw [hfst] at h
        cases i with
        | zero =>
          have heq : first = argument := by simpa using hget
          subst heq
          exact ⟨va, rfl, unify_same hfst hv⟩
        | succ i =>
          exact ih h (by simpa using hlen) i argument v (by simpa using hget)
            (termValue_keeps hfst hv)

theorem Matches.fits (h : Matches ars row σ σ') : Fits ars σ row :=
  ⟨h.1, unifyAll_fits h.2 h.1⟩

/-- The handles name rows and miss none that fits; no handles stand for all the rows. -/
def Suits (rows : List Tuple) (arguments : List QueryTerm) (σ : Substitution) :
    Option (List Nat) → Prop
  | none => ∀ argument ∈ arguments, termValue argument σ = none
  | some handles => (∀ handle ∈ handles, handle < rows.length) ∧
      ∀ (handle : Nat) (row : Tuple), rows[handle]? = some row → Fits arguments σ row →
        handle ∈ handles

theorem lt_length_of_getElem? {rows : List Tuple} (h : rows[handle]? = some row) :
    handle < rows.length := by
  by_contra hge
  rw [List.getElem?_eq_none_iff.mpr (by omega)] at h
  simp at h

section

variable {re : String} {s : CandidateSource} {rows : List Tuple} {σ : Substitution}

/-- The bucket of a bound position suits. -/
theorem Filed.bucket_suits (h : Filed re s rows) {ars : List QueryTerm}
    (hnot : ¬(re = tripleRelation ∧ ars.length = 3)) {p : Nat} {argument : QueryTerm}
    {v : Term} (hget : ars[p]? = some argument) (hv : termValue argument σ = some v) :
    Suits rows ars σ (some ((termLike.get (bucketAt s.positions p) v).getD [])) := by
  refine ⟨?_, ?_⟩
  · intro handle hmem
    obtain ⟨row, -, hrow, -⟩ := (h.positions p v handle).mp hmem
    exact lt_length_of_getElem? hrow
  · intro handle row hrow hf
    obtain ⟨va, hval, hs⟩ := hf.2 p argument v hget hv
    refine (h.positions p v handle).mpr ⟨row, va, hrow, ?_, hval, hs⟩
    rw [← hf.1]
    exact hnot

theorem Filed.positionalHandles_suits (h : Filed re s rows) {ars : List QueryTerm}
    (hnot : ¬(re = tripleRelation ∧ ars.length = 3)) :
    Suits rows ars σ (positionalHandles s σ 0 none ars) := by
  have hl : ∀ (rest b : List QueryTerm) (be : Option (List Nat)),
      ars = b ++ rest → Suits rows ars σ be ∨
        be = none ∧ (∀ argument ∈ b, termValue argument σ = none) →
      Suits rows ars σ (positionalHandles s σ b.length be rest) := by
    intro rest
    induction rest with
    | nil =>
      intro b be heq hb
      rw [append_nil] at heq
      subst heq
      rcases hb with hb | ⟨rfl, hn⟩
      · exact hb
      · exact hn
    | cons argument rest ih =>
      intro b be heq hb
      have heq' : ars = (b ++ [argument]) ++ rest := by simp [heq]
      have hlen : b.length + 1 = (b ++ [argument]).length := by simp
      have hget : ars[b.length]? = some argument := by simp [heq]
      unfold positionalHandles
      cases hv : termValue argument σ with
      | none =>
        dsimp only
        rw [hlen]
        refine ih _ be heq' ?_
        rcases hb with hb | ⟨rfl, hn⟩
        · exact Or.inl hb
        · refine Or.inr ⟨rfl, ?_⟩
          intro o ho
          rcases List.mem_append.mp ho with hmem | hmem
          · exact hn o hmem
          · have ho' : o = argument := by simpa using hmem
            rw [ho']
            exact hv
      | some v =>
        dsimp only
        have hbu := h.bucket_suits hnot hget hv
        cases be with
        | none =>
          dsimp only
          rw [hlen]
          exact ih _ _ heq' (Or.inl hbu)
        | some fd =>
          dsimp only
          rw [hlen]
          have hf : Suits rows ars σ (some fd) := by
            rcases hb with hb | ⟨hn, -⟩
            · exact hb
            · simp at hn
          split
          · exact ih _ _ heq' (Or.inl hbu)
          · exact ih _ _ heq' (Or.inl hf)
  exact hl ars [] none rfl (Or.inr ⟨rfl, by simp⟩)

variable {x y z : QueryTerm}

theorem suits_of_mem {hs' : List Nat} {P : Term → Term → Term → Prop}
    (hmem : ∀ handle, handle ∈ hs' ↔ ∃ a b c, rows[handle]? = some [a, b, c] ∧ P a b c)
    (hP : ∀ a b c, Fits [x, y, z] σ [a, b, c] → P a b c) :
    Suits rows [x, y, z] σ (some hs') := by
  refine ⟨?_, ?_⟩
  · intro handle hh
    obtain ⟨a, b, c, hrow, -⟩ := (hmem handle).mp hh
    exact lt_length_of_getElem? hrow
  · intro handle row hrow hf
    obtain ⟨a, b, c, rfl⟩ := length_eq_three.mp hf.1.symm
    exact (hmem handle).mpr ⟨a, b, c, hrow, hP a b c hf⟩

theorem Fits.three {a b c : Term} (h : Fits [x, y, z] σ [a, b, c]) :
    (∀ v, termValue x σ = some v → a.same v = true) ∧
      (∀ v, termValue y σ = some v → b.same v = true) ∧
      ∀ v, termValue z σ = some v → c.same v = true := by
  refine ⟨fun v hv => ?_, fun v hv => ?_, fun v hv => ?_⟩
  · obtain ⟨_, ⟨⟩, hs⟩ := h.2 0 x v rfl hv
    exact hs
  · obtain ⟨_, ⟨⟩, hs⟩ := h.2 1 y v rfl hv
    exact hs
  · obtain ⟨_, ⟨⟩, hs⟩ := h.2 2 z v rfl hv
    exact hs

theorem exists_rotated {R : Term → Term → Term → Prop} : (∃ c a b, R a b c) ↔ ∃ a b c, R a b c :=
  ⟨fun ⟨c, a, b, h⟩ => ⟨a, b, c, h⟩, fun ⟨a, b, c, h⟩ => ⟨c, a, b, h⟩⟩

theorem Filed.triplePositionHandles_suits (h : Filed tripleRelation s rows)
    (x y z : QueryTerm) (σ : Substitution) :
    ∃ handles, triplePositionHandles s [x, y, z] σ = pure handles ∧
      Suits rows [x, y, z] σ handles := by
  -- the longest run of bound positions in one of the three orders is the key
  cases hx : termValue x σ with
  | none =>
    cases hy : termValue y σ with
    | none =>
      cases hz : termValue z σ with
      | none =>
        refine ⟨none, by simp [triplePositionHandles, boundPositions, nth, hx, hy, hz], ?_⟩
        intro argument hmem
        simp only [mem_cons, not_mem_nil, or_false] at hmem
        rcases hmem with rfl | rfl | rfl
        · exact hx
        · exact hy
        · exact hz
      | some vz =>
        refine ⟨some (trieProbe s.osp [vz]),
          by simp [triplePositionHandles, boundPositions, nth, hx, hy, hz], ?_⟩
        exact suits_of_mem (P := fun a b c => c.same vz = true)
          (fun handle => (h.osp.one vz handle).trans
            (by simp only [true_and]; exact exists_rotated))
          fun a b c hf => hf.three.2.2 vz hz
    | some vy =>
      cases hz : termValue z σ with
      | none =>
        refine ⟨some (trieProbe s.pos [vy]),
          by simp [triplePositionHandles, boundPositions, nth, hx, hy, hz], ?_⟩
        exact suits_of_mem (P := fun a b c => b.same vy = true)
          (fun handle => (h.pos.one vy handle).trans
            (by simp only [true_and]; exact exists_rotated.symm))
          fun a b c hf => hf.three.2.1 vy hy
      | some vz =>
        refine ⟨some (trieProbe s.pos [vy, vz]),
          by simp [triplePositionHandles, boundPositions, nth, hx, hy, hz], ?_⟩
        exact suits_of_mem (P := fun a b c => b.same vy = true ∧ c.same vz = true)
          (fun handle => (h.pos.two vy vz handle).trans
            (by simp only [true_and]; exact exists_rotated.symm))
          fun a b c hf => ⟨hf.three.2.1 vy hy, hf.three.2.2 vz hz⟩
  | some vx =>
    cases hy : termValue y σ with
    | none =>
      cases hz : termValue z σ with
      | none =>
        refine ⟨some (trieProbe s.spo [vx]),
          by simp [triplePositionHandles, boundPositions, nth, hx, hy, hz], ?_⟩
        exact suits_of_mem (P := fun a b c => a.same vx = true)
          (fun handle => (h.spo.one vx handle).trans (by simp only [true_and]))
          fun a b c hf => hf.three.1 vx hx
      | some vz =>
        refine ⟨some (trieProbe s.osp [vz, vx]),
          by simp [triplePositionHandles, boundPositions, nth, hx, hy, hz], ?_⟩
        exact suits_of_mem (P := fun a b c => c.same vz = true ∧ a.same vx = true)
          (fun handle => (h.osp.two vz vx handle).trans
            (by simp only [true_and]; exact exists_rotated))
          fun a b c hf => ⟨hf.three.2.2 vz hz, hf.three.1 vx hx⟩
    | some vy =>
      cases hz : termValue z σ with
      | none =>
        refine ⟨some (trieProbe s.spo [vx, vy]),
          by simp [triplePositionHandles, boundPositions, nth, hx, hy, hz], ?_⟩
        exact suits_of_mem (P := fun a b c => a.same vx = true ∧ b.same vy = true)
          (fun handle => (h.spo.two vx vy handle).trans (by simp only [true_and]))
          fun a b c hf => ⟨hf.three.1 vx hx, hf.three.2.1 vy hy⟩
      | some vz =>
        refine ⟨some (trieProbe s.spo [vx, vy, vz]),
          by simp [triplePositionHandles, boundPositions, nth, hx, hy, hz], ?_⟩
        exact suits_of_mem
          (P := fun a b c => a.same vx = true ∧ b.same vy = true ∧ c.same vz = true)
          (fun handle => (h.spo.three vx vy vz handle).trans
            (by simp only [true_and])) fun a b c hf =>
            ⟨hf.three.1 vx hx, hf.three.2.1 vy hy, hf.three.2.2 vz hz⟩

theorem Filed.sourceHandles_suits (h : Filed re s rows) (ars : List QueryTerm) (σ : Substitution) :
    ∃ handles, sourceHandles s re ars σ = pure handles ∧ Suits rows ars σ handles := by
  unfold sourceHandles
  rw [h.occurrence]
  dsimp only
  by_cases hc : re = tripleRelation ∧ ars.length = 3
  · rw [if_pos hc]
    obtain ⟨rfl, hlen⟩ := hc
    obtain ⟨x, y, z, rfl⟩ := length_eq_three.mp hlen
    exact h.triplePositionHandles_suits x y z σ
  · rw [if_neg hc]
    exact ⟨_, rfl, h.positionalHandles_suits hc⟩

theorem Filed.sourceRow_eq (h : Filed re s rows) {handle : Nat} {row : Tuple}
    (hrow : rows[handle]? = some row) : sourceRow s handle = pure row := by
  unfold sourceRow
  rw [h.occurrence]
  dsimp only
  unfold nth
  rw [h.rows_eq, hrow]

/-- Reading handles of rows is reading the rows. -/
theorem Filed.collect_sourceRow (h : Filed re s rows) {β : Type}
    (f : Tuple → Eval (List β)) {hs' : List Nat} (hlt : ∀ handle ∈ hs', handle < rows.length) :
    collect (fun handle => do
      let row ← sourceRow s handle
      f row) hs' = collect f (hs'.filterMap fun handle => rows[handle]?) := by
  induction hs' with
  | nil => rfl
  | cons handle hs' ih =>
    cases hget : rows[handle]? with
    | none =>
      have hge := List.getElem?_eq_none_iff.mp hget
      have := hlt handle (by simp)
      omega
    | some row =>
      rw [filterMap_cons_some hget]
      unfold collect
      rw [h.sourceRow_eq hget, pure_bind, ih fun o ho => hlt o (by simp [ho])]

end

/-! ### Presenting a relation -/

/-- The source answers literals of this arity as the tuples do: a positive one unifies with
some of them, among those every one that fits, and a ground tuple is there when it is one
of them. -/
structure Presents (relation : String) (arity : Nat) (source : CandidateSource)
    (tuples : List Tuple) : Prop where
  positive : ∀ (control : Option QueryControl) (arguments : List QueryTerm) (σ : Substitution),
    arguments.length = arity → ∃ chosen : List Tuple, (∀ t ∈ chosen, HasTuple tuples t) ∧
      (∀ t ∈ tuples, Fits arguments σ t → HasTuple chosen t) ∧
      candidateResultsIndexed control source relation arguments σ =
        unifyTuples control arguments chosen σ
  negative : ∀ (arguments : List QueryTerm) (σ : Substitution) (tuple : Tuple),
    arguments.length = arity → arguments ≠ [] → groundValue σ arguments = some tuple →
      sourceContains source relation arguments σ = pure (tupleLike.mem tuples tuple)

theorem Fits.alike {row' : Tuple} (h : Fits ars σ row) (hrow : AlikeTuple row row') :
    Fits ars σ row' := by
  refine ⟨h.1.trans hrow.length_eq, ?_⟩
  intro i argument v hget hv
  obtain ⟨va, hval, hs⟩ := h.2 i argument v hget hv
  obtain ⟨v', hval', hal⟩ := hrow.getElem? hval
  exact ⟨v', hval', (Alike.same_eq hal (Alike.refl v)).symm.trans hs⟩

/-- A tuple equal to the ground arguments fits them. -/
theorem fits_of_same : ∀ {ars : List QueryTerm} {σ : Substitution} {tp row : Tuple},
    groundValue σ ars = some tp → sameTuple tp row = true → Fits ars σ row := by
  intro ars σ
  induction ars with
  | nil =>
    intro tp row hg hsame
    cases hg
    cases row with
    | nil => exact ⟨rfl, by simp⟩
    | cons => simp [sameTuple] at hsame
  | cons argument rest ih =>
    intro tp row hg hsame
    unfold groundValue at hg
    cases hv : termValue argument σ with
    | none =>
      rw [hv] at hg
      simp at hg
    | some value =>
      cases hrest : groundValue σ rest with
      | none =>
        rw [hv, hrest] at hg
        simp at hg
      | some values =>
        rw [hv, hrest] at hg
        cases hg
        cases row with
        | nil => simp [sameTuple] at hsame
        | cons first others =>
          simp only [sameTuple, Bool.and_eq_true] at hsame
          obtain ⟨hlen, hfits⟩ := ih hrest hsame.2
          refine ⟨by simp [hlen], ?_⟩
          intro i other w hget hw
          cases i with
          | zero =>
            have heq : argument = other := by simpa using hget
            rw [← heq, hv] at hw
            cases hw
            exact ⟨first, rfl, Term.same_symm hsame.1⟩
          | succ i => exact hfits i other w (by simpa using hget) hw

theorem groundValue_bound (hg : groundValue σ ars = some tp) :
    ∀ argument ∈ ars, ∃ value, termValue argument σ = some value := by
  induction ars generalizing tp with
  | nil => simp
  | cons first r ih =>
    unfold groundValue at hg
    cases hv : termValue first σ with
    | none =>
      rw [hv] at hg
      simp at hg
    | some value =>
      cases hr : groundValue σ r with
      | none =>
        rw [hv, hr] at hg
        simp at hg
      | some vs =>
        intro argument hmem
        rcases mem_cons.mp hmem with rfl | hmem
        · exact ⟨value, hv⟩
        · exact ih hr argument hmem

theorem ground_eq (hg : groundValue σ ars = some tp) : ground σ ars = pure tp := by
  induction ars generalizing tp with
  | nil =>
    cases hg
    rfl
  | cons first r ih =>
    unfold groundValue at hg
    unfold ground
    cases hv : termValue first σ with
    | none =>
      rw [hv] at hg
      simp at hg
    | some va =>
      cases hr : groundValue σ r with
      | none =>
        rw [hv, hr] at hg
        simp at hg
      | some vs =>
        rw [hv, hr] at hg
        cases hg
        rw [ih hr]
        rfl

theorem collect_pure {α β : Type} (f : α → β) (as : List α) :
    collect (fun a => (pure [f a] : Eval (List β))) as = pure (as.map f) := by
  induction as with
  | nil => rfl
  | cons a as ih =>
    unfold collect
    rw [ih]
    rfl

/-- **A filed source presents the tuples it was filed from.** -/
theorem Filed.presents {re : String} {s : CandidateSource} {rows ts : List Tuple}
    (h : Filed re s rows) (hr : ∀ t, HasTuple rows t ↔ HasTuple ts t)
    (a : Nat) : Presents re a s ts where
  positive control ars σ _ := by
    obtain ⟨hs', hh, hs⟩ := h.sourceHandles_suits ars σ
    unfold candidateResultsIndexed
    rw [h.rotation]
    dsimp only
    rw [hh, pure_bind]
    cases hs' with
    | none =>
      refine ⟨rows, fun t ht => (hr t).mp (HasTuple.of_mem ht),
        fun t ht _ => (hr t).mpr (HasTuple.of_mem ht), ?_⟩
      dsimp only
      rw [h.rows_eq]
    | some hs' =>
      refine ⟨hs'.filterMap fun handle => rows[handle]?, ?_, ?_, h.collect_sourceRow _ hs.1⟩
      · intro t ht
        obtain ⟨handle, -, hget⟩ := mem_filterMap.mp ht
        exact (hr t).mp (HasTuple.of_mem (mem_of_getElem? hget))
      · intro t ht hf
        obtain ⟨row, hrow, hal⟩ := (hr t).mpr (HasTuple.of_mem ht)
        obtain ⟨handle, hget⟩ := mem_iff_getElem?.mp hrow
        refine ⟨row, mem_filterMap.mpr ⟨handle, ?_, hget⟩, hal⟩
        exact hs.2 handle row hget (hf.alike hal.symm)
  negative ars σ tp _ hne hg := by
    obtain ⟨hs', hh, hs⟩ := h.sourceHandles_suits ars σ
    unfold sourceContains
    rw [h.rotation]
    dsimp only
    rw [ground_eq hg, pure_bind, hh, pure_bind]
    cases hs' with
    | none =>
      -- a ground argument list that is not empty has a bound position
      cases ars with
      | nil => exact absurd rfl hne
      | cons argument r =>
        obtain ⟨va, hval⟩ := groundValue_bound hg argument (by simp)
        rw [hs argument (by simp)] at hval
        simp at hval
    | some hs' =>
      dsimp only [Option.getD_some]
      rw [h.collect_sourceRow (fun row => pure [row]) hs.1,
        show (fun row : Tuple => (pure [row] : Eval (List Tuple))) = fun row => pure [id row]
          from rfl, collect_pure id, map_id, pure_bind]
      congr 1
      rw [mem_eq_of_hasTuple_iff (fun t => (hr t).symm) (AlikeTuple.refl tp),
        Bool.eq_iff_iff, tupleLike.mem_iff, any_eq_true]
      constructor
      · rintro ⟨row, hrow, hsa⟩
        obtain ⟨handle, -, hget⟩ := mem_filterMap.mp hrow
        exact ⟨row, mem_of_getElem? hget, sameTuple_symm _ _ hsa⟩
      · rintro ⟨row, hrow, hsa⟩
        have hsa' : sameTuple tp row = true := sameTuple_symm _ _ hsa
        obtain ⟨handle, hget⟩ := mem_iff_getElem?.mp hrow
        refine ⟨row, mem_filterMap.mpr ⟨handle, ?_, hget⟩, hsa'⟩
        exact hs.2 handle row hget (fits_of_same hg hsa')

end Beagle.Query
