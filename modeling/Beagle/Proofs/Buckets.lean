/-
What the buckets of a projection give.

A bucket names its keys by code.  Read back, the codes are the keys of a table of
leaves, and every probe and every step of a build is the table's.  So a leaf has the
events of its key in commit order, however the keys collide and however often the
bucket is relinked.
-/
import Beagle.Store.Rotation

namespace Beagle.Store

open Beagle.Lib List

/-! ### Keys -/

/-- The key of an event under a shape. -/
inductive ShapeKey where
  | one (shape : Nat) (a : Term)
  | two (a b : Term)

def ShapeKey.same : ShapeKey → ShapeKey → Bool
  | .one shape a, .one shape' b => shape == shape' && a.same b
  | .two a b, .two c d => a.same c && b.same d
  | _, _ => false

/-- Keys of events are compared Term by Term. -/
def shapeLike : Likeness ShapeKey where
  same := ShapeKey.same
  symm a b h := by
    cases a <;> cases b <;> simp only [ShapeKey.same, Bool.and_eq_true, beq_iff_eq] at h ⊢
    · exact ⟨h.1.symm, Term.same_symm h.2⟩
    · cases h
    · cases h
    · exact ⟨Term.same_symm h.1, Term.same_symm h.2⟩
  trans a b c hab hbc := by
    cases a <;> cases b <;> cases c <;>
      simp only [ShapeKey.same, Bool.and_eq_true, beq_iff_eq, Bool.false_eq_true] at hab hbc ⊢
    · exact ⟨hab.1.trans hbc.1, Term.same_trans hab.2 hbc.2⟩
    · exact ⟨Term.same_trans hab.1 hbc.1, Term.same_trans hab.2 hbc.2⟩

def shapeKey (shape : Nat) (event : OperationOccurrence) : ShapeKey :=
  if shape = shapeT12 then .two event.proposition.t1 event.proposition.t2
  else .one shape (shapeTerm shape event)

def ShapeKey.hash (K : KeyHashing) : ShapeKey → Int
  | .one _ a => K.one a
  | .two a b => K.two a b

theorem ShapeKey.hash_same (K : KeyHashing) (a b : ShapeKey) (h : shapeLike.same a b = true) :
    a.hash K = b.hash K := by
  cases a <;> cases b <;> simp only [shapeLike, ShapeKey.same, Bool.and_eq_true,
    Bool.false_eq_true] at h
  · exact K.one_same _ _ h.2
  · exact K.two_same _ _ _ _ h.1 h.2

theorem shapeHash_eq (K : KeyHashing) (sh : Nat) (event : OperationOccurrence) :
    shapeHash K sh event = (shapeKey sh event).hash K := by
  unfold shapeHash shapeKey shapeTerm
  by_cases h1 : sh = shapeT1
  · subst h1
    rfl
  · by_cases h12 : sh = shapeT12
    · subst h12
      rfl
    · by_cases h2 : sh = shapeT2
      · subst h2
        rfl
      · simp [h1, h12, h2, ShapeKey.hash]

theorem same_shapeKey (sh sh' : Nat) (event n : OperationOccurrence) :
    (sh == sh' && sameShapeKey sh event n)
      = shapeLike.same (shapeKey sh event) (shapeKey sh' n) := by
  by_cases hs : sh = sh'
  · subst hs
    unfold sameShapeKey shapeKey shapeTerm
    by_cases h1 : sh = shapeT1
    · subst h1
      rfl
    · by_cases h12 : sh = shapeT12
      · subst h12
        rfl
      · by_cases h2 : sh = shapeT2
        · subst h2
          rfl
        · simp [h1, h12, h2, shapeLike, ShapeKey.same]
  · rw [beq_eq_false_iff_ne.mpr hs, Bool.false_and]
    symm
    unfold shapeKey
    by_cases h12 : sh = shapeT12
    · rw [if_pos h12, if_neg fun h => hs (h12.trans h.symm)]
      rfl
    · rw [if_neg h12]
      by_cases h12' : sh' = shapeT12
      · rw [if_pos h12']
        rfl
      · rw [if_neg h12']
        simp [shapeLike, ShapeKey.same, hs]

/-! ### Codes -/

theorem codePosition_keyCode (p : Nat) {sh : Nat} (h : sh < 4) :
    codePosition (keyCode p sh) = p := by
  unfold codePosition keyCode shapeBits
  rw [Nat.shiftRight_or_distrib, Nat.shiftLeft_shiftRight, Nat.shiftRight_eq_div_pow,
    Nat.div_eq_of_lt h, Nat.or_zero]

theorem codeShape_keyCode (p : Nat) {shape : Nat} (h : shape < 4) :
    codeShape (keyCode p shape) = shape := by
  unfold codeShape keyCode shapeBits
  rw [show shapeMask = 2 ^ 2 - 1 from rfl, Nat.and_two_pow_sub_one_eq_mod, Nat.or_mod_two_pow,
    Nat.shiftLeft_eq, Nat.mul_mod_left, Nat.zero_or, Nat.mod_eq_of_lt h]

/-- The key a code names. -/
def keyOf (source : List OperationOccurrence) (code : Nat) : Option ShapeKey :=
  source[codePosition code]?.map (shapeKey (codeShape code))

variable {event : OperationOccurrence} {p : Nat}

theorem keyOf_keyCode {source : List OperationOccurrence} {sh : Nat}
    (h : source[p]? = some event) (hs : sh < 4) :
    keyOf source (keyCode p sh) = some (shapeKey sh event) := by
  unfold keyOf
  rw [codePosition_keyCode p hs, codeShape_keyCode p hs, h]
  rfl

/-! ### A bucket as a table of leaves -/

section

variable (source : List OperationOccurrence)

/-- The bucket is this table, its keys named by code. -/
structure Reads (bucket : Bucket) (t : Leaves ShapeKey OperationOccurrence) : Prop where
  width : bucket.width = t.width
  keys : bucket.codes.map (keyOf source) = t.keys.map some
  leaves : bucket.events = t.leaves
  links : bucket.links = t.links

variable {source}

namespace Reads

variable {bk : Bucket} {t : Leaves ShapeKey OperationOccurrence} (h : Reads source bk t)
include h

theorem key (key : Nat) : bk.codes[key]?.map (keyOf source) = t.keys[key]?.map some := by
  have := congrArg (fun ks => ks[key]?) h.keys
  simpa only [getElem?_map] using this

/-- Testing the event a code names is testing the key. -/
theorem test (p : ShapeKey) (test : Nat → OperationOccurrence → Bool)
    (ht : ∀ sh event, test sh event = shapeLike.same p (shapeKey sh event))
    (key : Nat) :
    (bk.codes[key]?.any fun c => source[codePosition c]?.any (test (codeShape c)))
      = t.keys[key]?.any (shapeLike.same p) := by
  have hkey := h.key key
  cases hc : bk.codes[key]? with
  | none =>
    rw [hc] at hkey
    cases hk : t.keys[key]? with
    | none => rfl
    | some k =>
      rw [hk] at hkey
      cases hkey
  | some c =>
    rw [hc] at hkey
    cases hk : t.keys[key]? with
    | none =>
      rw [hk] at hkey
      cases hkey
    | some k =>
      rw [hk] at hkey
      have hkey : keyOf source c = some k := Option.some.inj hkey
      unfold keyOf at hkey
      obtain ⟨event, hev, rfl⟩ := Option.map_eq_some_iff.mp hkey
      simp only [Option.any_some, hev]
      exact ht _ _

variable (K : KeyHashing)

theorem find (probe : ShapeKey) {hash : Int} (hhash : hash = probe.hash K) {test : Nat → Bool}
    (htest : ∀ key, test key = t.keys[key]?.any (shapeLike.same probe)) :
    bk.links.find (slotOf hash bk.width) test
      = Leaves.findKey shapeLike (ShapeKey.hash K) t probe := by
  unfold Leaves.findKey
  rw [h.links, h.width, hhash, funext htest]
  rfl

/-- The key test of a probe of one Term. -/
theorem test_one {sh : Nat} (hsh : sh ≠ shapeT12) (a : Term) (key : Nat) :
    (bk.codes[key]?.any fun c => sh == codeShape c &&
      source[codePosition c]?.any fun event => a.same (shapeTerm sh event))
      = t.keys[key]?.any (shapeLike.same (.one sh a)) := by
  have ht := h.test (.one sh a) (fun sh' event => sh == sh' && a.same (shapeTerm sh event)) ?_ key
  · rw [← ht]
    refine congrArg (Option.any · bk.codes[key]?) (funext fun c => ?_)
    cases source[codePosition c]? <;> simp
  · intro sh' event
    by_cases hs : sh = sh'
    · subst hs
      simp [shapeKey, hsh, shapeLike, ShapeKey.same]
    · unfold shapeKey
      by_cases h12 : sh' = shapeT12
      · simp [h12, hsh, shapeLike, ShapeKey.same]
      · simp [h12, beq_eq_false_iff_ne.mpr hs, shapeLike, ShapeKey.same]

/-- The key test of a probe of two Terms. -/
theorem test_two (a b : Term) (key : Nat) :
    (bk.codes[key]?.any fun code => shapeT12 == codeShape code &&
      source[codePosition code]?.any fun event =>
        a.same event.proposition.t1 && b.same event.proposition.t2)
      = t.keys[key]?.any (shapeLike.same (.two a b)) := by
  have htest := h.test (.two a b) (fun shape' event =>
      shapeT12 == shape' && (a.same event.proposition.t1 && b.same event.proposition.t2)) ?_ key
  · rw [← htest]
    refine congrArg (Option.any · bk.codes[key]?) (funext fun code => ?_)
    cases source[codePosition code]? <;> simp
  · intro shape' event
    unfold shapeKey
    by_cases h12 : shape' = shapeT12
    · simp [h12, shapeLike, ShapeKey.same]
    · simp [h12, beq_eq_false_iff_ne.mpr (Ne.symm h12), shapeLike, ShapeKey.same]

theorem leafOne {sh : Nat} (hs : sh ≠ shapeT12) (a : Term) : bucketLeafOne K bk source sh a
      = Leaves.leaf shapeLike (ShapeKey.hash K) t (.one sh a) := by
  have hf := h.find K (.one sh a) (show K.one a = _ from rfl) (h.test_one hs a)
  unfold bucketLeafOne Leaves.leaf
  dsimp only
  rw [hf, h.leaves] <;> cases Leaves.findKey shapeLike (ShapeKey.hash K) t _ <;> rfl

theorem leafTwo (a b : Term) : bucketLeafTwo K bk source a b
      = Leaves.leaf shapeLike (ShapeKey.hash K) t (.two a b) := by
  have hf := h.find K (.two a b) (show K.two a b = _ from rfl) (h.test_two a b)
  unfold bucketLeafTwo Leaves.leaf
  dsimp only
  rw [hf, h.leaves] <;> cases Leaves.findKey shapeLike (ShapeKey.hash K) t _ <;> rfl

theorem keyAt (sh : Nat) (event : OperationOccurrence) :
    bucketKeyAt bk source (slotOf (shapeHash K sh event) bk.width) sh event
      = Leaves.findKey shapeLike (ShapeKey.hash K) t (shapeKey sh event) := by
  unfold bucketKeyAt
  refine h.find K _ (shapeHash_eq K sh event) ?_
  intro key
  have ht := h.test (shapeKey sh event) (fun sh' n => sh == sh' && sameShapeKey sh event n)
    (fun sh' n => same_shapeKey sh sh' event n) key
  rw [← ht]
  refine congrArg (Option.any · bk.codes[key]?) (funext fun c => ?_)
  cases source[codePosition c]? <;> simp

end Reads

theorem relinkedChain_eq (K : KeyHashing) {cs : List Nat} {ks : List ShapeKey}
    (h : cs.map (keyOf source) = ks.map some) (width : Nat) :
    relinkedChain K cs source width = Leaves.relink (ShapeKey.hash K) ks width := by
  unfold relinkedChain Leaves.relink
  generalize HashChain.fresh width = links
  induction cs generalizing ks links with
  | nil =>
    cases ks with
    | nil => rfl
    | cons k r => cases h
  | cons c cs ih =>
    cases ks with
    | nil => cases h
    | cons k r =>
      obtain ⟨hk, hr⟩ := cons_eq_cons.mp h
      unfold keyOf at hk
      obtain ⟨event, hev, rfl⟩ := Option.map_eq_some_iff.mp hk
      rw [foldl_cons, foldl_cons, hev]
      dsimp only
      rw [shapeHash_eq]
      exact ih hr _

end

/-! ### Building a bucket -/

/-- May the event be in a rotation? -/
def Assertion (event : OperationOccurrence) : Prop :=
  (occurrenceCoordinateOf event.coordinate.term).isSome ∧ event.action = .assert

theorem checkedAssertion_ok (h : Assertion event) : checkedAssertion event = .ok event := by
  unfold checkedAssertion
  exact if_pos h

section

variable (K : KeyHashing) {source : List OperationOccurrence} {p : Nat}

/-- **A step of a build puts the event under its key.** -/
theorem bucketStep_reads {bk : Bucket} {t : Leaves ShapeKey OperationOccurrence}
    (h : Reads source bk t) {sh : Nat} {event : OperationOccurrence}
    (hev : source[p]? = some event) (hasr : Assertion event) (hs : sh < 4) :
    ∃ bk', bucketStep K source p event bk sh = .ok bk' ∧
      Reads source bk' (Leaves.put shapeLike (ShapeKey.hash K) bucketSlotLoad t
        (shapeKey sh event) event) := by
  have hk : (bk.codes ++ [keyCode p sh]).map (keyOf source)
      = (t.keys ++ [shapeKey sh event]).map some := by
    rw [map_append, map_append, h.keys, map_singleton, keyOf_keyCode hev hs]
    rfl
  have hlen : (bk.codes ++ [keyCode p sh]).length = (t.keys ++ [shapeKey sh event]).length := by
    have := congrArg List.length hk
    simpa only [length_map] using this
  unfold bucketStep
  rw [checkedAssertion_ok hasr]
  unfold Leaves.put
  simp only [bind, Except.bind, h.keyAt K]
  cases Leaves.findKey shapeLike (ShapeKey.hash K) t (shapeKey sh event) with
  | some key =>
    refine ⟨_, rfl, h.width, h.keys, ?_, h.links⟩
    dsimp only
    rw [h.leaves]
  | none =>
    refine ⟨_, rfl, ?_⟩
    unfold withLeaf Leaves.add
    dsimp only
    rw [hlen, h.width]
    by_cases hf : (t.keys ++ [shapeKey sh event]).length > bucketSlotLoad * t.width
    · rw [if_pos hf, if_pos hf]
      refine ⟨rfl, hk, by rw [← h.leaves], ?_⟩
      unfold Bucket.links
      exact relinkedChain_eq K hk _
    · rw [if_neg hf, if_neg hf]
      refine ⟨rfl, hk, by rw [← h.leaves], ?_⟩
      unfold Bucket.links
      rw [← h.links, shapeHash_eq]
      rfl

/-- The entries of an event, one a shape. -/
def shapeEntries (shapes : List Nat) (event : OperationOccurrence) :
    List (ShapeKey × OperationOccurrence) :=
  shapes.map fun shape => (shapeKey shape event, event)

/-- A bucket with these entries. -/
def BucketHolds (source : List OperationOccurrence) (bucket : Bucket)
    (entries : List (ShapeKey × OperationOccurrence)) : Prop :=
  ∃ t, Reads source bucket t ∧ Leaves.Holds shapeLike (ShapeKey.hash K) t entries

theorem freshBucket_holds {w : Nat} (h : 0 < w) : BucketHolds K source (freshBucket w) [] :=
  ⟨Leaves.fresh w, ⟨rfl, rfl, rfl, rfl⟩, Leaves.fresh_holds h⟩

theorem bucketSteps_holds {event : OperationOccurrence} (hev : source[p]? = some event)
    (hasr : Assertion event) :
    ∀ (ss : List Nat), (∀ sh ∈ ss, sh < 4) → ∀ {bk : Bucket}
      {es : List (ShapeKey × OperationOccurrence)}, BucketHolds K source bk es →
      ∃ bk', ss.foldlM (bucketStep K source p event) bk = .ok bk' ∧
        BucketHolds K source bk' (es ++ shapeEntries ss event) := by
  intro ss
  induction ss with
  | nil =>
    intro _ bk es h
    refine ⟨bk, rfl, ?_⟩
    rw [show shapeEntries [] event = [] from rfl, append_nil]
    exact h
  | cons sh r ih =>
    intro hs bk es ⟨t, hreads, hhd⟩
    obtain ⟨bk', hok, hr'⟩ := bucketStep_reads K hreads hev hasr (hs sh (mem_cons_self ..))
    obtain ⟨f, hf, he⟩ := ih (fun o ho => hs o (mem_cons_of_mem _ ho))
      ⟨_, hr', hhd.put (ShapeKey.hash_same K) bucketSlotLoad _ event⟩
    refine ⟨f, ?_, ?_⟩
    · rw [foldlM_cons, hok]
      exact hf
    · rw [append_assoc] at he
      exact he

theorem projectedBucketFrom_holds {ss : List Nat} (hs : ∀ sh ∈ ss, sh < 4) :
    ∀ (r b : List OperationOccurrence), source = b ++ r →
      (∀ event ∈ r, Assertion event) → ∀ {bk : Bucket}
      {es : List (ShapeKey × OperationOccurrence)}, BucketHolds K source bk es →
      ∃ bk', projectedBucketFrom K source ss b.length r bk = .ok bk' ∧
        BucketHolds K source bk' (es ++ r.flatMap (shapeEntries ss)) := by
  intro r
  induction r with
  | nil =>
    intro b _ _ bk es h
    refine ⟨bk, rfl, ?_⟩
    rw [flatMap_nil, append_nil]
    exact h
  | cons event r ih =>
    intro b hsrc hasr bk es h
    have hev : source[b.length]? = some event := by
      rw [hsrc, getElem?_append_right (Nat.le_refl _), Nat.sub_self]
      rfl
    obtain ⟨f, hf, he⟩ := bucketSteps_holds K hev (hasr event (mem_cons_self ..)) ss hs h
    obtain ⟨bu, hb, hall⟩ := ih (b ++ [event]) (by rw [hsrc]; simp)
      (fun o ho => hasr o (mem_cons_of_mem _ ho)) he
    refine ⟨bu, ?_, ?_⟩
    · unfold projectedBucketFrom
      rw [hf]
      rw [length_append] at hb
      exact hb
    · rw [append_assoc] at hall
      exact hall

theorem widenBucket_pos {eventCount : Nat} :
    ∀ (fuel : Nat) {width : Nat}, 0 < width → 0 < widenBucket eventCount fuel width := by
  intro fuel
  induction fuel with
  | zero => intro width h; exact h
  | succ fuel ih =>
    intro width h
    unfold widenBucket
    by_cases hen : bucketSlotLoad * width ≥ eventCount
    · rw [if_pos hen]
      exact h
    · rw [if_neg hen]
      exact ih (Nat.mul_pos (Nat.zero_lt_succ 1) h)

theorem initialBucketWidth_pos (eventCount : Nat) : 0 < initialBucketWidth eventCount :=
  widenBucket_pos _ (by decide)

end

/-! ### What a projected bucket gives -/

theorem filter_flatMap_single {α : Type} (p : α → Bool) (xs : List α) :
    (xs.flatMap fun x => if p x then [x] else []) = xs.filter p := by
  induction xs with
  | nil => rfl
  | cons x r ih =>
    rw [flatMap_cons, ih, filter_cons]
    by_cases h : p x = true
    · rw [if_pos h, if_pos h]
      rfl
    · rw [if_neg h, if_neg h]
      rfl

theorem under_entries {ss : List Nat} {pr : ShapeKey} {p : OperationOccurrence → Bool}
    (h : ∀ event, ((shapeEntries ss event).filter fun e =>
      shapeLike.same pr e.1).map Prod.snd = if p event then [event] else [])
    (evs : List OperationOccurrence) :
    Leaves.under shapeLike (evs.flatMap (shapeEntries ss)) pr = evs.filter p := by
  unfold Leaves.under
  rw [filter_flatMap, map_flatMap, ← filter_flatMap_single]
  exact flatMap_congr fun event _ => h event

section

variable (K : KeyHashing) {evs : List OperationOccurrence}

theorem projectedBucket_holds (hasr : ∀ event ∈ evs, Assertion event) (first : Nat)
    {l w : Nat} (hl : l < 4) (hwd : 0 < w) :
    ∃ bk, projectedBucket K evs first l w = .ok bk ∧ BucketHolds K evs bk
        (evs.flatMap (shapeEntries (range' first (l + 1 - first)))) := by
  have hs : ∀ sh ∈ range' first (l + 1 - first), sh < 4 := by
    intro sh hsh
    rw [mem_range'_1] at hsh
    omega
  exact projectedBucketFrom_holds K hs evs [] rfl hasr (freshBucket_holds K hwd)

variable {es : List (ShapeKey × OperationOccurrence)}

theorem BucketHolds.leafOne {bk : Bucket} (h : BucketHolds K evs bk es)
    {sh : Nat} (hs : sh ≠ shapeT12) (a : Term) :
    bucketLeafOne K bk evs sh a = Leaves.under shapeLike es (.one sh a) := by
  obtain ⟨t, hr, hhd⟩ := h
  rw [hr.leafOne K hs]
  exact Leaves.leaf_eq (ShapeKey.hash_same K) hhd _

theorem BucketHolds.leafTwo {bk : Bucket} (h : BucketHolds K evs bk es) (a b : Term) :
    bucketLeafTwo K bk evs a b = Leaves.under shapeLike es (.two a b) := by
  obtain ⟨t, hr, hhd⟩ := h
  rw [hr.leafTwo K]
  exact Leaves.leaf_eq (ShapeKey.hash_same K) hhd _

end

/-! ### The occurrence index -/

/-- The slot of the event at a position. -/
def occurrenceSlot (K : KeyHashing) (width : Nat) (events : List OperationOccurrence)
    (position : Nat) : Nat :=
  (events[position]?.map fun event => slotOf (K.one event.coordinate.term) width).getD 0

theorem slotOf_lt (hash : Int) {width : Nat} (h : 0 < width) : slotOf hash width < width := by
  have h1 := Int.emod_nonneg hash (b := (width : Int)) (by omega)
  have h2 := Int.emod_lt_of_pos hash (b := (width : Int)) (by omega)
  unfold slotOf
  omega

theorem projectedOccurrences_linked (K : KeyHashing) {width : Nat} (h : 0 < width)
    {evs : List OperationOccurrence} (hasr : ∀ event ∈ evs, Assertion event) :
    ∃ index, projectedOccurrences K evs width = .ok index ∧ index.width = width ∧
      HashChain.Linked (occurrenceSlot K width evs) width evs.length index.links := by
  have hfold : ∃ links, (evs.foldlM (fun links event => do
      let event ← checkedAssertion event
      Except.ok (HashChain.push links (slotOf (K.one event.coordinate.term) width)))
      (HashChain.fresh width)) = Except.ok links ∧
      HashChain.Linked (occurrenceSlot K width evs) width evs.length links := by
    induction evs using reverseRecOn with
    | nil => exact ⟨_, rfl, HashChain.fresh_linked _ _⟩
    | append_singleton evs event ih =>
      obtain ⟨links, hok, hlinked⟩ := ih fun other ho =>
        hasr other (mem_append_left _ ho)
      have hlast : occurrenceSlot K width (evs ++ [event]) evs.length
          = slotOf (K.one event.coordinate.term) width := by simp [occurrenceSlot]
      have hmore : HashChain.Linked (occurrenceSlot K width (evs ++ [event])) width
          evs.length links := hlinked.congr ?_
      · refine ⟨links.push (slotOf (K.one event.coordinate.term) width), ?_, ?_⟩
        · rw [foldlM_append, hok]
          simp only [foldlM_cons, foldlM_nil, checkedAssertion_ok
            (hasr event (mem_append_right _ (mem_singleton.mpr rfl)))]
          rfl
        · rw [← hlast, length_append]
          exact hmore.push (by rw [hlast]; exact slotOf_lt _ h)
      · intro key hkey
        unfold occurrenceSlot
        rw [getElem?_append_left hkey]
  obtain ⟨links, hok, hlinked⟩ := hfold
  refine ⟨⟨width, links.heads, links.chain⟩, ?_, rfl, hlinked⟩
  unfold projectedOccurrences
  rw [hok]
  rfl

/-- The last event of a test, from its position. -/
theorem getLast?_filter_of {evs : List OperationOccurrence} {ts' : OperationOccurrence → Bool}
    (hev : evs[p]? = some event) (ht : ts' event = true)
    (hl : ∀ (l : Nat) (o : OperationOccurrence), p < l → evs[l]? = some o → ts' o = false) :
    (evs.filter ts').getLast? = some event := by
  have hlt := (List.getElem?_eq_some_iff.mp hev).1
  have hsp : evs = evs.take p ++ event :: evs.drop (p + 1) := by
    conv_lhs => rw [← take_append_drop p evs, drop_eq_getElem_cons hlt]
    rw [(List.getElem?_eq_some_iff.mp hev).2]
  have hn : (evs.drop (p + 1)).filter ts' = [] := by
    refine filter_eq_nil_iff.mpr ?_
    intro o ho
    obtain ⟨i, hi⟩ := mem_iff_getElem?.mp ho
    rw [getElem?_drop] at hi
    rw [hl _ o (by omega) hi]
    exact Bool.false_ne_true
  rw [hsp, filter_append, filter_cons, if_pos ht, hn]
  simp

/-- **The index finds the newest event with an occurrence.** -/
theorem occurrenceEvent_eq (K : KeyHashing) {evs : List OperationOccurrence}
    {index : OccurrenceIndex} (hwd : 0 < index.width)
    (h : HashChain.Linked (occurrenceSlot K index.width evs) index.width evs.length
      index.links) (occurrence : Triple) :
    occurrenceEvent K index evs occurrence
      = (evs.filter fun event => occurrence.term.same event.coordinate.term).getLast? := by
  let test : Nat → Bool := fun p =>
    evs[p]?.any fun event => occurrence.term.same event.coordinate.term
  have hin : ∀ key, key < evs.length → test key = true →
      occurrenceSlot K index.width evs key = slotOf (K.one occurrence.term) index.width := by
    intro key hkey htest
    unfold occurrenceSlot
    simp only [test, getElem?_eq_getElem hkey, Option.any_some] at htest
    rw [getElem?_eq_getElem hkey]
    simp only [Option.map_some, Option.getD_some]
    rw [K.one_same _ _ htest]
  unfold occurrenceEvent
  dsimp only
  cases hfind : index.links.find (slotOf (K.one occurrence.term) index.width) test with
  | some p =>
    obtain ⟨hlt, htest, hlater⟩ := HashChain.find_some h (slotOf_lt _ hwd) hin hfind
    simp only [test, getElem?_eq_getElem hlt, Option.any_some] at htest
    simp only [Option.bind_some]
    rw [getElem?_eq_getElem hlt]
    symm
    refine getLast?_filter_of (getElem?_eq_getElem hlt) htest ?_
    intro later other h1 h2
    have := hlater later h1 (List.getElem?_eq_some_iff.mp h2).1
    simp only [test, h2, Option.any_some] at this
    exact this
  | none =>
    simp only [Option.bind_none]
    symm
    rw [getLast?_eq_none_iff, filter_eq_nil_iff]
    intro event hev
    obtain ⟨p, hpos⟩ := mem_iff_getElem?.mp hev
    have := HashChain.find_none h (slotOf_lt _ hwd) hin hfind p
      (List.getElem?_eq_some_iff.mp hpos).1
    simp only [test, hpos, Option.any_some] at this
    rw [this]
    exact Bool.false_ne_true

/-! ### A projection -/

/-- The buckets and the occurrence index answer for the events of the rotation. -/
structure Indexes (K : KeyHashing) (rotation : Rotation) : Prop where
  t1 : ∀ a, bucketLeafOne K rotation.spo rotation.events shapeT1 a
    = rotation.events.filter fun event => a.same event.proposition.t1
  t12 : ∀ a b, bucketLeafTwo K rotation.spo rotation.events a b
    = rotation.events.filter fun event =>
        a.same event.proposition.t1 && b.same event.proposition.t2
  t2 : ∀ a, bucketLeafOne K rotation.pos rotation.events shapeT2 a
    = rotation.events.filter fun event => a.same event.proposition.t2
  t3 : ∀ a, bucketLeafOne K rotation.osp rotation.events shapeT3 a
    = rotation.events.filter fun event => a.same event.proposition.t3
  occurrence : ∀ occurrence, occurrenceEvent K rotation.byOccurrence rotation.events occurrence
    = (rotation.events.filter fun event =>
        occurrence.term.same event.coordinate.term).getLast?

/-- What a projection of some events is. -/
structure Projection (K : KeyHashing) (spaceId : String) (version : Int)
    (events : List OperationOccurrence) (rotation : Rotation) : Prop where
  spaceId : rotation.spaceId = spaceId
  version : rotation.version = version
  events : rotation.events = events
  pending : rotation.pending = []
  indexes : Indexes K rotation

/-- **Assertions can be projected, and the projection answers for them.** -/
theorem projected_spec (K : KeyHashing) (spaceId : String) (version : Int)
    {evs : List OperationOccurrence} (hasr : ∀ event ∈ evs, Assertion event) :
    ∃ rotation, projected K spaceId version evs = .ok rotation ∧
      Projection K spaceId version evs rotation := by
  have hpos := initialBucketWidth_pos evs.length
  obtain ⟨byOccurrence, hoccs, hwd, hlinked⟩ :=
    projectedOccurrences_linked K hpos hasr
  obtain ⟨spo, hspo, hspoHd⟩ := projectedBucket_holds K hasr shapeT1
    (show shapeT12 < 4 by decide) (initialBucketWidth_pos (2 * evs.length))
  obtain ⟨pos, hposB, hposHd⟩ := projectedBucket_holds K hasr shapeT2
    (show shapeT2 < 4 by decide) hpos
  obtain ⟨osp, hosp, hospHd⟩ := projectedBucket_holds K hasr shapeT3
    (show shapeT3 < 4 by decide) hpos
  refine ⟨⟨spaceId, version, evs, byOccurrence, spo, pos, osp, []⟩, ?_, rfl, rfl, rfl, rfl,
    ?_, ?_, ?_, ?_, ?_⟩
  · unfold projected
    simp only [hoccs, hspo, hposB, hosp, bind, Except.bind]
  · intro a
    rw [hspoHd.leafOne K (by decide)]
    refine under_entries ?_ evs
    intro event
    cases h : a.same event.proposition.t1 <;>
      simp [shapeEntries, shapeKey, shapeTerm, shapeT1, shapeT12, range', shapeLike,
        ShapeKey.same, h]
  · intro a b
    rw [hspoHd.leafTwo K]
    refine under_entries ?_ evs
    intro event
    cases h : a.same event.proposition.t1 <;> cases h' : b.same event.proposition.t2 <;>
      simp [shapeEntries, shapeKey, shapeT1, shapeT12, range', shapeLike, ShapeKey.same, h, h']
  · intro a
    rw [hposHd.leafOne K (by decide)]
    refine under_entries ?_ evs
    intro event
    cases h : a.same event.proposition.t2 <;>
      simp [shapeEntries, shapeKey, shapeTerm, shapeT1, shapeT2, shapeT12, shapeLike,
        ShapeKey.same, h]
  · intro a
    rw [hospHd.leafOne K (by decide)]
    refine under_entries ?_ evs
    intro event
    cases h : a.same event.proposition.t3 <;>
      simp [shapeEntries, shapeKey, shapeTerm, shapeT1, shapeT2, shapeT3, shapeT12, shapeLike,
        ShapeKey.same, h]
  · intro occurrence
    exact occurrenceEvent_eq K (by rw [hwd]; exact hpos) (by rw [hwd]; exact hlinked) occurrence

end Beagle.Store
