/-
Handles.

A handle is an atom row's position doubled, or a triple row's position doubled and
one more, and every non-negative integer is exactly one of the two.

What a row store is for.

Here interning is stated without slot tables: search the row list, and append the
row when it is not there.  A handle then denotes a Term, and the point of the
whole construction is that it denotes canonically: in well-formed rows two handles
of equal Terms are one handle, interning a Term gives a handle that denotes it, and
interning what a handle denotes gives the handle back and appends nothing new.
-/
import Beagle.Store.TermStore

namespace Beagle.Store

open List

@[simp] theorem isAtomHandle_atomHandle (p : Nat) : isAtomHandle (atomHandle p) = true := by
  simp [isAtomHandle, atomHandle]

@[simp] theorem isAtomHandle_tripleHandle (p : Nat) : isAtomHandle (tripleHandle p) = false := by
  simp [isAtomHandle, tripleHandle]

@[simp] theorem handlePosition_atomHandle (p : Nat) : handlePosition (atomHandle p) = p := by
  unfold handlePosition atomHandle; omega

@[simp] theorem handlePosition_tripleHandle (p : Nat) : handlePosition (tripleHandle p) = p := by
  unfold handlePosition tripleHandle; omega

theorem atomHandle_nonneg (p : Nat) : 0 ≤ atomHandle p := by unfold atomHandle; omega

theorem tripleHandle_nonneg (p : Nat) : 0 ≤ tripleHandle p := by unfold tripleHandle; omega

variable {q : Nat}

theorem atomHandle_inj {p : Nat} (h : atomHandle p = atomHandle q) : p = q := by
  unfold atomHandle at h; omega

theorem tripleHandle_inj {p : Nat} (h : tripleHandle p = tripleHandle q) : p = q := by
  unfold tripleHandle at h; omega

theorem atomHandle_ne_tripleHandle (p q : Nat) : atomHandle p ≠ tripleHandle q := by
  unfold atomHandle tripleHandle; omega

/-- A non-negative handle names an atom row or a triple row. -/
theorem handle_cases {h : Int} (h0 : 0 ≤ h) :
    (∃ p, h = atomHandle p) ∨ ∃ p, h = tripleHandle p := by
  unfold atomHandle tripleHandle
  rcases Int.emod_two_eq h with he | ho
  · exact Or.inl ⟨(h / 2).toNat, by omega⟩
  · exact Or.inr ⟨(h / 2).toNat, by omega⟩

@[simp] theorem tripleHandleShape_tripleHandle (p : Nat) :
    tripleHandleShape (tripleHandle p) = true := by
  simp [tripleHandleShape, tripleHandle]; omega

@[simp] theorem tripleHandleShape_atomHandle (p : Nat) :
    tripleHandleShape (atomHandle p) = false := by
  simp [tripleHandleShape, atomHandle]

/-- The two row lists Terms are interned into. -/
structure Rows where
  atoms : List AtomRow
  triples : List TripleRow
deriving DecidableEq, Repr

namespace Rows

def empty : Rows := ⟨[], []⟩

def findAtom (rows : Rows) (value : AtomRow) : Option Nat :=
  rows.atoms.findIdx? fun row => row.same value

def findTriple (rows : Rows) (value : TripleRow) : Option Nat :=
  rows.triples.findIdx? fun row => row == value

def internAtom (rows : Rows) (value : AtomRow) : Rows × Int :=
  match rows.findAtom value with
  | some known => (rows, atomHandle known)
  | none => ({ rows with atoms := rows.atoms ++ [value] }, atomHandle rows.atoms.length)

def internTriple (rows : Rows) (value : TripleRow) : Rows × Int :=
  match rows.findTriple value with
  | some known => (rows, tripleHandle known)
  | none => ({ rows with triples := rows.triples ++ [value] }, tripleHandle rows.triples.length)

/-- Intern a Term, components first. -/
def intern (rows : Rows) : Term → Rows × Int
  | .atom value => rows.internAtom (atomRow value)
  | .triple t1 t2 t3 =>
    let r1 := intern rows t1
    let r2 := intern r1.1 t2
    let r3 := intern r2.1 t3
    r3.1.internTriple ⟨r1.2, r2.2, r3.2⟩

/-- The handle of a Term whose rows are all there. -/
def known (rows : Rows) : Term → Option Int
  | .atom value => (rows.findAtom (atomRow value)).map atomHandle
  | .triple t1 t2 t3 =>
    match known rows t1, known rows t2, known rows t3 with
    | some h1, some h2, some h3 => (rows.findTriple ⟨h1, h2, h3⟩).map tripleHandle
    | _, _, _ => none

/-- The Term a handle denotes. -/
inductive Denotes (rows : Rows) : Int → Term → Prop where
  | atom {p : Nat} {value : AtomValue} (row : rows.atoms[p]? = some (atomRow value)) :
      Denotes rows (atomHandle p) (.atom value)
  | triple {p : Nat} {row : TripleRow} {t1 t2 t3 : Term} (at_row : rows.triples[p]? = some row)
      (d1 : Denotes rows row.t1 t1) (d2 : Denotes rows row.t2 t2) (d3 : Denotes rows row.t3 t3) :
      Denotes rows (tripleHandle p) (.triple t1 t2 t3)

/-- A handle names a row of these rows. -/
def Valid (rows : Rows) (h : Int) : Prop :=
  (∃ p, h = atomHandle p ∧ p < rows.atoms.length) ∨
    ∃ p, h = tripleHandle p ∧ p < rows.triples.length

/-- A handle names an atom row, or a triple row before a position. -/
def Prior (rows : Rows) (position : Nat) (h : Int) : Prop :=
  (∃ p, h = atomHandle p ∧ p < rows.atoms.length) ∨ ∃ p, h = tripleHandle p ∧ p < position

/-- Every atom row is the row of an atom and every triple row names earlier rows. -/
structure Sound (rows : Rows) : Prop where
  atoms : ∀ row ∈ rows.atoms, ∃ value, row = atomRow value
  prior : ∀ (p : Nat) (row : TripleRow), rows.triples[p]? = some row →
    rows.Prior p row.t1 ∧ rows.Prior p row.t2 ∧ rows.Prior p row.t3

/-- No row equals a later one. -/
structure Distinct (rows : Rows) : Prop where
  atoms : rows.atoms.Pairwise fun a b => a.same b = false
  triples : rows.triples.Pairwise fun a b => (a == b) = false

theorem empty_sound : Sound empty :=
  ⟨fun row hm => by simp [empty] at hm, fun p row hm => by simp [empty] at hm⟩

/-- `rows'` continues `rows`. -/
structure Extends (rows rows' : Rows) : Prop where
  atoms : rows.atoms <+: rows'.atoms
  triples : rows.triples <+: rows'.triples

theorem Extends.refl (rows : Rows) : Extends rows rows :=
  ⟨prefix_refl _, prefix_refl _⟩

variable {r r' rs' : Rows} {α : Type} {p : Nat} {h' h : Int} {t u : Term} {r'' : Rows} {l : List α}
  {a : α} {s t1 t2 t3 : Term} {q : Nat} {ts us : List Term}

theorem Extends.trans (h : Extends r r') (h' : Extends r' r'') : Extends r r'' :=
  ⟨h.atoms.trans h'.atoms, h.triples.trans h'.triples⟩

private theorem getElem?_continued {l' : List α} (h : l <+: l') (hp : l[p]? = some a) :
    l'[p]? = some a := by
  obtain ⟨t, rfl⟩ := h
  rw [getElem?_append_left (List.getElem?_eq_some_iff.mp hp).1]
  exact hp

/-! ### Denotation -/

theorem Denotes.mono {rs : Rows} (h : Extends rs rs') (d : Denotes rs h' t) : Denotes rs' h' t := by
  induction d with
  | atom row => exact .atom (getElem?_continued h.atoms row)
  | triple at_row _ _ _ ih1 ih2 ih3 =>
    exact .triple (getElem?_continued h.triples at_row) ih1 ih2 ih3

theorem atomRow_inj {a b : AtomValue} (h : atomRow a = atomRow b) : a = b := by
  cases a <;> cases b <;> simp_all [atomRow]

variable {rs : Rows}

/-- A handle denotes at most one Term. -/
theorem Denotes.unique (d : Denotes rs h t) (e : Denotes rs h u) : t = u := by
  induction d generalizing u with
  | @atom p v row =>
    generalize hh : atomHandle p = h at e
    cases e with
    | @atom q v' row' =>
      rw [atomHandle_inj hh, row'] at row
      rw [atomRow_inj (Option.some.inj row)]
    | triple => exact absurd hh (atomHandle_ne_tripleHandle _ _)
  | @triple p row t1 t2 t3 at_row _ _ _ ih1 ih2 ih3 =>
    generalize hh : tripleHandle p = h at e
    cases e with
    | atom => exact absurd hh.symm (atomHandle_ne_tripleHandle _ _)
    | @triple q row' u1 u2 u3 at_row' e1 e2 e3 =>
      rw [tripleHandle_inj hh, at_row'] at at_row
      cases Option.some.inj at_row
      rw [ih1 e1, ih2 e2, ih3 e3]

/-- The parts of a denoted Term are denoted. -/
theorem Denotes.of_part {rs : Rows} (d : Denotes rs h t) (hs : s ∈ t.parts) :
    ∃ k, Denotes rs k s := by
  induction d with
  | atom row =>
    rw [Term.parts, mem_singleton] at hs
    subst hs
    exact ⟨_, .atom row⟩
  | triple at_row d1 d2 d3 ih1 ih2 ih3 =>
    simp only [Term.parts, mem_cons, List.mem_append] at hs
    rcases hs with rfl | (hs | hs) | hs
    · exact ⟨_, .triple at_row d1 d2 d3⟩
    · exact ih1 hs
    · exact ih2 hs
    · exact ih3 hs

theorem atomRow_same (a b : AtomValue) : (atomRow a).same (atomRow b) = a.same b := by
  cases a <;> cases b <;>
    simp [atomRow, AtomRow.same, AtomValue.same, sameFloat?]

private theorem pairwise_unique {rel : α → α → Bool} (hl : l.Pairwise fun a b => rel a b = false)
    (hs : ∀ a b, rel a b = true → rel b a = true) {b : α} (hp : l[p]? = some a)
    (hq : l[q]? = some b) (hab : rel a b = true) : p = q := by
  obtain ⟨hpl, rfl⟩ := List.getElem?_eq_some_iff.mp hp
  obtain ⟨hql, rfl⟩ := List.getElem?_eq_some_iff.mp hq
  rcases Nat.lt_trichotomy p q with hlt | heq | hgt
  · rw [pairwise_iff_getElem.mp hl p q hpl hql hlt] at hab
    simp at hab
  · exact heq
  · have hba := hs _ _ hab
    rw [pairwise_iff_getElem.mp hl q p hql hpl hgt] at hba
    simp at hba

/-- **Canonicity.**  In distinct rows, handles of equal Terms are one handle. -/
theorem Denotes.canonical (hd : Distinct rs) {k : Int} (d : Denotes rs h t)
    (e : Denotes rs k u) (hs : t.same u = true) : h = k := by
  induction d generalizing k u with
  | atom row =>
    cases e with
    | atom row' =>
      rw [pairwise_unique hd.atoms (fun _ _ => AtomRow.same_symm) row row'
        (by rw [atomRow_same]; exact hs)]
    | triple => simp [Term.same] at hs
  | @triple p row t1 t2 t3 at_row _ _ _ ih1 ih2 ih3 =>
    cases e with
    | atom => simp [Term.same] at hs
    | @triple q row' u1 u2 u3 at_row' e1 e2 e3 =>
      simp only [Term.same, Bool.and_eq_true] at hs
      have hrow : row = row' := by
        obtain ⟨a, b, c⟩ := row
        obtain ⟨a', b', c'⟩ := row'
        rw [TripleRow.mk.injEq]
        exact ⟨ih1 e1 hs.1.1, ih2 e2 hs.1.2, ih3 e3 hs.2⟩
      subst hrow
      rw [pairwise_unique hd.triples (fun _ _ h => beq_iff_eq.mpr (beq_iff_eq.mp h).symm)
        at_row at_row'
        (by simp)]

/-! ### One interning step -/

theorem findAtom_some {v : AtomRow} (h : rs.findAtom v = some p) :
    ∃ row, rs.atoms[p]? = some row ∧ row.same v = true := by
  obtain ⟨hp, hs, -⟩ := findIdx?_eq_some_iff_getElem.mp h
  exact ⟨_, getElem?_eq_getElem hp, hs⟩

theorem findAtom_none {v : AtomRow} (h : rs.findAtom v = none) :
    ∀ row ∈ rs.atoms, row.same v = false :=
  fun row hr => findIdx?_eq_none_iff.mp h row hr

variable {value : TripleRow}

theorem findTriple_some (h : rs.findTriple value = some p) :
    rs.triples[p]? = some value := by
  obtain ⟨hp, hs, -⟩ := findIdx?_eq_some_iff_getElem.mp h
  rw [getElem?_eq_getElem hp, beq_iff_eq.mp hs]

theorem findTriple_none {v : TripleRow} (h : rs.findTriple v = none) :
    ∀ row ∈ rs.triples, (row == v) = false :=
  fun row hr => findIdx?_eq_none_iff.mp h row hr

theorem internAtom_extends (rs : Rows) (v : AtomRow) : Extends rs (rs.internAtom v).1 := by
  unfold internAtom
  cases rs.findAtom v with
  | some p => exact Extends.refl rs
  | none => exact ⟨prefix_append _ _, prefix_refl _⟩

theorem internTriple_extends (rs : Rows) (v : TripleRow) : Extends rs (rs.internTriple v).1 := by
  unfold internTriple
  cases rs.findTriple v with
  | some p => exact Extends.refl rs
  | none => exact ⟨prefix_refl _, prefix_append _ _⟩

theorem intern_extends (rs : Rows) (t : Term) : Extends rs (rs.intern t).1 := by
  induction t generalizing rs with
  | atom v => exact internAtom_extends rs _
  | triple t1 t2 t3 ih1 ih2 ih3 =>
    exact (ih1 rs).trans ((ih2 _).trans ((ih3 _).trans (internTriple_extends _ _)))

private theorem pairwise_snoc {R : α → α → Prop} {x : α} (hl : l.Pairwise R) (hx : ∀ a ∈ l, R a x) :
    (l ++ [x]).Pairwise R := by
  refine pairwise_append.mpr ⟨hl, pairwise_singleton _ _, ?_⟩
  intro a ha b hb
  rw [mem_singleton.mp hb]
  exact hx a ha

theorem internAtom_distinct (hd : Distinct rs) (v : AtomRow) :
    Distinct (rs.internAtom v).1 := by
  unfold internAtom
  cases hf : rs.findAtom v with
  | some p => exact hd
  | none => exact ⟨pairwise_snoc hd.atoms (findAtom_none hf), hd.triples⟩

theorem internTriple_distinct (hd : Distinct rs) (v : TripleRow) :
    Distinct (rs.internTriple v).1 := by
  unfold internTriple
  cases hf : rs.findTriple v with
  | some p => exact hd
  | none => exact ⟨hd.atoms, pairwise_snoc hd.triples (findTriple_none hf)⟩

/-- **Interning keeps the rows distinct.** -/
theorem intern_distinct (hd : Distinct rs) (t : Term) : Distinct (rs.intern t).1 := by
  induction t generalizing rs with
  | atom v => exact internAtom_distinct hd _
  | triple t1 t2 t3 ih1 ih2 ih3 => exact internTriple_distinct (ih3 (ih2 (ih1 hd))) _

/-! ### Soundness -/

theorem Prior.mono {rs : Rows} (h : Extends rs rs') (hpq : p ≤ q) (hp : rs.Prior p h') :
    rs'.Prior q h' := by
  rcases hp with ⟨r, rfl, hr⟩ | ⟨r, rfl, hr⟩
  · exact Or.inl ⟨r, rfl, Nat.lt_of_lt_of_le hr h.atoms.length_le⟩
  · exact Or.inr ⟨r, rfl, Nat.lt_of_lt_of_le hr hpq⟩

theorem Valid.mono {rs : Rows} (h : Extends rs rs') (hv : rs.Valid h') : rs'.Valid h' := by
  rcases hv with ⟨r, rfl, hr⟩ | ⟨r, rfl, hr⟩
  · exact Or.inl ⟨r, rfl, Nat.lt_of_lt_of_le hr h.atoms.length_le⟩
  · exact Or.inr ⟨r, rfl, Nat.lt_of_lt_of_le hr h.triples.length_le⟩

theorem Denotes.valid (d : Denotes rs h t) : rs.Valid h := by
  cases d with
  | atom row => exact Or.inl ⟨_, rfl, (List.getElem?_eq_some_iff.mp row).1⟩
  | triple at_row => exact Or.inr ⟨_, rfl, (List.getElem?_eq_some_iff.mp at_row).1⟩

theorem internAtom_valid (rs : Rows) (v : AtomRow) :
    (rs.internAtom v).1.Valid (rs.internAtom v).2 := by
  unfold internAtom
  cases hf : rs.findAtom v with
  | some p =>
    obtain ⟨row, hr, -⟩ := findAtom_some hf
    exact Or.inl ⟨p, rfl, (List.getElem?_eq_some_iff.mp hr).1⟩
  | none => exact Or.inl ⟨_, rfl, by simp⟩

theorem internTriple_valid (rs : Rows) (v : TripleRow) :
    (rs.internTriple v).1.Valid (rs.internTriple v).2 := by
  unfold internTriple
  cases hf : rs.findTriple v with
  | some p => exact Or.inr ⟨p, rfl, (List.getElem?_eq_some_iff.mp (findTriple_some hf)).1⟩
  | none => exact Or.inr ⟨_, rfl, by simp⟩

theorem intern_valid (rs : Rows) (t : Term) : (rs.intern t).1.Valid (rs.intern t).2 := by
  cases t with
  | atom v => exact internAtom_valid rs _
  | triple t1 t2 t3 => exact internTriple_valid _ _

theorem Valid.prior (hv : rs.Valid h) : rs.Prior rs.triples.length h := hv

theorem internAtom_sound (hs : Sound rs) (v : AtomValue) :
    Sound (rs.internAtom (atomRow v)).1 := by
  refine ⟨?_, ?_⟩
  · unfold internAtom
    cases rs.findAtom (atomRow v) with
    | some p => exact hs.atoms
    | none =>
      intro row hrow
      rcases List.mem_append.mp hrow with hrow | hrow
      · exact hs.atoms row hrow
      · exact ⟨v, mem_singleton.mp hrow⟩
  · intro p row hrow
    have hext := internAtom_extends rs (atomRow v)
    have hrow' : rs.triples[p]? = some row := by
      revert hrow
      unfold internAtom
      cases rs.findAtom (atomRow v) <;> exact id
    obtain ⟨h1, h2, h3⟩ := hs.prior p row hrow'
    exact ⟨h1.mono hext (Nat.le_refl _), h2.mono hext (Nat.le_refl _), h3.mono hext (Nat.le_refl _)⟩

theorem internTriple_sound (hs : Sound rs)
    (h1 : rs.Valid value.t1) (h2 : rs.Valid value.t2) (h3 : rs.Valid value.t3) :
    Sound (rs.internTriple value).1 := by
  unfold internTriple
  cases rs.findTriple value with
  | some p => exact hs
  | none =>
    refine ⟨hs.atoms, ?_⟩
    intro p row hrow
    rcases Nat.lt_or_ge p rs.triples.length with hlt | hge
    · rw [getElem?_append_left hlt] at hrow
      exact hs.prior p row hrow
    · rw [getElem?_append_right hge] at hrow
      obtain ⟨hp, hv⟩ := List.getElem?_eq_some_iff.mp hrow
      simp only [length_singleton] at hp
      have hv' : row = value := by simpa using hv.symm
      subst hv'
      have heq : p = rs.triples.length := by omega
      subst heq
      exact ⟨h1.prior, h2.prior, h3.prior⟩

theorem intern_sound (hs : Sound rs) (t : Term) : Sound (rs.intern t).1 := by
  induction t generalizing rs with
  | atom v => exact internAtom_sound hs v
  | triple t1 t2 t3 ih1 ih2 ih3 =>
    have e2 := intern_extends (rs.intern t1).1 t2
    have e3 := intern_extends ((rs.intern t1).1.intern t2).1 t3
    exact internTriple_sound (ih3 (ih2 (ih1 hs)))
      (((intern_valid rs t1).mono e2).mono e3) ((intern_valid _ t2).mono e3)
      (intern_valid _ t3)

/-- In sound rows every valid handle denotes a Term. -/
theorem Valid.denotes (hs : Sound rs) (hv : rs.Valid h) : ∃ t, Denotes rs h t := by
  rcases hv with ⟨p, rfl, hp⟩ | ⟨p, rfl, hp⟩
  · obtain ⟨v, hval⟩ := hs.atoms _ (getElem_mem hp)
    exact ⟨_, .atom (by rw [getElem?_eq_getElem hp, hval])⟩
  · -- A triple row names earlier rows only, so the descent is well founded on its position.
    induction p using Nat.strongRecOn with
    | ind p ih =>
      have hrow := getElem?_eq_getElem hp
      have hpr : ∀ {k : Int}, rs.Prior p k → ∃ t, Denotes rs k t := by
        rintro k (⟨q, rfl, hq⟩ | ⟨q, rfl, hq⟩)
        · obtain ⟨v, hval⟩ := hs.atoms _ (getElem_mem hq)
          exact ⟨_, .atom (by rw [getElem?_eq_getElem hq, hval])⟩
        · exact ih q hq (Nat.lt_trans hq hp)
      obtain ⟨h1, h2, h3⟩ := hs.prior p _ hrow
      obtain ⟨t1, d1⟩ := hpr h1
      obtain ⟨t2, d2⟩ := hpr h2
      obtain ⟨t3, d3⟩ := hpr h3
      exact ⟨_, .triple hrow d1 d2 d3⟩

/-! ### Interning denotes, and interns back -/

theorem internAtom_denotes (hs : Sound rs) (v : AtomValue) :
    ∃ v', (v' = v ∨ v'.same v = true) ∧
      Denotes (rs.internAtom (atomRow v)).1 (rs.internAtom (atomRow v)).2 (.atom v') := by
  unfold internAtom
  cases hf : rs.findAtom (atomRow v) with
  | some p =>
    obtain ⟨row, hr, hsa⟩ := findAtom_some hf
    obtain ⟨v', rfl⟩ := hs.atoms row (mem_of_getElem? hr)
    exact ⟨v', Or.inr (by rwa [atomRow_same] at hsa), .atom hr⟩
  | none => exact ⟨v, Or.inl rfl, .atom (by simp)⟩

theorem internTriple_denotes {rs : Rows} {r : TripleRow} (d1 : Denotes rs r.t1 t1)
    (d2 : Denotes rs r.t2 t2) (d3 : Denotes rs r.t3 t3) :
    Denotes (rs.internTriple r).1 (rs.internTriple r).2 (.triple t1 t2 t3) := by
  have hext := internTriple_extends rs r
  revert hext
  unfold internTriple
  cases hf : rs.findTriple r with
  | some p => exact fun _ => .triple (findTriple_some hf) d1 d2 d3
  | none => exact fun hext => .triple (by simp) (d1.mono hext) (d2.mono hext) (d3.mono hext)

/-- The handle of an interned Term denotes a Term that agrees with it. -/
theorem intern_agrees (hs : Sound rs) (t : Term) :
    ∃ u, Denotes (rs.intern t).1 (rs.intern t).2 u ∧ u.agrees t := by
  induction t generalizing rs with
  | atom v =>
    obtain ⟨v', hv, d⟩ := internAtom_denotes hs v
    refine ⟨_, d, ?_⟩
    rcases hv with rfl | hv
    · exact Or.inl rfl
    · exact Or.inr hv
  | triple t1 t2 t3 ih1 ih2 ih3 =>
    have e2 := intern_extends (rs.intern t1).1 t2
    have e3 := intern_extends ((rs.intern t1).1.intern t2).1 t3
    have hs1 := intern_sound hs t1
    have hs2 := intern_sound hs1 t2
    obtain ⟨u1, d1, a1⟩ := ih1 hs
    obtain ⟨u2, d2, a2⟩ := ih2 hs1
    obtain ⟨u3, d3, a3⟩ := ih3 hs2
    exact ⟨_, internTriple_denotes (r := ⟨_, _, _⟩) ((d1.mono e2).mono e3) (d2.mono e3) d3,
      a1, a2, a3⟩

/-- **The handle of an interned Term denotes that Term**, unless a NaN occurs in it. -/
theorem intern_denotes (hs : Sound rs) (hn : t.hasNan = false) :
    ∃ u, Denotes (rs.intern t).1 (rs.intern t).2 u ∧ u.same t = true := by
  obtain ⟨u, d, hu⟩ := intern_agrees hs t
  exact ⟨u, d, Term.same_of_agrees_clean hu hn⟩

/-! ### What interning adds -/

/-- Every Term the new rows denote was denoted before or is one of `ts`, NaNs apart. -/
def AddsOnly (rows rows' : Rows) (ts : List Term) : Prop :=
  ∀ h u, Denotes rows' h u → u.hasNan = false → Denotes rows h u ∨ ∃ s ∈ ts, s.same u = true

theorem AddsOnly.refl (rs : Rows) (ts : List Term) : AddsOnly rs rs ts :=
  fun _ _ d _ => Or.inl d

theorem AddsOnly.subset (h : AddsOnly r r' ts) (hsub : ts ⊆ us) : AddsOnly r r' us := by
  intro k u d hn
  rcases h k u d hn with d' | ⟨s, hs, hu⟩
  · exact Or.inl d'
  · exact Or.inr ⟨s, hsub hs, hu⟩

theorem AddsOnly.trans {ts' : List Term} (h : AddsOnly r r' ts) (h' : AddsOnly r' r'' ts')
    (hsub : ts ⊆ us) (hsub' : ts' ⊆ us) : AddsOnly r r'' us := by
  intro k u d hn
  rcases h' k u d hn with d' | ⟨s, hs, hu⟩
  · rcases h k u d' hn with d'' | ⟨s, hs, hu⟩
    · exact Or.inl d''
    · exact Or.inr ⟨s, hsub hs, hu⟩
  · exact Or.inr ⟨s, hsub' hs, hu⟩

/-- A handle that was valid before denotes what it denoted. -/
theorem Denotes.restrict (hs : Sound rs) (he : Extends rs rs')
    (d : Denotes rs' h u) (hv : rs.Valid h) : Denotes rs h u := by
  obtain ⟨t, dt⟩ := hv.denotes hs
  rw [d.unique (dt.mono he)]
  exact dt

theorem internAtom_addsOnly (hs : Sound rs) (v : AtomValue) :
    AddsOnly rs (rs.internAtom (atomRow v)).1 [.atom v] := by
  have he := internAtom_extends rs (atomRow v)
  revert he
  unfold internAtom
  cases rs.findAtom (atomRow v) with
  | some p => exact fun _ => AddsOnly.refl _ _
  | none =>
    intro he h u d hn
    rcases d.valid with ⟨p, rfl, hp⟩ | hv
    · rcases Nat.lt_or_ge p rs.atoms.length with hlt | hge
      · exact Or.inl (d.restrict hs he (Or.inl ⟨p, rfl, hlt⟩))
      · -- The only new row is the one appended.
        have hlen : p = rs.atoms.length := by
          simp only [length_append, length_singleton] at hp; omega
        subst hlen
        have heq := d.unique (.atom (by simp) : Denotes _ _ (.atom v))
        subst heq
        exact Or.inr ⟨_, mem_singleton.mpr rfl, by rw [Term.same_self, hn]; rfl⟩
    · exact Or.inl (d.restrict hs he (Or.inr hv))

theorem internTriple_addsOnly (hs : Sound rs) {r : TripleRow}
    (d1 : Denotes rs r.t1 t1) (d2 : Denotes rs r.t2 t2) (d3 : Denotes rs r.t3 t3)
    (ht : (Term.triple t1 t2 t3).hasNan = false → t.same (.triple t1 t2 t3) = true) :
    AddsOnly rs (rs.internTriple r).1 [t] := by
  have he := internTriple_extends rs r
  have hden := internTriple_denotes d1 d2 d3
  revert he hden
  unfold internTriple
  cases rs.findTriple r with
  | some p => exact fun _ _ => AddsOnly.refl _ _
  | none =>
    intro he hden h u d hn
    rcases d.valid with hv | ⟨p, rfl, hp⟩
    · exact Or.inl (d.restrict hs he (Or.inl hv))
    · rcases Nat.lt_or_ge p rs.triples.length with hlt | hge
      · exact Or.inl (d.restrict hs he (Or.inr ⟨p, rfl, hlt⟩))
      · have hlen : p = rs.triples.length := by
          simp only [length_append, length_singleton] at hp; omega
        subst hlen
        have heq := d.unique hden
        subst heq
        exact Or.inr ⟨t, mem_singleton.mpr rfl, ht hn⟩

/-- **Interning a Term adds the Term and its parts, and nothing else.** -/
theorem intern_addsOnly (hs : Sound rs) (t : Term) :
    AddsOnly rs (rs.intern t).1 t.parts := by
  induction t generalizing rs with
  | atom v => exact internAtom_addsOnly hs v
  | triple t1 t2 t3 ih1 ih2 ih3 =>
    have e2 := intern_extends (rs.intern t1).1 t2
    have e3 := intern_extends ((rs.intern t1).1.intern t2).1 t3
    have hs1 := intern_sound hs t1
    have hs2 := intern_sound hs1 t2
    obtain ⟨u1, d1, a1⟩ := intern_agrees hs t1
    obtain ⟨u2, d2, a2⟩ := intern_agrees hs1 t2
    obtain ⟨u3, d3, a3⟩ := intern_agrees hs2 t3
    have h4 := internTriple_addsOnly (intern_sound hs2 t3) (r := ⟨_, _, _⟩)
      (t := .triple t1 t2 t3) ((d1.mono e2).mono e3) (d2.mono e3) d3 (by
        intro hn
        have ha : (Term.triple u1 u2 u3).agrees (.triple t1 t2 t3) := ⟨a1, a2, a3⟩
        rw [Term.hasNan_of_agrees ha] at hn
        exact Term.same_symm (Term.same_of_agrees_clean ha hn))
    have h12 := (ih1 hs).trans (ih2 hs1) (subset_append_left _ _) (subset_append_right _ _)
    have h123 := h12.trans (ih3 hs2) (subset_append_left _ _) (subset_append_right _ _)
    exact h123.trans h4 (subset_cons_self _ _) (by simp [Term.parts])

/-- Every part of an interned Term is denoted afterwards, NaNs apart. -/
theorem intern_parts (hs : Sound rs) (hmem : s ∈ t.parts) (hn : s.hasNan = false) :
    ∃ h u, Denotes (rs.intern t).1 h u ∧ u.same s = true := by
  induction t generalizing rs with
  | atom v =>
    rw [Term.parts, mem_singleton] at hmem
    subst hmem
    exact ⟨_, intern_denotes hs hn⟩
  | triple t1 t2 t3 ih1 ih2 ih3 =>
    have hs1 := intern_sound hs t1
    have hs2 := intern_sound hs1 t2
    have e2 := intern_extends (rs.intern t1).1 t2
    have e3 := intern_extends ((rs.intern t1).1.intern t2).1 t3
    have e4 := internTriple_extends (((rs.intern t1).1.intern t2).1.intern t3).1
      ⟨(rs.intern t1).2, ((rs.intern t1).1.intern t2).2,
        (((rs.intern t1).1.intern t2).1.intern t3).2⟩
    simp only [Term.parts, mem_cons, List.mem_append] at hmem
    rcases hmem with rfl | (hmem | hmem) | hmem
    · exact ⟨_, intern_denotes hs hn⟩
    · obtain ⟨h, u, d, hu⟩ := ih1 hs hmem
      exact ⟨h, u, d.mono (e2.trans (e3.trans e4)), hu⟩
    · obtain ⟨h, u, d, hu⟩ := ih2 hs1 hmem
      exact ⟨h, u, d.mono (e3.trans e4), hu⟩
    · obtain ⟨h, u, d, hu⟩ := ih3 hs2 hmem
      exact ⟨h, u, d.mono e4, hu⟩

/-! ### Knowing a Term -/

theorem known_atom_iff (hd : Distinct rs) (hs : Sound rs) {v : AtomValue} :
    rs.known (.atom v) = some h ↔ ∃ u, Denotes rs h u ∧ u.same (.atom v) = true := by
  simp only [known, Option.map_eq_some_iff]
  constructor
  · rintro ⟨p, hf, rfl⟩
    obtain ⟨row, hr, hsa⟩ := findAtom_some hf
    obtain ⟨w, rfl⟩ := hs.atoms row (mem_of_getElem? hr)
    exact ⟨_, .atom hr, by rwa [atomRow_same] at hsa⟩
  · rintro ⟨u, d, hu⟩
    cases d with
    | triple => simp [Term.same] at hu
    | @atom p w row =>
      have hsa : (atomRow w).same (atomRow v) = true := by rw [atomRow_same]; exact hu
      cases hf : rs.findAtom (atomRow v) with
      | none =>
        rw [findAtom_none hf _ (mem_of_getElem? row)] at hsa
        simp at hsa
      | some q =>
        obtain ⟨row', hr', hs'⟩ := findAtom_some hf
        refine ⟨q, rfl, ?_⟩
        rw [pairwise_unique hd.atoms (fun _ _ => AtomRow.same_symm) hr' row
          (AtomRow.same_trans hs' (AtomRow.same_symm hsa))]

/-- **A Term is known by a handle exactly when the handle denotes an equal Term.** -/
theorem known_iff (hd : Distinct rs) (hs : Sound rs) :
    rs.known t = some h ↔ ∃ u, Denotes rs h u ∧ u.same t = true := by
  induction t generalizing h with
  | atom v => exact known_atom_iff hd hs
  | triple t1 t2 t3 ih1 ih2 ih3 =>
    constructor
    · intro hk
      simp only [known] at hk
      cases h1 : rs.known t1 with
      | none => simp [h1] at hk
      | some k1 =>
        cases h2 : rs.known t2 with
        | none => simp [h1, h2] at hk
        | some k2 =>
          cases h3 : rs.known t3 with
          | none => simp [h1, h2, h3] at hk
          | some k3 =>
            simp only [h1, h2, h3, Option.map_eq_some_iff] at hk
            obtain ⟨p, hf, rfl⟩ := hk
            obtain ⟨u1, d1, s1⟩ := ih1.mp h1
            obtain ⟨u2, d2, s2⟩ := ih2.mp h2
            obtain ⟨u3, d3, s3⟩ := ih3.mp h3
            refine ⟨_, .triple (findTriple_some hf) d1 d2 d3, ?_⟩
            simp only [Term.same, Bool.and_eq_true]
            exact ⟨⟨s1, s2⟩, s3⟩
    · rintro ⟨u, d, hu⟩
      cases d with
      | atom => simp [Term.same] at hu
      | @triple p row u1 u2 u3 at_row d1 d2 d3 =>
        simp only [Term.same, Bool.and_eq_true] at hu
        have h1 := ih1.mpr ⟨u1, d1, hu.1.1⟩
        have h2 := ih2.mpr ⟨u2, d2, hu.1.2⟩
        have h3 := ih3.mpr ⟨u3, d3, hu.2⟩
        simp only [known, h1, h2, h3, Option.map_eq_some_iff]
        cases hf : rs.findTriple row with
        | none =>
          have := findTriple_none hf _ (mem_of_getElem? at_row)
          simp at this
        | some q =>
          refine ⟨q, rfl, ?_⟩
          rw [pairwise_unique hd.triples
            (fun _ _ h => beq_iff_eq.mpr (beq_iff_eq.mp h).symm) (findTriple_some hf) at_row
            (by simp)]

/-! ### Interning again -/

theorem internAtom_again (hd : Distinct rs) (hs : Sound rs)
    {v v' : AtomValue}
    (d : Denotes (rs.internAtom (atomRow v)).1 (rs.internAtom (atomRow v)).2 (.atom v')) :
    rs.internAtom (atomRow v') = rs.internAtom (atomRow v) := by
  cases hf : rs.findAtom (atomRow v) with
  | none =>
    have hl : Denotes (rs.internAtom (atomRow v)).1 (rs.internAtom (atomRow v)).2 (.atom v) := by
      unfold internAtom
      rw [hf]
      exact .atom (by simp)
    have heq := d.unique hl
    injection heq with heq
    rw [heq]
  | some p =>
    obtain ⟨row, hr, hsa⟩ := findAtom_some hf
    obtain ⟨w, rfl⟩ := hs.atoms row (mem_of_getElem? hr)
    have hw : Denotes (rs.internAtom (atomRow v)).1 (rs.internAtom (atomRow v)).2 (.atom w) := by
      unfold internAtom
      rw [hf]
      exact .atom hr
    have heq := d.unique hw
    injection heq with heq
    subst heq
    -- The row found equals itself, since it equals something; so it is found again.
    have hse : (atomRow v').same (atomRow v') = true :=
      AtomRow.same_trans hsa (AtomRow.same_symm hsa)
    have hf' : rs.findAtom (atomRow v') = some p := by
      cases hg : rs.findAtom (atomRow v') with
      | none =>
        have := findAtom_none hg _ (mem_of_getElem? hr)
        rw [hse] at this
        simp at this
      | some q =>
        obtain ⟨row', hr', hs'⟩ := findAtom_some hg
        rw [pairwise_unique hd.atoms (fun _ _ => AtomRow.same_symm) hr' hr hs']
    unfold internAtom
    rw [hf, hf']

/-- **Interning what a fresh handle denotes does the same thing again**: from the rows before,
    the denoted Term leads to the same rows and the same handle. -/
theorem intern_again (hd : Distinct rs) (hs : Sound rs) {t' : Term}
    (d : Denotes (rs.intern t).1 (rs.intern t).2 t') : rs.intern t' = rs.intern t := by
  induction t generalizing rs t' with
  | atom v =>
    obtain ⟨v', -, dv⟩ := internAtom_denotes hs v
    have heq := Denotes.unique d dv
    subst heq
    exact internAtom_again hd hs dv
  | triple t1 t2 t3 ih1 ih2 ih3 =>
    have hd1 := intern_distinct hd t1
    have hs1 := intern_sound hs t1
    have hd2 := intern_distinct hd1 t2
    have hs2 := intern_sound hs1 t2
    have hs3 := intern_sound hs2 t3
    have e2 := intern_extends (rs.intern t1).1 t2
    have e3 := intern_extends ((rs.intern t1).1.intern t2).1 t3
    obtain ⟨u1, d1⟩ := (intern_valid rs t1).denotes hs1
    obtain ⟨u2, d2⟩ := (intern_valid (rs.intern t1).1 t2).denotes hs2
    obtain ⟨u3, d3⟩ := (intern_valid ((rs.intern t1).1.intern t2).1 t3).denotes hs3
    have hden := internTriple_denotes (r := ⟨(rs.intern t1).2, ((rs.intern t1).1.intern t2).2,
        (((rs.intern t1).1.intern t2).1.intern t3).2⟩)
      ((d1.mono e2).mono e3) (d2.mono e3) d3
    have heq := Denotes.unique d hden
    subst heq
    have r1 := ih1 hd hs d1
    have r2 := ih2 hd1 hs1 d2
    have r3 := ih3 hd2 hs2 d3
    simp only [intern, r1, r2, r3]

end Rows

end Beagle.Store
