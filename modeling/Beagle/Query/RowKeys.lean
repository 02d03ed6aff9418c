/-
Row keys are faithful.

A key writes each Term with a tag and its parts with their lengths, so no two Terms
share a key and no two rows do, provided different doubles are printed differently.
Ordering rows by their keys therefore loses none of them.
-/
import Beagle.Lib.Digits
import Beagle.Query.Alike

namespace Beagle.Query

open Beagle.Lib Beagle.Store List

/-- The text after a tag: a length, a colon and that many bytes. -/
theorem lengthKey_eq (tag v : String) :
    lengthKey tag v = tag ++ (toString v.utf8ByteSize ++ ":" ++ v) := by
  simp [lengthKey, String.append_assoc]

/-- A value written with its length is read off the front. -/
theorem lengthKey_append_inj {tag a b x y : String} (h : lengthKey tag a ++ x = lengthKey tag b ++ y) :
    a = b ∧ x = y := by
  rw [lengthKey_eq, lengthKey_eq, @String.append_assoc tag, @String.append_assoc tag,
    String.append_right_inj] at h
  exact Digits.framed_inj h

theorem lengthKey_inj {tag a b : String} (h : lengthKey tag a = lengthKey tag b) : a = b := by
  refine (@lengthKey_append_inj tag a b "" "" ?_).1
  rw [h]

section

variable {sf : Float64 → String}

/-- The first character of a key names the kind of the Term. -/
def keyTag : Term → Char
  | .atom (.string _) => 's'
  | .atom (.int _) => 'i'
  | .atom (.float _) => 'f'
  | .atom (.bool _) => 'b'
  | .atom (.keyword _) => 'k'
  | .atom (.instant _) => 'm'
  | .triple _ _ _ => 't'

theorem termKey_head (t : Term) : (termKey sf t).toList.head? = some (keyTag t) := by
  have hh : ∀ (tag r : String) (c : Char), tag.toList = [c] → (tag ++ r).toList.head? = some c := by
    intro tag r c htag
    rw [String.toList_append, htag]
    rfl
  cases t with
  | atom v =>
    cases v with
    | string v =>
      unfold termKey
      rw [lengthKey_eq]
      exact hh "s" _ 's' rfl
    | int v =>
      unfold termKey
      rw [String.append_assoc]
      exact hh "i" _ 'i' rfl
    | float v =>
      unfold termKey
      rw [String.append_assoc]
      exact hh "f" _ 'f' rfl
    | bool v =>
      cases v
      · show ("b0;").toList.head? = some 'b'
        decide
      · show ("b1;").toList.head? = some 'b'
        decide
    | keyword v =>
      unfold termKey
      rw [lengthKey_eq]
      exact hh "k" _ 'k' rfl
    | instant v =>
      unfold termKey
      rw [String.append_assoc, String.append_assoc, String.append_assoc]
      exact hh "m" _ 'm' rfl
  | triple t1 t2 t3 =>
    unfold termKey
    rw [lengthKey_eq, String.append_assoc, String.append_assoc]
    exact hh "t" _ 't' rfl

theorem int64_toInt_injective {a b : Int64} (h : a.toInt = b.toInt) : a = b :=
  Int64.toInt_inj.mp h

/-- The doubles of a Term. -/
def Term.floats : Term → List Float64
  | .atom (.float value) => [value]
  | .atom _ => []
  | .triple t1 t2 t3 => floats t1 ++ floats t2 ++ floats t3

/-- Doubles of the two Terms that are printed alike are the same. -/
def PrintedApart (showFloat : Float64 → String) (a b : Term) : Prop :=
  ∀ f ∈ Term.floats a, ∀ g ∈ Term.floats b, showFloat f = showFloat g → f = g

/-- **A key tells its Term**, as far as doubles are printed apart. -/
theorem termKey_faithful : ∀ {a b : Term}, PrintedApart sf a b →
    termKey sf a = termKey sf b → a = b := by
  intro a
  induction a with
  | atom v =>
    intro b ha h
    have htag : keyTag (.atom v) = keyTag b := by
      have := @termKey_head sf (.atom v)
      rw [h, termKey_head] at this
      simpa using this.symm
    cases b with
    | triple t1 t2 t3 => cases v <;> simp [keyTag] at htag
    | atom o =>
      cases v <;> cases o <;> first
        | (simp [keyTag] at htag; done)
        | skip
      · rw [@lengthKey_inj "s" _ _ h]
      · rename_i m n
        have hnum : toString m.toInt = toString n.toInt := by
          have h' : "i" ++ toString m.toInt ++ ";" = "i" ++ toString n.toInt ++ ";" := h
          rw [String.append_left_inj, String.append_right_inj] at h'
          exact h'
        rw [int64_toInt_injective (Digits.toString_int_injective hnum)]
      · rename_i f g
        have hnum : sf f = sf g := by
          have h' : "f" ++ sf f ++ ";" = "f" ++ sf g ++ ";" := h
          rw [String.append_left_inj, String.append_right_inj] at h'
          exact h'
        rw [ha f (mem_singleton_self f) g (mem_singleton_self g) hnum]
      · rename_i p q
        cases p <;> cases q
        · rfl
        · exact absurd (show "b0;" = "b1;" from h) (by decide)
        · exact absurd (show "b1;" = "b0;" from h) (by decide)
        · rfl
      · rename_i k l
        have hs : ":" ++ k.spelling = ":" ++ l.spelling := @lengthKey_inj "k" _ _ h
        rw [String.append_right_inj] at hs
        cases k
        cases l
        cases hs
        rfl
      · rename_i p q
        have h' : "m" ++ toString p.epochSeconds.toInt ++ ":" ++ toString p.nanos ++ ";" =
            "m" ++ toString q.epochSeconds.toInt ++ ":" ++ toString q.nanos ++ ";" := h
        rw [String.append_left_inj] at h'
        have hcol : ∀ n : Int, ':' ∉ ("m" ++ toString n).toList := by
          intro n hmem
          rw [String.toList_append, List.mem_append] at hmem
          rcases hmem with hm | hm
          · simp at hm
          · exact Digits.colon_notMem_toString_int n hm
        obtain ⟨hse, hn⟩ := Digits.colon_inj (hcol _) (hcol _) h'
        rw [String.append_right_inj] at hse
        have h1 := int64_toInt_injective (Digits.toString_int_injective hse)
        have h2 := Digits.toString_nat_injective hn
        cases p
        cases q
        cases h1
        cases h2
        rfl
  | triple a1 a2 a3 ih1 ih2 ih3 =>
    intro b ha h
    have htag : keyTag (.triple a1 a2 a3) = keyTag b := by
      have := @termKey_head sf (.triple a1 a2 a3)
      rw [h, termKey_head] at this
      simpa using this.symm
    cases b with
    | atom o => cases o <;> simp [keyTag] at htag
    | triple b1 b2 b3 =>
      have h' : lengthKey "t" (termKey sf a1) ++ lengthKey "" (termKey sf a2) ++
          lengthKey "" (termKey sf a3) =
          lengthKey "t" (termKey sf b1) ++ lengthKey "" (termKey sf b2) ++
            lengthKey "" (termKey sf b3) := h
      rw [String.append_assoc, String.append_assoc] at h'
      obtain ⟨h1, hr⟩ := lengthKey_append_inj h'
      obtain ⟨h2, h3⟩ := lengthKey_append_inj hr
      have hfst : PrintedApart sf a1 b1 := fun f hf g hg =>
        ha f (by simp [Term.floats, hf]) g (by simp [Term.floats, hg])
      have hsnd : PrintedApart sf a2 b2 := fun f hf g hg =>
        ha f (by simp [Term.floats, hf]) g (by simp [Term.floats, hg])
      have ht : PrintedApart sf a3 b3 := fun f hf g hg =>
        ha f (by simp [Term.floats, hf]) g (by simp [Term.floats, hg])
      rw [ih1 hfst h1, ih2 hsnd h2, ih3 ht (lengthKey_inj h3)]

/-- **A key tells its row**, as far as doubles are printed apart. -/
theorem rowKey_faithful {a b : Tuple} (ha : ∀ s ∈ a, ∀ t ∈ b, PrintedApart sf s t)
    (h : rowKey sf a = rowKey sf b) : a = b := by
  have hf : ∀ (row : Tuple) (acc : String),
      row.foldl (fun acc v => acc ++ lengthKey "" (termKey sf v)) acc =
        acc ++ row.foldr (fun v r => lengthKey "" (termKey sf v) ++ r) "" := by
    intro row
    induction row with
    | nil => intro acc; simp
    | cons v row ih =>
      intro acc
      rw [foldl_cons, ih, foldr_cons, String.append_assoc]
  unfold rowKey at h
  rw [hf, hf, String.append_right_inj] at h
  have hemp : ∀ (t : Term) (r : String), lengthKey "" (termKey sf t) ++ r ≠ "" := by
    intro t r heq
    have hl := congrArg String.toList heq
    rw [lengthKey_eq] at hl
    simp [String.toList_append] at hl
  induction a generalizing b with
  | nil =>
    cases b with
    | nil => rfl
    | cons v r => exact absurd h.symm (hemp v _)
  | cons v r ih =>
    cases b with
    | nil => exact absurd h (hemp v _)
    | cons o os =>
      rw [foldr_cons, foldr_cons] at h
      obtain ⟨hkey, hre⟩ := lengthKey_append_inj h
      have hr : ∀ s ∈ r, ∀ t ∈ os, PrintedApart sf s t := fun s hs t ht =>
        ha s (mem_cons_of_mem _ hs) t (mem_cons_of_mem _ ht)
      rw [termKey_faithful (ha v (by simp) o (by simp)) hkey, ih hr hre]

/-- A key finds the row it was computed from, where no other row has it. -/
theorem get_byKey {row : Tuple} (rs : List Tuple)
    (ht : ∀ o ∈ rs, rowKey sf o = rowKey sf row → o = row) :
    ∀ acc : List (String × Tuple), (row ∈ rs ∨ nameLike.get acc (rowKey sf row) = some row) →
      nameLike.get (rs.foldl (fun acc row => nameLike.set acc (rowKey sf row) row) acc)
        (rowKey sf row) = some row := by
  induction rs with
  | nil =>
    intro acc h
    rcases h with h | h
    · simp at h
    · exact h
  | cons first r ih =>
    intro acc h
    rw [foldl_cons]
    refine ih (fun o ho => ht o (mem_cons_of_mem _ ho)) _ ?_
    by_cases hkey : rowKey sf first = rowKey sf row
    · right
      rw [ht first mem_cons_self hkey, nameLike.get_set]
      simp [nameLike]
    · have hne : row ≠ first := fun heq => hkey (by rw [heq])
      rcases h with h | h
      · rcases mem_cons.mp h with heq | hmem
        · exact absurd heq hne
        · exact Or.inl hmem
      · right
        rw [nameLike.get_set]
        simp [nameLike, hkey]
        simpa [nameLike] using h

/-- **Rows that their keys tell apart are kept by ordering them.** -/
theorem orderRowVector_perm_self {rows : List Tuple} (ht : ∀ row ∈ rows, ∀ o ∈ rows,
      rowKey sf o = rowKey sf row → o = row) :
    (orderRowVector sf rows).Perm rows := by
  unfold orderRowVector
  refine ((perm_insertionSort _ _).map _).trans ?_
  rw [map_map]
  have hs : rows.map ((fun key => (nameLike.get (rows.foldl (fun acc row =>
      nameLike.set acc (rowKey sf row) row) []) key).getD []) ∘ rowKey sf) = rows := by
    refine (map_congr_left fun row hrow => ?_).trans (map_id rows)
    show (nameLike.get _ (rowKey sf row)).getD [] = row
    rw [get_byKey rows (ht row hrow) [] (Or.inl hrow), Option.getD_some]
  rw [hs]

section

variable (hs : Function.Injective sf)
include hs

theorem rowKey_injective {a b : Tuple} (h : rowKey sf a = rowKey sf b) : a = b :=
  rowKey_faithful (fun _ _ _ _ _ _ _ _ hp => hs hp) h

/-- **Ordering rows by their keys keeps each of them.** -/
theorem mem_orderRowVector {rows : List Tuple} {row : Tuple} :
    row ∈ orderRowVector sf rows ↔ row ∈ rows :=
  (orderRowVector_perm_self fun _ _ _ _ h => rowKey_injective hs h).mem_iff

/-- **Ordering rows by their keys forgets the order they came in.** -/
theorem orderRowVector_perm {rows os : List Tuple} (hp : os.Perm rows) :
    orderRowVector sf os = orderRowVector sf rows := by
  have hsrt : ∀ ks : List String, (ks.insertionSort (· ≤ ·)).Pairwise (· ≤ ·) :=
    fun ks => pairwise_insertionSort (· ≤ ·) ks
  have hk : (os.map (rowKey sf)).insertionSort (· ≤ ·) =
      (rows.map (rowKey sf)).insertionSort (· ≤ ·) := by
    refine Perm.eq_of_pairwise (fun a b _ _ hab hba => String.le_antisymm hab hba)
      (hsrt _) (hsrt _) ?_
    exact ((perm_insertionSort _ _).trans (hp.map _)).trans (perm_insertionSort _ _).symm
  unfold orderRowVector
  rw [hk]
  refine map_congr_left fun key hkey => ?_
  obtain ⟨row, hrow, rfl⟩ := mem_map.mp ((mem_insertionSort _).mp hkey)
  have ht : ∀ rows : List Tuple, ∀ o ∈ rows, rowKey sf o = rowKey sf row → o = row :=
    fun _ _ _ h => rowKey_injective hs h
  rw [get_byKey os (ht os) [] (Or.inl (hp.mem_iff.mpr hrow)),
    get_byKey rows (ht rows) [] (Or.inl hrow)]

end

end

end Beagle.Query
