/-
Strings that are taken apart again.

A number in decimal holds digits only, and different numbers are written differently,
so a number that stands before a colon can be read off the front of a string; and a
string whose length in bytes is known can be cut off the front of another.
-/
import Mathlib

namespace Beagle.Lib.Digits

open List

/-! ### Decimal numbers -/

variable {n : Nat} {a b x y : String} {m : Nat} {c : Char}

theorem digitChar_injective (hm : m < 10) (hn : n < 10) (h : m.digitChar = n.digitChar) :
    m = n := by
  have hm' := Nat.toNat_digitChar_of_lt_ten hm
  have hn' := Nat.toNat_digitChar_of_lt_ten hn
  rw [h] at hm'
  omega

theorem toDigits_ne_nil (n : Nat) : Nat.toDigits 10 n ≠ [] := by
  by_cases h : n < 10
  · rw [Nat.toDigits_of_lt_base h]
    simp
  · rw [Nat.toDigits_of_base_le (by omega) (by omega)]
    simp

theorem toDigits_injective : ∀ {m n : Nat}, Nat.toDigits 10 m = Nat.toDigits 10 n → m = n := by
  intro m
  induction m using Nat.strongRecOn with
  | _ m ih =>
    intro n h
    -- both end in their last digit, and what stands before it is the quotient
    have hsp : ∀ k : Nat, 10 ≤ k →
        Nat.toDigits 10 k = Nat.toDigits 10 (k / 10) ++ [(k % 10).digitChar] :=
      fun k hk => Nat.toDigits_of_base_le (by omega) hk
    have hone : ∀ k : Nat, k < 10 → Nat.toDigits 10 k = [] ++ [k.digitChar] :=
      fun k hk => Nat.toDigits_of_lt_base hk
    by_cases hm : m < 10
    · by_cases hn : n < 10
      · rw [hone m hm, hone n hn] at h
        exact digitChar_injective hm hn (by simpa using h)
      · rw [hone m hm, hsp n (by omega)] at h
        have hnil := (append_inj' h rfl).1
        exact absurd hnil.symm (toDigits_ne_nil _)
    · by_cases hn : n < 10
      · rw [hsp m (by omega), hone n hn] at h
        exact absurd (append_inj' h rfl).1 (toDigits_ne_nil _)
      · rw [hsp m (by omega), hsp n (by omega)] at h
        obtain ⟨hqu, hl⟩ := append_inj' h rfl
        have hq := ih (m / 10) (by omega) hqu
        have hr := digitChar_injective (Nat.mod_lt m (by omega)) (Nat.mod_lt n (by omega))
          (by simpa using hl)
        omega

theorem toString_nat_injective (h : toString m = toString n) : m = n := by
  have hl : (Nat.repr m).toList = (Nat.repr n).toList := congrArg String.toList h
  rw [Nat.toList_repr, Nat.toList_repr] at hl
  exact toDigits_injective hl

/-- Only digits occur in a number. -/
theorem isDigit_of_mem_toString (h : c ∈ (toString n).toList) : c.isDigit = true := by
  have hl : c ∈ (Nat.repr n).toList := h
  rw [Nat.toList_repr] at hl
  exact Nat.isDigit_of_mem_toDigits (by omega) (by omega) hl

theorem toString_int_injective {m n : Int} (h : toString m = toString n) : m = n := by
  have hmin : ∀ (a b : Nat), Nat.repr a ≠ "-" ++ Nat.repr b := by
    intro a b heq
    have hmem : '-' ∈ (toString a).toList := by
      have hl := congrArg String.toList heq
      rw [String.toList_append] at hl
      show '-' ∈ (Nat.repr a).toList
      rw [hl]
      simp
    exact absurd (isDigit_of_mem_toString hmem) (by decide)
  cases m with
  | ofNat a =>
    cases n with
    | ofNat b => exact congrArg Int.ofNat (toString_nat_injective h)
    | negSucc b => exact absurd h (hmin a (b + 1))
  | negSucc a =>
    cases n with
    | ofNat b => exact absurd (Eq.symm h) (hmin b (a + 1))
    | negSucc b =>
      have hab : Nat.repr (a + 1) = Nat.repr (b + 1) := (String.append_right_inj "-").mp h
      have := toString_nat_injective hab
      rw [show a = b by omega]

/-- Only digits and a sign occur in an integer. -/
theorem notMem_toString_int (n : Int) (hdig : c.isDigit = false) (hs : c ≠ '-') :
    c ∉ (toString n).toList := by
  have hnat : ∀ k : Nat, c ∉ (toString k).toList := by
    intro k hmem
    rw [isDigit_of_mem_toString hmem] at hdig
    simp at hdig
  intro hmem
  cases n with
  | ofNat a => exact hnat a hmem
  | negSucc a =>
    have hmem' : c ∈ ("-" ++ Nat.repr (a + 1)).toList := hmem
    rw [String.toList_append, List.mem_append] at hmem'
    rcases hmem' with h | h
    · exact hs (mem_singleton.mp h)
    · exact hnat (a + 1) h

theorem colon_notMem_toString_int (n : Int) : ':' ∉ (toString n).toList :=
  notMem_toString_int n (by decide) (by decide)

/-! ### Cutting strings -/

/-- Two strings without a mark that stand before one are equal. -/
theorem mark_split {mark : Char} (ha : mark ∉ a.toList) (hb : mark ∉ b.toList)
    (h : a ++ String.singleton mark ++ x = b ++ String.singleton mark ++ y) : a = b ∧ x = y := by
  have hl : a.toList ++ mark :: x.toList = b.toList ++ mark :: y.toList := by
    have := congrArg String.toList h
    simpa [String.toList_append] using this
  have hsp : ∀ {p q : List Char} {u v : List Char}, mark ∉ p → mark ∉ q →
      p ++ mark :: u = q ++ mark :: v → p = q ∧ u = v := by
    intro p
    induction p with
    | nil =>
      intro q u v _ hq heq
      cases q with
      | nil => exact ⟨rfl, by simpa using heq⟩
      | cons c q =>
        have hc : mark = c := by simpa using (List.cons.inj heq).1
        subst hc
        exact absurd mem_cons_self hq
    | cons c p ih =>
      intro q u v hp hq heq
      cases q with
      | nil =>
        have hc : c = mark := by simpa using (List.cons.inj heq).1
        subst hc
        exact absurd mem_cons_self hp
      | cons d q =>
        obtain ⟨hcd, hr⟩ := List.cons.inj heq
        have hp' : mark ∉ p := fun hmem => hp (mem_cons_of_mem c hmem)
        have hq' : mark ∉ q := fun hmem => hq (mem_cons_of_mem d hmem)
        obtain ⟨hpq, huv⟩ := ih hp' hq' hr
        exact ⟨by rw [hcd, hpq], huv⟩
  obtain ⟨hab, hxy⟩ := hsp ha hb hl
  exact ⟨String.toList_inj.mp hab, String.toList_inj.mp hxy⟩

/-- Two strings without a colon that stand before one are equal. -/
theorem colon_inj (ha : ':' ∉ a.toList) (hb : ':' ∉ b.toList) (h : a ++ ":" ++ x = b ++ ":" ++ y) :
    a = b ∧ x = y := mark_split ha hb h

/-- Strings of one length in bytes at the front of equal strings are equal. -/
theorem append_inj_of_size (hs : a.utf8ByteSize = b.utf8ByteSize) (h : a ++ x = b ++ y) :
    a = b ∧ x = y := by
  have hbs : a.toByteArray.data.toList ++ x.toByteArray.data.toList =
      b.toByteArray.data.toList ++ y.toByteArray.data.toList := by
    have heq := congrArg (fun s : String => s.toByteArray.data.toList) h
    simpa [String.toByteArray_append, ByteArray.data_append] using heq
  have hlen : a.toByteArray.data.toList.length = b.toByteArray.data.toList.length := by
    simpa [String.size_toByteArray] using hs
  obtain ⟨hab, hxy⟩ := append_inj hbs hlen
  have hb : ∀ {s t : String}, s.toByteArray.data.toList = t.toByteArray.data.toList → s = t := by
    intro s t hst
    refine String.toByteArray_inj.mp (ByteArray.ext ?_)
    exact Array.toList_inj.mp hst
  exact ⟨hb hab, hb hxy⟩

/-- A string behind its length in bytes is cut off the front of another. -/
theorem framed_inj
    (h : toString a.utf8ByteSize ++ ":" ++ a ++ x = toString b.utf8ByteSize ++ ":" ++ b ++ y) :
    a = b ∧ x = y := by
  have hcol : ∀ n : Nat, ':' ∉ (toString n).toList :=
    fun n hmem => absurd (isDigit_of_mem_toString hmem) (by decide)
  rw [@String.append_assoc _ a x, @String.append_assoc _ b y] at h
  obtain ⟨hs, hr⟩ := colon_inj (hcol _) (hcol _) h
  exact append_inj_of_size (toString_nat_injective hs) hr

end Beagle.Lib.Digits
