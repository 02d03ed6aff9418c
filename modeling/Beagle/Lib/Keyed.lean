/-
Maps and sets whose keys are compared by a test of their own.

A map is its list of entries and a set the list of its members, in the order they
were put there.  Both compare with a symmetric and transitive test that need not be
reflexive: a key that is not equal to itself is never found, and putting it again
adds another entry.
-/
import Mathlib

namespace Beagle.Lib

/-- A symmetric and transitive equality test. -/
structure Likeness (κ : Type) where
  same : κ → κ → Bool
  symm : ∀ a b, same a b = true → same b a = true
  trans : ∀ a b c, same a b = true → same b c = true → same a c = true

theorem beq_turned {κ : Type} [DecidableEq κ] (a b : κ) (h : (a == b) = true) : (b == a) = true :=
  beq_iff_eq.mpr (beq_iff_eq.mp h).symm

theorem beq_joined {κ : Type} [DecidableEq κ] (a b c : κ) (hab : (a == b) = true)
    (hbc : (b == c) = true) : (a == c) = true :=
  beq_iff_eq.mpr ((beq_iff_eq.mp hab).trans (beq_iff_eq.mp hbc))

/-- Equality as the test. -/
def Likeness.ofEq (κ : Type) [DecidableEq κ] : Likeness κ where
  same a b := a == b
  symm := beq_turned
  trans := beq_joined

@[simp] theorem Likeness.ofEq_same {κ : Type} [DecidableEq κ] (a b : κ) :
    (Likeness.ofEq κ).same a b = (a == b) := rfl

namespace Likeness

variable {κ : Type} (L : Likeness κ)

theorem same_comm (a b : κ) : L.same a b = L.same b a := by
  by_cases h : L.same a b = true
  · rw [h, L.symm a b h]
  · by_cases h' : L.same b a = true
    · exact absurd (L.symm b a h') h
    · rw [Bool.not_eq_true] at h h'
      rw [h, h']

theorem same_congr {a b : κ} (h : L.same a b = true) (c : κ) : L.same a c = L.same b c := by
  by_cases hb : L.same b c = true
  · rw [hb]
    exact L.trans a b c h hb
  · by_cases ha : L.same a c = true
    · exact absurd (L.trans b a c (L.symm a b h) ha) hb
    · rw [Bool.not_eq_true] at ha hb
      rw [ha, hb]

/-! ### Sets -/

/-- Is there a member equal to `x`? -/
def mem (xs : List κ) (x : κ) : Bool := xs.any fun y => L.same y x

/-- Put `x` unless an equal member is there. -/
def conj (xs : List κ) (x : κ) : List κ := if L.mem xs x then xs else xs ++ [x]

/-- Put all of a list. -/
def into (xs ys : List κ) : List κ := ys.foldl L.conj xs

variable {xs : List κ} {x y : κ}

theorem mem_iff : L.mem xs x = true ↔ ∃ y ∈ xs, L.same y x = true := by
  simp [mem]

@[simp] theorem mem_nil (x : κ) : L.mem [] x = false := rfl

theorem mem_append (xs ys : List κ) (x : κ) : L.mem (xs ++ ys) x = (L.mem xs x || L.mem ys x) := by
  simp [mem]

theorem mem_congr (xs : List κ) (h : L.same x y = true) : L.mem xs x = L.mem xs y := by
  unfold mem
  congr 1
  funext z
  rw [L.same_comm z x, L.same_comm z y]
  exact L.same_congr h z

theorem mem_conj (xs : List κ) (x y : κ) : L.mem (L.conj xs x) y = (L.mem xs y || L.same x y) := by
  unfold conj
  by_cases h : L.mem xs x = true
  · rw [if_pos h]
    by_cases hxy : L.same x y = true
    · rw [← L.mem_congr xs hxy, h, hxy]
      rfl
    · rw [Bool.not_eq_true] at hxy
      rw [hxy, Bool.or_false]
  · rw [if_neg h, mem_append]
    simp [mem]

theorem mem_into (xs ys : List κ) (x : κ) : L.mem (L.into xs ys) x = (L.mem xs x || L.mem ys x) := by
  induction ys generalizing xs with
  | nil => simp [into]
  | cons y ys ih =>
    have hs : L.into xs (y :: ys) = L.into (L.conj xs y) ys := rfl
    rw [hs, ih, mem_conj, Bool.or_assoc]
    rfl

/-- The members are among the old ones and the new ones. -/
theorem of_mem_conj (h : y ∈ L.conj xs x) : y ∈ xs ∨ y = x := by
  unfold conj at h
  by_cases hm : L.mem xs x = true
  · rw [if_pos hm] at h
    exact Or.inl h
  · rw [if_neg hm] at h
    simpa using h

theorem of_mem_into {ys : List κ} (h : y ∈ L.into xs ys) : y ∈ xs ∨ y ∈ ys := by
  induction ys generalizing xs with
  | nil => exact Or.inl h
  | cons z ys ih =>
    rcases @ih (L.conj xs z) h with hx | hy
    · rcases L.of_mem_conj hx with hx | rfl
      · exact Or.inl hx
      · exact Or.inr (by simp)
    · exact Or.inr (by simp [hy])

/-! ### Maps -/

variable {β : Type}

/-- The value at the first entry whose key is equal to `k`. -/
def get (m : List (κ × β)) (k : κ) : Option β := (m.find? fun entry => L.same entry.1 k).map (·.2)

/-- Replace the value at `k`, or add an entry at the end. -/
def set : List (κ × β) → κ → β → List (κ × β)
  | [], k, v => [(k, v)]
  | (k', v') :: rest, k, v => if L.same k' k then (k', v) :: rest else (k', v') :: set rest k v

@[simp] theorem get_nil (k : κ) : L.get ([] : List (κ × β)) k = none := rfl

theorem get_cons (k' : κ) (v' : β) (r : List (κ × β)) (k : κ) :
    L.get ((k', v') :: r) k = if L.same k' k then some v' else L.get r k := by
  unfold get
  rw [List.find?_cons]
  by_cases h : L.same k' k = true <;> simp [h]

/-- A key equal to `k` finds what was put there, another key what it found before. -/
theorem get_set (m : List (κ × β)) (k : κ) (v : β) (k' : κ) :
    L.get (L.set m k v) k' = if L.same k k' then some v else L.get m k' := by
  induction m with
  | nil => rw [set, get_cons]
  | cons e r ih =>
    obtain ⟨key, va⟩ := e
    unfold set
    by_cases hkey : L.same key k = true
    · rw [if_pos hkey, get_cons, get_cons, L.same_congr hkey k']
      by_cases h : L.same k k' = true <;> simp [h]
    · rw [if_neg hkey, get_cons, get_cons, ih]
      by_cases hk : L.same key k' = true
      · have hne : L.same k k' = false := by
          by_cases h : L.same k k' = true
          · exact absurd (L.trans key k' k hk (L.symm k k' h)) hkey
          · simpa using h
        simp [hk, hne]
      · simp [hk]

variable {k : κ}

theorem get_congr (m : List (κ × β)) {k' : κ} (h : L.same k k' = true) :
    L.get m k = L.get m k' := by
  induction m with
  | nil => rfl
  | cons e r ih =>
    obtain ⟨key, va⟩ := e
    rw [get_cons, get_cons, ih, L.same_comm key k, L.same_comm key k', L.same_congr h key]

variable {m : List (κ × β)} {v : β}

theorem exists_of_get (h : L.get m k = some v) : ∃ e ∈ m, e.2 = v := by
  unfold get at h
  cases hf : m.find? fun e => L.same e.1 k with
  | none =>
    rw [hf] at h
    simp at h
  | some e =>
    rw [hf] at h
    exact ⟨e, List.mem_of_find?_eq_some hf, by simpa using h⟩

/-- What some value has, some value has after a value that keeps it is put. -/
theorem exists_mem_set {Q : β → Prop} (hk : ∀ old, L.get m k = some old → Q old → Q v) :
    (∃ e ∈ L.set m k v, Q e.2) ↔ Q v ∨ ∃ e ∈ m, Q e.2 := by
  induction m with
  | nil => simp [set]
  | cons e r ih =>
    obtain ⟨key, va⟩ := e
    unfold set
    by_cases h : L.same key k = true
    · rw [if_pos h]
      have hold : Q va → Q v := hk va (by rw [get_cons, if_pos h])
      simp only [List.mem_cons, exists_eq_or_imp]
      constructor
      · rintro (hv | hrest)
        · exact Or.inl hv
        · exact Or.inr (Or.inr hrest)
      · rintro (hv | hval | hrest)
        · exact Or.inl hv
        · exact Or.inl (hold hval)
        · exact Or.inr hrest
    · rw [if_neg h]
      have hrest := ih fun old hget => hk old (by rw [get_cons, if_neg h, hget])
      simp only [List.mem_cons, exists_eq_or_imp, hrest]
      exact or_left_comm

end Likeness

end Beagle.Lib
