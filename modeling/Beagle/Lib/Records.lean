/-
Texts as code units of 16 bits.

A character below 65536 is one unit, any other a pair of surrogates; no character is a
surrogate, so the units of a text tell the text.

Tagged records of texts behind their lengths.

A record is its tag and its fields, each behind the number of its units and a colon.  A record
that is a whole text tells its tag and its fields, whatever the fields are; a set of texts is
the record of the texts in order, and tells them up to their order.
-/
import Beagle.Lib.Digits
import Beagle.Lib.KeySort

namespace Beagle.Lib.Utf16

/-- The units of a character. -/
def encodeChar (c : Char) : List Nat :=
  if c.toNat < 65536 then [c.toNat]
  else [55296 + (c.toNat - 65536) / 1024, 56320 + (c.toNat - 65536) % 1024]

def encode (s : String) : List Nat := s.toList.flatMap encodeChar

theorem char_range (c : Char) : c.toNat < 55296 ∨ 57343 < c.toNat ∧ c.toNat < 1114112 := c.valid

theorem encode_append (s t : String) : encode (s ++ t) = encode s ++ encode t := by
  unfold encode
  rw [String.toList_append, List.flatMap_append]

/-- Characters at the front of equal units are equal. -/
theorem encodeChar_front {c d : Char} {r os : List Nat}
    (h : encodeChar c ++ r = encodeChar d ++ os) : c = d ∧ r = os := by
  have hc := char_range c
  have hd := char_range d
  suffices hco : c.toNat = d.toNat by
    have hs : c = d := Char.toNat_inj.mp hco
    subst hs
    exact ⟨rfl, List.append_cancel_left h⟩
  unfold encodeChar at h
  by_cases hlow : c.toNat < 65536
  · rw [if_pos hlow] at h
    by_cases hlow' : d.toNat < 65536
    · rw [if_pos hlow'] at h
      exact (List.cons.inj h).1
    · rw [if_neg hlow'] at h
      -- a character of one unit is no surrogate
      have hfst : c.toNat = 55296 + (d.toNat - 65536) / 1024 := (List.cons.inj h).1
      omega
  · rw [if_neg hlow] at h
    by_cases hlow' : d.toNat < 65536
    · rw [if_pos hlow'] at h
      have hfst : 55296 + (c.toNat - 65536) / 1024 = d.toNat := (List.cons.inj h).1
      omega
    · rw [if_neg hlow'] at h
      obtain ⟨hfst, hm⟩ := List.cons.inj h
      have hsnd := (List.cons.inj hm).1
      omega

theorem encodeChar_ne_nil (c : Char) : encodeChar c ≠ [] := by
  unfold encodeChar
  split
  · exact List.cons_ne_nil _ _
  · exact List.cons_ne_nil _ _

theorem flatMap_injective {cs ds : List Char} (h : cs.flatMap encodeChar = ds.flatMap encodeChar) :
    cs = ds := by
  induction cs generalizing ds with
  | nil =>
    cases ds with
    | nil => rfl
    | cons d ds =>
      rw [List.flatMap_nil, List.flatMap_cons, eq_comm, List.append_eq_nil_iff] at h
      exact absurd h.1 (encodeChar_ne_nil d)
  | cons c cs ih =>
    cases ds with
    | nil =>
      rw [List.flatMap_nil, List.flatMap_cons, List.append_eq_nil_iff] at h
      exact absurd h.1 (encodeChar_ne_nil c)
    | cons d ds =>
      obtain ⟨rfl, hr⟩ := encodeChar_front h
      rw [ih hr]

theorem encode_injective {s t : String} (h : encode s = encode t) : s = t :=
  String.toList_injective (flatMap_injective h)

/-- Texts of as many units at the front of equal texts are equal. -/
theorem append_inj_of_length {a b x y : String} (hlen : (encode a).length = (encode b).length)
    (h : a ++ x = b ++ y) : a = b ∧ x = y := by
  have hu : encode a ++ encode x = encode b ++ encode y := by
    rw [← encode_append, ← encode_append, h]
  obtain ⟨ha, hx⟩ := List.append_inj hu hlen
  exact ⟨encode_injective ha, encode_injective hx⟩

end Beagle.Lib.Utf16

namespace Beagle.Lib.Records

open Beagle.Lib.Digits
open Beagle.Lib.KeySort

/-- The number of units of a text. -/
def count (text : String) : Nat := (Utf16.encode text).length

/-- A text behind its length. -/
def framed (text : String) : String := toString (count text) ++ ":" ++ text

def record (tag : String) (fields : List String) : String :=
  framed tag ++ ":" ++ String.join (fields.map framed)

/-- The texts in the order of their units. -/
def ordered (items : List String) : List String := sortBy Utf16.encode items

def set (tag : String) (items : List String) : String := record tag (ordered items)

theorem framed_inj {a b x y : String} (h : framed a ++ x = framed b ++ y) : a = b ∧ x = y := by
  have hcol : ∀ n : Nat, ':' ∉ (toString n).toList :=
    fun n hmem => absurd (isDigit_of_mem_toString hmem) (by decide)
  unfold framed at h
  rw [@String.append_assoc _ a x, @String.append_assoc _ b y] at h
  obtain ⟨hcnt, hr⟩ := colon_inj (hcol _) (hcol _) h
  exact Utf16.append_inj_of_length (toString_nat_injective hcnt) hr

theorem join_cons (t : String) (texts : List String) :
    String.join (t :: texts) = t ++ String.join texts := by
  refine String.toList_injective ?_
  rw [String.toList_append, String.toList_join, String.toList_join, List.flatMap_cons]

theorem framed_ne_empty (t r : String) : framed t ++ r ≠ "" := by
  intro h
  have hl := congrArg String.toList h
  unfold framed at hl
  rw [String.toList_append, String.toList_append, String.toList_append] at hl
  have hnil : ((toString (count t)).toList ++ ":".toList) ++ t.toList ++ r.toList = [] :=
    hl
  simp at hnil

variable {os : List String} {ta : String} {fs its : List String} {t' : String} {α : Type}

theorem fields_inj (h : String.join (fs.map framed) = String.join (os.map framed)) : fs = os := by
  induction fs generalizing os with
  | nil =>
    cases os with
    | nil => rfl
    | cons o os =>
      rw [List.map_cons, join_cons] at h
      exact absurd h.symm (framed_ne_empty o _)
  | cons f fs ih =>
    cases os with
    | nil =>
      rw [List.map_cons, join_cons] at h
      exact absurd h (framed_ne_empty f _)
    | cons o os =>
      rw [List.map_cons, List.map_cons, join_cons, join_cons] at h
      obtain ⟨rfl, hr⟩ := framed_inj h
      rw [ih hr]

/-- **A record tells its tag and its fields.** -/
theorem record_inj {fields' : List String} :
    record ta fs = record t' fields' ↔ ta = t' ∧ fs = fields' := by
  constructor
  · intro h
    unfold record at h
    rw [String.append_assoc, String.append_assoc] at h
    obtain ⟨rfl, hrest⟩ := framed_inj h
    have hjoin : String.join (fs.map framed) = String.join (fields'.map framed) :=
      (@Utf16.append_inj_of_length ":" ":" _ _ rfl hrest).2
    exact ⟨rfl, fields_inj hjoin⟩
  · rintro ⟨rfl, rfl⟩
    rfl

theorem ordered_inj : ordered its = ordered os ↔ its.Perm os := by
  constructor
  · intro h
    have hp : (ordered its).Perm its := sortBy_perm its
    rw [h] at hp
    exact hp.symm.trans (sortBy_perm os)
  · intro h
    have hk : (ordered its).map Utf16.encode = (ordered os).map Utf16.encode := by
      unfold ordered
      rw [map_sortBy, map_sortBy]
      exact sortBy_id_of_perm (h.map _)
    exact List.map_injective_iff.mpr (fun _ _ => Utf16.encode_injective) hk

/-- **A set tells its tag, and its texts up to their order.** -/
theorem set_inj : set ta its = set t' os ↔ ta = t' ∧ its.Perm os := by
  unfold set
  rw [record_inj, ordered_inj]

/-- The set of the texts of elements tells the elements up to their order and what their texts
leave open. -/
theorem set_map_inj {R : α → α → Prop} {t : α → String} (ht : ∀ a b, t a = t b ↔ R a b)
    {its os : List α} :
    set ta (its.map t) = set ta (os.map t) ↔ Reordered R its os := by
  rw [set_inj]
  constructor
  · rintro ⟨-, h⟩
    obtain ⟨m, hp, hall⟩ := reordered_of_perm_map h
    exact ⟨m, hp, hall.imp fun a b hab => (ht a b).mp hab⟩
  · exact fun h => ⟨rfl, perm_map_of_reordered (fun a b hab => (ht a b).mpr hab) h⟩

/-- Where texts tell their elements, a set tells the elements up to their order. -/
theorem set_map_perm {t : α → String} (ht : ∀ a b, t a = t b → a = b)
    {its os : List α} :
    set ta (its.map t) = set ta (os.map t) ↔ its.Perm os := by
  rw [set_inj]
  refine ⟨fun h => ?_, fun h => ⟨rfl, h.map t⟩⟩
  exact (List.map_perm_map_iff fun a b => ht a b).mp h.2

end Beagle.Lib.Records
