/-
Order keys and the order of children.

A slot predicate parses as the key it spells, and keys are ordered by path and then by
tie.  So when the slots of a node hold known children under known keys, sorting them
gives the children in the order of the keys, whatever order the table is walked in.

A written line reads as the fact it was written from.

Strings come first: every character is read off the front of its escape, so a string
is read off the front of its quoted form whatever follows.  A number is read up to the
blank or bracket behind it.  A line is the three of them in turn.
-/
import Beagle.Facts.Edn
import Beagle.Lib.Digits

namespace Beagle.Facts

open Beagle.Lib.Digits List

section

variable {ν : Type}

/-! ### Spelling -/

/-- The predicate of a key with one number for its path. -/
def slotText (path tie : Nat) : String := "f" ++ toString path ++ "~" ++ toString tie

theorem digits_toString (n : Nat) : digits (toString n).toList = some n := by
  have hrepr : (toString n).toList = Nat.toDigits 10 n := Nat.toList_repr
  have hall : (toString n).toList.all Char.isDigit = true := by
    rw [all_eq_true]
    intro c hc
    exact isDigit_of_mem_toString hc
  unfold digits
  rw [if_pos ⟨by rw [hrepr]; exact toDigits_ne_nil n, hall⟩, hrepr, Nat.ofDigitChars_ten_toDigits]

theorem splitOn_of_notMem {c : Char} {cs : List Char} (h : c ∉ cs) : cs.splitOn c = [cs] := by
  refine splitOnP_eq_singleton ?_
  intro x hx
  have hne : x ≠ c := fun heq => h (heq ▸ hx)
  simpa using hne

/-- **A slot predicate parses as its key.** -/
theorem parseOrderSlot_slotText (path tie : Nat) :
    parseOrderSlot (slotText path tie) = some ⟨[path], tie⟩ := by
  have hlist : (slotText path tie).toList =
      'f' :: ((toString path).toList ++ '~' :: (toString tie).toList) := by
    unfold slotText
    rw [String.toList_append, String.toList_append, String.toList_append]
    simp
  have hdig : ∀ c ∈ (toString path).toList, (c != '~') = true := by
    intro c hc
    by_cases hcase : c = '~'
    · subst hcase
      exact absurd (isDigit_of_mem_toString hc) (by decide)
    · simpa using hcase
  have htake : ((toString path).toList ++ '~' :: (toString tie).toList).takeWhile (· != '~') =
      (toString path).toList := by
    rw [takeWhile_append_of_pos hdig, takeWhile_cons_of_neg (by decide), append_nil]
  have hdrop : ((toString path).toList ++ '~' :: (toString tie).toList).dropWhile (· != '~') =
      '~' :: (toString tie).toList := by
    rw [dropWhile_append_of_pos hdig, dropWhile_cons_of_neg (by decide)]
  have hdot : '.' ∉ (toString path).toList := fun hmem =>
    absurd (isDigit_of_mem_toString hmem) (by decide)
  simp only [parseOrderSlot, hlist, hdrop, htake, splitOn_of_notMem hdot, mapM_cons,
    mapM_nil, digits_toString]
  rfl

/-! ### Order -/

theorem pathLess_iff (ot : Bool) : ∀ pa pb : List Nat,
    pathLess ot pa pb = true ↔ pa < pb ∨ (pa = pb ∧ ot = true)
  | [], [] => by simp [pathLess]
  | [], _ :: _ => by simp [pathLess]
  | _ :: _, [] => by simp [pathLess]
  | a :: pa, b :: pb => by
    unfold pathLess
    rw [cons_lt_cons_iff]
    by_cases hab : a < b
    · simp [hab]
    · by_cases hba : b < a
      · have hne : a ≠ b := by omega
        simp [hab, hba, hne]
      · have heq : a = b := by omega
        subst heq
        simp [pathLess_iff ot pa pb]

/-- The order of keys with equality: neither key sorts before the other's place. -/
def SlotKey.atMost (a b : SlotKey) : Prop := slotKeyLess b a = false

theorem SlotKey.atMost_iff (a b : SlotKey) :
    a.atMost b ↔ a.path < b.path ∨ (a.path = b.path ∧ a.tie ≤ b.tie) := by
  unfold SlotKey.atMost slotKeyLess
  rw [← Bool.not_eq_true, pathLess_iff]
  rcases lt_trichotomy a.path b.path with h | h | h
  · have hnot : ¬ b.path < a.path := not_lt_of_gt h
    have hne : b.path ≠ a.path := fun heq => absurd h (by rw [heq]; exact lt_irrefl _)
    simp [h, hnot, hne]
  · simp [h]
  · have hnot : ¬ a.path < b.path := not_lt_of_gt h
    have hne : a.path ≠ b.path := fun heq => absurd h (by rw [heq]; exact lt_irrefl _)
    simp [h, hnot, hne]

theorem SlotKey.atMost_trans {a b c : SlotKey} (hab : a.atMost b) (hbc : b.atMost c) :
    a.atMost c := by
  rw [SlotKey.atMost_iff] at hab hbc ⊢
  rcases hab with hab | ⟨hab, htab⟩
  · rcases hbc with hbc | ⟨hbc, -⟩
    · exact Or.inl (lt_trans hab hbc)
    · exact Or.inl (hbc ▸ hab)
  · rcases hbc with hbc | ⟨hbc, htbc⟩
    · exact Or.inl (hab ▸ hbc)
    · exact Or.inr ⟨hab.trans hbc, Nat.le_trans htab htbc⟩

theorem SlotKey.atMost_total (a b : SlotKey) : a.atMost b ∨ b.atMost a := by
  rw [SlotKey.atMost_iff, SlotKey.atMost_iff]
  rcases lt_trichotomy a.path b.path with h | h | h
  · exact Or.inl (Or.inl h)
  · rcases Nat.le_total a.tie b.tie with ht | ht
    · exact Or.inl (Or.inr ⟨h, ht⟩)
    · exact Or.inr (Or.inr ⟨h.symm, ht⟩)
  · exact Or.inr (Or.inl h)

/-! ### Children in order -/

/-- What a slot is sorted by and what it holds, when it is a slot. -/
def slotEntry (e : (_ : String) × Atom ν) : Option (SlotKey × Atom ν) :=
  (parseOrderSlot e.1).map fun key => (key, e.2)

/-- **The children of a node come in the order of their keys.**  `slots` is any list of the
node's slots with keys that grow. -/
theorem orderedSlotChildren_eq (w : HashOrder) (h : Node ν)
    (slots : List ((_ : String) × Atom ν)) (keyed : List (SlotKey × Atom ν))
    (hmem : ∀ e, e ∈ slots ↔ e ∈ h.entries ∧ isOrderSlot e.1 = true)
    (hk : slots.map slotEntry = keyed.map some)
    (hsrt : keyed.Pairwise fun a b => a.1.path < b.1.path) :
    orderedSlotChildren w h = keyed.map (·.2) := by
  let le : SlotKey × Atom ν → SlotKey × Atom ν → Prop := fun a b => slotKeyLess b.1 a.1 = false
  have htr : IsTrans (SlotKey × Atom ν) le := ⟨fun a b c => SlotKey.atMost_trans⟩
  have htot : Std.Total le := ⟨fun a b => SlotKey.atMost_total a.1 b.1⟩
  have hap : keyed.Pairwise fun a b => a.1.path ≠ b.1.path := by
    refine hsrt.imp ?_
    intro a b hab heq
    exact absurd hab (by rw [heq]; exact lt_irrefl _)
  have hnd : slots.Nodup := by
    refine Nodup.of_map slotEntry ?_
    rw [hk]
    refine Nodup.map (Option.some_injective _) (hap.imp ?_)
    intro a b hab heq
    exact hab (by rw [heq])
  have he : slots.filterMap slotEntry = keyed := by
    have hid := congrArg (filterMap id) hk
    rw [filterMap_map, filterMap_map] at hid
    exact hid.trans filterMap_some
  -- the slots of the table are the given ones in another order
  have hf : (h.entries.filter fun e => isOrderSlot e.1).Perm slots := by
    rw [perm_ext_iff_of_nodup (h.nodupKeys.nodup.filter _) hnd]
    intro e
    rw [mem_filter, hmem]
  have hw : ((w.order h.entries).filterMap slotEntry).Perm keyed := by
    have hd : h.entries.filterMap slotEntry =
        (h.entries.filter fun e => isOrderSlot e.1).filterMap slotEntry := by
      rw [filterMap_filter]
      congr 1
      funext e
      unfold slotEntry isOrderSlot
      cases parseOrderSlot e.1 with
      | none => rfl
      | some key => rfl
    have hp := (w.perm h.entries).filterMap slotEntry
    rw [hd] at hp
    rw [← he]
    exact hp.trans (hf.filterMap slotEntry)
  have hke : keyed.Pairwise le := by
    refine hsrt.imp ?_
    intro a b hab
    exact (SlotKey.atMost_iff a.1 b.1).mpr (Or.inl hab)
  have hs : ((w.order h.entries).filterMap slotEntry).insertionSort le = keyed := by
    refine Perm.eq_of_pairwise ?_ (pairwise_insertionSort le _) hke
      ((perm_insertionSort le _).trans hw)
    intro a b ha hb hab hba
    have ha' : a ∈ keyed := (((perm_insertionSort le _).trans hw).mem_iff).mp ha
    by_cases hne : a = b
    · exact hne
    · -- two entries of one place would have one path
      have hpa : a.1.path = b.1.path := by
        rw [show le a b ↔ _ from SlotKey.atMost_iff a.1 b.1] at hab
        rw [show le b a ↔ _ from SlotKey.atMost_iff b.1 a.1] at hba
        rcases hab with hab | ⟨hab, -⟩
        · rcases hba with hba | ⟨hba, -⟩
          · exact absurd (lt_trans hab hba) (lt_irrefl _)
          · exact hba.symm
        · exact hab
      have hsy : Std.Symm fun a b : SlotKey × Atom ν => a.1.path ≠ b.1.path :=
        ⟨fun _ _ h => Ne.symm h⟩
      exact absurd hpa (hap.forall ha' hb hne)
  show (((w.order h.entries).filterMap slotEntry).insertionSort le).map (·.2) = _
  rw [hs]

end

variable {ν : Type}

/-! ### Numbers -/

theorem readInteger_toString (z : Int) : readInteger (toString z).toList = some z := by
  cases z with
  | ofNat n =>
    show readInteger (toString n).toList = some (n : Int)
    have hdig : ∀ c ∈ (toString n).toList, c.isDigit = true := fun c => isDigit_of_mem_toString
    have hread := digits_toString n
    generalize (toString n).toList = cs at hdig hread
    unfold readInteger
    split
    · exact absurd (hdig '-' mem_cons_self) (by decide)
    · rw [hread]; rfl
  | negSucc n =>
    have hlist : (toString (Int.negSucc n)).toList = '-' :: (toString (n + 1)).toList := by
      show ("-" ++ Nat.repr (n + 1)).toList = _
      rw [String.toList_append]
      rfl
    rw [hlist]
    show (digits (toString (n + 1)).toList).map (fun n => -(n : Int)) = _
    rw [digits_toString]
    rfl

variable {c : Char} {z : Int} {n : Nat}

/-- What an integer is written with. -/
theorem mem_toString_int (h : c ∈ (toString z).toList) : c = '-' ∨ c.isDigit = true := by
  cases z with
  | ofNat n => exact Or.inr (isDigit_of_mem_toString (n := n) h)
  | negSucc n =>
    have hmem : c ∈ ("-" ++ Nat.repr (n + 1)).toList := h
    rw [String.toList_append, List.mem_append] at hmem
    rcases hmem with h | h
    · exact Or.inl (by simpa using h)
    · exact Or.inr (isDigit_of_mem_toString (n := n + 1) h)

theorem not_isDelimiter_of_mem (h : c ∈ (toString z).toList) : (!isDelimiter c) = true := by
  rcases mem_toString_int h with rfl | hdig
  · decide
  · by_cases hd : isDelimiter c = true
    · have hc : c = ' ' ∨ c = ']' := by simpa [isDelimiter] using hd
      rcases hc with rfl | rfl
      · simp at hdig
      · simp at hdig
    · simpa using hd

theorem toString_int_ne_nil (z : Int) : (toString z).toList ≠ [] := by
  intro hnil
  have hr := readInteger_toString z
  rw [hnil] at hr
  simp [readInteger, digits] at hr

/-- What does not open with a quote is an integer. -/
theorem readAtom_of_ne (h : c ≠ '"') (r : List Char) :
    readAtom (ν := ν) (c :: r) =
      (readInteger ((c :: r).takeWhile fun c => !isDelimiter c)).map fun n =>
        (.integer n, (c :: r).dropWhile fun c => !isDelimiter c) := if_neg h

/-- **An integer is read up to what ends it.** -/
theorem readAtom_integer (z : Int) {d : Char} (hd : isDelimiter d = true) (rest : List Char) :
    readAtom (ν := ν) ((toString z).toList ++ d :: rest) = some (.integer z, d :: rest) := by
  have hmem : ∀ c ∈ (toString z).toList, (!isDelimiter c) = true :=
    fun c hc => not_isDelimiter_of_mem hc
  have ht : ((toString z).toList ++ d :: rest).takeWhile (fun c => !isDelimiter c) =
      (toString z).toList := by
    rw [takeWhile_append_of_pos hmem, takeWhile_cons_of_neg (by simp [hd]), append_nil]
  have hdr : ((toString z).toList ++ d :: rest).dropWhile (fun c => !isDelimiter c) =
      d :: rest := by
    rw [dropWhile_append_of_pos hmem, dropWhile_cons_of_neg (by simp [hd])]
  have hqu : '"' ∉ (toString z).toList := by
    intro hq
    rcases mem_toString_int hq with h | h
    · simp at h
    · simp at h
  have hr := readInteger_toString z
  have hne := toString_int_ne_nil z
  generalize (toString z).toList = cs at ht hdr hqu hr hne
  cases cs with
  | nil => exact absurd rfl hne
  | cons c cs =>
    have hc : c ≠ '"' := fun h => hqu (by rw [h]; exact mem_cons_self)
    rw [cons_append] at ht hdr ⊢
    rw [readAtom_of_ne hc, ht, hdr, hr]
    rfl

/-! ### Strings -/

theorem hexDigit_digitChar : ∀ d < 16, hexDigit d.digitChar = some d := by decide

/-- A small number in four digits. -/
theorem leftpad_toDigits (hn : n < 256) :
    leftpad 4 '0' (Nat.toDigits 16 n) = ['0', '0', (n / 16).digitChar, (n % 16).digitChar] := by
  by_cases h : n < 16
  · rw [Nat.toDigits_of_lt_base h, show n / 16 = 0 by omega, show n % 16 = n by omega]
    rfl
  · rw [Nat.toDigits_of_base_le (by omega) (by omega),
      Nat.toDigits_of_lt_base (show n / 16 < 16 by omega)]
    rfl

theorem readHex_leftpad (hn : n < 256) (r : List Char) :
    readHex (leftpad 4 '0' (Nat.toDigits 16 n) ++ r) = some (Char.ofNat n, r) := by
  have hr : hexDigits 4 0 ('0' :: '0' :: (n / 16).digitChar :: (n % 16).digitChar :: r) =
      (n, r) := by
    have hz : hexDigit '0' = some 0 := by decide
    simp only [hexDigits, hz, hexDigit_digitChar (n / 16) (by omega),
      hexDigit_digitChar (n % 16) (by omega)]
    rw [show ((0 * 16 + 0) * 16 + 0 : Nat) = 0 by rfl, show (0 * 16 + n / 16) * 16 + n % 16 = n by omega]
  rw [leftpad_toDigits hn]
  show readHex ('0' :: '0' :: (n / 16).digitChar :: (n % 16).digitChar :: r) = _
  unfold readHex
  rw [hr, if_pos ⟨by simp only [length_cons]; omega, Or.inl (by omega)⟩]

theorem readChar_of_ne (h : c ≠ '\\') (r : List Char) : readChar (c :: r) = some (c, r) := if_neg h

/-- **A character is read off the front of its escape.** -/
theorem readChar_escapeChar (c : Char) (r : List Char) :
    readChar (escapeChar c ++ r) = some (c, r) := by
  unfold escapeChar
  by_cases hq : c = '"'
  · subst hq; rfl
  by_cases hb : c = '\\'
  · subst hb; rfl
  by_cases hn : c = '\n'
  · subst hn; rfl
  by_cases hr : c = '\r'
  · subst hr; rfl
  by_cases htab : c = '\t'
  · subst htab; rfl
  rw [if_neg hq, if_neg hb, if_neg hn, if_neg hr, if_neg htab]
  by_cases hctl : c.toNat < 32 ∨ c.toNat = 127
  · rw [if_pos hctl]
    show readHex (leftpad 4 '0' (Nat.toDigits 16 c.toNat) ++ r) = _
    rw [readHex_leftpad (by omega), Char.ofNat_toNat]
  · rw [if_neg hctl]
    exact readChar_of_ne hb r

/-- No escape opens with a quote. -/
theorem escapeChar_eq_cons (c : Char) : ∃ e es, escapeChar c = e :: es ∧ e ≠ '"' := by
  unfold escapeChar
  by_cases hq : c = '"'
  · rw [if_pos hq]; exact ⟨_, _, rfl, by decide⟩
  rw [if_neg hq]
  split
  · exact ⟨_, _, rfl, by decide⟩
  split
  · exact ⟨_, _, rfl, by decide⟩
  split
  · exact ⟨_, _, rfl, by decide⟩
  split
  · exact ⟨_, _, rfl, by decide⟩
  split
  · exact ⟨_, _, rfl, by decide⟩
  · exact ⟨_, _, rfl, hq⟩

theorem readString_escaped (cs r : List Char) : ∀ k, cs.length < k →
    readString k (cs.flatMap escapeChar ++ '"' :: r) = some (cs, r) := by
  induction cs with
  | nil =>
    intro k hf
    cases k with
    | zero => simp at hf
    | succ k => rfl
  | cons c cs ih =>
    intro k hf
    cases k with
    | zero => simp at hf
    | succ k =>
      have hos := ih k (by simpa using hf)
      have hfst := readChar_escapeChar c (cs.flatMap escapeChar ++ '"' :: r)
      obtain ⟨e, es, hesc, he⟩ := escapeChar_eq_cons c
      rw [flatMap_cons, append_assoc]
      rw [hesc, cons_append] at hfst ⊢
      unfold readString
      rw [if_neg he, hfst]
      show ((readString k (cs.flatMap escapeChar ++ '"' :: r)).map _) = _
      rw [hos]
      rfl

theorem length_le_flatMap_escapeChar (cs : List Char) :
    cs.length ≤ (cs.flatMap escapeChar).length := by
  induction cs with
  | nil => exact Nat.le_refl 0
  | cons c cs ih =>
    obtain ⟨e, es, hesc, -⟩ := escapeChar_eq_cons c
    rw [flatMap_cons, hesc, length_append, length_cons, length_cons]
    omega

/-- **A quoted string is read off the front of what it was written to.** -/
theorem readAtom_ednString (s : String) (r : List Char) :
    readAtom (ν := ν) (ednString s ++ r) = some (.string s, r) := by
  have hs : ednString s ++ r = '"' :: (s.toList.flatMap escapeChar ++ '"' :: r) := by
    unfold ednString
    simp
  have hlen : s.toList.length < (s.toList.flatMap escapeChar ++ '"' :: r).length + 1 := by
    have := length_le_flatMap_escapeChar s.toList
    rw [length_append]
    omega
  have hq : ∀ cs : List Char, readAtom (ν := ν) ('"' :: cs) =
      (readString (cs.length + 1) cs).map fun rd => (.string (String.ofList rd.1), rd.2) :=
    fun cs => rfl
  rw [hs, hq, readString_escaped s.toList r _ hlen]
  show some (Atom.string (String.ofList s.toList), r) = _
  rw [String.ofList_toList]

/-! ### Lines -/

/-- **A line reads as its subject, predicate and object.** -/
theorem readTriple_ednLine {s : Int} {p : String} {obj : List Char} {a : Atom ν}
    (hobj : readAtom (obj ++ [']']) = some (a, [']'])) :
    readTriple (ednLine s (ednString p) obj) = some ⟨s, p, a⟩ := by
  have hl : (ednLine s (ednString p) obj).toList =
      '[' :: ((toString s).toList ++ ' ' :: (ednString p ++ ' ' :: (obj ++ [']']))) := by
    unfold ednLine
    rw [String.toList_ofList]
    simp
  have hs := readAtom_integer (ν := ν) s (d := ' ') (by decide) (ednString p ++ ' ' :: (obj ++ [']']))
  have hp := readAtom_ednString (ν := ν) p (' ' :: (obj ++ [']']))
  simp only [readTriple, hl, hs, hp, hobj]

end Beagle.Facts
