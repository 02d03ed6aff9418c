/-
Texts behind their lengths, as bytes.

A part is a number in decimal, a colon, and that many bytes of UTF-8.  A decimal number
may be spelled with zeros in front, so bytes do not spell parts in one way only; but
bytes spell one list of parts at most, and what follows some parts spells the parts
after them.
-/
import Beagle.Lib.Digits
import Beagle.Lib.Utf8

namespace Beagle.Lib.Frames

open List

/-! ### Numerals -/

/-- `0` to `9`. -/
def decimal (byte : UInt8) : Bool := 48 ≤ byte.toNat && byte.toNat ≤ 57

/-- One more digit of a number. -/
def shift (n : Nat) (byte : UInt8) : Nat := n * 10 + (byte.toNat - 48)

/-- The number that digits spell. -/
def value (digits : List UInt8) : Nat := digits.foldl shift 0

/-- The bytes of a number in decimal. -/
def numeral (n : Nat) : List UInt8 := Utf8.encode (toString n)

theorem encode_append (s t : String) : Utf8.encode (s ++ t) = Utf8.encode s ++ Utf8.encode t := by
  unfold Utf8.encode
  rw [String.toList_append, flatMap_append]

theorem encode_digit {k : Nat} (hk : k < 10) :
    String.utf8EncodeChar k.digitChar = [UInt8.ofNat (48 + k)] := by
  have hall : ∀ k : Fin 10, String.utf8EncodeChar k.val.digitChar = [UInt8.ofNat (48 + k.val)] := by
    decide
  exact hall ⟨k, hk⟩

variable {n : Nat} {byte : UInt8}

theorem numeral_of_lt (hn : n < 10) : numeral n = [UInt8.ofNat (48 + n)] := by
  have hl : (toString n).toList = [n.digitChar] := by
    rw [← Nat.toDigits_of_lt_base hn]
    exact Nat.toList_repr
  unfold numeral Utf8.encode
  rw [hl, flatMap_cons, flatMap_nil, append_nil, encode_digit hn]

theorem numeral_of_ge (hn : 10 ≤ n) :
    numeral n = numeral (n / 10) ++ [UInt8.ofNat (48 + n % 10)] := by
  have hl : (toString n).toList = (toString (n / 10)).toList ++ [(n % 10).digitChar] := by
    have hsp := Nat.toDigits_of_base_le (b := 10) (by omega) hn
    rw [← Nat.toList_repr, ← Nat.toList_repr] at hsp
    exact hsp
  unfold numeral Utf8.encode
  rw [hl, flatMap_append, flatMap_cons, flatMap_nil, append_nil,
    encode_digit (Nat.mod_lt n (by omega))]

theorem toNat_digit {k : Nat} (hk : k < 10) : (UInt8.ofNat (48 + k)).toNat = 48 + k := by
  rw [UInt8.toNat_ofNat']
  omega

theorem numeral_ne_nil (n : Nat) : numeral n ≠ [] := by
  by_cases hn : n < 10
  · rw [numeral_of_lt hn]
    exact cons_ne_nil _ _
  · rw [numeral_of_ge (Nat.not_lt.mp hn)]
    simp

theorem decimal_of_mem_numeral : ∀ {n : Nat} {byte : UInt8}, byte ∈ numeral n →
    decimal byte = true := by
  have hone : ∀ {k : Nat}, k < 10 → decimal (UInt8.ofNat (48 + k)) = true := by
    intro k hk
    unfold decimal
    rw [toNat_digit hk, Bool.and_eq_true, decide_eq_true_iff, decide_eq_true_iff]
    omega
  intro n
  induction n using Nat.strongRecOn with
  | _ n ih =>
    intro byte hbyte
    by_cases hn : n < 10
    · rw [numeral_of_lt hn, mem_singleton] at hbyte
      rw [hbyte]
      exact hone hn
    · rw [numeral_of_ge (Nat.not_lt.mp hn), List.mem_append, mem_singleton] at hbyte
      rcases hbyte with hbyte | rfl
      · exact ih (n / 10) (by omega) hbyte
      · exact hone (Nat.mod_lt n (by omega))

theorem value_append (ds : List UInt8) (byte : UInt8) :
    value (ds ++ [byte]) = shift (value ds) byte := by
  unfold value
  rw [foldl_append]
  rfl

theorem value_numeral (n : Nat) : value (numeral n) = n := by
  induction n using Nat.strongRecOn with
  | _ n ih =>
    by_cases hn : n < 10
    · rw [numeral_of_lt hn]
      show shift 0 _ = n
      unfold shift
      rw [toNat_digit hn]
      omega
    · rw [numeral_of_ge (Nat.not_lt.mp hn), value_append, ih (n / 10) (by omega)]
      unfold shift
      rw [toNat_digit (Nat.mod_lt n (by omega))]
      omega

/-- More digits spell no smaller number. -/
theorem le_foldl_shift (ds : List UInt8) (n : Nat) : n ≤ ds.foldl shift n := by
  induction ds generalizing n with
  | nil => exact Nat.le_refl n
  | cons byte ds ih =>
    rw [foldl_cons]
    refine Nat.le_trans ?_ (ih _)
    unfold shift
    omega

/-! ### Numerals without zeros in front -/

/-- A digit alone, or digits of which the first is not `0`. -/
def plain : List UInt8 → Bool
  | [] => false
  | [byte] => decimal byte
  | byte :: _ => 49 ≤ byte.toNat && byte.toNat ≤ 57

theorem decimal_iff : decimal byte = true ↔ 48 ≤ byte.toNat ∧ byte.toNat ≤ 57 := by
  unfold decimal
  rw [Bool.and_eq_true, decide_eq_true_iff, decide_eq_true_iff]

theorem digit_of_decimal (h : decimal byte = true) :
    byte = UInt8.ofNat (48 + (byte.toNat - 48)) := by
  have hr := decimal_iff.mp h
  have hval : 48 + (byte.toNat - 48) = byte.toNat := by omega
  rw [hval, UInt8.ofNat_toNat]

/-- The first digit of a number above 9 is not `0`. -/
theorem numeral_head (hn : 1 ≤ n) :
    ∃ byte rest, numeral n = byte :: rest ∧ 49 ≤ byte.toNat ∧ byte.toNat ≤ 57 := by
  induction n using Nat.strongRecOn with
  | _ n ih =>
    by_cases hten : n < 10
    · refine ⟨_, [], numeral_of_lt hten, ?_⟩
      rw [toNat_digit hten]
      omega
    · obtain ⟨byte, rest, hr, hb⟩ := ih (n / 10) (by omega) (by omega)
      refine ⟨byte, rest ++ [UInt8.ofNat (48 + n % 10)], ?_, hb⟩
      rw [numeral_of_ge (Nat.not_lt.mp hten), hr, cons_append]

theorem plain_numeral (n : Nat) : plain (numeral n) = true := by
  by_cases hn : n < 10
  · rw [numeral_of_lt hn]
    show decimal _ = true
    rw [decimal_iff, toNat_digit hn]
    omega
  · obtain ⟨byte, rest, hr, hb⟩ := numeral_head (n := n) (by omega)
    rw [hr]
    cases rest with
    | nil =>
      rw [show plain [byte] = decimal byte from rfl, decimal_iff]
      omega
    | cons next rest =>
      show (decide (49 ≤ byte.toNat) && decide (byte.toNat ≤ 57)) = true
      rw [Bool.and_eq_true, decide_eq_true_iff, decide_eq_true_iff]
      exact hb

variable {digits : List UInt8}

theorem plain_front (hne : digits ≠ [])
    (h : plain (digits ++ [byte]) = true) : plain digits = true ∧ 1 ≤ value digits := by
  cases digits with
  | nil => exact absurd rfl hne
  | cons first digits =>
    have hfst : 49 ≤ first.toNat ∧ first.toNat ≤ 57 := by
      cases digits <;>
        exact ⟨of_decide_eq_true (Bool.and_eq_true _ _ ▸ h).1,
          of_decide_eq_true (Bool.and_eq_true _ _ ▸ h).2⟩
    refine ⟨?_, ?_⟩
    · cases digits with
      | nil =>
        rw [show plain [first] = decimal first from rfl, decimal_iff]
        omega
      | cons => exact h
    · refine Nat.le_trans ?_ (le_foldl_shift digits _)
      unfold shift
      omega

/-- Plain digits are how their number is spelled. -/
theorem eq_numeral_of_plain (hdec : ∀ byte ∈ digits, decimal byte = true)
    (h : plain digits = true) : digits = numeral (value digits) := by
  induction digits using reverseRecOn with
  | nil => cases h
  | append_singleton digits byte ih =>
    have hby := hdec byte (mem_append_right _ mem_cons_self)
    have hr := decimal_iff.mp hby
    rw [value_append]
    by_cases hne : digits = []
    · subst hne
      have hval : shift (value []) byte = byte.toNat - 48 := Nat.zero_add _
      rw [hval, numeral_of_lt (by omega), ← digit_of_decimal hby]
      rfl
    · obtain ⟨hpl, hpos⟩ := plain_front hne h
      have hs : shift (value digits) byte = value digits * 10 + (byte.toNat - 48) := rfl
      have hdiv : shift (value digits) byte / 10 = value digits := by omega
      have hmod : shift (value digits) byte % 10 = byte.toNat - 48 := by omega
      rw [numeral_of_ge (by omega), hdiv, hmod, ← digit_of_decimal hby,
        ← ih (fun b hb => hdec b (mem_append_left _ hb)) hpl]

/-! ### Parts -/

/-- A number, a colon and the bytes of a text. -/
structure Part (text : String) (bytes rest : List UInt8) : Prop where
  spelled : ∃ digits, digits ≠ [] ∧ (∀ byte ∈ digits, decimal byte = true) ∧
    value digits = (Utf8.encode text).length ∧
    bytes = digits ++ 58 :: (Utf8.encode text ++ rest)

theorem not_decimal_colon : decimal 58 = false := by decide

/-- Digits before a colon are read off in one way. -/
theorem digits_colon_inj {p q u v : List UInt8} (hp : ∀ byte ∈ p, decimal byte = true)
    (hq : ∀ byte ∈ q, decimal byte = true) (h : p ++ 58 :: u = q ++ 58 :: v) : p = q ∧ u = v := by
  induction p generalizing q with
  | nil =>
    cases q with
    | nil => exact ⟨rfl, (List.cons.inj h).2⟩
    | cons byte q =>
      have hby : byte = 58 := ((List.cons.inj h).1).symm
      have := hq byte mem_cons_self
      rw [hby, not_decimal_colon] at this
      exact absurd this Bool.false_ne_true
  | cons byte p ih =>
    cases q with
    | nil =>
      have hby : byte = 58 := (List.cons.inj h).1
      have := hp byte mem_cons_self
      rw [hby, not_decimal_colon] at this
      exact absurd this Bool.false_ne_true
    | cons b' q =>
      obtain ⟨hby, hr⟩ := List.cons.inj h
      obtain ⟨hpq, huv⟩ := ih (fun b hb => hp b (mem_cons_of_mem _ hb))
        (fun b hb => hq b (mem_cons_of_mem _ hb)) hr
      exact ⟨by rw [hby, hpq], huv⟩

namespace Part

variable {text t' : String} {bs rest r' : List UInt8} (h : Part text bs rest)
include h

/-- A part and what follows it are determined by the bytes. -/
theorem unique (h' : Part t' bs r') : text = t' ∧ rest = r' := by
  obtain ⟨ds, -, hdec, hval, hbs⟩ := h.spelled
  obtain ⟨ds', -, hdec', hval', hbs'⟩ := h'.spelled
  obtain ⟨hd, ht⟩ := digits_colon_inj hdec hdec' (hbs.symm.trans hbs')
  have hlen : (Utf8.encode text).length = (Utf8.encode t').length := by
    rw [← hval, ← hval', hd]
  obtain ⟨hte, hr⟩ := append_inj ht hlen
  exact ⟨Utf8.encode_injective hte, hr⟩

theorem append (m : List UInt8) : Part text (bs ++ m) (rest ++ m) := by
  obtain ⟨ds, hne, hdec, hval, hbs⟩ := h.spelled
  refine ⟨ds, hne, hdec, hval, ?_⟩
  rw [hbs]
  simp

/-- A zero in front of the length changes nothing. -/
theorem zero : Part text (48 :: bs) rest := by
  obtain ⟨ds, -, hdec, hval, hbs⟩ := h.spelled
  refine ⟨48 :: ds, cons_ne_nil _ _, ?_, ?_, by rw [hbs, cons_append]⟩
  · intro byte hbyte
    rcases mem_cons.mp hbyte with rfl | hbyte
    · decide
    · exact hdec byte hbyte
  · rw [← hval]
    rfl

theorem length_lt : rest.length < bs.length := by
  obtain ⟨ds, -, -, -, hbs⟩ := h.spelled
  rw [hbs, length_append, length_cons, length_append]
  omega

end Part

/-- The bytes spell these parts, and `rest` follows them. -/
inductive Spelled : List String → List UInt8 → List UInt8 → Prop
  | nil (rest : List UInt8) : Spelled [] rest rest
  | cons {text : String} {texts : List String} {bytes mid rest : List UInt8}
      (first : Part text bytes mid) (others : Spelled texts mid rest) :
      Spelled (text :: texts) bytes rest

namespace Spelled

variable {ts ts' : List String} {bs m rest r' : List UInt8}

theorem append (h : Spelled ts bs m) (h' : Spelled ts' m rest) : Spelled (ts ++ ts') bs rest := by
  induction h with
  | nil => exact h'
  | cons first _ ih => exact Spelled.cons first (ih h')

theorem more (h : Spelled ts bs rest) (more : List UInt8) :
    Spelled ts (bs ++ more) (rest ++ more) := by
  induction h with
  | nil => exact Spelled.nil _
  | cons first _ ih => exact Spelled.cons (first.append more) ih

theorem uncons {text : String} (h : Spelled (text :: ts) bs rest) :
    ∃ m, Part text bs m ∧ Spelled ts m rest := by
  cases h with
  | cons first os => exact ⟨_, first, os⟩

theorem split (ts : List String) {ts' : List String} (h : Spelled (ts ++ ts') bs rest) :
    ∃ m, Spelled ts bs m ∧ Spelled ts' m rest := by
  induction ts generalizing bs with
  | nil => exact ⟨bs, Spelled.nil bs, h⟩
  | cons text ts ih =>
    obtain ⟨next, first, os⟩ := h.uncons
    obtain ⟨m, hmid, hr⟩ := ih os
    exact ⟨m, Spelled.cons first hmid, hr⟩

/-- Bytes spell one list of a given length. -/
theorem unique (h : Spelled ts bs rest) (h' : Spelled ts' bs r')
    (hlen : ts.length = ts'.length) : ts = ts' ∧ rest = r' := by
  induction h generalizing ts' with
  | nil =>
    cases h' with
    | nil => exact ⟨rfl, rfl⟩
    | cons => cases hlen
  | cons first os ih =>
    cases h' with
    | nil => cases hlen
    | cons f' os' =>
      obtain ⟨hte, hmid⟩ := first.unique f'
      subst hmid
      obtain ⟨ht, hr⟩ := ih os' (Nat.succ.inj hlen)
      exact ⟨by rw [hte, ht], hr⟩

/-- The longer of two lists that the same bytes spell goes on from the shorter. -/
theorem goes_on (h : Spelled ts bs rest) (h' : Spelled ts' bs r') (hlen : ts.length ≤ ts'.length) :
    ∃ os, ts' = ts ++ os ∧ Spelled os rest r' := by
  induction h generalizing ts' with
  | nil => exact ⟨ts', rfl, h'⟩
  | cons first os ih =>
    cases h' with
    | nil => exact absurd hlen (Nat.not_succ_le_zero _)
    | cons f' os' =>
      obtain ⟨ht, hmid⟩ := first.unique f'
      subst hmid
      obtain ⟨m, hm, hs⟩ := ih os' (Nat.le_of_succ_le_succ hlen)
      exact ⟨m, by rw [ht, hm, cons_append], hs⟩

theorem length_le (h : Spelled ts bs rest) : ts.length + rest.length ≤ bs.length := by
  induction h with
  | nil => exact Nat.le_of_eq (Nat.zero_add _)
  | cons first _ ih =>
    have hl := first.length_lt
    rw [length_cons]
    omega

/-- Bytes with nothing behind them spell one list. -/
theorem whole_unique (h : Spelled ts bs []) (h' : Spelled ts' bs []) : ts = ts' := by
  have hle : ∀ {xs ys : List String}, Spelled xs bs [] → Spelled ys bs [] →
      xs.length ≤ ys.length → xs = ys := by
    intro xs ys hx hy hlen
    obtain ⟨os, hos, hr⟩ := hx.goes_on hy hlen
    have hn := hr.length_le
    have hnil : os = [] := length_eq_zero_iff.mp (by simpa using hn)
    rw [hos, hnil, append_nil]
  rcases Nat.le_total ts.length ts'.length with hlen | hlen
  · exact hle h h' hlen
  · exact (hle h' h hlen).symm

end Spelled

/-! ### Plain spellings -/

/-- A text behind its length, spelled without zeros in front. -/
def framed (text : String) : String := toString (Utf8.encode text).length ++ ":" ++ text

theorem encode_framed (text : String) :
    Utf8.encode (framed text) = numeral (Utf8.encode text).length ++ 58 :: Utf8.encode text := by
  unfold framed numeral
  rw [encode_append, encode_append, append_assoc]
  rfl

theorem part_framed (text : String) (rest : List UInt8) :
    Part text (Utf8.encode (framed text) ++ rest) rest := by
  refine ⟨numeral (Utf8.encode text).length, numeral_ne_nil _, ?_, value_numeral _, ?_⟩
  · exact fun byte hb => decimal_of_mem_numeral hb
  · rw [encode_framed, append_assoc, cons_append]

/-- Some texts, each behind its length. -/
def framedAll (texts : List String) : String := texts.foldl (fun s text => s ++ framed text) ""

theorem foldl_framed (ts : List String) (s : String) :
    ts.foldl (fun s text => s ++ framed text) s = s ++ framedAll ts := by
  unfold framedAll
  induction ts generalizing s with
  | nil => exact (String.append_empty).symm
  | cons text ts ih =>
    rw [foldl_cons, foldl_cons, ih, ih ("" ++ framed text), String.empty_append,
      String.append_assoc]

theorem framedAll_cons (text : String) (ts : List String) :
    framedAll (text :: ts) = framed text ++ framedAll ts := by
  show (ts.foldl _ ("" ++ framed text)) = _
  rw [foldl_framed, String.empty_append]

theorem framedAll_append (ts ts' : List String) :
    framedAll (ts ++ ts') = framedAll ts ++ framedAll ts' := by
  show (ts ++ ts').foldl _ "" = _
  rw [foldl_append, foldl_framed]
  rfl

theorem spelled_framedAll (ts : List String) (rest : List UInt8) :
    Spelled ts (Utf8.encode (framedAll ts) ++ rest) rest := by
  induction ts with
  | nil => exact Spelled.nil rest
  | cons text ts ih =>
    rw [framedAll_cons, encode_append, append_assoc]
    exact Spelled.cons (part_framed text _) ih

theorem framedAll_injective {ts ts' : List String} (h : framedAll ts = framedAll ts') :
    ts = ts' := by
  have hs := spelled_framedAll ts []
  have hs' := spelled_framedAll ts' []
  rw [← h] at hs'
  exact hs.whole_unique hs'

/-- Every length that stands before one of the texts is plain. -/
def PlainLengths (bytes : List UInt8) : Prop :=
  ∀ (earlier : List String) (run : List UInt8) (text : String) (rest : List UInt8),
    Spelled earlier bytes (run ++ 58 :: (Utf8.encode text ++ rest)) →
      (∀ byte ∈ run, decimal byte = true) → run ≠ [] →
        value run = (Utf8.encode text).length → plain run = true

/-- Texts behind plain lengths are framed. -/
theorem Spelled.eq_framedAll {ts : List String} {bs rest : List UInt8}
    (h : Spelled ts bs rest) (hpl : PlainLengths bs) :
    bs = Utf8.encode (framedAll ts) ++ rest := by
  induction h with
  | nil => rfl
  | @cons text ts bs m rest first os ih =>
    obtain ⟨run, hne, hdec, hval, hbs⟩ := first.spelled
    have hrun : plain run = true :=
      hpl [] run text m (hbs ▸ Spelled.nil _) hdec hne hval
    have hmid : m = Utf8.encode (framedAll ts) ++ rest := by
      refine ih ?_
      intro e run' t' r' hs
      exact hpl (text :: e) run' t' r' (Spelled.cons first hs)
    rw [framedAll_cons, encode_append, encode_framed, append_assoc, ← hmid, hbs,
      ← hval, ← eq_numeral_of_plain hdec hrun, append_assoc, cons_append]

theorem plainLengths_framedAll (ts : List String) : PlainLengths (Utf8.encode (framedAll ts)) := by
  intro e run text rest hs hdec hne hval
  have hw := spelled_framedAll ts []
  rw [append_nil] at hw
  have hl : Spelled (e ++ [text]) (Utf8.encode (framedAll ts)) rest :=
    hs.append (Spelled.cons ⟨run, hne, hdec, hval, rfl⟩ (Spelled.nil rest))
  have hsp : ∃ others, ts = e ++ [text] ++ others := by
    rcases Nat.le_total (e ++ [text]).length ts.length with hle | hle
    · obtain ⟨others, hos, -⟩ := hl.goes_on hw hle
      exact ⟨others, hos⟩
    · obtain ⟨others, hos, hr⟩ := hw.goes_on hl hle
      have hn := hr.length_le
      rw [length_nil] at hn
      have hnil : others = [] := length_eq_zero_iff.mp (by omega)
      rw [hnil, append_nil] at hos
      exact ⟨[], by rw [hos, append_nil]⟩
  obtain ⟨others, rfl⟩ := hsp
  have he := spelled_framedAll e (Utf8.encode (framedAll (text :: others)))
  rw [← encode_append, ← framedAll_append] at he
  rw [append_assoc, singleton_append] at hs
  obtain ⟨-, hr⟩ := hs.unique he rfl
  rw [framedAll_cons, encode_append, encode_framed, append_assoc, cons_append] at hr
  obtain ⟨hrun, -⟩ := digits_colon_inj hdec (fun b hb => decimal_of_mem_numeral hb) hr
  rw [hrun]
  exact plain_numeral _

end Beagle.Lib.Frames
