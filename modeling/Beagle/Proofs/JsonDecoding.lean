/-
The decoder accepts the JSON texts, and its events are their values in order.

What is expected next, and what stands on the stack, is what of the grammar is still open:
`Expected` has one rule for each way to complete an expectation, and a stack is completed
piece by piece.  A step that goes on completes what was open if the state it goes to is
completed; a step that stops has read everything or says where it cannot go on.  The other
way round, a derivation of the grammar is followed by the steps of the decoder.
-/
import Beagle.Proofs.JsonScanning

namespace Beagle.JsonCodec

open Beagle.Native (Text)
open Beagle.Lib (Utf8.encode Utf8.decode Utf8.encode_ofList Utf8.encode_injective)
open Beagle.Lib.Json List

/-! ### The tokens of a value -/

mutual

/-- A value from its first token to its last. -/
def valueTokens : Json → List JsonToken
  | .null => [.null]
  | .boolean value => [.boolean value]
  | .number lexeme => [.number lexeme.text]
  | .string value => [.string value]
  | .array items => .arrayStart :: (itemsTokens items ++ [.arrayEnd])
  | .object members => .objectStart :: (membersTokens members ++ [.objectEnd])

def itemsTokens : List Json → List JsonToken
  | [] => []
  | item :: items => valueTokens item ++ itemsTokens items

def membersTokens : List (String × Json) → List JsonToken
  | [] => []
  | (key, value) :: members => .key key :: (valueTokens value ++ membersTokens members)

end

/-- A string and what spells it, surrogates in pairs. -/
def Body (value : String) (bytes : List UInt8) : Prop := StringBody value.toList bytes

/-! ### What is still open -/

/-- The bytes complete what is expected, and have these tokens. -/
inductive Expected : ParseExpectation → List JsonToken → Text → Prop where
  | value {value : Json} {before bytes : Text} (hbefore : Blank before)
      (h : Spells Body (.value value) bytes) :
      Expected .value (valueTokens value) (before ++ bytes)
  | items {expectation : ParseExpectation} {items : List Json} {inner : Text}
      (he : expectation = .arrayValueFirst ∨ expectation = .arrayValueNext)
      (h : Spells Body (.items items) inner) :
      Expected expectation (itemsTokens items ++ [.arrayEnd]) (inner ++ [93])
  | arrayEnd {expectation : ParseExpectation} {before : Text}
      (he : expectation = .arrayValueFirst ∨ expectation = .arrayCommaOrEnd)
      (hbefore : Blank before) : Expected expectation [.arrayEnd] (before ++ [93])
  | arrayComma {items : List Json} {before inner : Text} (hbefore : Blank before)
      (h : Spells Body (.items items) inner) :
      Expected .arrayCommaOrEnd (itemsTokens items ++ [.arrayEnd]) (before ++ 44 :: (inner ++ [93]))
  | members {expectation : ParseExpectation} {members : List (String × Json)} {inner : Text}
      (he : expectation = .objectKeyFirst ∨ expectation = .objectKeyNext)
      (h : Spells Body (.members members) inner) :
      Expected expectation (membersTokens members ++ [.objectEnd]) (inner ++ [125])
  | objectEnd {expectation : ParseExpectation} {before : Text}
      (he : expectation = .objectKeyFirst ∨ expectation = .objectCommaOrEnd)
      (hbefore : Blank before) : Expected expectation [.objectEnd] (before ++ [125])
  | objectComma {members : List (String × Json)} {before inner : Text} (hbefore : Blank before)
      (h : Spells Body (.members members) inner) :
      Expected .objectCommaOrEnd (membersTokens members ++ [.objectEnd])
        (before ++ 44 :: (inner ++ [125]))
  | colon {tokens more : List JsonToken} {before bytes rest : Text} (hbefore : Blank before)
      (h : Expected .value tokens bytes) (hrest : Expected .objectCommaOrEnd more rest) :
      Expected .colon (tokens ++ more) (before ++ 58 :: (bytes ++ rest))
  | done {before : Text} (hbefore : Blank before) : Expected .done [] before

/-- The bytes complete the stack from its top to its bottom. -/
def Completes : List ParseExpectation → List JsonToken → Text → Prop
  | [], tokens, bytes => tokens = [] ∧ bytes = []
  | expectation :: below, tokens, bytes =>
    ∃ first front others back, tokens = first ++ others ∧ bytes = front ++ back ∧
      Expected expectation first front ∧ Completes below others back

theorem blank_nil : Blank [] := forall_mem_nil _

theorem blank_append {fr b : Text} (hfr : Blank fr) (hb : Blank b) : Blank (fr ++ b) :=
  fun byt h => (List.mem_append.mp h).elim (hfr byt) (hb byt)

variable {i b : Text}

/-- Blanks before items belong to the first one. -/
theorem spells_items_blank {items : List Json} (hpre : Blank b)
    (h : Spells Body (.items items) i) : Spells Body (.items items) (b ++ i) := by
  cases h with
  | item hfst hp h =>
    rw [← append_assoc]
    exact .item (blank_append hpre hfst) hp h
  | items hfst hp h hm =>
    rw [← append_assoc]
    exact .items (blank_append hpre hfst) hp h hm

theorem spells_members_blank {members : List (String × Json)}
    (hpre : Blank b) (h : Spells Body (.members members) i) :
    Spells Body (.members members) (b ++ i) := by
  cases h with
  | member hfst hb hmid hcol hp h =>
    rw [← append_assoc]
    exact .member (blank_append hpre hfst) hb hmid hcol hp h
  | members hfst hb hmid hcol hp h hm =>
    rw [← append_assoc]
    exact .members (blank_append hpre hfst) hb hmid hcol hp h hm

variable {expectation e : ParseExpectation} {tokens : List JsonToken} {bytes : Text}
  {below cs : List ParseExpectation} {events : List JsonEvent}

/-- Blanks may come before whatever is expected. -/
theorem Expected.blank (hpre : Blank b)
    (h : Expected expectation tokens bytes) : Expected expectation tokens (b ++ bytes) := by
  cases h with
  | value hfst h =>
    rw [← append_assoc]
    exact .value (blank_append hpre hfst) h
  | items he h =>
    rw [← append_assoc]
    exact .items he (spells_items_blank hpre h)
  | arrayEnd he hfst =>
    rw [← append_assoc]
    exact .arrayEnd he (blank_append hpre hfst)
  | arrayComma hfst h =>
    rw [← append_assoc]
    exact .arrayComma (blank_append hpre hfst) h
  | members he h =>
    rw [← append_assoc]
    exact .members he (spells_members_blank hpre h)
  | objectEnd he hfst =>
    rw [← append_assoc]
    exact .objectEnd he (blank_append hpre hfst)
  | objectComma hfst h =>
    rw [← append_assoc]
    exact .objectComma (blank_append hpre hfst) h
  | colon hfst h hr =>
    rw [← append_assoc]
    exact .colon (blank_append hpre hfst) h hr
  | done hfst => exact .done (blank_append hpre hfst)

theorem Completes.blank {st : List ParseExpectation} (hpre : Blank b)
    (hs : st ≠ []) (h : Completes st tokens bytes) :
    Completes st tokens (b ++ bytes) := by
  cases st with
  | nil => exact absurd rfl hs
  | cons expectation below =>
    obtain ⟨first, fr, os, bk, rfl, rfl, hfst, hb⟩ := h
    exact ⟨first, b ++ fr, os, bk, rfl, (append_assoc ..).symm, hfst.blank hpre, hb⟩

/-! ### What a step completes -/

/-- An item and what comes behind it are items. -/
theorem expected_items {first m : List JsonToken} {fr r : Text}
    (he : expectation = .arrayValueFirst ∨ expectation = .arrayValueNext)
    (hfst : Expected .value first fr) (hm : Expected .arrayCommaOrEnd m r) :
    Expected expectation (first ++ m) (fr ++ r) := by
  cases hfst with
  | items he' | arrayEnd he' | members he' | objectEnd he' => simp at he'
  | value hpre h =>
    rename_i value b bytes
    cases hm with
    | items he' | members he' | objectEnd he' => simp at he'
    | arrayEnd he' hp =>
      have := Expected.items he (.item hpre hp h)
      simp only [itemsTokens, append_nil, append_assoc] at this ⊢
      exact this
    | arrayComma hp hi =>
      have := Expected.items he (.items hpre hp h hi)
      simp only [itemsTokens, append_assoc, cons_append] at this ⊢
      exact this

/-- A key and what comes behind it are members. -/
theorem expected_members {key : String} {b r : Text}
    (he : expectation = .objectKeyFirst ∨ expectation = .objectKeyNext) (hb : Body key b)
    (h : Expected .colon tokens r) :
    Expected expectation (.key key :: tokens) (34 :: (b ++ 34 :: r)) := by
  cases h with
  | items he' | arrayEnd he' | members he' | objectEnd he' => simp at he'
  | colon hmid hval hr =>
    cases hval with
    | items he' | arrayEnd he' | members he' | objectEnd he' => simp at he'
    | value hcol h =>
      cases hr with
      | items he' | arrayEnd he' | members he' => simp at he'
      | objectEnd he' hp =>
        have := Expected.members he (@Spells.member _ _ _ [] _ _ _ _ _ blank_nil hb hmid hcol hp h)
        simp only [membersTokens, append_nil, append_assoc, cons_append, nil_append] at this ⊢
        exact this
      | objectComma hp hm =>
        have := Expected.members he
          (@Spells.members _ _ _ _ [] _ _ _ _ _ _ blank_nil hb hmid hcol hp h hm)
        simp only [membersTokens, append_assoc, cons_append, nil_append] at this ⊢
        exact this

variable {r : Text}

/-- A bracket and what comes behind it are an array. -/
theorem expected_array (h : Expected .arrayValueFirst tokens r) :
    Expected .value (.arrayStart :: tokens) (91 :: r) := by
  cases h with
  | members he' | objectEnd he' => simp at he'
  | items _ h => exact @Expected.value _ [] _ blank_nil (.array h)
  | arrayEnd _ hpre => exact @Expected.value _ [] _ blank_nil (.emptyArray hpre)

/-- A brace and what comes behind it are an object. -/
theorem expected_object (h : Expected .objectKeyFirst tokens r) :
    Expected .value (.objectStart :: tokens) (123 :: r) := by
  cases h with
  | items he' | arrayEnd he' => simp at he'
  | members _ h => exact @Expected.value _ [] _ blank_nil (.object h)
  | objectEnd _ hpre => exact @Expected.value _ [] _ blank_nil (.emptyObject hpre)

/-- A comma and what comes behind it. -/
theorem expected_arrayComma (h : Expected .arrayValueNext tokens r) :
    Expected .arrayCommaOrEnd tokens (44 :: r) := by
  cases h with
  | arrayEnd he' | members he' | objectEnd he' => simp at he'
  | items _ h => exact @Expected.arrayComma _ [] _ blank_nil h

theorem expected_objectComma (h : Expected .objectKeyNext tokens r) :
    Expected .objectCommaOrEnd tokens (44 :: r) := by
  cases h with
  | items he' | arrayEnd he' | objectEnd he' => simp at he'
  | members _ h => exact @Expected.objectComma _ [] _ blank_nil h

theorem completes_items (he : expectation = .arrayValueFirst ∨ expectation = .arrayValueNext)
    (h : Completes (.value :: .arrayCommaOrEnd :: below) tokens bytes) :
    Completes (expectation :: below) tokens bytes := by
  obtain ⟨first, fr, _, _, rfl, rfl, hfst, mo, m, os, b, rfl, rfl, hm, hbelow⟩ := h
  exact ⟨first ++ mo, fr ++ m, os, b, (append_assoc ..).symm,
    (append_assoc ..).symm, expected_items he hfst hm, hbelow⟩

theorem completes_colon (h : Completes (.value :: .objectCommaOrEnd :: below) tokens bytes) :
    Completes (.colon :: below) tokens (58 :: bytes) := by
  obtain ⟨first, fr, _, _, rfl, rfl, hfst, mo, m, os, b, rfl, rfl, hm, hbelow⟩ := h
  refine ⟨first ++ mo, 58 :: (fr ++ m), os, b, (append_assoc ..).symm, ?_,
    @Expected.colon _ _ [] _ _ blank_nil hfst hm, hbelow⟩
  rw [cons_append, append_assoc]

/-- What is completed by a piece in front. -/
theorem Completes.front {expectation od : ParseExpectation} {below : List ParseExpectation}
    {a tokens : List JsonToken} {p bytes : Text}
    (h : Completes (od :: below) tokens bytes)
    (hexp : ∀ tokens bytes, Expected od tokens bytes →
      Expected expectation (a ++ tokens) (p ++ bytes)) :
    Completes (expectation :: below) (a ++ tokens) (p ++ bytes) := by
  obtain ⟨first, fr, os, b, rfl, rfl, hfst, hb⟩ := h
  exact ⟨a ++ first, p ++ fr, os, b, (append_assoc ..).symm,
    (append_assoc ..).symm, hexp _ _ hfst, hb⟩

/-! ### One step -/

/-- The end stands at the bottom of the stack, and nowhere else. -/
inductive Closed : List ParseExpectation → Prop where
  | done : Closed [.done]
  | push {expectation : ParseExpectation} {below : List ParseExpectation}
      (he : expectation ≠ .done) (h : Closed below) : Closed (expectation :: below)

/-- What a step may come to: it stops where the text still is, or with everything read, or it
goes on, and what it goes on to completes what was open. -/
inductive Outcome (rest : Text) (start : Nat) (events : List JsonEvent)
    (stack : List ParseExpectation) : DecodeStep → Prop where
  | error {place : Nat} {message : String} (h : place ≤ start + rest.length) :
      Outcome rest start events stack (.done (.error place message))
  | decoded (hstack : stack = [.done]) (hrest : rest = []) :
      Outcome rest start events stack (.done (.decoded events))
  | next {state : DecodeState} {added : List JsonEvent} (hevents : state.events = events ++ added)
      (hwhole : Whole state.rest) (hclosed : Closed (state.expectation :: state.continuations))
      (hlow : start ≤ state.offset)
      (hend : state.offset + state.rest.length = start + rest.length)
      (hadded : added = [] ∨ ∃ token, added = [⟨start, token⟩] ∧ start < state.offset)
      (hcompletes : ∀ tokens,
        Completes (state.expectation :: state.continuations) tokens state.rest →
          Completes stack (added.map JsonEvent.token ++ tokens) rest) :
      Outcome rest start events stack (.next state)

/-- An event that completes the top of the stack. -/
theorem outcome_resume {r p m : Text} {s : Nat} {events : List JsonEvent}
    {expectation : ParseExpectation} {cs : List ParseExpectation} {t : JsonToken}
    (he : expectation ≠ .done) (hcl : Closed (expectation :: cs))
    (hr : r = p ++ m) (hpos : 0 < p.length) (hw : Whole m)
    (hexp : Expected expectation [t] p) :
    Outcome r s events (expectation :: cs) (resume m (s + p.length) (events ++ [⟨s, t⟩]) cs) := by
  cases hcl with
  | done => exact absurd rfl he
  | push _ hb =>
    cases cs with
    | nil => cases hb
    | cons next below =>
      refine .next rfl hw hb (Nat.le_add_right _ _) ?_
        (Or.inr ⟨t, rfl, Nat.lt_add_of_pos_right hpos⟩) ?_
      · rw [hr, length_append]
        dsimp only
        omega
      · intro tokens ht
        exact ⟨[t], p, tokens, m, rfl, hr, hexp, ht⟩

/-- A byte that opens what is expected next. -/
theorem outcome_open {b : UInt8} {m : Text} {s : Nat} {events a : List JsonEvent}
    {expectation od : ParseExpectation} {cs : List ParseExpectation}
    (hb : b.toNat < 128) (ho : od ≠ .done)
    (hcl : Closed cs) (hw : Whole (b :: m))
    (hadd : a = [] ∨ ∃ t, a = [⟨s, t⟩])
    (hexp : ∀ tokens bytes, Expected od tokens bytes →
      Expected expectation (a.map JsonEvent.token ++ tokens) (b :: bytes)) :
    Outcome (b :: m) s events (expectation :: cs) (.next ⟨m, s + 1, events ++ a, od, cs⟩) := by
  refine .next rfl (whole_of_cons hb hw) (.push ho hcl) (Nat.le_succ _) ?_ ?_ ?_
  · rw [length_cons]
    dsimp only
    omega
  · exact hadd.imp id fun ⟨t, htok⟩ => ⟨t, htok, Nat.lt_succ_self _⟩
  · exact fun tokens h => @Completes.front expectation od cs
      (a.map JsonEvent.token) tokens [b] m h hexp

theorem closed_below (he : expectation ≠ .done) (h : Closed (expectation :: cs)) : Closed cs := by
  cases h with
  | done => exact absurd rfl he
  | push _ h => exact h

/-- The string that a body spells is scanned to its closing quote. -/
theorem scanString_string {v : String} (hb : Body v b) (more : Text)
    (s : Nat) : scanString (b ++ 34 :: more) (s + 1) [] =
        some (.scanned v (s + (34 :: (b ++ [34]) : Text).length)) ∧
      (34 :: (b ++ 34 :: more)).drop (s + (34 :: (b ++ [34]) : Text).length - s) =
        more := by
  have hsh : 34 :: (b ++ 34 :: more) = 34 :: (b ++ [34]) ++ more := by simp
  have hs := scanString_body hb more (s + 1) []
  rw [flatMap_nil, nil_append, String.ofList_toList] at hs
  refine ⟨?_, ?_⟩
  · rw [hs, length_cons, length_append, length_singleton]
    congr 2
    omega
  · rw [Nat.add_sub_cancel_left, hsh, drop_left]

/-- A string's scan, as a step. -/
theorem scanString_outcome {mo : Text} (s : Nat) (hw : Whole (34 :: mo)) :
    (∃ p m, scanString mo (s + 1) [] = some (.rejected p m) ∧ p ≤ s + (34 :: mo : Text).length) ∨
    ∃ v b tail, mo = b ++ 34 :: tail ∧ Body v b ∧ Whole tail := by
  rcases scanString_spec (whole_of_cons (by decide) hw) (s + 1) [] with
    ⟨p, m, hs, hp⟩ | ⟨cs, b, tail, hm, hb, ht⟩
  · refine Or.inl ⟨p, m, hs, ?_⟩
    rw [length_cons]
    omega
  · refine Or.inr ⟨String.ofList cs, b, tail, hm, ?_, ht⟩
    rw [Body, String.toList_ofList]
    exact hb

variable {m : Text}

theorem stepKey_outcome {s : Nat}
    (he : expectation = .objectKeyFirst ∨ expectation = .objectKeyNext)
    (hcl : Closed cs) (hw : Whole (34 :: m)) :
    Outcome (34 :: m) s events (expectation :: cs) (stepKey (34 :: m) s events cs) := by
  unfold stepKey
  rw [drop_succ_cons, drop_zero]
  rcases scanString_outcome s hw with
    ⟨p, msg, hs, hp⟩ | ⟨v, bo, t, rfl, hb, ht⟩
  · rw [hs]
    exact .error hp
  · obtain ⟨hs, hd⟩ := scanString_string hb t s
    rw [hs]
    dsimp only
    rw [hd]
    refine .next rfl ht (.push ParseExpectation.noConfusion hcl) (Nat.le_add_right _ _) ?_
      (Or.inr ⟨_, rfl, Nat.lt_add_of_pos_right (by simp)⟩) ?_
    · simp only [length_cons, length_append, length_nil]
      omega
    · rintro tokens ⟨first, fr, os, b, rfl, hr, hfst, hbe⟩
      refine ⟨.key v :: first, 34 :: (bo ++ 34 :: fr), os, b, rfl, ?_,
        expected_members he hb hfst, hbe⟩
      simp [show t = fr ++ b from hr]

theorem stepLiteral_outcome {r p : Text} {s : Nat} {events : List JsonEvent}
    {cs : List ParseExpectation} {t : JsonToken} {m : String}
    (hcl : Closed (.value :: cs)) (hw : Whole r)
    (hp : r.take p.length = p) (hpos : 0 < p.length)
    (ha : ∀ b ∈ p, b.toNat < 128) (hexp : Expected .value [t] p) :
    Outcome r s events (.value :: cs) (stepLiteral r s events cs p.length t m) := by
  have hr : r = p ++ r.drop p.length := by
    conv_lhs => rw [← take_append_drop p.length r, hp]
  unfold stepLiteral
  split
  · refine outcome_resume (by decide) hcl hr hpos ?_ hexp
    rw [hr] at hw
    exact whole_of_append ha hw
  · refine .error ?_
    rw [hr, length_append]
    omega

/-- **A value that starts here is taken or opened.** -/
theorem stepValue_outcome {s : Nat} (hcl : Closed (.value :: cs)) (hw : Whole r) :
    Outcome r s events (.value :: cs) (stepValue r s events cs) := by
  have hbe := closed_below (by decide) hcl
  have hb : ∀ {v : Json} {bytes : Text}, Spells Body (.value v) bytes →
      Expected .value (valueTokens v) bytes := @fun _ _ h => @Expected.value _ [] _ blank_nil h
  cases r with
  | nil => exact .error (Nat.le_add_right _ _)
  | cons b m =>
    unfold stepValue
    dsimp only
    by_cases hbr : b = 123
    · subst hbr
      rw [if_pos rfl]
      exact outcome_open (by decide) (by decide) hbe hw (Or.inr ⟨_, rfl⟩)
        fun tokens bytes h => expected_object h
    rw [if_neg hbr]
    by_cases hbra : b = 91
    · subst hbra
      rw [if_pos rfl]
      exact outcome_open (by decide) (by decide) hbe hw (Or.inr ⟨_, rfl⟩)
        fun tokens bytes h => expected_array h
    rw [if_neg hbra]
    by_cases hq : b = 34
    · subst hq
      rw [if_pos rfl]
      rcases scanString_outcome s hw with
        ⟨p, msg, hs, hp⟩ | ⟨v, bo, tail, rfl, hbo, hta⟩
      · rw [hs]
        exact .error hp
      · obtain ⟨hs, hd⟩ := scanString_string hbo tail s
        rw [hs]
        dsimp only
        rw [hd]
        exact outcome_resume (by decide) hcl (by simp) (by simp) hta (hb (.string hbo))
    rw [if_neg hq]
    by_cases hnum : b = 45 ∨ decimalDigit b = true
    · rw [if_pos hnum]
      rcases scanNumber_spec (b :: m) s with
        ⟨p, msg, hs, hp⟩ | ⟨bytes, tail, hm, hbs, hs⟩
      · rw [hs]
        exact .error hp
      · obtain ⟨lx, rfl, hl⟩ := scannedNumber_eq hbs s
        have hd : (b :: m).drop (s + (Utf8.encode lx).length - s) = tail := by
          rw [Nat.add_sub_cancel_left, hm, drop_left]
        have hpos : 0 < (Utf8.encode lx).length := by
          have := lt_scanNumber (hs.trans hl)
          omega
        rw [hs, hl]
        dsimp only
        rw [hd]
        refine outcome_resume (by decide) hcl hm hpos ?_ (hb (.number ⟨lx, hbs⟩))
        rw [hm] at hw
        exact whole_of_append (number_ascii hbs) hw
    rw [if_neg hnum]
    by_cases ht : (b :: m).take 4 = [116, 114, 117, 101]
    · rw [if_pos ht]
      exact @stepLiteral_outcome _ [116, 114, 117, 101] _ _ _ _ _ hcl hw ht (by decide)
        (all_iff_forall_prop.mp (by decide)) (hb .true)
    rw [if_neg ht]
    by_cases hf : (b :: m).take 5 = [102, 97, 108, 115, 101]
    · rw [if_pos hf]
      exact @stepLiteral_outcome _ [102, 97, 108, 115, 101] _ _ _ _ _ hcl hw hf
        (by decide) (all_iff_forall_prop.mp (by decide)) (hb .false)
    rw [if_neg hf]
    by_cases hn : (b :: m).take 4 = [110, 117, 108, 108]
    · rw [if_pos hn]
      exact @stepLiteral_outcome _ [110, 117, 108, 108] _ _ _ _ _ hcl hw hn (by decide)
        (all_iff_forall_prop.mp (by decide)) (hb .null)
    · rw [if_neg hn]
      exact .error (Nat.le_add_right _ _)

/-- The value of an array is announced, with its comma behind it. -/
theorem outcome_item {s : Nat}
    (he : expectation = .arrayValueFirst ∨ expectation = .arrayValueNext)
    (hcl : Closed cs) (hw : Whole r) :
    Outcome r s events (expectation :: cs)
      (.next ⟨r, s, events, .value, .arrayCommaOrEnd :: cs⟩) := by
  refine .next (append_nil _).symm hw
    (.push ParseExpectation.noConfusion (.push ParseExpectation.noConfusion hcl))
    (Nat.le_refl _) rfl (Or.inl rfl) ?_
  exact fun tokens h => completes_items he h

variable {od : ParseExpectation}

theorem outcome_comma {s : Nat}
    (ho : od ≠ .done) (hcl : Closed cs) (hw : Whole (44 :: m))
    (hexp : ∀ tokens bytes, Expected od tokens bytes → Expected expectation tokens (44 :: bytes)) :
    Outcome (44 :: m) s events (expectation :: cs) (.next ⟨m, s + 1, events, od, cs⟩) := by
  have hout := @outcome_open 44 m s events [] expectation od cs
    (by decide) ho hcl hw (Or.inl rfl) hexp
  rw [append_nil] at hout
  exact hout

/-- The value of a member is announced behind its colon, with its comma behind it. -/
theorem outcome_colon {s : Nat} (hcl : Closed cs) (hw : Whole (58 :: m)) :
    Outcome (58 :: m) s events (.colon :: cs)
      (.next ⟨m, s + 1, events, .value, .objectCommaOrEnd :: cs⟩) := by
  refine .next (append_nil _).symm (whole_of_cons (by decide) hw)
    (.push ParseExpectation.noConfusion (.push ParseExpectation.noConfusion hcl))
    (Nat.le_succ _) ?_ (Or.inl rfl) ?_
  · rw [length_cons]
    dsimp only
    omega
  · exact fun tokens h => completes_colon h

/-- **What one step, past the blanks, may come to.** -/
theorem stepPast_outcome {r : Text} {s : Nat} {events : List JsonEvent}
    {expectation : ParseExpectation} {cs : List ParseExpectation}
    (hcl : Closed (expectation :: cs)) (hw : Whole r) :
    Outcome r s events (expectation :: cs) (stepPast r s events expectation cs) := by
  have herr : ∀ {msg : String} {st : List ParseExpectation},
      Outcome r s events st (.done (.error s msg)) :=
    .error (Nat.le_add_right _ _)
  cases expectation with
  | value => exact stepValue_outcome hcl hw
  | objectKeyFirst =>
    have hb := closed_below (by decide) hcl
    unfold stepPast
    cases r with
    | nil => exact herr
    | cons b m =>
      dsimp only
      by_cases hend : b = 125
      · subst hend
        rw [if_pos rfl]
        exact @outcome_resume _ [125] _ _ _ _ _ _ (by decide) hcl rfl (by decide)
          (whole_of_cons (by decide) hw) (.objectEnd (Or.inl rfl) blank_nil)
      rw [if_neg hend]
      by_cases hq : b = 34
      · subst hq
        rw [if_pos rfl]
        exact stepKey_outcome (Or.inl rfl) hb hw
      · rw [if_neg hq]
        exact herr
  | objectKeyNext =>
    have hb := closed_below (by decide) hcl
    unfold stepPast
    dsimp only
    by_cases hq : r.head? = some 34
    · obtain ⟨m, rfl⟩ := head?_eq_some_iff.mp hq
      rw [if_pos hq]
      exact stepKey_outcome (Or.inr rfl) hb hw
    · rw [if_neg hq]
      exact herr
  | colon =>
    have hb := closed_below (by decide) hcl
    unfold stepPast
    dsimp only
    by_cases hcol : r.head? = some 58
    · obtain ⟨m, rfl⟩ := head?_eq_some_iff.mp hcol
      rw [if_pos hcol]
      exact outcome_colon hb hw
    · rw [if_neg hcol]
      exact herr
  | objectCommaOrEnd =>
    have hb := closed_below (by decide) hcl
    unfold stepPast
    cases r with
    | nil => exact herr
    | cons b m =>
      dsimp only
      by_cases hc : b = 44
      · subst hc
        rw [if_pos rfl]
        exact outcome_comma (by decide) hb hw fun tokens bytes h =>
          expected_objectComma h
      rw [if_neg hc]
      by_cases hend : b = 125
      · subst hend
        rw [if_pos rfl]
        exact @outcome_resume _ [125] _ _ _ _ _ _ (by decide) hcl rfl (by decide)
          (whole_of_cons (by decide) hw) (.objectEnd (Or.inr rfl) blank_nil)
      · rw [if_neg hend]
        exact herr
  | arrayValueFirst =>
    have hb := closed_below (by decide) hcl
    unfold stepPast
    dsimp only
    by_cases hend : r.head? = some 93
    · obtain ⟨m, rfl⟩ := head?_eq_some_iff.mp hend
      rw [if_pos hend]
      exact @outcome_resume _ [93] _ _ _ _ _ _ (by decide) hcl rfl (by decide)
        (whole_of_cons (by decide) hw) (.arrayEnd (Or.inl rfl) blank_nil)
    · rw [if_neg hend]
      exact outcome_item (Or.inl rfl) hb hw
  | arrayValueNext => exact outcome_item (Or.inr rfl) (closed_below (by decide) hcl) hw
  | arrayCommaOrEnd =>
    have hb := closed_below (by decide) hcl
    unfold stepPast
    cases r with
    | nil => exact herr
    | cons b m =>
      dsimp only
      by_cases hc : b = 44
      · subst hc
        rw [if_pos rfl]
        exact outcome_comma (by decide) hb hw fun tokens bytes h =>
          expected_arrayComma h
      rw [if_neg hc]
      by_cases hend : b = 93
      · subst hend
        rw [if_pos rfl]
        exact @outcome_resume _ [93] _ _ _ _ _ _ (by decide) hcl rfl (by decide)
          (whole_of_cons (by decide) hw) (.arrayEnd (Or.inr rfl) blank_nil)
      · rw [if_neg hend]
        exact herr
  | done =>
    unfold stepPast
    cases r with
    | nil =>
      cases hcl with
      | done => exact .decoded rfl rfl
      | push he => exact absurd rfl he
    | cons b m => exact herr

/-! ### The run -/

/-- Events that start one behind the other, none before `low`. -/
def Ascends (low : Nat) (events : List JsonEvent) : Prop :=
  (∀ event ∈ events, low ≤ event.offset) ∧
    events.Pairwise fun first second => first.offset < second.offset

theorem ascends_append {low s m : Nat} {a mo : List JsonEvent} (hlow : low ≤ s) (hmid : s ≤ m)
    (hadd : a = [] ∨ ∃ t, a = [⟨s, t⟩] ∧ s < m)
    (hm : Ascends m mo) : Ascends low (a ++ mo) := by
  rcases hadd with rfl | ⟨t, rfl, hlt⟩
  · exact ⟨fun ev h => Nat.le_trans (Nat.le_trans hlow hmid) (hm.1 ev h), hm.2⟩
  · refine ⟨?_, ?_⟩
    · intro ev hev
      rcases mem_cons.mp hev with rfl | hev
      · exact hlow
      · exact Nat.le_trans (Nat.le_trans hlow hmid) (hm.1 ev hev)
    · exact pairwise_cons.mpr ⟨fun ev hev => Nat.lt_of_lt_of_le hlt (hm.1 ev hev), hm.2⟩

variable {pa r' : Text} {s : DecodeState} {e' : ParseExpectation}
  {b' : List ParseExpectation}

theorem skipWhitespace_append (hpre : Blank b)
    (hp : ∀ byt ∈ pa.head?, blank byt = false) : skipWhitespace (b ++ pa) = pa := by
  have hall : ∀ byt ∈ b, asciiWhitespace byt = true := hpre
  rw [skipWhitespace, dropWhile_append_of_pos hall]
  cases pa with
  | nil => rfl
  | cons byt pa =>
    have hb : asciiWhitespace byt = false := hp byt rfl
    rw [dropWhile_cons_of_neg (by rw [hb]; exact Bool.false_ne_true)]

/-- Any text is blanks and what is behind them. -/
theorem blank_split (r : Text) : ∃ b pa, r = b ++ pa ∧ Blank b ∧
      ∀ byt ∈ pa.head?, blank byt = false := by
  refine ⟨r.takeWhile asciiWhitespace, r.dropWhile asciiWhitespace,
    (takeWhile_append_dropWhile).symm, all_eq_true.mp all_takeWhile, ?_⟩
  intro byt hb
  have hh := head?_dropWhile_not asciiWhitespace r
  rw [hb] at hh
  have hnot : asciiWhitespace byt = false := by simpa using hh
  exact hnot

theorem blank_ascii (h : Blank bytes) : ∀ b ∈ bytes, b.toNat < 128 := by
  intro b hby
  have hb := h b hby
  simp only [blank, Bool.or_eq_true, beq_iff_eq] at hb
  rcases hb with ((rfl | rfl) | rfl) | rfl
  · decide
  · decide
  · decide
  · decide

theorem decodeStep_append {b pa : Text} {off : Nat} {events : List JsonEvent}
    {expectation : ParseExpectation} {cs : List ParseExpectation}
    (hpre : Blank b) (hp : ∀ byt ∈ pa.head?, blank byt = false) :
    decodeStep ⟨b ++ pa, off, events, expectation, cs⟩ =
      stepPast pa (off + b.length) events expectation cs := by
  unfold decodeStep
  dsimp only
  rw [skipWhitespace_append hpre hp, length_append, Nat.add_sub_cancel]

theorem decodeFrom_next {next : DecodeState} (h : decodeStep s = .next next) :
    decodeFrom s = decodeFrom next := by
  rw [decodeFrom]
  split
  · next heq => rw [DecodeStep.next.inj (h.symm.trans heq)]
  · next heq => exact absurd (h.symm.trans heq) DecodeStep.noConfusion
  · next heq => exact absurd (h.symm.trans heq) DecodeStep.noConfusion

theorem decodeFrom_done {result : JsonDecodeResult} (h : decodeStep s = .done result) :
    decodeFrom s = some result := by
  rw [decodeFrom]
  split
  · next heq => exact absurd (h.symm.trans heq) DecodeStep.noConfusion
  · next heq => rw [DecodeStep.done.inj (h.symm.trans heq)]
  · next heq => exact absurd (h.symm.trans heq) DecodeStep.noConfusion

/-- **The decoder stops: with an error where the text still is, or with the events of what
completes its stack.** -/
theorem decodeFrom_spec {s : DecodeState}
    (hcl : Closed (s.expectation :: s.continuations)) (hw : Whole s.rest) :
    (∃ p m, decodeFrom s = some (.error p m) ∧ p ≤ s.offset + s.rest.length) ∨
    ∃ mo, decodeFrom s = some (.decoded (s.events ++ mo)) ∧
      Completes (s.expectation :: s.continuations) (mo.map JsonEvent.token)
        s.rest ∧ Ascends s.offset mo := by
  induction hsize : s.size using Nat.strongRecOn generalizing s with
  | ind n ih =>
    subst hsize
    obtain ⟨r, off, events, expectation, cs⟩ := s
    obtain ⟨b, pa, rfl, hpre, hpa⟩ := blank_split r
    have hst := @decodeStep_append _ _ off events expectation cs hpre hpa
    have hpw : Whole pa := whole_of_append (blank_ascii hpre) hw
    have hout := @stepPast_outcome pa (off + b.length) events _ _ hcl hpw
    dsimp only at hcl hw ⊢
    have hlen : (b ++ pa).length = b.length + pa.length := length_append
    rw [← hst] at hout
    cases hc : decodeStep ⟨b ++ pa, off, events, expectation, cs⟩ with
    | trap =>
      rw [hc] at hout
      cases hout
    | done res =>
      rw [hc] at hout
      rw [decodeFrom_done hc]
      cases hout with
      | error hp => exact Or.inl ⟨_, _, rfl, by omega⟩
      | decoded hs hr =>
        subst hr
        refine Or.inr ⟨[], by rw [append_nil], ?_, forall_mem_nil _, .nil⟩
        rw [hs]
        exact ⟨[], b, [], [], rfl, rfl, .done hpre, rfl, rfl⟩
    | next next =>
      rw [hc] at hout
      cases hout with
      | next hevs hnw hnc hlow hend hadd hco =>
        rw [decodeFrom_next hc]
        rcases ih next.size (decodeStep_next hc) hnc hnw rfl with
          ⟨p, m, hres, hp⟩ | ⟨mo, hres, hm, ha⟩
        · exact Or.inl ⟨p, m, hres, by omega⟩
        · rename_i a
          refine Or.inr ⟨a ++ mo, ?_, ?_, ?_⟩
          · rw [hres, hevs, append_assoc]
          · rw [map_append]
            exact (hco _ hm).blank hpre (cons_ne_nil _ _)
          · exact ascends_append (Nat.le_add_right _ _) hlow hadd ha

/-! ### Following a derivation -/

/-- From anywhere, the decoder comes from one place to another with these tokens. -/
def Follows (rest : Text) (expectation : ParseExpectation) (below : List ParseExpectation)
    (tokens : List JsonToken) (rest' : Text) (expectation' : ParseExpectation)
    (below' : List ParseExpectation) : Prop :=
  ∀ offset events, ∃ offset' more, more.map JsonEvent.token = tokens ∧
    decodeFrom ⟨rest, offset, events, expectation, below⟩ =
      decodeFrom ⟨rest', offset', events ++ more, expectation', below'⟩

theorem Follows.trans {rest rest'' : Text} {e'' : ParseExpectation}
    {below'' : List ParseExpectation} {tokens' : List JsonToken}
    (h : Follows rest e below tokens r' e' b')
    (h' : Follows r' e' b' tokens' rest'' e'' below'') :
    Follows rest e below (tokens ++ tokens') rest'' e'' below'' := by
  intro offset events
  obtain ⟨offset', more, rfl, hrun⟩ := h offset events
  obtain ⟨offset'', more', rfl, hrun'⟩ := h' offset' (events ++ more)
  exact ⟨offset'', more ++ more', map_append, by rw [hrun, hrun', append_assoc]⟩

/-- One step past the blanks. -/
theorem follows_step (hpre : Blank b) (hp : ∀ byt ∈ pa.head?, blank byt = false)
    (hs : ∀ s events, ∃ off' m, m.map JsonEvent.token = tokens ∧
      stepPast pa s events e below = .next ⟨r', off', events ++ m, e', b'⟩) :
    Follows (b ++ pa) e below tokens r' e' b' := by
  intro off events
  obtain ⟨off', m, ht, hn⟩ := hs (off + b.length) events
  refine ⟨off', m, ht, decodeFrom_next ?_⟩
  rw [decodeStep_append hpre hp, hn]

theorem head_nonblank {b : UInt8} (h : blank b = false) :
    ∀ o ∈ (b :: pa).head?, blank o = false := by
  intro o ho
  obtain rfl := Option.some.inj ho
  exact h

/-- What may stand behind a value. -/
def Delimited (more : Text) : Prop := ∀ byte ∈ more.head?, valueDelimiter byte = true

theorem delimited_nil : Delimited [] := fun b h => absurd h (by simp)

/-- Blanks and then a comma or an end. -/
theorem delimited_append {before more : Text} (hpre : Blank before) (hmore : Delimited more) :
    Delimited (before ++ more) := by
  cases before with
  | nil => exact hmore
  | cons first before =>
    intro byte hbyte
    obtain rfl := Option.some.inj hbyte
    have hfst : asciiWhitespace first = true := hpre first mem_cons_self
    rw [valueDelimiter, hfst]
    rfl

theorem delimiter_cases {b : UInt8} (h : valueDelimiter b = true) :
    decimalDigit b = false ∧ b ≠ 46 ∧ b ≠ 101 ∧ b ≠ 69 := by
  simp only [valueDelimiter, asciiWhitespace, Bool.or_eq_true, beq_iff_eq] at h
  rcases h with (((((rfl | rfl) | rfl) | rfl) | rfl) | rfl) | rfl
  all_goals decide

/-- A comma or an end behind blanks. -/
theorem delimited_cons {b m : Text} {byt : UInt8} (hpre : Blank b)
    (hb : valueDelimiter byt = true) : Delimited (b ++ byt :: m) := by
  refine delimited_append hpre fun o ho => ?_
  obtain rfl := Option.some.inj ho
  exact hb

theorem tokenEnds_eq (h : Delimited m) : tokenEnds m = true := by
  cases m with
  | nil => rfl
  | cons b m => exact h b rfl

variable {v : Json}

/-- The first byte of a value is no blank, and ends no array. -/
theorem spells_head (h : Spells Body (.value v) bytes) :
    ∃ first m, bytes = first :: m ∧ blank first = false ∧ first ≠ 93 := by
  cases h with
  | null | true | false | string hbo | emptyArray hinn | array h | emptyObject hinn | object h =>
    exact ⟨_, _, rfl, rfl, by decide⟩
  | number lx =>
    obtain ⟨s, i, fr, ex, hs, hint, -, -, heq⟩ := lx.number
    rw [heq]
    rcases hs with rfl | rfl
    · cases hint with
      | zero => exact ⟨_, _, rfl, rfl, by decide⟩
      | other hlow hh hd =>
        rename_i first ds
        refine ⟨_, _, rfl, ?_, ?_⟩
        · cases hb : blank first with
          | false => rfl
          | true =>
            simp only [blank, Bool.or_eq_true, beq_iff_eq] at hb
            rcases hb with ((rfl | rfl) | rfl) | rfl
            all_goals exact absurd hlow (by decide)
        · rintro rfl
          simp at hh
    · exact ⟨_, _, rfl, rfl, by decide⟩

theorem stepLiteral_delimited {p mo : Text} {s : Nat} {events : List JsonEvent}
    {e : ParseExpectation} {below : List ParseExpectation} {t : JsonToken} {m : String}
    (hm : Delimited mo) :
    stepLiteral (p ++ mo) s events (e :: below) p.length t m =
      .next ⟨mo, s + p.length, events ++ [⟨s, t⟩], e, below⟩ := by
  unfold stepLiteral
  rw [drop_left, tokenEnds_eq hm, if_pos rfl]
  rfl

/-- The end of an array or an object. -/
theorem follows_end {b r : Text} {e e' : ParseExpectation}
    {below : List ParseExpectation} (hpre : Blank b) {byt : UInt8} {t : JsonToken}
    (h : (byt = 93 ∧ t = .arrayEnd ∧ (e = .arrayValueFirst ∨ e = .arrayCommaOrEnd)) ∨
      (byt = 125 ∧ t = .objectEnd ∧ (e = .objectKeyFirst ∨ e = .objectCommaOrEnd))) :
    Follows (b ++ byt :: r) e (e' :: below) [t] r e' below := by
  refine follows_step hpre (head_nonblank ?_) fun s events =>
    ⟨s + 1, [⟨s, t⟩], rfl, ?_⟩
  · rcases h with ⟨rfl, -⟩ | ⟨rfl, -⟩
    · rfl
    · rfl
  · rcases h with ⟨rfl, rfl, rfl | rfl⟩ | ⟨rfl, rfl, rfl | rfl⟩
    · rfl
    · rfl
    · rfl
    · rfl

/-- A comma. -/
theorem follows_comma {b r : Text} {e e' : ParseExpectation}
    {below : List ParseExpectation} (hpre : Blank b)
    (h : (e = .arrayCommaOrEnd ∧ e' = .arrayValueNext) ∨
      (e = .objectCommaOrEnd ∧ e' = .objectKeyNext)) :
    Follows (b ++ 44 :: r) e below [] r e' below := by
  refine follows_step hpre (head_nonblank rfl) fun s events => ⟨s + 1, [], rfl, ?_⟩
  rw [append_nil]
  rcases h with ⟨rfl, rfl⟩ | ⟨rfl, rfl⟩
  · rfl
  · rfl

/-- A key and its colon. -/
theorem follows_key {key : String} {b bo m r : Text} {e : ParseExpectation}
    {below : List ParseExpectation} (hpre : Blank b) (hb : Body key bo)
    (hmid : Blank m) (he : e = .objectKeyFirst ∨ e = .objectKeyNext) :
    Follows (b ++ 34 :: (bo ++ 34 :: (m ++ 58 :: r))) e below [.key key] r .value
      (.objectCommaOrEnd :: below) := by
  have hkey : Follows (b ++ 34 :: (bo ++ 34 :: (m ++ 58 :: r))) e below [.key key]
      (m ++ 58 :: r) .colon below := by
    refine follows_step hpre (head_nonblank rfl) fun s events =>
      ⟨s + (34 :: (bo ++ [34]) : Text).length, [⟨s, .key key⟩], rfl, ?_⟩
    obtain ⟨hs, hd⟩ := scanString_string hb (m ++ 58 :: r) s
    have hst : stepPast (34 :: (bo ++ 34 :: (m ++ 58 :: r))) s events e below =
        stepKey (34 :: (bo ++ 34 :: (m ++ 58 :: r))) s events below := by
      rcases he with rfl | rfl
      · rfl
      · rfl
    rw [hst]
    unfold stepKey
    rw [drop_succ_cons, drop_zero, hs]
    dsimp only
    rw [hd]
  have hcol : Follows (m ++ 58 :: r) .colon below [] r .value (.objectCommaOrEnd :: below) :=
    follows_step hmid (head_nonblank rfl) fun s events =>
      ⟨s + 1, [], rfl, by rw [append_nil]; rfl⟩
  exact hkey.trans hcol

/-- The first byte of a number. -/
theorem number_head (h : Number bytes) :
    ∃ first m, bytes = first :: m ∧ (first = 45 ∨ decimalDigit first = true) := by
  obtain ⟨s, i, fr, ex, hs, hint, -, -, rfl⟩ := h
  rcases hs with rfl | rfl
  · cases hint with
    | zero => exact ⟨_, _, rfl, Or.inr (by decide)⟩
    | other hlow hh hd =>
      refine ⟨_, _, rfl, Or.inr ?_⟩
      rw [decimalDigit, decide_eq_true hh, Bool.and_true]
      exact decide_eq_true (UInt8.le_trans (by decide) hlow)
  · exact ⟨_, _, rfl, Or.inl rfl⟩

theorem stepValue_number {lx : NumberLexeme} {more : Text} {s : Nat} (hm : Delimited more) :
    stepValue (Utf8.encode lx.text ++ more) s events (e :: below) =
      .next ⟨more, s + (Utf8.encode lx.text).length,
        events ++ [⟨s, .number lx.text⟩], e, below⟩ := by
  have hdig : NoDigit more := fun b hb => (delimiter_cases (hm b hb)).1
  have hp : NoPoint more := fun heq => (delimiter_cases (hm 46 heq)).2.1 rfl
  have hexp : NoExponent more := fun b hb => (delimiter_cases (hm b hb)).2.2
  have hs := scanNumber_number lx.number hdig hp hexp s
  obtain ⟨t, ht, hsc⟩ := scannedNumber_eq lx.number s
  obtain rfl := Utf8.encode_injective ht
  obtain ⟨first, ds, hfst, hnum⟩ := number_head lx.number
  have hd : (Utf8.encode lx.text ++ more).drop (s + (Utf8.encode lx.text).length - s) = more := by
    rw [Nat.add_sub_cancel_left, drop_left]
  rw [hsc] at hs
  generalize hwd : (Utf8.encode lx.text).length = width at *
  generalize Utf8.encode lx.text = bytes at *
  subst hfst
  have hn : first ≠ 123 ∧ first ≠ 91 ∧ first ≠ 34 := by
    rcases hnum with rfl | hnum
    · exact ⟨by decide, by decide, by decide⟩
    · refine ⟨?_, ?_, ?_⟩
      all_goals rintro rfl; exact absurd hnum (by decide)
  rw [cons_append] at hs hd ⊢
  unfold stepValue
  dsimp only
  rw [if_neg hn.1, if_neg hn.2.1, if_neg hn.2.2, if_pos hnum, hs]
  dsimp only
  rw [hd]
  rfl

theorem stepValue_string {v : String} {b m : Text} {s : Nat}
    (hb : Body v b) : stepValue (34 :: (b ++ [34]) ++ m) s events (e :: below) =
      .next ⟨m, s + (34 :: (b ++ [34]) : Text).length, events ++ [⟨s, .string v⟩], e, below⟩ := by
  obtain ⟨hs, hd⟩ := scanString_string hb m s
  rw [cons_append, append_assoc, singleton_append]
  unfold stepValue
  dsimp only
  rw [if_neg (by decide), if_neg (by decide), if_pos rfl, hs]
  dsimp only
  rw [hd]
  rfl

/-- What the decoder does on what spells a form. -/
def Followed : Form → Text → Prop
  | .value value, bytes => ∀ before more e below, Blank before → Delimited more →
      Follows (before ++ (bytes ++ more)) .value (e :: below) (valueTokens value) more e below
  | .items items, inner => ∀ opened more e below,
      opened = .arrayValueFirst ∨ opened = .arrayValueNext →
        Follows (inner ++ 93 :: more) opened (e :: below) (itemsTokens items ++ [.arrayEnd]) more e
          below
  | .members members, inner => ∀ opened more e below,
      opened = .objectKeyFirst ∨ opened = .objectKeyNext →
        Follows (inner ++ 125 :: more) opened (e :: below) (membersTokens members ++ [.objectEnd])
          more e below

variable {t : JsonToken}

/-- A value of one event. -/
theorem followed_single
    (hbs : Spells Body (.value v) bytes) (ht : valueTokens v = [t])
    (hs : ∀ m s events e below, Delimited m → stepValue (bytes ++ m) s events (e :: below) =
        .next ⟨m, s + bytes.length, events ++ [⟨s, t⟩], e, below⟩) :
    Followed (.value v) bytes := by
  intro b m e below hpre hm
  rw [ht]
  refine follows_step hpre ?_ fun s events =>
    ⟨_, [⟨s, t⟩], rfl, hs m s events e below hm⟩
  obtain ⟨first, r, rfl, hb, -⟩ := spells_head hbs
  exact head_nonblank hb

/-- The item of an array is announced. -/
theorem follows_item {b m : Text} (hpre : Blank b)
    (h : Spells Body (.value v) bytes) (he : e = .arrayValueFirst ∨ e = .arrayValueNext) :
    Follows (b ++ (bytes ++ m)) e below [] (bytes ++ m) .value (.arrayCommaOrEnd :: below) := by
  obtain ⟨first, r, rfl, hb, hbr⟩ := spells_head h
  refine follows_step hpre (head_nonblank hb) fun s events => ⟨s, [], rfl, ?_⟩
  rw [append_nil]
  rcases he with rfl | rfl
  · unfold stepPast
    dsimp only
    rw [if_neg]
    rw [cons_append, head?_cons]
    exact fun heq => hbr (Option.some.inj heq)
  · rfl

/-- A bracket or a brace opens what is behind it. -/
theorem follows_open {b r : Text} {e : ParseExpectation} {below : List ParseExpectation}
    (hpre : Blank b) {byt : UInt8}
    (h : (byt = 91 ∧ t = .arrayStart ∧ e = .arrayValueFirst) ∨
      (byt = 123 ∧ t = .objectStart ∧ e = .objectKeyFirst)) :
    Follows (b ++ byt :: r) .value below [t] r e below := by
  refine follows_step hpre (head_nonblank ?_) fun s events =>
    ⟨s + 1, [⟨s, t⟩], rfl, ?_⟩
  · rcases h with ⟨rfl, -⟩ | ⟨rfl, -⟩
    · rfl
    · rfl
  · rcases h with ⟨rfl, rfl, rfl⟩ | ⟨rfl, rfl, rfl⟩
    · rfl
    · rfl

/-- A bracket or a brace, what is behind it and its end. -/
theorem followed_open {b c : UInt8}
   
    (h : (b = 91 ∧ t = .arrayStart ∧ od = .arrayValueFirst) ∨
      (b = 123 ∧ t = .objectStart ∧ od = .objectKeyFirst))
    (ht : valueTokens v = t :: tokens)
    (hinn : ∀ m e below, Follows (i ++ c :: m) od (e :: below) tokens m e below) :
    Followed (.value v) (b :: (i ++ [c])) := by
  intro pre m e below hpre _
  have hall := (follows_open hpre h).trans (hinn m e below)
  simpa [ht] using hall

/-- **The decoder follows every derivation of the grammar.** -/
theorem followed {f : Form} (h : Spells Body f bytes) : Followed f bytes := by
  induction h with
  | null =>
    exact followed_single .null rfl fun m s events e below hm =>
      @stepLiteral_delimited [110, 117, 108, 108] m s events e below _ _ hm
  | true =>
    exact followed_single .true rfl fun m s events e below hm =>
      @stepLiteral_delimited [116, 114, 117, 101] m s events e below _ _ hm
  | false =>
    exact followed_single .false rfl fun m s events e below hm =>
      @stepLiteral_delimited [102, 97, 108, 115, 101] m s events e below _ _ hm
  | number lx =>
    exact followed_single (.number lx) rfl fun m s events e below hm =>
      stepValue_number hm
  | string hb =>
    exact followed_single (.string hb) rfl fun m s events e below hm =>
      stepValue_string hb
  | emptyArray hinn =>
    exact followed_open (Or.inl ⟨rfl, rfl, rfl⟩) rfl fun m e below =>
      follows_end hinn (Or.inl ⟨rfl, rfl, Or.inl rfl⟩)
  | array h ih =>
    exact followed_open (Or.inl ⟨rfl, rfl, rfl⟩) rfl fun m e below =>
      ih .arrayValueFirst m e below (Or.inl rfl)
  | emptyObject hinn =>
    exact followed_open (Or.inr ⟨rfl, rfl, rfl⟩) rfl fun m e below =>
      follows_end hinn (Or.inr ⟨rfl, rfl, Or.inl rfl⟩)
  | object h ih =>
    exact followed_open (Or.inr ⟨rfl, rfl, rfl⟩) rfl fun m e below =>
      ih .objectKeyFirst m e below (Or.inl rfl)
  | item hpre hp h ih =>
    intro od m e below ho
    rename_i v b bytes a
    have hval := ih [] (a ++ 93 :: m) .arrayCommaOrEnd (e :: below) blank_nil
      (delimited_cons hp rfl)
    have hend := @follows_end a m .arrayCommaOrEnd e below hp 93 .arrayEnd
      (Or.inl ⟨rfl, rfl, Or.inr rfl⟩)
    have hall := (follows_item hpre h ho).trans (hval.trans hend)
    simp only [itemsTokens, append_nil, append_assoc, nil_append] at hall ⊢
    exact hall
  | items hpre hp h hm ih ihmore =>
    intro od m e below ho
    rename_i v vs b bytes a r
    have hval := ih [] (a ++ 44 :: (r ++ 93 :: m)) .arrayCommaOrEnd (e :: below) blank_nil
      (delimited_cons hp rfl)
    have hc := @follows_comma a (r ++ 93 :: m) .arrayCommaOrEnd .arrayValueNext
      (e :: below) hp (Or.inl ⟨rfl, rfl⟩)
    have hall := (follows_item hpre h ho).trans
      (hval.trans (hc.trans (ihmore _ m e below (Or.inr rfl))))
    simp only [itemsTokens, append_assoc, cons_append, nil_append] at hall ⊢
    exact hall
  | member hpre hb hmid hcol hp h ih =>
    intro od m e below ho
    rename_i key v b bo mid c bytes a
    have hkey := @follows_key key b bo mid (c ++ (bytes ++ (a ++ 125 :: m)))
      od (e :: below) hpre hb hmid ho
    have hval := ih c (a ++ 125 :: m) .objectCommaOrEnd (e :: below) hcol (delimited_cons hp rfl)
    have hend := @follows_end a m .objectCommaOrEnd e below hp 125 .objectEnd
      (Or.inr ⟨rfl, rfl, Or.inr rfl⟩)
    have hall := hkey.trans (hval.trans hend)
    simp only [membersTokens, append_nil, append_assoc, cons_append, nil_append] at hall ⊢
    exact hall
  | members hpre hb hmid hcol hp h hm ih ihmore =>
    intro od m e below ho
    rename_i key v os b bo mid c bytes a r
    have hkey := @follows_key key b bo mid
      (c ++ (bytes ++ (a ++ 44 :: (r ++ 125 :: m)))) od (e :: below) hpre
      hb hmid ho
    have hval := ih c (a ++ 44 :: (r ++ 125 :: m)) .objectCommaOrEnd (e :: below) hcol
      (delimited_cons hp rfl)
    have hc := @follows_comma a (r ++ 125 :: m) .objectCommaOrEnd .objectKeyNext
      (e :: below) hp (Or.inr ⟨rfl, rfl⟩)
    have hall := hkey.trans (hval.trans (hc.trans (ihmore _ m e below (Or.inr rfl))))
    simp only [membersTokens, append_assoc, cons_append, nil_append] at hall ⊢
    exact hall

/-- A text of the grammar is decoded to the tokens of its value. -/
theorem decode_jsonText {value : Json} {t : String} (h : JsonText Body value (Utf8.encode t)) :
    ∃ events, decode t = some (.decoded events) ∧
      events.map JsonEvent.token = valueTokens value := by
  obtain ⟨b, bytes, a, hpre, hbs, hp, ht⟩ := h
  obtain ⟨off, events, hto, hrun⟩ := followed hbs b a .done [] hpre
    (by simpa using delimited_append hp delimited_nil) 0 []
  refine ⟨events, ?_, hto⟩
  have hl := @decodeStep_append a [] off events .done [] hp fun byt hb =>
    absurd hb (by simp)
  rw [append_nil] at hl
  rw [decode, ht, hrun, nil_append]
  exact decodeFrom_done hl

/-- Behind the value of a text there is nothing but blanks. -/
theorem jsonText_of_completes (h : Completes [.value, .done] tokens bytes) :
    ∃ value, JsonText Body value bytes ∧ tokens = valueTokens value := by
  obtain ⟨first, fr, _, _, rfl, rfl, hfst, os, bk, _, _, rfl, rfl, hl, rfl, rfl⟩ := h
  cases hfst with
  | items he' | arrayEnd he' | members he' | objectEnd he' => simp at he'
  | value hpre h =>
    cases hl with
    | items he' | arrayEnd he' | members he' | objectEnd he' => simp at he'
    | done hp =>
      rename_i value b bytes
      refine ⟨value, ⟨b, bytes, bk, hpre, h, hp, ?_⟩, ?_⟩
      · rw [append_nil, append_assoc]
      · rw [append_nil, append_nil]

/-- **What decoding any text comes to.** -/
theorem decode_cases (t : String) : (∃ p m, decode t = some (.error p m) ∧
      p ≤ (Utf8.encode t).length) ∨
    ∃ events v, decode t = some (.decoded events) ∧
      JsonText Body v (Utf8.encode t) ∧ events.map JsonEvent.token = valueTokens v ∧
      events.Pairwise fun first s => first.offset < s.offset := by
  rcases @decodeFrom_spec ⟨Utf8.encode t, 0, [], .value, [.done]⟩
    (.push ParseExpectation.noConfusion .done) (whole_encode t) with
    ⟨p, m, hres, hplace⟩ | ⟨events, hres, hcomp, hascends⟩
  · rw [Nat.zero_add] at hplace
    exact Or.inl ⟨p, m, hres, hplace⟩
  · obtain ⟨v, ht, hto⟩ := jsonText_of_completes hcomp
    exact Or.inr ⟨events, v, hres, ht, hto, hascends.2⟩

/-- **The decoder accepts a text if it is one value with blanks around it and its surrogates
come in pairs; the events are the value in order, and any other text is an error somewhere in
it.** -/
theorem decode_exact (text : String) : ((∃ events, decode text = some (.decoded events)) ↔
      ∃ value, JsonText Body value (Utf8.encode text)) ∧
    (∀ events, decode text = some (.decoded events) →
      events.Pairwise (fun first second => first.offset < second.offset) ∧
      ∃ value, JsonText Body value (Utf8.encode text) ∧
        events.map JsonEvent.token = valueTokens value) ∧
    (∀ value, JsonText Body value (Utf8.encode text) →
      ∃ events, decode text = some (.decoded events) ∧
        events.map JsonEvent.token = valueTokens value) ∧
    ((¬ ∃ value, JsonText Body value (Utf8.encode text)) →
      ∃ place message, decode text = some (.error place message) ∧
        place ≤ (Utf8.encode text).length) ∧
    decode text ≠ none := by
  have hb : ∀ value, JsonText Body value (Utf8.encode text) →
      ∃ events, decode text = some (.decoded events) ∧
        events.map JsonEvent.token = valueTokens value := fun value h => decode_jsonText h
  rcases decode_cases text with
    ⟨place, message, hres, hp⟩ | ⟨events, value, hres, ht, hto, ha⟩
  · have hnot : ¬ ∃ events, decode text = some (.decoded events) := by
      rintro ⟨events, hevs⟩
      exact absurd (hres.symm.trans hevs) (by simp)
    refine ⟨⟨fun h => absurd h hnot, ?_⟩, fun events h => absurd ⟨events, h⟩ hnot, hb,
      fun _ => ⟨place, message, hres, hp⟩, by rw [hres]; exact Option.some_ne_none _⟩
    rintro ⟨value, hval⟩
    exact (hb value hval).imp fun events h => h.1
  · refine ⟨⟨fun _ => ⟨value, ht⟩, fun _ => ⟨events, hres⟩⟩, ?_, hb,
      fun h => absurd ⟨value, ht⟩ h, by rw [hres]; exact Option.some_ne_none _⟩
    intro os hos
    obtain rfl := JsonDecodeResult.decoded.inj (Option.some.inj (hres.symm.trans hos))
    exact ⟨ha, value, ht, hto⟩

/-- Four digits that name a high surrogate are a string of the bare grammar, which the decoder
refuses. -/
theorem decode_unpaired :
    (∃ value, JsonText (fun _ bytes => AbnfBody bytes) value (Utf8.encode "\"\\ud800\"")) ∧
      ¬ ∃ events, decode "\"\\ud800\"" = some (.decoded events) := by
  have hbs : Utf8.encode "\"\\ud800\"" = [34, 92, 117, 100, 56, 48, 48, 34] := by rfl
  have hu : hexUnit 100 56 48 48 = some 55296 := by rfl
  have hs : Spells (fun _ bytes => AbnfBody bytes) (.value (.string ""))
      (34 :: ([92, 117, 100, 56, 48, 48] ++ [34])) := .string (AbnfBody.unicode hu .nil)
  refine ⟨⟨.string "", [], _, [], blank_nil, hs, blank_nil, hbs⟩, ?_⟩
  have herr : decode "\"\\ud800\"" =
      some (.error 1 "high surrogate is not followed by a low surrogate") := by
    rw [decode, hbs]
    refine decodeFrom_done ?_
    have hsc : scanString [92, 117, 100, 56, 48, 48, 34] 1 [] =
        some (.rejected 1 "high surrogate is not followed by a low surrogate") := by
      rw [scanString]
      rfl
    show stepValue [34, 92, 117, 100, 56, 48, 48, 34] 0 [] [.done] = _
    unfold stepValue
    dsimp only
    rw [if_neg (by decide), if_neg (by decide), if_pos rfl, hsc]
  rintro ⟨events, hevs⟩
  exact absurd (herr.symm.trans hevs) (by simp)

end Beagle.JsonCodec
