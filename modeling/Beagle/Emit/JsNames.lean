/-
Names in emitted JavaScript.

Punctuation is spelled out behind an underscore, authored underscores are doubled, and a reserved
word is marked with a dollar sign. A dash becomes a bare underscore, so two dashes come out as an
underscore does, and a dash before the letters of another spelling as that spelling.
-/
import Mathlib

namespace Beagle.JsNames

open List

/-- The characters of a name. -/
abbrev Name := List Char

/-! ### What is accepted -/

/-- A segment with a prefix of the compiler's own. -/
def reservedSegment (segment : Name) : Bool :=
  "$beagle$".toList.isPrefixOf segment || "bgl____".toList.isPrefixOf segment

/-- Brackets in this kind of regular expression hold backslashes as they are and end at their first
`]`, so an unsafe character is found only before a backslash, a comma and a bracket. -/
def unsafeIdentifier (name : Name) : Bool :=
  name.tails.any fun
    | char :: '\\' :: ',' :: ']' :: _ => ";'\"\x60 \t\n\r()\x7b\x7d\\[".toList.contains char
    | _ => false

def validIdentifier (name : Name) : Bool :=
  !(name.splitOn '/').any reservedSegment && !unsafeIdentifier name

/-! ### Mangling -/

def jsReservedWords : List Name :=
  ["break", "case", "catch", "class", "const", "continue", "debugger", "default", "delete", "do",
    "else", "enum", "export", "extends", "finally", "for", "function", "if", "implements", "import",
    "in", "instanceof", "interface", "let", "new", "null", "package", "private", "protected",
    "public", "return", "static", "switch", "throw", "try", "typeof", "var", "void", "while", "with",
    "yield", "await", "eval", "arguments"].map String.toList

/-- Carried as symbols that are emitted as the JavaScript words they are. -/
def keywordSymbols : List Name := ["true", "false", "this", "super"].map String.toList

def stringReplace (char : Char) (replacement name : Name) : Name :=
  name.flatMap fun other => if other = char then replacement else [other]

/-- The replacements in the order in which they are made. -/
def punctuation : List (Char × Name) :=
  [('-', ['_']), ('?', "_p".toList), ('!', "_bang".toList), ('=', "_eq".toList),
    ('>', "_gt".toList), ('<', "_lt".toList), ('%', "_pct".toList), ('*', "_star".toList),
    ('+', "_plus".toList)]

def manglePunctuation (name : Name) : Name :=
  punctuation.foldl (fun name replaced => stringReplace replaced.1 replaced.2 name) name

def mangleChars (name : Name) : Name := manglePunctuation (stringReplace '_' ['_', '_'] name)

def mangleStr (name : Name) : Name :=
  let mangled := mangleChars name
  if mangled ∈ jsReservedWords then mangled ++ ['$'] else mangled

/-! ### JavaScript identifiers -/

/-- The characters that Unicode lets start and continue an identifier. -/
structure IdentifierChars where
  starts : Char → Bool
  continues : Char → Bool
  starts_ascii : ∀ char : Char, char.toNat < 128 → starts char = char.isAlpha
  continues_ascii : ∀ char : Char, char.toNat < 128 →
    continues char = (char.isAlphanum || char == '_')

/-- The words that strict code may not bind. -/
def restrictedWords : List Name := jsReservedWords ++ keywordSymbols

def IdentifierChars.start (chars : IdentifierChars) (char : Char) : Bool :=
  chars.starts char || char == '$' || char == '_'

/-- With the joiners of no width. -/
def IdentifierChars.part (chars : IdentifierChars) (char : Char) : Bool :=
  chars.continues char || char == '$' || char == '\u200c' || char == '\u200d'

def IdentifierChars.identifier (chars : IdentifierChars) : Name → Bool
  | [] => false
  | first :: rest => chars.start first && rest.all chars.part

/-! ### Which names stay apart -/

def replacedChars : List Char := '_' :: punctuation.map (·.1)

/-- A name of which mangling makes an identifier. -/
def IdentifierChars.writable (chars : IdentifierChars) : Name → Bool
  | [] => false
  | first :: rest => (replacedChars.contains first || chars.start first) &&
      rest.all fun char => replacedChars.contains char || chars.part char

/-- A character spelled with dashes: an underscore is two of them. -/
def dashedChar : Char → Name
  | '_' => "--".toList
  | '?' => "-p".toList
  | '!' => "-bang".toList
  | '=' => "-eq".toList
  | '>' => "-gt".toList
  | '<' => "-lt".toList
  | '%' => "-pct".toList
  | '*' => "-star".toList
  | '+' => "-plus".toList
  | char => [char]

def dashed (name : Name) : Name := name.flatMap dashedChar

def toUnderscore (char : Char) : Char := if char = '-' then '_' else char

def toDash (char : Char) : Char := if char = '_' then '-' else char

theorem mangleChars_cons (c : Char) (name : Name) :
    mangleChars (c :: name) = mangleChars [c] ++ mangleChars name := by
  simp [mangleChars, manglePunctuation, punctuation, stringReplace]

/-- One character, mangled and spelled with dashes. -/
theorem mangleChars_char (c : Char) : mangleChars [c] = (dashedChar c).map toUnderscore ∧
      dashedChar c = (mangleChars [c]).map toDash := by
  by_cases h : c ∈ replacedChars
  · have hall : (replacedChars.all fun c => mangleChars [c] == (dashedChar c).map toUnderscore &&
        dashedChar c == (mangleChars [c]).map toDash) = true := by decide +kernel
    have hc := all_eq_true.mp hall c h
    rwa [Bool.and_eq_true, beq_iff_eq, beq_iff_eq] at hc
  · simp only [replacedChars, punctuation, map_cons, map_nil, mem_cons, not_or] at h
    simp [mangleChars, manglePunctuation, punctuation, stringReplace, dashedChar, toUnderscore,
      toDash, h]

theorem mangleChars_of_notMem {c : Char} (h : c ∉ replacedChars) : mangleChars [c] = [c] := by
  simp only [replacedChars, punctuation, map_cons, map_nil, mem_cons, not_or] at h
  simp [mangleChars, manglePunctuation, punctuation, stringReplace, h]

/-- What a character is replaced by: an underscore, and letters or another underscore. -/
theorem mangleChars_of_mem {c : Char} (h : c ∈ replacedChars) : ∃ ls, mangleChars [c] = '_' :: ls ∧
      ∀ letter ∈ ls, letter.toNat < 128 ∧ (letter.isAlphanum || letter == '_') = true := by
  have hall : (replacedChars.all fun c => (mangleChars [c]).head? == some '_' &&
      (mangleChars [c]).tail.all fun l => decide (l.toNat < 128) && (l.isAlphanum || l == '_')) =
        true := by decide +kernel
  have hc := all_eq_true.mp hall c h
  rw [Bool.and_eq_true, beq_iff_eq, all_eq_true] at hc
  obtain ⟨ls, heq⟩ := head?_eq_some_iff.mp hc.1
  refine ⟨ls, heq, fun l hl => ?_⟩
  simpa using hc.2 l (by rwa [heq])

theorem mangleChars_eq (n : Name) : mangleChars n = (dashed n).map toUnderscore ∧
    dashed n = (mangleChars n).map toDash := by
  induction n with
  | nil => exact ⟨rfl, rfl⟩
  | cons c n ih =>
    rw [mangleChars_cons, dashed, List.flatMap_cons, map_append, map_append]
    exact ⟨by rw [(mangleChars_char c).1, ih.1]; rfl, by rw [← (mangleChars_char c).2, ← ih.2]; rfl⟩

theorem mangleChars_eq_iff {n other : Name} :
    mangleChars n = mangleChars other ↔ dashed n = dashed other := by
  constructor
  · intro h
    rw [(mangleChars_eq n).2, (mangleChars_eq other).2, h]
  · intro h
    rw [(mangleChars_eq n).1, (mangleChars_eq other).1, h]

variable {name : Name}

/-- A name that comes out without underscores has nothing to replace. -/
theorem mangleChars_self (h : '_' ∉ mangleChars name) : mangleChars name = name := by
  induction name with
  | nil => rfl
  | cons c name ih =>
    rw [mangleChars_cons, List.mem_append, not_or] at h
    rw [mangleChars_cons, ih h.2]
    by_cases hmem : c ∈ replacedChars
    · obtain ⟨ls, heq, -⟩ := mangleChars_of_mem hmem
      simp [heq] at h
    · rw [mangleChars_of_notMem hmem, singleton_append]

/-! ### Words -/

theorem restrictedWords_letters : ∀ w ∈ restrictedWords, ∀ c ∈ w, c ∉ replacedChars ∧ c ≠ '$' := by
  have hall : (restrictedWords.all fun w => w.all fun c =>
      !replacedChars.contains c && c != '$') = true := by decide +kernel
  intro w hw c hc
  simpa using all_eq_true.mp (all_eq_true.mp hall w hw) c hc

theorem mangleChars_word (h : name ∈ restrictedWords) : mangleChars name = name := by
  have hl := restrictedWords_letters name h
  generalize name = w at hl
  induction w with
  | nil => rfl
  | cons c w ih =>
    rw [mangleChars_cons, mangleChars_of_notMem (hl c (by simp)).1,
      ih fun o ho => hl o (by simp [ho])]
    rfl

theorem mangleChars_mem_words :
    mangleChars name ∈ restrictedWords ↔ name ∈ restrictedWords := by
  refine ⟨fun h => ?_, fun h => by rwa [mangleChars_word h]⟩
  have hs : mangleChars name = name := mangleChars_self fun hmem =>
    (restrictedWords_letters _ h _ hmem).1 (by decide)
  rwa [hs] at h

theorem mangleStr_eq (name : Name) :
    mangleStr name = if name ∈ jsReservedWords then name ++ ['$'] else mangleChars name := by
  have hiff : mangleChars name ∈ jsReservedWords ↔ name ∈ jsReservedWords := by
    constructor
    · intro h
      have hw := mangleChars_mem_words.mp (mem_append_left keywordSymbols h)
      rwa [mangleChars_word hw] at h
    · intro h
      rwa [mangleChars_word (mem_append_left keywordSymbols h)]
  unfold mangleStr
  by_cases h : name ∈ jsReservedWords
  · simp [h, mangleChars_word (mem_append_left keywordSymbols h)]
  · simp [h, mt hiff.mp h]

/-- No name but the four words that are kept is emitted as a restricted word. -/
theorem mangleStr_notMem_words {n : Name} : mangleStr n ∉ restrictedWords ↔ n ∉ keywordSymbols := by
  rw [mangleStr_eq]
  by_cases h : n ∈ jsReservedWords
  · have hall : (jsReservedWords.all fun w => !keywordSymbols.contains w) = true := by
      decide +kernel
    have hk : n ∉ keywordSymbols := by
      simpa using all_eq_true.mp hall n h
    simp only [if_pos h, hk, not_false_iff, iff_true]
    intro hmem
    obtain ⟨-, hd⟩ := restrictedWords_letters _ hmem '$' (by rw [List.mem_append]; simp)
    exact absurd rfl hd
  · rw [if_neg h, mangleChars_mem_words, restrictedWords, List.mem_append, not_or]
    exact and_iff_right h

/-! ### Identifiers -/

variable {cs : IdentifierChars}

theorem part_of_ascii {char : Char} (h : char.toNat < 128)
    (hp : (char.isAlphanum || char == '_') = true) : cs.part char = true := by
  rw [IdentifierChars.part, cs.continues_ascii char h, hp]
  rfl

/-- What a character is replaced by, as part of an identifier. -/
theorem all_part_replaced {c : Char} (h : c ∈ replacedChars) : ∃ ls,
    mangleChars [c] = '_' :: ls ∧ ls.all cs.part = true := by
  obtain ⟨ls, heq, hl⟩ := mangleChars_of_mem h
  refine ⟨ls, heq, all_eq_true.mpr fun l hmem => ?_⟩
  exact part_of_ascii (hl l hmem).1 (hl l hmem).2

theorem all_part_mangleChars (n : Name) : (mangleChars n).all cs.part =
    n.all fun char => replacedChars.contains char || cs.part char := by
  induction n with
  | nil => rfl
  | cons char n ih =>
    rw [mangleChars_cons, all_append, ih, all_cons]
    by_cases h : char ∈ replacedChars
    · obtain ⟨ls, heq, hall⟩ := @all_part_replaced cs _ h
      have hu : cs.part '_' = true := part_of_ascii (by decide) (by decide)
      simp [heq, h, hall, hu]
    · simp [mangleChars_of_notMem h, h]

theorem identifier_mangleChars (name : Name) :
    cs.identifier (mangleChars name) = cs.writable name := by
  cases name with
  | nil => rfl
  | cons first r =>
    rw [mangleChars_cons]
    by_cases h : first ∈ replacedChars
    · obtain ⟨ls, heq, hall⟩ := @all_part_replaced cs _ h
      simp [heq, IdentifierChars.identifier, IdentifierChars.writable, h, IdentifierChars.start,
        all_append, hall, all_part_mangleChars]
    · simp [mangleChars_of_notMem h, IdentifierChars.identifier, IdentifierChars.writable, h,
        all_part_mangleChars]

theorem identifier_mangleStr (name : Name) : cs.identifier (mangleStr name) = cs.writable name := by
  rw [mangleStr_eq]
  by_cases h : name ∈ jsReservedWords
  · have hw := mem_append_left keywordSymbols h
    rw [if_pos h, ← identifier_mangleChars, mangleChars_word hw]
    have hd : cs.part '$' = true := by simp [IdentifierChars.part]
    cases name with
    | nil => simp [jsReservedWords] at h
    | cons first r => simp [IdentifierChars.identifier, all_append, hd]
  · rw [if_neg h, identifier_mangleChars]

/-- A reserved word meets only the name that is written as it with a dollar sign. -/
theorem mangleStr_reserved {n o : Name} (h : n ∈ jsReservedWords) (hne : n ≠ o) :
    mangleStr n = mangleStr o ↔ o = n ++ ['$'] := by
  have hl := restrictedWords_letters n (mem_append_left keywordSymbols h)
  rw [mangleStr_eq, if_pos h, mangleStr_eq]
  by_cases ho : o ∈ jsReservedWords
  · rw [if_pos ho, append_left_inj]
    refine ⟨fun heq => absurd heq hne, fun heq => ?_⟩
    have hd := restrictedWords_letters o (mem_append_left keywordSymbols ho) '$'
    exact absurd rfl (hd (by simp [heq])).2
  · rw [if_neg ho]
    have hc : '_' ∉ n ++ ['$'] := by
      intro hmem
      rcases List.mem_append.mp hmem with hmem | hmem
      · exact (hl _ hmem).1 (by decide)
      · simp at hmem
    constructor
    · intro heq
      rw [heq, mangleChars_self (heq ▸ hc)]
    · rintro rfl
      have hw : ∀ w : Name, (∀ c ∈ w, c ∉ replacedChars) →
          mangleChars (w ++ ['$']) = w ++ ['$'] := by
        intro w hw
        induction w with
        | nil => rfl
        | cons c w ih =>
          rw [cons_append, mangleChars_cons, mangleChars_of_notMem (hw c (by simp)),
            ih fun l hmem => hw l (by simp [hmem])]
          rfl
      exact (hw n fun c hmem => (hl c hmem).1).symm

/-- Two names come out as one where they are spelled alike with dashes, or where one is a reserved
word and the other has its dollar sign already. -/
theorem mangleStr_eq_iff {n other : Name} (hne : n ≠ other) :
    mangleStr n = mangleStr other ↔ dashed n = dashed other ∨
      n ∈ jsReservedWords ∧ other = n ++ ['$'] ∨
      other ∈ jsReservedWords ∧ n = other ++ ['$'] := by
  have ha : ∀ {word other : Name}, word ∈ jsReservedWords → word ≠ other →
      dashed word ≠ dashed other := by
    intro word other hw hne heq
    have hse := mangleChars_word (mem_append_left keywordSymbols hw)
    have hs := mangleChars_eq_iff.mpr heq
    rw [hse] at hs
    have hc : '_' ∉ word := fun hmem =>
      (restrictedWords_letters word (mem_append_left keywordSymbols hw) _ hmem).1 (by decide)
    rw [mangleChars_self (hs ▸ hc)] at hs
    exact hne hs
  by_cases h : n ∈ jsReservedWords
  · rw [mangleStr_reserved h hne]
    constructor
    · exact fun heq => Or.inr (Or.inl ⟨h, heq⟩)
    · rintro (heq | ⟨-, heq⟩ | ⟨ho, heq⟩)
      · exact absurd heq (ha h hne)
      · exact heq
      · exact (mangleStr_reserved h hne).mp ((mangleStr_reserved ho hne.symm).mpr heq).symm
  · by_cases ho : other ∈ jsReservedWords
    · rw [eq_comm, mangleStr_reserved ho hne.symm]
      refine ⟨fun heq => Or.inr (Or.inr ⟨ho, heq⟩), ?_⟩
      rintro (heq | ⟨hn, -⟩ | ⟨-, heq⟩)
      · exact absurd heq.symm (ha ho hne.symm)
      · exact absurd hn h
      · exact heq
    · rw [mangleStr_eq, mangleStr_eq, if_neg h, if_neg ho, mangleChars_eq_iff]
      simp [h, ho]

/-- The identifiers of ASCII alone. -/
def asciiChars : IdentifierChars where
  starts char := char.isAlpha
  continues char := char.isAlphanum || char == '_'
  starts_ascii _ _ := rfl
  continues_ascii _ _ := rfl

end Beagle.JsNames
