/-
Source maps, version 3.

The encoder sorts its segments and writes each field as the difference to the one before: generated
columns start again on every line, the other fields run on through the file. A reader that keeps the
same five sums gets the segments back.
-/
import Mathlib

namespace Beagle.SourceMaps

open List

structure SourceMapV3Segment where
  generatedLine : Int
  generatedColumn : Int
  sourceIndex : Int
  originalLine : Int
  originalColumn : Int
  nameIndex : Option Int
deriving DecidableEq

structure SourceMapV3Document where
  version : Nat
  file : String
  sources : List String
  sourcesContent : List String
  names : List String
  mappings : String

/-! ### Numbers in base 64 -/

def base64Digits : List Char :=
  "ABCDEFGHIJKLMNOPQRSTUVWXYZabcdefghijklmnopqrstuvwxyz0123456789+/".toList

def base64Digit (digit : Nat) : Char := base64Digits.getD digit 'A'

/-- The digits of a number, the low five bits first; each but the last has the sixth bit. -/
def vlqDigits (remaining : Nat) : List Char :=
  let payload := remaining &&& 31
  let next := remaining >>> 5
  if next = 0 then [base64Digit payload] else base64Digit (payload ||| 32) :: vlqDigits next
termination_by remaining
decreasing_by
  have := Nat.shiftRight_eq_div_pow remaining 5
  omega

def encodeBase64Vlq (value : Int) : List Char :=
  vlqDigits (if value < 0 then (-2 * value + 1).toNat else (2 * value).toNat)

/-- The number whose low bit is its sign. -/
def signed (unsigned : Nat) : Int :=
  if unsigned % 2 = 1 then -((unsigned / 2 : Nat) : Int) else (unsigned / 2 : Nat)

/-- The numbers of a text, where `sum` is what has been read of the first one and `scale` what its
next digit counts. -/
def readFields (scale sum : Nat) : List Char → Option (List Int)
  | [] => if scale = 1 then some [] else none
  | char :: rest => do
    let digit ← base64Digits.idxOf? char
    if digit < 32 then return signed (sum + scale * digit) :: (← readFields 1 0 rest)
    else readFields (scale * 32) (sum + scale * (digit - 32)) rest

theorem idxOf_base64Digit {digit : Nat} (h : digit < 64) :
    base64Digits.idxOf? (base64Digit digit) = some digit :=
  (by decide +kernel : ∀ digit : Fin 64, base64Digits.idxOf? (base64Digit digit) = some digit.val)
    ⟨digit, h⟩

theorem or_of_lt {pl : Nat} (h : pl < 32) : pl ||| 32 = pl + 32 := by
  rw [Nat.or_comm, ← Nat.two_pow_add_eq_or_of_lt (i := 5) h 1]
  omega

/-- A number is read off the front of what it was written to. -/
theorem readFields_vlqDigits (value s sum : Nat) (r : List Char) :
    readFields s sum (vlqDigits value ++ r) =
      (readFields 1 0 r).map (signed (sum + s * value) :: ·) := by
  induction value using Nat.strongRecOn generalizing s sum with
  | ind value ih =>
    have hp : value &&& 31 = value % 32 := Nat.and_two_pow_sub_one_eq_mod value 5
    have hn : value >>> 5 = value / 32 := Nat.shiftRight_eq_div_pow value 5
    have hlow : value % 32 < 32 := Nat.mod_lt _ (by decide)
    rw [vlqDigits]
    simp only [hp, hn]
    by_cases hl : value / 32 = 0
    · have hs : value % 32 = value := by omega
      rw [if_pos hl, hs, singleton_append, readFields, idxOf_base64Digit (by omega)]
      simp [show value < 32 by omega, Option.map_eq_bind]
    · rw [if_neg hl, or_of_lt hlow, cons_append, readFields, idxOf_base64Digit (by omega)]
      have hsum : sum + s * (value % 32) + s * 32 * (value / 32) = sum + s * value := by
        conv_rhs => rw [← Nat.mod_add_div value 32]
        ring
      simp [show ¬ value % 32 + 32 < 32 by omega, ih (value / 32) (by omega), hsum]

theorem readFields_encode (value : Int) (r : List Char) :
    readFields 1 0 (encodeBase64Vlq value ++ r) = (readFields 1 0 r).map (value :: ·) := by
  have hs : signed (if value < 0 then (-2 * value + 1).toNat else (2 * value).toNat) = value := by
    unfold signed
    split <;> split <;> omega
  rw [encodeBase64Vlq, readFields_vlqDigits, Nat.zero_add, Nat.one_mul, hs]

/-- The text of some fields is read back as these fields. -/
theorem readFields_fields (fields : List Int) :
    readFields 1 0 (fields.flatMap encodeBase64Vlq) = some fields := by
  induction fields with
  | nil => rfl
  | cons f fields ih => rw [List.flatMap_cons, readFields_encode, ih, Option.map_some]

/-! ### The document -/

structure ArgumentError where
  message : String
  field : String

def requireNonnegativeInteger (label : String) (value : Int) : Except ArgumentError Unit :=
  if 0 ≤ value then .ok () else .error ⟨"expected an exact non-negative integer", label⟩

def validateSegment (sourceCount nameCount : Nat) (segment : SourceMapV3Segment) :
    Except ArgumentError Unit := do
  requireNonnegativeInteger "generated line" segment.generatedLine
  requireNonnegativeInteger "generated column" segment.generatedColumn
  requireNonnegativeInteger "source index" segment.sourceIndex
  requireNonnegativeInteger "original line" segment.originalLine
  requireNonnegativeInteger "original column" segment.originalColumn
  if segment.sourceIndex < sourceCount then
    match segment.nameIndex with
    | none => return
    | some nameIndex =>
      if 0 ≤ nameIndex ∧ nameIndex < nameCount then return
      else throw ⟨"segment name index is outside the names table", "name index"⟩
  else throw ⟨"segment source index is outside the sources table", "source index"⟩

def segmentLt (left right : SourceMapV3Segment) : Bool :=
  decide (left.generatedLine < right.generatedLine) ||
    decide (left.generatedLine = right.generatedLine) &&
      decide (left.generatedColumn < right.generatedColumn)

def sameGeneratedPosition (left right : SourceMapV3Segment) : Bool :=
  left.generatedLine == right.generatedLine && left.generatedColumn == right.generatedColumn

/-- What the fields that run on through the file are measured from. -/
structure Running where
  sourceIndex : Int
  originalLine : Int
  originalColumn : Int
  nameIndex : Int

def Running.start : Running := ⟨0, 0, 0, 0⟩

def Running.after (running : Running) (segment : SourceMapV3Segment) : Running :=
  ⟨segment.sourceIndex, segment.originalLine, segment.originalColumn,
    segment.nameIndex.getD running.nameIndex⟩

def segmentFields (generatedColumn : Int) (running : Running) (segment : SourceMapV3Segment) :
    List Int :=
  [segment.generatedColumn - generatedColumn, segment.sourceIndex - running.sourceIndex,
    segment.originalLine - running.originalLine,
    segment.originalColumn - running.originalColumn] ++
    segment.nameIndex.toList.map (· - running.nameIndex)

/-- The texts of the segments of a line, and what the next line is measured from. -/
def lineTexts (generatedColumn : Int) (running : Running) :
    List SourceMapV3Segment → List (List Char) × Running
  | [] => ([], running)
  | segment :: segments =>
    let (texts, next) := lineTexts segment.generatedColumn (running.after segment) segments
    ((segmentFields generatedColumn running segment).flatMap encodeBase64Vlq :: texts, next)

def segmentsOn (ordered : List SourceMapV3Segment) (line : Nat) : List SourceMapV3Segment :=
  ordered.filter (·.generatedLine = line)

def encodeLines (ordered : List SourceMapV3Segment) (running : Running) :
    List Nat → List (List Char)
  | [] => []
  | line :: lines =>
    let (texts, next) := lineTexts 0 running (segmentsOn ordered line)
    [','].intercalate texts :: encodeLines ordered next lines

def encodeMappings (ordered : List SourceMapV3Segment) : List Char :=
  match ordered.getLast? with
  | none => []
  | some last =>
    [';'].intercalate (encodeLines ordered .start (List.range (last.generatedLine + 1).toNat))

def sourceMapV3Document (file : String) (sources sourcesContent names : List String)
    (segments : List SourceMapV3Segment) : Except ArgumentError SourceMapV3Document := do
  if sources.length = sourcesContent.length then
    segments.forM (validateSegment sources.length names.length)
    let ordered := segments.mergeSort fun left right => !segmentLt right left
    match ordered with
    -- the neighbours are paired with the list behind the first segment, which must be there
    | [] => throw ⟨"cdr: contract violation", "ordered-segments"⟩
    | _ :: behind =>
      if (ordered.zip behind).any fun pair => sameGeneratedPosition pair.1 pair.2 then
        throw ⟨"segments cannot share a generated position", "generated line"⟩
      else
        return ⟨3, file, sources, sourcesContent, names, String.ofList (encodeMappings ordered)⟩
  else throw ⟨"sources and sources content must have equal lengths", "sources"⟩

/-! ### Reading the mappings -/

/-- The segment that four or five differences make. -/
def decodeSegment (line generatedColumn : Int) (running : Running) :
    List Int → Option SourceMapV3Segment
  | [column, source, originalLine, originalColumn] =>
    some ⟨line, generatedColumn + column, running.sourceIndex + source,
      running.originalLine + originalLine, running.originalColumn + originalColumn, none⟩
  | [column, source, originalLine, originalColumn, name] =>
    some ⟨line, generatedColumn + column, running.sourceIndex + source,
      running.originalLine + originalLine, running.originalColumn + originalColumn,
      some (running.nameIndex + name)⟩
  | _ => none

def decodeLine (line generatedColumn : Int) (running : Running) :
    List (List Char) → Option (List SourceMapV3Segment × Running)
  | [] => some ([], running)
  | text :: texts => do
    let segment ← decodeSegment line generatedColumn running (← readFields 1 0 text)
    let (segments, next) ← decodeLine line segment.generatedColumn (running.after segment) texts
    return (segment :: segments, next)

/-- The texts between the commas; an empty line has none. -/
def splitLine (text : List Char) : List (List Char) := if text = [] then [] else text.splitOn ','

def decodeLines (line : Int) (running : Running) :
    List (List Char) → Option (List SourceMapV3Segment)
  | [] => some []
  | text :: texts => do
    let (segments, next) ← decodeLine line 0 running (splitLine text)
    return segments ++ (← decodeLines (line + 1) next texts)

/-- Mappings as a reader of source maps takes them. -/
def decodeMappings (mappings : String) : Option (List SourceMapV3Segment) :=
  decodeLines 0 .start (mappings.toList.splitOn ';')

theorem decodeSegment_fields (gc : Int) (r : Running) (segment : SourceMapV3Segment) :
    decodeSegment segment.generatedLine gc r (segmentFields gc r segment) = some segment := by
  obtain ⟨l, c, s, ol, oc, n⟩ := segment
  cases n <;> simp [segmentFields, decodeSegment]

theorem decodeLine_texts {l : Int} {segments : List SourceMapV3Segment}
    (h : ∀ sg ∈ segments, sg.generatedLine = l) (gc : Int)
    (r : Running) : decodeLine l gc r (lineTexts gc r segments).1 =
        some (segments, (lineTexts gc r segments).2) := by
  induction segments generalizing gc r with
  | nil => rfl
  | cons sg segments ih =>
    have hseg := decodeSegment_fields gc r sg
    rw [h sg (by simp)] at hseg
    have hr := ih (fun o ho => h o (by simp [ho])) sg.generatedColumn (r.after sg)
    simp [lineTexts, decodeLine, readFields_fields, hseg, hr]

/-! ### Separators -/

theorem vlqDigits_digits (v : Nat) : ∀ c ∈ vlqDigits v, c ∈ base64Digits := by
  have hd : ∀ d, base64Digit d ∈ base64Digits := by
    intro d
    unfold base64Digit
    rw [getD_eq_getElem?_getD]
    cases hget : base64Digits[d]? with
    | none => decide
    | some c => exact mem_of_getElem? hget
  induction v using Nat.strongRecOn with
  | ind v ih =>
    have hn : v >>> 5 = v / 32 := Nat.shiftRight_eq_div_pow v 5
    rw [vlqDigits]
    simp only [hn]
    by_cases hl : v / 32 = 0
    · simp [hl, hd]
    · simpa [hl, hd] using ih (v / 32) (by omega)

theorem lineTexts_digits (gc : Int) (r : Running) (segments : List SourceMapV3Segment) :
    ∀ t ∈ (lineTexts gc r segments).1, t ≠ [] ∧ ∀ c ∈ t, c ∈ base64Digits := by
  induction segments generalizing gc r with
  | nil => simp [lineTexts]
  | cons sg segments ih =>
    simp only [lineTexts, mem_cons]
    rintro t (rfl | htext)
    · refine ⟨?_, fun c hc => ?_⟩
      · have hne : ∀ v, vlqDigits v ≠ [] := by
          intro v
          rw [vlqDigits]
          split <;> simp
        simp [segmentFields, encodeBase64Vlq, hne]
      · obtain ⟨f, -, hf⟩ := mem_flatMap.mp hc
        exact vlqDigits_digits _ c hf
    · exact ih _ _ t htext

/-- A line is cut into the texts it was joined from. -/
theorem splitLine_intercalate {texts : List (List Char)}
    (h : ∀ t ∈ texts, t ≠ [] ∧ ∀ c ∈ t, c ∈ base64Digits) :
    splitLine ([','].intercalate texts) = texts := by
  cases texts with
  | nil => rfl
  | cons t texts =>
    have hc : ',' ∉ base64Digits := by decide
    have hs := @List.splitOn_intercalate _ (t :: texts) _ _ ','
      (fun o ho hmem => hc ((h o ho).2 _ hmem)) (by simp)
    unfold splitLine
    split
    · next hnil =>
      rw [hnil, splitOn_nil, List.cons.injEq] at hs
      exact absurd hs.1.symm (h t (by simp)).1
    · exact hs

theorem mem_intercalate {c : Char} {ts : List (List Char)}
    (h : c ∈ [','].intercalate ts) : c = ',' ∨ ∃ text ∈ ts, c ∈ text := by
  induction ts with
  | nil => simp at h
  | cons text ts ih =>
    cases ts with
    | nil => exact Or.inr ⟨text, by simp, by simpa using h⟩
    | cons next ts =>
      rw [intercalate_cons_cons] at h
      simp only [List.mem_append, mem_singleton] at h
      rcases h with (h | h) | h
      · exact Or.inr ⟨text, by simp, h⟩
      · exact Or.inl h
      · exact (ih h).imp_right fun ⟨o, ho, hc⟩ => ⟨o, by simp [ho], hc⟩

theorem encodeLines_semicolons (ordered : List SourceMapV3Segment) (r : Running)
    (ls : List Nat) : ∀ text ∈ encodeLines ordered r ls, ';' ∉ text := by
  induction ls generalizing r with
  | nil => simp [encodeLines]
  | cons l ls ih =>
    simp only [encodeLines, mem_cons]
    rintro text (rfl | htext) hmem
    · have hd := lineTexts_digits 0 r (segmentsOn ordered l)
      rcases mem_intercalate hmem with hc | ⟨p, hp, hch⟩
      · simp at hc
      · exact absurd ((hd p hp).2 _ hch) (by decide)
    · exact ih _ text htext hmem

/-! ### The lines of a sorted list -/

variable {ordered : List SourceMapV3Segment}

/-- The segments of a line come before those of the lines behind it. -/
theorem filter_line (h : ordered.Pairwise fun lef r => lef.generatedLine ≤ r.generatedLine)
    (l : Int) : ordered.filter (·.generatedLine = l) ++
      ordered.filter (l + 1 ≤ ·.generatedLine) = ordered.filter (l ≤ ·.generatedLine) := by
  induction ordered with
  | nil => rfl
  | cons sg rs ih =>
    obtain ⟨hle, hr⟩ := pairwise_cons.mp h
    have hs := ih hr
    rcases Int.lt_trichotomy sg.generatedLine l with hlt | heq | hgt
    · have h1 : decide (sg.generatedLine = l) = false := decide_eq_false (by omega)
      have h2 : decide (l + 1 ≤ sg.generatedLine) = false := decide_eq_false (by omega)
      have h3 : decide (l ≤ sg.generatedLine) = false := decide_eq_false (by omega)
      simp only [filter_cons, h1, h2, h3, Bool.false_eq_true, if_false]
      exact hs
    · have h1 : decide (sg.generatedLine = l) = true := decide_eq_true heq
      have h2 : decide (l + 1 ≤ sg.generatedLine) = false := decide_eq_false (by omega)
      have h3 : decide (l ≤ sg.generatedLine) = true := decide_eq_true (by omega)
      simp only [filter_cons, h1, h2, h3, Bool.false_eq_true, if_false, if_true, cons_append]
      rw [hs]
    · have hn : rs.filter (·.generatedLine = l) = [] := by
        rw [filter_eq_nil_iff]
        intro o ho
        have := hle o ho
        simp only [decide_eq_true_eq]
        omega
      rw [hn, nil_append] at hs
      have h1 : decide (sg.generatedLine = l) = false := decide_eq_false (by omega)
      have h2 : decide (l + 1 ≤ sg.generatedLine) = true := decide_eq_true (by omega)
      have h3 : decide (l ≤ sg.generatedLine) = true := decide_eq_true (by omega)
      simp only [filter_cons, h1, h2, h3, Bool.false_eq_true, if_false, if_true]
      rw [hn, nil_append, hs]

theorem flatMap_lines (h : ordered.Pairwise fun l r => l.generatedLine ≤ r.generatedLine)
    (first c : Nat) :
    (range' first c).flatMap (segmentsOn ordered) ++
      ordered.filter (fun sg => ((first + c : Nat) : Int) ≤ sg.generatedLine) =
        ordered.filter ((first : Int) ≤ ·.generatedLine) := by
  induction c generalizing first with
  | zero => simp
  | succ c ih =>
    have hr := ih (first + 1)
    rw [range'_succ, List.flatMap_cons, append_assoc, ← filter_line h first,
      show first + (c + 1) = first + 1 + c by omega, hr]
    rfl

theorem decodeLines_encode (ordered : List SourceMapV3Segment) (first c : Nat) (r : Running) :
    decodeLines first r (encodeLines ordered r (range' first c)) =
      some ((range' first c).flatMap (segmentsOn ordered)) := by
  induction c generalizing first r with
  | zero => rfl
  | succ c ih =>
    have hon : ∀ sg ∈ segmentsOn ordered first, sg.generatedLine = first := by
      simp [segmentsOn]
    have hr := ih (first + 1)
    push_cast at hr
    simp [range'_succ, encodeLines, decodeLines, decodeLine_texts hon,
      splitLine_intercalate (lineTexts_digits 0 r _), hr]

/-- **The mappings of a sorted list decode to it.** -/
theorem decodeMappings_encode (hne : ordered ≠ [])
    (h : ordered.Pairwise fun lef r => lef.generatedLine ≤ r.generatedLine)
    (hn : ∀ sg ∈ ordered, 0 ≤ sg.generatedLine) :
    decodeMappings (String.ofList (encodeMappings ordered)) = some ordered := by
  obtain ⟨fr, l, rfl⟩ := (eq_nil_or_concat ordered).resolve_left hne
  rw [concat_eq_append] at *
  have hla : ∀ sg ∈ fr ++ [l], sg.generatedLine ≤ l.generatedLine := by
    intro sg hmem
    rcases List.mem_append.mp hmem with hmem | hmem
    · exact (pairwise_append.mp h).2.2 sg hmem l (by simp)
    · rw [mem_singleton.mp hmem]
  have hz := hn l (by simp)
  have hc : List.range (l.generatedLine + 1).toNat ≠ [] := by
    rw [Ne, range_eq_nil]
    omega
  have hl : encodeLines (fr ++ [l]) .start (List.range (l.generatedLine + 1).toNat) ≠ [] := by
    obtain ⟨ln, ls, heq⟩ := exists_cons_of_ne_nil hc
    rw [heq]
    simp [encodeLines]
  have hall := flatMap_lines h 0 (l.generatedLine + 1).toNat
  have hb : (fr ++ [l]).filter
      (fun sg => ((0 + (l.generatedLine + 1).toNat : Nat) : Int) ≤ sg.generatedLine) = [] := by
    rw [filter_eq_nil_iff]
    intro sg hmem
    have := hla sg hmem
    simp only [decide_eq_true_eq]
    omega
  have he : (fr ++ [l]).filter (((0 : Nat) : Int) ≤ ·.generatedLine) = fr ++ [l] :=
    filter_eq_self.mpr fun sg hmem => by simpa using hn sg hmem
  rw [hb, he, append_nil] at hall
  unfold decodeMappings encodeMappings
  rw [getLast?_append_of_ne_nil _ (by simp)]
  simp only [getLast?_singleton, String.toList_ofList]
  have hd := decodeLines_encode (fr ++ [l]) 0 (l.generatedLine + 1).toNat .start
  rw [hall] at hd
  rw [splitOn_intercalate ';' (encodeLines_semicolons _ _ _) hl, range_eq_range']
  exact hd

/-! ### What the document says -/

variable {segments : List SourceMapV3Segment}

theorem segmentLt_iff {l r : SourceMapV3Segment} : segmentLt l r = true ↔
    l.generatedLine < r.generatedLine ∨ l.generatedLine = r.generatedLine ∧
      l.generatedColumn < r.generatedColumn := by
  simp [segmentLt]

theorem sameGeneratedPosition_comm (left r : SourceMapV3Segment) :
    sameGeneratedPosition left r = sameGeneratedPosition r left := by
  simp only [sameGeneratedPosition, Bool.beq_comm]

/-- The sort puts each segment before those behind it in the generated text. -/
theorem sorted_segments (h : segments.Pairwise fun l r => sameGeneratedPosition l r = false) :
    (segments.mergeSort fun l r => !segmentLt r l).Pairwise (segmentLt · · = true) := by
  have hs := @List.pairwise_mergeSort _ (fun l r => !segmentLt r l) (fun a b c hab hbc => by
      rw [Bool.not_eq_true', Bool.eq_false_iff, Ne, segmentLt_iff] at *
      omega)
    (fun a b => by
      rw [Bool.or_eq_true, Bool.not_eq_true', Bool.not_eq_true', Bool.eq_false_iff,
        Bool.eq_false_iff, Ne, Ne, segmentLt_iff, segmentLt_iff]
      omega) segments
  have ha := ((mergeSort_perm segments fun l r => !segmentLt r l).pairwise_iff
    (fun {l r} hab => sameGeneratedPosition_comm r l ▸ hab)).mpr h
  refine (hs.and ha).imp fun {l r} hb => ?_
  have hle : ¬ segmentLt r l = true := by simpa using hb.1
  have hne : ¬ (l.generatedLine = r.generatedLine ∧ l.generatedColumn = r.generatedColumn) := by
    simpa [sameGeneratedPosition] using hb.2
  rw [segmentLt_iff] at hle ⊢
  omega

theorem zip_tail_of_pairwise {α : Type} {R : α → α → Prop} {es : List α}
    (h : es.Pairwise R) : ∀ p ∈ es.zip es.tail, R p.1 p.2 := by
  induction es with
  | nil => simp
  | cons first r ih =>
    obtain ⟨hf, hr⟩ := pairwise_cons.mp h
    cases r with
    | nil => simp
    | cons s m =>
      intro p hpair
      rw [tail_cons, zip_cons_cons, mem_cons] at hpair
      rcases hpair with rfl | hpair
      · exact hf s (by simp)
      · exact ih hr p hpair

theorem line_nonneg {sc nc : Nat} {sg : SourceMapV3Segment}
    (h : validateSegment sc nc sg = .ok ()) : 0 ≤ sg.generatedLine := by
  by_contra hneg
  simp [validateSegment, requireNonnegativeInteger, hneg, bind, Except.bind] at h

/-- **A document is made of valid segments at distinct places, and decodes to them in generated
order, exactly when there are any.** -/
theorem document_decodes_iff_nonempty (file : String) (sources sourcesContent names : List String)
    (segments : List SourceMapV3Segment) (hcontent : sources.length = sourcesContent.length)
    (hvalid : ∀ segment ∈ segments, validateSegment sources.length names.length segment = .ok ())
    (hdistinct : segments.Pairwise fun left right => sameGeneratedPosition left right = false) :
    (∃ mappings ordered, sourceMapV3Document file sources sourcesContent names segments =
        .ok ⟨3, file, sources, sourcesContent, names, mappings⟩ ∧
      ordered.Perm segments ∧ ordered.Pairwise (segmentLt · · = true) ∧
      decodeMappings mappings = some ordered) ↔ segments ≠ [] := by
  have hc : segments.forM (validateSegment sources.length names.length) = .ok () := by
    induction segments with
    | nil => rfl
    | cons segment segments ih =>
      rw [List.forM, hvalid segment (by simp)]
      exact ih (fun o ho => hvalid o (by simp [ho])) (pairwise_cons.mp hdistinct).2
  have hs := sorted_segments hdistinct
  have hp := mergeSort_perm segments fun left right => !segmentLt right left
  unfold sourceMapV3Document
  rw [if_pos hcontent, hc]
  simp only [bind, Except.bind]
  constructor
  · rintro ⟨mappings, ordered, hd, -⟩ rfl
    simp at hd
  · intro hne
    generalize segments.mergeSort (fun left right => !segmentLt right left) = ordered at *
    cases ordered with
    | nil => exact absurd hp.symm.eq_nil hne
    | cons first r =>
      have ha : ((first :: r).zip r).any (fun p => sameGeneratedPosition p.1 p.2) = false := by
        rw [any_eq_false]
        intro p hpa hsa
        have hlt := segmentLt_iff.mp (zip_tail_of_pairwise hs p hpa)
        simp only [sameGeneratedPosition, Bool.and_eq_true, beq_iff_eq] at hsa
        omega
      refine ⟨String.ofList (encodeMappings (first :: r)), first :: r, ?_, hp, hs,
        decodeMappings_encode (by simp) (hs.imp fun hlt => ?_) fun segment hmem =>
          line_nonneg (hvalid segment (hp.mem_iff.mp hmem))⟩
      · simp [ha, pure, Except.pure]
      · have := segmentLt_iff.mp hlt
        omega

/-- Without segments the list behind the first one is asked for all the same. -/
theorem empty_document_raises :
    ¬ ∃ document, sourceMapV3Document "out.js" [] [] [] [] = .ok document := by
  rintro ⟨document, h⟩
  simp [sourceMapV3Document, bind, Except.bind, pure, Except.pure] at h

/-- A segment on the third line, and one before it. -/
theorem two_segments_decode : ∃ mappings ordered,
    sourceMapV3Document "out.js" ["in.bgl"] [""] ["f"] [⟨2, 4, 0, 1, 0, some 0⟩, ⟨0, 7, 0, 3, 2, none⟩] =
        .ok ⟨3, "out.js", ["in.bgl"], [""], ["f"], mappings⟩ ∧
      ordered.Perm [⟨2, 4, 0, 1, 0, some 0⟩, ⟨0, 7, 0, 3, 2, none⟩] ∧
      ordered.Pairwise (segmentLt · · = true) ∧ decodeMappings mappings = some ordered :=
  (document_decodes_iff_nonempty "out.js" ["in.bgl"] [""] ["f"]
    [⟨2, 4, 0, 1, 0, some 0⟩, ⟨0, 7, 0, 3, 2, none⟩] rfl
    (by simp [validateSegment, requireNonnegativeInteger, bind, Except.bind, pure, Except.pure])
    (by simp [sameGeneratedPosition])).mpr (by simp)

end Beagle.SourceMaps
