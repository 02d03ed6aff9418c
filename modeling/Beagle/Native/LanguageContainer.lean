/-
Language containers: a text that holds regions of several languages.

A region opens with a line that starts with `#lang` and three header lines, and closes with
the line its header names.  The text is read from the left: what stands before the next
`#lang` line is trivia, a header that is not well formed is trivia up to the `#lang` line
after it, and a region without a closing line runs to the end.  Offsets count bytes.
`none` is a trap.
-/
import Beagle.Native.Text

namespace Beagle.LanguageContainer

open Beagle.Native (Text)
open Beagle.Lib (Utf8.encode Utf8.decode)

structure ContainerSpan where
  start : Nat
  finish : Nat
  startByte : Nat
  finishByte : Nat
deriving DecidableEq

structure ContainerLine where
  start : Nat
  contentEnd : Nat
  finish : Nat
  content : Text
  raw : Text
  hasLf : Bool
deriving DecidableEq

structure ContainerHeader where
  languageRef : Text
  moduleId : Text
  regionName : Text
  inputsText : Text
  outputsText : Text
  fence : Text
  raw : Text
  span : ContainerSpan
  fenceDeclarationSpan : ContainerSpan
deriving DecidableEq

structure ContainerRegion where
  header : ContainerHeader
  payload : Text
  closingFenceRaw : Text
  raw : Text
  span : ContainerSpan
  payloadSpan : ContainerSpan
  closingFenceSpan : ContainerSpan
  terminated : Bool
deriving DecidableEq

inductive DiagnosticCode where
  | malformedHeader
  | unterminatedRegion
deriving DecidableEq

structure ContainerDiagnostic where
  code : DiagnosticCode
  message : String
  span : ContainerSpan
deriving DecidableEq

inductive ContainerPiece where
  | trivia (text : Text) (span : ContainerSpan)
  | regionPiece (region : ContainerRegion)
deriving DecidableEq

structure LanguageContainerCst where
  source : Text
  pieces : List ContainerPiece
  regions : List ContainerRegion
  diagnostics : List ContainerDiagnostic
deriving DecidableEq

inductive HeaderScan where
  | accepted (header : ContainerHeader) (nextOffset : Nat)
  | rejected (diagnostic : ContainerDiagnostic) (recoveryOffset : Nat)
deriving DecidableEq

inductive RegionScan where
  | accepted (region : ContainerRegion) (nextOffset : Nat)
  | malformed (diagnostic : ContainerDiagnostic) (recoveryOffset : Nat)
  | unterminated (region : ContainerRegion) (diagnostic : ContainerDiagnostic)
deriving DecidableEq

/-! ### Lines -/

/-- The bytes from `start` up to `finish`. -/
def subs (source : Text) (start finish : Nat) : Text := (source.take finish).drop start

/-- The bytes of a text, which must be UTF-8. -/
def utf8Encode (text : Text) : Option Text := if (Utf8.decode text).isSome then some text else none

def containerSpan (source : Text) (start finish : Nat) : Option ContainerSpan := do
  let startBytes ← utf8Encode (subs source 0 start)
  let finishBytes ← utf8Encode (subs source 0 finish)
  return ⟨start, finish, startBytes.length, finishBytes.length⟩

def lineFrom (source : Text) (start cursor : Nat) : ContainerLine :=
  if h : cursor < source.length then
    if source[cursor] = 10 then
      ⟨start, cursor, cursor + 1, subs source start cursor, subs source start (cursor + 1), true⟩
    else
      lineFrom source start (cursor + 1)
  else
    ⟨start, cursor, cursor, subs source start cursor, subs source start cursor, false⟩
termination_by source.length - cursor

/-- The line that starts at an offset, with its line feed if it has one. -/
def lineAt (source : Text) (start : Nat) : ContainerLine := lineFrom source start start

/-- What a line is: up to the first line feed, or up to the end. -/
theorem lineFrom_spec (source : Text) (s c : Nat) (h : c ≤ source.length) :
    ∃ ce, c ≤ ce ∧ ce ≤ source.length ∧ (∀ i, c ≤ i → i < ce → source[i]? ≠ some 10) ∧
      ((source[ce]? = some 10 ∧ lineFrom source s c = ⟨s, ce, ce + 1, subs source s ce,
            subs source s (ce + 1), true⟩) ∨
        (ce = source.length ∧ lineFrom source s c = ⟨s, ce, ce, subs source s ce,
            subs source s ce, false⟩)) := by
  fun_induction lineFrom source s c with
  | case1 c hlt heq =>
    refine ⟨c, Nat.le_refl _, h, fun i hlow hh => by omega, Or.inl ⟨?_, rfl⟩⟩
    rw [List.getElem?_eq_getElem hlt, heq]
  | case2 c hlt hne ih =>
    obtain ⟨ce, hlow, hh, hn, hl⟩ := ih hlt
    refine ⟨ce, by omega, hh, ?_, hl⟩
    intro i hi hie
    by_cases heq : i = c
    · rw [heq, List.getElem?_eq_getElem hlt]
      exact fun h => hne (Option.some.inj h)
    · exact hn i (by omega) hie
  | case3 c hge =>
    refine ⟨c, Nat.le_refl _, h, fun i hlow hh => by omega, Or.inr ⟨by omega, rfl⟩⟩

variable {source : Text}

/-- A line is not empty, unless the text is at its end. -/
theorem lt_lineAt_finish {s : Nat} (h : s < source.length) :
    s < (lineAt source s).finish ∧ (lineAt source s).finish ≤ source.length := by
  obtain ⟨ce, hlow, hh, -, ⟨hlf, hl⟩ | ⟨hla, hl⟩⟩ :=
    lineFrom_spec source s s (Nat.le_of_lt h)
  · have hlt : ce < source.length := (List.getElem?_eq_some_iff.mp hlf).1
    simp only [lineAt, hl]
    omega
  · simp only [lineAt, hl]
    omega

theorem le_lineAt_finish {s : Nat} (h : s ≤ source.length) :
    s ≤ (lineAt source s).finish ∧ (lineAt source s).finish ≤ source.length := by
  obtain ⟨ce, hlow, hh, -, ⟨hlf, hl⟩ | ⟨hla, hl⟩⟩ :=
    lineFrom_spec source s s h
  · have hlt : ce < source.length := (List.getElem?_eq_some_iff.mp hlf).1
    simp only [lineAt, hl]
    omega
  · simp only [lineAt, hl]
    omega

/-- `#lang`, alone or before a blank. -/
def languageBoundaryLine (line : ContainerLine) : Bool :=
  5 ≤ line.content.length && line.content.take 5 == Utf8.encode "#lang" &&
    (line.content.length == 5 || line.content[5]? == some 32 || line.content[5]? == some 9)

def nextLanguageBoundary (source : Text) (start : Nat) : Nat :=
  if h : start < source.length then
    if languageBoundaryLine (lineAt source start) then start
    else nextLanguageBoundary source (lineAt source start).finish
  else
    source.length
termination_by source.length - start
decreasing_by have := lt_lineAt_finish h; omega

theorem nextLanguageBoundary_bounds {s : Nat} (h : s ≤ source.length) :
    s ≤ nextLanguageBoundary source s ∧ nextLanguageBoundary source s ≤ source.length := by
  fun_induction nextLanguageBoundary source s with
  | case1 => exact ⟨Nat.le_refl _, h⟩
  | case2 s hlt hl ih =>
    have hfin := lt_lineAt_finish hlt
    have := ih hfin.2
    omega
  | case3 => exact ⟨h, Nat.le_refl _⟩

/-! ### Headers -/

def spaceWordsFrom (text : Text) (cursor wordStart : Nat) (words : List Text) : List Text :=
  if h : cursor < text.length then
    if text[cursor] = 32 then
      if wordStart = cursor then []
      else spaceWordsFrom text (cursor + 1) (cursor + 1) (words ++ [subs text wordStart cursor])
    else
      spaceWordsFrom text (cursor + 1) wordStart words
  else if wordStart = cursor then []
  else words ++ [subs text wordStart cursor]
termination_by text.length - cursor

/-- The words of a text with one space between two of them; none if there are more. -/
def strictSpaceWords (text : Text) : List Text :=
  if text = [] then [] else spaceWordsFrom text 0 0 []

def charactersFrom (text alphabet : Text) : Bool :=
  !text.isEmpty && text.all fun byte => alphabet.contains byte

def nameCharacters : Text :=
  Utf8.encode "ABCDEFGHIJKLMNOPQRSTUVWXYZabcdefghijklmnopqrstuvwxyz0123456789-_./"

def capsuleCharacters : Text :=
  Utf8.encode "ABCDEFGHIJKLMNOPQRSTUVWXYZabcdefghijklmnopqrstuvwxyz0123456789-_./:+"

def fenceStartCharacters : Text :=
  Utf8.encode "ABCDEFGHIJKLMNOPQRSTUVWXYZabcdefghijklmnopqrstuvwxyz_"

def fenceCharacters : Text :=
  Utf8.encode "ABCDEFGHIJKLMNOPQRSTUVWXYZabcdefghijklmnopqrstuvwxyz0123456789_-"

def validName (value : Text) : Bool := charactersFrom value nameCharacters

/-- A language of this repository, or a capsule's name with its version behind `@`. -/
def validLanguageRef (value : Text) : Bool :=
  if value = Utf8.encode "bgl" ∨ value = Utf8.encode "bclj" ∨ value = Utf8.encode "bjs" ∨
      value = Utf8.encode "bnix" then
    true
  else
    match value.findIdx? (· == 64) with
    | none => false
    | some separator =>
      value.count 64 == 1 && decide (0 < separator) &&
        decide (separator < value.length - 1) && validName (subs value 0 separator) &&
        charactersFrom (subs value (separator + 1) value.length) capsuleCharacters

def validFence : Text → Bool
  | [] => false
  | byte :: rest => fenceStartCharacters.contains byte && rest.all fenceCharacters.contains

/-- The brackets of a vector close each other, and the outer pair at the very end. -/
def bracketed : List UInt8 → Text → Bool
  | stack, [] => stack.isEmpty
  | stack, byte :: rest =>
    if (Utf8.encode "\x7b\x7d\"'`~\\;#,\t").contains byte then false
    else if byte = 91 ∨ byte = 40 then bracketed (byte :: stack) rest
    else if byte = 93 ∨ byte = 41 then
      match stack with
      | [] => false
      | opened :: below =>
        if (opened = 91 ∧ byte = 93) ∨ (opened = 40 ∧ byte = 41) then
          if below = [] ∧ rest ≠ [] then false else bracketed below rest
        else false
    else if stack = [] then false
    else bracketed stack rest

def headerVector (value : Text) : Bool :=
  decide (2 ≤ value.length) && value.head? == some 91 && value.getLast? == some 93 &&
    bracketed [] value

/-- What follows `lead` on a line; nothing if the line is something else. -/
def linePrefixValue (line : ContainerLine) (lead : Text) : Text :=
  if lead.length < line.content.length ∧ line.content.take lead.length = lead then
    line.content.drop lead.length
  else
    []

def rejectedHeader (source : Text) (start firstLineEnd : Nat) (message : String) :
    Option HeaderScan := do
  let recovery := nextLanguageBoundary source firstLineEnd
  let span ← containerSpan source start recovery
  return .rejected ⟨.malformedHeader, message, span⟩ recovery

/-- What is wrong with the four lines of a header, the first thing first. -/
def headerProblem (languageLine inputLine outputLine fenceLine : ContainerLine) : Option String :=
  let words := strictSpaceWords languageLine.content
  let inputs := linePrefixValue inputLine (Utf8.encode "  :in ")
  let outputs := linePrefixValue outputLine (Utf8.encode "  :out ")
  let fence := linePrefixValue fenceLine (Utf8.encode "  :end ")
  if languageLine.hasLf = false ∨ words.length ≠ 4 ∨ words.head? ≠ some (Utf8.encode "#lang") then
    some "expected #lang LANGUAGE MODULE REGION followed by LF"
  else if validLanguageRef (words.getD 1 []) = false then
    some "invalid language reference"
  else if validName (words.getD 2 []) = false ∨ validName (words.getD 3 []) = false then
    some "invalid module or region name"
  else if inputLine.hasLf = false ∨ inputs = [] ∨ headerVector inputs = false then
    some "expected an exact two-space :in vector header line"
  else if outputLine.hasLf = false ∨ outputs = [] ∨ headerVector outputs = false then
    some "expected an exact two-space :out vector header line"
  else if fenceLine.hasLf = false ∨ fence = [] ∨ validFence fence = false then
    some "expected an exact two-space :end ASCII fence header line"
  else none

def acceptedHeader (source : Text) (start : Nat)
    (languageLine inputLine outputLine fenceLine : ContainerLine) : Option HeaderScan := do
  let words := strictSpaceWords languageLine.content
  let headerEnd := fenceLine.finish
  let span ← containerSpan source start headerEnd
  let fenceSpan ← containerSpan source fenceLine.start headerEnd
  return .accepted ⟨words.getD 1 [], words.getD 2 [], words.getD 3 [],
      linePrefixValue inputLine (Utf8.encode "  :in "),
      linePrefixValue outputLine (Utf8.encode "  :out "),
      linePrefixValue fenceLine (Utf8.encode "  :end "), subs source start headerEnd, span,
      fenceSpan⟩ headerEnd

def scanHeader (source : Text) (start : Nat) : Option HeaderScan :=
  let languageLine := lineAt source start
  let inputLine := lineAt source languageLine.finish
  let outputLine := lineAt source inputLine.finish
  let fenceLine := lineAt source outputLine.finish
  match headerProblem languageLine inputLine outputLine fenceLine with
  | some message => rejectedHeader source start languageLine.finish message
  | none => acceptedHeader source start languageLine inputLine outputLine fenceLine

/-- A header line does not start before the one above it. -/
theorem headerLines_ordered {s : Nat} (h : s < source.length) :
    let l := (lineAt source s).finish
    let i := (lineAt source l).finish
    let o := (lineAt source i).finish
    let f := (lineAt source o).finish
    s < l ∧ l ≤ i ∧ i ≤ o ∧ o ≤ f ∧ f ≤ source.length := by
  have hl := lt_lineAt_finish h
  have hi := le_lineAt_finish hl.2
  have hout := le_lineAt_finish hi.2
  have hf := le_lineAt_finish hout.2
  exact ⟨hl.1, hi.1, hout.1, hf.1, hf.2⟩

variable {s next : Nat}

/-- The next offset of a header is behind its start. -/
theorem lt_scanHeader_accepted {hd : ContainerHeader}
    (h : s < source.length) (hs : scanHeader source s = some (.accepted hd next)) :
    s < next ∧ next ≤ source.length := by
  have hl := headerLines_ordered h
  unfold scanHeader at hs
  dsimp only at hs hl
  split at hs
  · simp [rejectedHeader, Option.bind_eq_some_iff] at hs
  · simp only [acceptedHeader, Option.bind_eq_bind, Option.bind_eq_some_iff, Option.pure_def,
      Option.some.injEq, HeaderScan.accepted.injEq] at hs
    obtain ⟨-, -, -, -, -, rfl⟩ := hs
    omega

variable {diagnostic : ContainerDiagnostic}

/-- A refused header is passed over up to a `#lang` line behind its first line. -/
theorem lt_scanHeader_rejected (h : s < source.length)
    (hs : scanHeader source s = some (.rejected diagnostic next)) :
    s < next ∧ next ≤ source.length := by
  have hl := lt_lineAt_finish h
  have hn := nextLanguageBoundary_bounds hl.2
  unfold scanHeader at hs
  dsimp only at hs
  split at hs
  · simp only [rejectedHeader, Option.bind_eq_bind, Option.bind_eq_some_iff, Option.pure_def,
      Option.some.injEq, HeaderScan.rejected.injEq] at hs
    obtain ⟨-, -, -, rfl⟩ := hs
    omega
  · simp [acceptedHeader, Option.bind_eq_some_iff] at hs

/-! ### Regions -/

def closingFenceOffset (source : Text) (start : Nat) (fence : Text) : Option Nat :=
  if h : start < source.length then
    if (lineAt source start).content = fence ∧ (lineAt source start).hasLf = true then some start
    else closingFenceOffset source (lineAt source start).finish fence
  else
    none
termination_by source.length - start
decreasing_by have := lt_lineAt_finish h; omega

def unterminatedRegion (source : Text) (start : Nat) (header : ContainerHeader)
    (payloadStart : Nat) : Option RegionScan := do
  let finish := source.length
  let span ← containerSpan source start finish
  let payloadSpan ← containerSpan source payloadStart finish
  let closingSpan ← containerSpan source finish finish
  return .unterminated
    ⟨header, subs source payloadStart finish, [], subs source start finish, span, payloadSpan,
      closingSpan, false⟩
    ⟨.unterminatedRegion, "valid region header has no exact standalone closing fence line", span⟩

def terminatedRegion (source : Text) (start : Nat) (header : ContainerHeader)
    (payloadStart closingStart : Nat) : Option RegionScan := do
  let closingLine := lineAt source closingStart
  let finish := closingLine.finish
  let span ← containerSpan source start finish
  let payloadSpan ← containerSpan source payloadStart closingStart
  let closingSpan ← containerSpan source closingStart finish
  return .accepted
    ⟨header, subs source payloadStart closingStart, closingLine.raw, subs source start finish,
      span, payloadSpan, closingSpan, true⟩ finish

def scanRegion (source : Text) (start : Nat) : Option RegionScan :=
  match scanHeader source start with
  | none => none
  | some (.rejected diagnostic recoveryOffset) => some (.malformed diagnostic recoveryOffset)
  | some (.accepted header payloadStart) =>
    match closingFenceOffset source payloadStart header.fence with
    | none => unterminatedRegion source start header payloadStart
    | some closingStart => terminatedRegion source start header payloadStart closingStart

/-- A closing line is a line of the payload. -/
theorem closingFenceOffset_bounds {s c : Nat} {f : Text}
    (h : closingFenceOffset source s f = some c) :
    s ≤ c ∧ c < source.length := by
  fun_induction closingFenceOffset source s f with
  | case1 s hlt => exact Option.some.inj h ▸ ⟨Nat.le_refl _, hlt⟩
  | case2 s hlt hl ih =>
    have hfin := lt_lineAt_finish hlt
    have := ih h
    omega
  | case3 => simp at h

theorem lt_scanRegion_malformed (h : s < source.length)
    (hs : scanRegion source s = some (.malformed diagnostic next)) :
    s < next ∧ next ≤ source.length := by
  unfold scanRegion at hs
  split at hs
  · simp at hs
  · next heq =>
      obtain ⟨rfl, rfl⟩ : _ ∧ _ := by simpa using hs
      exact lt_scanHeader_rejected h heq
  · split at hs
    · simp [unterminatedRegion, Option.bind_eq_some_iff] at hs
    · simp [terminatedRegion, Option.bind_eq_some_iff] at hs

theorem lt_scanRegion_accepted {rg : ContainerRegion}
    (h : s < source.length) (hs : scanRegion source s = some (.accepted rg next)) :
    s < next ∧ next ≤ source.length := by
  unfold scanRegion at hs
  split at hs
  · simp at hs
  · simp at hs
  · next heq =>
      have hhdr := lt_scanHeader_accepted h heq
      split at hs
      · simp [unterminatedRegion, Option.bind_eq_some_iff] at hs
      · next hc =>
          have hb := closingFenceOffset_bounds hc
          have hl := lt_lineAt_finish hb.2
          simp only [terminatedRegion, Option.bind_eq_bind, Option.bind_eq_some_iff,
            Option.pure_def, Option.some.injEq, RegionScan.accepted.injEq] at hs
          obtain ⟨-, -, -, -, -, -, -, rfl⟩ := hs
          omega

/-! ### The container -/

def appendTrivia (source : Text) (pieces : List ContainerPiece) (start finish : Nat) :
    Option (List ContainerPiece) :=
  if start = finish then some pieces
  else do
    let span ← containerSpan source start finish
    return pieces ++ [.trivia (subs source start finish) span]

def scanFrom (source : Text) (cursor : Nat) (pieces : List ContainerPiece)
    (regions : List ContainerRegion) (diagnostics : List ContainerDiagnostic) :
    Option LanguageContainerCst :=
  if h : cursor < source.length then
    let boundary := nextLanguageBoundary source cursor
    match appendTrivia source pieces cursor boundary with
    | none => none
    | some before =>
      if hlast : boundary = source.length then
        some ⟨source, before, regions, diagnostics⟩
      else
        match hscan : scanRegion source boundary with
        | none => none
        | some (.accepted region nextOffset) =>
          scanFrom source nextOffset (before ++ [.regionPiece region]) (regions ++ [region])
            diagnostics
        | some (.malformed diagnostic recoveryOffset) =>
          match appendTrivia source before boundary recoveryOffset with
          | none => none
          | some passed =>
            scanFrom source recoveryOffset passed regions (diagnostics ++ [diagnostic])
        | some (.unterminated region diagnostic) =>
          some ⟨source, before ++ [.regionPiece region], regions ++ [region],
            diagnostics ++ [diagnostic]⟩
  else
    some ⟨source, pieces, regions, diagnostics⟩
termination_by source.length - cursor
decreasing_by
  · have hbounds := nextLanguageBoundary_bounds (Nat.le_of_lt h)
    have hnext := lt_scanRegion_accepted (by omega) hscan
    omega
  · have hbounds := nextLanguageBoundary_bounds (Nat.le_of_lt h)
    have hnext := lt_scanRegion_malformed (by omega) hscan
    omega

def scanContainer (source : Text) : Option LanguageContainerCst := scanFrom source 0 [] [] []

def renderPiece : ContainerPiece → Text
  | .trivia text _ => text
  | .regionPiece region => region.raw

def renderExact (container : LanguageContainerCst) : Text :=
  container.pieces.foldl (fun rendered piece => rendered ++ renderPiece piece) []

/-! ### Canonical fences -/

theorem lt_lineAt_of_finish {s : Nat} (hs : s ≤ source.length)
    (h : (lineAt source s).finish < source.length) : s < (lineAt source s).finish := by
  by_cases hlt : s < source.length
  · exact (lt_lineAt_finish hlt).1
  · have := (le_lineAt_finish hs).1
    omega

/-- The loop of `standalone-line?`, from an offset on. -/
def standaloneFrom (payload candidate : Text) (offset : Nat) : Bool :=
  if _ : offset > payload.length then false
  else if candidate = (lineAt payload offset).content then true
  else if _ : (lineAt payload offset).finish ≥ payload.length then false
  else standaloneFrom payload candidate (lineAt payload offset).finish
termination_by payload.length - offset
decreasing_by have := @lt_lineAt_of_finish payload offset (by omega) (by omega); omega

def standaloneLine (payload candidate : Text) : Bool := standaloneFrom payload candidate 0

def fenceCandidate (safeBase : String) (suffix : Nat) : String :=
  if suffix = 0 then safeBase else safeBase ++ "_" ++ toString suffix

/-- The loop over the suffixes. -/
def fenceFrom (safeBase payload : String) : (fuel suffix : Nat) → Option String
  | 0, _ => none
  | fuel + 1, suffix =>
    let candidate := fenceCandidate safeBase suffix
    if standaloneLine (Utf8.encode payload) (Utf8.encode candidate) then
      fenceFrom safeBase payload fuel (suffix + 1)
    else some candidate

def selectCanonicalFence (fuel : Nat) (base payload : String) : Option String :=
  fenceFrom (if validFence (Utf8.encode base) then base else "BGL") payload fuel 0

end Beagle.LanguageContainer
