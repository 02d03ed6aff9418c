/-
Searching the live texts and scoring what is found.

A source holds the propositions that a query ranges over.  Its analyzers are realized on
first use: the words of each text and its lower-case form, and postings of the stems and
of the runs of three bytes.  A row is scored by its evidence: the needle's words, or
their stems, the phrase, the needle as a part of the text and the needle as the text.
-/
import Beagle.Lib.Keyed
import Beagle.Native.Text
import Beagle.Store.Types

namespace Beagle.Store.TextSearch

open Beagle.Lib
open Beagle.Lib (Utf8.encode)
open Beagle.Native (Text)

/-! ### Texts -/

/-- What the host knows of Unicode. -/
structure Host where
  /-- `str/lower-case`. -/
  lower : Text → Text
  /-- `str/split` at the runs of what is no letter and no digit. -/
  split : Text → List Text
  /-- `str/trim`. -/
  trim : Text → Text

def Host.wordTokens (host : Host) (value : Text) : List Text :=
  ((host.split value).filter fun part => part ≠ []).map host.lower

def endsWith (value : Text) (ending : String) : Bool := (Utf8.encode ending).isSuffixOf value

/-- `drop-last`. -/
def dropEnd (value : Text) (amount : Nat) : Text := value.take (value.length - amount)

/-- Is the byte the text of one of the letters? -/
def isOneOf (letters : String) (character : UInt8) : Bool := character ∈ Utf8.encode letters

def vowel (character : UInt8) : Bool := isOneOf "aeiou" character

def hasVowel (value : Text) : Bool := value.any vowel

def doubleConsonant (value : Text) : Bool :=
  match value.reverse with
  | last :: prior :: _ => last = prior && (!vowel last && !isOneOf "lsz" last)
  | _ => false

def shortSyllable (value : Text) : Bool :=
  match value.reverse with
  | last :: middle :: first :: _ =>
    !vowel first && (vowel middle && (!vowel last && !isOneOf "wxy" last))
  | _ => false

def normalizeVerbStem (value : Text) : Text :=
  if doubleConsonant value then dropEnd value 1
  else if shortSyllable value then value ++ Utf8.encode "e"
  else value

def pluralStem (value : Text) : Text :=
  if value.length > 4 ∧ endsWith value "ies" then dropEnd value 3 ++ Utf8.encode "y"
  else if endsWith value "sses" then dropEnd value 2
  else if value.length > 3 ∧ endsWith value "s" ∧
      ¬(endsWith value "ss" ∨ endsWith value "us" ∨ endsWith value "is") then
    dropEnd value 1
  else value

/-- What is left of a verb without an ending of that size. -/
def verbStem (value : Text) (ending : Nat) : Text :=
  let base := dropEnd value ending
  if hasVowel base then normalizeVerbStem base else value

def Host.englishStem (host : Host) (token : Text) : Text :=
  let value := pluralStem (host.lower token)
  if value.length > 4 ∧ endsWith value "ied" then dropEnd value 3 ++ Utf8.encode "y"
  else if value.length > 5 ∧ endsWith value "ing" then verbStem value 3
  else if value.length > 4 ∧ endsWith value "ed" then verbStem value 2
  else if value.length > 4 ∧ endsWith value "ly" then dropEnd value 2
  else if value.length > 4 ∧ endsWith value "er" then verbStem value 2
  else if value.length > 5 ∧ endsWith value "est" then verbStem value 3
  else value

/-- A set is a list without repetitions. -/
def Host.stems (host : Host) (tokens : List Text) : List Text :=
  (tokens.map host.englishStem).dedup

def trigrams (value : Text) : List Text :=
  ((List.range (value.length - 2)).map fun index => (value.drop index).take 3).dedup

/-! ### The analyzers -/

abbrev PostingMap := List (Text × List Nat)

def postingsAdd (postings : PostingMap) (keys : List Text) (handle : Nat) : PostingMap :=
  keys.foldl (fun current key =>
    (Likeness.ofEq Text).set current key
      (((Likeness.ofEq Text).get current key).getD [] ++ [handle])) postings

def postingsWeight (postings : PostingMap) : Int :=
  (postings.map fun (key, handles) => (84 + 4 * key.length + 42 * handles.length : Int)).sum

def tokenRowsWeight (rows : List (List Text)) : Int :=
  (rows.map fun tokens =>
    (42 + (tokens.map fun token => (42 + 4 * token.length : Int)).sum : Int)).sum

def stringsWeight (values : List Text) : Int :=
  (values.map fun value => (70 + 4 * value.length : Int)).sum

structure SearchAnalyzers where
  tokenRows : List (List Text)
  normalizedRows : List Text
  stemPostings : PostingMap
  trigramPostings : PostingMap
deriving DecidableEq, Repr

/-- The text of a proposition, if its third Term is one. -/
def textOf (proposition : Triple) : Option Text :=
  match proposition.t3 with
  | .atom (.string value) => some (Utf8.encode value)
  | _ => none

/-- One round of `build-state`. -/
def Host.analyzeRow (host : Host) (handle : Nat) (proposition : Triple)
    (state : SearchAnalyzers) : SearchAnalyzers :=
  match textOf proposition with
  | some value =>
    let tokens := host.wordTokens value
    let normalized := host.lower value
    ⟨state.tokenRows ++ [tokens], state.normalizedRows ++ [normalized],
      postingsAdd state.stemPostings (host.stems tokens) handle,
      postingsAdd state.trigramPostings (trigrams normalized) handle⟩
  | none =>
    { state with
      tokenRows := state.tokenRows ++ [[]]
      normalizedRows := state.normalizedRows ++ [[]] }

def Host.buildFrom (host : Host) : Nat → List Triple → SearchAnalyzers → SearchAnalyzers
  | _, [], state => state
  | handle, proposition :: rest, state =>
    host.buildFrom (handle + 1) rest (host.analyzeRow handle proposition state)

def Host.buildState (host : Host) (rows : List Triple) : SearchAnalyzers :=
  host.buildFrom 0 rows ⟨[], [], [], []⟩

/-- Where the score of a row does not come about. -/
inductive TextError where
  | query (code message : String)
  | indexLimit (message : String) (bytes maximum : Int)
  | outOfRange
deriving DecidableEq, Repr

def indexLimitError (weight maximum : Int) : Option TextError :=
  if weight > maximum then
    some (.indexLimit "text search index exceeds the snapshot cache budget" weight maximum)
  else none

/-- The propositions of a query; the cell holds nothing or what is built from them. -/
structure TextSearchSource (host : Host) where
  rows : List Triple
  maximum : Int
  bytes : Int
  analyzersCell : Option SearchAnalyzers
  built : ∀ analyzers, analyzersCell = some analyzers → analyzers = host.buildState rows

def SearchAnalyzers.weight (analyzers : SearchAnalyzers) : Int :=
  tokenRowsWeight analyzers.tokenRows + stringsWeight analyzers.normalizedRows +
    postingsWeight analyzers.stemPostings + postingsWeight analyzers.trigramPostings

variable {host : Host}

/-- The analyzers, and the source with the cell that is left. -/
def analyzersOf (source : TextSearchSource host) :
    Except TextError SearchAnalyzers × TextSearchSource host :=
  match source.analyzersCell with
  | some current => (.ok current, source)
  | none =>
    let analyzers := host.buildState source.rows
    match indexLimitError (source.bytes + analyzers.weight) source.maximum with
    | some error => (.error error, source)
    | none =>
      (.ok analyzers, { source with
        analyzersCell := some analyzers
        built := fun _ h => (Option.some.inj h).symm })

/-! ### Needles -/

/-- The value of a needle: a text, or anything else. -/
inductive Needle where
  | text (value : Text)
  | other
deriving DecidableEq, Repr

def stringNeedle (relation : String) : Needle → Except TextError Text
  | .text value => .ok value
  | .other => .error (.query "query-text-invalid-needle" (relation ++ " needle must be a string"))

def Host.substringNeedle (host : Host) (relation : String) (needle : Needle) :
    Except TextError Text := do
  let value := host.lower (← stringNeedle relation needle)
  if host.trim value = [] then
    .error (.query "query-text-invalid-needle"
      (relation ++ " needle must contain non-whitespace text"))
  else .ok value

/-! ### The score -/

def sequenceContains (haystack needle : List Text) : Bool :=
  if needle = [] ∨ needle.length > haystack.length then false
  else decide (needle <:+: haystack)

def countToken (tokens : List Text) (wanted : Text) : Nat := tokens.count wanted

/-- What a token of the needle adds. -/
def Host.matchScore (host : Host) (documentTokens : List Text) (token : Text) : Int :=
  let matchScore : Int :=
    if token ∈ documentTokens then 100
    else if host.englishStem token ∈ host.stems documentTokens then 60
    else 0
  matchScore + 5 * (min 3 (countToken documentTokens token) : Nat)

def stemCovered (host : Host) (queryTokens documentTokens : List Text) : Bool :=
  host.stems queryTokens ≠ [] && (host.stems queryTokens).all (· ∈ host.stems documentTokens)

/-- The score of a text for a needle. -/
def Host.score (host : Host) (value : Text) (documentTokens : List Text) (normalized : Text) :
    Int :=
  let queryTokens := host.wordTokens value
  let substringMatch := decide (value <:+: normalized)
  let phraseMatch := queryTokens ≠ [] && sequenceContains documentTokens queryTokens
  if ¬(substringMatch ∨ stemCovered host queryTokens documentTokens) then 0
  else
    let tokenScore :=
      queryTokens.foldl (fun total token => total + host.matchScore documentTokens token) 0
    let phraseScore : Int := if phraseMatch then 250 else 0
    let substringScore : Int := if substringMatch then 80 else 0
    let exactScore : Int := if normalized == value then 400 else 0
    let raw := tokenScore + phraseScore + substringScore + exactScore
    let penalty : Int := min 40 (max 0 (documentTokens.length - queryTokens.length))
    max 1 (raw - penalty)

def scoreAt (source : TextSearchSource host) (handle : Nat) (needle : Needle) :
    Except TextError Int × TextSearchSource host :=
  match host.substringNeedle "text-search" needle with
  | .error error => (.error error, source)
  | .ok value =>
    match analyzersOf source with
    | (.error error, source) => (.error error, source)
    | (.ok analyzers, source) =>
      match analyzers.tokenRows[handle]?, analyzers.normalizedRows[handle]? with
      | some documentTokens, some normalized =>
        (.ok (host.score value documentTokens normalized), source)
      | _, _ => (.error .outOfRange, source)

end Beagle.Store.TextSearch
