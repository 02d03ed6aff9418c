/-
How far the score of a text ranks its evidence.

The score of a row that matches is a sum: 60 points for each token of the needle whose
stem the row has, 40 more for each that it has as it stands, 250 for the phrase, and the
points beside the words, for repeated tokens, for the needle as a part of the text or as
the whole of it, less the length that the row has beyond the needle.  The points beside
the words are what lets weaker evidence overtake stronger, and **the ranking is as
documented exactly when they never do** (`evidence_ranks_iff`).
-/
import Beagle.Store.TextSearch

namespace Beagle.Store.TextSearch

open Beagle.Lib List
open Beagle.Lib (Utf8.encode)
open Beagle.Native (Text)

/-! ### Rows -/

/-- What the analyzers keep of a row. -/
structure Document where
  tokens : List Text
  normalized : Text

def Host.document (host : Host) (proposition : Triple) : Document :=
  match textOf proposition with
  | some value => ⟨host.wordTokens value, host.lower value⟩
  | none => ⟨[], []⟩

theorem analyzeRow_tokenRows (host : Host) (h' : Nat) (pr : Triple) (s : SearchAnalyzers) :
    (host.analyzeRow h' pr s).tokenRows = s.tokenRows ++ [(host.document pr).tokens] := by
  unfold Host.analyzeRow Host.document
  split <;> simp_all

theorem analyzeRow_normalizedRows (host : Host) (h' : Nat) (pr : Triple) (s : SearchAnalyzers) :
    (host.analyzeRow h' pr s).normalizedRows =
      s.normalizedRows ++ [(host.document pr).normalized] := by
  unfold Host.analyzeRow Host.document
  split <;> simp_all

theorem buildFrom_rows (host : Host) (rs : List Triple) :
    ∀ (h' : Nat) (s : SearchAnalyzers), (host.buildFrom h' rs s).tokenRows =
          s.tokenRows ++ rs.map (fun row => (host.document row).tokens) ∧
        (host.buildFrom h' rs s).normalizedRows =
          s.normalizedRows ++ rs.map (fun row => (host.document row).normalized) := by
  induction rs with
  | nil =>
    intro h' s
    simp [Host.buildFrom]
  | cons row r ih =>
    intro h' s
    obtain ⟨ht, hn⟩ := ih (h' + 1) (host.analyzeRow h' row s)
    simp only [Host.buildFrom, ht, hn, analyzeRow_tokenRows,
      analyzeRow_normalizedRows, map_cons, append_assoc, singleton_append,
      and_self]

variable {host : Host}

/-- The index of the source is within its budget. -/
def Fits (source : TextSearchSource host) : Prop :=
  source.analyzersCell.isSome ∨ source.bytes + (host.buildState source.rows).weight ≤ source.maximum

theorem analyzersOf_ok (s : TextSearchSource host) (ans : SearchAnalyzers) :
    (analyzersOf s).1 = .ok ans ↔ Fits s ∧ ans = host.buildState s.rows := by
  unfold analyzersOf Fits
  split
  · next c hc =>
      have hb := s.built c hc
      simp [hc, hb, eq_comm]
  · next hc =>
      simp only [hc, Option.isSome_none, Bool.false_eq_true, false_or, indexLimitError]
      by_cases h : s.bytes + (host.buildState s.rows).weight > s.maximum
      · simp only [if_pos h, reduceCtorEq, false_iff, not_and]
        exact fun hf => absurd hf (not_le.mpr h)
      · simp only [if_neg h, Except.ok.injEq, not_lt.mp h, true_and, eq_comm]

/-- A score is given where the needle is a text, the index fits and the row is there. -/
theorem scoreAt_ok {source : TextSearchSource host} {h' : Nat} {nd : Needle} {s : Int} :
    (scoreAt source h' nd).1 = .ok s ↔
      ∃ v, host.substringNeedle "text-search" nd = .ok v ∧ Fits source ∧
        ∃ row, source.rows[h']? = some row ∧
          s = host.score v (host.document row).tokens (host.document row).normalized := by
  unfold scoreAt
  cases hne : host.substringNeedle "text-search" nd with
  | error error => simp
  | ok v =>
    have hok := analyzersOf_ok source
    obtain ⟨ht, hn⟩ := buildFrom_rows host source.rows 0 ⟨[], [], [], []⟩
    cases hr : analyzersOf source with
    | mk res l =>
      rw [hr] at hok
      cases res with
      | error error =>
        have hnot : ¬Fits source := by
          intro hf
          exact nomatch (hok _).mpr ⟨hf, rfl⟩
        simp [hnot]
      | ok ans =>
        obtain ⟨hf, rfl⟩ := (hok ans).mp rfl
        simp only [Host.buildState, ht, hn, nil_append, getElem?_map]
        cases hrow : source.rows[h']? with
        | none => simp
        | some row => simp [hf, eq_comm]

/-! ### Evidence -/

/-- What a text has of a needle. -/
structure Evidence where
  /-- The tokens of the needle that the text has as they stand. -/
  verbatim : Nat
  /-- The tokens of the needle whose stem the text has. -/
  stemmed : Nat
  /-- The places of the tokens in the text, three for each at most. -/
  occurrences : Nat
  phrase : Bool
  part : Bool
  whole : Bool
  /-- How many tokens the text has beyond the needle, 40 at most. -/
  excess : Nat

def Host.evidence (host : Host) (value : Text) (document : Document) : Evidence where
  verbatim := (host.wordTokens value).countP document.tokens.contains
  stemmed := (host.wordTokens value).countP
    fun token => (host.stems document.tokens).contains (host.englishStem token)
  occurrences := ((host.wordTokens value).map fun token =>
    min 3 (countToken document.tokens token)).sum
  phrase := host.wordTokens value ≠ [] && sequenceContains document.tokens (host.wordTokens value)
  part := decide (value <:+: document.normalized)
  whole := document.normalized == value
  excess := min 40 (document.tokens.length - (host.wordTokens value).length)

def Evidence.phrasePoints (evidence : Evidence) : Int := if evidence.phrase then 250 else 0

/-- The points that are neither for a word or a stem nor for the phrase. -/
def Evidence.points (evidence : Evidence) : Int :=
  5 * evidence.occurrences + (if evidence.part then 80 else 0) +
    (if evidence.whole then 400 else 0) - evidence.excess

/-- Every token of the needle is one of the text. -/
def Exact (host : Host) (value : Text) (document : Document) : Prop :=
  ∀ token ∈ host.wordTokens value, token ∈ document.tokens

/-- The needle has words, and every stem of them is one of the text. -/
def Covered (host : Host) (value : Text) (document : Document) : Prop :=
  host.wordTokens value ≠ [] ∧
    ∀ token ∈ host.wordTokens value, host.englishStem token ∈ host.stems document.tokens

/-- The needle is a part of the text and its stems are not all there. -/
def OnlyPart (host : Host) (value : Text) (document : Document) : Prop :=
  value <:+: document.normalized ∧ ¬Covered host value document

instance (host : Host) (value : Text) (document : Document) : Decidable (Exact host value document) :=
  inferInstanceAs (Decidable (∀ token ∈ host.wordTokens value, token ∈ document.tokens))

instance (host : Host) (value : Text) (document : Document) :
    Decidable (Covered host value document) :=
  inferInstanceAs (Decidable (host.wordTokens value ≠ [] ∧
    ∀ token ∈ host.wordTokens value, host.englishStem token ∈ host.stems document.tokens))

instance (host : Host) (value : Text) (document : Document) :
    Decidable (OnlyPart host value document) :=
  inferInstanceAs (Decidable (value <:+: document.normalized ∧ ¬Covered host value document))

variable {tokens : List Text}

theorem mem_stems {stem : Text} :
    stem ∈ host.stems tokens ↔ ∃ t ∈ tokens, host.englishStem t = stem := by
  rw [Host.stems, mem_dedup, mem_map]

theorem stems_eq_nil : host.stems tokens = [] ↔ tokens = [] := by
  rw [Host.stems, dedup_eq_nil, map_eq_nil_iff]

variable {v : Text} {document : Document}

theorem stemCovered_iff :
    stemCovered host (host.wordTokens v) document.tokens = true ↔ Covered host v document := by
  unfold stemCovered Covered
  rw [Bool.and_eq_true, decide_eq_true_iff, ne_eq, stems_eq_nil, all_eq_true]
  refine and_congr_right fun _ => ?_
  simp only [decide_eq_true_iff, mem_stems]
  constructor
  · intro h t htok
    exact h _ ⟨t, htok, rfl⟩
  · rintro h s ⟨t, htok, rfl⟩
    exact h t htok

theorem Exact.covered (h : Exact host v document)
    (hw : host.wordTokens v ≠ []) : Covered host v document :=
  ⟨hw, fun t htok => mem_stems.mpr ⟨t, h t htok, rfl⟩⟩

/-- A text with the phrase has every word of it. -/
theorem covered_of_phrase
    (h : (host.evidence v document).phrase = true) :
    Exact host v document ∧ Covered host v document := by
  simp only [Host.evidence, Bool.and_eq_true, decide_eq_true_iff, sequenceContains] at h
  obtain ⟨hw, hp⟩ := h
  split_ifs at hp
  have hi := of_decide_eq_true hp
  have he : Exact host v document := fun t htok => hi.subset htok
  exact ⟨he, he.covered hw⟩

/-! ### The score of a row that matches -/

theorem matchScore_eq (documentTokens : List Text) (t : Text) : host.matchScore documentTokens t =
      60 * (if host.englishStem t ∈ host.stems documentTokens then 1 else 0) +
        40 * (if t ∈ documentTokens then 1 else 0) +
        5 * (min 3 (countToken documentTokens t) : Nat) := by
  unfold Host.matchScore
  dsimp only
  by_cases he : t ∈ documentTokens
  · have hs : host.englishStem t ∈ host.stems documentTokens :=
      mem_stems.mpr ⟨t, he, rfl⟩
    rw [if_pos he, if_pos hs, if_pos he]
    ring
  · rw [if_neg he, if_neg he]
    split_ifs <;> ring

/-- The sum over the tokens, split by the evidence of each. -/
theorem tokenScore_eq (dt q : List Text) (t : Int) :
    q.foldl (fun t tk => t + host.matchScore dt tk) t =
      t + 60 * (q.countP fun tk => (host.stems dt).contains (host.englishStem tk) : Nat) +
        40 * (q.countP dt.contains : Nat) +
        5 * ((q.map fun tk => min 3 (countToken dt tk)).sum : Nat) := by
  induction q generalizing t with
  | nil => simp
  | cons tk r ih =>
    rw [foldl_cons, ih, matchScore_eq]
    simp only [countP_cons, map_cons, sum_cons, contains_iff_mem]
    push_cast
    ring

variable {doc : Document}

theorem Covered.stemmed (h : Covered host v doc) :
    (host.evidence v doc).stemmed = (host.wordTokens v).length := by
  refine countP_eq_length.mpr fun t htok => ?_
  exact contains_iff_mem.mpr (h.2 t htok)

theorem Exact.verbatim (h : Exact host v doc) :
    (host.evidence v doc).verbatim = (host.wordTokens v).length := by
  refine countP_eq_length.mpr fun t htok => ?_
  exact contains_iff_mem.mpr (h t htok)

theorem penalty_eq (doc q : Nat) : min 40 (max 0 ((doc : Int) - q)) = (min 40 (doc - q) : Nat) := by
  omega

/-- What a row that matches has is more than the penalty can take. -/
theorem excess_lt (h : v <:+: doc.normalized ∨ Covered host v doc) :
    ((host.evidence v doc).excess : Int) < 60 * (host.evidence v doc).stemmed +
        (if (host.evidence v doc).part then 80 else 0) := by
  have he : (host.evidence v doc).excess ≤ 40 := Nat.min_le_left _ _
  rcases h with hp | hcov
  · have hmat : (host.evidence v doc).part = true := decide_eq_true hp
    rw [if_pos hmat]
    omega
  · have hlen := length_pos_iff.mpr hcov.1
    rw [hcov.stemmed]
    split_ifs <;> omega

/-- The least score is never taken by a row that matches. -/
theorem score_eq (h : v <:+: doc.normalized ∨ Covered host v doc) :
    host.score v doc.tokens doc.normalized =
      60 * (host.evidence v doc).stemmed + 40 * (host.evidence v doc).verbatim +
        (host.evidence v doc).phrasePoints + (host.evidence v doc).points := by
  have hmat : ¬¬((decide (v <:+: doc.normalized)) = true ∨
      stemCovered host (host.wordTokens v) doc.tokens = true) := by
    rw [not_not, decide_eq_true_iff, stemCovered_iff]
    exact h
  have hsum : host.score v doc.tokens doc.normalized =
      max 1 (0 + 60 * ((host.evidence v doc).stemmed : Int) + 40 * (host.evidence v doc).verbatim +
        5 * (host.evidence v doc).occurrences +
        (host.evidence v doc).phrasePoints +
        (if (host.evidence v doc).part then 80 else 0) +
        (if (host.evidence v doc).whole then 400 else 0) -
        (host.evidence v doc).excess) := by
    unfold Host.score
    dsimp only
    rw [if_neg hmat, tokenScore_eq, penalty_eq]
    rfl
  have hl := excess_lt h
  have hp : 0 ≤ (host.evidence v doc).phrasePoints := by
    unfold Evidence.phrasePoints
    split_ifs <;> omega
  rw [hsum, max_eq_right]
  · unfold Evidence.points
    ring
  · split_ifs at hl ⊢ <;> omega

/-! ### The ranking -/

/-- As documented: the rows with every word before those with every stem only, and these before the
    rows that have the needle as a part only. -/
def RanksEvidence (source : TextSearchSource host) (needle : Needle) : Prop :=
  ∀ value, host.substringNeedle "text-search" needle = .ok value →
    ∀ handle other row otherRow score otherScore,
      source.rows[handle]? = some row → source.rows[other]? = some otherRow →
      (scoreAt source handle needle).1 = .ok score →
      (scoreAt source other needle).1 = .ok otherScore → (Exact host value (host.document row) →
          Covered host value (host.document otherRow) → ¬Exact host value (host.document otherRow) →
            otherScore < score) ∧
        (Covered host value (host.document row) →
          OnlyPart host value (host.document otherRow) → otherScore < score)

/-- The points beside the words do not make up for the words that are missing. -/
def Outweighs (host : Host) (value : Text) (document other : Document) : Prop :=
  (Exact host value document → Covered host value other → ¬Exact host value other →
    (host.evidence value other).points <
      (host.evidence value document).points + (host.evidence value document).phrasePoints +
        40 * ((host.wordTokens value).length - (host.evidence value other).verbatim)) ∧
  (Covered host value document → OnlyPart host value other →
    (host.evidence value other).points + 40 * (host.evidence value other).verbatim <
      (host.evidence value document).points + (host.evidence value document).phrasePoints +
        60 * ((host.wordTokens value).length - (host.evidence value other).stemmed) +
        40 * (host.evidence value document).verbatim)

theorem phrasePoints_of_not
    (h : ¬(Exact host v doc ∧ Covered host v doc)) :
    (host.evidence v doc).phrasePoints = 0 :=
  if_neg fun hp => h (covered_of_phrase hp)

/-- The scores of two rows stand as their evidence outweighs. -/
theorem outweighs_iff {doc o : Document} : Outweighs host v doc o ↔
      (Exact host v doc → Covered host v o → ¬Exact host v o → host.score v o.tokens o.normalized <
          host.score v doc.tokens doc.normalized) ∧
      (Covered host v doc → OnlyPart host v o → host.score v o.tokens o.normalized <
          host.score v doc.tokens doc.normalized) := by
  refine and_congr ?_ ?_
  · refine forall_congr' fun he => forall_congr' fun hcov => forall_congr' fun hnot => ?_
    have hd := he.covered hcov.1
    rw [score_eq (Or.inr hcov), score_eq (Or.inr hd), hcov.stemmed,
      hd.stemmed, he.verbatim, phrasePoints_of_not fun h => hnot h.1]
    constructor <;> intro h <;> omega
  · refine forall_congr' fun hcov => forall_congr' fun hp => ?_
    rw [score_eq (Or.inr hcov), score_eq (Or.inl hp.1), hcov.stemmed,
      phrasePoints_of_not fun h => hp.2 h.2]
    constructor <;> intro h <;> omega

/-- **The scores rank the evidence of the rows exactly where the points beside the words never make
    up for the words that are missing.** -/
theorem evidence_ranks_iff (host : Host) (source : TextSearchSource host) (needle : Needle) :
    RanksEvidence source needle ↔
      ∀ value, host.substringNeedle "text-search" needle = .ok value → Fits source →
        ∀ row ∈ source.rows, ∀ other ∈ source.rows,
          Outweighs host value (host.document row) (host.document other) := by
  unfold RanksEvidence
  refine forall_congr' fun value => forall_congr' fun hval => ?_
  have hs : ∀ {h' row}, Fits source → source.rows[h']? = some row →
      (scoreAt source h' needle).1 = .ok
        (host.score value (host.document row).tokens (host.document row).normalized) := by
    intro h' row hf hrow
    exact scoreAt_ok.mpr ⟨value, hval, hf, row, hrow, rfl⟩
  constructor
  · intro hr hf row hrow other ho
    obtain ⟨h', hh⟩ := mem_iff_getElem?.mp hrow
    obtain ⟨p, hp⟩ := mem_iff_getElem?.mp ho
    exact outweighs_iff.mpr (hr h' p row other _ _ hh hp (hs hf hh) (hs hf hp))
  · intro hou h' p row other s os hh hp hfst hsnd
    obtain ⟨_, _, hf, _⟩ := scoreAt_ok.mp hfst
    obtain rfl := Except.ok.inj (hfst.symm.trans (hs hf hh))
    obtain rfl := Except.ok.inj (hsnd.symm.trans (hs hf hp))
    exact outweighs_iff.mp (hou hf row (mem_of_getElem? hh) other (mem_of_getElem? hp))

/-! ### Rows that are overtaken -/

/-- The host on texts of single bytes. -/
def plainHost : Host where
  lower := List.map fun byte => if 65 ≤ byte ∧ byte ≤ 90 then byte + 32 else byte
  split := splitOnP fun byte =>
    ¬((48 ≤ byte ∧ byte ≤ 57) ∨ (65 ≤ byte ∧ byte ≤ 90) ∨ (97 ≤ byte ∧ byte ≤ 122))
  trim value := (((value.dropWhile (· ≤ 32)).reverse).dropWhile (· ≤ 32)).reverse

/-- A corpus of two notes. -/
def notes (first second : String) : TextSearchSource plainHost where
  rows := [first, second].map fun text =>
    ⟨.atom (.string "page"), .atom (.string "note"), .atom (.string text)⟩
  maximum := 1000000
  bytes := 0
  analyzersCell := none
  built := nofun

/-- A stem is worth less than a part of a text, and two words less than one of them, the stem of the
    other and a part of the text. -/
theorem evidence_overtaken :
    ¬RanksEvidence (notes "runs" "xrunningx") (.text (Utf8.encode "running")) ∧
      ¬RanksEvidence (notes "fast run" "run faster") (.text (Utf8.encode "run fast")) := by
  constructor
  · intro h
    have hr := (h (Utf8.encode "running") (by decide) 0 1 _ _ 60 80 rfl rfl (by decide +kernel)
      (by decide +kernel)).2
    exact absurd (hr (by decide +kernel) (by decide +kernel)) (by decide)
  · intro h
    have hr := (h (Utf8.encode "run fast") (by decide) 0 1 _ _ 210 245 rfl rfl
      (by decide +kernel) (by decide +kernel)).1
    exact absurd (hr (by decide +kernel) (by decide +kernel) (by decide +kernel)) (by decide)

end Beagle.Store.TextSearch
