/-
Admission is canonical.

A request is admissible or refused, and what is admitted is a function of the request alone.
So a closure that is admitted again is its own closure, targets in another order lead to the
same closure, and framed dimensions are told by their digest unless it collides.
-/
import Beagle.Native.FactProfile

namespace Beagle.FactProfile

open Beagle.Native (Sha256)
open Beagle.Lib (Utf8.encode Utf8.encode_injective)
open Beagle.Lib.Frames List
open Beagle.Lib.KeySort

/-! ### Targets -/

theorem unseenTargets_iff {seen ts : List String} : unseenTargets seen ts = true ↔
    "" ∉ ts ∧ ts.Nodup ∧ ∀ t ∈ ts, t ∉ seen := by
  induction ts generalizing seen with
  | nil => simp [unseenTargets]
  | cons t r ih =>
    rw [unseenTargets]
    by_cases hseen : t = "" ∨ t ∈ seen
    · rw [if_pos hseen]
      refine ⟨fun h => absurd h Bool.false_ne_true, ?_⟩
      rintro ⟨hemp, -, hnew⟩
      rcases hseen with rfl | hseen
      · exact absurd mem_cons_self hemp
      · exact absurd hseen (hnew t mem_cons_self)
    · rw [if_neg hseen, ih, nodup_cons]
      rw [not_or] at hseen
      constructor
      · rintro ⟨hemp, hnd, hnew⟩
        refine ⟨?_, ⟨?_, hnd⟩, ?_⟩
        · intro h
          rcases mem_cons.mp h with h | h
          · exact hseen.1 h.symm
          · exact hemp h
        · exact fun h => hnew t h (mem_append_right _ mem_cons_self)
        · intro o ho
          rcases mem_cons.mp ho with rfl | ho
          · exact hseen.2
          · exact fun h => hnew o ho (mem_append_left _ h)
      · rintro ⟨hemp, ⟨hh, hnd⟩, hnew⟩
        refine ⟨fun h => hemp (mem_cons_of_mem _ h), hnd, ?_⟩
        intro o ho h
        rcases List.mem_append.mp h with h | h
        · exact hnew o (mem_cons_of_mem _ ho) h
        · exact hh (mem_singleton.mp h ▸ ho)

theorem validTargets_iff {ts : List String} :
    validTargets ts = true ↔ "" ∉ ts ∧ ts.Nodup ∧ ts ≠ [] := by
  unfold validTargets
  rw [Bool.and_eq_true, unseenTargets_iff, bne_iff_ne, length_eq_zero_iff.ne]
  constructor
  · rintro ⟨⟨hemp, hnd, -⟩, hne⟩
    exact ⟨hemp, hnd, hne⟩
  · rintro ⟨hemp, hnd, hne⟩
    exact ⟨⟨hemp, hnd, fun _ _ => not_mem_nil⟩, hne⟩

theorem validTargets_perm {ts others : List String} (h : ts.Perm others) :
    validTargets ts = validTargets others := by
  rw [Bool.eq_iff_iff, validTargets_iff, validTargets_iff, h.mem_iff, h.nodup_iff]
  refine and_congr_right fun _ => and_congr_right fun _ => not_congr ?_
  rw [← length_eq_zero_iff, ← length_eq_zero_iff, h.length_eq]

theorem sortedUniqueTargets_sorted (targets : List String) :
    sortedUniqueTargets (sortedUniqueTargets targets) = sortedUniqueTargets targets :=
  sortBy_id_of_perm (sortBy_perm targets)

/-! ### Queries -/

/-- What the checks of a request ask for. -/
structure Admissible (request : QueryAdmissionRequest) : Prop where
  source : contentId request.sourceClosureDigest = true
  compiler : contentId request.compilerContext = true
  rules : contentId request.rulesContentId = true
  schema : contentId request.schemaContentId = true
  profile : supportedProfile request.profile = true
  targets : validTargets request.targets = true

/-- The closure of a request. -/
def closureOf (sha : Sha256) (request : QueryAdmissionRequest) : AdmittedQueryClosure :=
  let ordered := sortedUniqueTargets request.targets
  let digest := queryDigest sha request ordered
  { queryDigest := digest
    sourceClosureDigest := request.sourceClosureDigest
    compilerContext := request.compilerContext
    profile := request.profile
    targets := ordered
    rulesContentId := request.rulesContentId
    schemaContentId := request.schemaContentId
    facts := canonicalQueryFacts digest request ordered }

variable {s : Sha256}

theorem admitAndIdentifyQuery_cases (s : Sha256) (req : QueryAdmissionRequest) :
    (Admissible req ∧ admitAndIdentifyQuery s req = .admitted (closureOf s req)) ∨
    (¬ Admissible req ∧ ∃ c d, admitAndIdentifyQuery s req = .rejected c d) := by
  unfold admitAndIdentifyQuery
  by_cases hsrc : contentId req.sourceClosureDigest = true
  · by_cases hc : contentId req.compilerContext = true
    · by_cases hr : contentId req.rulesContentId = true
      · by_cases hsch : contentId req.schemaContentId = true
        · by_cases hp : supportedProfile req.profile = true
          · by_cases ht : validTargets req.targets = true
            · rw [hsrc, hc, hr, hsch, hp, ht]
              exact Or.inl ⟨⟨hsrc, hc, hr, hsch, hp, ht⟩, rfl⟩
            · rw [hsrc, hc, hr, hsch, hp, Bool.eq_false_of_not_eq_true ht]
              exact Or.inr ⟨fun h => ht h.targets, _, _, rfl⟩
          · rw [hsrc, hc, hr, hsch, Bool.eq_false_of_not_eq_true hp]
            exact Or.inr ⟨fun h => hp h.profile, _, _, rfl⟩
        · rw [hsrc, hc, hr, Bool.eq_false_of_not_eq_true hsch]
          exact Or.inr ⟨fun h => hsch h.schema, _, _, rfl⟩
      · rw [hsrc, hc, Bool.eq_false_of_not_eq_true hr]
        exact Or.inr ⟨fun h => hr h.rules, _, _, rfl⟩
    · rw [hsrc, Bool.eq_false_of_not_eq_true hc]
      exact Or.inr ⟨fun h => hc h.compiler, _, _, rfl⟩
  · rw [Bool.eq_false_of_not_eq_true hsrc]
    exact Or.inr ⟨fun h => hsrc h.source, _, _, rfl⟩

variable {request : QueryAdmissionRequest}

theorem admitAndIdentifyQuery_iff
    {closure : AdmittedQueryClosure} :
    admitAndIdentifyQuery s request = .admitted closure ↔
      Admissible request ∧ closure = closureOf s request := by
  rcases admitAndIdentifyQuery_cases s request with ⟨hfit, hres⟩ | ⟨hu, c, d, hres⟩
  · rw [hres, QueryAdmission.admitted.injEq]
    exact ⟨fun h => ⟨hfit, h.symm⟩, fun h => h.2.symm⟩
  · rw [hres]
    exact ⟨fun h => absurd h (by simp), fun h => absurd h.1 hu⟩

variable {req : QueryAdmissionRequest}

theorem Admissible.again (h : Admissible req) :
    Admissible (closureOf s req).request :=
  { h with targets := (validTargets_perm (sortBy_perm req.targets)).trans h.targets }

theorem closureOf_again (s : Sha256) (request : QueryAdmissionRequest) :
    closureOf s (closureOf s request).request = closureOf s request := by
  show closureOf s { request with targets := sortedUniqueTargets request.targets } = _
  unfold closureOf
  dsimp only
  rw [sortedUniqueTargets_sorted]
  rfl

variable {admitted : AdmittedQueryClosure} {i : Set (List UInt8)} {status : String}
  {artifact diagnostic : Option String}

theorem admitCanonicalQuery_iff {closure : AdmittedQueryClosure} :
    admitCanonicalQuery s closure = .admitted admitted ↔
      Admissible closure.request ∧ closure = closureOf s closure.request ∧ admitted = closure := by
  unfold admitCanonicalQuery
  rcases admitAndIdentifyQuery_cases s closure.request with
    ⟨hfit, hres⟩ | ⟨hu, c, d, hres⟩
  · rw [hres]
    dsimp only
    constructor
    · intro h
      split at h
      · rename_i hs
        obtain ⟨hdig, ht, hf⟩ := hs
        -- the other fields of the closure are the request's own
        have hc : closure = closureOf s closure.request := by
          cases closure
          simp only [closureOf, AdmittedQueryClosure.request, AdmittedQueryClosure.mk.injEq,
            true_and] at hdig ht hf ⊢
          exact ⟨hdig, ht, hf⟩
        exact ⟨hfit, hc, (QueryAdmission.admitted.inj h).symm.trans hc.symm⟩
      · simp at h
    · rintro ⟨-, hc, rfl⟩
      rw [← hc, if_pos ⟨rfl, rfl, rfl⟩]
  · rw [hres]
    exact ⟨fun h => absurd h (by simp), fun h => absurd h.1 hu⟩

/-- What a request is admitted as is admitted again. -/
theorem admitCanonicalQuery_admitted
    {closure : AdmittedQueryClosure} (h : admitAndIdentifyQuery s req = .admitted closure) :
    admitCanonicalQuery s closure = .admitted closure := by
  obtain ⟨hfit, rfl⟩ := admitAndIdentifyQuery_iff.mp h
  exact admitCanonicalQuery_iff.mpr ⟨hfit.again, (closureOf_again s req).symm, rfl⟩

/-- What is admitted is the closure of its own dimensions. -/
theorem admitAndIdentifyQuery_canonical {closure : AdmittedQueryClosure}
    (h : admitCanonicalQuery s closure = .admitted admitted) :
    admitAndIdentifyQuery s closure.request = .admitted closure ∧ admitted = closure := by
  obtain ⟨hfit, hc, hadm⟩ := admitCanonicalQuery_iff.mp h
  exact ⟨admitAndIdentifyQuery_iff.mpr ⟨hfit, hc⟩, hadm⟩

theorem admitAndIdentifyQuery_perm {targets : List String}
    (h : request.targets.Perm targets) :
    admitAndIdentifyQuery s { request with targets } = admitAndIdentifyQuery s request := by
  have hsrt : sortedUniqueTargets targets = sortedUniqueTargets request.targets :=
    (sortBy_id_of_perm h).symm
  unfold admitAndIdentifyQuery
  dsimp only
  rw [← validTargets_perm h, hsrt]
  rfl

/-! ### Digests -/

theorem framedAll_seven (a b c d e f g : String) :
    framedAll [a, b, c, d, e, f, g] = framed a ++ framed b ++ framed c ++ framed d ++ framed e ++
      framed f ++ framed g := by
  unfold framedAll
  simp only [foldl_cons, foldl_nil, String.empty_append]

theorem queryEncoding_eq (req : QueryAdmissionRequest) (ts : List String) :
    queryEncoding req ts = framedAll ["compile", req.sourceClosureDigest,
      req.compilerContext, req.profile, framedAll ts, req.rulesContentId,
      req.schemaContentId] := (framedAll_seven ..).symm

theorem resultEncoding_eq (req : ResultAdmissionRequest) :
    resultEncoding req = framedAll ["result", req.query.queryDigest, req.target,
      req.materializerContentId, req.status, req.artifactContentId.getD "",
      req.diagnosticContentId.getD ""] := (framedAll_seven ..).symm

/-- The bytes of which a query's digest is made. -/
def AdmittedQueryClosure.encoding (closure : AdmittedQueryClosure) : List UInt8 :=
  Utf8.encode (queryEncoding closure.request closure.targets)

theorem eq_of_queryDigest {req other : QueryAdmissionRequest}
    (hinj : Set.InjOn s.bytes i) (hmem : (closureOf s req).encoding ∈ i)
    (hmem' : (closureOf s other).encoding ∈ i)
    (h : (closureOf s req).queryDigest = (closureOf s other).queryDigest) :
    closureOf s req = closureOf s other := by
  have henc := Sha256.eq_of_digest hinj hmem hmem' h
  rw [queryEncoding_eq, queryEncoding_eq] at henc
  have hp := framedAll_injective henc
  simp only [List.cons.injEq, true_and, and_true] at hp
  obtain ⟨hsrc, hc, hpr, ht, hr, hsch⟩ := hp
  have hord : sortedUniqueTargets req.targets = sortedUniqueTargets other.targets :=
    framedAll_injective ht
  have hdig : queryDigest s req (sortedUniqueTargets req.targets) =
      queryDigest s other (sortedUniqueTargets other.targets) := h
  unfold closureOf
  dsimp only
  rw [hdig, hord]
  unfold canonicalQueryFacts
  rw [show req.sourceClosureDigest = other.sourceClosureDigest from hsrc,
    show req.compilerContext = other.compilerContext from hc,
    show req.profile = other.profile from hpr,
    show req.rulesContentId = other.rulesContentId from hr,
    show req.schemaContentId = other.schemaContentId from hsch]

/-! ### Results -/

theorem exactlyOne_iff {p a : Option String} : exactlyOne p a = true ↔
    ∃ v, p = some v ∧ contentId v = true ∧ a = none := by
  unfold exactlyOne
  rw [Bool.and_eq_true, Option.isNone_iff_eq_none]
  cases p with
  | none => simp
  | some v => simp [and_comm]

/-- The one identity that a result of a status carries. -/
inductive Carries : String → Option String → Option String → Prop where
  | artifact {value : String} (h : contentId value = true) : Carries "ok" (some value) none
  | diagnostic {value : String} (h : contentId value = true) : Carries "rejected" none (some value)

theorem carries_iff : Carries status artifact diagnostic ↔
      status = "ok" ∧ exactlyOne artifact diagnostic = true ∨
        status = "rejected" ∧ exactlyOne diagnostic artifact = true := by
  rw [exactlyOne_iff, exactlyOne_iff]
  constructor
  · intro h
    cases h with
    | artifact h => exact Or.inl ⟨rfl, _, rfl, h, rfl⟩
    | diagnostic h => exact Or.inr ⟨rfl, _, rfl, h, rfl⟩
  · rintro (⟨rfl, v, rfl, h, rfl⟩ | ⟨rfl, v, rfl, h, rfl⟩)
    · exact .artifact h
    · exact .diagnostic h

structure ResultAdmissible (sha : Sha256) (request : ResultAdmissionRequest) : Prop where
  query : admitCanonicalQuery sha request.query = .admitted request.query
  target : request.target ∈ request.query.targets
  materializer : contentId request.materializerContentId = true
  carries : Carries request.status request.artifactContentId request.diagnosticContentId

def resultClosureOf (sha : Sha256) (request : ResultAdmissionRequest) : AdmittedResultClosure :=
  let digest := resultDigest sha request
  { resultDigest := digest
    query := request.query
    target := request.target
    materializerContentId := request.materializerContentId
    status := request.status
    artifactContentId := request.artifactContentId
    diagnosticContentId := request.diagnosticContentId
    facts := canonicalResultFacts digest request }

theorem admitAndIdentifyResult_cases (s : Sha256) (request : ResultAdmissionRequest) :
    (ResultAdmissible s request ∧
      admitAndIdentifyResult s request = .admitted (resultClosureOf s request)) ∨
    (¬ ResultAdmissible s request ∧ ∃ c d, admitAndIdentifyResult s request = .rejected c d) := by
  unfold admitAndIdentifyResult
  cases hq : admitCanonicalQuery s request.query with
  | rejected c d =>
    exact Or.inr ⟨fun h => absurd (hq.symm.trans h.query) (by simp), c, d, rfl⟩
  | admitted q =>
    obtain ⟨-, hs⟩ := admitAndIdentifyQuery_canonical hq
    subst hs
    dsimp only
    by_cases htgt : request.target ∈ request.query.targets
    swap
    · rw [if_pos htgt]
      exact Or.inr ⟨fun h => htgt h.target, _, _, rfl⟩
    rw [if_neg (not_not_intro htgt)]
    by_cases hmat : contentId request.materializerContentId = true
    swap
    · rw [Bool.eq_false_of_not_eq_true hmat]
      exact Or.inr ⟨fun h => hmat h.materializer, _, _, rfl⟩
    rw [hmat, if_neg (by decide)]
    by_cases hcar : Carries request.status request.artifactContentId request.diagnosticContentId
    · have hadm : ResultAdmissible s request := ⟨hq, htgt, hmat, hcar⟩
      rcases carries_iff.mp hcar with ⟨hstat, hone⟩ | ⟨hstat, hone⟩
      · rw [if_neg (not_not_intro (Or.inl hstat)), if_neg fun h => absurd (hone.symm.trans h.2)
          (by decide), if_neg fun h => absurd (hstat.symm.trans h.1) (by decide)]
        exact Or.inl ⟨hadm, rfl⟩
      · rw [if_neg (not_not_intro (Or.inr hstat)), if_neg fun h => absurd
          (hstat.symm.trans h.1) (by decide), if_neg fun h => absurd (hone.symm.trans h.2)
          (by decide)]
        exact Or.inl ⟨hadm, rfl⟩
    · refine Or.inr ⟨fun h => hcar h.carries, ?_⟩
      by_cases hstat : request.status = "ok" ∨ request.status = "rejected"
      swap
      · exact ⟨_, _, if_pos hstat⟩
      rw [if_neg (not_not_intro hstat)]
      rcases hstat with hstat | hstat
      · have hone : exactlyOne request.artifactContentId request.diagnosticContentId = false :=
          Bool.eq_false_of_not_eq_true fun h => hcar (carries_iff.mpr (Or.inl ⟨hstat, h⟩))
        exact ⟨_, _, if_pos ⟨hstat, hone⟩⟩
      · have hone : exactlyOne request.diagnosticContentId request.artifactContentId = false :=
          Bool.eq_false_of_not_eq_true fun h => hcar (carries_iff.mpr (Or.inr ⟨hstat, h⟩))
        rw [if_neg fun h => absurd (hstat.symm.trans h.1) (by decide)]
        exact ⟨_, _, if_pos ⟨hstat, hone⟩⟩

variable {closure : AdmittedResultClosure}

theorem admitAndIdentifyResult_iff {request : ResultAdmissionRequest} :
    admitAndIdentifyResult s request = .admitted closure ↔
      ResultAdmissible s request ∧ closure = resultClosureOf s request := by
  rcases admitAndIdentifyResult_cases s request with
    ⟨hfit, hres⟩ | ⟨hu, c, d, hres⟩
  · rw [hres, ResultAdmission.admitted.injEq]
    exact ⟨fun h => ⟨hfit, h.symm⟩, fun h => h.2.symm⟩
  · rw [hres]
    exact ⟨fun h => absurd h (by simp), fun h => absurd h.1 hu⟩

theorem admitCanonicalResult_iff {admitted : AdmittedResultClosure} :
    admitCanonicalResult s closure = .admitted admitted ↔
      ResultAdmissible s closure.request ∧ closure = resultClosureOf s closure.request ∧
        admitted = closure := by
  unfold admitCanonicalResult
  rcases admitAndIdentifyResult_cases s closure.request with
    ⟨hfit, hres⟩ | ⟨hu, c, d, hres⟩
  · rw [hres]
    dsimp only
    constructor
    · intro h
      split at h
      · rename_i hs
        obtain ⟨hdig, hf⟩ := hs
        have hc : closure = resultClosureOf s closure.request := by
          cases closure
          simp only [resultClosureOf, AdmittedResultClosure.request,
            AdmittedResultClosure.mk.injEq, true_and] at hdig hf ⊢
          exact ⟨hdig, hf⟩
        exact ⟨hfit, hc, (ResultAdmission.admitted.inj h).symm.trans hc.symm⟩
      · simp at h
    · rintro ⟨-, hc, rfl⟩
      rw [← hc, if_pos ⟨rfl, rfl⟩]
  · rw [hres]
    exact ⟨fun h => absurd h (by simp), fun h => absurd h.1 hu⟩

theorem admitCanonicalResult_admitted {req : ResultAdmissionRequest}
    (h : admitAndIdentifyResult s req = .admitted closure) :
    admitCanonicalResult s closure = .admitted closure := by
  obtain ⟨hfit, rfl⟩ := admitAndIdentifyResult_iff.mp h
  exact admitCanonicalResult_iff.mpr ⟨hfit, rfl, rfl⟩

theorem admitAndIdentifyResult_canonical {admitted : AdmittedResultClosure}
    (h : admitCanonicalResult s closure = .admitted admitted) :
    admitAndIdentifyResult s closure.request = .admitted closure ∧ admitted = closure := by
  obtain ⟨hfit, hc, hadm⟩ := admitCanonicalResult_iff.mp h
  exact ⟨admitAndIdentifyResult_iff.mpr ⟨hfit, hc⟩, hadm⟩

/-- The bytes of which a result's digest and its query's are made. -/
def AdmittedResultClosure.encodings (closure : AdmittedResultClosure) : Set (List UInt8) :=
  {Utf8.encode (resultEncoding closure.request), closure.query.encoding}

theorem Carries.eq_of_getD {a' diagnostic' : Option String}
    (h : Carries status artifact diagnostic) (h' : Carries status a' diagnostic')
    (hart : artifact.getD "" = a'.getD "")
    (hd : diagnostic.getD "" = diagnostic'.getD "") :
    artifact = a' ∧ diagnostic = diagnostic' := by
  rcases carries_iff.mp h with ⟨hs, hone⟩ | ⟨hs, hone⟩
  · obtain ⟨v, rfl, -, rfl⟩ := exactlyOne_iff.mp hone
    rcases carries_iff.mp h' with ⟨-, hone'⟩ | ⟨hs', -⟩
    · obtain ⟨v', rfl, -, rfl⟩ := exactlyOne_iff.mp hone'
      exact ⟨congrArg some hart, rfl⟩
    · exact absurd (hs.symm.trans hs') (by decide)
  · obtain ⟨v, rfl, -, rfl⟩ := exactlyOne_iff.mp hone
    rcases carries_iff.mp h' with ⟨hs', -⟩ | ⟨-, hone'⟩
    · exact absurd (hs.symm.trans hs') (by decide)
    · obtain ⟨v', rfl, -, rfl⟩ := exactlyOne_iff.mp hone'
      exact ⟨rfl, congrArg some hd⟩

theorem eq_of_resultDigest {other : AdmittedResultClosure}
    (hadm : admitCanonicalResult s closure = .admitted closure)
    (hadm' : admitCanonicalResult s other = .admitted other)
    (hinj : Set.InjOn s.bytes i) (hsub : closure.encodings ⊆ i)
    (hsub' : other.encodings ⊆ i) (h : closure.resultDigest = other.resultDigest) :
    closure = other := by
  obtain ⟨hfit, hc, -⟩ := admitCanonicalResult_iff.mp hadm
  obtain ⟨hfit', hc', -⟩ := admitCanonicalResult_iff.mp hadm'
  have hdig : resultDigest s closure.request = resultDigest s other.request := by
    rw [hc, hc'] at h
    exact h
  have henc := Sha256.eq_of_digest hinj (hsub (Set.mem_insert _ _))
    (hsub' (Set.mem_insert _ _)) hdig
  rw [resultEncoding_eq, resultEncoding_eq] at henc
  have hp := framedAll_injective henc
  simp only [List.cons.injEq, true_and, and_true] at hp
  obtain ⟨hq, htgt, hmat, hs, hart, hdi⟩ := hp
  have hqu : closure.query = other.query := by
    obtain ⟨-, hcan, -⟩ := admitCanonicalQuery_iff.mp hfit.query
    obtain ⟨-, hcan', -⟩ := admitCanonicalQuery_iff.mp hfit'.query
    have hmem := hsub (Set.mem_insert_of_mem _ (Set.mem_singleton _))
    have hmem' := hsub' (Set.mem_insert_of_mem _ (Set.mem_singleton _))
    have hqd : closure.query.queryDigest = other.query.queryDigest := hq
    rw [show closure.query = _ from hcan] at hmem hqd ⊢
    rw [show other.query = _ from hcan'] at hmem' hqd ⊢
    exact eq_of_queryDigest hinj hmem hmem' hqd
  have hcar := hfit'.carries
  rw [← hs] at hcar
  obtain ⟨ha, hd⟩ := hfit.carries.eq_of_getD hcar hart hdi
  have hrq : closure.request = other.request := by
    unfold AdmittedResultClosure.request
    rw [hqu, show closure.target = _ from htgt,
      show closure.materializerContentId = _ from hmat,
      show closure.status = _ from hs, show closure.artifactContentId = _ from ha,
      show closure.diagnosticContentId = _ from hd]
    rfl
  rw [hc, hc', hrq]

/-- **Admission is canonical.**  What is admitted is admitted again, unchanged, and nothing else
is; the order of targets does not matter; without a collision equal digests are of equal
closures; and a result carries one identity, as its status asks. -/
theorem admission_canonical (sha : Sha256) :
    (∀ request closure, admitAndIdentifyQuery sha request = .admitted closure →
      admitCanonicalQuery sha closure = .admitted closure) ∧
    (∀ closure, (∃ admitted, admitCanonicalQuery sha closure = .admitted admitted) ↔
      ∃ request, admitAndIdentifyQuery sha request = .admitted closure) ∧
    (∀ closure admitted, admitCanonicalQuery sha closure = .admitted admitted →
      admitted = closure) ∧
    (∀ closure, (∃ admitted, admitCanonicalResult sha closure = .admitted admitted) ↔
      ∃ request, admitAndIdentifyResult sha request = .admitted closure) ∧
    (∀ closure admitted, admitCanonicalResult sha closure = .admitted admitted →
      admitted = closure) ∧
    (∀ (request : QueryAdmissionRequest) targets, request.targets.Perm targets →
      admitAndIdentifyQuery sha { request with targets } = admitAndIdentifyQuery sha request) ∧
    (∀ request other closure closure', admitAndIdentifyQuery sha request = .admitted closure →
      admitAndIdentifyQuery sha other = .admitted closure' →
      Set.InjOn sha.bytes {closure.encoding, closure'.encoding} →
      closure.queryDigest = closure'.queryDigest → closure = closure') ∧
    (∀ request other closure closure', admitAndIdentifyResult sha request = .admitted closure →
      admitAndIdentifyResult sha other = .admitted closure' →
      Set.InjOn sha.bytes (closure.encodings ∪ closure'.encodings) →
      closure.resultDigest = closure'.resultDigest → closure = closure') ∧
    (∀ request closure, admitAndIdentifyResult sha request = .admitted closure →
      Carries closure.status closure.artifactContentId closure.diagnosticContentId) := by
  refine ⟨fun _ _ h => admitCanonicalQuery_admitted h, ?_,
    fun _ _ h => (admitAndIdentifyQuery_canonical h).2, ?_,
    fun _ _ h => (admitAndIdentifyResult_canonical h).2, fun _ _ h => admitAndIdentifyQuery_perm h,
    ?_, ?_, ?_⟩
  · refine fun closure => ⟨?_, ?_⟩
    · rintro ⟨admitted, h⟩
      exact ⟨closure.request, (admitAndIdentifyQuery_canonical h).1⟩
    · rintro ⟨request, h⟩
      exact ⟨closure, admitCanonicalQuery_admitted h⟩
  · refine fun closure => ⟨?_, ?_⟩
    · rintro ⟨admitted, h⟩
      exact ⟨closure.request, (admitAndIdentifyResult_canonical h).1⟩
    · rintro ⟨request, h⟩
      exact ⟨closure, admitCanonicalResult_admitted h⟩
  · intro request other closure closure' h h' hinj hdig
    obtain ⟨-, rfl⟩ := admitAndIdentifyQuery_iff.mp h
    obtain ⟨-, rfl⟩ := admitAndIdentifyQuery_iff.mp h'
    exact eq_of_queryDigest hinj (Set.mem_insert _ _)
      (Set.mem_insert_of_mem _ (Set.mem_singleton _)) hdig
  · intro request other closure closure' h h' hinj hdig
    exact eq_of_resultDigest (admitCanonicalResult_admitted h) (admitCanonicalResult_admitted h')
      hinj Set.subset_union_left Set.subset_union_right hdig
  · intro request closure h
    obtain ⟨hfit, rfl⟩ := admitAndIdentifyResult_iff.mp h
    exact hfit.carries

end Beagle.FactProfile
