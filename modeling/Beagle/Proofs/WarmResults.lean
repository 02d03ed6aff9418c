/-
Warm results and cold ones.

What the cold path appends is the closure of one request, and the warm path accepts it; what the
warm path accepts is that closure as soon as its query and its materializer are the cold path's.
Along every run an artifact is linked only behind a warm result that is accepted or an append
that is acknowledged, and the append only behind an admitted program and a cold lookup.
-/
import Beagle.Native.CompilerDriver
import Beagle.Proofs.Admission
import Beagle.Proofs.Envelopes

namespace Beagle.CompilerDriver

open Beagle.Native (Sha256)
open Beagle.Lib List
open Beagle.Lib (Utf8.encode)
open Beagle.Lib.Asking
open Beagle.FactProfile
open Beagle.ArtifactLinker (TargetArtifact ArtifactEnvelope encodeArtifactEnvelope)

variable {sha : Sha256}

/-! ### The result of an artifact -/

/-- The request of which the cold path makes a result. -/
def requestOf (sha : Sha256) (query : CompileQuery) (artifact : TargetArtifact)
    (artifactId : String) : ResultAdmissionRequest where
  query := query.admitted
  target := artifact.target
  materializerContentId := materializerCapabilityContentId sha
  status := "ok"
  artifactContentId := some artifactId
  diagnosticContentId := none

/-- The append of a result. -/
def appendOf (query : CompileQuery) (result : AdmittedResultClosure) (artifact : TargetArtifact) :
    Question :=
  .store (.append query.request.storeLog query.request.spaceId result artifact)

theorem compileAdmittedArtifact_cases (sha : Sha256) (query : CompileQuery) (artifact : TargetArtifact)
    (config : ArtifactLinkConfig) :
    (∃ env, encodeArtifactEnvelope sha.bytes artifact = .ok env ∧
      ResultAdmissible sha (requestOf sha query artifact env.contentId) ∧
      compileAdmittedArtifact sha query artifact config = appendQueryArtifact sha query
        (resultClosureOf sha (requestOf sha query artifact env.contentId)) artifact config) ∨
    ((∀ env, encodeArtifactEnvelope sha.bytes artifact = .ok env →
        ¬ ResultAdmissible sha (requestOf sha query artifact env.contentId)) ∧
      ∃ d, compileAdmittedArtifact sha query artifact config = .done (.error 65 d)) := by
  unfold compileAdmittedArtifact
  cases henc : encodeArtifactEnvelope sha.bytes artifact with
  | error f =>
    exact Or.inr ⟨fun env h => absurd h (by simp), _, rfl⟩
  | ok env =>
    dsimp only
    rcases admitAndIdentifyResult_cases sha (requestOf sha query artifact env.contentId) with
      ⟨hfit, hres⟩ | ⟨hu, c, d, hres⟩
    · refine Or.inl ⟨env, rfl, hfit, ?_⟩
      unfold requestOf at hres
      rw [hres]
      rfl
    · refine Or.inr ⟨?_, d, ?_⟩
      · intro env' h
        cases h
        exact hu
      · unfold requestOf at hres
        rw [hres]

variable {artifact : TargetArtifact} {config : ArtifactLinkConfig}
  {exchanges : List (Exchange Answer)}

/-- The cold path comes to an append exactly with the closure of the artifact's request. -/
theorem first_compileAdmittedArtifact {query : CompileQuery} {q : Question} :
    (compileAdmittedArtifact sha query artifact config).first = some q ↔
      ∃ env, encodeArtifactEnvelope sha.bytes artifact = .ok env ∧
        ResultAdmissible sha (requestOf sha query artifact env.contentId) ∧
        q = appendOf query
          (resultClosureOf sha (requestOf sha query artifact env.contentId)) artifact := by
  rcases compileAdmittedArtifact_cases sha query artifact config with
    ⟨env, henc, hfit, hp⟩ | ⟨hu, d, hp⟩
  · rw [hp]
    constructor
    · intro h
      exact ⟨env, henc, hfit, (Option.some.inj h).symm⟩
    · rintro ⟨env', henc', -, rfl⟩
      have hs := Except.ok.inj (henc'.symm.trans henc)
      rw [hs]
      rfl
  · rw [hp]
    constructor
    · exact fun h => absurd h (by simp [first])
    · rintro ⟨env, henc, hfit, -⟩
      exact absurd hfit (hu env henc)

variable {res : AdmittedResultClosure}

theorem warmResultValid_iff {query : CompileQuery} :
    warmResultValid sha query res artifact = true ↔
      ResultAdmissible sha res.request ∧ res = resultClosureOf sha res.request ∧
      ∃ env, encodeArtifactEnvelope sha.bytes artifact = .ok env ∧
        res.status = "ok" ∧ compileQueryId query = res.query.queryDigest ∧
        artifact.target = res.target ∧ res.artifactContentId = some env.contentId := by
  unfold warmResultValid
  cases ha : admitCanonicalResult sha res with
  | rejected c d =>
    constructor
    · exact fun h => absurd h Bool.false_ne_true
    · rintro ⟨hfit, hc, -⟩
      exact absurd (ha.symm.trans (admitCanonicalResult_iff.mpr ⟨hfit, hc, rfl⟩)) (by simp)
  | admitted admitted =>
    obtain ⟨hfit, hc, hs⟩ := admitCanonicalResult_iff.mp ha
    subst hs
    cases henc : encodeArtifactEnvelope sha.bytes artifact with
    | error f => simp
    | ok env =>
      simp only [Bool.and_eq_true, beq_iff_eq]
      constructor
      · rintro ⟨⟨⟨hst, hq⟩, htgt⟩, hart⟩
        exact ⟨hfit, hc, env, rfl, hst.symm, hq, htgt, hart.symm⟩
      · rintro ⟨-, -, env', hs, hst, hq, htgt, hart⟩
        rw [Except.ok.inj hs]
        exact ⟨⟨⟨hst.symm, hq⟩, htgt⟩, hart.symm⟩

/-- What the cold path appends is accepted. -/
theorem warmResultValid_of_first {query : CompileQuery}
    {a : TargetArtifact} {sl sid : String}
    (h : (compileAdmittedArtifact sha query artifact config).first =
      some (.store (.append sl sid res a))) :
    a = artifact ∧ warmResultValid sha query res artifact = true := by
  obtain ⟨env, henc, hfit, hq⟩ := first_compileAdmittedArtifact.mp h
  unfold appendOf at hq
  rw [Question.store.injEq, CompileStoreRequest.append.injEq] at hq
  obtain ⟨-, -, rfl, rfl⟩ := hq
  exact ⟨rfl, warmResultValid_iff.mpr ⟨hfit, rfl, env, henc, rfl, rfl, rfl, rfl⟩⟩

theorem diagnostic_of_ok {req : ResultAdmissionRequest} (h : ResultAdmissible sha req)
    (hs : req.status = "ok") : req.diagnosticContentId = none := by
  rcases carries_iff.mp h.carries with ⟨-, hone⟩ | ⟨hrej, -⟩
  · obtain ⟨v, -, -, hn⟩ := exactlyOne_iff.mp hone
    exact hn
  · exact absurd (hs.symm.trans hrej) (by decide)

/-- A result that is accepted is the cold path's exactly when its query and its materializer are. -/
theorem first_of_warmResultValid {query : CompileQuery}
    (config : ArtifactLinkConfig) (hv : warmResultValid sha query res artifact = true) :
    (compileAdmittedArtifact sha query artifact config).first = some (appendOf query res artifact) ↔
      res.query = query.admitted ∧
        res.materializerContentId = materializerCapabilityContentId sha := by
  obtain ⟨hfit, hc, env, henc, hs, -, htgt, hart⟩ :=
    warmResultValid_iff.mp hv
  constructor
  · intro h
    obtain ⟨env', -, -, hqu⟩ := first_compileAdmittedArtifact.mp h
    unfold appendOf at hqu
    rw [Question.store.injEq, CompileStoreRequest.append.injEq] at hqu
    obtain ⟨-, -, hres, -⟩ := hqu
    rw [hres]
    exact ⟨rfl, rfl⟩
  · rintro ⟨hq, hmat⟩
    have hrq : res.request = requestOf sha query artifact env.contentId := by
      unfold AdmittedResultClosure.request requestOf
      rw [hq, hmat, hs, hart, htgt,
        show res.diagnosticContentId = none from diagnostic_of_ok hfit hs]
    refine first_compileAdmittedArtifact.mpr ⟨env, henc, hrq ▸ hfit, ?_⟩
    rw [← hrq, ← hc]

theorem compileQuery_of_admitted {req : CompileBundleRequest} {a : AdmittedQueryClosure}
    (h : admitAndIdentifyQuery sha
      ⟨req.syntaxClosure.closureDigest, req.compilerContext, req.profile,
        req.targets, req.ruleSetId, req.schemaContentId⟩ = .admitted a) :
    compileQuery sha req = .ready ⟨a, req⟩ := by
  unfold compileQuery
  rw [h]

theorem query_of_warmResultValid {req : CompileBundleRequest} {query : CompileQuery}
    (hq : compileQuery sha req = .ready query)
    (hv : warmResultValid sha query res artifact = true)
    (hinj : Set.InjOn sha.bytes {query.admitted.encoding, res.query.encoding}) :
    res.query = query.admitted := by
  obtain ⟨hfit, -, -, -, -, hdig, -, -⟩ := warmResultValid_iff.mp hv
  obtain ⟨-, hcan, -⟩ := admitCanonicalQuery_iff.mp hfit.query
  unfold compileQuery at hq
  split at hq
  · simp at hq
  · rename_i a hadm
    obtain ⟨-, hc⟩ := admitAndIdentifyQuery_iff.mp hadm
    rw [CompileQueryAdmissionResult.ready.injEq] at hq
    subst hq
    subst hc
    replace hcan : res.query = closureOf sha res.query.request := hcan
    rw [hcan] at hinj ⊢
    refine eq_of_queryDigest hinj (Set.mem_insert_of_mem _ (Set.mem_singleton _))
      (Set.mem_insert _ _) ?_
    rw [← hcan]
    exact hdig.symm

/-! ### What is reported -/

theorem run_linkQueryArtifact {query : CompileQuery} {oc : CompileBundleResult}
    (hrun : Run (linkQueryArtifact sha query config artifact) exchanges oc) :
    (∃ ci ai p, oc = .materialized ci ai p) ∨ ∃ c detail, oc = .error c detail := by
  unfold linkQueryArtifact at hrun
  split at hrun
  · obtain ⟨-, rfl⟩ := run_done.mp hrun
    exact Or.inr ⟨_, _, rfl⟩
  · obtain ⟨fr, b, a, -, -, hb⟩ := run_andThen.mp hrun
    cases a with
    | linked p =>
      obtain ⟨-, rfl⟩ := run_done.mp hb
      exact Or.inl ⟨_, _, _, rfl⟩
    | error c detail =>
      obtain ⟨-, rfl⟩ := run_done.mp hb
      exact Or.inr ⟨_, _, rfl⟩

/-- The warm path reports what linking reports, as warm. -/
theorem run_linkWarmQueryArtifact {query : CompileQuery} {ci ai p : String} :
    Run (linkWarmQueryArtifact sha query config artifact) exchanges (.warm ci ai p) ↔
      Run (linkQueryArtifact sha query config artifact) exchanges (.materialized ci ai p) := by
  unfold linkWarmQueryArtifact
  rw [run_andThen]
  constructor
  · rintro ⟨fr, b, oc, rfl, hfr, hb⟩
    rcases run_linkQueryArtifact hfr with ⟨ci', ai', p', rfl⟩ | ⟨c, d, rfl⟩
    · obtain ⟨rfl, hs⟩ := run_done.mp hb
      obtain ⟨rfl, rfl, rfl⟩ := CompileBundleResult.warm.injEq .. ▸ hs
      rw [append_nil]
      exact hfr
    · exact absurd (run_done.mp hb).2 (by simp)
  · intro h
    exact ⟨exchanges, [], _, (append_nil _).symm, h, .done _⟩

theorem run_appendQueryArtifact {query : CompileQuery}
    {outcome : CompileBundleResult} :
    Run (appendQueryArtifact sha query res artifact config)
        (⟨appendOf query res artifact, CompileStoreResponse.persisted⟩ :: exchanges) outcome ↔
      Run (linkQueryArtifact sha query config artifact) exchanges outcome := by
  constructor
  · intro h
    obtain ⟨a, l, hsp, hl⟩ := run_ask.mp h
    rw [List.cons.injEq] at hsp
    obtain ⟨hans, rfl⟩ := hsp
    cases hans
    exact hl
  · exact fun h => .ask h

/-! ### The order of what is asked -/

/-- Has the Store given a warm result that is valid for the artifact, or acknowledged its
append? -/
def MayLink (sha : Sha256) (plan : ProgramAdmissionPlan) (query : CompileQuery)
    (before : List (Exchange Answer)) (artifact : TargetArtifact) : Prop :=
  (∃ result, ⟨.store (.lookup plan.storeLog plan.spaceId query.admitted),
      CompileStoreResponse.warm result artifact⟩ ∈ before ∧
    warmResultValid sha query result artifact = true) ∨
  ∃ result, ⟨appendOf query result artifact, CompileStoreResponse.persisted⟩ ∈ before

/-- Was the program admitted, and the lookup cold? -/
def MayAppend (plan : ProgramAdmissionPlan) (query : CompileQuery)
    (before : List (Exchange Answer)) : Prop :=
  ∃ rootResource rootVersion, AnyValue.term rootResource = true ∧ rootVersion ≥ 0 ∧ before =
      [⟨.store (.admitProgram plan), CompileStoreResponse.programAdmitted rootResource rootVersion⟩,
        ⟨.store (.lookup plan.storeLog plan.spaceId query.admitted), CompileStoreResponse.cold⟩]

/-- May this be asked behind these exchanges? -/
def May (sha : Sha256) (plan : ProgramAdmissionPlan) (query : CompileQuery)
    (before : List (Exchange Answer)) : Question → Prop
  | .writeAndLink _ artifact => MayLink sha plan query before artifact
  | .store (.append _ _ _ _) => MayAppend plan query before
  | .store (.admitProgram _) => True
  | .store (.lookup _ _ _) => True

variable {plan : ProgramAdmissionPlan} {query : CompileQuery} {b : List (Exchange Answer)}

theorem guarded_linkQueryArtifact
    (hmay : MayLink sha plan query b artifact) :
    Guarded (May sha plan query) b (linkQueryArtifact sha query config artifact) := by
  unfold linkQueryArtifact
  split
  · exact True.intro
  · refine ⟨hmay, fun a => ?_⟩
    cases a with
    | linked p | error c d => exact True.intro

theorem guarded_linkWarmQueryArtifact
    (hmay : MayLink sha plan query b artifact) :
    Guarded (May sha plan query) b (linkWarmQueryArtifact sha query config artifact) := by
  refine (guarded_linkQueryArtifact hmay).andThen fun exchanges oc hrun => ?_
  cases oc with
  | warm ci ai p | materialized ci ai p | error c d => exact True.intro

theorem guarded_appendQueryArtifact
    (hmay : MayAppend plan query b) :
    Guarded (May sha plan query) b (appendQueryArtifact sha query res artifact config) := by
  refine ⟨hmay, fun a => ?_⟩
  cases a with
  | persisted =>
    refine guarded_linkQueryArtifact (Or.inr ⟨res, ?_⟩)
    exact mem_append_right _ (mem_singleton_self _)
  | cold | warm res artifact | warmRejected res d | programAdmitted rr rv | failure c d =>
    exact True.intro

theorem guarded_compileColdQuery {Checked : Type} {ss : Stages Checked} {c : Checked}
    {en ed : String}
    (hmay : MayAppend plan query b) :
    Guarded (May sha plan query) b (compileColdQuery sha ss query c en ed config) := by
  unfold compileColdQuery
  split
  · exact True.intro
  · rename_i artifact hart
    split
    · exact True.intro
    · rcases compileAdmittedArtifact_cases sha query artifact config with
        ⟨env, -, -, hp⟩ | ⟨-, d, hp⟩
      · rw [hp]
        exact guarded_appendQueryArtifact hmay
      · rw [hp]
        exact True.intro

theorem run_lookupAdmittedProgram {response : CompileStoreResponse}
    (hrun : Run (lookupAdmittedProgram plan query) exchanges response) :
    (∃ c d, response = .failure c d) ∨ ∃ rr rv, AnyValue.term rr = true ∧ rv ≥ 0 ∧
        exchanges = [⟨.store (.admitProgram plan), CompileStoreResponse.programAdmitted rr rv⟩,
          ⟨.store (.lookup plan.storeLog plan.spaceId query.admitted), response⟩] := by
  obtain ⟨a, l, rfl, hl⟩ := run_ask.mp hrun
  cases a with
  | programAdmitted rr rv =>
    replace hl : Run (if rr.term = true ∧ rv ≥ 0 then _ else _) l response := hl
    split at hl
    · rename_i hv
      obtain ⟨a, os, rfl, hd⟩ := run_ask.mp hl
      obtain ⟨rfl, rfl⟩ := run_done.mp hd
      exact Or.inr ⟨rr, rv, hv.1, hv.2, rfl⟩
    · exact Or.inl ⟨_, _, (run_done.mp hl).2⟩
  | cold | warm res artifact | warmRejected res d | persisted | failure c d =>
    exact Or.inl ⟨_, _, (run_done.mp hl).2⟩

theorem guarded_lookupAdmittedProgram :
    Guarded (May sha plan query) [] (lookupAdmittedProgram plan query) := by
  refine ⟨True.intro, fun a => ?_⟩
  cases a with
  | programAdmitted rr rv =>
    show Guarded _ _ (if rr.term = true ∧ rv ≥ 0 then _ else _)
    split
    · exact ⟨True.intro, fun _ => True.intro⟩
    · exact True.intro
  | cold | warm res artifact | warmRejected res d | persisted | failure c d => exact True.intro

/-- Behind any answers, nothing is linked or appended before its time. -/
theorem guarded_compileStoredQuery {Checked : Type} (ss : Stages Checked) (c : Checked)
    (en ed : String) (config : ArtifactLinkConfig) :
    Guarded (May sha plan query) [] (compileStoredQuery sha ss query c en ed config plan) := by
  refine guarded_lookupAdmittedProgram.andThen fun exchanges r hrun => ?_
  rw [nil_append]
  rcases run_lookupAdmittedProgram hrun with
    ⟨cd, d, rfl⟩ | ⟨rr, rv, ht, hver, rfl⟩
  · exact True.intro
  · cases r with
    | cold => exact guarded_compileColdQuery ⟨rr, rv, ht, hver, rfl⟩
    | warm res artifact =>
      show Guarded _ _ (if warmResultValid sha query res artifact then _ else _)
      split
      · rename_i hv
        refine guarded_linkWarmQueryArtifact (Or.inl ⟨res, ?_, hv⟩)
        exact mem_cons_of_mem _ (mem_singleton_self _)
      · exact True.intro
    | warmRejected res d =>
      dsimp only
      split
      · exact True.intro
      · split
        · exact True.intro
        · exact True.intro
    | persisted | programAdmitted rr rv | failure cd d => exact True.intro

/-- **Warm compilation is cold compilation remembered** but for the materializer, which is not
checked.  What the cold path appends is accepted and reported alike; what is accepted is the
cold path's exactly when its query and materializer are, and without a collision its query is;
and nothing is linked or appended before its time. -/
theorem warm_remembers_cold (sha : Sha256) :
    (∀ query artifact config storeLog spaceId result appended,
      (compileAdmittedArtifact sha query artifact config).first =
        some (.store (.append storeLog spaceId result appended)) →
      appended = artifact ∧ warmResultValid sha query result artifact = true ∧
      ∀ exchanges contentId artifactId path, Run (compileAdmittedArtifact sha query artifact config)
          (⟨.store (.append storeLog spaceId result appended),
            CompileStoreResponse.persisted⟩ :: exchanges)
          (.materialized contentId artifactId path) ↔
        Run (linkWarmQueryArtifact sha query config artifact) exchanges
          (.warm contentId artifactId path)) ∧
    (∀ query artifact config result, warmResultValid sha query result artifact = true →
      ((compileAdmittedArtifact sha query artifact config).first =
          some (.store (.append query.request.storeLog query.request.spaceId result artifact)) ↔
        result.query = query.admitted ∧
          result.materializerContentId = materializerCapabilityContentId sha)) ∧
    (∀ request query result artifact, compileQuery sha request = .ready query →
      warmResultValid sha query result artifact = true →
      Set.InjOn sha.bytes {query.admitted.encoding, result.query.encoding} →
      result.query = query.admitted) ∧
    ∀ (Checked : Type) (stages : Stages Checked) checked query entryNamespace entryDefinition config
      plan exchanges outcome,
      Run (compileStoredQuery sha stages query checked entryNamespace entryDefinition config plan)
        exchanges outcome →
      ∀ front back exchange, exchanges = front ++ exchange :: back →
        (∀ config artifact, exchange.1 = .writeAndLink config artifact →
          MayLink sha plan query front artifact) ∧
        ∀ storeLog spaceId result artifact,
          exchange.1 = .store (.append storeLog spaceId result artifact) →
          MayAppend plan query front := by
  refine ⟨?_, fun _ _ config _ hv => first_of_warmResultValid config hv,
    fun _ _ _ _ hq hv hinj => query_of_warmResultValid hq hv hinj, ?_⟩
  · intro query artifact config storeLog spaceId result appended hfst
    obtain ⟨rfl, hv⟩ := warmResultValid_of_first hfst
    refine ⟨rfl, hv, fun exchanges contentId artifactId path => ?_⟩
    rw [run_linkWarmQueryArtifact]
    rcases compileAdmittedArtifact_cases sha query appended config with
      ⟨env, -, -, hp⟩ | ⟨-, d, hp⟩
    · rw [hp] at hfst ⊢
      have hqu := Option.some.inj hfst
      rw [Question.store.injEq, CompileStoreRequest.append.injEq] at hqu
      obtain ⟨rfl, rfl, rfl, -⟩ := hqu
      exact run_appendQueryArtifact
    · rw [hp] at hfst
      simp [first] at hfst
  · intro Checked stages checked query entryNamespace entryDefinition config plan exchanges outcome
      hrun front back exchange hsp
    have hg := @guarded_compileStoredQuery sha plan query Checked stages checked
      entryNamespace entryDefinition config
    have hmay := hg.of_run hrun hsp
    rw [nil_append] at hmay
    refine ⟨fun config artifact hqu => ?_, fun storeLog spaceId result artifact hqu => ?_⟩
    · rw [hqu] at hmay
      exact hmay
    · rw [hqu] at hmay
      exact hmay

/-! ### Another materializer -/

theorem contentId_of_digits {v : String} {ds : List Char}
    (hval : v.toList = "sha256:".toList ++ ds) (hlen : ds.length = 64)
    (hhex : ∀ c ∈ ds, c ∈ "0123456789abcdef".toList) : contentId v = true := by
  have hfr : "sha256:".toList.length = 7 := by decide
  have hall : (ds.all fun c => "0123456789abcdef".toList.contains c) = true :=
    all_eq_true.mpr fun c hc => contains_iff_mem.mpr (hhex c hc)
  unfold contentId
  rw [hval, length_append, hlen, take_left' hfr, drop_left' hfr, hall,
    hfr, beq_self_eq_true, beq_self_eq_true]
  rfl

theorem contentId_digest (sha : Sha256) (pl : List UInt8) :
    contentId ("sha256:" ++ sha.bytes pl) = true :=
  contentId_of_digits String.toList_append (sha.size pl) (sha.hex pl)

/-- The identity that repeats one digit. -/
def repeatedId (digit : Char) : String :=
  String.ofList ("sha256:".toList ++ replicate 64 digit)

theorem contentId_repeatedId {d : Char} (h : d ∈ "0123456789abcdef".toList) :
    contentId (repeatedId d) = true := by
  refine contentId_of_digits String.toList_ofList length_replicate ?_
  intro c hc
  rw [eq_of_mem_replicate hc]
  exact h

theorem repeatedId_injective {d other : Char} (h : repeatedId d = repeatedId other) :
    d = other := by
  have hs := String.ofList_injective h
  rcases replicate_inj.mp (append_cancel_left hs) with ⟨-, hn | hdigs⟩
  · simp at hn
  · exact hdigs

/-- Some materializer is not the compiler's. -/
theorem exists_other_materializer (sha : Sha256) :
    ∃ id, contentId id = true ∧ id ≠ materializerCapabilityContentId sha := by
  rcases eq_or_ne (repeatedId '0') (materializerCapabilityContentId sha) with h | h
  · refine ⟨repeatedId '1', contentId_repeatedId (by decide), fun h' => ?_⟩
    exact absurd (repeatedId_injective (h.trans h'.symm)) (by decide)
  · exact ⟨repeatedId '0', contentId_repeatedId (by decide), h⟩

/-- A request for one C target. -/
def plainRequest : CompileBundleRequest where
  storeLog := "store.log"
  spaceId := "space"
  compilerContext := repeatedId '0'
  profile := "lp64"
  targets := ["c17"]
  ruleSetId := repeatedId '0'
  schemaContentId := repeatedId '0'
  sourcePaths := ["main.bgl"]
  syntaxClosure := ⟨"main.bgl", [], repeatedId '0', []⟩

def plainAdmission : QueryAdmissionRequest :=
  ⟨repeatedId '0', repeatedId '0', "lp64", ["c17"], repeatedId '0', repeatedId '0'⟩

theorem admissible_plain : Admissible plainAdmission where
  source := contentId_repeatedId (by decide)
  compiler := contentId_repeatedId (by decide)
  rules := contentId_repeatedId (by decide)
  schema := contentId_repeatedId (by decide)
  profile := by decide
  targets := by decide

theorem compileQuery_plain (sha : Sha256) :
    compileQuery sha plainRequest = .ready ⟨closureOf sha plainAdmission, plainRequest⟩ := by
  have hadm : admitAndIdentifyQuery sha plainAdmission =
      .admitted (closureOf sha plainAdmission) := admitAndIdentifyQuery_iff.mpr ⟨admissible_plain, rfl⟩
  exact @compileQuery_of_admitted sha plainRequest _ hadm

def plainArtifact (sha : Sha256) : TargetArtifact where
  target := "c17"
  files := []
  encoding := ""
  digest := ArtifactLinker.contentDigest sha.bytes ""
  countFits := ArtifactLinker.noFiles.countFits

/-- A result of another materializer is accepted, for any query. -/
theorem other_materializer_accepted : ¬ ∃ sha : Sha256, ∀ request query result artifact config,
      compileQuery sha request = .ready query →
      warmResultValid sha query result artifact = true →
      (compileAdmittedArtifact sha query artifact config).first =
        some (.store (.append query.request.storeLog query.request.spaceId result artifact)) := by
  rintro ⟨sha, h⟩
  obtain ⟨id, hid, ho⟩ := exists_other_materializer sha
  let query : CompileQuery := ⟨closureOf sha plainAdmission, plainRequest⟩
  let artifact := plainArtifact sha
  have henc : encodeArtifactEnvelope sha.bytes artifact = .ok
      ⟨ArtifactLinker.contentDigest sha.bytes (ArtifactLinker.artifactEnvelopePayload artifact),
        ArtifactLinker.artifactEnvelopePayload artifact⟩ :=
    ArtifactLinker.encodeArtifactEnvelope_eq.mpr
      ⟨ArtifactLinker.artifactValid_iff.mpr ⟨Or.inl rfl, rfl⟩, rfl⟩
  let ai := ArtifactLinker.contentDigest sha.bytes (ArtifactLinker.artifactEnvelopePayload artifact)
  let request : ResultAdmissionRequest :=
    { requestOf sha query artifact ai with materializerContentId := id }
  have hfit : ResultAdmissible sha request :=
    { query := admitCanonicalQuery_admitted (admitAndIdentifyQuery_iff.mpr ⟨admissible_plain, rfl⟩)
      target := by
        show "c17" ∈ sortedUniqueTargets ["c17"]
        decide
      materializer := hid
      carries := .artifact (contentId_digest sha _) }
  have hv : warmResultValid sha query (resultClosureOf sha request) artifact = true :=
    warmResultValid_iff.mpr ⟨hfit, rfl, _, henc, rfl, rfl, rfl, rfl⟩
  have hfst := h plainRequest query _ artifact ⟨"out", "out/main", "cc", "qbe"⟩
    (compileQuery_plain sha) hv
  exact ho ((first_of_warmResultValid _ hv).mp hfst).2

end Beagle.CompilerDriver
