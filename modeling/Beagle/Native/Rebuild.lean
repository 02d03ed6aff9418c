/-
Rebuild bundles of the native compiler, and the files that are written from them.

A bundle names the identity of what it was built from and holds an artifact.  The identity is
derived from the first files of two names; the files of the artifact are written one after the
other, each to the path its name gives.  So the directory holds what was attested exactly if files
of one name agree.

A text is read by characters; a line ends at a line feed.
-/
import Beagle.Proofs.Envelopes
import Beagle.Proofs.Lineages

namespace Beagle.Rebuild

open List

open Beagle.ArtifactLinker
open Beagle.Bootstrap (exactContentId defaultCompilerContextId compilerSchemaContentId
  defaultRuleSetContentId)
open Beagle.Lib (Utf8.encode)
open Beagle.Native (Sha256)

def artifactEnvelopeMarker : String := "artifact-envelope"

def sourceFactsContentIdFilename : String := "source.facts.content-id"

def nativeProgramContentIdFilename : String := "module.native-program.content-id"

def rebuildBundleFormat : String := "beagle-native-rebuild-bundle/v1"

def rebuildSemanticFormat : String := "beagle-native-rebuild-semantic/v1"

structure NativeRebuildBundle where
  semanticContentId : String
  materializationContentId : String
  artifact : TargetArtifact
deriving DecidableEq

/-- How decoding ends without a bundle. -/
inductive Rejection where
  | rejected (code : Int) (detail : String)
  | raised
deriving DecidableEq

/-! ### Decoding -/

/-- The characters up to a line feed, and those behind it. -/
def readManifestLine : List Char → Except Rejection (List Char × List Char)
  | [] => .error (.rejected 65 "rebuild bundle header is missing a newline")
  | c :: rest =>
    if c = '\n' then .ok ([], rest)
    else (readManifestLine rest).map fun (line, behind) => (c :: line, behind)

def manifestField (line : List Char) (field : String) : Option String :=
  let lead := (field ++ " ").toList
  if lead.isPrefixOf line ∧ lead.length < line.length then some (.ofList (line.drop lead.length))
  else none

def artifactFile (artifact : TargetArtifact) (name : String) : Option ArtifactFile :=
  artifact.files.find? fun file => name == file.name

section

variable (sha : Sha256)

def rebuildSemanticContentId (sourceFactsContentId nativeProgramContentId : String) : String :=
  "sha256:" ++ sha.bytes (Utf8.encode rebuildSemanticFormat ++ Utf8.encode "|" ++
    defaultCompilerContextId sha ++ Utf8.encode "|" ++ compilerSchemaContentId sha ++
    Utf8.encode "|" ++ defaultRuleSetContentId sha ++ Utf8.encode "|" ++
    Utf8.encode sourceFactsContentId ++ Utf8.encode "|" ++ Utf8.encode nativeProgramContentId)

def artifactSemanticContentId (artifact : TargetArtifact) : Option String :=
  match artifactFile artifact sourceFactsContentIdFilename,
      artifactFile artifact nativeProgramContentIdFilename with
  | some sourceFacts, some nativeProgram =>
    if exactContentId (Utf8.encode sourceFacts.payload) ∧
        exactContentId (Utf8.encode nativeProgram.payload) then
      some (rebuildSemanticContentId sha sourceFacts.payload nativeProgram.payload)
    else none
  | _, _ => none

def decodeRebuildEnvelope (envelope semanticContentId materializationContentId : String) :
    Except Rejection NativeRebuildBundle :=
  match decodeArtifactEnvelope sha.bytes materializationContentId envelope with
  | .error (.error detail) => .error (.rejected 65 detail)
  | .error .raised => .error .raised
  | .ok artifact =>
    if artifact.target ≠ "c17" then
      .error (.rejected 65 "rebuild bundle target must be c17")
    else
      match artifactSemanticContentId sha artifact with
      | none => .error (.rejected 65 "rebuild bundle omits semantic input content IDs")
      | some derived =>
        if semanticContentId ≠ derived then
          .error (.rejected 65 "rebuild bundle semantic content ID is invalid")
        else .ok ⟨semanticContentId, materializationContentId, artifact⟩

/-- The value of a field that must be an identity. -/
def identityField (line : List Char) (field detail : String) : Except Rejection String :=
  match manifestField line field with
  | none => .error (.rejected 65 detail)
  | some value =>
    if exactContentId (Utf8.encode value) then .ok value else .error (.rejected 65 detail)

def decodeRebuildBundle (payload : String) : Except Rejection NativeRebuildBundle := do
  let (formatLine, behindFormat) ← readManifestLine payload.toList
  if formatLine ≠ rebuildBundleFormat.toList then
    .error (.rejected 65 "rebuild bundle format is invalid")
  else
    let (semanticLine, behindSemantic) ← readManifestLine behindFormat
    let semanticContentId ← identityField semanticLine "semantic-content-id"
      "rebuild bundle semantic content ID is malformed"
    let (materializationLine, behindMaterialization) ← readManifestLine behindSemantic
    let materializationContentId ← identityField materializationLine "materialization-content-id"
      "rebuild bundle materialization content ID is malformed"
    let (markerLine, envelope) ← readManifestLine behindMaterialization
    if markerLine ≠ artifactEnvelopeMarker.toList then
      .error (.rejected 65 "rebuild bundle artifact marker is invalid")
    else
      decodeRebuildEnvelope sha (.ofList envelope) semanticContentId materializationContentId

end

/-! ### Writing -/

/-- The text at each path. -/
abbrev Disk := String → Option String

/-- What the host refuses: to make the directories of a path, or to write a text to it. -/
structure Host where
  makeParentDirectories : Disk → String → Option Int
  writeTextAtomic : Disk → String → String → Option Int

inductive ArtifactWriteResult where
  | written (cSources qbeSources : List String)
  | failed (code : Int) (detail : String)
deriving DecidableEq

def artifactPath (directory name : String) : String := directory ++ "/" ++ name

def stringSuffix (value suffix : String) : Bool := suffix.toList.isSuffixOf value.toList

/-- The loop that writes. -/
def writeFrom (host : Host) (directory : String) : List ArtifactFile → Disk → List String →
    List String → Disk × ArtifactWriteResult
  | [], disk, cSources, qbeSources => (disk, .written cSources qbeSources)
  | file :: rest, disk, cSources, qbeSources =>
    let path := artifactPath directory file.name
    match host.makeParentDirectories disk path with
    | some errno => (disk, .failed errno ("artifact parent creation failed: " ++ path))
    | none =>
      match host.writeTextAtomic disk path file.payload with
      | some errno => (disk, .failed errno ("artifact write failed: " ++ path))
      | none =>
        writeFrom host directory rest (Function.update disk path (some file.payload))
          (if stringSuffix file.name ".c" then cSources ++ [path] else cSources)
          (if stringSuffix file.name ".ssa" then qbeSources ++ [path] else qbeSources)

def writeArtifactFiles (sha256Bytes : List UInt8 → String) (host : Host) (directory : String)
    (files : List ArtifactFile) (disk : Disk) : Disk × ArtifactWriteResult :=
  match files.find? fun file => !artifactFileValid sha256Bytes file with
  | some file => (disk, .failed 65 ("invalid artifact file metadata: " ++ file.name))
  | none => writeFrom host directory files disk [] []

/-! ### What is written -/

/-- Files of one name have one payload, and no C source has the name of another. -/
def Agreeing (files : List ArtifactFile) : Prop :=
  files.Pairwise fun a b => a.name = b.name →
    a.payload = b.payload ∧ stringSuffix a.name ".c" = false

/-- A path one step below a directory. -/
def DirectChild (directory path : String) : Prop :=
  ∃ leaf, path = directory ++ "/" ++ leaf ∧ safeLeafName leaf = true

/-- What a bundle attests is on the disk. -/
structure Attested (sha : Sha256) (directory : String) (bundle : NativeRebuildBundle) (disk : Disk)
    (cSources : List String) : Prop where
  held : ∀ file ∈ bundle.artifact.files,
    disk (artifactPath directory file.name) = some file.payload
  direct : ∀ file ∈ bundle.artifact.files, DirectChild directory (artifactPath directory file.name)
  distinct : cSources.Nodup
  identities : ∃ sourceFacts nativeProgram,
    disk (artifactPath directory sourceFactsContentIdFilename) = some sourceFacts ∧
    disk (artifactPath directory nativeProgramContentIdFilename) = some nativeProgram ∧
    bundle.semanticContentId = rebuildSemanticContentId sha sourceFacts nativeProgram

variable {host : Host} {dir : String} {files : List ArtifactFile} {disk d' : Disk}
  {c q c' q' : List String}

theorem artifactPath_inj {m n : String} : artifactPath dir m = artifactPath dir n ↔ m = n :=
  String.append_right_inj _

/-- The disk when all files are written. -/
def diskAfter (dir : String) (files : List ArtifactFile) (disk : Disk) : Disk :=
  files.foldl (fun d f => Function.update d (artifactPath dir f.name) (some f.payload)) disk

theorem writeFrom_written (h : writeFrom host dir files disk c q = (d', .written c' q')) :
    d' = diskAfter dir files disk ∧ c' = c ++ (files.filter fun f => stringSuffix f.name ".c").map
      fun f => artifactPath dir f.name := by
  induction files generalizing disk c q with
  | nil =>
    obtain ⟨rfl, hw⟩ := Prod.mk.inj h
    obtain ⟨rfl, -⟩ := ArtifactWriteResult.written.inj hw
    exact ⟨rfl, (append_nil c).symm⟩
  | cons f files ih =>
    rw [writeFrom] at h
    split at h
    · cases (Prod.mk.inj h).2
    · split at h
      · cases (Prod.mk.inj h).2
      · obtain ⟨hd, hc⟩ := ih h
        refine ⟨hd, ?_⟩
        by_cases hs : stringSuffix f.name ".c" = true
        · rw [hc, if_pos hs, filter_cons_of_pos (by exact hs), map_cons, append_assoc,
            singleton_append]
        · rw [hc, if_neg hs, filter_cons_of_neg (by exact hs)]

theorem diskAfter_other {n : String} (h : ∀ f ∈ files, f.name ≠ n) :
    diskAfter dir files disk (artifactPath dir n) = disk (artifactPath dir n) := by
  induction files generalizing disk with
  | nil => rfl
  | cons f files ih =>
    rw [diskAfter, foldl_cons]
    refine (ih fun g hg => h g (mem_cons_of_mem _ hg)).trans (Function.update_of_ne ?_ _ _)
    exact fun heq => h f mem_cons_self (artifactPath_inj.mp heq).symm

/-- The last file of a name is held, so every file is if they agree. -/
theorem diskAfter_held (h : Agreeing files) {f : ArtifactFile} (hf : f ∈ files) :
    diskAfter dir files disk (artifactPath dir f.name) = some f.payload := by
  induction files generalizing disk f with
  | nil => cases hf
  | cons g files ih =>
    obtain ⟨hg, hr⟩ := pairwise_cons.mp h
    by_cases hl : ∃ x ∈ files, x.name = f.name
    · obtain ⟨x, hx, hxf⟩ := hl
      rw [← hxf]
      refine (ih hr hx).trans (congrArg some ?_)
      rcases mem_cons.mp hf with rfl | hf
      · exact (hg x hx hxf.symm).1.symm
      · have hfx := @ih disk hr f hf
        rw [← hxf, ih hr hx] at hfx
        exact Option.some.inj hfx
    · obtain rfl : f = g := (mem_cons.mp hf).resolve_right fun hf => hl ⟨f, hf, rfl⟩
      exact (diskAfter_other fun x hx heq => hl ⟨x, hx, heq⟩).trans (Function.update_self ..)

/-- No C source twice, as far as the names go. -/
theorem nodup_sources_iff :
    ((files.filter fun f => stringSuffix f.name ".c").map fun f => artifactPath dir f.name).Nodup ↔
      files.Pairwise fun a b => a.name = b.name → stringSuffix a.name ".c" = false := by
  rw [List.Nodup, pairwise_map, pairwise_filter]
  refine Pairwise.iff fun {a b} => ?_
  constructor
  · intro h heq
    by_contra hs
    rw [Bool.not_eq_false] at hs
    exact h hs (heq ▸ hs) (congrArg _ heq)
  · intro h ha _ hp
    rw [h (artifactPath_inj.mp hp)] at ha
    cases ha

variable {b : NativeRebuildBundle}

theorem decodeRebuildEnvelope_ok {sha : Sha256} {env sid mid : String} :
    decodeRebuildEnvelope sha env sid mid = .ok b ↔
      decodeArtifactEnvelope sha.bytes mid env = .ok b.artifact ∧ b.artifact.target = "c17" ∧
        artifactSemanticContentId sha b.artifact = some sid ∧ b = ⟨sid, mid, b.artifact⟩ := by
  unfold decodeRebuildEnvelope
  cases decodeArtifactEnvelope sha.bytes mid env with
  | error e => cases e <;> simp
  | ok a =>
    dsimp only
    by_cases ht : a.target = "c17"
    · rw [if_neg (not_not.mpr ht)]
      cases hs : artifactSemanticContentId sha a with
      | none =>
        refine iff_of_false (by simp) fun h => ?_
        rw [← Except.ok.inj h.1, hs] at h
        cases h.2.2.1
      | some d =>
        dsimp only
        by_cases heq : sid = d
        · rw [if_neg (not_not.mpr heq)]
          constructor
          · intro h
            obtain rfl := Except.ok.inj h
            exact ⟨rfl, ht, by rw [hs, heq], rfl⟩
          · rintro ⟨h, -, -, hb⟩
            rw [Except.ok.inj h, ← hb]
        · rw [if_pos heq]
          refine iff_of_false (by simp) fun h => heq ?_
          rw [← Except.ok.inj h.1, hs] at h
          exact (Option.some.inj h.2.2.1).symm
    · rw [if_pos ht]
      exact iff_of_false (by simp) fun h => ht (Except.ok.inj h.1 ▸ h.2.1)

theorem decodeRebuildBundle_semantic {sha : Sha256} {pl : String}
    (h : decodeRebuildBundle sha pl = .ok b) :
    artifactSemanticContentId sha b.artifact = some b.semanticContentId := by
  simp only [decodeRebuildBundle, bind, Except.bind] at h
  repeat' split at h
  all_goals first
    | cases h
    | (obtain ⟨-, -, hs, hb⟩ := decodeRebuildEnvelope_ok.mp h
       rw [hs, hb])

variable {a : TargetArtifact}

theorem artifactFile_mem {n : String} {f : ArtifactFile}
    (h : artifactFile a n = some f) : f ∈ a.files ∧ f.name = n := by
  have hn := find?_some h
  exact ⟨mem_of_find?_eq_some h, (beq_iff_eq.mp hn).symm⟩

/-- The identity that was attested is that of two files of the artifact. -/
theorem artifactSemanticContentId_some {sha : Sha256} {sid : String}
    (h : artifactSemanticContentId sha a = some sid) : ∃ s ∈ a.files, ∃ n ∈ a.files,
      s.name = sourceFactsContentIdFilename ∧ n.name = nativeProgramContentIdFilename ∧
      sid = rebuildSemanticContentId sha s.payload n.payload := by
  unfold artifactSemanticContentId at h
  split at h
  · next s n hs hn =>
    split at h
    · obtain ⟨hsm, hsn⟩ := artifactFile_mem hs
      obtain ⟨hnm, hnn⟩ := artifactFile_mem hn
      exact ⟨s, hsm, n, hnm, hsn, hnn, (Option.some.inj h).symm⟩
    · cases h
  · cases h

/-- **The directory holds what an accepted bundle attests exactly if files of one name agree**,
and no name of a C source is repeated; and where a file is not valid nothing is written. -/
theorem rebuild_attested_iff (sha : Sha256) :
    (∀ payload bundle host dir disk d' cs qs, decodeRebuildBundle sha payload = .ok bundle →
      writeArtifactFiles sha.bytes host dir bundle.artifact.files disk = (d', .written cs qs) →
      (Attested sha dir bundle d' cs ↔ Agreeing bundle.artifact.files)) ∧
    ∀ host dir files disk, (∃ file ∈ files, artifactFileValid sha.bytes file = false) →
      ∃ detail, writeArtifactFiles sha.bytes host dir files disk = (disk, .failed 65 detail) := by
  refine ⟨fun payload bundle host dir disk d' cs qs hdec hw => ?_, fun host dir files disk h => ?_⟩
  · unfold writeArtifactFiles at hw
    split at hw
    · cases (Prod.mk.inj hw).2
    next hva =>
    obtain ⟨rfl, rfl⟩ := writeFrom_written hw
    rw [find?_eq_none] at hva
    rw [nil_append]
    constructor
    · intro h
      refine Pairwise.imp_of_mem (fun {a b} ha hb hs heq => ⟨?_, hs heq⟩)
        (nodup_sources_iff.mp h.distinct)
      have hab := (h.held a ha).symm.trans (heq ▸ h.held b hb)
      exact Option.some.inj hab
    · intro h
      obtain ⟨s, hs, n, hn, hsn, hnn, hid⟩ :=
        artifactSemanticContentId_some (decodeRebuildBundle_semantic hdec)
      refine ⟨fun f hf => diskAfter_held h hf, fun f hf => ⟨f.name, rfl, ?_⟩,
        nodup_sources_iff.mpr (h.imp fun hab heq => (hab heq).2), s.payload, n.payload,
        hsn ▸ diskAfter_held h hs, hnn ▸ diskAfter_held h hn, hid⟩
      have hv := hva f hf
      simp only [Bool.not_eq_true, Bool.not_eq_false', artifactFileValid, Bool.and_eq_true] at hv
      exact hv.1.1.1
  · obtain ⟨f, hf, hbad⟩ := h
    unfold writeArtifactFiles
    cases hfi : files.find? fun file => !artifactFileValid sha.bytes file with
    | none => exact absurd (find?_eq_none.mp hfi f hf) (by simp [hbad])
    | some g => exact ⟨_, rfl⟩

/-! ### Two files of one name -/

theorem readManifestLine_append {l r : List Char} (h : '\n' ∉ l) :
    readManifestLine (l ++ '\n' :: r) = .ok (l, r) := by
  induction l with
  | nil => rfl
  | cons c l ih =>
    rw [mem_cons, not_or] at h
    rw [cons_append, readManifestLine, if_neg (Ne.symm h.1), ih h.2]
    rfl

theorem manifestField_append (f v : String) (hv : v ≠ "") :
    manifestField ((f ++ " ").toList ++ v.toList) f = some v := by
  have hpos : 0 < v.toList.length :=
    length_pos_iff.mpr fun hn => hv (by rw [← String.ofList_toList (s := v), hn])
  rw [manifestField, if_pos ⟨by simp, by rw [length_append]; omega⟩, drop_left,
    String.ofList_toList]

theorem identityField_append {f v d : String} (h : exactContentId (Utf8.encode v) = true) :
    identityField ((f ++ " ").toList ++ v.toList) f d = .ok v := by
  rw [identityField, manifestField_append f v (by rintro rfl; cases h)]
  exact if_pos h

/-- A bundle as it is written. -/
def bundlePayload (sid mid env : String) : String :=
  .ofList (rebuildBundleFormat.toList ++ '\n' ::
    (("semantic-content-id" ++ " " ++ sid).toList ++ '\n' ::
      (("materialization-content-id" ++ " " ++ mid).toList ++ '\n' ::
        (artifactEnvelopeMarker.toList ++ '\n' :: env.toList))))

theorem no_newline_of_exact {v : String} (h : exactContentId (Utf8.encode v) = true) :
    '\n' ∉ v.toList := by
  intro hmem
  obtain ⟨-, ht, hd⟩ := Bootstrap.exactContentId_iff.mp h
  have hten : (10 : UInt8) ∈ Utf8.encode v := mem_flatMap.mpr ⟨'\n', hmem, by decide⟩
  rw [← take_append_drop 7 (Utf8.encode v), mem_append, ht] at hten
  rcases hten with hten | hten
  · exact absurd hten (by decide)
  · exact absurd (hd 10 hten) (by decide)

theorem exact_contentDigest (sha : Sha256) (t : String) :
    exactContentId (Utf8.encode (contentDigest sha.bytes t)) = true :=
  Bootstrap.exactContentId_contentId sha _

theorem decode_bundlePayload {sha : Sha256} {sid : String}
    (hv : artifactValid sha.bytes a = true) (hc : a.target = "c17")
    (hf : ∀ f ∈ a.files, artifactFileValid sha.bytes f = true)
    (hs : artifactSemanticContentId sha a = some sid) :
    decodeRebuildBundle sha (bundlePayload sid
        (contentDigest sha.bytes (artifactEnvelopePayload a)) (artifactEnvelopePayload a)) =
      .ok ⟨sid, contentDigest sha.bytes (artifactEnvelopePayload a), a⟩ := by
  obtain ⟨s, -, n, -, -, -, hid⟩ := artifactSemanticContentId_some hs
  have hsid : exactContentId (Utf8.encode sid) = true :=
    hid ▸ Bootstrap.exactContentId_contentId sha _
  have hmid := exact_contentDigest sha (artifactEnvelopePayload a)
  have hli : ∀ {l v : String}, '\n' ∉ l.toList → exactContentId (Utf8.encode v) = true →
      '\n' ∉ (l ++ v).toList := fun hl hx => by
    rw [String.toList_append, mem_append, not_or]
    exact ⟨hl, no_newline_of_exact hx⟩
  have h1 : '\n' ∉ rebuildBundleFormat.toList := by decide
  have h2 := @hli ("semantic-content-id" ++ " ") sid (by decide) hsid
  have h3 := @hli ("materialization-content-id" ++ " ") _ (by decide) hmid
  have h4 : '\n' ∉ artifactEnvelopeMarker.toList := by decide
  have hi2 := @identityField_append "semantic-content-id" sid
    "rebuild bundle semantic content ID is malformed" hsid
  have hi3 := @identityField_append "materialization-content-id" _
    "rebuild bundle materialization content ID is malformed" hmid
  rw [← String.toList_append] at hi2 hi3
  unfold decodeRebuildBundle bundlePayload
  rw [String.toList_ofList, readManifestLine_append h1]
  simp only [bind, Except.bind, ne_eq, not_true_eq_false, if_false, readManifestLine_append h2, hi2,
    readManifestLine_append h3, hi3, readManifestLine_append h4, String.ofList_toList]
  exact decodeRebuildEnvelope_ok.mpr ⟨decode_written hv |>.mpr ⟨rfl, hf⟩, hc, hs, rfl⟩

/-- A file with its digests. -/
def namedFile (sha : Sha256) (name payload : String) (h : (Utf8.encode payload).length < 2 ^ 63) :
    ArtifactFile :=
  ⟨name, payload, contentDigest sha.bytes payload,
    ⟨(Utf8.encode payload).length, by omega, by omega⟩, contentDigest sha.bytes payload⟩

theorem namedFile_valid {sha : Sha256} {n p : String} {h : (Utf8.encode p).length < 2 ^ 63}
    (hn : safeLeafName n = true) : artifactFileValid sha.bytes (namedFile sha n p h) = true := by
  simp [artifactFileValid, namedFile, hn]

def zeroId : String := "sha256:0000000000000000000000000000000000000000000000000000000000000000"

/-- Two C sources of one name. -/
def twoSources (sha : Sha256) : TargetArtifact :=
  ⟨"c17", [namedFile sha sourceFactsContentIdFilename zeroId (by decide),
    namedFile sha nativeProgramContentIdFilename zeroId (by decide),
    namedFile sha "main.c" "" (by decide), namedFile sha "main.c" "x" (by decide)], "",
    contentDigest sha.bytes "", by simp⟩

/-- A bundle with two files of one name is accepted and written, and one of them is lost. -/
theorem repeated_name_loses_file : ¬ ∃ sha : Sha256,
    ∀ payload bundle host dir disk d' cs qs, decodeRebuildBundle sha payload = .ok bundle →
      writeArtifactFiles sha.bytes host dir bundle.artifact.files disk = (d', .written cs qs) →
      Attested sha dir bundle d' cs := by
  rintro ⟨sha, h⟩
  have hf : ∀ f ∈ (twoSources sha).files, artifactFileValid sha.bytes f = true := by
    simp only [twoSources, forall_mem_cons]
    exact ⟨namedFile_valid (by decide), namedFile_valid (by decide), namedFile_valid (by decide),
      namedFile_valid (by decide), forall_mem_nil _⟩
  have hv : artifactValid sha.bytes (twoSources sha) = true :=
    artifactValid_iff.mpr ⟨Or.inl rfl, rfl⟩
  have hs : artifactSemanticContentId sha (twoSources sha) =
      some (rebuildSemanticContentId sha zeroId zeroId) := by
    have hx : exactContentId (Utf8.encode zeroId) = true := by decide +kernel
    have h1 : artifactFile (twoSources sha) sourceFactsContentIdFilename =
      some (namedFile sha sourceFactsContentIdFilename zeroId (by decide)) := rfl
    have h2 : artifactFile (twoSources sha) nativeProgramContentIdFilename =
      some (namedFile sha nativeProgramContentIdFilename zeroId (by decide)) := rfl
    unfold artifactSemanticContentId
    rw [h1, h2]
    exact if_pos ⟨hx, hx⟩
  have hdec := decode_bundlePayload hv rfl hf hs
  have hw : ∃ d' cs qs, writeArtifactFiles sha.bytes ⟨fun _ _ => none, fun _ _ _ => none⟩ "out"
      (twoSources sha).files (fun _ => none) = (d', .written cs qs) := by
    unfold writeArtifactFiles
    rw [find?_eq_none.mpr fun f hm => by rw [hf f hm]; decide]
    exact ⟨_, _, _, rfl⟩
  obtain ⟨d', cs, qs, hw⟩ := hw
  have hh := (h _ _ _ _ _ _ _ _ hdec hw).held
  have h1 := hh (namedFile sha "main.c" "" (by decide)) (by simp [twoSources])
  have h2 := hh (namedFile sha "main.c" "x" (by decide)) (by simp [twoSources])
  exact absurd (Option.some.inj (h1.symm.trans h2)) (by simp [namedFile])

end Beagle.Rebuild
