/-
What the envelope of an artifact says.

The reader of one part takes exactly the bytes that spell it, whatever zeros stand in
front of its length.  So an accepted payload spells the five parts of a head and five
parts for each file, with nothing behind them; and the number of its parts is fixed by
the fifth, so no accepted payload goes on from another.
-/
import Beagle.Native.ArtifactLinker
import Beagle.Lib.Reader

namespace Beagle.ArtifactLinker

open Beagle.Native List
open Beagle.Lib (Utf8.encode Utf8.decode except_bind_ok)
open Beagle.Lib.Frames

/-! ### One part -/

theorem readPart_cons (t : Nat) (b : UInt8) (r : List UInt8) (n ds : Nat)
    (hdec : decimal b = true) (hb : n ≤ t) :
    readPart t (b :: r) n ds = (n :: (readPart t r (shift n b) (ds + 1)).1,
        (readPart t r (shift n b) (ds + 1)).2) := by
  have hcol : b ≠ 58 := by
    rintro rfl
    exact absurd hdec (by decide)
  rw [readPart, if_neg hcol, if_neg (by simp [hdec]), if_neg (Nat.not_lt.mpr hb)]
  rfl

variable {bs : List UInt8}

/-- A part that is read stands there. -/
theorem readPart_ok {t : Nat} {r : List UInt8} {n ds : Nat} {v : String}
    (h : (readPart t bs n ds).2 = .ok (v, r)) :
    ∃ run, (ds = 0 → run ≠ []) ∧ (∀ byt ∈ run, decimal byt = true) ∧
      run.foldl shift n = (Utf8.encode v).length ∧
      bs = run ++ 58 :: (Utf8.encode v ++ r) := by
  induction bs generalizing n ds with
  | nil => cases h
  | cons byt bs ih =>
    by_cases hcol : byt = 58
    · rw [readPart, if_pos hcol] at h
      by_cases hd : ds = 0
      · rw [if_pos hd] at h
        cases h
      rw [if_neg hd] at h
      by_cases he : bs.length < n
      · rw [if_pos he] at h
        cases h
      rw [if_neg he] at h
      dsimp only at h
      split at h
      · cases h
      · split at h
        · rename_i hbs
          cases h
          refine ⟨[], fun h => absurd h hd, nofun, ?_, ?_⟩
          · rw [← hbs, length_take]
            show n = _
            omega
          · rw [← hbs, take_append_drop, hcol, nil_append]
        · cases h
    · by_cases hdec : decimal byt = true
      · by_cases hbo : n ≤ t
        · rw [readPart_cons t byt bs n ds hdec hbo] at h
          obtain ⟨run, -, hrun, hlen, hbs⟩ := ih h
          refine ⟨byt :: run, fun _ => cons_ne_nil _ _, ?_, hlen, ?_⟩
          · intro b hb
            rcases mem_cons.mp hb with rfl | hb
            · exact hdec
            · exact hrun b hb
          · rw [hbs, cons_append]
        · rw [readPart, if_neg hcol, if_neg (by simp [hdec]), if_pos (Nat.not_le.mp hbo)] at h
          cases h
      · rw [readPart, if_neg hcol, if_pos (by simp [hdec])] at h
        cases h

/-- A part that stands there is read. -/
theorem readPart_run {total : Nat} {run r : List UInt8} {n ds : Nat} {v : String}
    (hs : ds + run.length ≠ 0) (hrun : ∀ byt ∈ run, decimal byt = true)
    (hl : run.foldl shift n = (Utf8.encode v).length)
    (htot : (Utf8.encode v).length ≤ total) :
    (readPart total (run ++ 58 :: (Utf8.encode v ++ r)) n ds).2 = .ok (v, r) := by
  induction run generalizing n ds with
  | nil =>
    have hlen : n = (Utf8.encode v).length := hl
    have hd : ds ≠ 0 := hs
    rw [nil_append, readPart, if_pos rfl, if_neg hd, if_neg (by
      rw [length_append]
      omega)]
    dsimp only
    rw [hlen, take_left, drop_left, Beagle.Lib.Utf8.decode_encode]
    dsimp only
    rw [if_pos rfl]
  | cons byt run ih =>
    have hle : shift n byt ≤ total := by
      refine Nat.le_trans (le_foldl_shift run _) ?_
      rw [← foldl_cons, hl]
      exact htot
    have hbo : n ≤ total := by
      unfold shift at hle
      omega
    rw [cons_append, readPart_cons total byt _ n ds (hrun byt mem_cons_self) hbo]
    exact ih (by simp) (fun b hb => hrun b (mem_cons_of_mem _ hb)) hl

theorem decodeEnvelopePart_iff {total : Nat} {rest : List UInt8} {v : String}
    (htot : bs.length ≤ total) :
    decodeEnvelopePart total bs = .ok (v, rest) ↔ Part v bs rest := by
  constructor
  · intro h
    obtain ⟨run, hne, hrun, hlen, hbs⟩ := readPart_ok h
    exact ⟨run, hne rfl, hrun, hlen, hbs⟩
  · rintro ⟨run, hne, hrun, hlen, hbs⟩
    have hf : (Utf8.encode v).length ≤ total := by
      rw [hbs, length_append, length_cons, length_append] at htot
      omega
    rw [hbs]
    refine readPart_run ?_ hrun hlen hf
    rw [Nat.zero_add]
    exact fun h => hne (length_eq_zero_iff.mp h)

/-- No length that is held is ten times the payload and ten or more. -/
theorem readPart_lengths {t len ds : Nat} (hlen : len < 10 * t + 10)
    {n : Nat} (hn : n ∈ (readPart t bs len ds).1) : n < 10 * t + 10 := by
  induction bs generalizing len ds with
  | nil =>
    rw [mem_singleton.mp hn]
    exact hlen
  | cons b bs ih =>
    by_cases hm : decimal b = true ∧ len ≤ t
    · rw [readPart_cons t b bs len ds hm.1 hm.2] at hn
      rcases mem_cons.mp hn with rfl | hn
      · exact hlen
      · refine ih ?_ hn
        have hdec := hm.1
        unfold decimal at hdec
        rw [Bool.and_eq_true, decide_eq_true_iff, decide_eq_true_iff] at hdec
        unfold shift
        omega
    · have hone : (readPart t (b :: bs) len ds).1 = [len] := by
        rw [readPart]
        split
        · rfl
        · split
          · rfl
          · rename_i hdec
            rw [if_pos]
            rw [Bool.not_eq_true, Bool.not_eq_false'] at hdec
            exact Nat.not_le.mp fun hle => hm ⟨hdec, hle⟩
      rw [hone] at hn
      rw [mem_singleton.mp hn]
      exact hlen

/-! ### Some parts -/

/-- What follows a part is read from what the part leaves. -/
theorem decodeEnvelopePart_bind {t : Nat} {α : Type}
    {f : String × List UInt8 → Except Failure α} {result : α} (htot : bs.length ≤ t) :
    (decodeEnvelopePart t bs >>= f) = .ok result ↔ ∃ v r,
      Part v bs r ∧ r.length ≤ t ∧ f (v, r) = .ok result := by
  rw [except_bind_ok]
  constructor
  · rintro ⟨⟨v, r⟩, h, hres⟩
    have hp := (decodeEnvelopePart_iff htot).mp h
    exact ⟨v, r, hp, Nat.le_trans (Nat.le_of_lt hp.length_lt) htot, hres⟩
  · rintro ⟨v, r, hp, -, hres⟩
    exact ⟨_, (decodeEnvelopePart_iff htot).mpr hp, hres⟩

theorem decodeEnvelopeParts_iff {t : Nat} (n : Nat) {rest : List UInt8}
    {vs : List.Vector String n} (htot : bs.length ≤ t) :
    decodeEnvelopeParts t n bs = .ok (vs, rest) ↔ Spelled vs.toList bs rest := by
  induction n generalizing bs rest with
  | zero =>
    obtain ⟨vs, hv⟩ := vs
    obtain rfl := length_eq_zero_iff.mp hv
    constructor
    · intro h
      cases h
      exact Spelled.nil _
    · intro h
      cases h
      rfl
  | succ n ih =>
    show (decodeEnvelopePart t bs >>= fun p =>
      decodeEnvelopeParts t n p.2 >>= fun os =>
        .ok (List.Vector.cons p.1 os.1, os.2)) = _ ↔ _
    rw [decodeEnvelopePart_bind htot]
    constructor
    · rintro ⟨v, mid, hfst, hmid, h⟩
      obtain ⟨⟨os, l⟩, hos, h⟩ := except_bind_ok.mp h
      cases h
      rw [List.Vector.toList_cons]
      exact Spelled.cons hfst ((ih hmid).mp hos)
    · intro h
      obtain ⟨vs, hv⟩ := vs
      cases vs with
      | nil => cases hv
      | cons v texts =>
        obtain ⟨mid, hfst, hos⟩ := h.uncons
        have ht : texts.length = n := Nat.succ.inj hv
        have hmid := Nat.le_trans (Nat.le_of_lt hfst.length_lt) htot
        refine ⟨v, mid, hfst, hmid, ?_⟩
        exact except_bind_ok.mpr ⟨(⟨texts, ht⟩, rest), (ih hmid).mpr hos, rfl⟩

/-! ### Whole payloads -/

section

variable (sha256Bytes : List UInt8 → String)

/-- The parts of some files, all of them valid; the size of a file may be spelled in
several ways. -/
inductive FilesSpelled : List ArtifactFile → List String → Prop
  | nil : FilesSpelled [] []
  | cons {file : ArtifactFile} {files : List ArtifactFile} {byteCountText : String}
      {texts : List String} (counted : parseLong byteCountText = some file.payloadByteCount)
      (valid : artifactFileValid sha256Bytes file = true) (others : FilesSpelled files texts) :
      FilesSpelled (file :: files)
        (file.name :: file.payload :: file.contentId :: byteCountText :: file.payloadSha256 ::
          texts)

/-- The parts of an artifact, its number of files spelled in some way. -/
structure Denotes (artifact : TargetArtifact) (countText : String) (fileTexts : List String)
    (payload : String) : Prop where
  valid : artifactValid sha256Bytes artifact = true
  counted : ∃ count : Long, parseLong countText = some count ∧ count.val = artifact.files.length
  files : FilesSpelled sha256Bytes artifact.files fileTexts
  spelled : Spelled ("beagle-target-artifact-v1" :: artifact.target :: artifact.encoding ::
    artifact.digest :: countText :: fileTexts) (Utf8.encode payload) []

variable {sha256Bytes}

variable {files : List ArtifactFile} {texts : List String} {payload countText : String}
  {artifact : TargetArtifact}

theorem FilesSpelled.length (h : FilesSpelled sha256Bytes files texts) :
    texts.length = 5 * files.length := by
  induction h with
  | nil => rfl
  | cons _ _ _ ih =>
    simp only [length_cons]
    omega

theorem FilesSpelled.valid {files : List ArtifactFile} {texts : List String}
    (h : FilesSpelled sha256Bytes files texts) :
    ∀ f ∈ files, artifactFileValid sha256Bytes f = true := by
  induction h with
  | nil => exact fun f hfile => absurd hfile not_mem_nil
  | cons _ v _ ih =>
    intro f hfile
    rcases mem_cons.mp hfile with rfl | hfile
    · exact v
    · exact ih f hfile

theorem decodeArtifactFiles_iff {t : Nat} (n : Nat) {bs rest : List UInt8}
    {files : List.Vector ArtifactFile n} (htot : bs.length ≤ t) :
    decodeArtifactFiles sha256Bytes t n bs = .ok (files, rest) ↔
      ∃ texts, FilesSpelled sha256Bytes files.toList texts ∧ Spelled texts bs rest := by
  induction n generalizing bs rest with
  | zero =>
    obtain ⟨files, hf⟩ := files
    obtain rfl := length_eq_zero_iff.mp hf
    constructor
    · intro h
      cases h
      exact ⟨[], FilesSpelled.nil, Spelled.nil _⟩
    · rintro ⟨texts, ht, hs⟩
      cases ht
      cases hs
      rfl
  | succ n ih =>
    rw [decodeArtifactFiles]
    constructor
    · intro h
      obtain ⟨nm, r1, hn, htot1, h⟩ := (decodeEnvelopePart_bind htot).mp h
      obtain ⟨payload, r2, hpay, htot2, h⟩ := (decodeEnvelopePart_bind htot1).mp h
      obtain ⟨ci, r3, hci, htot3, h⟩ := (decodeEnvelopePart_bind htot2).mp h
      obtain ⟨bct, r4, hbc, htot4, h⟩ :=
        (decodeEnvelopePart_bind htot3).mp h
      obtain ⟨ps256, r5, hsha, htot5, h⟩ := (decodeEnvelopePart_bind htot4).mp h
      dsimp only at h
      split at h
      · cases h
      · rename_i bc hp
        split at h
        · cases h
        · rename_i hv
          rw [Bool.not_eq_true, Bool.not_eq_false'] at hv
          obtain ⟨⟨os, l⟩, hos, h⟩ := except_bind_ok.mp h
          cases h
          obtain ⟨texts, ht, hs⟩ := (ih htot5).mp hos
          rw [List.Vector.toList_cons]
          refine ⟨_, FilesSpelled.cons hp hv ht, ?_⟩
          exact Spelled.cons hn (Spelled.cons hpay (Spelled.cons hci
            (Spelled.cons hbc (Spelled.cons hsha hs))))
    · rintro ⟨texts, ht, hs⟩
      obtain ⟨files, hf⟩ := files
      cases ht with
      | nil => cases hf
      | @cons f os bct texts c v hos =>
        obtain ⟨r1, hn, hs⟩ := hs.uncons
        obtain ⟨r2, hpay, hs⟩ := hs.uncons
        obtain ⟨r3, hci, hs⟩ := hs.uncons
        obtain ⟨r4, hbc, hs⟩ := hs.uncons
        obtain ⟨r5, hsha, hs⟩ := hs.uncons
        have htot1 := Nat.le_trans (Nat.le_of_lt hn.length_lt) htot
        have htot2 := Nat.le_trans (Nat.le_of_lt hpay.length_lt) htot1
        have htot3 := Nat.le_trans (Nat.le_of_lt hci.length_lt) htot2
        have htot4 := Nat.le_trans (Nat.le_of_lt hbc.length_lt) htot3
        have htot5 := Nat.le_trans (Nat.le_of_lt hsha.length_lt) htot4
        refine (decodeEnvelopePart_bind htot).mpr ⟨_, _, hn, htot1, ?_⟩
        refine (decodeEnvelopePart_bind htot1).mpr ⟨_, _, hpay, htot2, ?_⟩
        refine (decodeEnvelopePart_bind htot2).mpr ⟨_, _, hci, htot3, ?_⟩
        refine (decodeEnvelopePart_bind htot3).mpr ⟨_, _, hbc, htot4, ?_⟩
        refine (decodeEnvelopePart_bind htot4).mpr ⟨_, _, hsha, htot5, ?_⟩
        have hlen : os.length = n := Nat.succ.inj hf
        dsimp only
        rw [c]
        dsimp only
        rw [if_neg (by simp [v])]
        refine except_bind_ok.mpr ⟨(⟨os, hlen⟩, rest), ?_, rfl⟩
        exact (ih htot5).mpr ⟨texts, hos, hs⟩

/-- **An envelope is accepted as an artifact exactly when its payload spells the parts of
that artifact and nothing else.** -/
theorem decodeArtifactEnvelope_iff {cci : String} :
    decodeArtifactEnvelope sha256Bytes cci payload = .ok artifact ↔
      cci = contentDigest sha256Bytes payload ∧
        ∃ countText ft, Denotes sha256Bytes artifact countText ft payload := by
  unfold decodeArtifactEnvelope
  by_cases hid : cci = contentDigest sha256Bytes payload
  swap
  · rw [if_pos hid]
    exact ⟨nofun, fun h => absurd h.1 hid⟩
  rw [if_neg (not_not_intro hid)]
  have htot := Nat.le_refl (Utf8.encode payload).length
  constructor
  · intro h
    refine ⟨hid, ?_⟩
    obtain ⟨⟨⟨vs, hva⟩, rest⟩, hparts, h⟩ := except_bind_ok.mp h
    match vs, hva with
    | [version, target, encoding, digest, countText], hva =>
      replace hparts := (decodeEnvelopeParts_iff 5 htot).mp hparts
      replace hparts : Spelled [version, target, encoding, digest, countText] _ rest := hparts
      dsimp only at h
      split at h
      · cases h
      rename_i hver
      replace hver : version = "beagle-target-artifact-v1" := not_not.mp hver
      subst hver
      split at h
      · cases h
      rename_i count hcnt
      replace hcnt : parseLong countText = some count := hcnt
      split at h
      · cases h
      rename_i hsi
      obtain ⟨⟨files, l⟩, hf, h⟩ := except_bind_ok.mp h
      have hr := hparts.length_le
      obtain ⟨texts, ht, hs⟩ := (decodeArtifactFiles_iff _ (by omega)).mp hf
      split at h
      · cases h
      rename_i hl
      replace hl : l = [] := not_not.mp hl
      subst hl
      split at h
      · rename_i hv
        cases h
        refine ⟨countText, texts, hv, ⟨count, hcnt, ?_⟩, ht, hparts.append hs⟩
        show count.val = (files.toList.length : Int)
        rw [List.Vector.toList_length]
        omega
      · cases h
  · rintro ⟨-, countText, texts, hv, ⟨count, hcnt, hlen⟩, hf, hs⟩
    obtain ⟨rest, hparts, hos⟩ := Spelled.split
      ["beagle-target-artifact-v1", artifact.target, artifact.encoding, artifact.digest, countText]
      hs
    have hr := hparts.length_le
    have htn : artifact.files.length = count.val.toNat := by omega
    refine except_bind_ok.mpr ⟨(⟨["beagle-target-artifact-v1", artifact.target, artifact.encoding,
      artifact.digest, countText], rfl⟩, rest), (decodeEnvelopeParts_iff 5 htot).mpr hparts, ?_⟩
    refine (if_neg (not_not_intro rfl)).trans ?_
    split
    · next h => cases hcnt.symm.trans h
    next fc h =>
    obtain rfl := Option.some.inj (hcnt.symm.trans h)
    rw [if_neg (by omega)]
    refine except_bind_ok.mpr ⟨(⟨artifact.files, htn⟩, []), ?_, ?_⟩
    · exact (decodeArtifactFiles_iff _ (show rest.length ≤ _ by omega)).mpr ⟨texts, hf, hos⟩
    · dsimp only
      rw [if_neg (not_not_intro rfl)]
      exact if_pos hv

/-! ### What is written -/

def fileTexts (file : ArtifactFile) : List String :=
  [file.name, file.payload, file.contentId, toString file.payloadByteCount.val, file.payloadSha256]

def artifactTexts (artifact : TargetArtifact) : List String :=
  "beagle-target-artifact-v1" :: artifact.target :: artifact.encoding :: artifact.digest ::
    toString artifact.files.length :: artifact.files.flatMap fileTexts

theorem encodeEnvelopePart_eq (value : String) : encodeEnvelopePart value = framed value := rfl

theorem encodeArtifactFileEnvelope_eq (f : ArtifactFile) :
    encodeArtifactFileEnvelope f = framedAll (fileTexts f) := by
  unfold encodeArtifactFileEnvelope fileTexts
  simp only [encodeEnvelopePart_eq, framedAll_cons, String.append_assoc]
  rw [show framedAll [] = "" from rfl, String.append_empty]

theorem artifactEnvelopePayload_eq (artifact : TargetArtifact) :
    artifactEnvelopePayload artifact = framedAll (artifactTexts artifact) := by
  have hf : ∀ (files : List ArtifactFile) (h' : List String),
      files.foldl (fun payload f => payload ++ encodeArtifactFileEnvelope f)
        (framedAll h') = framedAll (h' ++ files.flatMap fileTexts) := by
    intro files
    induction files with
    | nil =>
      intro h'
      rw [flatMap_nil, append_nil]
      rfl
    | cons f files ih =>
      intro h'
      rw [foldl_cons, encodeArtifactFileEnvelope_eq, ← framedAll_append, ih,
        flatMap_cons, append_assoc]
  have hh := hf artifact.files ["beagle-target-artifact-v1", artifact.target,
    artifact.encoding, artifact.digest, toString artifact.files.length]
  rw [cons_append, cons_append, cons_append, cons_append, singleton_append] at hh
  rw [artifactTexts, ← hh]
  unfold artifactEnvelopePayload
  simp only [encodeEnvelopePart_eq, framedAll_cons, String.append_assoc]
  rw [show framedAll [] = "" from rfl, String.append_empty]

theorem spelled_artifactEnvelopePayload (artifact : TargetArtifact) :
    Spelled (artifactTexts artifact) (Utf8.encode (artifactEnvelopePayload artifact)) [] := by
  rw [artifactEnvelopePayload_eq]
  have h := spelled_framedAll (artifactTexts artifact) []
  rwa [append_nil] at h

theorem encodeArtifactEnvelope_eq {env : ArtifactEnvelope} :
    encodeArtifactEnvelope sha256Bytes artifact = .ok env ↔
      artifactValid sha256Bytes artifact = true ∧
        env = ⟨contentDigest sha256Bytes (artifactEnvelopePayload artifact),
          artifactEnvelopePayload artifact⟩ := by
  unfold encodeArtifactEnvelope
  by_cases hv : artifactValid sha256Bytes artifact = true
  · rw [if_neg (by simp [hv])]
    constructor
    · intro h
      cases h
      exact ⟨hv, rfl⟩
    · rintro ⟨-, rfl⟩
      rfl
  · rw [if_pos (by simp [hv])]
    exact ⟨nofun, fun h => absurd h.1 hv⟩

/-- The number of files as a word. -/
def TargetArtifact.fileCount (artifact : TargetArtifact) : Long :=
  ⟨artifact.files.length, by omega, by have := artifact.countFits; omega⟩

theorem parseLong_fileCount (artifact : TargetArtifact) :
    parseLong (toString artifact.files.length) = some artifact.fileCount :=
  parseLong_toString artifact.fileCount

theorem filesSpelled_fileTexts (h : ∀ f ∈ files, artifactFileValid sha256Bytes f = true) :
    FilesSpelled sha256Bytes files (files.flatMap fileTexts) := by
  induction files with
  | nil => exact FilesSpelled.nil
  | cons f files ih =>
    exact FilesSpelled.cons (parseLong_toString _) (h f mem_cons_self)
      (ih fun o ho => h o (mem_cons_of_mem _ ho))

/-- What `encodeArtifactEnvelope` writes denotes the artifact if its files are valid. -/
theorem denotes_written (hv : artifactValid sha256Bytes artifact = true)
    (hf : ∀ f ∈ artifact.files, artifactFileValid sha256Bytes f = true) :
    Denotes sha256Bytes artifact (toString artifact.files.length)
      (artifact.files.flatMap fileTexts) (artifactEnvelopePayload artifact) where
  valid := hv
  counted := ⟨artifact.fileCount, parseLong_fileCount artifact, rfl⟩
  files := filesSpelled_fileTexts hf
  spelled := spelled_artifactEnvelopePayload artifact

/-- Files are told by the texts that are written for them. -/
theorem FilesSpelled.eq_of_fileTexts {written : List ArtifactFile}
    (h : FilesSpelled sha256Bytes files (written.flatMap fileTexts)) : files = written := by
  generalize ht : written.flatMap fileTexts = texts at h
  induction h generalizing written with
  | nil =>
    cases written with
    | nil => rfl
    | cons => cases ht
  | @cons file files bct texts c v os ih =>
    cases written with
    | nil => cases ht
    | cons first written =>
      rw [flatMap_cons] at ht
      simp only [fileTexts, cons_append, nil_append, List.cons.injEq] at ht
      obtain ⟨hn, hpay, hci, hcnt, hsha, hr⟩ := ht
      rw [← hcnt, parseLong_toString] at c
      have hfst : first = file := by
        obtain ⟨n, payload, ci, pbc, ps256⟩ := first
        have hbs : pbc = file.payloadByteCount := Option.some.inj c
        rw [show n = file.name from hn, show payload = file.payload from hpay,
          show ci = file.contentId from hci, hbs,
          show ps256 = file.payloadSha256 from hsha]
      rw [ih hr, hfst]

/-- What is written denotes one artifact at most. -/
theorem Denotes.eq_of_written {written : TargetArtifact}
    (h : Denotes sha256Bytes artifact countText texts (artifactEnvelopePayload written)) :
    artifact = written := by
  have ht := h.spelled.whole_unique (spelled_artifactEnvelopePayload written)
  simp only [artifactTexts, List.cons.injEq, true_and] at ht
  obtain ⟨htgt, henc, hdig, -, hf⟩ := ht
  have hs := h.files
  rw [hf] at hs
  exact TargetArtifact.ext htgt hs.eq_of_fileTexts henc hdig

/-! ### Round trips -/

variable (sha256Bytes) in
/-- An artifact that may be published: a known target, the digest of its encoding, and
valid files. -/
structure Sound (artifact : TargetArtifact) : Prop where
  target : artifact.target = "c17" ∨ artifact.target = "qbe"
  digest : artifact.digest = contentDigest sha256Bytes artifact.encoding
  files : ∀ file ∈ artifact.files, artifactFileValid sha256Bytes file = true

theorem artifactValid_iff : artifactValid sha256Bytes artifact = true ↔
      (artifact.target = "c17" ∨ artifact.target = "qbe") ∧
        artifact.digest = contentDigest sha256Bytes artifact.encoding := by
  unfold artifactValid
  rw [Bool.and_eq_true, Bool.or_eq_true, beq_iff_eq, beq_iff_eq, beq_iff_eq]

/-- The written payload of an artifact is accepted as that artifact and as no other one, if
its files are valid. -/
theorem decode_written {d : TargetArtifact} (hv : artifactValid sha256Bytes artifact = true) :
    decodeArtifactEnvelope sha256Bytes
        (contentDigest sha256Bytes (artifactEnvelopePayload artifact))
        (artifactEnvelopePayload artifact) = .ok d ↔
      d = artifact ∧ ∀ f ∈ artifact.files, artifactFileValid sha256Bytes f = true := by
  rw [decodeArtifactEnvelope_iff]
  constructor
  · rintro ⟨-, countText, texts, h⟩
    have heq := h.eq_of_written
    rw [heq] at h
    exact ⟨heq, h.files.valid⟩
  · rintro ⟨rfl, hf⟩
    exact ⟨rfl, _, _, denotes_written hv hf⟩

/-- Texts of which the fifth is a fifth of the number of those behind it. -/
def Counted (texts : List String) : Prop :=
  ∃ version target encoding digest countText fileTexts, ∃ count : Long,
    texts = version :: target :: encoding :: digest :: countText :: fileTexts ∧
      parseLong countText = some count ∧ fileTexts.length = 5 * count.val

theorem Denotes.counted_texts (h : Denotes sha256Bytes artifact countText texts payload) :
    Counted ("beagle-target-artifact-v1" :: artifact.target :: artifact.encoding ::
      artifact.digest :: countText :: texts) := by
  obtain ⟨c, hcnt, hlen⟩ := h.counted
  refine ⟨_, _, _, _, _, _, c, rfl, hcnt, ?_⟩
  rw [h.files.length, hlen]
  omega

theorem counted_artifactTexts (artifact : TargetArtifact) : Counted (artifactTexts artifact) := by
  refine ⟨_, _, _, _, _, _, artifact.fileCount, rfl, parseLong_fileCount artifact, ?_⟩
  show ((artifact.files.flatMap fileTexts).length : Int) = 5 * (artifact.files.length : Int)
  induction artifact.files with
  | nil => rfl
  | cons f files ih =>
    rw [flatMap_cons, length_append, length_cons]
    have hf : (fileTexts f).length = 5 := rfl
    omega

theorem Counted.append {os : List String} (h : Counted texts) (h' : Counted (texts ++ os)) :
    os = [] := by
  obtain ⟨v, t, e, d, countText, ft, c, rfl, hcnt, hlen⟩ := h
  obtain ⟨_, _, _, _, ct', ft', c', ht, hcnt', hlen'⟩ := h'
  simp only [cons_append, List.cons.injEq] at ht
  obtain ⟨-, -, -, -, rfl, rfl⟩ := ht
  rw [hcnt] at hcnt'
  obtain rfl := Option.some.inj hcnt'
  rw [length_append] at hlen'
  exact length_eq_zero_iff.mp (by omega)

/-- Of two counted payloads none goes on from the other. -/
theorem Counted.whole {ts' : List String} {bs more : List UInt8} (h : Counted texts)
    (h' : Counted ts') (hs : Spelled texts bs [])
    (hs' : Spelled ts' (bs ++ more) []) : more = [] := by
  have hfr : Spelled texts (bs ++ more) more := hs.more more
  rcases Nat.le_total texts.length ts'.length with hle | hle
  · obtain ⟨os, rfl, hos⟩ := hfr.goes_on hs' hle
    rw [h.append h'] at hos
    cases hos
    rfl
  · obtain ⟨os, rfl, hos⟩ := hs'.goes_on hfr hle
    have hn := hos.length_le
    rw [length_nil] at hn
    exact length_eq_zero_iff.mp (by omega)

theorem eq_empty_of_encode {t : String} (h : Utf8.encode t = []) : t = "" :=
  Beagle.Lib.Utf8.encode_injective h

/-- The digest of no bytes. -/
def emptyDigest : String :=
  "sha256:e3b0c44298fc1c149afbf4c8996fb92427ae41e4649b934ca495991b7852b855"

/-- The digests of no bytes and of the payloads below. -/
def digests (bytes : List UInt8) : String :=
  if bytes.length = 0 then "e3b0c44298fc1c149afbf4c8996fb92427ae41e4649b934ca495991b7852b855"
  else if bytes.length = 112 then "e1fab6de8998a86bf373e427c4ba13d3fc6c4badab09623c0f0dc19462144315"
  else if bytes.length = 113 then "926a87c148ad880e0220dacb037259febcb5603cabebe971333b2c8ea24b9150"
  else "de73ebedf0987416f6b2a84a7dcd763c8eec536465e4e511cb84ba39931c9646"

/-- An artifact without files. -/
def noFiles : TargetArtifact := ⟨"c17", [], "", emptyDigest, by decide⟩

theorem noFiles_valid : artifactValid digests noFiles = true := by decide

/-- The fourth text of every five. -/
def byteCountTexts : List String → List String
  | _ :: _ :: _ :: byteCountText :: _ :: texts => byteCountText :: byteCountTexts texts
  | _ => []

/-- The texts that are read as numbers: the number of files and their sizes. -/
def countTexts : List String → List String
  | _ :: _ :: _ :: _ :: countText :: texts => countText :: byteCountTexts texts
  | _ => []

/-- No length in the payload, and no text of it that is read as a number, has a sign or a
zero in front. -/
structure Plain (payload : String) : Prop where
  lengths : PlainLengths (Utf8.encode payload)
  counts : ∀ texts, Spelled texts (Utf8.encode payload) [] →
    ∀ text ∈ countTexts texts, plain (Utf8.encode text) = true

theorem byteCountTexts_fileTexts (files : List ArtifactFile) :
    byteCountTexts (files.flatMap fileTexts) =
      files.map fun f => toString f.payloadByteCount.val := by
  induction files with
  | nil => rfl
  | cons f files ih =>
    rw [flatMap_cons, map_cons, ← ih]
    rfl

/-- The size of a valid file is not negative. -/
theorem payloadByteCount_of_valid {f : ArtifactFile} (h : artifactFileValid sha256Bytes f = true) :
    f.payloadByteCount.val = (Utf8.encode f.payload).length := by
  unfold artifactFileValid at h
  simp only [Bool.and_eq_true, beq_iff_eq] at h
  exact h.1.1.2

theorem toString_natAbs {n : Int} (h : 0 ≤ n) : toString n.natAbs = toString n := by
  obtain ⟨m, rfl⟩ := Int.eq_ofNat_of_zero_le h
  rfl

/-- Files behind plain sizes are spelled as they are written. -/
theorem FilesSpelled.eq_fileTexts (h : FilesSpelled sha256Bytes files texts)
    (hpl : ∀ t ∈ byteCountTexts texts, plain (Utf8.encode t) = true) :
    texts = files.flatMap fileTexts := by
  induction h with
  | nil => rfl
  | @cons f files bct texts c v os ih =>
    obtain ⟨ht, hs⟩ := eq_toString_of_plain c (hpl _ mem_cons_self)
    rw [toString_natAbs hs] at ht
    rw [flatMap_cons, ← ih fun t hmem => hpl t (mem_cons_of_mem _ hmem), ht]
    rfl

/-- A plain payload is the written one. -/
theorem Denotes.eq_written (h : Denotes sha256Bytes artifact countText texts payload)
    (hpl : Plain payload) : payload = artifactEnvelopePayload artifact := by
  have hc := hpl.counts _ h.spelled
  obtain ⟨c, hcnt, hlen⟩ := h.counted
  obtain ⟨ht, -⟩ := eq_toString_of_plain hcnt (hc _ mem_cons_self)
  have hf := h.files.eq_fileTexts fun t hmem => hc t (mem_cons_of_mem _ hmem)
  have hbs := h.spelled.eq_framedAll hpl.lengths
  rw [append_nil] at hbs
  rw [Beagle.Lib.Utf8.encode_injective hbs, artifactEnvelopePayload_eq, ht, hlen, hf]
  rfl

/-- The written payload is plain if all files are valid. -/
theorem plain_written (hf : ∀ f ∈ artifact.files, artifactFileValid sha256Bytes f = true) :
    Plain (artifactEnvelopePayload artifact) where
  lengths := by
    rw [artifactEnvelopePayload_eq]
    exact plainLengths_framedAll _
  counts := by
    intro texts ht t htext
    rw [ht.whole_unique (spelled_artifactEnvelopePayload artifact)] at htext
    rcases mem_cons.mp htext with rfl | htext
    · exact plain_numeral artifact.files.length
    · rw [byteCountTexts_fileTexts, mem_map] at htext
      obtain ⟨f, hfi, rfl⟩ := htext
      rw [payloadByteCount_of_valid (hf f hfi)]
      exact plain_numeral _

/-- **An accepted payload is the one that is written for its artifact exactly when it is
plain**, and what is written is accepted exactly when the files are valid. -/
theorem accepted_canonical_iff (sha256Bytes : List UInt8 → String) : (∀ payload artifact,
      decodeArtifactEnvelope sha256Bytes (contentDigest sha256Bytes payload) payload =
          .ok artifact →
        (encodeArtifactEnvelope sha256Bytes artifact =
            .ok ⟨contentDigest sha256Bytes payload, payload⟩ ↔ Plain payload)) ∧
    (∀ payload payload' artifact, Plain payload → Plain payload' →
      decodeArtifactEnvelope sha256Bytes (contentDigest sha256Bytes payload) payload =
        .ok artifact →
      decodeArtifactEnvelope sha256Bytes (contentDigest sha256Bytes payload') payload' =
        .ok artifact → payload = payload') ∧
    (∀ artifact envelope, encodeArtifactEnvelope sha256Bytes artifact = .ok envelope →
      ∀ decoded, decodeArtifactEnvelope sha256Bytes envelope.contentId envelope.payload =
          .ok decoded ↔
        decoded = artifact ∧
          ∀ file ∈ artifact.files, artifactFileValid sha256Bytes file = true) := by
  refine ⟨?_, ?_, ?_⟩
  · intro payload artifact hdec
    obtain ⟨-, countText, texts, h⟩ := decodeArtifactEnvelope_iff.mp hdec
    constructor
    · intro henc
      obtain ⟨-, henv⟩ := encodeArtifactEnvelope_eq.mp henc
      rw [(ArtifactEnvelope.mk.inj henv).2]
      exact plain_written h.files.valid
    · intro hpl
      have hpay := h.eq_written hpl
      exact encodeArtifactEnvelope_eq.mpr ⟨h.valid, by rw [← hpay]⟩
  · intro payload payload' artifact hpl hpl' hdec hdec'
    obtain ⟨-, _, _, h⟩ := decodeArtifactEnvelope_iff.mp hdec
    obtain ⟨-, _, _, h'⟩ := decodeArtifactEnvelope_iff.mp hdec'
    rw [h.eq_written hpl, h'.eq_written hpl']
  · intro artifact envelope henc decoded
    obtain ⟨hv, rfl⟩ := encodeArtifactEnvelope_eq.mp henc
    exact decode_written hv

theorem noFiles_accepted_canonical : encodeArtifactEnvelope digests noFiles =
      .ok ⟨contentDigest digests (artifactEnvelopePayload noFiles),
        artifactEnvelopePayload noFiles⟩ := by
  have hf : ∀ f ∈ noFiles.files, artifactFileValid digests f = true :=
    fun f hfi => absurd hfi not_mem_nil
  exact ((accepted_canonical_iff digests).1 (artifactEnvelopePayload noFiles) noFiles
    ((decode_written noFiles_valid).mpr ⟨rfl, hf⟩)).mpr (plain_written hf)

/-- With a zero in front of its first length a payload denotes what it denoted. -/
theorem Denotes.zero (h : Denotes sha256Bytes artifact countText texts payload) :
    Denotes sha256Bytes artifact countText texts ("0" ++ payload) where
  valid := h.valid
  counted := h.counted
  files := h.files
  spelled := by
    obtain ⟨mid, hver, hos⟩ := h.spelled.uncons
    rw [encode_append]
    exact Spelled.cons hver.zero hos

theorem low_le_zero : -2 ^ 63 ≤ (0 : Int) := by decide

theorem zero_lt_high : (0 : Int) < 2 ^ 63 := by decide

/-- An artifact with a file that is no leaf name. -/
def nestedFile : TargetArtifact :=
  ⟨"c17", [⟨"a/b", "", emptyDigest, ⟨0, low_le_zero, zero_lt_high⟩, emptyDigest⟩], "", emptyDigest,
    by decide⟩

theorem nestedFile_valid : artifactValid digests nestedFile = true := noFiles_valid

/-- A zero in front of a length is accepted and not written, and a file that is no leaf name
is written and not accepted. -/
theorem accepted_not_canonical : ¬ (∀ payload artifact,
      decodeArtifactEnvelope digests (contentDigest digests payload) payload = .ok artifact →
        encodeArtifactEnvelope digests artifact = .ok ⟨contentDigest digests payload, payload⟩) ∧
    ¬ (∀ artifact envelope, encodeArtifactEnvelope digests artifact = .ok envelope →
      ∃ decoded, decodeArtifactEnvelope digests envelope.contentId envelope.payload =
        .ok decoded) := by
  refine ⟨?_, ?_⟩
  · intro h
    have hden := denotes_written noFiles_valid fun f hf => absurd hf not_mem_nil
    have henc := h ("0" ++ artifactEnvelopePayload noFiles) noFiles
      (decodeArtifactEnvelope_iff.mpr ⟨rfl, _, _, hden.zero⟩)
    obtain ⟨-, henv⟩ := encodeArtifactEnvelope_eq.mp henc
    have hlen := congrArg String.length (ArtifactEnvelope.mk.inj henv).2
    rw [String.length_append] at hlen
    exact absurd hlen (Nat.ne_of_gt (Nat.lt_add_of_pos_left (by decide)))
  · intro h
    obtain ⟨decoded, hdec⟩ := h nestedFile _ (encodeArtifactEnvelope_eq.mpr ⟨nestedFile_valid, rfl⟩)
    have hv := ((decode_written nestedFile_valid).mp hdec).2
    exact absurd (hv _ mem_cons_self) (by decide)

end

end Beagle.ArtifactLinker
