/-
Target artifacts and their envelopes.

An envelope is the parts of an artifact one behind the other, each behind the number of
its bytes: five parts for the head, the last of them the number of files, and five for
every file.  Its identity is the digest of its bytes.
-/
import Beagle.Native.Text

namespace Beagle.ArtifactLinker

open Beagle.Native
open Beagle.Lib (Utf8.encode Utf8.decode)
open Beagle.Lib.Frames (decimal)

structure ArtifactFile where
  name : String
  payload : String
  contentId : String
  payloadByteCount : Long
  payloadSha256 : String
deriving DecidableEq

/-- An artifact; the number of its files is an `Int`. -/
@[ext] structure TargetArtifact where
  target : String
  files : List ArtifactFile
  encoding : String
  digest : String
  countFits : files.length < 2 ^ 63
deriving DecidableEq

structure ArtifactEnvelope where
  contentId : String
  payload : String
deriving DecidableEq

/-- How a call ends without a value: with an error it returns, or because decoding bytes
that are no UTF-8 stops the program. -/
inductive Failure where
  | error (detail : String)
  | raised
deriving DecidableEq

section

variable (sha256Bytes : List UInt8 → String)

def contentDigest (text : String) : String := "sha256:" ++ sha256Bytes (Utf8.encode text)

def encodeEnvelopePart (value : String) : String :=
  toString (Utf8.encode value).length ++ ":" ++ value

def encodeArtifactFileEnvelope (file : ArtifactFile) : String :=
  encodeEnvelopePart file.name ++ encodeEnvelopePart file.payload ++
    encodeEnvelopePart file.contentId ++ encodeEnvelopePart (toString file.payloadByteCount.val) ++
    encodeEnvelopePart file.payloadSha256

def artifactEnvelopePayload (artifact : TargetArtifact) : String :=
  artifact.files.foldl (fun payload file => payload ++ encodeArtifactFileEnvelope file)
    (encodeEnvelopePart "beagle-target-artifact-v1" ++ encodeEnvelopePart artifact.target ++
      encodeEnvelopePart artifact.encoding ++ encodeEnvelopePart artifact.digest ++
      encodeEnvelopePart (toString artifact.files.length))

/-- No `/` and no `\` among the bytes of a name. -/
def safeLeafName (name : String) : Bool :=
  name != "" && name != "." && name != ".." &&
    (Utf8.encode name).all fun byte => !(byte == 47 || byte == 92)

def artifactFileValid (file : ArtifactFile) : Bool :=
  safeLeafName file.name &&
    file.payloadByteCount.val == ((Utf8.encode file.payload).length : Int) &&
    contentDigest sha256Bytes file.payload == file.contentId &&
    contentDigest sha256Bytes file.payload == file.payloadSha256

def artifactValid (artifact : TargetArtifact) : Bool :=
  (artifact.target == "c17" || artifact.target == "qbe") &&
    artifact.digest == contentDigest sha256Bytes artifact.encoding

def encodeArtifactEnvelope (artifact : TargetArtifact) : Except Failure ArtifactEnvelope :=
  if !artifactValid sha256Bytes artifact then
    .error (.error "artifact target or digest is invalid")
  else
    let payload := artifactEnvelopePayload artifact
    .ok ⟨contentDigest sha256Bytes payload, payload⟩

/-- The loop over the digits of a length: the lengths it holds one after the other, and
how it ends.  `total` is the size of the whole payload; of the bytes only those from the
index on are here. -/
def readPart (total : Nat) :
    List UInt8 → (length digits : Nat) → List Nat × Except Failure (String × List UInt8)
  | [], length, _ => ([length], .error (.error "artifact envelope has an unterminated length"))
  | byte :: rest, length, digits =>
    if byte = 58 then
      ([length],
        if digits = 0 then .error (.error "artifact envelope length is empty")
        else if rest.length < length then
          .error (.error "artifact envelope part exceeds its exact bytes")
        else
          let partBytes := rest.take length
          match Utf8.decode partBytes with
          | none => .error .raised
          | some value =>
            if partBytes = Utf8.encode value then .ok (value, rest.drop length)
            else .error (.error "artifact envelope part is not canonical UTF-8"))
    else if !decimal byte then
      ([length], .error (.error "artifact envelope length contains a non-decimal byte"))
    else if total < length then
      ([length], .error (.error "artifact envelope length exceeds the payload bound"))
    else
      let next := readPart total rest (length * 10 + (byte.toNat - 48)) (digits + 1)
      (length :: next.1, next.2)

/-- The text of a part, and the bytes from the next index on. -/
def decodeEnvelopePart (total : Nat) (bytes : List UInt8) : Except Failure (String × List UInt8) :=
  (readPart total bytes 0 0).2

def decodeEnvelopeParts (total : Nat) :
    (remaining : Nat) → List UInt8 → Except Failure (List.Vector String remaining × List UInt8)
  | 0, bytes => .ok (List.Vector.nil, bytes)
  | remaining + 1, bytes => do
      let part ← decodeEnvelopePart total bytes
      let others ← decodeEnvelopeParts total remaining part.2
      return (List.Vector.cons part.1 others.1, others.2)

def decodeArtifactFiles (total : Nat) : (remaining : Nat) → List UInt8 →
      Except Failure (List.Vector ArtifactFile remaining × List UInt8)
  | 0, bytes => .ok (List.Vector.nil, bytes)
  | remaining + 1, bytes => do
      let name ← decodeEnvelopePart total bytes
      let payload ← decodeEnvelopePart total name.2
      let contentId ← decodeEnvelopePart total payload.2
      let byteCountText ← decodeEnvelopePart total contentId.2
      let payloadSha256 ← decodeEnvelopePart total byteCountText.2
      match parseLong byteCountText.1 with
      | none => .error (.error "artifact envelope file byte count is invalid")
      | some byteCount =>
        let file : ArtifactFile := ⟨name.1, payload.1, contentId.1, byteCount, payloadSha256.1⟩
        if !artifactFileValid sha256Bytes file then
          .error (.error "artifact envelope file metadata is not canonical")
        else do
          let others ← decodeArtifactFiles total remaining payloadSha256.2
          return (List.Vector.cons file others.1, others.2)

theorem toNat_lt (c : Long) : c.val.toNat < 2 ^ 63 := by
  have hh := c.high
  omega

def decodeArtifactEnvelope (claimedContentId payload : String) : Except Failure TargetArtifact :=
  if claimedContentId ≠ contentDigest sha256Bytes payload then
    .error (.error "artifact envelope content ID does not match its exact bytes")
  else do
    let bytes := Utf8.encode payload
    let values ← decodeEnvelopeParts bytes.length 5 bytes
    let version := values.1.get 0
    let target := values.1.get 1
    let encoding := values.1.get 2
    let digest := values.1.get 3
    if version ≠ "beagle-target-artifact-v1" then
      .error (.error "artifact envelope version is invalid")
    else
      match parseLong (values.1.get 4) with
      | none => .error (.error "artifact envelope file count is invalid")
      | some fileCount =>
        if fileCount.val < 0 then
          .error (.error "artifact envelope file count is invalid")
        else do
          let files ← decodeArtifactFiles sha256Bytes bytes.length fileCount.val.toNat values.2
          if files.2 ≠ [] then
            .error (.error "artifact envelope contains trailing bytes")
          else
            let artifact : TargetArtifact :=
              ⟨target, files.1.toList, encoding, digest, by
                rw [List.Vector.toList_length]
                exact toNat_lt fileCount⟩
            if artifactValid sha256Bytes artifact then .ok artifact
            else .error (.error "artifact envelope target or digest is invalid")

end

end Beagle.ArtifactLinker
