import KappaRegistry.Store.Blobs
import KappaRegistry.Store.Files

/-!
# Blob Metadata and Upload Sessions

What the protocol handlers use of the persistent store besides tags, versions and edges: blobs
that are ingested under a label they are checked against, the metadata rows of a blob, and the
upload sessions. As in `Store.Files`, no call of the file system fails.

The metadata of a blob stands under its label and a name (`blob_put_meta`), whichever object led to the
label. A session is found by its identifier alone (`upload_put_part`, `upload_complete`,
`upload_abort`); the namespace it was opened in is compared by none of them. Identifiers, clock
readings and the frames that an encrypted store writes to disk are arguments.
-/

namespace KappaRegistry

open Lib PersistentStore

/-- How an error of the store is written. -/
def StoreError.display : StoreError → String
  | .io message => "io error: " ++ message
  | .notFound message => "not found: " ++ message
  | .conflict message => "conflict: " ++ message
  | .rejected message => "rejected: " ++ message
  | .canonical message => "canonical error: " ++ message

/-- An upload that is not complete: what was received of it, and the digests of the pieces. -/
structure UploadSession where
  ns : String
  staged : Bytes
  maxSize : ℕ
  /-- In nanoseconds. -/
  createdAt : ℕ
  partDigests : List PartDigests

/-- The persistent store as the protocol handlers see it. -/
structure SessionStore where
  objects : VersionStore
  blobMeta : Table String Bytes
  uploads : Table String UploadSession

structure SessionConfig where
  blobRoot : String
  uploadTimeoutSecs : Option ℕ

/-- The number, the entity tag and the size of a piece. -/
def PartDigests.info (part : PartDigests) : ℕ × String × ℕ :=
  (part.partNumber, "\"" ++ hexEncode part.md5 ++ "\"", part.size)

namespace UploadSession

variable (session : UploadSession)

/-- Whether a session is older than the timeout allows. -/
def expired (cfg : SessionConfig) (now : ℕ) : Bool :=
  cfg.uploadTimeoutSecs.any fun timeout => decide (timeout * 1000000000 < now - session.createdAt)

/-- The digests of the next piece of a session; its number is not the one the client gave. -/
def nextPart (L : BlobLibs) (data : Bytes) : PartDigests where
  partNumber := session.partDigests.length + 1
  offset := session.staged.length
  size := data.length
  md5 := L.md5 data
  crc32c := L.crc32c data
  crc64nvme := L.crc64nvme data

def extend (L : BlobLibs) (data : Bytes) : UploadSession :=
  { session with
    staged := session.staged ++ data
    partDigests := session.partDigests ++ [session.nextPart L data] }

end UploadSession

namespace SessionStore

def new (encrypted : Bool) : SessionStore := ⟨.new encrypted, ∅, ∅⟩

/-! ## Tags -/

def tagGet (s : SessionStore) (ns name : String) : Except StoreError TagEntry :=
  s.objects.tables.store.tagGet ns name

def tagSet (s : SessionStore) (ns name kappa : String) : SessionStore :=
  { s with objects := s.objects.tagSet ns name kappa }

def tagDelete (s : SessionStore) (ns name : String) : SessionStore :=
  { s with objects := s.objects.tagDelete ns name }

variable (s : SessionStore)

def namespaceExists (name : String) (protocol : Option String) : Bool :=
  s.objects.tables.store.namespaceAliases.contains (aliasKey name protocol)

/-! ## Metadata of blobs -/

def blobPutMeta (kappa key : String) (value : Bytes) : SessionStore :=
  { s with blobMeta := s.blobMeta.insert (dbKey kappa key) value }

def metaText (kappa key : String) : Option String :=
  s.blobMeta[dbKey kappa key]?.bind fromUtf8

/-! ## Blobs -/

section

variable (L : BlobLibs) (cfg : SessionConfig)

def blobGet (s : SessionStore) (kappa : String) : Except StoreError Bytes :=
  s.objects.blobGet cfg.blobRoot kappa

variable (s : SessionStore) (uploadId : String) (now : ℕ)

def blobExists (kappa : String) : Except StoreError Bool := do
  let key ← s.objects.blobKey cfg.blobRoot kappa
  return (s.objects.contentAt cfg.blobRoot key).isSome

def blobSize (kappa : String) : Except StoreError ℕ :=
  (s.blobGet cfg kappa).map List.length

def blobPut (s : SessionStore) (kappa : String) (content : Bytes) : Except StoreError SessionStore := do
  let objects ← s.objects.blobPut cfg.blobRoot kappa content
  return { s with objects }

/-- Content under each of some labels. -/
def blobPutAll (content : Bytes) : List KappaLabel → SessionStore → Except StoreError SessionStore
  | [], s => .ok s
  | label :: labels, s => do
    let s ← s.blobPut cfg label.asStr content
    blobPutAll content labels s

def kappaFromBytes (content : Bytes) : String := (L.hashes.label .sha256 content).asStr

/-- The common part of the two ingests: the content under its label, and under those of the
mandatory axes. -/
def ingest (verified : VerifiedContent L.hashes) : Except StoreError (String × SessionStore) := do
  let axes := mandatoryAxes.filter (· ≠ verified.label.axis)
  let s ← s.blobPutAll cfg verified.content
    (verified.label :: axes.map fun axis => L.hashes.label axis verified.content)
  return (verified.label.asStr, s)

def ingestVerified (claimed : String) (content : Bytes) :
    Except StoreError (String × SessionStore) := do
  let verified ← (VerifiedContent.verify L.hashes claimed content).mapError fun e =>
    .rejected e.display
  s.ingest L cfg verified

/-! ## Uploads -/

/-- `upload_begin`, with the identifier it draws. -/
def uploadBegin (id ns : String) (maxSize now : ℕ) : SessionStore :=
  { s with uploads := s.uploads.insert id { ns, staged := [], maxSize, createdAt := now,
                                            partDigests := [] } }

def dropSession : SessionStore :=
  { s with uploads := s.uploads.erase uploadId }

def uploadAbort : SessionStore := s.dropSession uploadId

/-- The session of an upload; one that is too old is dropped. -/
def lookSession : Option UploadSession × SessionStore :=
  match s.uploads[uploadId]? with
  | none => (none, s)
  | some session =>
    if session.expired cfg now then (none, s.dropSession uploadId) else (some session, s)

def uploadBytesReceived : Option ℕ × SessionStore :=
  let (session, s) := s.lookSession cfg uploadId now
  (session.map fun session => session.staged.length, s)

def uploadPartInfo : List (ℕ × String × ℕ) :=
  ((s.uploads[uploadId]?.map UploadSession.partDigests).getD []).map PartDigests.info

def uploadPutPart (offset : ℕ) (data : Bytes) (now : ℕ) : Except StoreError ℕ × SessionStore :=
  match s.uploads[uploadId]? with
  | none => (.error (.notFound ("upload " ++ uploadId)), s)
  | some session =>
    let newTotal := session.staged.length + data.length
    if session.expired cfg now then
      (.error (.notFound ("upload " ++ uploadId ++ " expired")), s.dropSession uploadId)
    else if offset ≠ session.staged.length then
      (.error (.conflict ("out-of-order: expected offset " ++ toString session.staged.length ++
        ", got " ++ toString offset)), s)
    else if 0 < session.maxSize ∧ session.maxSize < newTotal then
      (.error (.rejected ("upload exceeds max size " ++ toString session.maxSize)), s)
    else
      (.ok newTotal,
        { s with uploads := s.uploads.insert uploadId (session.extend L data) })

/-- `persist_part_manifest`: the list of the pieces as a blob, and the edge that leads to it.
Failures are ignored. -/
def persistPartManifest (objectKappa : String) (parts : List PartDigests) : SessionStore :=
  if parts = [] then s
  else
    let manifest := BlobStore.manifestBytes L parts
    match s.blobPut cfg (kappaFromBytes L manifest) manifest with
    | .error _ => s
    | .ok s =>
      let edge := L.edgeBytes
        { source := objectKappa, target := kappaFromBytes L manifest, relation := .chunkManifest,
          asserter := "_system", valueKappa := none, metadata := none }
      match s.blobPut cfg (kappaFromBytes L edge) edge with
      | .error _ => s
      | .ok s => s

/-- The labels of what an upload received, the first of them checked against the claimed one. -/
def verifyUpload (session : UploadSession) (claimed : Option String) :
    Except StoreError StreamingVerificationProof := do
  let proof ← (L.hashes.streamingComputeMulti (BlobStore.uploadAxes claimed)
    session.staged).mapError fun e => .rejected e.display
  ensure (∀ c ∈ claimed, proof.primary.asStr = c)
    (.rejected ("digest mismatch: expected " ++ claimed.getD "" ++ ", computed " ++
      proof.primary.asStr))
  return proof

/-- What is stored when an upload is complete, and the label that is returned for it: with a key it
is the label of the frames on disk. -/
def storeUpload (session : UploadSession) (claimed : Option String)
    (frames : Bytes) : Except StoreError (String × SessionStore) := do
  let proof ← verifyUpload L session claimed
  let s ← s.blobPutAll cfg session.staged (proof.primary :: proof.additional)
  let kappa := if s.objects.tables.store.encrypted then kappaFromBytes L frames
    else proof.primary.asStr
  return (kappa, s.persistPartManifest L cfg kappa session.partDigests)

/-- `upload_complete`: the label and the entity tag of what was uploaded. The session is gone, also
if this fails. -/
def uploadComplete (claimed : Option String) (frames : Bytes)
    (now : ℕ) : Except StoreError (String × Option String) × SessionStore :=
  match s.uploads[uploadId]? with
  | none => (.error (.notFound ("upload " ++ uploadId)), s)
  | some session =>
    if session.expired cfg now then
      (.error (.notFound ("upload " ++ uploadId ++ " expired")), s.dropSession uploadId)
    else
      match (s.dropSession uploadId).storeUpload L cfg session claimed frames with
      | .error e => (.error e, s.dropSession uploadId)
      | .ok (kappa, s) => (.ok (kappa, BlobStore.compositeEtag L session.partDigests), s)

end

end SessionStore

end KappaRegistry
