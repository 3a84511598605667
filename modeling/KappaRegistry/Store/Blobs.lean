import KappaRegistry.Crypto.BlobEncryptor
import KappaRegistry.Json
import KappaRegistry.Kappa.Label
import KappaRegistry.Lib.FileSystem
import KappaRegistry.Lib.Table
import KappaRegistry.Primitives

/-!
# Blobs on Disk

The blob operations of the persistent store, as `kappa-store-redb/src/blob.rs` and the uploads of
`lib.rs` carry them out on the file system. Without a key, a blob is the file of its label. With a
key, the file holds encrypted frames and is named by *their* label, and a binding record leads from
the blob's label to it. Content is stored under the label it came with and under its SHA-256 label.
An upload collects its parts in a staging file.

Every call of the file system may fail, and what a failed operation did before stays. The field `hashed`
of `BlobStore` is a history variable that nothing reads: the byte strings that were labelled so far,
among which there should be no collision.
-/

namespace KappaRegistry

open Lib Action Disk

/-! ## The store -/

structure StoreConfig where
  blobRoot : String
  stagingRoot : String
  fsync : Bool
  /-- The cipher under the store's key, if it has one. -/
  encryptor : Option Aead
  uploadTimeoutSecs : Option ℕ

/-- Per-part digest metadata computed during upload. -/
structure PartDigests where
  partNumber : ℕ
  offset : ℕ
  size : ℕ
  md5 : Bytes
  crc32c : ℕ
  crc64nvme : ℕ

structure DiskUploadSession where
  ns : String
  stagingPath : Location
  offset : ℕ
  maxSize : ℕ
  /-- In nanoseconds. -/
  createdAt : ℕ
  partDigests : List PartDigests

/-- Where the frames of a blob are, and how to open them. -/
structure BindingRecord where
  kappa : String
  baseNonce : Bytes
  plaintextSize : ℕ
  deriving DecidableEq

structure BlobStore where
  disk : Disk Location
  bindingRecords : Table String BindingRecord
  uploadSessions : Table String DiskUploadSession
  /-- The base nonces that the next draws return. -/
  entropy : List Bytes
  /-- What was labelled so far. -/
  hashed : List Bytes

/-- What the operations take from other crates. -/
structure BlobLibs where
  hashes : Hashes
  md5 : Bytes → Bytes
  crc32c : Bytes → ℕ
  crc64nvme : Bytes → ℕ
  serde : SerdeJson
  /-- `canonical_bytes` of an edge. -/
  edgeBytes : Edge → Bytes

structure IngestResult where
  kappa : KappaLabel
  newlyStored : Bool
  additionalKappas : List KappaLabel
  etag : Option String

abbrev BlobM := Action BlobStore StoreError

/-- Axes computed on every ingest regardless of client axis. -/
def mandatoryAxes : List Axis := [.sha256]

namespace BlobStore

def new (faults : List (Option ℕ)) (entropy : List Bytes) : BlobStore :=
  ⟨.empty faults, ∅, ∅, entropy, []⟩

def fsErrorText : FsError → String
  | .notFound => "No such file or directory (os error 2)"
  | .alreadyExists => "File exists (os error 17)"
  | .failed => "Input/output error (os error 5)"

/-- A call of the file system, with the error its caller makes of a failure. -/
def onDiskWith {α : Type} (f : FsError → StoreError) (m : Action (Disk Location) FsError α) : BlobM α :=
  m.within disk (fun d s => { s with disk := d }) f

/-- A call of the file system that is followed by `map_err(StoreError::Io)`. -/
def onDisk {α : Type} (m : Action (Disk Location) FsError α) : BlobM α :=
  onDiskWith (fun e => .io (fsErrorText e)) m

/-- `File::open`, which fails if there is no file. -/
def openBlob (path : Location) : BlobM Unit := do
  let _ ← onDisk (readFile path)
  pure ()

/-- Remembers that some bytes were labelled. -/
def hashing (content : Bytes) : BlobM Unit :=
  update fun s => { s with hashed := content :: s.hashed }

/-- `getrandom::fill` of a base nonce. -/
def drawNonce : BlobM Bytes := do
  let s ← current
  match s.entropy with
  | [] => fail (.io "key generation failed")
  | nonce :: entropy => do
    update fun s => { s with entropy }
    pure nonce

section

variable (L : BlobLibs) (cfg : StoreConfig)

/-- The file of a label, as `blob_path_for` names it. -/
def blobLocation (kappa : String) : Except StoreError Location :=
  (blobPathFor cfg.blobRoot kappa).map normalise

/-! ## Putting and getting -/

variable (session : DiskUploadSession) (uploadId : String) (claimed : Option String)
  (sigma : String) (path : Location)

/-- Writes a file under a temporary name and moves it into its place, unless there is one. -/
def placeBlob (content : Bytes) : BlobM Bool := do
  if ← onDisk (existsAt path) then pure false
  else do
    onDisk settle
    let tmp := path.withExtension "tmp"
    onDisk (createFile tmp)
    onDisk (append tmp content)
    if cfg.fsync then onDisk settle else pure ()
    onDisk (rename tmp path)
    pure true

def blobPutImpl (verified : VerifiedContent L.hashes) : BlobM Bool :=
  match cfg.encryptor with
  | some key => do
    let sigma := verified.label.asStr
    let baseNonce ← drawNonce
    let diskBytes ← lift ((BlobEncryptor.encryptStreaming key sigma baseNonce
      verified.content).mapError .io)
    hashing diskBytes
    let kappa := (L.hashes.label .sha256 diskBytes).asStr
    let path ← lift (blobLocation cfg kappa)
    let newlyPlaced ← placeBlob cfg path diskBytes
    update fun s => { s with
      bindingRecords :=
        s.bindingRecords.insert sigma ⟨kappa, baseNonce, verified.content.length⟩ }
    pure newlyPlaced
  | none => do
    let path ← lift (blobLocation cfg verified.label.asStr)
    placeBlob cfg path verified.content

/-- Reads a file; the error names the label if there is none. -/
def readBlob : BlobM Bytes :=
  onDiskWith (fun e => if e = .notFound then .notFound sigma else .io (fsErrorText e))
    (readFile path)

def blobGet : BlobM Bytes :=
  match cfg.encryptor with
  | some key => do
    let s ← current
    match s.bindingRecords[sigma]? with
    | none => fail (.notFound sigma)
    | some record => do
      let path ← lift (blobLocation cfg record.kappa)
      let diskBytes ← readBlob sigma path
      lift ((BlobEncryptor.decryptAll key sigma record.baseNonce diskBytes
        record.plaintextSize).mapError .io)
  | none => do
    let path ← lift (blobLocation cfg sigma)
    readBlob sigma path

/-- Removes a file; it is no error if there is none. -/
def removeBlob : BlobM Unit := do
  match ← onDisk (removeFile path).attempt with
  | .ok () => pure ()
  | .error .notFound => pure ()
  | .error e => fail (.io (fsErrorText e))

def blobDelete : BlobM Unit :=
  match cfg.encryptor with
  | some _ => do
    let s ← current
    match s.bindingRecords[sigma]? with
    | none => pure ()
    | some record => do
      update fun s => { s with bindingRecords := s.bindingRecords.erase sigma }
      let path ← lift (blobLocation cfg record.kappa)
      removeBlob path
  | none => do
    let path ← lift (blobLocation cfg sigma)
    removeBlob path

/-! ## Ingest -/

/-- A second name for a file, unless there is a file of that name. Failures are ignored. -/
def linkBlob (primaryPath altPath : Location) : BlobM Unit := do
  if ← onDisk (existsAt altPath) then pure ()
  else do
    (onDisk settle).ignore
    (onDisk (hardLink primaryPath altPath)).ignore

/-- Stores content under its label of one more axis. -/
def storeUnder (primary : KappaLabel) (content : Bytes) (axis : Axis) : BlobM KappaLabel := do
  let additional ← lift ((VerifiedContent.compute L.hashes axis content).mapError fun e =>
    .rejected e.display)
  match cfg.encryptor with
  | some _ => do
    let _ ← blobPutImpl L cfg additional
    pure additional.label
  | none => do
    let primaryPath ← lift (blobLocation cfg primary.asStr)
    let altPath ← lift (blobLocation cfg additional.label.asStr)
    linkBlob primaryPath altPath
    pure additional.label

/-- The loop over the mandatory axes. -/
def storeUnderAll (primary : KappaLabel) (content : Bytes) : List Axis → BlobM (List KappaLabel)
  | [] => pure []
  | axis :: axes =>
    if axis = primary.axis then storeUnderAll primary content axes
    else do
      let label ← storeUnder L cfg primary content axis
      let labels ← storeUnderAll primary content axes
      pure (label :: labels)

def ingest (verified : VerifiedContent L.hashes) : BlobM IngestResult := do
  let newlyStored ← blobPutImpl L cfg verified
  let additionalKappas ← storeUnderAll L cfg verified.label verified.content mandatoryAxes
  pure { kappa := verified.label, newlyStored, additionalKappas, etag := none }

def ingestVerified (claimed : String) (content : Bytes) : BlobM IngestResult := do
  let verified ← lift ((VerifiedContent.verify L.hashes claimed content).mapError fun e =>
    .rejected e.display)
  hashing content
  ingest L cfg verified

def ingestCompute (axis : Axis) (content : Bytes) : BlobM IngestResult := do
  let verified ← lift ((VerifiedContent.compute L.hashes axis content).mapError fun e =>
    .rejected e.display)
  hashing content
  ingest L cfg verified

/-! ## Uploads -/

def uuidText (uuid : Uuid) : String :=
  let digits := uuid.hex.toList
  String.ofList (digits.take 8 ++ '-' :: ((digits.drop 8).take 4 ++ '-' :: ((digits.drop 12).take 4 ++
    '-' :: ((digits.drop 16).take 4 ++ '-' :: digits.drop 20))))

/-- `upload_begin`, with the UUID it draws. -/
def uploadBegin (uuid : Uuid) (ns : String) (maxSize now : ℕ) : BlobM String := do
  let id := uuidText uuid
  let stagingPath := normalise (pathJoin cfg.stagingRoot id)
  onDisk (openFile stagingPath)
  let session : DiskUploadSession :=
    { ns, stagingPath, offset := 0, maxSize, createdAt := now, partDigests := [] }
  update fun s => { s with uploadSessions := s.uploadSessions.insert id session }
  pure id

/-- Whether a session is older than the timeout allows. -/
def expired (now : ℕ) : Bool :=
  cfg.uploadTimeoutSecs.any fun timeout => decide (timeout * 1000000000 < now - session.createdAt)

def findSession : BlobM DiskUploadSession := do
  let s ← current
  match s.uploadSessions[uploadId]? with
  | none => fail (.notFound ("upload " ++ uploadId))
  | some session => pure session

def dropSession : BlobM Unit :=
  update fun s => { s with uploadSessions := s.uploadSessions.erase uploadId }

/-- Rejects an upload that is too old. -/
def failExpired {α : Type} (uploadId : String) (session : DiskUploadSession) : BlobM α := do
  (onDisk (removeFile session.stagingPath)).ignore
  fail (.notFound ("upload " ++ uploadId ++ " expired"))

def nextPart (data : Bytes) : PartDigests where
  partNumber := session.partDigests.length + 1
  offset := session.offset
  size := data.length
  md5 := L.md5 data
  crc32c := L.crc32c data
  crc64nvme := L.crc64nvme data

def uploadPutPart (offset : ℕ) (data : Bytes) (now : ℕ) : BlobM ℕ := do
  let session ← findSession uploadId
  let newTotal := session.offset + data.length
  if expired cfg session now then do
    dropSession uploadId
    failExpired uploadId session
  else if offset ≠ session.offset then
    fail (.conflict ("out-of-order: expected offset " ++ toString session.offset ++ ", got " ++
      toString offset))
  else if 0 < session.maxSize ∧ session.maxSize < newTotal then
    fail (.rejected ("upload exceeds max size " ++ toString session.maxSize))
  else do
    onDisk (append session.stagingPath data)
    let session := { session with
      partDigests := session.partDigests ++ [nextPart L session data]
      offset := newTotal }
    update fun s => { s with uploadSessions := s.uploadSessions.insert uploadId session }
    pure newTotal

/-- The axis that a claimed digest asks for, and the mandatory ones. -/
def uploadAxes : List String :=
  let algo := ((claimed.bind (splitOnceText ':')).map Prod.fst).getD "sha256"
  mandatoryAxes.foldl (fun axes mandatory =>
    if mandatory.asStr ∈ axes then axes else axes ++ [mandatory.asStr]) [algo]

def hashReadError (axis : String) (e : FsError) : StoreError :=
  .rejected (LabelError.digestMismatch "" (fsErrorText e) axis).display

/-- Hashes the staging file of an upload and compares the label with the claimed one. -/
def verifyUpload : BlobM StreamingVerificationProof := do
  openBlob session.stagingPath
  let content ← onDiskWith (hashReadError "multi") (readFile session.stagingPath)
  let proof ← lift ((L.hashes.streamingComputeMulti (uploadAxes claimed) content).mapError
    fun e => .rejected e.display)
  hashing content
  match claimed with
  | some claimed =>
    if proof.primary.asStr ≠ claimed then do
      (onDisk (removeFile session.stagingPath)).ignore
      fail (.rejected ("digest mismatch: expected " ++ claimed ++ ", computed " ++
        proof.primary.asStr))
    else pure proof
  | none => pure proof

/-- Moves a file into its place, unless there is one. -/
def moveBlob (source path : Location) : BlobM Bool := do
  if ← onDisk (existsAt path) then do
    (onDisk (removeFile source)).ignore
    pure false
  else do
    onDisk settle
    onDisk (rename source path)
    pure true

/-- Records under some labels where the frames of a blob are. -/
def bindAll (record : BindingRecord) (labels : List KappaLabel) : BlobM Unit :=
  update fun s => { s with
    bindingRecords := labels.foldl (fun records label => records.insert label.asStr record)
      s.bindingRecords }

def completeEncrypted (key : Aead) (session : DiskUploadSession)
    (proof : StreamingVerificationProof) : BlobM IngestResult := do
  let ctTmp := session.stagingPath.withExtension "ct.tmp"
  openBlob session.stagingPath
  onDisk (createFile ctTmp)
  let baseNonce ← drawNonce
  let content ← onDiskWith (fun e => .io (signingFailed ("read: " ++ fsErrorText e)))
    (readFile session.stagingPath)
  let frames ← lift ((BlobEncryptor.encryptStreaming key proof.primary.asStr baseNonce
    content).mapError .io)
  onDiskWith (fun e => .io (signingFailed ("write ct: " ++ fsErrorText e)))
    (append ctTmp frames)
  openBlob ctTmp
  let diskBytes ← onDiskWith (hashReadError "sha256") (readFile ctTmp)
  hashing diskBytes
  let kappa := L.hashes.label .sha256 diskBytes
  let blobPath ← lift (blobLocation cfg kappa.asStr)
  let newlyStored ← moveBlob ctTmp blobPath
  bindAll ⟨kappa.asStr, baseNonce, content.length⟩ (proof.primary :: proof.additional)
  (onDisk (removeFile session.stagingPath)).ignore
  pure { kappa, newlyStored, additionalKappas := proof.additional, etag := none }

/-- The links from further labels to the file of an upload. -/
def linkAll (blobPath : Location) : List KappaLabel → BlobM Unit
  | [] => pure ()
  | label :: labels => do
    let altPath ← lift (blobLocation cfg label.asStr)
    linkBlob blobPath altPath
    linkAll blobPath labels

/-- The end of an upload without a key. -/
def completePlain (proof : StreamingVerificationProof) : BlobM IngestResult := do
  let blobPath ← lift (blobLocation cfg proof.primary.asStr)
  let newlyStored ← moveBlob session.stagingPath blobPath
  linkAll cfg blobPath proof.additional
  pure { kappa := proof.primary, newlyStored, additionalKappas := proof.additional, etag := none }

/-- `compute_composite_etag`. -/
def compositeEtag (parts : List PartDigests) : Option String :=
  if parts = [] then none
  else some ("\"" ++ hexEncode (L.md5 (parts.flatMap PartDigests.md5)) ++ "-" ++
    toString parts.length ++ "\"")

/-- The blob that lists the parts of an upload; members are in the order of their names. -/
def manifestBytes (parts : List PartDigests) : Bytes :=
  L.serde.toVec (.obj [
    ("parts", .arr (parts.map fun p => .obj [
      ("crc32c", .num (.posInt p.crc32c)), ("crc64nvme", .num (.posInt p.crc64nvme)),
      ("md5", .str (hexEncode p.md5)), ("offset", .num (.posInt p.offset)),
      ("part_number", .num (.posInt p.partNumber)), ("size", .num (.posInt p.size))])),
    ("total_parts", .num (.posInt parts.length))])

/-- `persist_part_manifest`: the manifest, and the edge that leads to it. Failures are ignored. -/
def persistPartManifest (objectKappa : KappaLabel) (parts : List PartDigests) : BlobM Unit :=
  if parts = [] then pure ()
  else do
    match ← (ingestCompute L cfg .sha256 (manifestBytes L parts)).attempt with
    | .error _ => pure ()
    | .ok manifest =>
      (ingestCompute L cfg .sha256 (L.edgeBytes {
        source := objectKappa.asStr
        target := manifest.kappa.asStr
        relation := .chunkManifest
        asserter := "_system"
        valueKappa := none
        metadata := none })).ignore

def uploadComplete (now : ℕ) : BlobM IngestResult := do
  let session ← findSession uploadId
  dropSession uploadId
  if expired cfg session now then failExpired uploadId session
  else do
    let proof ← verifyUpload L session claimed
    let result ← match cfg.encryptor with
      | some key => completeEncrypted L cfg key session proof
      | none => completePlain cfg session proof
    persistPartManifest L cfg result.kappa session.partDigests
    pure { result with etag := compositeEtag L session.partDigests }

end

end BlobStore

end KappaRegistry
