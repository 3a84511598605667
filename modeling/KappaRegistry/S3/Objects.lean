import KappaRegistry.S3.ListObjects
import KappaRegistry.Server.SigV4

/-!
# The Handlers of S3 Objects

The handlers of `kappa-server/src/main.rs` for the objects of a bucket, after authentication. A
bucket is a namespace, its keys are tags, and an object is the blob that a tag, or the newest
version row of the key, is bound to.

`put_object` and `delete_object` go through the version interface of the store, `complete_multipart`,
`copy_object` and `delete_objects` write or remove the tag alone, and `get_object` reads through
`version_get`. The content type, the entity tag and the time of an answer stand under the label of the
*blob*. A part is appended to its upload frame by frame; its number is not read.

Clock readings, identifiers and the frames that an encrypted store writes are arguments (`Draws`).
The fallbacks for stores without versions are not there: this one never rejects a version call.
-/

namespace KappaRegistry.S3

open Lib

/-- What the handlers take from other crates. -/
structure Libs where
  blobs : BlobLibs
  base64 : Base64
  dates : Dates
  /-- The date that `head_object` makes of a time, if it can. -/
  headDate : ℕ → Option String
  cfg : SessionConfig

/-- What a handler reads from clocks and draws. -/
structure Draws where
  /-- The time, in milliseconds. -/
  nowMs : ℕ
  /-- The clock of the upload sessions. -/
  now : ℕ
  /-- The identifier that a version, or an upload, gets. -/
  freshId : String
  /-- What an encrypted store writes to disk for an upload. -/
  frames : Bytes

/-! ## XML bodies -/

/-- The text between two marks, and what follows. -/
def between (opening closing text : String) : Option (String × String) := do
  let (_, rest) ← cutText text opening
  let inner ← stripPrefix rest opening
  let (inside, rest) ← cutText inner closing
  return (inside, ← stripPrefix rest closing)

/-- The texts between pairs of marks, one after another. -/
def blocks (opening closing : String) : ℕ → String → List String
  | 0, _ => []
  | fuel + 1, text =>
    match between opening closing text with
    | some (inside, rest) => inside :: blocks opening closing fuel rest
    | none => []

def xmlLimit : ℕ := 10 * 1024 * 1024

def keysToDelete (body : String) : List String :=
  let body := bodyText xmlLimit body
  blocks "<Key>" "</Key>" body.length body

/-- The part that a block of a completing request names. -/
def clientPart (block : String) : Option (ℕ × String) := do
  let (number, _) ← between "<PartNumber>" "</PartNumber>" block
  let number ← (parseRadix 10 4294967295 number).toOption
  let (etag, _) ← between "<ETag>" "</ETag>" block
  return (number, etag)

/-- The parts that a completing request lists, by part number. -/
def clientParts (body : String) : List (ℕ × String) :=
  let body := bodyText xmlLimit body
  ((blocks "<Part>" "</Part>" body.length body).filterMap clientPart).insertionSort
    fun a b => a.1 ≤ b.1

/-- `trim_matches('"')`. -/
def trimQuotes (s : String) : String :=
  String.ofList (((s.toList.dropWhile (· = '"')).reverse.dropWhile (· = '"')).reverse)

/-! ## PutObject -/

/-- The headers that `put_object` looks at. -/
structure PutHeaders where
  /-- There is a header for a key of the customer. -/
  sseCustomer : Bool
  sse : Option String
  contentMd5 : Option String
  contentType : Option String
  contentSha256 : Option String

structure PutAnswer where
  etag : String
  versionId : Option String
  sse : Option String
  deriving DecidableEq

/-- The version identifier of an answer; `null` is not sent. -/
def shownVersion (versionId : String) : Option String :=
  if versionId = "null" then none else some versionId

section

variable (lib : Libs)

def checkBody (headers : PutHeaders) (content : Bytes) : Except S3Error Unit := do
  ensure (∀ md5 ∈ headers.contentMd5, lib.base64.encode (lib.blobs.md5 content) = md5)
    ⟨400, "BadDigest", "The Content-MD5 you specified did not match what we received."⟩
  ensure (∀ sha ∈ headers.contentSha256, sha = "UNSIGNED-PAYLOAD" ∨ startsWith sha "STREAMING-" ∨
      sha = "" ∨ hexEncode (lib.blobs.hashes.digest .sha256 content) = sha)
    ⟨400, "XAmzContentSHA256Mismatch",
      "The provided x-amz-content-sha256 header does not match the body."⟩

variable (s : SessionStore) (kappa ns key : String) (versionId : Option String)
  (source uploadId : String)

/-- The checks that `put_object` makes before it writes. -/
def checkPut (bucket : String) (headers : PutHeaders) (content : Bytes) : Except S3Error Unit := do
  ensure (headers.sseCustomer = false)
    ⟨400, "InvalidArgument", "SSE-C is not supported. Use SSE-S3 (AES256)."⟩
  ensure (s.namespaceExists bucket (some "s3") = true)
    ⟨404, "NoSuchBucket", "The specified bucket does not exist."⟩
  checkBody lib headers content

/-- The entity tag of content that is put at once. -/
def md5Etag (content : Bytes) : String := "\"" ++ hexEncode (lib.blobs.md5 content) ++ "\""

def putMetaIf (value : Option String) : SessionStore :=
  match value with
  | some text => s.blobPutMeta kappa key (textBytes text)
  | none => s

/-- The metadata that a write leaves with the label of its content. -/
def putObjectMeta (etag : String) (contentType sse : Option String) (nowMs : ℕ) : SessionStore :=
  let s := s.blobPutMeta kappa "_s3_created_ms" (textBytes (toString nowMs))
  let s := s.blobPutMeta kappa "_s3_etag" (textBytes etag)
  putMetaIf (putMetaIf s kappa "content-type" contentType) kappa "_s3_sse" sse

def putLimit : ℕ := 256 * 1024 * 1024

/-- `s3_put_object`, for a bucket and the name of the namespace it was resolved to. -/
def putObject (bucket ns key : String) (headers : PutHeaders) (body : Bytes)
    (draws : Draws) : Except S3Error PutAnswer × SessionStore :=
  let content := bodyBytes putLimit body
  match checkPut lib s bucket headers content with
  | .error e => (.error e, s)
  | .ok () =>
    match s.ingestVerified lib.blobs lib.cfg (SessionStore.kappaFromBytes lib.blobs content) content with
    | .error _ => (.error ⟨500, "InternalError", "put failed"⟩, s)
    | .ok (kappa, s) =>
      let etag := md5Etag lib content
      let s := putObjectMeta s kappa etag headers.contentType headers.sse draws.nowMs
      let (vid, objects) := s.objects.versionPut ns key kappa (some etag) draws.freshId draws.nowMs
      (.ok ⟨etag, shownVersion vid, headers.sse⟩, { s with objects })

/-! ## GetObject and HeadObject -/

/-- An answer that an object is missing, with the headers of a delete marker. -/
structure Missing where
  error : S3Error
  deleteMarker : Bool
  versionId : Option String
  deriving DecidableEq

structure GetAnswer where
  contentType : String
  etag : String
  contentLength : ℕ
  lastModified : Option String
  versionId : Option String
  sse : Option String
  content : Bytes
  deriving DecidableEq

structure HeadAnswer where
  contentType : String
  etag : String
  contentLength : ℕ
  lastModified : Option String
  versionId : Option String
  deriving DecidableEq

/-- The label that an object is read from, and its version. -/
def findObject : Except StoreError (String × String) := do
  let entry ← s.objects.versionGet ns key versionId
  let kappa ← need entry.kappa
    (.notFound (ns ++ "/" ++ key ++ " (delete marker: " ++ entry.versionId ++ ")"))
  return (kappa, entry.versionId)

def contentTypeOf : String :=
  (s.metaText kappa "content-type").getD "application/octet-stream"

/-- The entity tag of a label: the one that was stored, or the label itself. -/
def etagOf : String :=
  (s.metaText kappa "_s3_etag").getD ("\"" ++ kappa ++ "\"")

def createdMs : Option ℕ :=
  (s.metaText kappa "_s3_created_ms").bind fun text => (parseRadix 10 u64Max text).toOption

/-- The answer to a read that did not find what it looked for. -/
def missing (message : String) : Missing where
  error := ⟨404, "NoSuchKey", "The specified key does not exist."⟩
  deleteMarker := containsText message "delete marker:"
  versionId := if containsText message "delete marker:" then do
      let (_, rest) ← cutText message "delete marker: "
      let rest ← stripPrefix rest "delete marker: "
      let upToNext := ((cutText rest "delete marker: ").map Prod.fst).getD rest
      stripSuffix upToNext ")"
    else none

/-- `s3_get_object` without the parameters that ask for something else than the object. -/
def getObject : Except Missing GetAnswer :=
  match (do
      let (kappa, vid) ← findObject s ns key versionId
      let content ← s.blobGet lib.cfg kappa
      return (kappa, vid, content)) with
  | .ok (kappa, vid, content) => .ok
      { contentType := contentTypeOf s kappa
        etag := etagOf s kappa
        contentLength := content.length
        lastModified := (createdMs s kappa).map lib.dates.httpDate
        versionId := shownVersion vid
        sse := s.metaText kappa "_s3_sse"
        content }
  | .error (.notFound message) => .error (missing message)
  | .error _ => .error ⟨⟨500, "InternalError", "get failed"⟩, false, none⟩

/-- `s3_head_object`. A failure has no body, and its version is not sent. -/
def headObject : Except Missing HeadAnswer :=
  match (do
      let (kappa, vid) ← findObject s ns key versionId
      let size ← s.blobSize lib.cfg kappa
      return (kappa, vid, size)) with
  | .ok (kappa, vid, size) => .ok
      { contentType := contentTypeOf s kappa
        etag := etagOf s kappa
        contentLength := size
        lastModified := (createdMs s kappa).bind lib.headDate
        versionId := shownVersion vid }
  | .error (.notFound message) =>
    .error ⟨⟨404, "", ""⟩, containsText message "delete marker:", none⟩
  | .error _ => .error ⟨⟨500, "", ""⟩, false, none⟩

/-! ## Deletions and copies -/

structure DeleteAnswer where
  deleteMarker : Bool
  versionId : Option String
  deriving DecidableEq

/-- `s3_delete_object`. It answers that there is no content, whether there was an object or not. -/
def deleteObject (draws : Draws) : DeleteAnswer × SessionStore :=
  let (result, objects) := s.objects.versionDelete ns key versionId draws.freshId draws.nowMs
  (⟨result.isDeleteMarker, shownVersion result.versionId⟩, { s with objects })

/-- `s3_delete_objects`: removes the tags of the keys it lists, and says which. -/
def deleteObjects (body : String) : List String × SessionStore :=
  (keysToDelete body, (keysToDelete body).foldl (fun s key => s.tagDelete ns key) s)

def parseCopySource : Option (String × String) :=
  splitOnceText '/' ((stripPrefix source "/").getD source)

def copySource : Except StoreError TagEntry := do
  let (bucket, key) ← need (parseCopySource source) (.rejected "invalid copy source")
  let ns ← s.objects.tables.store.namespaceResolve bucket (some "s3")
  s.tagGet ns.asStr key

/-- `s3_copy_object`; it answers with the label as the entity tag. -/
def copyObject (draws : Draws) : Except S3Error String × SessionStore :=
  match copySource s source with
  | .ok entry =>
    (.ok ("\"" ++ entry.kappa ++ "\""), (s.tagSet ns key entry.kappa).blobPutMeta entry.kappa
      "_s3_created_ms" (textBytes (toString draws.nowMs)))
  | .error (.notFound _) => (.error ⟨404, "NoSuchKey", "source key not found"⟩, s)
  | .error _ => (.error ⟨500, "InternalError", "copy failed"⟩, s)

/-! ## Multipart uploads -/

/-- `s3_initiate_multipart`, with the largest size of a blob. -/
def initiateMultipart (maxBlobSize : ℕ) (draws : Draws) : String × SessionStore :=
  (draws.freshId, s.uploadBegin draws.freshId ns maxBlobSize draws.now)

/-- The loop of `s3_upload_part`: the frames of a body, each appended where the one before ended. -/
def putFrames (uploadId : String) (now : ℕ) :
    List Bytes → ℕ → SessionStore → Except StoreError Unit × SessionStore
  | [], _, s => (.ok (), s)
  | frame :: frames, offset, s =>
    match s.uploadPutPart lib.blobs lib.cfg uploadId offset frame now with
    | (.ok total, s) => putFrames uploadId now frames total s
    | (.error e, s) => (.error e, s)

/-- `s3_upload_part`. The part number of the request is not read. -/
def uploadPart (frames : List Bytes) (draws : Draws) : Except S3Error String × SessionStore :=
  let (received, s) := s.uploadBytesReceived lib.cfg uploadId draws.now
  match putFrames lib uploadId draws.now frames (received.getD 0) s with
  | (.ok (), s) => (.ok "\"part\"", s)
  | (.error e, s) => (.error ⟨500, "InternalError", e.display⟩, s)

/-- The part numbers of a request go up. -/
def checkAscending : List (ℕ × String) → Except String Unit
  | a :: b :: parts =>
    if b.1 ≤ a.1 then
      .error ("InvalidPartOrder: part " ++ toString b.1 ++ " listed before or equal to part " ++
        toString a.1)
    else checkAscending (b :: parts)
  | _ => .ok ()

/-- A part of the request was uploaded with its entity tag. -/
def checkPart (stored : List (ℕ × String × ℕ)) (part : ℕ × String) : Except String Unit :=
  match stored.find? fun info => info.1 = part.1 with
  | none => .error ("InvalidPart: part " ++ toString part.1 ++ " was not uploaded")
  | some (_, etag, _) =>
    if trimQuotes part.2 = trimQuotes etag then .ok ()
    else .error ("InvalidPart: ETag mismatch for part " ++ toString part.1 ++ ": client=" ++
      trimQuotes part.2 ++ ", stored=" ++ trimQuotes etag)

/-- The parts of a request against those that were uploaded. A request that lists none is not
checked. -/
def checkParts (stored : List (ℕ × String × ℕ)) (parts : List (ℕ × String)) : Except String Unit :=
  if parts = [] then .ok ()
  else do
    ensure (stored ≠ []) "NoSuchUpload"
    checkAscending parts
    parts.forM (checkPart stored)

def partsError (message : String) : S3Error :=
  ⟨400, if startsWith message "InvalidPartOrder" then "InvalidPartOrder" else "InvalidPart", message⟩

structure CompleteAnswer where
  key : String
  etag : String
  deriving DecidableEq

/-- `s3_complete_multipart`. -/
def completeMultipart (body : String)
    (contentType : Option String) (draws : Draws) : Except S3Error CompleteAnswer × SessionStore :=
  match checkParts (s.uploadPartInfo uploadId) (clientParts body) with
  | .error message => (.error (partsError message), s)
  | .ok () =>
    match s.uploadComplete lib.blobs lib.cfg uploadId none draws.frames draws.now with
    | (.error _, s) => (.error ⟨500, "InternalError", "complete failed"⟩, s)
    | (.ok (kappa, etag), s) =>
      let etag := etag.getD ("\"" ++ kappa ++ "\"")
      (.ok ⟨key, etag⟩, putObjectMeta (s.tagSet ns key kappa) kappa etag contentType none draws.nowMs)

/-- `s3_abort_multipart`. -/
def abortMultipart : SessionStore := s.uploadAbort uploadId

end

end KappaRegistry.S3
