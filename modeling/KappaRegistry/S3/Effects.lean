import KappaRegistry.S3.Objects
import KappaRegistry.Store.Contents
import KappaRegistry.Store.VersionRows

/-!
# What the S3 Handlers Do

One lemma for each way a handler can end, with the store it leaves. A put that passes its checks
does not fail any more, and neither does completing an upload that is there and not too old; both
add blobs (`SessionStore.Adds`), write metadata and bind the key, the put through `version_put` and
the completion through the tag. Uploading a part changes no object.

`get_object` without a version returns the blob of `VersionStore.currentLabel`.
-/

namespace KappaRegistry.S3

open Lib SessionStore VersionStore

variable {lib : Libs} {s s' : SessionStore}

/-! ## Metadata -/

@[simp] theorem putMetaIf_objects (s : SessionStore) (kappa key : String) (value : Option String) :
    (putMetaIf s kappa key value).objects = s.objects := by
  cases value <;> rfl

@[simp] theorem putObjectMeta_objects (s : SessionStore) (kappa etag : String)
    (contentType sse : Option String) (nowMs : ℕ) :
    (putObjectMeta s kappa etag contentType sse nowMs).objects = s.objects := by
  simp [putObjectMeta, blobPutMeta]

/-! ## Blobs and keys -/

theorem blobGet_versionPut (root : String) (s : VersionStore) (ns key kappa : String)
    (etag : Option String) (freshId : String) (nowMs : ℕ) (label : String) :
    (s.versionPut ns key kappa etag freshId nowMs).2.blobGet root label = s.blobGet root label := by
  unfold versionPut
  cases s.versioningState ns <;> rfl

theorem blobGet_versionDelete (root : String) (s : VersionStore) (ns key : String)
    (versionId : Option String) (freshId : String) (nowMs : ℕ) (label : String) :
    (s.versionDelete ns key versionId freshId nowMs).2.blobGet root label = s.blobGet root label :=
  versionDelete_induction (P := fun t => t.blobGet root label = s.blobGet root label)
    (fun _ => rfl) (fun _ => rfl) (fun _ _ => rfl) rfl

variable {cfg : SessionConfig} {puts : List (String × Bytes)}

section

variable (h : Adds cfg puts s s')
include h

theorem touches_of_adds (ns key : String) : s.objects.Touches ns key s'.objects := by
  constructor
  · intro k _
    rw [h.tags]
  · intro row _
    rw [h.versions]

theorem boundTo_of_adds (ns key : String) :
    s'.objects.boundTo ns key = s.objects.boundTo ns key := by
  unfold boundTo
  rw [h.tags]

theorem versioningState_of_adds (ns : String) :
    s'.objects.versioningState ns = s.objects.versioningState ns :=
  versioningState_congr (boundTo_of_adds h ns _)

theorem versionRows_of_adds (ns key : String) :
    s'.objects.versionRows ns key = s.objects.versionRows ns key := by
  unfold versionRows
  rw [h.versions]

theorem currentLabel_of_adds (ns key : String) :
    s'.objects.currentLabel ns key = s.objects.currentLabel ns key :=
  currentLabel_congr (versioningState_of_adds h ns) (boundTo_of_adds h ns key)
    (versionRows_of_adds h ns key)

end

/-! ## Puts -/

variable {bucket ns key : String} {headers : PutHeaders} {body content : Bytes}
  (hbody : bodyBytes putLimit body = content)
include hbody

theorem putObject_of_error {e : S3Error} (h : checkPut lib s bucket headers content = .error e)
    (draws : Draws) :
    putObject lib s bucket ns key headers body draws = (.error e, s) := by
  simp only [putObject, hbody, h]

/-- The store after a put, over the one that has the blob. -/
def afterPut (lib : Libs) (s : SessionStore) (ns key : String) (headers : PutHeaders)
    (content : Bytes) (draws : Draws) : SessionStore :=
  { putObjectMeta s (kappaFromBytes lib.blobs content) (md5Etag lib content) headers.contentType
      headers.sse draws.nowMs with
    objects := (s.objects.versionPut ns key (kappaFromBytes lib.blobs content)
      (some (md5Etag lib content)) draws.freshId draws.nowMs).2 }

/-- **A put that passes its checks.** -/
theorem putObject_of_ok (h : checkPut lib s bucket headers content = .ok ()) (ns key : String)
    (draws : Draws) :
    ∃ s₁ answer, Adds lib.cfg [(kappaFromBytes lib.blobs content, content)] s s₁ ∧
      putObject lib s bucket ns key headers body draws =
        (.ok answer, afterPut lib s₁ ns key headers content draws) := by
  obtain ⟨s₁, hingest, hadds⟩ := ingestVerified_own lib.blobs lib.cfg s content
  refine ⟨s₁, ?_, hadds, ?_⟩
  rotate_left
  · simp only [putObject, hbody, h, hingest, putObjectMeta_objects]
    rfl

omit hbody

/-! ## Copies and multipart uploads -/

variable {source : String}

theorem copyObject_of_ok {entry : TagEntry} (h : copySource s source = .ok entry)
    (ns key : String) (draws : Draws) : copyObject s ns key source draws =
      (.ok ("\"" ++ entry.kappa ++ "\""), (s.tagSet ns key entry.kappa).blobPutMeta entry.kappa
        "_s3_created_ms" (textBytes (toString draws.nowMs))) := by
  delta copyObject
  rw [h]

theorem copyObject_of_error {e : StoreError} (h : copySource s source = .error e)
    (ns key : String) (draws : Draws) :
    ∃ e', copyObject s ns key source draws = (.error e', s) := by
  delta copyObject
  rw [h]
  cases e <;> exact ⟨_, rfl⟩

section

variable {uploadId body : String} {draws : Draws}

/-- The session that a completion puts together: its parts pass, and it is not too old. -/
def completed (lib : Libs) (s : SessionStore) (draws : Draws) (uploadId body : String) :
    Option UploadSession :=
  if checkParts (s.uploadPartInfo uploadId) (clientParts body) = .ok () then
    s.uploads[uploadId]?.filter fun session => !session.expired lib.cfg draws.now
  else none

theorem session_of_completed {session : UploadSession}
    (h : completed lib s draws uploadId body = some session) : s.uploads[uploadId]? = some session := by
  unfold completed at h
  split_ifs at h
  exact (Option.filter_eq_some_iff.mp h).1

theorem completeMultipart_of_none (ns key : String) (contentType : Option String)
    (h : completed lib s draws uploadId body = none) :
    ∃ e s', s'.objects = s.objects ∧
      completeMultipart lib s ns key uploadId body contentType draws = (.error e, s') := by
  unfold completed at h
  unfold completeMultipart
  cases hcheck : checkParts (s.uploadPartInfo uploadId) (clientParts body) with
  | error message => exact ⟨_, s, rfl, rfl⟩
  | ok _ =>
    rw [if_pos hcheck] at h
    unfold uploadComplete
    cases hsession : s.uploads[uploadId]? with
    | none => exact ⟨_, s, rfl, rfl⟩
    | some session =>
      have hexpired : session.expired lib.cfg draws.now = true := by simpa [hsession] using h
      dsimp only
      rw [if_pos hexpired]
      exact ⟨_, s.dropSession uploadId, rfl, rfl⟩

variable {session : UploadSession}

/-- The entity tag that is stored with what an upload became. -/
def completeEtag (lib : Libs) (s : SessionStore) (session : UploadSession) (draws : Draws) : String :=
  (BlobStore.compositeEtag lib.blobs session.partDigests).getD
    ("\"" ++ uploadLabel lib.blobs s session draws.frames ++ "\"")

/-- **Completing an upload** whose parts pass, which is there and is not too old. -/
theorem completeMultipart_of_some (ns key : String) (contentType : Option String)
    (h : completed lib s draws uploadId body = some session) :
    ∃ s₁, Adds lib.cfg (uploadPuts lib.blobs s session draws.frames) s s₁ ∧
      completeMultipart lib s ns key uploadId body contentType draws =
        (.ok ⟨key, completeEtag lib s session draws⟩,
          putObjectMeta (s₁.tagSet ns key (uploadLabel lib.blobs s session draws.frames))
            (uploadLabel lib.blobs s session draws.frames) (completeEtag lib s session draws)
            contentType none draws.nowMs) := by
  unfold completed at h
  split_ifs at h with hcheck
  obtain ⟨hsession, hlive⟩ := Option.filter_eq_some_iff.mp h
  obtain ⟨s₁, hcomplete, hadds⟩ :=
    uploadComplete_none (L := lib.blobs) hsession (Bool.not_eq_true' _ ▸ hlive) draws.frames
  refine ⟨s₁, hadds, ?_⟩
  rw [completeMultipart, hcheck]
  rw [hcomplete]
  rfl

end

/-! ## Parts -/

theorem lookSession_objects (cfg : SessionConfig) (s : SessionStore) (uploadId : String) (now : ℕ) :
    (s.lookSession cfg uploadId now).2.objects = s.objects := by
  unfold lookSession
  cases s.uploads[uploadId]? with
  | none => rfl
  | some session =>
    dsimp only
    cases session.expired cfg now <;> rfl

theorem uploadPutPart_objects (L : BlobLibs) (cfg : SessionConfig) (s : SessionStore)
    (uploadId : String) (offset : ℕ) (data : Bytes) (now : ℕ) :
    (s.uploadPutPart L cfg uploadId offset data now).2.objects = s.objects := by
  unfold uploadPutPart
  cases s.uploads[uploadId]? with
  | none => rfl
  | some session =>
    dsimp only
    split_ifs <;> rfl

theorem putFrames_objects (lib : Libs) (uploadId : String) (now : ℕ) (frames : List Bytes)
    (offset : ℕ) (s : SessionStore) :
    (putFrames lib uploadId now frames offset s).2.objects = s.objects := by
  induction frames generalizing offset s with
  | nil => rfl
  | cons frame frames ih =>
    have hpart := uploadPutPart_objects lib.blobs lib.cfg s uploadId offset frame now
    unfold putFrames
    rcases hput : s.uploadPutPart lib.blobs lib.cfg uploadId offset frame now with ⟨_ | total, s₁⟩
    · rwa [hput] at hpart
    · rw [hput] at hpart
      exact (ih total s₁).trans hpart

/-- **A part changes no object.** -/
theorem uploadPart_objects (lib : Libs) (s : SessionStore) (uploadId : String)
    (frames : List Bytes) (draws : Draws) :
    (uploadPart lib s uploadId frames draws).2.objects = s.objects := by
  have hlook : (s.uploadBytesReceived lib.cfg uploadId draws.now).2.objects = s.objects :=
    lookSession_objects lib.cfg s uploadId draws.now
  rw [← hlook]
  unfold uploadPart
  generalize s.uploadBytesReceived lib.cfg uploadId draws.now = received
  have hframes := putFrames_objects lib uploadId draws.now frames (received.1.getD 0) received.2
  revert hframes
  dsimp only
  rcases putFrames lib uploadId draws.now frames (received.1.getD 0) received.2 with ⟨_ | _, s₁⟩
  · exact id
  · exact id

/-! ## Reads -/

def answerOf (lib : Libs) (s : SessionStore) (kappa versionId : String) (content : Bytes) :
    GetAnswer where
  contentType := contentTypeOf s kappa
  etag := etagOf s kappa
  contentLength := content.length
  lastModified := (createdMs s kappa).map lib.dates.httpDate
  versionId := shownVersion versionId
  sse := s.metaText kappa "_s3_sse"
  content

variable {versionId : Option String}

theorem getObject_of_found {ns key kappa vid : String}
    (hfind : findObject s ns key versionId = .ok (kappa, vid))
    (hblob : s.blobGet lib.cfg kappa = .ok content) :
    getObject lib s ns key versionId = .ok (answerOf lib s kappa vid content) := by
  delta getObject
  rw [hfind]
  dsimp only [bind, Except.bind]
  rw [hblob]
  rfl

theorem getObject_of_notFound {message : String}
    (hfind : findObject s ns key versionId = .error (.notFound message)) :
    getObject lib s ns key versionId = .error (missing message) := by
  delta getObject
  rw [hfind]
  rfl

/-- **What `get_object` answers** for an object that it finds. -/
theorem toOption_getObject (lib : Libs) (s : SessionStore) (ns key : String)
    (versionId : Option String) :
    (getObject lib s ns key versionId).toOption = (findObject s ns key versionId).toOption.bind
      fun found => (s.blobGet lib.cfg found.1).toOption.map (answerOf lib s found.1 found.2) := by
  delta getObject
  cases findObject s ns key versionId with
  | error e => cases e <;> rfl
  | ok found =>
    obtain ⟨kappa, vid⟩ := found
    dsimp only [bind, Except.bind, Except.toOption, Option.bind]
    cases s.blobGet lib.cfg kappa with
    | error e => cases e <;> rfl
    | ok content => rfl

/-- The object of a label, as an answer without the content. -/
def headOf (lib : Libs) (s : SessionStore) (kappa versionId : String) (size : ℕ) : HeadAnswer where
  contentType := contentTypeOf s kappa
  etag := etagOf s kappa
  contentLength := size
  lastModified := (createdMs s kappa).bind lib.headDate
  versionId := shownVersion versionId

theorem toOption_headObject (lib : Libs) (s : SessionStore) (ns key : String)
    (versionId : Option String) :
    (headObject lib s ns key versionId).toOption = (findObject s ns key versionId).toOption.bind
      fun found => (s.blobGet lib.cfg found.1).toOption.map fun content =>
        headOf lib s found.1 found.2 content.length := by
  delta headObject
  cases findObject s ns key versionId with
  | error e => cases e <;> rfl
  | ok found =>
    obtain ⟨kappa, vid⟩ := found
    dsimp only [bind, Except.bind, Except.toOption, Option.bind, SessionStore.blobSize]
    cases s.blobGet lib.cfg kappa with
    | error e => cases e <;> rfl
    | ok content => rfl

theorem findObject_of_some {ns key kappa : String} (h : s.objects.currentLabel ns key = some kappa) :
    ∃ vid, findObject s ns key none = .ok (kappa, vid) := by
  rcases s.objects.versionGet_none ns key with ⟨entry, hget, hkappa⟩ | ⟨-, hnone⟩
  · refine ⟨entry.versionId, ?_⟩
    rw [findObject, hget]
    show (do
      let kappa ← need entry.kappa _
      return (kappa, entry.versionId)) = _
    rw [hkappa, h]
    rfl
  · simp [h] at hnone

theorem findObject_of_none (h : s.objects.currentLabel ns key = none) :
    ∃ message, findObject s ns key none = .error (.notFound message) := by
  rcases s.objects.versionGet_none ns key with ⟨entry, hget, hkappa⟩ | ⟨⟨message, hget⟩, -⟩
  · refine ⟨ns ++ "/" ++ key ++ " (delete marker: " ++ entry.versionId ++ ")", ?_⟩
    rw [findObject, hget]
    show (do
      let kappa ← need entry.kappa _
      return (kappa, entry.versionId)) = _
    rw [hkappa, h]
    rfl
  · refine ⟨message, ?_⟩
    rw [findObject, hget]
    rfl

end KappaRegistry.S3
