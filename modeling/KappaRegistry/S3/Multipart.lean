import Mathlib.Data.List.Dedup
import KappaRegistry.S3.ReadYourWrites

/-!
# Multipart Objects

An upload receives parts, each in a number of frames, and a completing request lists their numbers
with the entity tags that were returned for them. The object should then be the last body of each
number, in ascending order (`assembled`).

The server does not read part numbers: every frame is a part of its own, which gets the next number and
the MD5 of the frame as its entity tag. `upload_part` always returns the entity tag `"part"`, which is no
such tag, so a request that lists what was returned is refused. **`completeMultipart_listing_iff`**: it
succeeds with the object that it should exactly if no part was uploaded.
-/

namespace KappaRegistry.S3

open Lib PersistentStore SessionStore VersionStore List Except PartDigests

/-! ## Uploads and what should become of them -/

/-- A request to upload a part. -/
structure Part where
  number : ℕ
  frames : List Bytes
  draws : Draws

def Part.body (part : Part) : Bytes := part.frames.flatten

/-- Uploads parts, which all succeed; with the numbers and the entity tags that were returned. -/
def uploadParts (lib : Libs) (uploadId : String) :
    SessionStore → List Part → Option (List (ℕ × String) × SessionStore)
  | s, [] => some ([], s)
  | s, part :: parts =>
    match uploadPart lib s uploadId part.frames part.draws with
    | (.ok etag, s) => (uploadParts lib uploadId s parts).map (.map ((part.number, etag) :: ·) id)
    | (.error _, _) => none

/-- Numbers in ascending order, each once. -/
def ascending (numbers : List ℕ) : List ℕ := numbers.dedup.insertionSort (· ≤ ·)

/-- The parts that a completing request lists: each number with the entity tag returned last. -/
def listing (returned : List (ℕ × String)) : List (ℕ × String) :=
  (ascending (returned.map Prod.fst)).map fun number =>
    (number, ((returned.reverse.find? fun part => part.1 = number).map Prod.snd).getD "")

/-- The object of an upload: the last body of each number, in ascending order. -/
def assembled (parts : List Part) : Bytes :=
  (ascending (parts.map Part.number)).flatMap fun number =>
    ((parts.reverse.find? fun part => part.number = number).map Part.body).getD []

/-- A completing request succeeds, and binds the key to this content. -/
def Completes (lib : Libs) (s : SessionStore) (ns key uploadId body : String)
    (contentType : Option String) (draws : Draws) (content : Bytes) : Prop :=
  (completeMultipart lib s ns key uploadId body contentType draws).1.isOk = true ∧
    ∃ kappa, (completeMultipart lib s ns key uploadId body contentType draws).2.objects.boundTo ns key =
        some kappa ∧
      (completeMultipart lib s ns key uploadId body contentType draws).2.blobGet lib.cfg kappa =
        .ok content

/-! ## The entity tag that is returned -/

section

variable {lib : Libs} {s s' : SessionStore} {uploadId : String} {session : UploadSession}
  {draws : Draws}

theorem uploadPart_etag {frames : List Bytes} {etag : String}
    (h : uploadPart lib s uploadId frames draws = (.ok etag, s')) : etag = "\"part\"" := by
  unfold uploadPart at h
  dsimp only at h
  rcases hframes : putFrames lib uploadId draws.now frames
      ((s.uploadBytesReceived lib.cfg uploadId draws.now).1.getD 0)
      (s.uploadBytesReceived lib.cfg uploadId draws.now).2 with ⟨_ | _, s₁⟩
  · rw [hframes] at h
    cases h
  · rw [hframes] at h
    obtain ⟨hetag, -⟩ := Prod.mk.inj h
    exact (ok.inj hetag).symm

variable {parts : List Part}

theorem uploadParts_returned {returned : List (ℕ × String)}
    (h : uploadParts lib uploadId s parts = some (returned, s')) :
    returned = parts.map fun part => (part.number, "\"part\"") := by
  induction parts generalizing s returned with
  | nil =>
    obtain ⟨rfl, -⟩ := Prod.mk.inj (Option.some.inj h)
    rfl
  | cons part parts ih =>
    unfold uploadParts at h
    rcases hpart : uploadPart lib s uploadId part.frames part.draws with ⟨_ | etag, s₁⟩
    · rw [hpart] at h
      cases h
    · rw [hpart] at h
      obtain ⟨⟨rest, s₂⟩, hrest, heq⟩ := Option.map_eq_some_iff.mp h
      obtain ⟨rfl, rfl⟩ := Prod.mk.inj heq
      rw [ih hrest, uploadPart_etag hpart]
      rfl

theorem mem_ascending {numbers : List ℕ} {n : ℕ} : n ∈ ascending numbers ↔ n ∈ numbers := by
  rw [ascending, mem_insertionSort, mem_dedup]

theorem exists_mem_listing (h : parts ≠ []) :
    ∃ number, (number, "\"part\"") ∈ listing (parts.map fun part => (part.number, "\"part\"")) := by
  obtain ⟨part, hpart⟩ := exists_mem_of_ne_nil parts h
  refine ⟨part.number, ?_⟩
  have hmem : (part.number, "\"part\"") ∈ (parts.map fun part => (part.number, "\"part\"")).reverse :=
    mem_reverse.mpr (mem_map_of_mem hpart)
  have hfound : ((parts.map fun part => (part.number, "\"part\"")).reverse.find?
      fun listed => listed.1 = part.number).isSome = true := by
    rw [find?_isSome]
    exact ⟨_, hmem, decide_eq_true rfl⟩
  obtain ⟨found, hfind⟩ := Option.isSome_iff_exists.mp hfound
  have hetag : found.2 = "\"part\"" := by
    obtain ⟨p, -, rfl⟩ := mem_map.mp (mem_reverse.mp (mem_of_find?_eq_some hfind))
    rfl
  rw [listing, mem_map]
  refine ⟨part.number, mem_ascending.mpr ?_, ?_⟩
  · exact mem_map_of_mem (mem_map_of_mem hpart)
  · rw [hfind, Option.map_some, hetag]
    rfl

theorem mem_of_mem_trimQuotes {text : String} {c : Char} (h : c ∈ (trimQuotes text).toList) :
    c ∈ text.toList := by
  rw [trimQuotes, String.toList_ofList, mem_reverse] at h
  have htail := (dropWhile_suffix _).mem h
  exact (dropWhile_suffix _).mem (mem_reverse.mp htail)

theorem trimQuotes_info_ne (part : PartDigests) :
    trimQuotes "\"part\"" ≠ trimQuotes part.info.2.1 := by
  have hpart : trimQuotes "\"part\"" = "part" := by decide
  rw [hpart]
  intro heq
  have hmem : 'p' ∈ part.info.2.1.toList := by
    apply mem_of_mem_trimQuotes
    rw [← heq]
    decide
  have hquoted : 'p' ∈ (hexEncode part.md5).toList := by
    simpa [info] using hmem
  obtain ⟨n, hn⟩ := of_mem_hexEncode hquoted
  revert n
  decide

theorem checkPart_part (stored : List PartDigests) (number : ℕ) :
    checkPart (stored.map info) (number, "\"part\"") ≠ .ok () := by
  unfold checkPart
  cases hfind : (stored.map info).find? fun info => info.1 = number with
  | none => simp
  | some info =>
    obtain ⟨part, -, rfl⟩ := mem_map.mp (mem_of_find?_eq_some hfind)
    dsimp only
    rw [if_neg (trimQuotes_info_ne part)]
    simp

/-- **A request that lists what was returned is refused**, if there is a part. -/
theorem checkParts_listing (stored : List PartDigests) (h : parts ≠ []) :
    ∃ message, checkParts (stored.map info)
      (listing (parts.map fun part => (part.number, "\"part\""))) = .error message := by
  obtain ⟨number, hmem⟩ := exists_mem_listing h
  cases hcheck : checkParts (stored.map info)
      (listing (parts.map fun part => (part.number, "\"part\""))) with
  | error message => exact ⟨message, rfl⟩
  | ok _ =>
    rw [checkParts, if_neg (ne_nil_of_mem hmem)] at hcheck
    simp only [bind_eq_ok] at hcheck
    obtain ⟨-, -, -, -, hall⟩ := hcheck
    exact absurd (forM_eq_ok hall _ hmem) (checkPart_part stored number)

/-! ## Completing -/

theorem completes_of_bound {ns key body kappa : String} {contentType : Option String}
    {objects : VersionStore} {content : Bytes}
    (hok : (completeMultipart lib s ns key uploadId body contentType draws).1.isOk = true)
    (hobjects : (completeMultipart lib s ns key uploadId body contentType draws).2.objects =
      objects.tagSet ns key kappa) :
    Completes lib s ns key uploadId body contentType draws content ↔
      objects.blobGet lib.cfg.blobRoot kappa = .ok content := by
  unfold Completes SessionStore.blobGet
  rw [hobjects, boundTo_tagSet]
  constructor
  · intro ⟨_, label, hlabel, hread⟩
    cases hlabel
    exact hread
  · intro hread
    exact ⟨hok, kappa, rfl, hread⟩

def newSession (ns : String) (maxSize now : ℕ) : UploadSession where
  ns
  staged := []
  maxSize
  createdAt := now
  partDigests := []

variable (lib s) in
/-- The label that an upload without parts is bound to. -/
def emptyLabel (frames : Bytes) : String :=
  if s.objects.tables.store.encrypted then kappaFromBytes lib.blobs frames
  else kappaFromBytes lib.blobs []

variable (lib s) in
/-- That label stands for the empty content, or for none yet and is the label of the empty
content. -/
def EmptyFits (frames : Bytes) : Prop :=
  s.blobGet lib.cfg (emptyLabel lib s frames) = .ok [] ∨
    (s.blobGet lib.cfg (emptyLabel lib s frames)).isOk = false ∧
      emptyLabel lib s frames = kappaFromBytes lib.blobs []
  deriving Decidable

theorem blobGet_emptyLabel {frames : Bytes}
    (hadds : Adds lib.cfg [(kappaFromBytes lib.blobs [], [])] s s') :
    s'.blobGet lib.cfg (emptyLabel lib s frames) = .ok [] ↔ EmptyFits lib s frames := by
  by_cases hown : emptyLabel lib s frames = kappaFromBytes lib.blobs []
  · obtain ⟨key, hkey⟩ := s.objects.exists_blobKey lib.cfg.blobRoot (lib.blobs.hashes.label .sha256 [])
    unfold EmptyFits
    rw [hown]
    cases hget : s.blobGet lib.cfg (kappaFromBytes lib.blobs []) with
    | ok content =>
      rw [hadds.blobGet_of_ok hget]
      simp [isOk]
    | error e =>
      rw [hadds.blobGet_first hkey (by rw [hget]; simp)]
      simp [isOk]
  · -- another label is a record of an encrypted store, and nothing is put under it
    have henc : s.objects.tables.store.encrypted = true := by
      by_contra hplain
      exact hown (by rw [emptyLabel, if_neg hplain])
    have hkey : ∀ kappa, s.objects.blobKey lib.cfg.blobRoot kappa = .ok (.record kappa) := by
      intro kappa
      rw [blobKey, if_pos henc]
    have hread : ∀ store : SessionStore, store.objects.tables.store.encrypted = true →
        (store.blobGet lib.cfg (emptyLabel lib s frames) = .ok [] ↔
          store.objects.contentAt lib.cfg.blobRoot (.record (emptyLabel lib s frames)) = some []) := by
      intro store hstore
      rw [SessionStore.blobGet, VersionStore.blobGet_eq_ok, blobKey, if_pos hstore]
      simp
    have hnone : SessionStore.firstPut lib.cfg s [(kappaFromBytes lib.blobs [], [])]
        (.record (emptyLabel lib s frames)) = none := by
      rw [SessionStore.firstPut, find?_singleton, hkey]
      simp [Ne.symm hown]
    rw [EmptyFits, hread s' (hadds.encrypted.trans henc), hadds.content, hnone, Option.or_none,
      hread s henc]
    simp [hown]

/-- **Completing an upload with what was returned for its parts** makes the object of its parts
exactly if there are none: the session must not be too old, and its label not stand for something
else. -/
theorem completeMultipart_listing_iff (ns key opened : String) (maxSize start : ℕ)
    {parts : List Part} {returned : List (ℕ × String)} {body : String}
    (hupload : uploadParts lib uploadId (s.uploadBegin uploadId opened maxSize start) parts =
      some (returned, s'))
    (hbody : clientParts body = listing returned) (contentType : Option String) (draws : Draws) :
    Completes lib s' ns key uploadId body contentType draws (assembled parts) ↔
      parts = [] ∧ (newSession opened maxSize start).expired lib.cfg draws.now = false ∧
        EmptyFits lib s draws.frames := by
  have hreturned := uploadParts_returned hupload
  subst hreturned
  by_cases hparts : parts = []
  · subst hparts
    obtain ⟨-, rfl⟩ := Prod.mk.inj (Option.some.inj hupload)
    have hcheck : checkParts ((s.uploadBegin uploadId opened maxSize start).uploadPartInfo uploadId)
        (clientParts body) = .ok () := by
      rw [hbody]
      rfl
    have hsession : (s.uploadBegin uploadId opened maxSize start).uploads[uploadId]? =
        some (newSession opened maxSize start) := by
      show (s.uploads.insert uploadId _)[uploadId]? = _
      rw [Table.get_insert, if_pos rfl]
      rfl
    have hcompleted : completed lib (s.uploadBegin uploadId opened maxSize start) draws uploadId body =
        (some (newSession opened maxSize start)).filter fun session =>
          !session.expired lib.cfg draws.now := by
      rw [completed, if_pos hcheck, hsession]
    rw [Option.filter_some] at hcompleted
    cases hexpired : (newSession opened maxSize start).expired lib.cfg draws.now with
    | true =>
      rw [hexpired] at hcompleted
      obtain ⟨e, s', -, hrun⟩ := completeMultipart_of_none ns key contentType hcompleted
      simp [Completes, hrun, isOk]
    | false =>
      rw [hexpired] at hcompleted
      obtain ⟨s₁, hadds, hrun⟩ := completeMultipart_of_some ns key contentType hcompleted
      have hadds' : Adds lib.cfg [(kappaFromBytes lib.blobs [], [])] s s₁ :=
        ⟨hadds.versions, hadds.tables, hadds.blobMeta, hadds.content⟩
      have hobjects : (completeMultipart lib (s.uploadBegin uploadId opened maxSize start) ns key
          uploadId body contentType draws).2.objects =
            s₁.objects.tagSet ns key (emptyLabel lib s draws.frames) := by
        rw [hrun]
        exact putObjectMeta_objects _ _ _ _ _ _
      rw [completes_of_bound (by rw [hrun]; rfl) hobjects]
      simp only [true_and]
      exact @blobGet_emptyLabel lib s s₁ draws.frames hadds'
  · obtain ⟨message, hcheck⟩ := checkParts_listing
      ((s'.uploads[uploadId]?.map UploadSession.partDigests).getD []) hparts
    rw [← hbody] at hcheck
    have hcompleted : completed lib s' draws uploadId body = none := by
      rw [completed, uploadPartInfo, hcheck, if_neg nofun]
    obtain ⟨e, s', -, hrun⟩ := completeMultipart_of_none ns key contentType hcompleted
    simp [Completes, hrun, hparts, isOk]

end

def freshUpload : SessionStore := (SessionStore.new true).uploadBegin "u" "b" 0 0

theorem completeMultipart_listing_empty :
    Completes .sample freshUpload "b" "k" "u" "" none (.sample 1) [] := by
  have hupload : uploadParts .sample "u" freshUpload [] = some ([], freshUpload) := rfl
  exact (completeMultipart_listing_iff "b" "k" "b" 0 0 hupload (by decide +kernel) none (.sample 1)).mpr
    ⟨rfl, rfl, by decide +kernel⟩

/-- One part with the number 1 is uploaded, and listed with the entity tag that was returned. -/
theorem completeMultipart_listing_refused :
    (uploadParts .sample "u" freshUpload [⟨1, [[7]], .sample 1⟩]).map (fun uploaded =>
      (uploaded.1, (completeMultipart .sample uploaded.2 "b" "k" "u"
        "<Part><PartNumber>1</PartNumber><ETag>\"part\"</ETag></Part>" none (.sample 2)).1)) =
      some ([(1, "\"part\"")], .error ⟨400, "InvalidPart",
        "InvalidPart: ETag mismatch for part 1: client=part, stored=07"⟩) ∧
    clientParts "<Part><PartNumber>1</PartNumber><ETag>\"part\"</ETag></Part>" =
      listing [(1, "\"part\"")] := by
  decide +kernel

end KappaRegistry.S3
