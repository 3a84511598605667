import Mathlib.Data.Fintype.Basic
import KappaRegistry.S3.Metadata

/-!
# The Settings of a Bucket

The versioning state of a bucket, its policy and its other settings are tags of the same table as
its objects, under the names `_config/…`. The handlers of objects take any key, these names included.

A call binds or removes tags of the bucket (`Call.binds`) and adds blobs (`Call.puts`); both are told
by the store it is made on (`Call.writes`). **`settings_run_iff`**: a call leaves the settings exactly
if every name of a setting that it binds or removes reads afterwards what it read before, and no
setting that names a missing blob gets it.
-/

namespace KappaRegistry.S3

open Lib PersistentStore SessionStore VersionStore Option

/-! ## Settings -/

/-- The settings that are documents. -/
inductive ConfigName where
  | lifecycle
  | cors
  | policy
  | acl
  deriving DecidableEq

instance : Fintype ConfigName where
  elems := {.lifecycle, .cors, .policy, .acl}
  complete name := by cases name <;> decide

def ConfigName.tag : ConfigName → String
  | .lifecycle => "_config/lifecycle"
  | .cors => "_config/cors"
  | .policy => "_config/policy"
  | .acl => "_config/acl"

variable (lib : Libs) (s : SessionStore) (b : String)

/-- What a setting is read as: the blob of its tag. -/
def configBytes (ns : String) (name : ConfigName) : Option Bytes :=
  (s.tagGet ns name.tag).toOption.bind fun entry => (s.blobGet lib.cfg entry.kappa).toOption

structure Settings where
  versioning : VersioningState
  document : ConfigName → Option Bytes

def settings : Settings where
  versioning := s.objects.versioningState b
  document := configBytes lib s b

/-! ## What a call writes -/

namespace Call

variable (lib : Libs)

def bucket : Call → String
  | .put bucket .. | .complete bucket .. | .copy bucket .. | .delete bucket .. | .deleteObjects bucket _
  | .initiate bucket _ => bucket
  | .part .. | .abort _ => ""

/-- What a call does to a tag of a bucket: nothing, or it binds it to a label or removes it. -/
def binds (b : String) (s : SessionStore) (draws : Draws) (name : String) :
    Call → Option (Option String)
  | .put bucket key headers body =>
    let content := bodyBytes putLimit body
    if bucket = b ∧ key = name ∧ checkPut lib s bucket headers content = .ok () then
      some (some (kappaFromBytes lib.blobs content))
    else none
  | .complete bucket key uploadId body _ =>
    if bucket = b ∧ key = name then
      (completed lib s draws uploadId body).map fun session =>
        some (uploadLabel lib.blobs s session draws.frames)
    else none
  | .copy bucket key source =>
    if bucket = b ∧ key = name then (copySource s source).toOption.map fun entry => some entry.kappa
    else none
  | .delete bucket key versionId =>
    if bucket = b ∧ key = name ∧ (s.objects.versioningState b = .unversioned ∨ versionId = none) then
      some none
    else none
  | .deleteObjects bucket body => if bucket = b ∧ name ∈ keysToDelete body then some none else none
  | .initiate .. | .part .. | .abort _ => none

def puts (s : SessionStore) (draws : Draws) : Call → List (String × Bytes)
  | .put bucket _ headers body =>
    let content := bodyBytes putLimit body
    if checkPut lib s bucket headers content = .ok () then
      [(kappaFromBytes lib.blobs content, content)]
    else []
  | .complete _ _ uploadId body _ =>
    ((completed lib s draws uploadId body).map fun session =>
      uploadPuts lib.blobs s session draws.frames).getD []
  | _ => []

end Call

open Call

/-- What a label is read as when some blobs are put. -/
def readWith (puts : List (String × Bytes)) (label : String) : Option Bytes :=
  (s.objects.blobKey lib.cfg.blobRoot label).toOption.bind fun key =>
    (s.objects.contentAt lib.cfg.blobRoot key).or (SessionStore.firstPut lib.cfg s puts key)

/-- A document reads the same after its tag was bound, removed or left: what the tag is bound to reads
as before, and a tag that is left does not get the blob that it is missing. -/
def KeepsDocument (puts : List (String × Bytes)) (name : ConfigName) : Option (Option String) → Prop
  | some after => after.bind (readWith lib s puts) = configBytes lib s b name
  | none => configBytes lib s b name = none →
      (s.objects.boundTo b name.tag).bind (readWith lib s puts) = none

instance (lib : Libs) (s : SessionStore) (b : String) (puts : List (String × Bytes))
    (name : ConfigName) (bound : Option (Option String)) :
    Decidable (KeepsDocument lib s b puts name bound) := by
  cases bound <;> dsimp only [KeepsDocument] <;> infer_instance

/-- The call leaves the settings of a bucket. -/
def Call.Keeps (s : SessionStore) (draws : Draws) (call : Call) : Prop :=
  (∀ after ∈ call.binds lib b s draws configTag,
    VersioningState.ofConfig after = s.objects.versioningState b) ∧
  ∀ name : ConfigName,
    KeepsDocument lib s b (call.puts lib s draws) name (call.binds lib b s draws name.tag)
  deriving Decidable

/-- Between two stores some tags of a bucket were bound or removed, and some blobs were put. -/
structure Writes (cfg : SessionConfig) (b : String) (binds : String → Option (Option String))
    (puts : List (String × Bytes)) (s s' : SessionStore) : Prop where
  bound : ∀ name, s'.objects.boundTo b name = (binds name).getD (s.objects.boundTo b name)
  encrypted : s'.objects.tables.store.encrypted = s.objects.tables.store.encrypted
  content : ∀ key, s'.objects.contentAt cfg.blobRoot key =
    (s.objects.contentAt cfg.blobRoot key).or (SessionStore.firstPut cfg s puts key)

section

variable {lib : Libs} {s s' : SessionStore} {b : String} {draws : Draws}
  {binds : String → Option (Option String)}

theorem Writes.of_tags (hbound : ∀ name, s'.objects.boundTo b name = (binds name).getD (s.objects.boundTo b name))
    (hencrypted : s'.objects.tables.store.encrypted = s.objects.tables.store.encrypted)
    (hblobs : s'.objects.tables.store.blobs = s.objects.tables.store.blobs) :
    Writes lib.cfg b binds [] s s' := by
  refine ⟨hbound, hencrypted, ?_⟩
  intro key
  have hkey : s'.objects.blobKey lib.cfg.blobRoot = s.objects.blobKey lib.cfg.blobRoot := by
    funext kappa
    unfold blobKey
    rw [hencrypted]
  show _ = or _ none
  rw [or_none]
  unfold contentAt
  rw [hblobs, hkey]

variable {puts : List (String × Bytes)}

theorem Writes.after_adds {s₁ : SessionStore} (hadds : Adds lib.cfg puts s s₁)
    (h : Writes lib.cfg b binds [] s₁ s') :
    Writes lib.cfg b binds puts s s' := by
  refine ⟨?_, h.encrypted.trans hadds.encrypted, ?_⟩
  · intro name
    rw [h.bound, boundTo_of_adds hadds]
  · intro key
    rw [h.content, hadds.content]
    exact or_none

variable {bucket : String}

theorem bound_of_touches (hb : NulFree b) {key : String} (hbucket : NulFree bucket)
    (htouches : s.objects.Touches bucket key s'.objects) (bound : Option (Option String))
    (hkey : s'.objects.boundTo bucket key = bound.getD (s.objects.boundTo bucket key)) (name : String) :
    s'.objects.boundTo b name =
      (if bucket = b ∧ key = name then bound else none).getD (s.objects.boundTo b name) := by
  split_ifs with hsame
  · obtain ⟨rfl, rfl⟩ := hsame
    exact hkey
  · exact htouches.boundTo_eq hbucket hb hsame

theorem boundTo_versionDelete (s : VersionStore) (ns key : String) (versionId : Option String)
    (freshId : String) (nowMs : ℕ) :
    (s.versionDelete ns key versionId freshId nowMs).2.boundTo ns key =
      if s.versioningState ns = .unversioned ∨ versionId = none then none else s.boundTo ns key := by
  by_cases hstate : s.versioningState ns = .unversioned
  · rw [versionDelete_of_unversioned hstate, if_pos (.inl hstate)]
    exact s.boundTo_tagDelete
  · rw [versionDelete_of_versioned hstate]
    cases versionId with
    | none =>
      rw [if_pos (.inr rfl)]
      exact boundTo_tagDelete _
    | some vid =>
      rw [if_neg (by simp [hstate])]
      dsimp only
      cases (s.versionRows ns key).find? fun row => row.2.versionId = vid <;> rfl

/-! ### Each call -/

/-- The call writes what `binds` and `puts` say. -/
def Call.WritesOwn (call : Call) (lib : Libs) (b : String) (s : SessionStore) (draws : Draws) : Prop :=
  Writes lib.cfg b (fun name => call.binds lib b s draws name) (call.puts lib s draws) s
    (call.run lib s draws).2

theorem writes_put (hb : NulFree b) (hbucket : NulFree bucket) (key : String)
    (headers : PutHeaders) (body : Bytes) :
    (Call.put bucket key headers body).WritesOwn lib b s draws := by
  obtain ⟨content, hbody⟩ : ∃ content, bodyBytes putLimit body = content := ⟨_, rfl⟩
  simp only [WritesOwn, binds, puts, run, hbody]
  cases hcheck : checkPut lib s bucket headers content with
  | error e =>
    rw [putObject_of_error hbody hcheck, if_neg (by simp)]
    refine .of_tags ?_ rfl rfl
    intro name
    rw [if_neg (by simp)]
    rfl
  | ok _ =>
    obtain ⟨s₁, answer, hadds, hput⟩ := putObject_of_ok hbody hcheck bucket key draws
    rw [hput, if_pos rfl]
    simp only [and_true]
    obtain ⟨hencrypted, hblobs⟩ := versionPut_blobs s₁.objects bucket key
      (kappaFromBytes lib.blobs content) (some (md5Etag lib content)) draws.freshId draws.nowMs
    refine .after_adds hadds (.of_tags ?_ hencrypted hblobs)
    exact bound_of_touches hb hbucket (touches_versionPut _ _ _ _ _ _ _) (some _)
      (boundTo_versionPut _ _ _ _ _ _ _)

theorem writes_of_objects (h : s'.objects = s.objects) : Writes lib.cfg b (fun _ => none) [] s s' :=
  .of_tags (fun name => by rw [h]; rfl) (by rw [h]) (by rw [h])

section

variable (hb : NulFree b) (hbucket : NulFree bucket)
include hb hbucket

theorem writes_complete (key uploadId body : String) (contentType : Option String) :
    (complete bucket key uploadId body contentType).WritesOwn lib b s draws := by
  simp only [WritesOwn, binds, puts, run]
  cases hcompleted : completed lib s draws uploadId body with
  | none =>
    obtain ⟨e, s', hobjects, hrun⟩ := completeMultipart_of_none bucket key contentType hcompleted
    simp only [hrun, map_none, ite_self, getD_none]
    exact writes_of_objects hobjects
  | some session =>
    obtain ⟨s₁, hadds, hrun⟩ := completeMultipart_of_some bucket key contentType hcompleted
    rw [hrun]
    simp only [map_some, getD_some, Prod.map_snd, id_eq]
    refine .after_adds hadds (.of_tags ?_ ?_ ?_)
    · refine bound_of_touches hb hbucket ?_ (some _) ?_
      · rw [putObjectMeta_objects]
        exact touches_tagSet _ _ _ _
      · rw [putObjectMeta_objects]
        exact boundTo_tagSet _ _
    · rw [putObjectMeta_objects]
      rfl
    · rw [putObjectMeta_objects]
      rfl

theorem writes_copy (key source : String) :
    (copy bucket key source).WritesOwn lib b s draws := by
  simp only [WritesOwn, binds, puts, run]
  cases hsource : copySource s source with
  | error e =>
    obtain ⟨e', hcopy⟩ := copyObject_of_error hsource bucket key draws
    rw [hcopy]
    refine .of_tags ?_ rfl rfl
    intro name
    rw [Except.toOption, map_none, ite_self]
    rfl
  | ok entry =>
    rw [copyObject_of_ok hsource]
    exact .of_tags (bound_of_touches hb hbucket (touches_tagSet _ _ _ _) (some _)
      (boundTo_tagSet _ _)) rfl rfl

theorem writes_delete (key : String) (versionId : Option String) :
    (delete bucket key versionId).WritesOwn lib b s draws := by
  simp only [WritesOwn, binds, puts, run]
  obtain ⟨hencrypted, hblobs⟩ := versionDelete_blobs s.objects bucket key versionId draws.freshId
    draws.nowMs
  refine .of_tags ?_ hencrypted hblobs
  intro name
  have htouches : s.objects.Touches bucket key (deleteObject s bucket key versionId draws).2.objects :=
    touches_versionDelete _ _ _ _ _ _
  have hkey : (deleteObject s bucket key versionId draws).2.objects.boundTo bucket key =
      (if s.objects.versioningState bucket = .unversioned ∨ versionId = none then some none
        else none).getD (s.objects.boundTo bucket key) := by
    refine (boundTo_versionDelete s.objects bucket key versionId draws.freshId draws.nowMs).trans ?_
    split_ifs <;> rfl
  rw [bound_of_touches hb hbucket htouches _ hkey name]
  by_cases hsame : bucket = b ∧ key = name
  · obtain ⟨rfl, rfl⟩ := hsame
    simp
  · rw [if_neg hsame, if_neg (fun hall => hsame ⟨hall.1, hall.2.1⟩)]

theorem boundTo_tagDeletes (keys : List String) (name : String) :
    (keys.foldl (fun s key => s.tagDelete bucket key) s).objects.boundTo b name =
      if bucket = b ∧ name ∈ keys then none else s.objects.boundTo b name := by
  induction keys generalizing s with
  | nil => simp
  | cons key keys ih =>
    rw [List.foldl_cons, ih]
    have htouches : s.objects.Touches bucket key (s.tagDelete bucket key).objects :=
      touches_tagDelete _ _ _
    rw [bound_of_touches hb hbucket htouches (some none) (boundTo_tagDelete _) name]
    by_cases hsame : bucket = b ∧ key = name
    · obtain ⟨rfl, rfl⟩ := hsame
      simp
    · rw [if_neg hsame]
      have hne : bucket = b → name ≠ key := fun hbucket heq => hsame ⟨hbucket, heq.symm⟩
      by_cases hbucket : bucket = b
      · simp [hbucket, hne hbucket]
      · simp [hbucket]

end

theorem tagDeletes_blobs (bucket : String) (keys : List String) :
    (keys.foldl (fun s key => s.tagDelete bucket key) s).objects.tables.store.encrypted =
        s.objects.tables.store.encrypted ∧
      (keys.foldl (fun s key => s.tagDelete bucket key) s).objects.tables.store.blobs =
        s.objects.tables.store.blobs := by
  induction keys generalizing s with
  | nil => exact ⟨rfl, rfl⟩
  | cons key keys ih => exact ih

theorem writes_deleteObjects (hb : NulFree b) (hbucket : NulFree bucket) (body : String) :
    (Call.deleteObjects bucket body).WritesOwn lib b s draws := by
  simp only [WritesOwn, binds, puts, run, S3.deleteObjects]
  generalize keysToDelete body = keys
  obtain ⟨hencrypted, hblobs⟩ := @tagDeletes_blobs s bucket keys
  refine .of_tags ?_ hencrypted hblobs
  intro name
  refine (boundTo_tagDeletes hb hbucket keys name).trans ?_
  split_ifs <;> rfl

/-- **What a call writes.** -/
theorem Call.writes (hb : NulFree b) (call : Call) (hbucket : NulFree call.bucket) :
    Writes lib.cfg b (fun name => call.binds lib b s draws name) (call.puts lib s draws) s
      (call.run lib s draws).2 := by
  cases call with
  | put bucket key headers body => exact writes_put hb hbucket key headers body
  | complete bucket key uploadId body contentType =>
    exact writes_complete hb hbucket key uploadId body contentType
  | copy bucket key source => exact writes_copy hb hbucket key source
  | delete bucket key versionId => exact writes_delete hb hbucket key versionId
  | deleteObjects bucket body => exact writes_deleteObjects hb hbucket body
  | initiate bucket maxBlobSize => exact writes_of_objects rfl
  | part uploadId frames => exact writes_of_objects (uploadPart_objects lib s uploadId frames draws)
  | abort uploadId => exact writes_of_objects rfl

/-! ## The settings after a call -/

theorem toOption_blobGet (cfg : SessionConfig) (s : SessionStore) (kappa : String) :
    (s.blobGet cfg kappa).toOption = (s.objects.blobKey cfg.blobRoot kappa).toOption.bind
      (s.objects.contentAt cfg.blobRoot) := by
  unfold SessionStore.blobGet VersionStore.blobGet
  cases s.objects.blobKey cfg.blobRoot kappa with
  | error e => rfl
  | ok key =>
    show (need (s.objects.contentAt cfg.blobRoot key) _).toOption = s.objects.contentAt cfg.blobRoot key
    cases s.objects.contentAt cfg.blobRoot key <;> rfl

theorem configBytes_eq (lib : Libs) (s : SessionStore) (ns : String) (name : ConfigName) :
    configBytes lib s ns name =
      (s.objects.boundTo ns name.tag).bind fun kappa => (s.blobGet lib.cfg kappa).toOption := by
  unfold configBytes SessionStore.tagGet
  rcases s.objects.tagGet_eq ns name.tag with ⟨entry, hget, hbound⟩ | ⟨hget, hbound⟩
  · rw [hget, hbound]
    rfl
  · rw [hget, hbound]
    rfl

theorem Writes.toOption_blobGet (h : Writes lib.cfg b binds puts s s') (kappa : String) :
    (s'.blobGet lib.cfg kappa).toOption = readWith lib s puts kappa := by
  have hkey : s'.objects.blobKey lib.cfg.blobRoot kappa = s.objects.blobKey lib.cfg.blobRoot kappa := by
    unfold blobKey
    rw [h.encrypted]
  rw [S3.toOption_blobGet, hkey, readWith]
  congr 1
  funext key
  exact h.content key

theorem Writes.configBytes_eq (h : Writes lib.cfg b binds puts s s') (name : ConfigName) :
    configBytes lib s' b name =
      ((binds name.tag).getD (s.objects.boundTo b name.tag)).bind (readWith lib s puts) := by
  rw [S3.configBytes_eq, h.bound]
  congr 1
  funext kappa
  exact h.toOption_blobGet kappa

theorem readWith_of_some {label : String} {content : Bytes}
    (h : (s.blobGet lib.cfg label).toOption = some content) :
    readWith lib s puts label = some content := by
  rw [S3.toOption_blobGet] at h
  obtain ⟨key, hkey, hcontent⟩ := bind_eq_some_iff.mp h
  rw [readWith, hkey, bind_some, hcontent, some_or]

/-- A document that is not bound or removed changes only if it was missing. -/
theorem bind_readWith_iff {name : ConfigName} :
    (s.objects.boundTo b name.tag).bind (readWith lib s puts) = configBytes lib s b name ↔
      (configBytes lib s b name = none →
        (s.objects.boundTo b name.tag).bind (readWith lib s puts) = none) := by
  rw [S3.configBytes_eq]
  cases s.objects.boundTo b name.tag with
  | none => simp
  | some label =>
    simp only [bind_some]
    cases hget : (s.blobGet lib.cfg label).toOption with
    | none => simp
    | some content => simp [readWith_of_some hget]

end

end KappaRegistry.S3
