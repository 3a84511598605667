import KappaRegistry.Store.Sessions

/-!
# Which Blobs Are There

Handlers store blobs and never overwrite one: a blob that is put where one is found already leaves
the store as it is. So what a store holds after a number of puts is what it held before, and where
it held nothing, the first of the puts (`SessionStore.Adds`). Ingesting content that is labelled by
its own hash does not fail, and neither does storing what an upload received.
-/

namespace KappaRegistry

open Lib PersistentStore List Option BlobStore

namespace VersionStore

variable {root : String}

theorem exists_blobKey (s : VersionStore) (root : String) (k : KappaLabel) :
    ∃ key, s.blobKey root k.asStr = .ok key := by
  unfold blobKey
  by_cases henc : s.tables.store.encrypted = true
  · rw [if_pos henc]
    exact ⟨_, rfl⟩
  · obtain ⟨path, hpath, -⟩ := KappaLabel.blobPathFor_asStr root k
    rw [if_neg henc, hpath]
    exact ⟨_, rfl⟩

variable {key : BlobKey}

theorem contentAt_eq_none {s : VersionStore} : s.contentAt root key = none ↔
      ∀ label content, s.tables.store.blobs[label]? = some content →
        s.blobKey root label ≠ .ok key := by
  simp only [contentAt, map_eq_none_iff, find?_eq_none, decide_eq_true_eq, Prod.forall,
    Std.ExtTreeMap.mem_toList_iff_getElem?_eq_some]

/-- **What is found after a put** where nothing was found: the content, and all else as before. -/
theorem contentAt_withStore_blobPut (s : VersionStore) {kappa : String} {content : Bytes}
    (hkey : s.blobKey root kappa = .ok key) (hnone : s.contentAt root key = none)
    (key' : BlobKey) : (s.withStore (s.tables.store.blobPut kappa content)).contentAt root key' =
      (s.contentAt root key').or (if key' = key then some content else none) := by
  have hstore : (s.withStore (s.tables.store.blobPut kappa content)).contentAt root key' =
      ((s.tables.store.blobs.insertIfNew kappa content).toList.find? fun row =>
        decide (s.blobKey root row.1 = .ok key')).map Prod.snd := rfl
  rw [hstore]
  by_cases hsame : key' = key
  · subst hsame
    rw [hnone, none_or, if_pos rfl,
      Table.find?_insertIfNew_pos (p := fun label => decide (s.blobKey root label = .ok key'))
        (decide_eq_true hkey)]
    · rfl
    · intro label c hrow
      exact decide_eq_false (contentAt_eq_none.mp hnone label c hrow)
  · rw [if_neg hsame, or_none,
      Table.find?_insertIfNew_neg (p := fun label => decide (s.blobKey root label = .ok key'))]
    · rfl
    · apply decide_eq_false
      rw [hkey]
      intro heq
      exact hsame (Except.ok.inj heq).symm

end VersionStore

/-! ## Stores with more blobs -/

namespace SessionStore

variable {L : BlobLibs} {cfg : SessionConfig} {s s' s'' : SessionStore}

def firstPut (cfg : SessionConfig) (s : SessionStore) (puts : List (String × Bytes)) (key : BlobKey) :
    Option Bytes :=
  (puts.find? fun put => s.objects.blobKey cfg.blobRoot put.1 = .ok key).map Prod.snd

/-- Nothing but blobs was added, by some puts. -/
structure Adds (cfg : SessionConfig) (puts : List (String × Bytes)) (s s' : SessionStore) : Prop where
  versions : s'.objects.versions = s.objects.versions
  tables : s'.objects.tables = { s.objects.tables with
    store := { s.objects.tables.store with blobs := s'.objects.tables.store.blobs } }
  blobMeta : s'.blobMeta = s.blobMeta
  content : ∀ key, s'.objects.contentAt cfg.blobRoot key =
    (s.objects.contentAt cfg.blobRoot key).or (firstPut cfg s puts key)

theorem Adds.refl (cfg : SessionConfig) (s : SessionStore) : Adds cfg [] s s :=
  ⟨rfl, rfl, rfl, fun _ => (or_none).symm⟩

variable {puts puts' : List (String × Bytes)}

section

variable (h : Adds cfg puts s s')
include h

theorem Adds.encrypted :
    s'.objects.tables.store.encrypted = s.objects.tables.store.encrypted := by
  rw [h.tables]

theorem Adds.tags :
    s'.objects.tables.store.tags = s.objects.tables.store.tags := by
  rw [h.tables]

theorem Adds.blobKey (kappa : String) :
    s'.objects.blobKey cfg.blobRoot kappa = s.objects.blobKey cfg.blobRoot kappa := by
  unfold VersionStore.blobKey
  rw [h.encrypted]

theorem Adds.trans (h' : Adds cfg puts' s' s'') :
    Adds cfg (puts ++ puts') s s'' := by
  refine ⟨h'.versions.trans h.versions, ?_, h'.blobMeta.trans h.blobMeta, ?_⟩
  · rw [h'.tables, h.tables]
  · intro key
    have hfirst : firstPut cfg s' puts' key = firstPut cfg s puts' key := by
      unfold firstPut
      simp only [h.blobKey]
    rw [h'.content, h.content, Option.or_assoc, hfirst]
    congr 1
    unfold firstPut
    rw [find?_append, map_or]

end

variable {kappa : String} {content : Bytes}

theorem adds_blobPut (h : s.blobPut cfg kappa content = .ok s') :
    Adds cfg [(kappa, content)] s s' := by
  simp only [blobPut, VersionStore.blobPut, bind_eq_ok, pure_eq_ok] at h
  obtain ⟨objects, ⟨key, hkey, rfl⟩, rfl⟩ := h
  have hfirst : ∀ key', firstPut cfg s [(kappa, content)] key' =
      if key' = key then some content else none := by
    intro key'
    rw [firstPut, find?_singleton]
    by_cases hsame : key' = key
    · subst hsame
      simp [hkey]
    · simp [hkey, hsame, Ne.symm hsame]
  by_cases hfound : (s.objects.contentAt cfg.blobRoot key).isSome = true
  · simp only [if_pos hfound]
    refine ⟨rfl, rfl, rfl, ?_⟩
    intro key'
    rw [hfirst]
    by_cases hsame : key' = key
    · subst hsame
      obtain ⟨c, hc⟩ := isSome_iff_exists.mp hfound
      rw [hc, some_or]
    · rw [if_neg hsame, or_none]
  · rw [Bool.not_eq_true, isSome_eq_false_iff, isNone_iff_eq_none] at hfound
    simp only [hfound, isSome_none, Bool.false_eq_true, if_false]
    refine ⟨rfl, rfl, rfl, ?_⟩
    intro key'
    rw [hfirst]
    exact s.objects.contentAt_withStore_blobPut hkey hfound key'

theorem Adds.blobGet_of_ok (h : Adds cfg puts s s') (hget : s.blobGet cfg kappa = .ok content) :
    s'.blobGet cfg kappa = .ok content := by
  obtain ⟨key, hkey, hcontent⟩ := VersionStore.blobGet_eq_ok.mp hget
  apply VersionStore.blobGet_eq_ok.mpr
  refine ⟨key, (h.blobKey kappa).trans hkey, ?_⟩
  rw [h.content, hcontent, some_or]

theorem Adds.blobGet_first (h : Adds cfg ((kappa, content) :: puts) s s') {key : BlobKey}
    (hkey : s.objects.blobKey cfg.blobRoot kappa = .ok key)
    (hfits : ∀ c, s.blobGet cfg kappa = .ok c → c = content) :
    s'.blobGet cfg kappa = .ok content := by
  apply VersionStore.blobGet_eq_ok.mpr
  refine ⟨key, (h.blobKey kappa).trans hkey, ?_⟩
  have hfirst : firstPut cfg s ((kappa, content) :: puts) key = some content := by
    rw [firstPut, find?_cons_of_pos (by rw [hkey]; exact decide_eq_true rfl)]
    rfl
  rw [h.content, hfirst]
  cases hcontent : s.objects.contentAt cfg.blobRoot key with
  | none => rfl
  | some c =>
    rw [hfits c (VersionStore.blobGet_eq_ok.mpr ⟨key, hkey, hcontent⟩)]
    rfl

theorem exists_blobPut (cfg : SessionConfig) (s : SessionStore) (k : KappaLabel) (content : Bytes) :
    ∃ s', s.blobPut cfg k.asStr content = .ok s' := by
  obtain ⟨key, hkey⟩ := s.objects.exists_blobKey cfg.blobRoot k
  rw [blobPut, VersionStore.blobPut, hkey]
  exact ⟨_, rfl⟩

theorem verify_own (H : Hashes) (content : Bytes) :
    ∃ v, VerifiedContent.verify H (H.label .sha256 content).asStr content = .ok v ∧
      v.label = H.label .sha256 content ∧ v.content = content := by
  have hparse : KappaLabel.parse (H.label .sha256 content).asStr = .ok (H.label .sha256 content) :=
    KappaLabel.parse_eq_ok.mpr rfl
  have hcompute : H.compute (H.label .sha256 content).axis content = .ok (H.label .sha256 content) :=
    Hashes.compute_eq_ok.mpr ⟨fun h => absurd (show Axis.sha256 = .sha1 from h.1) (by decide), rfl⟩
  unfold VerifiedContent.verify
  rw [hparse]
  dsimp only
  split
  · rename_i e h
    simp [hcompute] at h
  · rename_i computed h
    rw [hcompute] at h
    cases h
    rw [dif_pos rfl]
    exact ⟨_, rfl, rfl, rfl⟩

/-- **Content that is ingested under its own label** is put under that label and no other. -/
theorem ingestVerified_own (L : BlobLibs) (cfg : SessionConfig) (s : SessionStore) (content : Bytes) :
    ∃ s', s.ingestVerified L cfg (kappaFromBytes L content) content =
        .ok (kappaFromBytes L content, s') ∧
      Adds cfg [(kappaFromBytes L content, content)] s s' := by
  obtain ⟨s', hput⟩ := exists_blobPut cfg s (L.hashes.label .sha256 content) content
  obtain ⟨v, hverify, hlabel, hcontent⟩ := verify_own L.hashes content
  refine ⟨s', ?_, adds_blobPut hput⟩
  have haxes : mandatoryAxes.filter (· ≠ v.label.axis) = [] := by
    rw [hlabel]
    rfl
  rw [ingestVerified, kappaFromBytes, hverify]
  show s.ingest L cfg v = _
  rw [ingest, haxes, hlabel, hcontent]
  simp only [map_nil, blobPutAll, hput]
  rfl

/-! ## Uploads -/

theorem verifyUpload_none (L : BlobLibs) (session : UploadSession) :
    verifyUpload L session none = .ok ⟨L.hashes.label .sha256 session.staged, []⟩ := by
  have hcompute : L.hashes.compute .sha256 session.staged = .ok (L.hashes.label .sha256 session.staged) :=
    Hashes.compute_eq_ok.mpr ⟨fun h => absurd h.1 (by decide), rfl⟩
  have hproof : L.hashes.streamingComputeMulti (uploadAxes none) session.staged =
      .ok ⟨L.hashes.label .sha256 session.staged, []⟩ := by
    have haxes : uploadAxes none = ["sha256"] := by decide
    have hparse : Axis.parse "sha256" = some .sha256 := by decide
    have hhashers : Hashes.hasherOrder.filter (· ∈ [Axis.sha256]) = [.sha256] := by decide
    rw [haxes, Hashes.streamingComputeMulti, Hashes.streamingComputeWith]
    simp only [mapM_cons, mapM_nil, hparse]
    show (do
      let results ← (Hashes.hasherOrder.filter (· ∈ [Axis.sha256])).mapM
        fun axis => L.hashes.compute axis session.staged
      _) = _
    rw [hhashers]
    simp only [mapM_cons, mapM_nil, hcompute]
    rfl
  rw [verifyUpload, hproof]
  rfl

/-- The blobs of the list of the parts of an upload. -/
def manifestPuts (L : BlobLibs) (objectKappa : String) (parts : List PartDigests) :
    List (String × Bytes) :=
  if parts = [] then []
  else
    let manifest := BlobStore.manifestBytes L parts
    let edge := L.edgeBytes
      { source := objectKappa, target := kappaFromBytes L manifest, relation := .chunkManifest,
        asserter := "_system", valueKappa := none, metadata := none }
    [(kappaFromBytes L manifest, manifest), (kappaFromBytes L edge, edge)]

theorem adds_persistPartManifest (L : BlobLibs) (cfg : SessionConfig) (s : SessionStore)
    (objectKappa : String) (parts : List PartDigests) :
    Adds cfg (manifestPuts L objectKappa parts) s (s.persistPartManifest L cfg objectKappa parts) := by
  unfold persistPartManifest manifestPuts
  by_cases hparts : parts = []
  · rw [if_pos hparts, if_pos hparts]
    exact .refl cfg s
  · rw [if_neg hparts, if_neg hparts]
    dsimp only
    generalize manifestBytes L parts = manifest
    generalize L.edgeBytes _ = edge
    obtain ⟨s₁, hmanifest⟩ := exists_blobPut cfg s (L.hashes.label .sha256 manifest) manifest
    obtain ⟨s₂, hput⟩ := exists_blobPut cfg s₁ (L.hashes.label .sha256 edge) edge
    have hboth := (adds_blobPut hmanifest).trans (adds_blobPut hput)
    have hfirst : s.blobPut cfg (kappaFromBytes L manifest) manifest = .ok s₁ := hmanifest
    have hsecond : s₁.blobPut cfg (kappaFromBytes L edge) edge = .ok s₂ := hput
    simp only [hfirst, hsecond]
    exact hboth

/-- The label that is returned for an upload: with a key it is that of the frames on disk. -/
def uploadLabel (L : BlobLibs) (s : SessionStore) (session : UploadSession) (frames : Bytes) :
    String :=
  if s.objects.tables.store.encrypted then kappaFromBytes L frames
  else kappaFromBytes L session.staged

def uploadPuts (L : BlobLibs) (s : SessionStore) (session : UploadSession) (frames : Bytes) :
    List (String × Bytes) :=
  (kappaFromBytes L session.staged, session.staged) ::
    manifestPuts L (uploadLabel L s session frames) session.partDigests

theorem storeUpload_none (L : BlobLibs) (cfg : SessionConfig) (s : SessionStore)
    (session : UploadSession) (frames : Bytes) :
    ∃ s', s.storeUpload L cfg session none frames = .ok (uploadLabel L s session frames, s') ∧
      Adds cfg (uploadPuts L s session frames) s s' := by
  obtain ⟨s₁, hput⟩ := exists_blobPut cfg s (L.hashes.label .sha256 session.staged) session.staged
  have hadds := adds_blobPut hput
  have hlabel : (if s₁.objects.tables.store.encrypted then kappaFromBytes L frames
      else (L.hashes.label .sha256 session.staged).asStr) = uploadLabel L s session frames := by
    rw [hadds.encrypted]
    rfl
  refine ⟨s₁.persistPartManifest L cfg (uploadLabel L s session frames) session.partDigests, ?_,
    hadds.trans (adds_persistPartManifest L cfg s₁ _ session.partDigests)⟩
  rw [storeUpload, verifyUpload_none]
  show (do
    let s ← s.blobPutAll cfg session.staged [L.hashes.label .sha256 session.staged]
    _) = _
  simp only [blobPutAll, hput]
  show Except.ok (_, _) = _
  rw [hlabel]

/-- **Completing an upload** that is there and not too old puts its blobs. -/
theorem uploadComplete_none {L : BlobLibs} {cfg : SessionConfig} {s : SessionStore} {uploadId : String}
    {session : UploadSession} (hsession : s.uploads[uploadId]? = some session) {now : ℕ}
    (hlive : session.expired cfg now = false) (frames : Bytes) :
    ∃ s', s.uploadComplete L cfg uploadId none frames now =
        (.ok (uploadLabel L s session frames, compositeEtag L session.partDigests), s') ∧
      Adds cfg (uploadPuts L s session frames) s s' := by
  obtain ⟨s', hstore, hadds⟩ := storeUpload_none L cfg (s.dropSession uploadId) session frames
  refine ⟨s', ?_, hadds.versions, hadds.tables, hadds.blobMeta, hadds.content⟩
  rw [uploadComplete, hsession]
  dsimp only
  rw [if_neg (by rw [hlive]; exact Bool.false_ne_true), hstore]
  rfl

end SessionStore

end KappaRegistry
