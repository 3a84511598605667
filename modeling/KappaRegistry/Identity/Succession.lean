import KappaRegistry.Identity.Resolution
import KappaRegistry.Store.Memory
import KappaRegistry.Store.Persistent

/-!
# Succession After a Key Compromise

`identity_succession_put` records that an anchor hands over to another one, and tags a watermark
in the old anchor's namespace so that resolution voids what the old key asserted. For the reason
`key-compromise` the watermark is meant to void everything, and its time is set to zero; but a
watermark voids the assertions from *before* its time, so this one voids nothing.

`voided_after_iff` says for both stores that an assertion is voided by a watermark after the put iff it
is voided by one that was there before, and **`keyCompromise_voids_iff`** draws the consequence for
`resolveAll`.
-/

namespace KappaRegistry

open Lib PersistentStore InMemoryStore Watermark

variable (prim : Primitives) (codec : IdentityCodec)

/-! ## Putting a succession -/

variable (s : PersistentStore) (nowMs : UInt64) (succession : IdentitySuccession) (anchor : String)

def successionWatermark : Watermark where
  asserter := succession.oldAnchor
  -- key-compromise: void everything (timestamp 0)
  invalidateBeforeMs :=
    if succession.reason = "key-compromise" then 0 else succession.effectiveAtMs
  reason := succession.reason ++ " succession"
  setAtMs := nowMs

def successionKappa : String :=
  prim.kappaFromBytes (codec.watermark.bytes (successionWatermark nowMs succession))

def watermarkTag (kappa : String) : String := "watermark/" ++ kappa

/-- `identity_succession_put` of the in-memory store. -/
def InMemoryStore.identitySuccessionPut (s : InMemoryStore) (nowMs : UInt64)
    (succession : IdentitySuccession) : Except StoreError (String × InMemoryStore) :=
  if succession.oldAnchor = succession.newAnchor then .error (.rejected "cannot succeed to self")
  else
    let s := { s with
      identitySuccessions :=
        s.identitySuccessions.insert succession.oldAnchor succession.newAnchor }
    let wmBytes := codec.watermark.bytes (successionWatermark nowMs succession)
    let wmKappa := successionKappa prim codec nowMs succession
    let s := { s with blobs := s.blobs.insertIfNew wmKappa wmBytes }
    let anchorNs := NamespaceRef.deterministic prim succession.oldAnchor
    let s := s.ensureNamespace anchorNs
    .ok (prim.kappaFromBytes (codec.successionBytes succession),
      s.tagSet prim anchorNs (watermarkTag wmKappa) wmKappa)

/-- `identity_succession_put` of the persistent store. -/
def PersistentStore.identitySuccessionPut : Except StoreError (String × PersistentStore) :=
  if succession.oldAnchor = succession.newAnchor then .error (.rejected "cannot succeed to self")
  else
    let s := { s with
      identitySuccessions :=
        s.identitySuccessions.insert succession.oldAnchor succession.newAnchor }
    let wmBytes := codec.watermark.bytes (successionWatermark nowMs succession)
    let wmKappa := successionKappa prim codec nowMs succession
    let s := s.blobPut wmKappa wmBytes
    .ok (prim.kappaFromBytes (codec.successionBytes succession),
      s.tagSet succession.oldAnchor (watermarkTag wmKappa) wmKappa)

/-! ## Reading watermarks -/

/-- The watermarks among the blobs some tags name, as the resolve handler collects them: a blob
that is missing or is no watermark is passed over. -/
def readWatermarks (blobGet : String → Except StoreError Bytes) (tags : List TagEntry) :
    List Watermark :=
  tags.filterMap fun tag =>
    match blobGet tag.kappa with
    | .ok blob => codec.watermark.decode blob
    | .error _ => none

/-- The watermarks stored under an anchor's namespace. -/
def InMemoryStore.watermarksUnder (s : InMemoryStore) (anchor : String) :
    Except StoreError (List Watermark) :=
  (s.tagPrefix (.deterministic prim anchor) "watermark/").map (readWatermarks codec s.blobGet)

def PersistentStore.watermarksUnder : Except StoreError (List Watermark) :=
  (s.tagPrefix (NamespaceRef.deterministic prim anchor).asStr "watermark/").map
    (readWatermarks codec s.blobGet)

/-! ## What the put changes -/

/-- `w` is read from a blob of the store before the put: one that another row tags, or one that is
already stored under the new watermark's label. -/
def PriorWatermark (blobs : Table String Bytes) (Tagged : String → Prop) (wmKappa : String)
    (w : Watermark) : Prop :=
  ∃ kappa blob, (Tagged kappa ∨ kappa = wmKappa) ∧ blobs[kappa]? = some blob ∧
    codec.watermark.decode blob = some w

/-- The labels that the rows of the old anchor's namespace tag as watermarks, other than the row
the put writes. -/
def InMemoryStore.TaggedBefore (s : InMemoryStore) (anchor wmKappa kappa : String) : Prop :=
  ∃ hash entry, hash ≠ prim.itemHash (watermarkTag wmKappa) ∧
    s.tags[(prim.deterministicUuid anchor, hash)]? = some entry ∧
    startsWith entry.name "watermark/" = true ∧ entry.kappa = kappa

def PersistentStore.TaggedBefore (wmKappa kappa : String) : Prop :=
  ∃ key value, key ≠ dbKey anchor (watermarkTag wmKappa) ∧ s.tags[key]? = some value ∧
    startsWith key (dbKey anchor "watermark/") = true ∧ value.kappa = kappa

theorem startsWith_watermarkTag (kappa : String) :
    startsWith (dbKey anchor (watermarkTag kappa)) (dbKey anchor "watermark/") = true :=
  startsWith_iff.mpr ⟨kappa, by simp only [dbKey, joinKey, watermarkTag, String.append_assoc]⟩

theorem successorIsUtf8_watermark : successorIsUtf8 (dbKey anchor "watermark/") = true := by
  simp [successorIsUtf8, dbKey, joinKey]

section

variable {prim codec} {nowMs : UInt64} {succession : IdentitySuccession}

theorem mem_readWatermarks {blobGet : String → Except StoreError Bytes} {tags : List TagEntry}
    {w : Watermark} : w ∈ readWatermarks codec blobGet tags ↔
      ∃ kappa blob, (∃ tag ∈ tags, tag.kappa = kappa) ∧ blobGet kappa = .ok blob ∧
        codec.watermark.decode blob = some w := by
  unfold readWatermarks
  rw [List.mem_filterMap]
  constructor
  · intro ⟨tag, htag, hread⟩
    cases hget : blobGet tag.kappa with
    | ok blob =>
      rw [hget] at hread
      exact ⟨tag.kappa, blob, ⟨tag, htag, rfl⟩, hget, hread⟩
    | error e =>
      simp [hget] at hread
  · intro ⟨kappa, blob, ⟨tag, htag, hkappa⟩, hget, hdecode⟩
    refine ⟨tag, htag, ?_⟩
    rwa [hkappa, hget]

theorem successionWatermark_voids_nothing (hreason : succession.reason = "key-compromise")
    {w : Watermark} (hread : codec.watermark.decode
      (codec.watermark.bytes (successionWatermark nowMs succession)) = some w)
    (a : IdentityAssertion) : voids a w = false := by
  have htime : w.invalidateBeforeMs = 0 := by
    rw [codec.watermark_time _ _ hread]
    exact if_pos hreason
  have hlt : ¬ a.validFromMs < w.invalidateBeforeMs := by
    rw [htime]
    exact UInt64.not_lt_zero
  simp [voids, invalidates, hlt]

variable (prim codec nowMs succession) in
/-- A watermark that is read after the put: from a blob that was tagged before, or the new one. -/
def WatermarkAfter (blobs : Table String Bytes) (Tagged : String → Prop) (w : Watermark) : Prop :=
  PriorWatermark codec (blobs.insertIfNew (successionKappa prim codec nowMs succession)
    (codec.watermark.bytes (successionWatermark nowMs succession))) Tagged
    (successionKappa prim codec nowMs succession) w

/-- **The put voids nothing new.** -/
theorem voided_after_iff (hreason : succession.reason = "key-compromise")
    {blobs : Table String Bytes} {Tagged : String → Prop} (a : IdentityAssertion) :
    (∃ w, WatermarkAfter prim codec nowMs succession blobs Tagged w ∧ voids a w = true) ↔
      ∃ w, PriorWatermark codec blobs Tagged (successionKappa prim codec nowMs succession) w ∧
        voids a w = true := by
  constructor
  · intro ⟨w, ⟨kappa, blob, hk, hblob, hread⟩, hvoids⟩
    rcases Table.of_get_insertIfNew hblob with ⟨-, rfl⟩ | hblob
    · -- the blob is the new watermark
      simp [successionWatermark_voids_nothing hreason hread] at hvoids
    · exact ⟨w, ⟨kappa, blob, hk, hblob, hread⟩, hvoids⟩
  · intro ⟨w, ⟨kappa, blob, hk, hblob, hread⟩, hvoids⟩
    exact ⟨w, ⟨kappa, blob, hk, Table.get_insertIfNew_of_some hblob, hread⟩, hvoids⟩

/-- After the put, the watermarks under the old anchor are read from the blobs that were tagged
before and from the new one. -/
theorem InMemoryStore.identitySuccessionPut_watermarks {s s' : InMemoryStore} {kappa : String}
    (h : s.identitySuccessionPut prim codec nowMs succession = .ok (kappa, s')) :
    ∃ ws, s'.watermarksUnder prim codec succession.oldAnchor = .ok ws ∧ ∀ w, w ∈ ws ↔
      WatermarkAfter prim codec nowMs succession s.blobs
        (s.TaggedBefore prim succession.oldAnchor (successionKappa prim codec nowMs succession)) w := by
  unfold identitySuccessionPut at h
  split at h
  · cases h
  obtain ⟨-, rfl⟩ := Prod.mk.inj (Except.ok.inj h)
  obtain ⟨tags, hlist, hlisted⟩ := listed_tagSet prim _
    (.deterministic prim succession.oldAnchor) (successionKappa prim codec nowMs succession)
    (startsWith_append "watermark/" (successionKappa prim codec nowMs succession))
  refine ⟨_, map_eq_ok.mpr ⟨tags, hlist, rfl⟩, ?_⟩
  intro w
  simp only [mem_readWatermarks, hlisted, blobGet_eq_ok, tagSet_blobs,
    ensureNamespace_blobs, ensureNamespace_tags]
  rfl

theorem PersistentStore.identitySuccessionPut_watermarks {s s' : PersistentStore} {kappa : String}
    (h : s.identitySuccessionPut prim codec nowMs succession = .ok (kappa, s')) :
    ∃ ws, s'.watermarksUnder prim codec succession.oldAnchor = .ok ws ∧ ∀ w, w ∈ ws ↔
      WatermarkAfter prim codec nowMs succession s.blobs
        (s.TaggedBefore succession.oldAnchor (successionKappa prim codec nowMs succession)) w := by
  unfold identitySuccessionPut at h
  split at h
  · cases h
  obtain ⟨-, rfl⟩ := Prod.mk.inj (Except.ok.inj h)
  obtain ⟨tags, hlist, hlisted⟩ := listed_tagSet _
    succession.oldAnchor (successionKappa prim codec nowMs succession)
    (startsWith_watermarkTag succession.oldAnchor (successionKappa prim codec nowMs succession))
    (successorIsUtf8_watermark succession.oldAnchor)
  refine ⟨_, map_eq_ok.mpr ⟨tags, hlist, rfl⟩, ?_⟩
  intro w
  simp only [mem_readWatermarks, hlisted, blobGet_eq_ok]
  rfl

end

/-! ## What is left of the old key -/

/-- `a` is not valid even without the succession: it expires before the end of time, a revocation
voids it, or a watermark of the store before the put does. -/
def VoidAnyway (revocations : List Revocation) (Prior : Watermark → Prop) (a : IdentityAssertion) :
    Prop :=
  (∃ expiry, a.validUntilMs = some expiry ∧ expiry ≠ endOfTime) ∨
  (∃ r ∈ revocations, Revocation.voids prim codec a r = true) ∨
  ∃ w, Prior w ∧ voids a w = true

/-- No assertion of `anchor` is valid iff all of them are void on grounds of `Prior`, which the
watermarks given amount to. -/
theorem valid_excludes_iff {revocations : List Revocation} {ws : List Watermark}
    {Prior : Watermark → Prop} {assertions : List IdentityAssertion} {anchor : String}
    (hws : ∀ a, (∃ w ∈ ws, voids a w = true) ↔ ∃ w, Prior w ∧ voids a w = true) :
    (∀ a ∈ (resolveAll prim codec revocations ws assertions).valid, a.asserter ≠ anchor) ↔
      ∀ a ∈ assertions, a.asserter = anchor → VoidAnyway prim codec revocations Prior a := by
  constructor
  · intro h a ha hanchor
    by_contra hvoid
    simp only [VoidAnyway, ← hws, not_or, not_exists, not_and, Bool.not_eq_true] at hvoid
    obtain ⟨hexp, hrev, hwm⟩ := hvoid
    have hvalid := mem_valid_resolveAll.mpr
      ⟨ha, fun ⟨expiry, hsome, hne⟩ => hexp expiry hsome hne, hrev, hwm⟩
    exact h a hvalid hanchor
  · intro h a hvalid hanchor
    obtain ⟨ha, hexp, hrev, hwm⟩ := mem_valid_resolveAll.mp hvalid
    rcases h a ha hanchor with hexp' | ⟨r, hr, hvoids⟩ | hprior
    · exact hexp hexp'
    · simp [hrev r hr] at hvoids
    · obtain ⟨w, hw, hvoids⟩ := (hws a).mpr hprior
      simp [hwm w hw] at hvoids

/-- **A key-compromise succession voids nothing of its own.** -/
theorem keyCompromise_voids_iff (nowMs : UInt64) (succession : IdentitySuccession)
    (hreason : succession.reason = "key-compromise") (revocations : List Revocation)
    (assertions : List IdentityAssertion) :
    (∀ (s s' : InMemoryStore) (kappa : String),
      s.identitySuccessionPut prim codec nowMs succession = .ok (kappa, s') →
      ∃ ws, s'.watermarksUnder prim codec succession.oldAnchor = .ok ws ∧
        ((∀ a ∈ (resolveAll prim codec revocations ws assertions).valid,
            a.asserter ≠ succession.oldAnchor) ↔
          ∀ a ∈ assertions, a.asserter = succession.oldAnchor → VoidAnyway prim codec revocations
            (PriorWatermark codec s.blobs
              (s.TaggedBefore prim succession.oldAnchor (successionKappa prim codec nowMs succession))
              (successionKappa prim codec nowMs succession)) a)) ∧
    (∀ (s s' : PersistentStore) (kappa : String),
      s.identitySuccessionPut prim codec nowMs succession = .ok (kappa, s') →
      ∃ ws, s'.watermarksUnder prim codec succession.oldAnchor = .ok ws ∧
        ((∀ a ∈ (resolveAll prim codec revocations ws assertions).valid,
            a.asserter ≠ succession.oldAnchor) ↔
          ∀ a ∈ assertions, a.asserter = succession.oldAnchor → VoidAnyway prim codec revocations
            (PriorWatermark codec s.blobs
              (s.TaggedBefore succession.oldAnchor (successionKappa prim codec nowMs succession))
              (successionKappa prim codec nowMs succession)) a)) := by
  constructor
  · intro s s' kappa hput
    obtain ⟨ws, hws, hmem⟩ := InMemoryStore.identitySuccessionPut_watermarks hput
    refine ⟨ws, hws, valid_excludes_iff prim codec ?_⟩
    intro a
    simp only [hmem]
    exact voided_after_iff hreason a
  · intro s s' kappa hput
    obtain ⟨ws, hws, hmem⟩ := PersistentStore.identitySuccessionPut_watermarks hput
    refine ⟨ws, hws, valid_excludes_iff prim codec ?_⟩
    intro a
    simp only [hmem]
    exact voided_after_iff hreason a

/-- A succession after the key of `sha256:a1` was stolen. -/
def stolenKey : IdentitySuccession where
  oldAnchor := "sha256:a1"
  newAnchor := "sha256:c3"
  reason := "key-compromise"
  effectiveAtMs := 1800000000000
  oldSignature := []
  newSignature := []

/-- An assertion of the stolen key that nothing else voids. -/
def stolenAssertion : IdentityAssertion := { expiringAssertion with validUntilMs := none }

theorem keyCompromise_voids_iff_stolen :
    ∃ kappa s' ws, InMemoryStore.new.identitySuccessionPut .sample .sample 1800000000000 stolenKey
        = .ok (kappa, s') ∧ s'.watermarksUnder .sample .sample "sha256:a1" = .ok ws ∧
      ∀ a ∈ (resolveAll .sample .sample [] ws [expiringAssertion]).valid,
        a.asserter ≠ "sha256:a1" := by
  obtain ⟨ws, hws, hiff⟩ := (keyCompromise_voids_iff .sample .sample 1800000000000 stolenKey rfl []
    [expiringAssertion]).1 InMemoryStore.new _ _ rfl
  refine ⟨_, _, ws, rfl, hws, hiff.mpr ?_⟩
  intro a ha _
  obtain rfl := List.mem_singleton.mp ha
  exact .inl ⟨1893456000000, rfl, by decide⟩

/-- **The stolen key still speaks**: after the put, in a store of either kind, its assertion is
valid. -/
theorem keyCompromise_leaves_valid :
    (∃ kappa s' ws, InMemoryStore.new.identitySuccessionPut .sample .sample 1800000000000 stolenKey
        = .ok (kappa, s') ∧ s'.watermarksUnder .sample .sample "sha256:a1" = .ok ws ∧
      stolenAssertion ∈ (resolveAll .sample .sample [] ws [stolenAssertion]).valid) ∧
    (∃ kappa s' ws, (PersistentStore.new false).identitySuccessionPut .sample .sample 1800000000000
        stolenKey = .ok (kappa, s') ∧ s'.watermarksUnder .sample .sample "sha256:a1" = .ok ws ∧
      stolenAssertion ∈ (resolveAll .sample .sample [] ws [stolenAssertion]).valid) ∧
    stolenAssertion.asserter = stolenKey.oldAnchor := by
  refine ⟨⟨_, _, [successionWatermark 1800000000000 stolenKey], rfl, ?_⟩,
    ⟨_, _, [successionWatermark 1800000000000 stolenKey], rfl, ?_⟩, rfl⟩
  · decide +kernel
  · decide +kernel

end KappaRegistry
