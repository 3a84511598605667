import KappaRegistry.Store.Sealing

/-!
# Object Versions

`kappa-store-redb/src/versions.rs`. The rows of a key stand under the namespace, the key and the
inverted time of the write, so that the newest row of a key comes first. Whether a write makes a
row at all is decided by the tag `_config/versioning` of the namespace: an unversioned write goes
to the tag of the key alone, and a versioned one to both.

The identifiers that `Uuid::new_v4` draws and the clock's readings are arguments. A row holds what
reading it back gives.
-/

namespace KappaRegistry

open Lib PersistentStore

/-- One version of a key; a delete marker has no label. -/
structure VersionEntry where
  versionId : String
  kappa : Option String
  isDeleteMarker : Bool
  timestampMs : ℕ
  size : ℕ
  etag : Option String
  deriving DecidableEq

/-- What a namespace does with the earlier versions of its keys. -/
inductive VersioningState where
  | unversioned
  | enabled
  | suspended
  deriving DecidableEq

/-- What `version_delete` answers. -/
structure DeleteResult where
  versionId : String
  isDeleteMarker : Bool
  deriving DecidableEq

/-- The persistent store with its version rows. -/
structure VersionStore where
  tables : TableStore
  versions : Table Bytes VersionEntry

namespace VersionStore

def new (encrypted : Bool) : VersionStore := ⟨.new encrypted, ∅⟩

/-- The tag that holds the versioning state of a namespace. -/
def configTag : String := "_config/versioning"

variable (s : VersionStore) (ns key : String)

/-- `versioning_state`. Reading a tag fails in no other way than that there is none. -/
def versioningState : VersioningState :=
  match s.tables.store.tagGet ns configTag with
  | .ok entry =>
    if entry.kappa = "enabled" then .enabled
    else if entry.kappa = "suspended" then .suspended
    else .unversioned
  | .error _ => .unversioned

def versionPrefix : Bytes := textBytes ns ++ 0 :: (textBytes key ++ [0])

/-- `version_composite_key`: the prefix, and the complement of the 64 bits of the time. -/
def versionCompositeKey (timestampMs : ℕ) : Bytes :=
  versionPrefix ns key ++ bigEndian 8 (u64Max - timestampMs)

/-- The rows of a key, newest first: those of the range from its prefix to the successor of it. -/
def versionRows : List (Bytes × VersionEntry) :=
  s.versions.toList.filter fun row => (versionPrefix ns key).isPrefixOf row.1

/-- `blob_size`, and zero where it fails. -/
def blobSize (kappa : String) : ℕ :=
  (s.tables.store.blobs[kappa]?.map List.length).getD 0

def tagSet (s : VersionStore) (ns name kappa : String) : VersionStore :=
  { s with tables := { s.tables with store := s.tables.store.tagSet ns name kappa } }

def tagDelete (s : VersionStore) (ns name : String) : VersionStore :=
  { s with tables := { s.tables with store := s.tables.store.tagDelete ns name } }

/-- A new row of a key, at the time it has in the entry. -/
def insertVersion (entry : VersionEntry) : VersionStore :=
  { s with versions := s.versions.insert (versionCompositeKey ns key entry.timestampMs) entry }

def versionRemoveNull : VersionStore :=
  { s with
    versions := ((s.versionRows ns key).filter fun row => row.2.versionId = "null").foldl
      (fun versions row => versions.erase row.1) s.versions }

def putEntry (versionId kappa : String) (etag : Option String) (nowMs : ℕ) : VersionEntry :=
  { versionId, kappa := some kappa, isDeleteMarker := false, timestampMs := nowMs,
    size := s.blobSize kappa, etag }

/-- `version_put`, with the identifier it draws and the time it reads. -/
def versionPut (kappa : String) (etag : Option String)
    (freshId : String) (nowMs : ℕ) : String × VersionStore :=
  match s.versioningState ns with
  | .unversioned => ("null", s.tagSet ns key kappa)
  | .enabled =>
    (freshId, (s.insertVersion ns key (s.putEntry freshId kappa etag nowMs)).tagSet ns key kappa)
  | .suspended =>
    ("null", ((s.versionRemoveNull ns key).insertVersion ns key
      (s.putEntry "null" kappa etag nowMs)).tagSet ns key kappa)

def versionGet (versionId : Option String) : Except StoreError VersionEntry :=
  match s.versioningState ns with
  | .unversioned => do
    let tag ← s.tables.store.tagGet ns key
    return { versionId := "null", kappa := some tag.kappa, isDeleteMarker := false, timestampMs := 0,
             size := s.blobSize tag.kappa, etag := none }
  | .enabled | .suspended =>
    match versionId with
    | some vid =>
      match (s.versionRows ns key).find? fun row => row.2.versionId = vid with
      | some row => .ok row.2
      | none => .error (.notFound ("version " ++ vid ++ " of " ++ ns ++ "/" ++ key))
    | none =>
      match (s.versionRows ns key).head? with
      | some row =>
        if row.2.isDeleteMarker then
          .error (.notFound
            (ns ++ "/" ++ key ++ " (delete marker: " ++ row.2.versionId ++ ")"))
        else .ok row.2
      | none => .error (.notFound (ns ++ "/" ++ key))

def deleteMarker (markerId : String) (nowMs : ℕ) : VersionEntry :=
  { versionId := markerId, kappa := none, isDeleteMarker := true, timestampMs := nowMs, size := 0,
    etag := none }

/-- `version_delete`, with the identifier it draws and the time it reads. -/
def versionDelete (versionId : Option String)
    (freshId : String) (nowMs : ℕ) : DeleteResult × VersionStore :=
  match s.versioningState ns with
  | .unversioned => (⟨"null", false⟩, s.tagDelete ns key)
  | .enabled | .suspended =>
    match versionId with
    | none =>
      (⟨freshId, true⟩, (s.insertVersion ns key (deleteMarker freshId nowMs)).tagDelete ns key)
    | some vid =>
      match (s.versionRows ns key).find? fun row => row.2.versionId = vid with
      | some row =>
        (⟨vid, row.2.isDeleteMarker⟩, { s with versions := s.versions.erase row.1 })
      | none => (⟨vid, false⟩, s)

def versionList (max : ℕ) : List VersionEntry :=
  match s.versioningState ns with
  | .unversioned => []
  | .enabled | .suspended => ((s.versionRows ns key).take max).map Prod.snd

/-! ## What the operations touch -/

theorem versionDelete_induction {P : VersionStore → Prop} {s : VersionStore} {ns key freshId : String}
    {versionId : Option String} {nowMs : ℕ}
    (htag : s.versioningState ns = .unversioned → P (s.tagDelete ns key))
    (hmarker : versionId = none →
      P ((s.insertVersion ns key (deleteMarker freshId nowMs)).tagDelete ns key))
    (hrow : ∀ row ∈ s.versionRows ns key, P { s with versions := s.versions.erase row.1 })
    (hsame : P s) : P (s.versionDelete ns key versionId freshId nowMs).2 := by
  unfold versionDelete
  cases hstate : s.versioningState ns with
  | unversioned => exact htag hstate
  | enabled | suspended =>
    cases versionId with
    | none => exact hmarker rfl
    | some vid =>
      dsimp only
      cases hfind : (s.versionRows ns key).find? fun row => row.2.versionId = vid with
      | none => exact hsame
      | some row => exact hrow row (List.mem_of_find?_eq_some hfind)

theorem versionPut_blobs (kappa : String) (etag : Option String) (freshId : String) (nowMs : ℕ) :
    (s.versionPut ns key kappa etag freshId nowMs).2.tables.store.encrypted =
        s.tables.store.encrypted ∧
      (s.versionPut ns key kappa etag freshId nowMs).2.tables.store.blobs = s.tables.store.blobs := by
  unfold versionPut
  cases s.versioningState ns <;> exact ⟨rfl, rfl⟩

theorem versionDelete_blobs (versionId : Option String) (freshId : String) (nowMs : ℕ) :
    (s.versionDelete ns key versionId freshId nowMs).2.tables.store.encrypted =
        s.tables.store.encrypted ∧
      (s.versionDelete ns key versionId freshId nowMs).2.tables.store.blobs = s.tables.store.blobs :=
  versionDelete_induction (P := fun t => t.tables.store.encrypted = s.tables.store.encrypted ∧
      t.tables.store.blobs = s.tables.store.blobs)
    (fun _ => ⟨rfl, rfl⟩) (fun _ => ⟨rfl, rfl⟩) (fun _ _ => ⟨rfl, rfl⟩) ⟨rfl, rfl⟩

theorem mem_versionRows {s : VersionStore} {ns key : String} {row : Bytes × VersionEntry} :
    row ∈ s.versionRows ns key ↔
      s.versions[row.1]? = some row.2 ∧ versionPrefix ns key <+: row.1 := by
  rw [versionRows, List.mem_filter, List.isPrefixOf_iff_prefix]
  exact and_congr_left' Std.ExtTreeMap.mem_toList_iff_getElem?_eq_some

theorem get_foldl_erase (rows : List (Bytes × VersionEntry)) (t : Table Bytes VersionEntry)
    (key : Bytes) : (rows.foldl (fun t row => t.erase row.1) t)[key]? =
      if key ∈ rows.map Prod.fst then none else t[key]? := by
  induction rows generalizing t with
  | nil => simp
  | cons row rows ih =>
    rw [List.foldl_cons, ih, Table.get_erase, List.map_cons]
    by_cases hmem : key ∈ rows.map Prod.fst
    · simp [hmem]
    · by_cases hkey : row.1 = key
      · simp [hkey]
      · simp [hmem, hkey, Ne.symm hkey]

end VersionStore

end KappaRegistry
