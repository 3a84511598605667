import KappaRegistry.Kappa.Path
import KappaRegistry.Store.Isolation

/-!
# Deleting Blobs

`blob_get`, `blob_delete` and `blob_list` of `kappa-store-redb/src/blob.rs`, as the rest of the
server sees them: no call of the file system fails. Without a key a blob is the file that
`blob_path_for` names, and several labels can name one file, because the algorithm of a label may
be a path. With a key a blob is found through the record of exactly its label. So a deletion takes
away every label with the same key (`blobGet_blobDelete`), and no other.
-/

namespace KappaRegistry

open Lib PersistentStore

inductive BlobKey where
  /-- The record that an encrypted store keeps for a label. -/
  | record (sigma : String)
  /-- The file of a label. -/
  | file (path : Location)
  deriving DecidableEq

namespace VersionStore

variable (root : String) (s : VersionStore) (kappa : String) (key : BlobKey)

def blobKey : Except StoreError BlobKey :=
  if s.tables.store.encrypted then .ok (.record kappa)
  else (blobPathFor root kappa).map fun path => .file (normalise path)

def contentAt : Option Bytes :=
  (s.tables.store.blobs.toList.find? fun row => s.blobKey root row.1 = .ok key).map Prod.snd

def blobGet : Except StoreError Bytes := do
  let key ← s.blobKey root kappa
  need (s.contentAt root key) (.notFound kappa)

def blobList : List String := s.tables.store.blobs.toList.map Prod.fst

def withoutBlob : VersionStore :=
  s.withStore { s.tables.store with
    blobs := Table.eraseAll s.tables.store.blobs
      (s.blobList.filter fun label => s.blobKey root label = .ok key) }

/-- `blob_delete`; it is no error if there is no blob. -/
def blobDelete : Except StoreError VersionStore := do
  let key ← s.blobKey root kappa
  return s.withoutBlob root key

/-- `blob_put` of a label that is the hash of the content: nothing is written if there is a blob. -/
def blobPut (s : VersionStore) (kappa : String) (content : Bytes) : Except StoreError VersionStore := do
  let key ← s.blobKey root kappa
  return if (s.contentAt root key).isSome then s
    else s.withStore (s.tables.store.blobPut kappa content)

def SameBlob (a b : String) : Prop :=
  ∃ key, s.blobKey root a = .ok key ∧ s.blobKey root b = .ok key

instance (s : VersionStore) (a b : String) : Decidable (s.SameBlob root a b) :=
  match ha : s.blobKey root a with
  | .error _ => .isFalse fun ⟨_, h, _⟩ => by rw [ha] at h; cases h
  | .ok key => decidable_of_iff (s.blobKey root b = .ok key) ⟨fun hb => ⟨key, ha, hb⟩,
      fun ⟨_, h, hb⟩ => by rw [ha] at h; cases h; exact hb⟩

variable {root}

theorem blobGet_eq_ok {s : VersionStore} {kappa : String} {content : Bytes} :
    s.blobGet root kappa = .ok content ↔
      ∃ key, s.blobKey root kappa = .ok key ∧ s.contentAt root key = some content := by
  simp only [blobGet, bind_eq_ok, need_eq_ok]

/-! ## Deletions -/

theorem blobDelete_eq_ok {s s' : VersionStore} {kappa : String} : s.blobDelete root kappa = .ok s' ↔
      ∃ key, s.blobKey root kappa = .ok key ∧ s.withoutBlob root key = s' := by
  simp only [blobDelete, bind_eq_ok, pure_eq_ok]

theorem contentAt_withoutBlob (key' : BlobKey) : (s.withoutBlob root key).contentAt root key' =
      if key' = key then none else s.contentAt root key' := by
  unfold contentAt
  show ((Table.eraseAll s.tables.store.blobs _).toList.find?
    fun row => s.blobKey root row.1 = .ok key').map Prod.snd = _
  -- a row is erased iff its label has the key
  have hleft : (s.tables.store.blobs.toList.filter fun row =>
        row.1 ∉ s.blobList.filter fun label => s.blobKey root label = .ok key) =
      s.tables.store.blobs.toList.filter fun row => s.blobKey root row.1 ≠ .ok key := by
    apply List.filter_congr
    intro row hrow
    have hlisted : row.1 ∈ s.blobList := List.mem_map_of_mem hrow
    simp [hlisted]
  rw [Table.toList_eraseAll, hleft, List.find?_filter]
  by_cases hkey : key' = key
  · subst hkey
    rw [if_pos rfl, Option.map_eq_none_iff, List.find?_eq_none]
    intro row _
    simp
  · rw [if_neg hkey]
    congr 2
    funext row
    by_cases hrow : s.blobKey root row.1 = .ok key'
    · simp [hrow, hkey]
    · simp [hrow]

/-- **What a deletion takes away**: the blob of its label, under every label of that blob. -/
theorem blobGet_blobDelete {s s' : VersionStore} {kappa : String}
    (h : s.blobDelete root kappa = .ok s') (label : String) : s'.blobGet root label =
      if s.SameBlob root kappa label then .error (.notFound label) else s.blobGet root label := by
  obtain ⟨key, hkey, rfl⟩ := blobDelete_eq_ok.mp h
  have hkey' : ∀ label, (s.withoutBlob root key).blobKey root label = s.blobKey root label :=
    fun _ => rfl
  unfold blobGet
  rw [hkey']
  cases hlabel : s.blobKey root label with
  | error e =>
    rw [if_neg]
    · rfl
    · intro ⟨key', _, h'⟩
      simp [hlabel] at h'
  | ok key' =>
    show need ((s.withoutBlob root key).contentAt root key') _ = _
    rw [contentAt_withoutBlob]
    by_cases hsame : key' = key
    · subst hsame
      rw [if_pos rfl, if_pos ⟨key', hkey, hlabel⟩]
      rfl
    · rw [if_neg hsame, if_neg]
      · rfl
      · intro ⟨key'', h₁, h₂⟩
        rw [hkey] at h₁
        rw [hlabel] at h₂
        cases h₁
        cases h₂
        exact hsame rfl

end VersionStore

end KappaRegistry
