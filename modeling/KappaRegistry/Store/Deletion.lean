import KappaRegistry.Nix.NarStore
import KappaRegistry.Store.ContentAddressing
import KappaRegistry.Store.Contents

/-!
# Deleted Blobs

`kappa-store-redb/src/blob.rs` without encryption. A blob that was ingested compressed has a file
under the label of its compressed bytes and a compression record under its own label.
`blob_delete` removes the file of a label and no record, while every reader but `blob_get` looks for
a record first; so a deleted blob is gone exactly if it has no record (**`gone_iff`**).
-/

namespace KappaRegistry

open Lib List SessionStore

/-- The store with its compression records. -/
structure CompressedStore where
  session : SessionStore
  compressionRecords : Table String Nix.CompressionRecord

inductive CompressedOp where
  | ingestVerified (claimed : String) (content : Bytes)
  | ingestCompressed (uncompressedHash : String) (content : Bytes) (compression : String) (size : ℕ)
  | blobDelete (kappa : String)

namespace CompressedStore

variable (L : BlobLibs) (cfg : SessionConfig) (decompress : Bytes → String → Except StoreError Bytes)

def new : CompressedStore := ⟨.new false, ∅⟩

variable (s : CompressedStore)

/-- `ingest_compressed`. -/
def ingestCompressed (uncompressedHash : String) (content : Bytes)
    (compression : String) (size : ℕ) : Except StoreError CompressedStore := do
  let kappa := SessionStore.kappaFromBytes L content
  let session ← s.session.blobPut cfg kappa content
  return ⟨session, s.compressionRecords.insert uncompressedHash ⟨kappa, compression, size⟩⟩

/-- `blob_delete`. -/
def blobDelete (s : CompressedStore) (sigma : String) : Except StoreError CompressedStore := do
  let objects ← s.session.objects.blobDelete cfg.blobRoot sigma
  return { s with session := { s.session with objects } }

/-- `blob_exists`. -/
def blobExists (s : CompressedStore) (sigma : String) : Except StoreError Bool :=
  if s.compressionRecords[sigma]?.isSome then .ok true else s.session.blobExists cfg sigma

/-- `blob_size`. -/
def blobSize (s : CompressedStore) (sigma : String) : Except StoreError ℕ :=
  match s.compressionRecords[sigma]? with
  | some record => .ok record.uncompressedSize
  | none => s.session.blobSize cfg sigma

/-- `blob_open_compressed`, read to the end, with the record. -/
def openCompressed (sigma : String) : Except StoreError (Nix.CompressionRecord × Bytes) := do
  let record ← need s.compressionRecords[sigma]? (.notFound sigma)
  let key ← s.session.objects.blobKey cfg.blobRoot record.kappa
  let bytes ← need (s.session.objects.contentAt cfg.blobRoot key) (.notFound sigma)
  return (record, bytes)

/-- `blob_open_decompressed`, read to the end. -/
def openDecompressed (sigma : String) : Except StoreError Bytes := do
  let (record, bytes) ← s.openCompressed cfg sigma
  decompress bytes record.algorithm

/-- The store after a call that does not fail. -/
def call (s : CompressedStore) : CompressedOp → Except StoreError CompressedStore
  | .ingestVerified claimed content =>
    (s.session.ingestVerified L cfg claimed content).map fun r => { s with session := r.2 }
  | .ingestCompressed hash content compression size =>
    s.ingestCompressed L cfg hash content compression size
  | .blobDelete kappa => s.blobDelete cfg kappa

/-- A call; one that fails leaves the store as it was. -/
def step (op : CompressedOp) : CompressedStore :=
  (s.call L cfg op).toOption.getD s

def run (ops : List CompressedOp) : CompressedStore := ops.foldl (step L cfg) s

/-- Every reader says that there is no blob. -/
def Gone (k : String) : Prop :=
  s.blobExists cfg k = .ok false ∧ s.session.blobGet cfg k = .error (.notFound k) ∧
    s.blobSize cfg k = .error (.notFound k) ∧ s.openCompressed cfg k = .error (.notFound k) ∧
    s.openDecompressed cfg decompress k = .error (.notFound k)

/-- The call stores something under `k`: a record, or the blob under one of its labels. -/
def Ingests (k : String) : CompressedOp → Prop
  | .ingestVerified claimed content => ∃ v, VerifiedContent.verify L.hashes claimed content = .ok v ∧
      ∃ label ∈ v.label :: mandatoryAxes.map fun axis => L.hashes.label axis v.content,
        s.session.objects.SameBlob cfg.blobRoot k label.asStr
  | .ingestCompressed hash content _ _ => hash = k ∨
      s.session.objects.SameBlob cfg.blobRoot k (SessionStore.kappaFromBytes L content)
  | .blobDelete _ => False

/-- Neither a record nor a file. -/
structure Absent (key : BlobKey) (k : String) (s : CompressedStore) : Prop where
  record : s.compressionRecords[k]? = none
  key_eq : s.session.objects.blobKey cfg.blobRoot k = .ok key
  content : s.session.objects.contentAt cfg.blobRoot key = none

variable {L cfg decompress} {s : CompressedStore} {k : String} {key : BlobKey}

theorem Absent.gone (h : s.Absent cfg key k) : s.Gone cfg decompress k := by
  have hget : s.session.blobGet cfg k = .error (.notFound k) := by
    rw [SessionStore.blobGet, VersionStore.blobGet, h.key_eq]
    show need _ _ = _
    rw [h.content]
    rfl
  have hopen : s.openCompressed cfg k = .error (.notFound k) := by
    rw [openCompressed, h.record]
    rfl
  refine ⟨?_, hget, ?_, hopen, ?_⟩
  · rw [blobExists, h.record, SessionStore.blobExists, h.key_eq]
    show Except.ok _ = _
    rw [h.content]
    rfl
  · rw [blobSize, h.record]
    show (s.session.blobGet cfg k).map _ = _
    rw [hget]
    rfl
  · rw [openDecompressed, hopen]
    rfl

theorem blobExists_of_record {record : Nix.CompressionRecord}
    (h : s.compressionRecords[k]? = some record) : s.blobExists cfg k = .ok true := by
  rw [blobExists, h]
  rfl

theorem adds_blobPutAll (content : Bytes) (labels : List KappaLabel) {s s' : SessionStore}
    (h : blobPutAll cfg content labels s = .ok s') :
    SessionStore.Adds cfg (labels.map fun label => (label.asStr, content)) s s' := by
  induction labels generalizing s with
  | nil =>
    obtain rfl := Except.ok.inj h
    exact .refl cfg s
  | cons label labels ih =>
    rw [blobPutAll, bind_eq_ok] at h
    obtain ⟨t, ht, hrest⟩ := h
    exact (adds_blobPut ht).trans (ih hrest)

theorem Absent.adds (h : s.Absent cfg key k) {puts : List (String × Bytes)} {session : SessionStore}
    (hadds : SessionStore.Adds cfg puts s.session session)
    (hother : ∀ put ∈ puts, ¬ s.session.objects.SameBlob cfg.blobRoot k put.1) :
    Absent cfg key k { s with session } := by
  refine ⟨h.record, (hadds.blobKey k).trans h.key_eq, ?_⟩
  rw [hadds.content, h.content, Option.none_or, SessionStore.firstPut, Option.map_eq_none_iff,
    find?_eq_none]
  intro put hput hkey
  exact hother put hput ⟨key, h.key_eq, of_decide_eq_true hkey⟩

theorem Absent.call (h : s.Absent cfg key k) {op : CompressedOp} (hop : ¬ s.Ingests L cfg k op)
    {s' : CompressedStore} (hcall : s.call L cfg op = .ok s') : s'.Absent cfg key k := by
  cases op with
  | ingestVerified claimed content =>
    simp only [CompressedStore.call, ingestVerified, ingest, map_eq_ok,
      bind_eq_ok, mapError_eq_ok, pure_eq_ok] at hcall
    obtain ⟨r, ⟨v, hv, session, hput, rfl⟩, rfl⟩ := hcall
    refine h.adds (adds_blobPutAll _ _ hput) fun put hput hsame => hop ⟨v, hv, ?_⟩
    obtain ⟨label, hlabel, rfl⟩ := mem_map.mp hput
    refine ⟨label, ?_, hsame⟩
    rcases mem_cons.mp hlabel with rfl | hlabel
    · exact mem_cons_self
    · obtain ⟨axis, haxis, rfl⟩ := mem_map.mp hlabel
      exact mem_cons_of_mem _ (mem_map_of_mem (mem_of_mem_filter haxis))
  | ingestCompressed hash content compression size =>
    simp only [CompressedStore.call, ingestCompressed, bind_eq_ok, pure_eq_ok] at hcall
    obtain ⟨session, hput, rfl⟩ := hcall
    have hadds := h.adds (adds_blobPut hput) fun put hput hsame => hop (.inr (by
      rw [mem_singleton.mp hput] at hsame
      exact hsame))
    refine ⟨?_, hadds.key_eq, hadds.content⟩
    rw [Table.get_insert, if_neg fun heq => hop (.inl heq)]
    exact h.record
  | blobDelete kappa =>
    simp only [CompressedStore.call, blobDelete, VersionStore.blobDelete, bind_eq_ok,
      pure_eq_ok] at hcall
    obtain ⟨objects, ⟨key', -, rfl⟩, rfl⟩ := hcall
    refine ⟨h.record, h.key_eq, ?_⟩
    exact (VersionStore.contentAt_withoutBlob _ key' key).trans (by rw [h.content, ite_self])

theorem Absent.step (h : s.Absent cfg key k) (op : CompressedOp) (hop : ¬ s.Ingests L cfg k op) :
    (s.step L cfg op).Absent cfg key k := by
  unfold CompressedStore.step
  cases hcall : s.call L cfg op with
  | error e => exact h
  | ok s' => exact h.call hop hcall

/-- None of the calls stores something under `k`. -/
def SparedRun (L : BlobLibs) (cfg : SessionConfig) (k : String) :
    CompressedStore → List CompressedOp → Prop
  | _, [] => True
  | s, op :: ops => ¬ s.Ingests L cfg k op ∧ SparedRun L cfg k (s.step L cfg op) ops

theorem absent_run (ops : List CompressedOp) (hops : SparedRun L cfg k s ops)
    (h : s.Absent cfg key k) : (s.run L cfg ops).Absent cfg key k := by
  induction ops generalizing s with
  | nil => exact h
  | cons op ops ih => exact ih hops.2 (h.step op hops.1)

/-- **Deleted blobs are gone**, until they are ingested again, exactly if they have no compression
record. -/
theorem gone_iff (L : BlobLibs) (cfg : SessionConfig)
    (decompress : Bytes → String → Except StoreError Bytes) {s s' : CompressedStore} {k : String}
    (hdelete : s.blobDelete cfg k = .ok s') :
    (∀ later, SparedRun L cfg k s' later → (s'.run L cfg later).Gone cfg decompress k) ↔
      s.compressionRecords[k]? = none := by
  simp only [CompressedStore.blobDelete, VersionStore.blobDelete, bind_eq_ok, pure_eq_ok] at hdelete
  obtain ⟨objects, ⟨key, hkey, rfl⟩, rfl⟩ := hdelete
  constructor
  · intro h
    cases hrecord : s.compressionRecords[k]? with
    | none => rfl
    | some record => exact nomatch (h [] trivial).1.symm.trans (blobExists_of_record hrecord)
  · intro hrecord later hlater
    refine (absent_run later hlater ⟨hrecord, hkey, ?_⟩).gone
    exact (VersionStore.contentAt_withoutBlob _ key key).trans (if_pos rfl)

theorem exists_blobDelete (s : CompressedStore) (cfg : SessionConfig) (label : KappaLabel) :
    ∃ objects, s.blobDelete cfg label.asStr = .ok { s with session := { s.session with objects } } := by
  obtain ⟨key, hkey⟩ := s.session.objects.exists_blobKey cfg.blobRoot label
  rw [CompressedStore.blobDelete, VersionStore.blobDelete, hkey]
  exact ⟨_, rfl⟩

/-- A place for blobs, and a label. -/
def smallConfig : SessionConfig := ⟨"/b", none⟩

def smallLabel : KappaLabel := Hashes.sample.label .sha256 [7]

/-- The store with the content of the label. -/
def smallStore : CompressedStore := new.step .sample smallConfig (.ingestVerified smallLabel.asStr [7])

theorem gone_iff_ingested : ∃ s', smallStore.session.blobGet smallConfig smallLabel.asStr = .ok [7] ∧
    smallStore.blobDelete smallConfig smallLabel.asStr = .ok s' ∧
    ∀ later, SparedRun .sample smallConfig smallLabel.asStr s' later →
      (s'.run .sample smallConfig later).Gone smallConfig (fun _ _ => .ok []) smallLabel.asStr := by
  obtain ⟨objects, h⟩ := exists_blobDelete smallStore smallConfig smallLabel
  exact ⟨_, by decide +kernel, h, (gone_iff .sample smallConfig _ h).mpr rfl⟩

/-- A blob that was ingested compressed is deleted, and still exists. -/
theorem deleted_exists : ∃ s s', new.ingestCompressed .sample smallConfig smallLabel.asStr [1] "zstd" 1 =
      .ok s ∧ s.blobDelete smallConfig smallLabel.asStr = .ok s' ∧
    s'.blobExists smallConfig smallLabel.asStr = .ok true := by
  obtain ⟨session, hput⟩ := SessionStore.exists_blobPut smallConfig new.session
    (BlobLibs.sample.hashes.label .sha256 [1]) [1]
  have hingest : new.ingestCompressed .sample smallConfig smallLabel.asStr [1] "zstd" 1 = .ok _ :=
    bind_eq_ok.mpr ⟨session, hput, rfl⟩
  obtain ⟨objects, hdelete⟩ := exists_blobDelete _ smallConfig smallLabel
  have hrecord := (Table.get_insert new.compressionRecords smallLabel.asStr smallLabel.asStr
    ⟨SessionStore.kappaFromBytes .sample [1], "zstd", 1⟩).trans (if_pos rfl)
  exact ⟨_, _, hingest, hdelete, blobExists_of_record hrecord⟩

end CompressedStore

end KappaRegistry
