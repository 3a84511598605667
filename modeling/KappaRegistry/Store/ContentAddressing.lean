import KappaRegistry.Store.BlobRules

/-!
# Content Addressing

Without a key, whatever `blob_get` returns for a label has that label, after any run of ingests,
uploads and deletions (`blobGet_verifies`). Calls of the file system may fail at any point of the
run, and an operation may stop in the middle. What is assumed is that no two of the byte strings
that were labelled in the run have a label in common.
-/

namespace KappaRegistry

open Lib

namespace BlobStore

/-! ## Runs -/

/-- An operation on blobs, with the time and the UUID it gets. -/
inductive BlobOp where
  | ingestVerified (claimed : String) (content : Bytes)
  | ingestCompute (axis : Axis) (content : Bytes)
  | uploadBegin (uuid : Uuid) (ns : String) (maxSize now : ℕ)
  | uploadPutPart (uploadId : String) (offset : ℕ) (data : Bytes) (now : ℕ)
  | uploadComplete (uploadId : String) (claimed : Option String) (now : ℕ)
  | blobDelete (sigma : String)

/-- The store after an operation, whatever its outcome is. -/
def BlobOp.run (L : BlobLibs) (cfg : StoreConfig) : BlobOp → BlobStore → BlobStore
  | .ingestVerified claimed content, s => (BlobStore.ingestVerified L cfg claimed content s).2
  | .ingestCompute axis content, s => (BlobStore.ingestCompute L cfg axis content s).2
  | .uploadBegin uuid ns maxSize now, s => (BlobStore.uploadBegin cfg uuid ns maxSize now s).2
  | .uploadPutPart uploadId offset data now, s =>
    (BlobStore.uploadPutPart L cfg uploadId offset data now s).2
  | .uploadComplete uploadId claimed now, s =>
    (BlobStore.uploadComplete L cfg uploadId claimed now s).2
  | .blobDelete sigma, s => (BlobStore.blobDelete cfg sigma s).2

/-- The store after some operations. -/
def runBlobOps (L : BlobLibs) (cfg : StoreConfig) (ops : List BlobOp) (s : BlobStore) : BlobStore :=
  ops.foldl (fun s op => op.run L cfg s) s

/-- The staging file that an operation may change. -/
def BlobOp.staging? (cfg : StoreConfig) : BlobOp → Option Location
  | .uploadBegin uuid _ _ _ => some (stagingLocation cfg (uuidText uuid))
  | .uploadPutPart uploadId _ _ _ => some (stagingLocation cfg uploadId)
  | .uploadComplete uploadId _ _ => some (stagingLocation cfg uploadId)
  | _ => none

section

variable {L : BlobLibs} {cfg : StoreConfig} {quiet : Prop} {C : Set Bytes} {G : Set (Location × Bytes)}

theorem state_of_spec {α : Type} {m : BlobM α} {P R : BlobStore → Prop}
    (h : Action.Spec P m (fun _ => R) fun _ => R) {s : BlobStore} (hs : P s) : R (m s).2 := by
  obtain ⟨hok, herror⟩ := h s hs
  cases houtcome : (m s).1 with
  | ok a => exact hok a houtcome
  | error e => exact herror e houtcome

/-- **Every operation keeps the invariant, and the pins on staging files it does not handle.** -/
theorem ready_run (op : BlobOp) {s : BlobStore} (h : Ready L cfg quiet C G s)
    (hsteady : ∀ g ∈ G, Steady g.1) (hblob : ∀ g ∈ G, ¬ IsBlobName g.1)
    (hother : ∀ g ∈ G, op.staging? cfg ≠ some g.1) : Ready L cfg quiet C G (op.run L cfg s) := by
  have hne : ∀ {p}, op.staging? cfg = some p → ∀ g ∈ G, g.1 ≠ p := by
    intro p hp g hg heq
    exact hother g hg (hp.trans (congrArg some heq.symm))
  cases op with
  | ingestVerified claimed content => exact state_of_spec (ingestVerified_ready hsteady claimed content) h
  | ingestCompute axis content => exact state_of_spec (ingestCompute_ready hsteady axis content) h
  | uploadBegin uuid ns maxSize now =>
    refine state_of_spec ((uploadBegin_ready uuid ns maxSize now (hne rfl) _).post ?_ fun _ _ hs => hs)
      ⟨rfl, h⟩
    rintro _ s' ⟨-, hs'⟩
    exact hs'.mono subset_rfl (Set.subset_insert _ _)
  | uploadPutPart uploadId offset data now =>
    exact state_of_spec (uploadPutPart_ready uploadId (hne rfl) offset data now) h
  | uploadComplete uploadId claimed now =>
    refine state_of_spec ((uploadComplete_ready uploadId subset_rfl (hne rfl) hsteady claimed now).post
      ?_ fun _ _ hs => hs) h
    rintro r s' ⟨content, -, hs'⟩
    exact hs'.ready
  | blobDelete sigma => exact state_of_spec (blobDelete_ready hblob sigma) h

theorem ready_runBlobOps (ops : List BlobOp) {s : BlobStore} (h : Ready L cfg quiet C ∅ s) :
    Ready L cfg quiet C ∅ (runBlobOps L cfg ops s) := by
  have hnone : ∀ {P : Location × Bytes → Prop}, ∀ g ∈ (∅ : Set (Location × Bytes)), P g :=
    fun g hg => hg.elim
  induction ops generalizing s with
  | nil => exact h
  | cons op ops ih => exact ih (ready_run op h hnone hnone hnone)

theorem blobGet_plain (hkey : cfg.encryptor = none) (k : KappaLabel) (s : BlobStore) :
    blobGet cfg k.asStr s = readBlob k.asStr (k.location cfg.blobRoot) s := by
  unfold blobGet
  rw [hkey, blobLocation_asStr]
  rfl

theorem readBlob_file {sigma : String} {path : Location} {s : BlobStore} {b : Bytes}
    (h : Ready L cfg quiet C G s) (hread : (readBlob sigma path s).1 = .ok b) :
    s.disk.file? path = some b := by
  have hdisk : (Disk.readFile path s.disk).1 = .ok b := mapError_eq_ok.mp hread
  exact ((Disk.readFile_spec s.disk h.1).1 b hdisk).1

/-- **Content addressing.** Without a key, a blob that is returned for a label has that label. -/
theorem blobGet_verifies (hkey : cfg.encryptor = none) (faults : List (Option ℕ))
    (entropy : List Bytes) (ops : List BlobOp) {k : String} {label : KappaLabel} {b : Bytes}
    (hk : KappaLabel.parse k = .ok label)
    (hfree : L.hashes.CollisionFree (runBlobOps L cfg ops (BlobStore.new faults entropy)).hashed)
    (hget : (blobGet cfg k (runBlobOps L cfg ops (BlobStore.new faults entropy))).1 = .ok b) :
    L.hashes.verifyKappa k b = .ok true := by
  obtain rfl := KappaLabel.parse_eq_ok.mp hk
  have hready : Ready L cfg False ∅ ∅ (runBlobOps L cfg ops (BlobStore.new faults entropy)) :=
    ready_runBlobOps ops (ready_new faults entropy False.elim)
  rw [blobGet_plain hkey] at hget
  have hfile := readBlob_file hready hget
  exact Hashes.verifyKappa_eq_true.mpr (hready.2.verified hfree label b hfile).2

end

/-! ## A store for concrete runs -/

end BlobStore

/-- Digests that are the content itself, cut or filled up to their length. -/
def Hashes.sample : Hashes where
  digest axis content := (content ++ List.replicate axis.digestBytes 0).take axis.digestBytes
  sha1Collision _ := false
  length_digest := by simp

/-- Libraries that write everything as the same byte, so that runs stay small. -/
def BlobLibs.sample : BlobLibs where
  hashes := .sample
  md5 _ := [7]
  crc32c _ := 7
  crc64nvme _ := 7
  serde := ⟨fun _ => none, fun _ => [7]⟩
  edgeBytes _ := [7]

def StoreConfig.sample (encryptor : Option Aead) : StoreConfig where
  blobRoot := "/b"
  stagingRoot := "/s"
  fsync := true
  encryptor
  uploadTimeoutSecs := none

namespace BlobStore

/-- Content that came with its BLAKE3 label is read under its SHA-256 label. -/
theorem blobGet_verifies_link :
    (blobGet (.sample none) (Hashes.sample.label .sha256 [7]).asStr
      (runBlobOps .sample (.sample none) [.ingestCompute .blake3 [7]] (BlobStore.new [] []))).1 = .ok [7] ∧
    Hashes.sample.verifyKappa (Hashes.sample.label .sha256 [7]).asStr [7] = .ok true := by
  have hrun : (fun s => ((blobGet (.sample none) (Hashes.sample.label .sha256 [7]).asStr s).1, s.hashed))
      (runBlobOps .sample (.sample none) [.ingestCompute .blake3 [7]] (BlobStore.new [] [])) =
        (.ok [7], [[7]]) := by
    decide +kernel
  obtain ⟨hget, hhashed⟩ := Prod.mk.inj hrun
  refine ⟨hget, blobGet_verifies rfl [] [] [.ingestCompute .blake3 [7]] (KappaLabel.parse_eq_ok.mpr rfl)
    ?_ hget⟩
  rw [hhashed]
  intro c hc c' hc' _ _ _
  rw [List.mem_singleton.mp hc, List.mem_singleton.mp hc']

end BlobStore

end KappaRegistry
