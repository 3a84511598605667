import KappaRegistry.Crypto.Sample
import KappaRegistry.Store.ContentAddressing

/-!
# Uploads

`upload_complete` returns labels under which the bytes of the upload should be read back. Without a key
they are: the staging file holds the parts in order, whatever other operations run in between, and it is
moved under the first label and linked to the others. With a key the label that is returned first is the
one of the encrypted frames (`completeEncrypted`), and there is no binding record under it.

`uploadComplete_reads_back_iff`: the parts are read back exactly if the store has no key. With a key, a
blob that is read under the label of the frames would be as long as the frames, and these are longer than
the upload.
-/

namespace KappaRegistry

open Lib

namespace BlobStore

/-! ## An open upload -/

/-- The upload `id` is open in a store, and these parts were accepted in this order. -/
inductive OpenUpload (L : BlobLibs) (cfg : StoreConfig) (id : String) : BlobStore → List Bytes → Prop
  /-- The drawn UUID is a new one, there is no staging file for it. -/
  | begin (entropy : List Bytes) (ops : List BlobOp) (uuid : Uuid) (ns : String) (maxSize now : ℕ)
      (hnew : (runBlobOps L cfg ops (BlobStore.new [] entropy)).disk.file?
        (stagingLocation cfg (uuidText uuid)) = none)
      (hok : (uploadBegin cfg uuid ns maxSize now (runBlobOps L cfg ops (BlobStore.new [] entropy))).1
        = .ok id) :
      OpenUpload L cfg id
        (uploadBegin cfg uuid ns maxSize now (runBlobOps L cfg ops (BlobStore.new [] entropy))).2 []
  | part {s : BlobStore} {parts : List Bytes} (h : OpenUpload L cfg id s parts) (offset : ℕ)
      (data : Bytes) (now : ℕ) {total : ℕ}
      (hok : (uploadPutPart L cfg id offset data now s).1 = .ok total) :
      OpenUpload L cfg id (uploadPutPart L cfg id offset data now s).2 (parts ++ [data])
  /-- A part is refused, but the upload goes on. -/
  | refused {s : BlobStore} {parts : List Bytes} (h : OpenUpload L cfg id s parts) (offset : ℕ)
      (data : Bytes) (now : ℕ) {e : StoreError}
      (herror : (uploadPutPart L cfg id offset data now s).1 = .error e)
      (hopen : (uploadPutPart L cfg id offset data now s).2.uploadSessions[id]? ≠ none) :
      OpenUpload L cfg id (uploadPutPart L cfg id offset data now s).2 parts
  | other {s : BlobStore} {parts : List Bytes} (h : OpenUpload L cfg id s parts) (op : BlobOp)
      (hother : op.staging? cfg ≠ some (stagingLocation cfg id)) :
      OpenUpload L cfg id (op.run L cfg s) parts

section

variable {L : BlobLibs} {cfg : StoreConfig} {id : String} {s : BlobStore} {parts : List Bytes}

/-- **The staging file of an open upload holds its parts.** -/
theorem OpenUpload.ready (h : OpenUpload L cfg id s parts) : (∃ uuid, id = uuidText uuid) ∧
      Ready L cfg True ∅ (insert (stagingLocation cfg id, parts.flatten) ∅) s := by
  have hnone : ∀ {P : Location × Bytes → Prop}, ∀ g ∈ (∅ : Set (Location × Bytes)), P g :=
    fun g hg => hg.elim
  induction h with
  | begin entropy ops uuid ns maxSize now hnew hok =>
    have hready : Ready L cfg True ∅ ∅ (runBlobOps L cfg ops (BlobStore.new [] entropy)) :=
      ready_runBlobOps ops (ready_new [] entropy fun _ => rfl)
    obtain ⟨hid, hs⟩ := (uploadBegin_ready uuid ns maxSize now hnone none _ ⟨hnew, hready⟩).1 _ hok
    subst hid
    exact ⟨⟨uuid, rfl⟩, hs⟩
  | part h offset data now hok ih =>
    obtain ⟨huuid, ih⟩ := ih
    have hs := (uploadPutPart_appends id hnone offset _ data now _ ih).1 _ hok
    rw [List.flatten_append, List.flatten_singleton]
    exact ⟨huuid, hs⟩
  | refused h offset data now herror hopen ih =>
    obtain ⟨huuid, ih⟩ := ih
    rcases (uploadPutPart_appends id hnone offset _ data now _ ih).2 _ herror trivial with hgone | hs
    · exact absurd hgone hopen
    · exact ⟨huuid, hs⟩
  | other h op hother ih =>
    obtain ⟨⟨uuid, rfl⟩, ih⟩ := ih
    refine ⟨⟨uuid, rfl⟩, ready_run op ih ?_ ?_ ?_⟩
    · rintro g (rfl | hg)
      · exact steady_staging cfg uuid
      · exact hg.elim
    · rintro g (rfl | hg)
      · exact not_isBlobName_staging cfg uuid
      · exact hg.elim
    · rintro g (rfl | hg)
      · exact hother
      · exact hg.elim

/-! ## Reading back -/

variable {C : Set Bytes} {G : Set (Location × Bytes)} {sigma : String} {b : Bytes}

theorem readBlob_of_file {path : Location} (h : Ready L cfg True C G s)
    (hfile : s.disk.file? path = some b) :
    (readBlob sigma path s).1 = .ok b := by
  cases hread : (readBlob sigma path s).1 with
  | ok b' =>
    have hfile' := readBlob_file h hread
    rw [hfile] at hfile'
    cases hfile'
    rfl
  | error e =>
    cases hdisk : (Disk.readFile path s.disk).1 with
    | ok b' =>
      have hok : (readBlob sigma path s).1 = .ok b' := mapError_eq_ok.mpr hdisk
      simp [hok] at hread
    | error e' =>
      have hnone := ((Disk.readFile_spec s.disk h.1).2 e' hdisk).1 trivial
      simp [hfile] at hnone

variable {key : Aead}

theorem length_of_blobGet (hkey : cfg.encryptor = some key) (hget : (blobGet cfg sigma s).1 = .ok b) :
    ∃ record, s.bindingRecords[sigma]? = some record ∧ record.plaintextSize = b.length := by
  have hany : ∀ {α : Type} {m : BlobM α} {P : BlobStore → Prop},
      Action.Spec P m (fun _ _ => True) fun _ _ => True :=
    fun _ _ => ⟨fun _ _ => trivial, fun _ _ => trivial⟩
  have hspec : Action.Spec (fun s' => s' = s) (blobGet cfg sigma)
      (fun b _ => ∃ record, s.bindingRecords[sigma]? = some record ∧ record.plaintextSize = b.length)
      fun _ _ => True := by
    unfold blobGet
    rw [hkey]
    refine .bind_current ?_
    rintro s' rfl
    cases hrecord : s'.bindingRecords[sigma]? with
    | none => exact .fail fun _ _ => trivial
    | some record =>
      refine .bind hany fun path => .bind hany fun diskBytes => .lift ?_ fun _ _ _ _ => trivial
      intro b hb _ _
      exact ⟨record, rfl, (BlobEncryptor.length_of_decryptAll (mapError_eq_ok.mp hb)).symm⟩
  exact (hspec s rfl).1 b hget

theorem frames_not_read (hkey : cfg.encryptor = some key) (hlaw : key.Lawful)
    {frames content baseNonce : Bytes} (hframes : BlobEncryptor.encryptStreaming key sigma baseNonce content = .ok frames)
    (h : Ready L cfg True (insert frames C) G s) (hfree : L.hashes.CollisionFree s.hashed) :
    (blobGet cfg (L.hashes.label .sha256 frames).asStr s).1 ≠ .ok content := by
  intro hget
  obtain ⟨record, hrecord, hsize⟩ := length_of_blobGet hkey hget
  obtain ⟨p, hp, k, hk, hverifies, hlength⟩ := h.2.bound _ record hrecord
  obtain rfl := KappaLabel.asStr_inj hk
  -- the record belongs to content with the label of the frames, so to the frames
  have hsame : p = frames :=
    hfree p hp frames (h.2.labelled frames (Set.mem_insert _ _)) _ hverifies (verifies_sha256 frames)
  have hlonger := BlobEncryptor.length_encryptStreaming hlaw hframes
  rw [← hsize, hlength, hsame] at hlonger
  exact absurd hlonger (Nat.lt_irrefl _)

/-- **The parts of an upload are read back under every label that is returned for it, exactly if the
store has no key.** -/
theorem uploadComplete_reads_back_iff (hlaw : ∀ key, cfg.encryptor = some key → key.Lawful)
    (hopen : OpenUpload L cfg id s parts) (claimed : Option String) (now : ℕ) {r : IngestResult}
    (hok : (uploadComplete L cfg id claimed now s).1 = .ok r)
    (hfree : L.hashes.CollisionFree (uploadComplete L cfg id claimed now s).2.hashed) :
    (∀ k ∈ r.kappa :: r.additionalKappas,
      (blobGet cfg k.asStr (uploadComplete L cfg id claimed now s).2).1 = .ok parts.flatten) ↔
      cfg.encryptor = none := by
  have hnone : ∀ {P : Location × Bytes → Prop}, ∀ g ∈ (∅ : Set (Location × Bytes)), P g :=
    fun g hg => hg.elim
  obtain ⟨content, hknown, hstored⟩ := (uploadComplete_ready id (Set.empty_subset _) hnone hnone
    claimed now s hopen.ready.2).1 r hok
  obtain rfl := hknown _ (Set.mem_insert _ _)
  have hready := hstored.ready
  revert hready hstored hfree
  generalize (uploadComplete L cfg id claimed now s).2 = s'
  intro hfree hstored hready
  unfold Stored at hstored
  cases hkey : cfg.encryptor with
  | none =>
    rw [hkey] at hstored
    refine ⟨fun _ => rfl, ?_⟩
    intro _ k hk
    rw [blobGet_plain hkey]
    refine readBlob_of_file hready (hstored.2.pinned (k.location cfg.blobRoot, _) ?_ fun _ => hfree)
    exact .inr ⟨trivial, k, hk, rfl⟩
  | some key =>
    rw [hkey] at hstored
    obtain ⟨frames, ⟨sigma, baseNonce, hframes⟩, hkappa, hs⟩ := hstored
    refine ⟨?_, fun h => nomatch h⟩
    intro hread
    have hget := hread r.kappa List.mem_cons_self
    rw [hkappa] at hget
    exact absurd hget (frames_not_read hkey (hlaw key hkey) hframes hs hfree)

end

/-! ## Uploads of a concrete store -/

/-- A store where the upload of one part is open. -/
def sampleUpload (encryptor : Option Aead) : BlobStore :=
  (uploadPutPart .sample (.sample encryptor) (uuidText 5) 0 [7] 0
    (uploadBegin (.sample encryptor) 5 "n" 0 0 (BlobStore.new [] [[9]])).2).2

theorem openUpload_sample {encryptor : Option Aead}
    (hpart : (uploadPutPart .sample (.sample encryptor) (uuidText 5) 0 [7] 0
      (uploadBegin (.sample encryptor) 5 "n" 0 0 (BlobStore.new [] [[9]])).2).1 = .ok 1) :
    OpenUpload .sample (.sample encryptor) (uuidText 5) (sampleUpload encryptor) [[7]] :=
  .part (.begin [[9]] [] 5 "n" 0 0 rfl rfl) 0 [7] 0 hpart

/-- Without a key, the one part is read back. -/
theorem uploadComplete_reads_back_plain :
    let completed := uploadComplete .sample (.sample none) (uuidText 5) none 0 (sampleUpload none)
    ∃ r, completed.1 = .ok r ∧ ∀ k ∈ r.kappa :: r.additionalKappas,
      (blobGet (.sample none) k.asStr completed.2).1 = .ok [7] := by
  intro completed
  have hopen := @openUpload_sample none (by decide +kernel)
  have hrun : (completed.1.toOption.isSome, completed.2.hashed) = (true, [[7], [7], [7]]) := by
    decide +kernel
  obtain ⟨hsome, hhashed⟩ := Prod.mk.inj hrun
  obtain ⟨r, hr⟩ := Option.isSome_iff_exists.mp hsome
  have hok := toOption_eq_some.mp hr
  have hlaw : ∀ key, (StoreConfig.sample none).encryptor = some key → key.Lawful := nofun
  refine ⟨r, hok, (uploadComplete_reads_back_iff hlaw hopen none 0 hok ?_).mpr rfl⟩
  rw [hhashed]
  intro c hc c' hc' _ _ _
  simp only [List.mem_cons, List.not_mem_nil, or_false, or_self] at hc hc'
  rw [hc, hc']

/-- With a key, an upload that came with its BLAKE3 label is read under none of its two labels: there
is no record under the first, and the frames do not open under the second. -/
theorem uploadComplete_unreadable :
    Aead.sample.Lawful ∧
    OpenUpload .sample (.sample (some .sample)) (uuidText 5) (sampleUpload (some .sample)) [[7]] ∧
    let completed := uploadComplete .sample (.sample (some .sample)) (uuidText 5)
      (some (Hashes.sample.label .blake3 [7]).asStr) 0 (sampleUpload (some .sample))
    ∃ r s', completed = (.ok r, s') ∧
      Hashes.sample.CollisionFree s'.hashed ∧ r.additionalKappas.length = 1 ∧
      ∀ k ∈ r.kappa :: r.additionalKappas,
        (blobGet (.sample (some .sample)) k.asStr s').1.toOption = none := by
  refine ⟨Aead.lawful_sample, openUpload_sample (by decide +kernel), ?_⟩
  intro completed
  have hrun : (fun x : Except StoreError IngestResult × BlobStore =>
      (x.1.toOption.map fun r => (r.kappa :: r.additionalKappas).map fun k =>
        (blobGet (.sample (some .sample)) k.asStr x.2).1.toOption, x.2.hashed)) completed =
      (some [none, none],
        [[7], [138, 122, 106, 90, 74, 58, 42, 25, 9, 249, 233, 217, 201, 185, 168, 152, 7], [7]]) := by
    decide +kernel
  obtain ⟨outcome, s'⟩ := completed
  obtain ⟨hread, hhashed⟩ := Prod.mk.inj hrun
  obtain ⟨r, hr, hnone⟩ := Option.map_eq_some_iff.mp hread
  have hok : outcome = .ok r := toOption_eq_some.mp hr
  subst hok
  refine ⟨r, s', rfl, ?_, ?_, ?_⟩
  · dsimp only at hhashed
    rw [hhashed]
    refine Hashes.collisionFree_of_digest ?_
    intro c hc c' hc' axis
    revert c c'
    cases axis <;> decide
  · have hlength := congrArg List.length hnone
    simpa using hlength
  · intro k hk
    have hmem := List.mem_map_of_mem (f := fun k : KappaLabel =>
      (blobGet (.sample (some .sample)) k.asStr s').1.toOption) hk
    dsimp only at hnone
    rw [hnone] at hmem
    simpa using hmem

end BlobStore

end KappaRegistry
