import KappaRegistry.Store.BlobInvariant

/-!
# Rules for the Operations on Blobs

Each operation keeps the invariant `Ready`, with all pins on files that it does not handle itself.
The steps that put a file under a label are what matters. Its content was hashed before
(`placeBlob`, `moveBlob`), or it is a second name for a file with a verified content (`linkBlob`).

An upload keeps one more fact, what its staging file holds. The parts that were accepted are added
to it (`uploadPutPart_appends`), and in the end the file is hashed and moved as it is
(`uploadComplete_ready`); with a key it is encrypted first, and `Stored` says what is known then.
-/

namespace KappaRegistry

open Lib Function Disk Set

namespace BlobStore

section

variable {L : BlobLibs} {cfg : StoreConfig} {quiet : Prop} {C : Set Bytes} {G : Set (Location × Bytes)}

/-! ## Placing, moving and linking -/

/-- The files of some labels, all with the same content. -/
def filesOf (cfg : StoreConfig) (labels : List KappaLabel) (c : Bytes) : Set (Location × Bytes) :=
  {g | ∃ k ∈ labels, g = (k.location cfg.blobRoot, c)}

theorem blobLocation_asStr (k : KappaLabel) :
    blobLocation cfg k.asStr = .ok (k.location cfg.blobRoot) := by
  obtain ⟨path, hpath, hlocation⟩ := k.blobPathFor_asStr cfg.blobRoot
  rw [blobLocation, hpath, ← hlocation]
  rfl

variable {path : Location}

theorem isBlobName_of_blobLocation {sigma : String}
    (h : blobLocation cfg sigma = .ok path) : IsBlobName path := by
  obtain ⟨text, htext, rfl⟩ := map_eq_ok.mp h
  obtain ⟨algo, hex, hsplit, -, hdigits, -⟩ := blobPathFor_eq_ok.mp htext
  rw [normalise_blobPathFor htext hsplit]
  exact ⟨hex, Location.fileName_descend _ rfl, hdigits⟩

theorem lift_ready {α : Type} {x : Except StoreError α} :
    Action.Spec (Ready L cfg quiet C G) (Action.lift x)
      (fun a s => x = .ok a ∧ Ready L cfg quiet C G s) fun _ => Ready L cfg quiet C G :=
  .lift (fun _ ha _ hs => ⟨ha, hs⟩) fun _ _ _ hs => hs

theorem blobLocation_ready (k : KappaLabel) {E : StoreError → BlobStore → Prop} :
    Action.Spec (Ready L cfg quiet C G) (Action.lift (blobLocation cfg k.asStr))
      (fun path s => path = k.location cfg.blobRoot ∧ Ready L cfg quiet C G s) E := by
  rw [blobLocation_asStr]
  refine .lift ?_ fun _ he => (nomatch he)
  intro path hpath s hs
  exact ⟨(Except.ok.inj hpath).symm, hs⟩

variable {k : KappaLabel} {c : Bytes}

theorem placeBlob_ready (hG : ∀ g ∈ G, Steady g.1) (hc : c ∈ C) (hk : L.hashes.Verifies k c) :
    Action.Spec (Ready L cfg quiet C G) (placeBlob cfg (k.location cfg.blobRoot) c)
      (fun _ => Ready L cfg quiet C (insert (k.location cfg.blobRoot, c) G))
      fun _ => Ready L cfg quiet C G := by
  have htmp := not_isBlobName_withExtension (k.fileName_location cfg.blobRoot) "tmp"
  have hfresh : ∀ g ∈ G, g.1 ≠ (k.location cfg.blobRoot).withExtension "tmp" := by
    intro g hg heq
    exact not_steady_withExtension (k.fileName_location cfg.blobRoot) "tmp" (heq ▸ hG g hg)
  refine .bind (existsAt_ready hc hk) ?_
  intro found
  refine .ite ?_ ?_
  · intro hfound
    rw [hfound]
    exact .pure fun _ hs => hs
  · intro hfound
    rw [Bool.not_eq_true] at hfound
    rw [hfound]
    refine .bind settle_ready fun _ => .bind (createFile_ready htmp hfresh) fun _ => ?_
    refine .bind ((append_ready htmp hfresh c).errors fun _ _ hs => hs.2) ?_
    intro _
    have hrename : Action.Spec (Ready L cfg quiet C
          (insert ((k.location cfg.blobRoot).withExtension "tmp", [] ++ c) G))
        (onDisk (rename ((k.location cfg.blobRoot).withExtension "tmp") (k.location cfg.blobRoot))
          >>= fun _ => pure true)
        (fun _ => Ready L cfg quiet C (insert (k.location cfg.blobRoot, c) G))
        fun _ => Ready L cfg quiet C G :=
      .bind (rename_ready htmp hfresh hc hk) fun _ => .pure fun _ hs => hs
    refine .ite (c := cfg.fsync = true) ?_ fun _ => hrename
    intro _
    exact .bind (settle_ready.errors fun _ _ hs => hs.unpin) fun _ => hrename

theorem moveBlob_ready {source : Location} (hsource : ¬ IsBlobName source)
    (hG : ∀ g ∈ G, g.1 ≠ source) (hc : c ∈ C) (hk : L.hashes.Verifies k c) :
    Action.Spec (Ready L cfg quiet C (insert (source, c) G))
      (moveBlob source (k.location cfg.blobRoot))
      (fun _ => Ready L cfg quiet C (insert (k.location cfg.blobRoot, c) G))
      fun _ => Ready L cfg quiet C G := by
  have hne : k.location cfg.blobRoot ≠ source := by
    intro heq
    exact hsource (heq ▸ k.isBlobName cfg.blobRoot)
  refine .bind ((existsAt_ready hc hk).errors fun _ _ hs => hs.unpin) ?_
  intro found
  refine .ite ?_ ?_
  · intro hfound
    rw [hfound]
    -- the staged copy is not needed
    have hremove : Action.Spec (Ready L cfg quiet C (insert (k.location cfg.blobRoot, c) G))
        (onDisk (removeFile source)) (fun _ => Ready L cfg quiet C (insert (k.location cfg.blobRoot, c) G))
        fun _ => Ready L cfg quiet C (insert (k.location cfg.blobRoot, c) G) := by
      refine removeFile_ready ?_
      rintro g (rfl | hg)
      · exact hne
      · exact hG g hg
    refine .bind (hremove.pre ?_).ignored fun _ => .pure fun _ hs => hs
    intro s hs
    exact hs.mono subset_rfl (insert_subset_insert (subset_insert _ G))
  · intro hfound
    rw [Bool.not_eq_true] at hfound
    rw [hfound]
    refine .bind (settle_ready.errors fun _ _ hs => hs.unpin) fun _ => ?_
    exact .bind (rename_ready hsource hG hc hk) fun _ => .pure fun _ hs => hs

variable {s : BlobStore}

theorem Good.link {f : Location → Option Bytes} (h : Good L cfg C G f s)
    {k k' : KappaLabel} (hpin : (k.location cfg.blobRoot, c) ∈ G) (hc : c ∈ C)
    (hk : L.hashes.Verifies k' c) {o : Option Bytes} (ho : o = f (k'.location cfg.blobRoot) ∨
      f (k'.location cfg.blobRoot) = none ∧ o = f (k.location cfg.blobRoot))
    (hquiet : quiet → (f (k.location cfg.blobRoot)).isSome = true → o.isSome = true) :
    Good L cfg C (G ∪ {g | quiet ∧ g = (k'.location cfg.blobRoot, c)})
      (update f (k'.location cfg.blobRoot) o) s := by
  have hprimary : L.hashes.CollisionFree s.hashed → f (k.location cfg.blobRoot) = some c :=
    fun hfree => h.pinned _ hpin fun _ => hfree
  cases o with
  | some bytes =>
    have hbytes : L.hashes.CollisionFree s.hashed → bytes = c := by
      intro hfree
      rcases ho with ho | ⟨-, ho⟩
      · obtain ⟨hmem, hverifies⟩ := h.verified hfree k' bytes ho.symm
        exact hfree bytes hmem c (h.labelled c hc) k' hverifies hk
      · rw [hprimary hfree] at ho
        exact Option.some.inj ho
    refine (h.place (h.labelled c hc) hk hbytes).mono subset_rfl ?_
    rintro g (hg | ⟨-, rfl⟩)
    · exact .inr hg
    · exact .inl rfl
  | none =>
    have hnone : f (k'.location cfg.blobRoot) = none := by
      rcases ho with ho | ⟨ho, -⟩
      · exact ho.symm
      · exact ho
    rw [← hnone, update_eq_self]
    refine ⟨h.labelled, ?_, h.verified, h.bound, h.sessions⟩
    rintro g (hg | ⟨hq, rfl⟩) hfree
    · exact h.pinned g hg hfree
    · have hsome := hquiet hq (by rw [hprimary (hfree (k'.isBlobName cfg.blobRoot))]; rfl)
      cases hsome

/-- The store is `b`, with the files `f`. -/
def OnlyFiles (quiet : Prop) (b : BlobStore) (f : Location → Option Bytes) (s : BlobStore) : Prop :=
  ∃ d : Disk Location, d.Shows IsBlobName quiet f ∧ s = { b with disk := d }

section

variable {b : BlobStore} {f : Location → Option Bytes} {p q : Location}
  {E : StoreError → BlobStore → Prop}

theorem existsAt_only : Action.Spec (OnlyFiles quiet b f) (onDisk (existsAt p))
    (fun found s => ((found = true → (f p).isSome = true) ∧ (quiet → found = (f p).isSome)) ∧
      OnlyFiles quiet b f s) E := by
  refine (onDisk_at b existsAt_spec).post ?_ ?_
  · rintro found s ⟨d, ⟨hfound, hd⟩, rfl⟩
    exact ⟨hfound, d, hd, rfl⟩
  · rintro _ s ⟨_, _, hfalse, -⟩
    exact hfalse.elim

theorem settle_only : Action.Spec (OnlyFiles quiet b f) (onDisk settle)
    (fun _ => OnlyFiles quiet b f) fun _ => OnlyFiles quiet b f := by
  refine (onDisk_at b settle_spec).post ?_ ?_
  · rintro _ s ⟨d, hd, rfl⟩
    exact ⟨d, hd, rfl⟩
  · rintro _ s ⟨_, d, ⟨-, hd⟩, rfl⟩
    exact ⟨d, hd, rfl⟩

theorem hardLink_only (hp : IsBlobName p) (hq : IsBlobName q) :
    Action.Spec (OnlyFiles quiet b f) (onDisk (hardLink p q))
      (fun _ s => f q = none ∧ ∃ bytes, f p = some bytes ∧
        OnlyFiles quiet b (update f q (some bytes)) s)
      fun _ s => (quiet → f p = none ∨ (f q).isSome = true) ∧ OnlyFiles quiet b f s := by
  refine (onDisk_at b (hardLink_spec hp hq)).post ?_ ?_
  · rintro _ s ⟨d, ⟨hnone, bytes, hbytes, hd⟩, rfl⟩
    exact ⟨hnone, bytes, hbytes, d, hd, rfl⟩
  · rintro _ s ⟨_, d, ⟨hcase, hd⟩, rfl⟩
    exact ⟨hcase, d, hd, rfl⟩

end

theorem linkBlob_ready {k k' : KappaLabel} (hpin : (k.location cfg.blobRoot, c) ∈ G)
    (hc : c ∈ C) (hk : L.hashes.Verifies k' c) : Action.Spec (Ready L cfg quiet C G)
      (linkBlob (k.location cfg.blobRoot) (k'.location cfg.blobRoot))
      (fun _ => Ready L cfg quiet C (G ∪ {g | quiet ∧ g = (k'.location cfg.blobRoot, c)}))
      fun _ => Ready L cfg quiet C G := by
  refine .of_forall ?_
  rintro b ⟨hshows, hgood⟩
  generalize hf : b.disk.file? = f at hshows hgood
  -- whatever the calls do, in the end the second file is as it was or as the first
  have hdone : ∀ {o s}, (o = f (k'.location cfg.blobRoot) ∨
        f (k'.location cfg.blobRoot) = none ∧ o = f (k.location cfg.blobRoot)) →
      (quiet → (f (k.location cfg.blobRoot)).isSome = true → o.isSome = true) →
      OnlyFiles quiet b (update f (k'.location cfg.blobRoot) o) s →
      Ready L cfg quiet C (G ∪ {g | quiet ∧ g = (k'.location cfg.blobRoot, c)}) s := by
    rintro o s ho hquiet ⟨d, hd, rfl⟩
    exact ready_of_shows hd (hgood.link hpin hc hk ho hquiet)
  have hsame : ∀ {s}, OnlyFiles quiet b f s → OnlyFiles quiet b
      (update f (k'.location cfg.blobRoot) (f (k'.location cfg.blobRoot))) s := by
    intro s hs
    rwa [update_eq_self]
  refine .pre (P := OnlyFiles quiet b f) (.bind existsAt_only ?_) ?_
  rotate_left
  · rintro s rfl
    exact ⟨s.disk, hshows, rfl⟩
  intro found
  refine .of_fact ?_
  rintro ⟨hfound, hexact⟩
  refine .ite ?_ ?_
  · intro htrue
    exact .pure fun s hs => hdone (.inl rfl) (fun _ _ => hfound htrue) (hsame hs)
  · intro hfalse
    refine .bind settle_only.ignored fun _ => ?_
    refine .ignore (hardLink_only (k.isBlobName _) (k'.isBlobName _)) ?_ ?_
    · rintro _ s ⟨hnone, bytes, hbytes, hs⟩
      exact hdone (.inr ⟨hnone, hbytes.symm⟩) (fun _ _ => rfl) hs
    · rintro _ s ⟨hcase, hs⟩
      refine hdone (.inl rfl) ?_ (hsame hs)
      intro hquiet hsome
      rcases hcase hquiet with hnone | hthere
      · simp [hnone] at hsome
      · exact hthere

/-! ## Ingest and delete -/

theorem verifies_sha256 (c : Bytes) : L.hashes.Verifies (L.hashes.label .sha256 c) c := by
  have hother : Axis.sha256 ≠ .sha1 := by decide
  exact Hashes.verifies_of_compute (Hashes.compute_eq_ok.mpr ⟨fun h => hother h.1, rfl⟩)

variable {v : VerifiedContent L.hashes}

theorem blobPutImpl_plain (hkey : cfg.encryptor = none) (hG : ∀ g ∈ G, Steady g.1)
    (hv : v.content ∈ C) : Action.Spec (Ready L cfg quiet C G) (blobPutImpl L cfg v)
      (fun _ => Ready L cfg quiet C (insert (v.label.location cfg.blobRoot, v.content) G))
      fun _ => Ready L cfg quiet C G := by
  unfold blobPutImpl
  rw [hkey]
  refine .bind (blobLocation_ready v.label) fun path => .of_fact ?_
  rintro rfl
  exact placeBlob_ready hG hv v.verified

variable {key : Aead}

theorem blobPutImpl_encrypted (hkey : cfg.encryptor = some key)
    (hG : ∀ g ∈ G, Steady g.1) (hv : v.content ∈ C) :
    Keeps L cfg quiet C G (blobPutImpl L cfg v) := by
  unfold blobPutImpl
  rw [hkey]
  refine .bind drawNonce_ready fun baseNonce => .bind lift_ready fun diskBytes => .of_fact fun _ => ?_
  refine .bind (hashing_ready diskBytes) fun _ => ?_
  refine .bind (blobLocation_ready (L.hashes.label .sha256 diskBytes)) fun path => .of_fact ?_
  rintro rfl
  refine .bind ((placeBlob_ready hG (mem_insert diskBytes C) (verifies_sha256 diskBytes)).errors
    fun _ _ hs => hs.forget) fun newlyPlaced => ?_
  have hlabels : ∀ k ∈ [v.label], L.hashes.Verifies k v.content := by simpa using v.verified
  refine .pre (.bind (bindAll_ready hv rfl hlabels) fun _ => .pure fun _ hs => hs) ?_
  intro s hs
  exact hs.mono (subset_insert _ _) (subset_insert _ _)

variable {primary : KappaLabel} {content : Bytes}

section

variable (hG : ∀ g ∈ G, Steady g.1) (hc : content ∈ C)
  (hpin : cfg.encryptor = none → (primary.location cfg.blobRoot, content) ∈ G)
include hG hc hpin

theorem storeUnder_ready (axis : Axis) :
    Keeps L cfg quiet C G (storeUnder L cfg primary content axis) := by
  refine .bind lift_ready fun additional => .of_fact fun hadditional => ?_
  obtain ⟨hcontent, -⟩ := VerifiedContent.content_of_compute (mapError_eq_ok.mp hadditional)
  cases hkey : cfg.encryptor with
  | some key =>
    exact .bind (blobPutImpl_encrypted hkey hG (hcontent ▸ hc)) fun _ => .pure fun _ hs => hs
  | none =>
    refine .bind (blobLocation_ready primary) fun path => .of_fact ?_
    rintro rfl
    refine .bind (blobLocation_ready additional.label) fun path => .of_fact ?_
    rintro rfl
    have hk : L.hashes.Verifies additional.label content := hcontent ▸ additional.verified
    refine .bind (linkBlob_ready (hpin hkey) hc hk) fun _ => .pure ?_
    intro s hs
    exact hs.mono subset_rfl subset_union_left

theorem storeUnderAll_ready (axes : List Axis) :
    Keeps L cfg quiet C G (storeUnderAll L cfg primary content axes) := by
  induction axes with
  | nil => exact .pure fun _ hs => hs
  | cons axis axes ih =>
    refine .ite (fun _ => ih) fun _ => ?_
    exact .bind (storeUnder_ready hG hc hpin axis) fun _ => .bind ih fun _ => .pure fun _ hs => hs

end

theorem steady_location (k : KappaLabel) : Steady (k.location cfg.blobRoot) :=
  steady_of_isBlobName (k.isBlobName cfg.blobRoot)

section

variable (hG : ∀ g ∈ G, Steady g.1)
include hG

theorem ingest_ready (hv : v.content ∈ C) :
    Keeps L cfg quiet C G (ingest L cfg v) := by
  cases hkey : cfg.encryptor with
  | some key =>
    have hpin : cfg.encryptor = none → (v.label.location cfg.blobRoot, v.content) ∈ G := by
      rw [hkey]
      intro h
      cases h
    exact .bind (blobPutImpl_encrypted hkey hG hv) fun _ =>
      .bind (storeUnderAll_ready hG hv hpin mandatoryAxes) fun _ => .pure fun _ hs => hs
  | none =>
    have hsteady : ∀ g ∈ insert (v.label.location cfg.blobRoot, v.content) G, Steady g.1 := by
      rintro g (rfl | hg)
      · exact steady_location v.label
      · exact hG g hg
    refine .bind (blobPutImpl_plain hkey hG hv) fun _ => .bind
      ((storeUnderAll_ready hsteady hv (fun _ => mem_insert _ _) mandatoryAxes).errors
        fun _ _ hs => hs.unpin) fun _ => .pure fun _ hs => hs.unpin

theorem ingestVerified_ready (claimed : String) (content : Bytes) :
    Keeps L cfg quiet C G (ingestVerified L cfg claimed content) := by
  refine .bind lift_ready fun v => .of_fact fun hv => .bind (hashing_ready content) fun _ => ?_
  have hcontent := VerifiedContent.content_of_verify (mapError_eq_ok.mp hv)
  have hmem : v.content ∈ insert content C := .inl hcontent
  exact (ingest_ready hG hmem).post
    (fun _ _ hs => hs.forget)
    fun _ _ hs => hs.forget

theorem ingestCompute_ready (axis : Axis) (content : Bytes) :
    Keeps L cfg quiet C G (ingestCompute L cfg axis content) := by
  refine .bind lift_ready fun v => .of_fact fun hv => .bind (hashing_ready content) fun _ => ?_
  have hcontent := (VerifiedContent.content_of_compute (mapError_eq_ok.mp hv)).1
  have hmem : v.content ∈ insert content C := .inl hcontent
  exact (ingest_ready hG hmem).post
    (fun _ _ hs => hs.forget)
    fun _ _ hs => hs.forget

end

theorem removeBlob_ready (hG : ∀ g ∈ G, g.1 ≠ path) : Keeps L cfg quiet C G (removeBlob path) := by
  have hremove : Keeps L cfg quiet C G (onDisk (removeFile path).attempt) := by
    refine onDiskWith_spec ?_
    intro b hb
    refine .post (E := fun _ _ => False) removeFile_spec.attempt ?_ fun _ _ h => h.elim
    intro outcome d hd
    cases outcome with
    | ok u => exact ready_of_shows (hd.1 u rfl) (hb.remove hG)
    | error e => exact ready_of_shows (hd.2 e rfl).2 hb
  refine .bind hremove fun outcome => ?_
  match outcome with
  | .ok () => exact .pure fun _ hs => hs
  | .error .notFound => exact .pure fun _ hs => hs
  | .error .alreadyExists => exact .fail fun _ hs => hs
  | .error .failed => exact .fail fun _ hs => hs

theorem eraseRecord_ready (sigma : String) : Keeps L cfg quiet C G (Action.update fun s => { s with bindingRecords := s.bindingRecords.erase sigma } : BlobM Unit) := by
  refine .update ?_
  rintro s ⟨hshows, hgood⟩
  refine ⟨hshows, hgood.labelled, hgood.pinned, hgood.verified, ?_, hgood.sessions⟩
  intro sigma' record hrecord
  exact hgood.bound sigma' record (Table.of_get_erase hrecord)

theorem blobDelete_ready (hG : ∀ g ∈ G, ¬ IsBlobName g.1) (sigma : String) :
    Keeps L cfg quiet C G (blobDelete cfg sigma) := by
  have hremove : ∀ {label path}, blobLocation cfg label = .ok path →
      Keeps L cfg quiet C G (removeBlob path) := by
    intro label path hpath
    refine removeBlob_ready ?_
    intro g hg heq
    exact hG g hg (heq ▸ isBlobName_of_blobLocation hpath)
  unfold blobDelete
  cases cfg.encryptor with
  | none => exact .bind lift_ready fun path => .of_fact fun hpath => hremove hpath
  | some key =>
    refine .bind_current ?_
    intro s hs
    cases s.bindingRecords[sigma]? with
    | none =>
      refine .pure ?_
      rintro s' rfl
      exact hs
    | some record =>
      refine .pre (P := Ready L cfg quiet C G) ?_ fun s' hs' => hs' ▸ hs
      exact .bind (eraseRecord_ready sigma) fun _ =>
        .bind lift_ready fun path => .of_fact fun hpath => hremove hpath

/-! ## Uploads -/

variable {p : Location}

theorem openFile_ready (hp : ¬ IsBlobName p) (hG : ∀ g ∈ G, g.1 ≠ p) (o : Option Bytes) :
    Action.Spec (fun s => s.disk.file? p = o ∧ Ready L cfg quiet C G s) (onDisk (openFile p))
      (fun _ => Ready L cfg quiet C (insert (p, o.getD []) G)) fun _ => Ready L cfg quiet C G := by
  refine .within ?_
  rintro b ⟨ho, hshows, hgood⟩
  refine .mono (P := Disk.Shows IsBlobName quiet b.disk.file?) openFile_spec ?_ ?_ ?_
  · rintro d rfl
    exact hshows
  · intro _ d hd
    rw [ho] at hd
    refine ready_of_shows hd ((hgood.write hp hG (some (o.getD []))).mono subset_rfl ?_)
    rintro g (rfl | hg)
    · exact .inr ⟨rfl, rfl⟩
    · exact .inl hg
  · intro _ d hd
    exact ready_of_shows hd.2 hgood

theorem uploadBegin_ready (uuid : Uuid) (ns : String) (maxSize now : ℕ)
    (hG : ∀ g ∈ G, g.1 ≠ stagingLocation cfg (uuidText uuid)) (o : Option Bytes) :
    Action.Spec (fun s => s.disk.file? (stagingLocation cfg (uuidText uuid)) = o ∧
        Ready L cfg quiet C G s) (uploadBegin cfg uuid ns maxSize now)
      (fun id s => id = uuidText uuid ∧
        Ready L cfg quiet C (insert (stagingLocation cfg (uuidText uuid), o.getD []) G) s)
      fun _ => Ready L cfg quiet C G := by
  unfold uploadBegin
  dsimp only
  rw [normalise_staging cfg uuid]
  refine .bind (openFile_ready (not_isBlobName_staging cfg uuid) hG o) fun _ => ?_
  exact .bind (putSession_ready rfl rfl) fun _ => .pure fun s hs => ⟨rfl, hs⟩

theorem findSession_ready (id : String) : Action.Spec (Ready L cfg quiet C G) (findSession id)
    (fun session s => (∃ uuid, id = uuidText uuid ∧ session.stagingPath = stagingLocation cfg id) ∧
      Ready L cfg quiet C G s) fun _ s => s.uploadSessions[id]? = none ∧ Ready L cfg quiet C G s := by
  refine .bind_current ?_
  intro s hs
  cases hsession : s.uploadSessions[id]? with
  | none =>
    refine .fail ?_
    rintro s' rfl
    exact ⟨hsession, hs⟩
  | some session =>
    refine .pure ?_
    rintro s' rfl
    exact ⟨hs.2.sessions id session hsession, hs⟩

variable {session : DiskUploadSession}

theorem failExpired_ready {α : Type} {Q : α → BlobStore → Prop}
    (hG : ∀ g ∈ G, g.1 ≠ session.stagingPath) (id : String) :
    Action.Spec (Ready L cfg quiet C G) (failExpired id session) Q fun _ => Ready L cfg quiet C G :=
  .bind (removeFile_ready hG).ignored fun _ => .fail fun _ hs => hs

theorem append_unpinned (hp : ¬ IsBlobName p) (hG : ∀ g ∈ G, g.1 ≠ p) (bytes : Bytes) :
    Keeps L cfg quiet C G (onDisk (Disk.append p bytes)) := by
  refine onDiskWith_spec ?_
  intro b hb
  have hwrite : ∀ o, Good L cfg C G (update b.disk.file? p o) b :=
    fun o => (hb.write hp hG o).mono subset_rfl subset_union_left
  refine (append_spec hp bytes).post ?_ ?_
  · rintro _ d ⟨old, -, hd⟩
    exact ready_of_shows hd (hwrite _)
  · rintro _ d ⟨-, o, -, hd⟩
    exact ready_of_shows hd (hwrite o)

section

variable (id : String) (hG : ∀ g ∈ G, g.1 ≠ stagingLocation cfg id) (offset : ℕ)
include hG

theorem uploadPutPart_ready
    (data : Bytes) (now : ℕ) : Keeps L cfg quiet C G (uploadPutPart L cfg id offset data now) := by
  refine .bind ((findSession_ready id).errors fun _ _ hs => hs.2) fun session => .of_fact ?_
  rintro ⟨uuid, rfl, hpath⟩
  have hG' : ∀ g ∈ G, g.1 ≠ session.stagingPath := by rwa [hpath]
  have hstaging : ¬ IsBlobName session.stagingPath := by
    rw [hpath]
    exact not_isBlobName_staging cfg uuid
  refine .ite (fun _ => .bind (dropSession_ready _) fun _ => failExpired_ready hG' _) fun _ => ?_
  refine .ite (fun _ => .fail fun _ hs => hs) fun _ => ?_
  refine .ite (fun _ => .fail fun _ hs => hs) fun _ => ?_
  exact .bind (append_unpinned hstaging hG' data) fun _ =>
    .bind (putSession_ready rfl hpath) fun _ => .pure fun _ hs => hs

/-- A part that is accepted is added to the staging file. -/
theorem uploadPutPart_appends (old data : Bytes) (now : ℕ) :
    Action.Spec (Ready L cfg quiet C (insert (stagingLocation cfg id, old) G))
      (uploadPutPart L cfg id offset data now)
      (fun _ => Ready L cfg quiet C (insert (stagingLocation cfg id, old ++ data) G))
      fun _ s => quiet → s.uploadSessions[id]? = none ∨
        Ready L cfg quiet C (insert (stagingLocation cfg id, old) G) s := by
  refine .bind ((findSession_ready id).errors fun _ _ hs _ => .inl hs.1) fun session => .of_fact ?_
  rintro ⟨uuid, rfl, hpath⟩
  have hstaging := not_isBlobName_staging cfg uuid
  refine .ite (fun _ => ?_) fun _ => ?_
  · -- the session is dropped, whatever happens to its file
    refine .bind (Q := fun _ s => s.uploadSessions[uuidText uuid]? = none) (.update ?_) fun _ => ?_
    · intro s _
      rw [Table.get_erase, if_pos rfl]
    · refine .bind (Q := fun _ s => s.uploadSessions[uuidText uuid]? = none) ?_ fun _ =>
        .fail fun _ hs _ => .inl hs
      exact (onDisk_keeps _ fun _ _ hs => hs).ignored
  · refine .ite (fun _ => .fail fun _ hs _ => .inr hs) fun _ => ?_
    refine .ite (fun _ => .fail fun _ hs _ => .inr hs) fun _ => ?_
    rw [hpath]
    refine .bind ((append_ready hstaging hG data).errors fun _ _ hs hquiet => absurd hquiet hs.1) fun _ => ?_
    exact .bind (putSession_ready rfl rfl) fun _ => .pure fun _ hs => hs

end

theorem Ready.pin_unique (h : Ready L cfg quiet C G s) {c' : Bytes}
    (hp : ¬ IsBlobName p) (hc : (p, c) ∈ G) (hc' : (p, c') ∈ G) : c = c' := by
  have hfile := h.2.pinned (p, c) hc fun hblob => absurd hblob hp
  have hfile' := h.2.pinned (p, c') hc' fun hblob => absurd hblob hp
  exact Option.some.inj (hfile.symm.trans hfile')

theorem openBlob_ready : Keeps L cfg quiet C G (openBlob p) :=
  .bind readFile_ready fun _ => .pure fun _ hs => hs.2.unpin

/-- A file that is pinned is read as it is pinned. -/
theorem readFile_pinned {g : FsError → StoreError} (hp : ¬ IsBlobName p) (hc : (p, c) ∈ G) :
    Action.Spec (Ready L cfg quiet C G) (onDiskWith g (readFile p))
      (fun bytes s => bytes = c ∧ Ready L cfg quiet C G s) fun _ => Ready L cfg quiet C G :=
  readFile_ready.post (fun _ _ hs => ⟨hs.2.pin_unique hp (mem_insert _ _) (.inr hc), hs.2.unpin⟩)
    fun _ _ hs => hs

variable {G₀ : Set (Location × Bytes)}

/-- The labels that are computed for an upload are labels of what is in its staging file. `G₀` may
know what that is. -/
theorem verifyUpload_ready (hstaging : ¬ IsBlobName session.stagingPath) (hsub : G ⊆ G₀)
    (hG : ∀ g ∈ G, g.1 ≠ session.stagingPath) (claimed : Option String) :
    Action.Spec (Ready L cfg quiet C G₀) (verifyUpload L session claimed)
      (fun proof s => ∃ content, ((∀ c, (session.stagingPath, c) ∈ G₀ → c = content) ∧
          ∀ k ∈ proof.primary :: proof.additional, L.hashes.Verifies k content) ∧
        Ready L cfg quiet (insert content C) (insert (session.stagingPath, content) G) s)
      fun _ => Ready L cfg quiet C G := by
  have hdrop : ∀ s, Ready L cfg quiet C G₀ s → Ready L cfg quiet C G s :=
    fun s hs => hs.mono subset_rfl hsub
  refine .bind (openBlob_ready.errors fun _ s hs => hdrop s hs) fun _ => ?_
  refine .bind (readFile_ready.errors fun _ s hs => hdrop s hs) fun content => ?_
  -- what was known about the file is what is read now
  refine .pre (P := fun s => (∀ c, (session.stagingPath, c) ∈ G₀ → c = content) ∧
    Ready L cfg quiet C (insert (session.stagingPath, content) G) s) (.of_fact fun hknown => ?_) ?_
  rotate_left
  · rintro s ⟨-, hs⟩
    refine ⟨?_, hs.mono subset_rfl (insert_subset_insert hsub)⟩
    intro c hc
    exact hs.pin_unique hstaging (.inr hc) (mem_insert _ _)
  refine .bind (lift_ready.errors fun _ _ hs => hs.unpin) fun proof => .of_fact fun hproof => ?_
  have hverifies := Hashes.streamingComputeMulti_verifies (mapError_eq_ok.mp hproof)
  refine .bind (hashing_ready content) fun _ => ?_
  cases claimed with
  | none => exact .pure fun s hs => ⟨content, ⟨hknown, hverifies⟩, hs⟩
  | some claimed =>
    refine .ite (fun _ => ?_) fun _ => .pure fun s hs => ⟨content, ⟨hknown, hverifies⟩, hs⟩
    refine .pre (P := Ready L cfg quiet C G) ?_ fun s hs =>
      hs.mono (subset_insert _ _) (subset_insert _ _)
    exact .bind (removeFile_ready hG).ignored fun _ => .fail fun _ hs => hs

theorem linkAll_ready (hc : c ∈ C) {labels : List KappaLabel}
    (hlabels : ∀ k' ∈ labels, L.hashes.Verifies k' c) {G : Set (Location × Bytes)}
    (hpin : (k.location cfg.blobRoot, c) ∈ G) :
    Action.Spec (Ready L cfg quiet C G) (linkAll cfg (k.location cfg.blobRoot) labels)
      (fun _ => Ready L cfg quiet C (G ∪ {g | quiet ∧ g ∈ filesOf cfg labels c}))
      fun _ => Ready L cfg quiet C G := by
  induction labels generalizing G with
  | nil =>
    refine .pure fun s hs => hs.mono subset_rfl ?_
    rintro g (hg | ⟨-, k', hk', -⟩)
    · exact hg
    · cases hk'
  | cons k' labels ih =>
    refine .bind (blobLocation_ready k') fun path => .of_fact ?_
    rintro rfl
    refine .bind (linkBlob_ready hpin hc (hlabels k' List.mem_cons_self)) fun _ => ?_
    refine (ih (fun k'' h => hlabels k'' (List.mem_cons_of_mem _ h)) (.inl hpin)).post ?_ ?_
    · intro _ s hs
      refine hs.mono subset_rfl ?_
      rintro g (hg | ⟨hquiet, k'', hk'', rfl⟩)
      · exact .inl (.inl hg)
      · rcases List.mem_cons.mp hk'' with rfl | hk''
        · exact .inl (.inr ⟨hquiet, rfl⟩)
        · exact .inr ⟨hquiet, k'', hk'', rfl⟩
    · intro _ s hs
      exact hs.mono subset_rfl subset_union_left

variable {proof : StreamingVerificationProof}

theorem completePlain_ready (hstaging : ¬ IsBlobName session.stagingPath)
    (hG : ∀ g ∈ G, g.1 ≠ session.stagingPath) (hc : content ∈ C)
    (hproof : ∀ k ∈ proof.primary :: proof.additional, L.hashes.Verifies k content) :
    Action.Spec (Ready L cfg quiet C (insert (session.stagingPath, content) G))
      (completePlain cfg session proof) (fun r => Ready L cfg quiet C
        (G ∪ {g | quiet ∧ g ∈ filesOf cfg (r.kappa :: r.additionalKappas) content}))
      fun _ => Ready L cfg quiet C G := by
  refine .bind (blobLocation_ready proof.primary) fun path => .of_fact ?_
  rintro rfl
  refine .bind (moveBlob_ready hstaging hG hc (hproof _ List.mem_cons_self)) fun newlyStored => ?_
  refine .bind ((linkAll_ready hc (fun k hk => hproof k (List.mem_cons_of_mem _ hk))
    (mem_insert _ _)).errors fun _ s hs => hs.unpin) fun _ => .pure ?_
  intro s hs
  refine hs.mono subset_rfl ?_
  rintro g (hg | ⟨hquiet, k, hk, rfl⟩)
  · exact .inl (.inr hg)
  · rcases List.mem_cons.mp hk with rfl | hk
    · exact .inl (.inl rfl)
    · exact .inr ⟨hquiet, k, hk, rfl⟩

theorem completeEncrypted_ready {id : String}
    (hname : session.stagingPath.fileName = some id) (hstaging : ¬ IsBlobName session.stagingPath)
    (hsteady : Steady session.stagingPath) (hG : ∀ g ∈ G, g.1 ≠ session.stagingPath)
    (hG' : ∀ g ∈ G, Steady g.1) (hc : content ∈ C)
    (hproof : ∀ k ∈ proof.primary :: proof.additional, L.hashes.Verifies k content) :
    Action.Spec (Ready L cfg quiet C (insert (session.stagingPath, content) G))
      (completeEncrypted L cfg key session proof)
      (fun r s => ∃ frames, (∃ baseNonce, BlobEncryptor.encryptStreaming key proof.primary.asStr
          baseNonce content = .ok frames) ∧ r.kappa = L.hashes.label .sha256 frames ∧
        Ready L cfg quiet (insert frames C) G s)
      fun _ => Ready L cfg quiet C G := by
  have hct : ¬ IsBlobName (session.stagingPath.withExtension "ct.tmp") :=
    not_isBlobName_withExtension hname "ct.tmp"
  have hscratch : ¬ Steady (session.stagingPath.withExtension "ct.tmp") :=
    not_steady_withExtension hname "ct.tmp"
  have hfresh : ∀ g ∈ insert (session.stagingPath, content) G,
      g.1 ≠ session.stagingPath.withExtension "ct.tmp" := by
    rintro g (rfl | hg) heq
    · exact hscratch (heq ▸ hsteady)
    · exact hscratch (heq ▸ hG' g hg)
  have hfresh' : ∀ g ∈ G, g.1 ≠ session.stagingPath.withExtension "ct.tmp" :=
    fun g hg => hfresh g (.inr hg)
  refine .bind (openBlob_ready.errors fun _ _ hs => hs.unpin) fun _ => ?_
  refine .bind ((createFile_ready hct hfresh).errors fun _ _ hs => hs.unpin) fun _ => ?_
  refine .bind (drawNonce_ready.errors fun _ _ hs => hs.unpin.unpin) fun baseNonce => ?_
  refine .bind ((readFile_pinned hstaging (.inr (mem_insert _ _))).errors
    fun _ _ hs => hs.unpin.unpin) fun content' => .of_fact ?_
  rintro rfl
  refine .bind (lift_ready.errors fun _ _ hs => hs.unpin.unpin) fun frames => .of_fact fun hframes => ?_
  refine .bind ((append_ready hct hfresh frames).errors fun _ _ hs => hs.2.unpin) fun _ => ?_
  -- the staging file is not needed any more
  refine .pre (P := Ready L cfg quiet C (insert (session.stagingPath.withExtension "ct.tmp", frames) G)) ?_
    fun s hs => hs.mono subset_rfl (insert_subset_insert (subset_insert _ _))
  refine .bind (openBlob_ready.errors fun _ _ hs => hs.unpin) fun _ => ?_
  refine .bind ((readFile_pinned hct (mem_insert _ _)).errors fun _ _ hs => hs.unpin)
    fun diskBytes => .of_fact ?_
  rintro rfl
  refine .bind (hashing_ready diskBytes) fun _ => ?_
  refine .bind (blobLocation_ready (L.hashes.label .sha256 diskBytes)) fun path => .of_fact ?_
  rintro rfl
  refine .bind ((moveBlob_ready hct hfresh' (mem_insert _ _) (verifies_sha256 diskBytes)).errors
    fun _ s hs => hs.forget) fun newlyStored => ?_
  refine .pre (P := Ready L cfg quiet (insert diskBytes C) G) ?_
    fun s hs => hs.unpin
  refine .bind (bindAll_ready (.inr hc) rfl hproof) fun _ => ?_
  refine .bind (removeFile_ready hG).ignored fun _ => .pure ?_
  intro s hs
  exact ⟨diskBytes, ⟨baseNonce, mapError_eq_ok.mp hframes⟩, rfl, hs⟩

theorem persistPartManifest_ready (hG : ∀ g ∈ G, Steady g.1) (objectKappa : KappaLabel)
    (parts : List PartDigests) :
    Keeps L cfg quiet C G (persistPartManifest L cfg objectKappa parts) := by
  refine .ite (fun _ => .pure fun _ hs => hs) fun _ => ?_
  refine .bind (ingestCompute_ready hG _ _).attempt fun outcome => ?_
  cases outcome with
  | error e => exact .pure fun _ hs => hs.2 e rfl
  | ok manifest =>
    refine .pre (P := Ready L cfg quiet C G) ?_ fun _ hs => hs.1 manifest rfl
    exact (ingestCompute_ready hG _ _).ignored

/-- What a finished upload of some content leaves behind. -/
def Stored (L : BlobLibs) (cfg : StoreConfig) (quiet : Prop) (C : Set Bytes)
    (G : Set (Location × Bytes)) (content : Bytes) (r : IngestResult) (s : BlobStore) : Prop :=
  match cfg.encryptor with
  | none =>
    Ready L cfg quiet C (G ∪ {g | quiet ∧ g ∈ filesOf cfg (r.kappa :: r.additionalKappas) content}) s
  | some key => ∃ frames, (∃ sigma baseNonce, BlobEncryptor.encryptStreaming key sigma baseNonce content
      = .ok frames) ∧ r.kappa = L.hashes.label .sha256 frames ∧ Ready L cfg quiet (insert frames C) G s

theorem Stored.ready {r : IngestResult}
    (h : Stored L cfg quiet C G content r s) : Ready L cfg quiet C G s := by
  unfold Stored at h
  cases hkey : cfg.encryptor with
  | none =>
    rw [hkey] at h
    exact h.mono subset_rfl subset_union_left
  | some key =>
    rw [hkey] at h
    obtain ⟨frames, -, -, hs⟩ := h
    exact hs.forget

theorem uploadComplete_ready (id : String) (hsub : G ⊆ G₀)
    (hG : ∀ g ∈ G, g.1 ≠ stagingLocation cfg id) (hG' : ∀ g ∈ G, Steady g.1)
    (claimed : Option String) (now : ℕ) :
    Action.Spec (Ready L cfg quiet C G₀) (uploadComplete L cfg id claimed now)
      (fun r s => ∃ content, (∀ c, (stagingLocation cfg id, c) ∈ G₀ → c = content) ∧
        Stored L cfg quiet C G content r s)
      fun _ => Ready L cfg quiet C G := by
  have hdrop : ∀ s, Ready L cfg quiet C G₀ s → Ready L cfg quiet C G s :=
    fun s hs => hs.mono subset_rfl hsub
  refine .bind ((findSession_ready id).errors fun _ s hs => hdrop s hs.2) fun session => .of_fact ?_
  rintro ⟨uuid, rfl, hpath⟩
  rw [← hpath] at hG
  have hstaging : ¬ IsBlobName session.stagingPath := hpath ▸ not_isBlobName_staging cfg uuid
  have hsteady : Steady session.stagingPath := hpath ▸ steady_staging cfg uuid
  have hname : session.stagingPath.fileName = some (uuidText uuid) := hpath ▸ fileName_staging cfg _
  refine .bind (dropSession_ready _) fun _ => .ite (fun _ => ?_) fun _ => ?_
  · exact (failExpired_ready hG _).pre hdrop
  refine .bind (verifyUpload_ready hstaging hsub hG claimed) fun proof => .of_exists fun content => ?_
  refine .of_fact ?_
  rintro ⟨hknown, hproof⟩
  rw [hpath] at hknown
  have hforget : ∀ s, Ready L cfg quiet (insert content C) G s → Ready L cfg quiet C G s :=
    fun s hs => hs.forget
  unfold Stored
  cases hkey : cfg.encryptor with
  | none =>
    refine .bind ((completePlain_ready hstaging hG (mem_insert _ _) hproof).errors
      fun _ s hs => hforget s hs) fun r => ?_
    have hpins : ∀ g ∈ G ∪ {g | quiet ∧ g ∈ filesOf cfg (r.kappa :: r.additionalKappas) content},
        Steady g.1 := by
      rintro g (hg | ⟨-, k, -, rfl⟩)
      · exact hG' g hg
      · exact steady_location k
    refine .bind ((persistPartManifest_ready hpins r.kappa _).errors
      fun _ s hs => hforget s (hs.mono subset_rfl subset_union_left)) fun _ => .pure ?_
    intro s hs
    exact ⟨content, hknown, hs.forget⟩
  | some key =>
    refine .bind ((completeEncrypted_ready hname hstaging hsteady hG hG' (mem_insert _ _)
      hproof).errors fun _ s hs => hforget s hs) fun r => .of_exists fun frames => ?_
    refine .pre (P := fun s => ((∃ baseNonce, BlobEncryptor.encryptStreaming key proof.primary.asStr
      baseNonce content = .ok frames) ∧ r.kappa = L.hashes.label .sha256 frames) ∧
        Ready L cfg quiet (insert frames C) G s) (.of_fact ?_) ?_
    rotate_left
    · rintro s ⟨hframes, hkappa, hs⟩
      exact ⟨⟨hframes, hkappa⟩, hs.mono (insert_subset_insert (subset_insert _ _)) subset_rfl⟩
    rintro ⟨⟨baseNonce, hframes⟩, hkappa⟩
    refine .bind ((persistPartManifest_ready hG' r.kappa _).errors
      fun _ s hs => hs.forget) fun _ => .pure ?_
    intro s hs
    exact ⟨content, hknown, frames, ⟨proof.primary.asStr, baseNonce, hframes⟩, hkappa, hs⟩

end

end BlobStore

end KappaRegistry
