import KappaRegistry.Store.Blobs

/-!
# What the Operations on Blobs Keep

The invariant of the store (`Ready`): without a key, the file of a label holds content that has this
label (`verified`), as long as no two byte strings that were labelled collide. With a key, a binding
record under a label belongs to content with that label (`bound`).

`Ready` also carries a set of pins: files that are known to be there with known bytes. A rule for an
operation says which pins it keeps and which it adds, so that facts about single files travel along
the steps of a program. Names with a dot belong to scratch files, which come and go; no pin is on one
of them.
-/

namespace KappaRegistry

open Lib List Function Disk

namespace BlobStore

/-! ## Names of files -/

/-- The file is no scratch file. -/
def Steady (l : Location) : Prop := ∀ name, l.fileName = some name → '.' ∉ name.toList

variable {l : Location}

theorem steady_of_isBlobName (h : IsBlobName l) : Steady l := by
  intro name hname hdot
  obtain ⟨name', hname', hall⟩ := h
  rw [hname] at hname'
  cases hname'
  have hdigit := all_eq_true.mp hall '.' hdot
  revert hdigit
  decide

theorem not_steady_withExtension {name : String} (h : l.fileName = some name)
    (extension : String) : ¬ Steady (l.withExtension extension) := by
  intro hsteady
  refine hsteady _ (Location.fileName_withExtension h extension) ?_
  simp

variable {uuid : Uuid}

theorem isLowerHex_of_mem_hex {c : Char} (h : c ∈ uuid.hex.toList) : isLowerHex c = true := by
  simp only [Uuid.hex, String.toList_ofList, mem_map] at h
  obtain ⟨i, -, rfl⟩ := h
  have hdigit : ∀ n : Fin 16, isLowerHex ("0123456789abcdef".toList.getD n '0') = true := by decide
  exact hdigit ⟨_, Nat.mod_lt _ (by decide)⟩

theorem of_mem_uuidText {c : Char} (h : c ∈ (uuidText uuid).toList) :
    isLowerHex c = true ∨ c = '-' := by
  simp only [uuidText, String.toList_ofList, mem_append, mem_cons] at h
  have htake : ∀ i n, c ∈ (uuid.hex.toList.drop i).take n → isLowerHex c = true := by
    intro i n hmem
    exact isLowerHex_of_mem_hex (mem_of_mem_drop (mem_of_mem_take hmem))
  rcases h with h | h | h | h | h | h | h | h | h
  · exact .inl (htake 0 8 h)
  · exact .inr h
  · exact .inl (htake 8 4 h)
  · exact .inr h
  · exact .inl (htake 12 4 h)
  · exact .inr h
  · exact .inl (htake 16 4 h)
  · exact .inr h
  · exact .inl (isLowerHex_of_mem_hex (mem_of_mem_drop h))

theorem hyphen_mem_uuidText (uuid : Uuid) : '-' ∈ (uuidText uuid).toList := by
  simp [uuidText]

variable (cfg : StoreConfig)

def stagingLocation (id : String) : Location :=
  (normalise cfg.stagingRoot).descend [id]

theorem normalise_staging (uuid : Uuid) :
    normalise (pathJoin cfg.stagingRoot (uuidText uuid)) = stagingLocation cfg (uuidText uuid) := by
  have hplain : ∀ c, isLowerHex c = false → c ≠ '-' → c ∉ (uuidText uuid).toList := by
    intro c hc hne hmem
    rcases of_mem_uuidText hmem with h | h
    · simp [hc] at h
    · exact hne h
  have hhyphen := hyphen_mem_uuidText uuid
  refine normalise_pathJoin_name _ (hplain '/' (by decide) (by decide)) ⟨?_, ?_, ?_⟩
  · intro heq
    rw [heq] at hhyphen
    simp at hhyphen
  · intro heq
    rw [heq] at hhyphen
    simp at hhyphen
  · intro heq
    rw [heq] at hhyphen
    simp at hhyphen

theorem fileName_staging (id : String) : (stagingLocation cfg id).fileName = some id :=
  Location.fileName_descend _ rfl

theorem steady_staging (uuid : Uuid) : Steady (stagingLocation cfg (uuidText uuid)) := by
  intro name hname hdot
  rw [fileName_staging] at hname
  cases hname
  rcases of_mem_uuidText hdot with h | h
  · revert h
    decide
  · revert h
    decide

theorem not_isBlobName_staging (uuid : Uuid) : ¬ IsBlobName (stagingLocation cfg (uuidText uuid)) :=
  not_isBlobName (fileName_staging cfg _) (hyphen_mem_uuidText uuid) (by decide)

/-! ## The invariant -/

section

variable (L : BlobLibs) (cfg : StoreConfig) (quiet : Prop)

/-- The invariant for a store with the files `f`: the contents in `C` were labelled, and the files
of `G` are there. -/
structure Good (C : Set Bytes) (G : Set (Location × Bytes)) (f : Location → Option Bytes)
    (s : BlobStore) : Prop where
  labelled : ∀ c ∈ C, c ∈ s.hashed
  pinned : ∀ p ∈ G, (IsBlobName p.1 → L.hashes.CollisionFree s.hashed) → f p.1 = some p.2
  verified : L.hashes.CollisionFree s.hashed → ∀ k c,
    f (KappaLabel.location cfg.blobRoot k) = some c → c ∈ s.hashed ∧ L.hashes.Verifies k c
  bound : ∀ sigma record, s.bindingRecords[sigma]? = some record →
    ∃ p ∈ s.hashed, ∃ k, k.asStr = sigma ∧ L.hashes.Verifies k p ∧ record.plaintextSize = p.length
  sessions : ∀ id session, s.uploadSessions[id]? = some session →
    ∃ uuid, id = uuidText uuid ∧ session.stagingPath = stagingLocation cfg id

/-- The invariant of a store. If `quiet`, no call of the file system will fail. -/
def Ready (C : Set Bytes) (G : Set (Location × Bytes)) (s : BlobStore) : Prop :=
  Disk.Shows IsBlobName quiet s.disk.file? s.disk ∧ Good L cfg C G s.disk.file? s

/-- The action keeps the invariant, whether it fails or not. -/
abbrev Keeps (C : Set Bytes) (G : Set (Location × Bytes)) {α : Type} (m : BlobM α) : Prop :=
  Action.Keeps (Ready L cfg quiet C G) m

variable {L cfg quiet} {C C' : Set Bytes} {G G' : Set (Location × Bytes)}
  {f : Location → Option Bytes} {s : BlobStore}

theorem Good.mono (h : Good L cfg C G f s) (hC : C' ⊆ C) (hG : G' ⊆ G) : Good L cfg C' G' f s where
  labelled := fun c hc => h.labelled c (hC hc)
  pinned := fun p hp => h.pinned p (hG hp)
  verified := h.verified
  bound := h.bound
  sessions := h.sessions

theorem Ready.mono (h : Ready L cfg quiet C G s) (hC : C' ⊆ C) (hG : G' ⊆ G) :
    Ready L cfg quiet C' G' s :=
  ⟨h.1, h.2.mono hC hG⟩

theorem Ready.unpin {p : Location × Bytes} (h : Ready L cfg quiet C (insert p G) s) :
    Ready L cfg quiet C G s :=
  h.mono subset_rfl (Set.subset_insert p G)

theorem Ready.forget {c : Bytes} (h : Ready L cfg quiet (insert c C) G s) : Ready L cfg quiet C G s :=
  h.mono (Set.subset_insert c C) subset_rfl

theorem ready_new (faults : List (Option ℕ)) (entropy : List Bytes) (hquiet : quiet → faults = []) :
    Ready L cfg quiet ∅ ∅ (BlobStore.new faults entropy) := by
  refine ⟨⟨ok_empty faults, rfl, hquiet⟩, nofun, nofun, nofun, ?_, ?_⟩
  · intro sigma record hrecord
    simp [BlobStore.new] at hrecord
  · intro id session hsession
    simp [BlobStore.new] at hsession

variable {p : Location}

theorem Good.write (h : Good L cfg C G f s) (hp : ¬ IsBlobName p)
    (hG : ∀ g ∈ G, g.1 ≠ p) (o : Option Bytes) :
    Good L cfg C (G ∪ {g | g.1 = p ∧ o = some g.2}) (update f p o) s where
  labelled := h.labelled
  pinned := by
    intro g hg hfree
    rcases hg with hg | ⟨hg, ho⟩
    · rw [update_of_ne (hG g hg)]
      exact h.pinned g hg hfree
    · rw [hg, update_self, ho]
  verified := by
    intro hfree k c hfile
    have hne : k.location cfg.blobRoot ≠ p := by
      intro heq
      exact hp (heq ▸ k.isBlobName cfg.blobRoot)
    rw [update_of_ne hne] at hfile
    exact h.verified hfree k c hfile
  bound := h.bound
  sessions := h.sessions

variable {k : KappaLabel} {c : Bytes}

theorem Good.place (h : Good L cfg C G f s) (hc : c ∈ s.hashed)
    (hk : L.hashes.Verifies k c) {bytes : Bytes}
    (hbytes : L.hashes.CollisionFree s.hashed → bytes = c) :
    Good L cfg C (insert (k.location cfg.blobRoot, c) G)
      (update f (k.location cfg.blobRoot) (some bytes)) s where
  labelled := h.labelled
  pinned := by
    intro g hg hfree
    rcases hg with rfl | hg
    · rw [update_self, hbytes (hfree (k.isBlobName cfg.blobRoot))]
    · by_cases heq : g.1 = k.location cfg.blobRoot
      · have hnone : L.hashes.CollisionFree s.hashed := hfree (heq ▸ k.isBlobName cfg.blobRoot)
        have hold := h.pinned g hg hfree
        rw [heq] at hold
        obtain ⟨hmem, hverifies⟩ := h.verified hnone k g.2 hold
        rw [heq, update_self, hbytes hnone]
        exact congrArg some (hnone c hc g.2 hmem k hk hverifies)
      · rw [update_of_ne heq]
        exact h.pinned g hg hfree
  verified := by
    intro hfree k' c' hfile
    by_cases heq : k'.location cfg.blobRoot = k.location cfg.blobRoot
    · obtain rfl := KappaLabel.location_inj heq
      rw [update_self, hbytes hfree] at hfile
      cases hfile
      exact ⟨hc, hk⟩
    · rw [update_of_ne heq] at hfile
      exact h.verified hfree k' c' hfile
  bound := h.bound
  sessions := h.sessions

theorem Good.remove (h : Good L cfg C G f s) (hG : ∀ g ∈ G, g.1 ≠ p) :
    Good L cfg C G (update f p none) s where
  labelled := h.labelled
  pinned := by
    intro g hg hfree
    rw [update_of_ne (hG g hg)]
    exact h.pinned g hg hfree
  verified := by
    intro hfree k c hfile
    by_cases heq : k.location cfg.blobRoot = p
    · simp [heq, update_self] at hfile
    · rw [update_of_ne heq] at hfile
      exact h.verified hfree k c hfile
  bound := h.bound
  sessions := h.sessions

/-! ## Rules for single steps -/

variable {α : Type} {g : FsError → StoreError}

/-- A call of the file system that keeps the invariant, whatever the rest of the store is. -/
theorem onDiskWith_spec {m : Action (Disk Location) FsError α} {Q : α → BlobStore → Prop}
    {E : StoreError → BlobStore → Prop}
    (h : ∀ b : BlobStore, Good L cfg C G b.disk.file? b →
      Action.Spec (Disk.Shows IsBlobName quiet b.disk.file?) m
        (fun a d => Q a { b with disk := d }) fun e d => E (g e) { b with disk := d }) :
    Action.Spec (Ready L cfg quiet C G) (onDiskWith g m) Q E := by
  refine .within ?_
  intro b hb
  refine (h b hb.2).pre ?_
  intro d hd
  rw [hd]
  exact hb.1

theorem onDisk_at {m : Action (Disk Location) FsError α} {P : Disk Location → Prop}
    {Q : α → Disk Location → Prop} {E : FsError → Disk Location → Prop} (b : BlobStore)
    (h : Action.Spec P m Q E) :
    Action.Spec (fun s => ∃ d, P d ∧ s = { b with disk := d }) (onDisk m)
      (fun a s => ∃ d, Q a d ∧ s = { b with disk := d })
      fun _ s => ∃ e d, E e d ∧ s = { b with disk := d } :=
  @Action.Spec.within_at _ _ _ _ _ _ _ _ _ disk (fun d s => { s with disk := d }) _ b
    (fun _ => rfl) (fun _ _ => rfl) h

theorem onDisk_keeps {P : BlobStore → Prop} (m : Action (Disk Location) FsError α)
    (hP : ∀ s d, P s → P { s with disk := d }) :
    Action.Spec P (onDisk m) (fun _ => P) fun _ => P :=
  fun s hs => ⟨fun _ _ => hP s _ hs, fun _ _ => hP s _ hs⟩

theorem ready_of_shows {b : BlobStore} {d : Disk Location} (hd : d.Shows IsBlobName quiet f)
    (h : Good L cfg C G f b) : Ready L cfg quiet C G { b with disk := d } := by
  obtain ⟨hok, hfile, hquiet⟩ := hd
  subst hfile
  exact ⟨⟨hok, rfl, hquiet⟩, h.labelled, h.pinned, h.verified, h.bound, h.sessions⟩

theorem settle_ready : Keeps L cfg quiet C G (onDisk settle) := by
  refine onDiskWith_spec ?_
  intro b hb
  refine settle_spec.post ?_ ?_
  · intro _ d hd
    exact ready_of_shows hd hb
  · intro _ d hd
    exact ready_of_shows hd.2 hb

theorem readFile_ready : Action.Spec (Ready L cfg quiet C G) (onDiskWith g (readFile p))
      (fun bytes s => s.disk.file? p = some bytes ∧ Ready L cfg quiet C (insert (p, bytes) G) s)
      fun _ => Ready L cfg quiet C G := by
  refine onDiskWith_spec ?_
  intro b hb
  refine readFile_spec.post ?_ ?_
  · intro bytes d hd
    refine ⟨(congrFun hd.2.2.1 p).trans hd.1, ready_of_shows hd.2 ?_⟩
    refine ⟨hb.labelled, ?_, hb.verified, hb.bound, hb.sessions⟩
    intro q hq hfree
    rcases hq with rfl | hq
    · exact hd.1
    · exact hb.pinned q hq hfree
  · intro _ d hd
    exact ready_of_shows hd.2 hb

theorem createFile_ready (hp : ¬ IsBlobName p) (hG : ∀ g ∈ G, g.1 ≠ p) :
    Action.Spec (Ready L cfg quiet C G) (onDisk (createFile p))
      (fun _ => Ready L cfg quiet C (insert (p, []) G)) fun _ => Ready L cfg quiet C G := by
  refine onDiskWith_spec ?_
  intro b hb
  refine (createFile_spec hp).post ?_ ?_
  · intro _ d hd
    refine ready_of_shows hd ((hb.write hp hG (some [])).mono subset_rfl ?_)
    rintro g (rfl | hg)
    · exact .inr ⟨rfl, rfl⟩
    · exact .inl hg
  · intro _ d hd
    exact ready_of_shows hd.2 hb

theorem append_ready {old : Bytes} (hp : ¬ IsBlobName p) (hG : ∀ g ∈ G, g.1 ≠ p) (bytes : Bytes) :
    Action.Spec (Ready L cfg quiet C (insert (p, old) G)) (onDiskWith g (Disk.append p bytes))
      (fun _ => Ready L cfg quiet C (insert (p, old ++ bytes) G))
      fun _ s => ¬ quiet ∧ Ready L cfg quiet C G s := by
  refine onDiskWith_spec ?_
  intro b hb
  have hold : b.disk.file? p = some old :=
    hb.pinned (p, old) (Set.mem_insert _ _) fun h => absurd h hp
  have hgood := hb.mono subset_rfl (Set.subset_insert (p, old) G)
  refine (append_spec hp bytes).post ?_ ?_
  · rintro _ d ⟨old', hold', hshows⟩
    rw [hold] at hold'
    cases hold'
    refine ready_of_shows hshows ((hgood.write hp hG (some (old ++ bytes))).mono subset_rfl ?_)
    rintro g (rfl | hg)
    · exact .inr ⟨rfl, rfl⟩
    · exact .inl hg
  · rintro _ d ⟨hnone, o, -, hshows⟩
    refine ⟨?_, ready_of_shows hshows ((hgood.write hp hG o).mono subset_rfl Set.subset_union_left)⟩
    intro hquiet
    rw [hold] at hnone
    cases hnone hquiet

theorem removeFile_ready (hG : ∀ g ∈ G, g.1 ≠ p) :
    Keeps L cfg quiet C G (onDisk (removeFile p)) := by
  refine onDiskWith_spec ?_
  intro b hb
  refine removeFile_spec.post ?_ ?_
  · intro _ d hd
    exact ready_of_shows hd (hb.remove hG)
  · intro _ d hd
    exact ready_of_shows hd.2 hb

theorem rename_ready (hp : ¬ IsBlobName p)
    (hG : ∀ g ∈ G, g.1 ≠ p) (hc : c ∈ C) (hk : L.hashes.Verifies k c) :
    Action.Spec (Ready L cfg quiet C (insert (p, c) G))
      (onDisk (rename p (k.location cfg.blobRoot)))
      (fun _ => Ready L cfg quiet C (insert (k.location cfg.blobRoot, c) G))
      fun _ => Ready L cfg quiet C G := by
  have hne : p ≠ k.location cfg.blobRoot := by
    intro heq
    exact hp (heq ▸ k.isBlobName cfg.blobRoot)
  refine onDiskWith_spec ?_
  intro b hb
  have hfile : b.disk.file? p = some c :=
    hb.pinned (p, c) (Set.mem_insert _ _) fun h => absurd h hp
  have hgood := hb.mono subset_rfl (Set.subset_insert (p, c) G)
  refine (rename_spec hp hne).post ?_ ?_
  · rintro _ d ⟨bytes, hbytes, hshows⟩
    rw [hfile] at hbytes
    cases hbytes
    exact ready_of_shows hshows ((hgood.remove hG).place (hb.labelled c hc) hk fun _ => rfl)
  · intro _ d hd
    exact ready_of_shows hd.2 hgood

theorem existsAt_ready (hc : c ∈ C) (hk : L.hashes.Verifies k c) :
    Action.Spec (Ready L cfg quiet C G) (onDisk (existsAt (k.location cfg.blobRoot)))
      (fun found => Ready L cfg quiet C (if found then insert (k.location cfg.blobRoot, c) G else G))
      fun _ => Ready L cfg quiet C G := by
  refine onDiskWith_spec ?_
  intro b hb
  refine existsAt_spec.post ?_ ?_
  · rintro found d ⟨⟨hfound, -⟩, hshows⟩
    refine ready_of_shows hshows ?_
    cases found with
    | false => exact hb
    | true =>
      obtain ⟨c', hc'⟩ := Option.isSome_iff_exists.mp (hfound rfl)
      have hsame : L.hashes.CollisionFree b.hashed → c' = c := by
        intro hfree
        obtain ⟨hmem, hverifies⟩ := hb.verified hfree k c' hc'
        exact hfree c' hmem c (hb.labelled c hc) k hverifies hk
      have hplaced := hb.place (hb.labelled c hc) hk hsame
      rwa [← hc', update_eq_self] at hplaced
  · intro _ d hd
    exact hd.elim

section

variable {E : StoreError → BlobStore → Prop}

theorem hashing_ready (content : Bytes) : Action.Spec (Ready L cfg quiet C G) (hashing content)
      (fun _ => Ready L cfg quiet (insert content C) G) E := by
  refine .update ?_
  rintro s ⟨hshows, hgood⟩
  have hmono : ∀ c ∈ s.hashed, c ∈ content :: s.hashed := fun _ h => mem_cons_of_mem _ h
  refine ⟨hshows, ?_, ?_, ?_, ?_, hgood.sessions⟩
  · rintro c (rfl | hc)
    · exact mem_cons_self
    · exact hmono c (hgood.labelled c hc)
  · intro p hp hfree
    exact hgood.pinned p hp fun hblob => (hfree hblob).mono hmono
  · intro hfree k c hfile
    obtain ⟨hmem, hverifies⟩ := hgood.verified (hfree.mono hmono) k c hfile
    exact ⟨hmono c hmem, hverifies⟩
  · intro sigma record hrecord
    obtain ⟨p, hp, hsigma⟩ := hgood.bound sigma record hrecord
    exact ⟨p, hmono p hp, hsigma⟩

theorem bindAll_ready {record : BindingRecord} {labels : List KappaLabel} {c : Bytes} (hc : c ∈ C)
    (hsize : record.plaintextSize = c.length) (hlabels : ∀ k ∈ labels, L.hashes.Verifies k c) :
    Action.Spec (Ready L cfg quiet C G) (bindAll record labels) (fun _ => Ready L cfg quiet C G) E := by
  refine .update ?_
  rintro s ⟨hshows, hgood⟩
  refine ⟨hshows, hgood.labelled, hgood.pinned, hgood.verified, ?_, hgood.sessions⟩
  have hmem := hgood.labelled c hc
  have hbound := hgood.bound
  revert hbound
  generalize s.bindingRecords = records
  intro hbound
  show ∀ sigma record', (labels.foldl (fun records label => records.insert label.asStr record)
    records)[sigma]? = some record' → _
  induction labels generalizing records with
  | nil => exact hbound
  | cons k labels ih =>
    refine ih (fun k' hk' => hlabels k' (mem_cons_of_mem _ hk')) _ ?_
    intro sigma record' hrecord
    rcases Table.of_get_insert hrecord with ⟨rfl, rfl⟩ | ⟨-, hrecord⟩
    · exact ⟨c, hmem, k, rfl, hlabels k mem_cons_self, hsize⟩
    · exact hbound sigma record' hrecord

theorem dropSession_ready (id : String) : Action.Spec (Ready L cfg quiet C G) (dropSession id)
    (fun _ => Ready L cfg quiet C G) E := by
  refine .update ?_
  rintro s ⟨hshows, hgood⟩
  refine ⟨hshows, hgood.labelled, hgood.pinned, hgood.verified, hgood.bound, ?_⟩
  intro id' session hsession
  exact hgood.sessions id' session (Table.of_get_erase hsession)

theorem putSession_ready {id : String} {session : DiskUploadSession} {uuid : Uuid}
    (hid : id = uuidText uuid) (hpath : session.stagingPath = stagingLocation cfg id) :
    Action.Spec (Ready L cfg quiet C G)
      (Action.update fun s => { s with uploadSessions := s.uploadSessions.insert id session } :
        BlobM Unit)
      (fun _ => Ready L cfg quiet C G) E := by
  refine .update ?_
  rintro s ⟨hshows, hgood⟩
  refine ⟨hshows, hgood.labelled, hgood.pinned, hgood.verified, hgood.bound, ?_⟩
  intro id' session' hsession
  rcases Table.of_get_insert hsession with ⟨rfl, rfl⟩ | ⟨-, hsession⟩
  · exact ⟨uuid, hid, hpath⟩
  · exact hgood.sessions id' session' hsession

end

theorem drawNonce_ready : Keeps L cfg quiet C G drawNonce := by
  refine .bind_current ?_
  intro s hs
  cases s.entropy with
  | nil =>
    refine .fail ?_
    intro s' hs'
    exact hs' ▸ hs
  | cons nonce entropy =>
    refine .bind (.update (Q := fun _ => Ready L cfg quiet C G) ?_) fun _ => .pure fun _ h => h
    rintro s' rfl
    exact ⟨hs.1, hs.2.labelled, hs.2.pinned, hs.2.verified, hs.2.bound, hs.2.sessions⟩

end

end BlobStore

end KappaRegistry
