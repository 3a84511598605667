import KappaRegistry.Gc

/-!
# What the Collector Has to Keep

Every current tag, every retained version and every epoch of a chain is a reason to keep a blob,
under whatever name its row stands. The collector looks up the rows of a namespace under one name
only, the first alias of its record, and it reads no versions. An orderly step is one for which this
is enough:

- tags, versions and epochs are written under the first alias of a listed namespace only;
- a tag with retained versions is set to their label only, and not deleted;
- the first alias of a record is not renamed, and its namespace not deleted, while tags or an epoch
  stand under that name.

**`sweep_keeps_live`**: in a state that orderly steps lead to, no sweep deletes what is live, nor what
live blobs lead to.
-/

namespace KappaRegistry

open Lib PersistentStore List Table

/-- An operation on the store: a write through a reference, a blob, or one on namespaces. -/
inductive StoreOp where
  | write (ns : NamespaceRef) (w : NsWrite)
  | blobPut (kappa : String) (content : Bytes)
  | namespaceCreate (uuid : Uuid) (nowMs : ℕ) (name owner : String) (protocol : Option String)
  | namespaceRename (oldName newName actor : String) (protocol : Option String)
  | namespaceAddAlias (uuid : Uuid) (newAlias actor : String) (protocol : Option String)
  | namespaceTransfer (uuid : Uuid) (newOwner actor : String)
  | namespaceDelete (name actor : String) (protocol : Option String)

namespace VersionStore

/-! ## Runs -/

variable (s : VersionStore)

/-- The store after an operation on namespaces, which a failed one leaves as it is. -/
def commit : Except StoreError PersistentStore → VersionStore
  | .ok store => s.withStore store
  | .error _ => s

section

variable (root : String) (prim : Primitives) (leafBytes : EpochFields → Bytes)

def storeStep (s : VersionStore) : StoreOp → VersionStore
  | .write ns w => s.write prim leafBytes ns.asStr w
  | .blobPut kappa content => (s.blobPut root kappa content).toOption.getD s
  | .namespaceCreate uuid nowMs name owner protocol =>
    s.commit ((s.tables.store.namespaceCreate uuid nowMs name owner protocol).map Prod.snd)
  | .namespaceRename oldName newName actor protocol =>
    s.commit (s.tables.store.namespaceRename oldName newName actor protocol)
  | .namespaceAddAlias uuid newAlias actor protocol =>
    s.commit (s.tables.store.namespaceAddAlias uuid newAlias actor protocol)
  | .namespaceTransfer uuid newOwner actor =>
    s.commit (s.tables.store.namespaceTransfer uuid newOwner actor)
  | .namespaceDelete name actor protocol =>
    s.commit (s.tables.store.namespaceDelete name actor protocol)

def storeRun (s : VersionStore) (ops : List StoreOp) : VersionStore :=
  ops.foldl (storeStep root prim leafBytes) s

end

/-- A reason to keep a blob: a tag, a version, or an epoch of some chain. -/
def Live (root : String) (readEpoch : Bytes → Option (Option String))
    (cache : Table String (Option String)) (s : VersionStore) (kappa : String) : Prop :=
  (∃ (key : String) (value : TagValue), s.tables.store.tags[key]? = some value ∧
      value.kappa = kappa) ∨
    (∃ (key : Bytes) (entry : VersionEntry), s.versions[key]? = some entry ∧
      entry.kappa = some kappa) ∨
    ∃ name : String, Reaches (epochBefore (s.epochGet root readEpoch cache))
      s.tables.epochCurrent[name]?.toList kappa

/-! ## Orderly steps -/

def versionLabels (ns key : String) : List String :=
  (s.versionRows ns key).filterMap fun row => row.2.kappa

/-- No tag and no epoch stand under a name. -/
def NoRows (name : String) : Prop :=
  s.tables.store.tagEntries name = [] ∧ s.tables.epochCurrent[name]? = none
  deriving Decidable

/-- A write that sets tags or an epoch is under a name that the collector looks up, and no tag
moves away from the label of a version. -/
def OrderlyWrite (ns : String) : NsWrite → Prop
  | .tagSet name kappa => ns ∈ s.gcNames ∧ ∀ label ∈ s.versionLabels ns name, label = kappa
  | .tagSetBatch updates => ∀ update ∈ updates,
      ns ∈ s.gcNames ∧ ∀ label ∈ s.versionLabels ns update.name, label = update.kappa
  | .tagDelete name => s.versionLabels ns name = []
  | .epochAdvance _ _ => ns ∈ s.gcNames
  | .versionPut key kappa _ _ _ => ns ∈ s.gcNames ∧ ∀ label ∈ s.versionLabels ns key, label = kappa
  | .versionDelete key versionId _ _ =>
    versionId = none ∨ s.versioningState ns = .unversioned → s.versionLabels ns key = []
  | .edgePut _ | .edgePutBatch _ | .edgeDelete _ _ _ | .sequenceNext _ => True

instance (s : VersionStore) (ns : String) (w : NsWrite) : Decidable (s.OrderlyWrite ns w) := by
  cases w <;> dsimp only [OrderlyWrite] <;> infer_instance

/-- The step keeps everything live in the collector's sight. A UUID that is drawn is new. -/
def Orderly : StoreOp → Prop
  | .write ns w => s.OrderlyWrite ns.asStr w
  | .namespaceCreate uuid _ _ _ _ => s.tables.store.namespaceRecords[uuid]? = none
  | .namespaceRename oldName _ _ protocol =>
    ∀ record ∈ (s.tables.store.namespaceInfo oldName protocol).toOption,
      record.aliases.head? = some oldName → s.NoRows oldName
  | .namespaceDelete name _ protocol =>
    ∀ record ∈ (s.tables.store.namespaceInfo name protocol).toOption,
      ∀ first ∈ record.aliases.head?, s.NoRows first
  | .blobPut _ _ | .namespaceAddAlias _ _ _ _ | .namespaceTransfer _ _ _ => True

instance (s : VersionStore) (op : StoreOp) : Decidable (s.Orderly op) := by
  cases op <;> dsimp only [Orderly] <;> infer_instance

/-- Every step of a run is orderly where it is made. -/
def OrderlySteps (root : String) (prim : Primitives) (leafBytes : EpochFields → Bytes) :
    VersionStore → List StoreOp → Prop
  | _, [] => True
  | s, op :: ops => s.Orderly op ∧ OrderlySteps root prim leafBytes (s.storeStep root prim leafBytes op) ops

instance instDecidableOrderlySteps (root : String) (prim : Primitives)
    (leafBytes : EpochFields → Bytes) : (s : VersionStore) → (ops : List StoreOp) →
    Decidable (s.OrderlySteps root prim leafBytes ops)
  | _, [] => .isTrue trivial
  | s, op :: ops =>
    have := instDecidableOrderlySteps root prim leafBytes (s.storeStep root prim leafBytes op) ops
    inferInstanceAs (Decidable (_ ∧ _))

/-! ## Everything live is in sight -/

/-- The rows stand under names that the collector looks up, and every version has the label of its
key's tag. -/
structure InSight (s : VersionStore) : Prop where
  tags : ∀ (key : String) (value : TagValue), s.tables.store.tags[key]? = some value →
    ∃ ns ∈ s.gcNames, Under ns key
  epochs : ∀ ns kappa : String, s.tables.epochCurrent[ns]? = some kappa → ns ∈ s.gcNames
  versions : ∀ (key : Bytes) (entry : VersionEntry) (label : String),
    s.versions[key]? = some entry → entry.kappa = some label →
    ∃ ns name, versionPrefix ns name <+: key ∧
      (s.tables.store.tags[dbKey ns name]?).map TagValue.kappa = some label
  records : ∀ (uuid : Uuid) (record : NamespaceRecord),
    s.tables.store.namespaceRecords[uuid]? = some record →
    record.uuidHex = uuid.hex ∧ record.aliases ≠ []

theorem inSight_new (encrypted : Bool) : (new encrypted).InSight := by
  refine ⟨?_, ?_, ?_, ?_⟩
  · intro key value h
    have hempty : (∅ : Table String TagValue)[key]? = some value := h
    simp at hempty
  · intro ns kappa h
    have hempty : (∅ : Table String String)[ns]? = some kappa := h
    simp at hempty
  · intro key entry label h
    have hempty : (∅ : Table Bytes VersionEntry)[key]? = some entry := h
    simp at hempty
  · intro uuid record h
    have hempty : (∅ : Table Uuid NamespaceRecord)[uuid]? = some record := h
    simp at hempty

/-! ### The names that are looked up -/

theorem hexDecode_uuid (uuid : Uuid) : ∃ bytes, hexDecode uuid.hex = .ok bytes ∧ bytes.length = 16 := by
  have hlen : uuid.hex.toList.length = 32 := by simp [Uuid.hex]
  have hdigits : ∀ c ∈ uuid.hex.toList, (digitValue 16 c).isSome := by
    intro c hc
    simp only [Uuid.hex, String.toList_ofList, mem_map] at hc
    obtain ⟨i, -, rfl⟩ := hc
    have hdigit := digitValue_hexDigit (n := uuid.val / 16 ^ (31 - i) % 16) (Nat.mod_lt _ (by decide))
    exact Option.isSome_iff_exists.mpr ⟨_, hdigit⟩
  obtain ⟨bytes, hbytes, hcount⟩ := hexPairs_of_digits hdigits (by omega) 0
  refine ⟨bytes, ?_, by omega⟩
  rwa [hexDecode, if_neg (by omega)]

theorem gcName_eq {uuid : Uuid} {record : NamespaceRecord} (hhex : record.uuidHex = uuid.hex)
    (haliases : record.aliases ≠ []) : gcName record = record.aliases.head? := by
  obtain ⟨bytes, hdecode, hlen⟩ := hexDecode_uuid uuid
  obtain ⟨first, rest, hfirst⟩ := exists_cons_of_ne_nil haliases
  simp only [gcName, hhex, hdecode, hlen, if_true, hfirst, head?_cons, Option.getD_some]

variable {s : VersionStore}

theorem InSight.mem_gcNames (h : ∀ (uuid : Uuid) (record : NamespaceRecord),
      s.tables.store.namespaceRecords[uuid]? = some record →
      record.uuidHex = uuid.hex ∧ record.aliases ≠ []) {name : String} :
    name ∈ s.gcNames ↔ ∃ (uuid : Uuid) (record : NamespaceRecord),
      s.tables.store.namespaceRecords[uuid]? = some record ∧ record.tombstoned = false ∧
        record.aliases.head? = some name := by
  simp only [gcNames, mem_filterMap, mem_namespaceList]
  constructor
  · intro ⟨record, ⟨hlive, uuid, hrecord⟩, hname⟩
    obtain ⟨hhex, haliases⟩ := h uuid record hrecord
    exact ⟨uuid, record, hrecord, hlive, by rw [← gcName_eq hhex haliases, hname]⟩
  · intro ⟨uuid, record, hrecord, hlive, hname⟩
    obtain ⟨hhex, haliases⟩ := h uuid record hrecord
    exact ⟨record, ⟨hlive, uuid, hrecord⟩, by rw [gcName_eq hhex haliases, hname]⟩

theorem gcNames_congr {s s' : VersionStore}
    (h : s'.tables.store.namespaceRecords = s.tables.store.namespaceRecords) :
    s'.gcNames = s.gcNames := by
  unfold gcNames namespaceList
  rw [h]

/-! ### Writes -/

section

variable (prim : Primitives) (store : PersistentStore) (ns : String)

theorem edgeUpsert_rows (edge : Edge) :
    (store.edgeUpsert prim ns edge).tags = store.tags ∧
      (store.edgeUpsert prim ns edge).namespaceRecords = store.namespaceRecords := by
  apply edgeUpsert_induction prim (P := fun s =>
    s.tags = store.tags ∧ s.namespaceRecords = store.namespaceRecords)
  · exact ⟨rfl, rfl⟩
  · exact fun _ => ⟨rfl, rfl⟩
  · exact fun _ => ⟨rfl, rfl⟩

theorem edgePutBatch_rows (edges : List Edge) :
    (store.edgePutBatch prim ns edges).tags = store.tags ∧
      (store.edgePutBatch prim ns edges).namespaceRecords = store.namespaceRecords := by
  unfold edgePutBatch
  induction edges generalizing store with
  | nil => exact ⟨rfl, rfl⟩
  | cons edge edges ih =>
    rw [foldl_cons]
    exact ih _

theorem edgeDelete_rows (source target : String) (relation : EdgeRelation) :
    (store.edgeDelete ns source target relation).tags = store.tags ∧
      (store.edgeDelete ns source target relation).namespaceRecords = store.namespaceRecords := by
  rw [edgeDelete_eq]
  cases store.edgeToDelete ns source target relation with
  | none | some found => exact ⟨rfl, rfl⟩

end

theorem versionPrefix_eq (ns key : String) :
    versionPrefix ns key = textBytes (dbKey ns key) ++ [0] := by
  have hnul : textBytes (String.singleton '\x00') = [0] := by decide
  rw [dbKey, joinKey, textBytes_append, textBytes_append, hnul, versionPrefix]
  simp

theorem mem_versionLabels {ns key label : String} :
    label ∈ s.versionLabels ns key ↔ ∃ (k : Bytes) (entry : VersionEntry),
      s.versions[k]? = some entry ∧ versionPrefix ns key <+: k ∧ entry.kappa = some label := by
  simp only [versionLabels, mem_filterMap, mem_versionRows, Prod.exists, and_assoc]

variable {ns key : String}

theorem versionRemoveNull_fewer {k : Bytes} {e : VersionEntry}
    (h : (s.versionRemoveNull ns key).versions[k]? = some e) : s.versions[k]? = some e := by
  unfold versionRemoveNull at h
  rw [get_foldl_erase] at h
  by_cases hmem : k ∈ ((s.versionRows ns key).filter fun row => row.2.versionId = "null").map Prod.fst
  · simp [if_pos hmem] at h
  · rwa [if_neg hmem] at h

namespace InSight

variable {s : VersionStore}

theorem of_same {s' : VersionStore} (h : s.InSight)
    (htags : s'.tables.store.tags = s.tables.store.tags) (hversions : s'.versions = s.versions)
    (hepochs : s'.tables.epochCurrent = s.tables.epochCurrent)
    (hrecords : s'.tables.store.namespaceRecords = s.tables.store.namespaceRecords) : s'.InSight := by
  have hnames := gcNames_congr hrecords
  refine ⟨?_, ?_, ?_, ?_⟩
  · rw [htags, hnames]
    exact h.tags
  · rw [hepochs, hnames]
    exact h.epochs
  · rw [htags, hversions]
    exact h.versions
  · rw [hrecords]
    exact h.records

theorem tagSet (h : s.InSight) {ns name kappa : String} (hns : ns ∈ s.gcNames)
    (hlabels : ∀ label ∈ s.versionLabels ns name, label = kappa) :
    (s.tagSet ns name kappa).InSight := by
  refine ⟨?_, h.epochs, ?_, h.records⟩
  · intro key value hrow
    rcases of_get_insert hrow with ⟨rfl, -⟩ | ⟨-, hrow⟩
    · exact ⟨ns, hns, under_dbKey ns name⟩
    · exact h.tags key value hrow
  · intro key entry label hentry hlabel
    obtain ⟨ns', name', hkey, htag⟩ := h.versions key entry label hentry hlabel
    refine ⟨ns', name', hkey, ?_⟩
    show ((s.tables.store.tags.insert (dbKey ns name) _)[dbKey ns' name']?).map TagValue.kappa = _
    rw [get_insert]
    by_cases hsame : dbKey ns name = dbKey ns' name'
    · rw [if_pos hsame, Option.map_some]
      have hmem : label ∈ s.versionLabels ns name := by
        refine mem_versionLabels.mpr ⟨key, entry, hentry, ?_, hlabel⟩
        rwa [versionPrefix_eq, hsame, ← versionPrefix_eq]
      rw [hlabels label hmem]
    · rwa [if_neg hsame]

theorem tagDelete (h : s.InSight) {ns name : String} (hlabels : s.versionLabels ns name = []) :
    (s.tagDelete ns name).InSight := by
  refine ⟨?_, h.epochs, ?_, h.records⟩
  · intro key value hrow
    exact h.tags key value (of_get_erase hrow)
  · intro key entry label hentry hlabel
    obtain ⟨ns', name', hkey, htag⟩ := h.versions key entry label hentry hlabel
    refine ⟨ns', name', hkey, ?_⟩
    show ((s.tables.store.tags.erase (dbKey ns name))[dbKey ns' name']?).map TagValue.kappa = _
    rw [get_erase, if_neg]
    · exact htag
    · intro hsame
      have hmem : label ∈ s.versionLabels ns name := by
        refine mem_versionLabels.mpr ⟨key, entry, hentry, ?_, hlabel⟩
        rwa [versionPrefix_eq, hsame, ← versionPrefix_eq]
      simp [hlabels] at hmem

variable {ns : String}

theorem insertVersion (h : s.InSight) {key : String} {entry : VersionEntry}
    (htag : ∀ label, entry.kappa = some label →
      (s.tables.store.tags[dbKey ns key]?).map TagValue.kappa = some label) :
    (s.insertVersion ns key entry).InSight := by
  refine ⟨h.tags, h.epochs, ?_, h.records⟩
  intro k e label he hlabel
  rcases of_get_insert he with ⟨rfl, rfl⟩ | ⟨-, he⟩
  · exact ⟨ns, key, prefix_append _ _, htag label hlabel⟩
  · exact h.versions k e label he hlabel

theorem fewerVersions (h : s.InSight) {versions : Table Bytes VersionEntry}
    (hfewer : ∀ (k : Bytes) (e : VersionEntry), versions[k]? = some e → s.versions[k]? = some e) :
    ({ s with versions } : VersionStore).InSight :=
  ⟨h.tags, h.epochs, fun k e label he => h.versions k e label (hfewer k e he), h.records⟩

variable {kappa : String}

theorem epochAdvance (h : s.InSight) (hns : ns ∈ s.gcNames) {store : PersistentStore}
    {sequences : Table String ℕ} (htags : store.tags = s.tables.store.tags)
    (hrecords : store.namespaceRecords = s.tables.store.namespaceRecords) :
    ({ s with tables := ⟨store, sequences, s.tables.epochCurrent.insert ns kappa⟩ } :
      VersionStore).InSight := by
  have hkept : VersionStore.InSight { s with tables := ⟨store, sequences, s.tables.epochCurrent⟩ } :=
    h.of_same htags rfl rfl hrecords
  refine ⟨hkept.tags, ?_, hkept.versions, hkept.records⟩
  intro name k hrow
  have hnames : VersionStore.gcNames
      { s with tables := ⟨store, sequences, s.tables.epochCurrent.insert ns kappa⟩ } = s.gcNames :=
    gcNames_congr hrecords
  rw [hnames]
  rcases of_get_insert hrow with ⟨rfl, -⟩ | ⟨-, hrow⟩
  · exact hns
  · exact h.epochs name k hrow

end InSight

theorem versionLabels_mono {s s' : VersionStore} {ns key label : String}
    (hfewer : ∀ (k : Bytes) (e : VersionEntry), s'.versions[k]? = some e → s.versions[k]? = some e)
    (h : label ∈ s'.versionLabels ns key) : label ∈ s.versionLabels ns key := by
  obtain ⟨k, e, he, hprefix, hlabel⟩ := mem_versionLabels.mp h
  exact mem_versionLabels.mpr ⟨k, e, hfewer k e he, hprefix, hlabel⟩

theorem tagSet_kappa (s : VersionStore) (ns name kappa : String) :
    ((s.tagSet ns name kappa).tables.store.tags[dbKey ns name]?).map TagValue.kappa = some kappa := by
  show ((s.tables.store.tags.insert (dbKey ns name) _)[dbKey ns name]?).map TagValue.kappa = _
  rw [get_insert, if_pos rfl]
  rfl

namespace InSight

variable {s : VersionStore}

/-- **A put of a version**: the tag is set and the row has its label. -/
theorem versionPut (h : s.InSight) {ns key kappa : String} (hns : ns ∈ s.gcNames)
    (hlabels : ∀ label ∈ s.versionLabels ns key, label = kappa) (etag : Option String)
    (freshId : String) (nowMs : ℕ) : (s.versionPut ns key kappa etag freshId nowMs).2.InSight := by
  have hput : ∀ (s : VersionStore) (entry : VersionEntry), s.InSight → ns ∈ s.gcNames →
      (∀ label ∈ s.versionLabels ns key, label = kappa) → entry.kappa = some kappa →
      ((s.insertVersion ns key entry).tagSet ns key kappa).InSight := by
    intro s entry h hns hlabels hentry
    -- the tag first, so that the row has a tag of its label when it is added
    apply (h.tagSet hns hlabels).insertVersion
    intro label hlabel
    rw [tagSet_kappa, ← hlabel, hentry]
  unfold VersionStore.versionPut
  cases s.versioningState ns with
  | unversioned => exact h.tagSet hns hlabels
  | enabled => exact hput s _ h hns hlabels rfl
  | suspended =>
    refine hput (s.versionRemoveNull ns key) _ (h.fewerVersions fun k e => versionRemoveNull_fewer) hns
      ?_ rfl
    intro label hlabel
    exact hlabels label (versionLabels_mono (fun k e => versionRemoveNull_fewer) hlabel)

theorem versionDelete (h : s.InSight) {ns key : String} {versionId : Option String}
    (hlabels : versionId = none ∨ s.versioningState ns = .unversioned → s.versionLabels ns key = [])
    (freshId : String) (nowMs : ℕ) : (s.versionDelete ns key versionId freshId nowMs).2.InSight := by
  apply versionDelete_induction (P := InSight)
  · exact fun hstate => h.tagDelete (hlabels (.inr hstate))
  · -- a delete marker has no label
    intro hnone
    exact (h.tagDelete (hlabels (.inl hnone))).insertVersion nofun
  · exact fun row _ => h.fewerVersions fun k e he => of_get_erase he
  · exact h

variable {ns : String}

theorem tagWrites (h : s.InSight) {updates : List TagUpdate}
    (hupdates : ∀ update ∈ updates, ns ∈ s.gcNames ∧
      ∀ label ∈ s.versionLabels ns update.name, label = update.kappa) :
    (s.withStore (TableStore.tagWrites ns s.tables.store updates).2).InSight := by
  induction updates generalizing s with
  | nil => exact h
  | cons update updates ih =>
    obtain ⟨hns, hlabels⟩ := hupdates update mem_cons_self
    exact ih (h.tagSet hns hlabels) fun u hu => hupdates u (mem_cons_of_mem update hu)

variable (prim : Primitives) (leafBytes : EpochFields → Bytes)

/-- **An orderly write keeps everything live in sight.** -/
theorem write (h : s.InSight) {w : NsWrite} (horder : s.OrderlyWrite ns w) :
    (s.write prim leafBytes ns w).InSight := by
  cases w with
  | tagSet name kappa => exact h.tagSet horder.1 horder.2
  | tagSetBatch updates =>
    show VersionStore.InSight
      { s with tables := (s.tables.apply prim leafBytes (.tagSetBatch ns updates)).2 }
    cases hconflict : s.tables.store.casConflict ns updates with
    | some update =>
      simp only [TableStore.apply, hconflict]
      exact h
    | none =>
      simp only [TableStore.apply, hconflict]
      exact h.tagWrites horder
  | tagDelete name => exact h.tagDelete horder
  | edgePut edge =>
    have hput := edgeUpsert_rows prim (s.tables.store.blobPut (edge.kappa prim)
      (prim.edgeBytes edge)) ns edge
    exact h.of_same hput.1 rfl rfl hput.2
  | edgePutBatch edges =>
    have hput := edgePutBatch_rows prim s.tables.store ns edges
    exact h.of_same hput.1 rfl rfl hput.2
  | edgeDelete source target relation =>
    have hdelete := edgeDelete_rows s.tables.store ns source target relation
    exact h.of_same hdelete.1 rfl rfl hdelete.2
  | sequenceNext name => exact h.of_same rfl rfl rfl rfl
  | epochAdvance mutations nowMs =>
    show VersionStore.InSight
      { s with tables := (s.tables.apply prim leafBytes (.epochAdvance ns mutations nowMs)).2 }
    simp only [TableStore.apply,
      TableStore.epochAdvance_of_tags prim leafBytes (s.tables.store.tagList_eq ns)]
    split_ifs
    · exact h
    · exact h.epochAdvance horder rfl rfl
  | versionPut key kappa etag freshId nowMs => exact h.versionPut horder.1 horder.2 etag freshId nowMs
  | versionDelete key versionId freshId nowMs => exact h.versionDelete horder freshId nowMs

/-! ### Namespaces -/

variable {aliases : Table String Uuid}

theorem ofRecords (h : s.InSight) {records : Table Uuid NamespaceRecord}
    (hrecords : ∀ (uuid : Uuid) (record : NamespaceRecord), records[uuid]? = some record →
      record.uuidHex = uuid.hex ∧ record.aliases ≠ [])
    (hnames : ∀ name, ∀ (uuid : Uuid) (record : NamespaceRecord),
      s.tables.store.namespaceRecords[uuid]? = some record → record.tombstoned = false →
      record.aliases.head? = some name → s.NoRows name ∨
        ∃ (uuid : Uuid) (record : NamespaceRecord), records[uuid]? = some record ∧
          record.tombstoned = false ∧ record.aliases.head? = some name) :
    (s.withStore { s.tables.store with
      namespaceAliases := aliases, namespaceRecords := records }).InSight := by
  have hkept : ∀ name ∈ s.gcNames, s.NoRows name ∨ name ∈ (s.withStore { s.tables.store with
      namespaceAliases := aliases, namespaceRecords := records }).gcNames := by
    intro name hname
    obtain ⟨uuid, record, hrecord, hlive, hfirst⟩ := (mem_gcNames h.records).mp hname
    rcases hnames name uuid record hrecord hlive hfirst with hbare | hlisted
    · exact .inl hbare
    · exact .inr ((mem_gcNames hrecords).mpr hlisted)
  refine ⟨?_, ?_, h.versions, hrecords⟩
  · intro key value hrow
    obtain ⟨ns, hns, x, rfl⟩ := h.tags key value hrow
    rcases hkept ns hns with hbare | hlisted
    · have hentry : TagEntry.mk x value.kappa value.version ∈ s.tables.store.tagEntries ns :=
        mem_tagEntries.mpr hrow
      simp [hbare.1] at hentry
    · exact ⟨ns, hlisted, under_dbKey ns x⟩
  · intro ns kappa hrow
    rcases hkept ns (h.epochs ns kappa hrow) with hbare | hlisted
    · have hrow' : s.tables.epochCurrent[ns]? = some kappa := hrow
      simp [hbare.2] at hrow'
    · exact hlisted

variable {uuid : Uuid}

theorem ofRecord (h : s.InSight) {record : NamespaceRecord} (hhex : record.uuidHex = uuid.hex)
    (haliases : record.aliases ≠ [])
    (hfirst : ∀ old : NamespaceRecord, s.tables.store.namespaceRecords[uuid]? = some old →
      old.tombstoned = false → ∀ name ∈ old.aliases.head?, s.NoRows name ∨
        record.tombstoned = false ∧ record.aliases.head? = some name) :
    (s.withStore { s.tables.store with
      namespaceAliases := aliases
      namespaceRecords := s.tables.store.namespaceRecords.insert uuid record }).InSight := by
  apply h.ofRecords
  · intro uuid' record' hrow
    rcases of_get_insert hrow with ⟨rfl, rfl⟩ | ⟨-, hrow⟩
    · exact ⟨hhex, haliases⟩
    · exact h.records uuid' record' hrow
  · intro name uuid' old hrow hlive hname
    by_cases hsame : uuid = uuid'
    · subst hsame
      rcases hfirst old hrow hlive name hname with hbare | ⟨hlive', hname'⟩
      · exact .inl hbare
      · exact .inr ⟨uuid, record, by simp, hlive', hname'⟩
    · exact .inr ⟨uuid', old, by rw [get_insert, if_neg hsame]; exact hrow, hlive, hname⟩

theorem commit (h : s.InSight) {r : Except StoreError PersistentStore}
    (hok : ∀ store, r = .ok store → (s.withStore store).InSight) : (s.commit r).InSight := by
  cases r with
  | error e => exact h
  | ok store => exact hok store rfl

variable {protocol : Option String}

theorem namespaceCreate (h : s.InSight) {nowMs : ℕ} {name owner : String}
    {created : NamespaceRef × PersistentStore}
    (hnew : s.tables.store.namespaceRecords[uuid]? = none)
    (hok : s.tables.store.namespaceCreate uuid nowMs name owner protocol = .ok created) :
    (s.withStore created.2).InSight := by
  obtain ⟨-, -, hstore⟩ := namespaceCreate_eq_ok hok
  rw [hstore]
  refine h.ofRecord rfl (by simp) ?_
  intro old hold
  simp [hnew] at hold

variable {actor : String} {store : PersistentStore}

theorem namespaceRename (h : s.InSight) {oldName newName : String}
    (hbare : ∀ record ∈ (s.tables.store.namespaceInfo oldName protocol).toOption,
      record.aliases.head? = some oldName → s.NoRows oldName)
    (hok : s.tables.store.namespaceRename oldName newName actor protocol = .ok store) :
    (s.withStore store).InSight := by
  simp only [PersistentStore.namespaceRename, bind_eq_ok, pure_eq_ok, aliasLookup_eq_ok,
    recordLookup_eq_ok] at hok
  obtain ⟨uuid, halias, _, -, record, hrecord, _, -, rfl⟩ := hok
  have hinfo := namespaceInfo_eq_ok.mpr ⟨uuid, halias, hrecord⟩
  refine h.ofRecord ?_ ?_ ?_
  · exact (h.records uuid record hrecord).1
  · simp
  · intro old hold hlive first hfirst
    obtain rfl : record = old := Option.some.inj (hrecord.symm.trans hold)
    by_cases hmoved : first = oldName
    · subst hmoved
      exact .inl (hbare record (toOption_eq_some.mpr hinfo) hfirst)
    · -- the first alias stays in front
      obtain ⟨rest, hrest⟩ := head?_eq_some_iff.mp hfirst
      exact .inr ⟨hlive, by simp [hrest, hmoved]⟩

theorem namespaceAddAlias (h : s.InSight) {newAlias : String}
    (hok : s.tables.store.namespaceAddAlias uuid newAlias actor protocol = .ok store) :
    (s.withStore store).InSight := by
  simp only [PersistentStore.namespaceAddAlias, bind_eq_ok, pure_eq_ok, recordLookup_eq_ok] at hok
  obtain ⟨record, hrecord, _, -, _, -, rfl⟩ := hok
  obtain ⟨hhex, haliases⟩ := h.records uuid record hrecord
  obtain ⟨first, rest, hfirst⟩ := exists_cons_of_ne_nil haliases
  have hhead : (if newAlias ∈ record.aliases then record.aliases
      else record.aliases ++ [newAlias]).head? = some first := by
    split_ifs
    · rw [hfirst]
      rfl
    · rw [hfirst]
      rfl
  refine h.ofRecord ?_ ?_ ?_
  · exact hhex
  · intro hempty
    have hnone := congrArg head? hempty
    simp [hhead] at hnone
  · intro old hold hlive name hname
    obtain rfl : record = old := Option.some.inj (hrecord.symm.trans hold)
    rw [hfirst] at hname
    cases hname
    exact .inr ⟨hlive, hhead⟩

theorem namespaceTransfer (h : s.InSight) {newOwner : String}
    (hok : s.tables.store.namespaceTransfer uuid newOwner actor = .ok store) :
    (s.withStore store).InSight := by
  simp only [PersistentStore.namespaceTransfer, bind_eq_ok, pure_eq_ok, recordLookup_eq_ok] at hok
  obtain ⟨record, hrecord, _, -, rfl⟩ := hok
  obtain ⟨hhex, haliases⟩ := h.records uuid record hrecord
  refine h.ofRecord ?_ ?_ ?_
  · exact hhex
  · exact haliases
  · intro old hold hlive first hfirst
    obtain rfl : record = old := Option.some.inj (hrecord.symm.trans hold)
    exact .inr ⟨hlive, hfirst⟩

theorem namespaceDelete (h : s.InSight) {name actor : String}
    (hbare : ∀ record ∈ (s.tables.store.namespaceInfo name protocol).toOption,
      ∀ first ∈ record.aliases.head?, s.NoRows first)
    (hok : s.tables.store.namespaceDelete name actor protocol = .ok store) :
    (s.withStore store).InSight := by
  simp only [PersistentStore.namespaceDelete, bind_eq_ok, pure_eq_ok, aliasLookup_eq_ok,
    recordLookup_eq_ok] at hok
  obtain ⟨uuid, halias, record, hrecord, _, -, rfl⟩ := hok
  have hinfo := namespaceInfo_eq_ok.mpr ⟨uuid, halias, hrecord⟩
  obtain ⟨hhex, haliases⟩ := h.records uuid record hrecord
  refine h.ofRecord ?_ ?_ ?_
  · exact hhex
  · exact haliases
  · intro old hold _ first hfirst
    obtain rfl : record = old := Option.some.inj (hrecord.symm.trans hold)
    exact .inl (hbare record (toOption_eq_some.mpr hinfo) first hfirst)

variable (root : String)

theorem blobPut (h : s.InSight) (kappa : String) (content : Bytes) :
    ((s.blobPut root kappa content).toOption.getD s).InSight := by
  cases hput : s.blobPut root kappa content with
  | error e => exact h
  | ok s' =>
    simp only [VersionStore.blobPut, bind_eq_ok, pure_eq_ok] at hput
    obtain ⟨key, -, rfl⟩ := hput
    split_ifs
    · exact h
    · exact h.of_same rfl rfl rfl rfl

/-- **An orderly step keeps everything live in sight.** -/
theorem step (h : s.InSight) {op : StoreOp} (horder : s.Orderly op) :
    (s.storeStep root prim leafBytes op).InSight := by
  cases op with
  | write ns w => exact h.write prim leafBytes horder
  | blobPut kappa content => exact h.blobPut root kappa content
  | namespaceCreate uuid nowMs name owner protocol =>
    apply h.commit
    intro store hok
    obtain ⟨created, hcreate, rfl⟩ := map_eq_ok.mp hok
    exact h.namespaceCreate horder hcreate
  | namespaceRename oldName newName actor protocol =>
    exact h.commit fun store hok => h.namespaceRename horder hok
  | namespaceAddAlias uuid newAlias actor protocol =>
    exact h.commit fun store hok => h.namespaceAddAlias hok
  | namespaceTransfer uuid newOwner actor =>
    exact h.commit fun store hok => h.namespaceTransfer hok
  | namespaceDelete name actor protocol =>
    exact h.commit fun store hok => h.namespaceDelete horder hok

theorem run {ops : List StoreOp} (h : s.InSight) (horder : s.OrderlySteps root prim leafBytes ops) :
    (s.storeRun root prim leafBytes ops).InSight := by
  induction ops generalizing s with
  | nil => exact h
  | cons op ops ih => exact ih (h.step prim leafBytes root horder.1) horder.2

variable {root} {readEpoch : Bytes → Option (Option String)} {cache : Table String (Option String)}
  {kappa : String}

theorem gcRoot_of_live (h : s.InSight) (hlive : s.Live root readEpoch cache kappa) :
    s.GcRoot root readEpoch cache kappa := by
  have htag : ∀ (key : String) (value : TagValue), s.tables.store.tags[key]? = some value →
      s.GcRoot root readEpoch cache value.kappa := by
    intro key value hrow
    obtain ⟨ns, hns, x, rfl⟩ := h.tags key value hrow
    exact ⟨ns, hns, .inl ⟨⟨x, value.kappa, value.version⟩, mem_tagEntries.mpr hrow, rfl⟩⟩
  rcases hlive with ⟨key, value, hrow, rfl⟩ | ⟨key, entry, hentry, hlabel⟩ | ⟨name, hchain⟩
  · exact htag key value hrow
  · obtain ⟨ns, x, -, htagged⟩ := h.versions key entry kappa hentry hlabel
    obtain ⟨value, hrow, rfl⟩ := Option.map_eq_some_iff.mp htagged
    exact htag _ value hrow
  · cases hcurrent : s.tables.epochCurrent[name]? with
    | none =>
      rw [hcurrent] at hchain
      obtain ⟨r, hr, -⟩ := hchain
      cases hr
    | some current => exact ⟨name, h.epochs name current hcurrent, .inr hchain⟩

end InSight

/-! ## Sweeps -/

section

variable {root : String} {prim : Primitives} {leafBytes : EpochFields → Bytes}
  {readEpoch : Bytes → Option (Option String)} {cache : Table String (Option String)}
  {resolveEdges : String → List String}

/-- **A sweep keeps what is live.** -/
theorem sweep_keeps_live {encrypted : Bool} {ops : List StoreOp}
    (horder : (new encrypted).OrderlySteps root prim leafBytes ops) {s : VersionStore}
    (hrun : (new encrypted).storeRun root prim leafBytes ops = s)
    (hfiles : ∀ a ∈ s.blobList, ∀ b ∈ s.blobList, s.SameBlob root a b → a = b) :
    (∀ fuel outcome s', s.sweep root readEpoch cache fuel resolveEdges = some (outcome, s') →
      ∀ kappa ∈ s.blobList, ∀ r, s.Live root readEpoch cache r → Reaches resolveEdges [r] kappa →
        s'.blobGet root kappa = s.blobGet root kappa) ∧
    (s.ChainsEnd root readEpoch cache → (∀ r, {kappa | Reaches resolveEdges [r] kappa}.Finite) →
      ∃ bound, ∀ fuel ≥ bound, (s.sweep root readEpoch cache fuel resolveEdges).isSome) := by
  have hsight : s.InSight := by
    rw [← hrun]
    exact (inSight_new encrypted).run prim leafBytes root horder
  refine ⟨?_, sweep_isSome⟩
  intro fuel outcome s' hsweep kappa hkappa r hr hreach
  apply sweep_spares hsweep
  intro label hlabel hsame
  rw [hfiles label hlabel kappa hkappa hsame]
  exact ⟨r, hsight.gcRoot_of_live hr, hreach⟩

/-- The store after a run, with the sample primitives. -/
def sampleRun (ops : List StoreOp) : VersionStore :=
  (new false).storeRun "/data" .sample (fun _ => []) ops

def sampleSweep (s : VersionStore) : Option (Except StoreError GcResult × VersionStore) :=
  s.sweep "/data" (fun _ => none) ∅ 9 (fun _ => [])

/-- A tag under the first alias of a namespace keeps its blob, whose neighbour is deleted. -/
theorem sweep_keeps_live_tagged :
    let s := sampleRun [.namespaceCreate 1 0 "a" "alice" none, .namespaceAddAlias 1 "b" "alice" none,
      .blobPut "sha256:0001" [1], .blobPut "sha256:0002" [2],
      .write (.withName 1 "a") (.tagSet "t" "sha256:0001")]
    ∃ s', sampleSweep s = some (.ok ⟨2, 1, 1, 1⟩, s') ∧
      s'.blobGet "/data" "sha256:0001" = .ok [1] := by
  intro s
  have hfacts : ((sampleSweep s).map Prod.fst, s.blobGet "/data" "sha256:0001", s.blobList,
      s.tables.store.tags[dbKey "a" "t"]?) = (some (.ok ⟨2, 1, 1, 1⟩), .ok [1],
        ["sha256:0001", "sha256:0002"], some ⟨"sha256:0001", 1⟩) := by decide +kernel
  simp only [Prod.mk.injEq] at hfacts
  obtain ⟨hsweep, hbefore, hlist, htag⟩ := hfacts
  obtain ⟨⟨outcome, s'⟩, hsome, houtcome⟩ := Option.map_eq_some_iff.mp hsweep
  obtain rfl : outcome = .ok ⟨2, 1, 1, 1⟩ := houtcome
  have hfiles : ∀ a ∈ s.blobList, ∀ b ∈ s.blobList, s.SameBlob "/data" a b → a = b := by
    rw [hlist]
    decide +kernel
  refine ⟨s', hsome, ?_⟩
  rw [← hbefore]
  refine (@sweep_keeps_live "/data" .sample (fun _ => []) (fun _ => none) ∅ (fun _ => []) false _
    (by decide +kernel) s rfl hfiles).1 9 _ s' hsome "sha256:0001" (by simp [hlist]) "sha256:0001"
    ?_ (Reaches.root (by simp))
  exact .inl ⟨dbKey "a" "t", _, htag, rfl⟩

/-- Three blobs that a sweep deletes although they are live: one that is tagged through the second
alias of a namespace, one that is tagged through a deterministic reference without a record, and an
earlier version of an object. -/
theorem sweep_deletes_live :
    let read (s : VersionStore) := s.blobGet "/data" "sha256:0001"
    (fun s => (s.tables.store.tagGet "b" "t", read s, (sampleSweep s).map fun r => read r.2))
      (sampleRun [.namespaceCreate 1 0 "a" "alice" none, .namespaceAddAlias 1 "b" "alice" none,
        .blobPut "sha256:0001" [1], .write (.withName 1 "b") (.tagSet "t" "sha256:0001")]) =
      (.ok ⟨"t", "sha256:0001", 1⟩, .ok [1], some (.error (.notFound "sha256:0001"))) ∧
    (fun s => (s.tables.store.tagGet "ns" "t", read s, (sampleSweep s).map fun r => read r.2))
      (sampleRun [.blobPut "sha256:0001" [1],
        .write (.deterministic .sample "ns") (.tagSet "t" "sha256:0001")]) =
      (.ok ⟨"t", "sha256:0001", 1⟩, .ok [1], some (.error (.notFound "sha256:0001"))) ∧
    (fun s => ((s.versionGet "a" "key" (some "v1")).map VersionEntry.kappa, read s,
        (sampleSweep s).map fun r => read r.2))
      (sampleRun [.namespaceCreate 1 0 "a" "alice" none, .blobPut "sha256:0001" [1],
        .blobPut "sha256:0002" [2], .write (.withName 1 "a") (.tagSet "_config/versioning" "enabled"),
        .write (.withName 1 "a") (.versionPut "key" "sha256:0001" none "v1" 1),
        .write (.withName 1 "a") (.versionPut "key" "sha256:0002" none "v2" 2)]) =
      (.ok (some "sha256:0001"), .ok [1], some (.error (.notFound "sha256:0001"))) := by
  decide +kernel

end

end VersionStore

end KappaRegistry
