import KappaRegistry.Store.Namespaces
import KappaRegistry.Store.Versions

/-!
# Isolation of Namespaces

A write through a reference changes only rows whose keys start with the reference's name
(`NsWrite.apply_onlyUnder`), whatever its UUID. So two namespaces are kept apart by their names:

- If no key stands under both names, a write through one reference changes nothing that is read
  through the other. One thing is shared all the same: an unversioned `version_get` reports the
  size of the blob that the tag names, and blobs belong to no namespace.
- If some key does, for instance because a name is used under two protocols, a write shows.

Deleting a namespace removes none of its rows, so a namespace that is created under the name again
shows them. **`VersionStore.isolation_iff`** has both.
-/

namespace KappaRegistry

open Lib PersistentStore List Table TableStore

/-! ## Names that share a key -/

/-- Some text is the key of a row under both names. -/
def KeysMeet (a b : String) : Prop := ∃ x y, dbKey a x = dbKey b y

variable {a b : String}

theorem KeysMeet.symm (h : KeysMeet a b) : KeysMeet b a := by
  obtain ⟨x, y, hxy⟩ := h
  exact ⟨y, x, hxy.symm⟩

theorem keysMeet_self (a : String) : KeysMeet a a := ⟨"", "", rfl⟩

/-- Names without the separator share a key only if they are the same. -/
theorem keysMeet_iff_eq (ha : NulFree a) (hb : NulFree b) : KeysMeet a b ↔ a = b := by
  constructor
  · intro ⟨x, y, hxy⟩
    exact ((PersistentStore.dbKey_inj ha hb).mp hxy).1
  · intro h
    rw [h]
    exact keysMeet_self b

theorem keysMeet_of_prefixed (h : (dbKey a "").toList <+: (dbKey b "").toList) : KeysMeet a b := by
  obtain ⟨rest, hrest⟩ := h
  refine ⟨String.ofList rest, "", ?_⟩
  rw [dbKey_eq_append]
  apply String.ext
  rw [String.toList_append, String.toList_ofList, hrest]

theorem keysMeet_of_bytes {bytes : Bytes} (ha : textBytes (dbKey a "") <+: bytes)
    (hb : textBytes (dbKey b "") <+: bytes) : KeysMeet a b := by
  rcases prefix_or_prefix_of_prefix ha hb with h | h
  · exact keysMeet_of_prefixed (isPrefix_of_textBytes h)
  · exact (keysMeet_of_prefixed (isPrefix_of_textBytes h)).symm

/-! ## Reads and writes through a reference -/

/-- What a reference shows of its namespace. -/
@[ext]
structure NamespaceView where
  tagGet : String → Except StoreError TagEntry
  tagPrefix : String → Except StoreError (List TagEntry)
  edgeQuery : EdgeQuery → Except StoreError (List Edge)
  epochCurrent : Option String
  sequenceCurrent : String → ℕ
  versionGet : String → Option String → Except StoreError VersionEntry
  versionList : String → ℕ → List VersionEntry

/-- A write through a reference: tags, edges, sequences, epochs and versions. -/
inductive NsWrite where
  | tagSet (name kappa : String)
  | tagSetBatch (updates : List TagUpdate)
  | tagDelete (name : String)
  | edgePut (edge : Edge)
  | edgePutBatch (edges : List Edge)
  | edgeDelete (source target : String) (relation : EdgeRelation)
  | sequenceNext (name : String)
  | epochAdvance (mutations : List EpochMutation) (nowMs : ℕ)
  | versionPut (key kappa : String) (etag : Option String) (freshId : String) (nowMs : ℕ)
  | versionDelete (key : String) (versionId : Option String) (freshId : String) (nowMs : ℕ)

namespace VersionStore

/-- The reads of a namespace; all go by the name that the reference carries. -/
def view (s : VersionStore) (ns : NamespaceRef) : NamespaceView where
  tagGet name := s.tables.store.tagGet ns.asStr name
  tagPrefix namePrefix := s.tables.store.tagPrefix ns.asStr namePrefix
  edgeQuery q := s.tables.store.edgeQuery ns.asStr q
  epochCurrent := s.tables.epochCurrent[ns.asStr]?
  sequenceCurrent name := (s.tables.sequences[dbKey ns.asStr name]?).getD 0
  versionGet key versionId := s.versionGet ns.asStr key versionId
  versionList key max := s.versionList ns.asStr key max

variable (prim : Primitives) (leafBytes : EpochFields → Bytes)

def onTables (s : VersionStore) (op : TableOp) : VersionStore :=
  { s with tables := (s.tables.apply prim leafBytes op).2 }

def write (s : VersionStore) (ns : String) : NsWrite → VersionStore
  | .tagSet name kappa => s.onTables prim leafBytes (.tagSet ns name kappa)
  | .tagSetBatch updates => s.onTables prim leafBytes (.tagSetBatch ns updates)
  | .tagDelete name => s.onTables prim leafBytes (.tagDelete ns name)
  | .edgePut edge => s.onTables prim leafBytes (.edgePut ns edge)
  | .edgePutBatch edges => s.onTables prim leafBytes (.edgePutBatch ns edges)
  | .edgeDelete source target relation =>
    s.onTables prim leafBytes (.edgeDelete ns source target relation)
  | .sequenceNext name => s.onTables prim leafBytes (.sequenceNext ns name)
  | .epochAdvance mutations nowMs =>
    s.onTables prim leafBytes (.epochAdvance ns mutations nowMs)
  | .versionPut key kappa etag freshId nowMs => (s.versionPut ns key kappa etag freshId nowMs).2
  | .versionDelete key versionId freshId nowMs =>
    (s.versionDelete ns key versionId freshId nowMs).2

end VersionStore

/-! ## What a write changes -/

/-- The key of a row under a name. -/
def Under (ns key : String) : Prop := ∃ x, key = dbKey ns x

theorem under_dbKey (ns x : String) : Under ns (dbKey ns x) := ⟨x, rfl⟩

theorem not_under (h : ¬ KeysMeet a b) (x : String) : ¬ Under a (dbKey b x) := by
  intro ⟨y, hy⟩
  exact h ⟨y, x, hy.symm⟩

/-- Two states of the store differ in rows under one name only, and in blobs. -/
structure PersistentStore.OnlyUnder (ns : String) (s s' : PersistentStore) : Prop where
  tags : ∀ key, ¬ Under ns key → s'.tags[key]? = s.tags[key]?
  edges : ∀ key, ¬ Under ns key → s'.edges[key]? = s.edges[key]?
  edgeFwd : ∀ key, ¬ Under ns key → s'.edgeFwd.values key = s.edgeFwd.values key
  edgeRev : ∀ key, ¬ Under ns key → s'.edgeRev.values key = s.edgeRev.values key

namespace PersistentStore.OnlyUnder

variable {ns : String} {s s' s'' : PersistentStore}

theorem refl (ns : String) (s : PersistentStore) : s.OnlyUnder ns s :=
  ⟨fun _ _ => rfl, fun _ _ => rfl, fun _ _ => rfl, fun _ _ => rfl⟩

theorem trans (h : s.OnlyUnder ns s') (h' : s'.OnlyUnder ns s'') : s.OnlyUnder ns s'' := by
  refine ⟨?_, ?_, ?_, ?_⟩
  · intro key hkey
    rw [h'.tags key hkey, h.tags key hkey]
  · intro key hkey
    rw [h'.edges key hkey, h.edges key hkey]
  · intro key hkey
    rw [h'.edgeFwd key hkey, h.edgeFwd key hkey]
  · intro key hkey
    rw [h'.edgeRev key hkey, h.edgeRev key hkey]

end PersistentStore.OnlyUnder

theorem get_insert_of_not_under {V : Type} {t : Table String V} {ns x key : String} {v : V}
    (hkey : ¬ Under ns key) : (t.insert (dbKey ns x) v)[key]? = t[key]? := by
  rw [get_insert, if_neg]
  intro heq
  exact hkey ⟨x, heq.symm⟩

theorem get_erase_of_not_under {V : Type} {t : Table String V} {ns x key : String}
    (hkey : ¬ Under ns key) : (t.erase (dbKey ns x))[key]? = t[key]? := by
  rw [get_erase, if_neg]
  intro heq
  exact hkey ⟨x, heq.symm⟩

theorem values_insert_of_not_under {m : Multimap String String} {ns x key : String}
    {set : Std.ExtTreeSet String compare} (hkey : ¬ Under ns key) :
    Multimap.values (m.insert (dbKey ns x) set) key = m.values key := by
  unfold Multimap.values
  rw [Multimap.valueSet_insert, if_neg]
  intro heq
  exact hkey ⟨x, heq.symm⟩

namespace PersistentStore

variable (prim : Primitives) (s : PersistentStore) (ns : String) (edge : Edge)

theorem tagSet_onlyUnder (name kappa : String) : s.OnlyUnder ns (s.tagSet ns name kappa) :=
  ⟨fun _ hkey => get_insert_of_not_under hkey, fun _ _ => rfl, fun _ _ => rfl, fun _ _ => rfl⟩

theorem tagDelete_onlyUnder (name : String) : s.OnlyUnder ns (s.tagDelete ns name) :=
  ⟨fun _ hkey => get_erase_of_not_under hkey, fun _ _ => rfl, fun _ _ => rfl, fun _ _ => rfl⟩

theorem blobPut_onlyUnder (kappa : String) (content : Bytes) :
    s.OnlyUnder ns (s.blobPut kappa content) :=
  ⟨fun _ _ => rfl, fun _ _ => rfl, fun _ _ => rfl, fun _ _ => rfl⟩

theorem edgeInsert_onlyUnder : s.OnlyUnder ns (s.edgeInsert prim ns edge) :=
  ⟨fun _ _ => rfl, fun _ hkey => get_insert_of_not_under hkey,
    fun _ hkey => values_insert_of_not_under hkey, fun _ hkey => values_insert_of_not_under hkey⟩

theorem edgeUpsert_onlyUnder : s.OnlyUnder ns (s.edgeUpsert prim ns edge) := by
  apply edgeUpsert_induction prim (P := s.OnlyUnder ns)
  · exact .refl ns s
  · intro k
    exact ⟨fun _ _ => rfl, fun _ hkey => get_insert_of_not_under hkey, fun _ _ => rfl, fun _ _ => rfl⟩
  · intro rows
    have h := s.edgeInsert_onlyUnder prim ns edge
    exact ⟨h.tags, h.edges, h.edgeFwd, h.edgeRev⟩

theorem edgePut_onlyUnder : s.OnlyUnder ns (s.edgePut prim ns edge) :=
  (s.blobPut_onlyUnder ns _ _).trans (edgeUpsert_onlyUnder prim _ ns edge)

theorem edgePutBatch_onlyUnder (edges : List Edge) :
    s.OnlyUnder ns (s.edgePutBatch prim ns edges) := by
  unfold edgePutBatch
  induction edges generalizing s with
  | nil => exact .refl ns s
  | cons edge edges ih =>
    rw [foldl_cons]
    exact ((s.blobPut_onlyUnder ns _ _).trans (edgeInsert_onlyUnder prim _ ns edge)).trans (ih _)

/-- The edge that `edge_delete` finds, with the label it is listed under. -/
def edgeToDelete (source target : String) (relation : EdgeRelation) : Option (String × Edge) :=
  (s.edgeFwd.values (dbKey ns source)).findSome? fun kappa =>
    ((s.edgeAt ns kappa).filter fun edge =>
      edge.source == source && edge.target == target && edge.relation == relation).map (kappa, ·)

theorem edgeDelete_eq (source target : String) (relation : EdgeRelation) :
    s.edgeDelete ns source target relation =
      match s.edgeToDelete ns source target relation with
      | none => s
      | some (kappa, edge) =>
        { s with
          edges := s.edges.erase (dbKey ns kappa)
          edgeFwd := s.edgeFwd.remove (dbKey ns edge.source) kappa
          edgeRev := s.edgeRev.remove (dbKey ns edge.target) kappa
          blobs := s.blobs.erase kappa } := rfl

theorem edgeDelete_onlyUnder (source target : String)
    (relation : EdgeRelation) : s.OnlyUnder ns (s.edgeDelete ns source target relation) := by
  rw [edgeDelete_eq]
  cases s.edgeToDelete ns source target relation with
  | none => exact .refl ns s
  | some found =>
    exact ⟨fun _ _ => rfl, fun _ hkey => get_erase_of_not_under hkey,
      fun _ hkey => values_insert_of_not_under hkey, fun _ hkey => values_insert_of_not_under hkey⟩

theorem tagWrites_onlyUnder (updates : List TagUpdate) (s : PersistentStore) :
    s.OnlyUnder ns (tagWrites ns s updates).2 := by
  induction updates generalizing s with
  | nil => exact .refl ns s
  | cons update updates ih => exact (s.tagSet_onlyUnder ns _ _).trans (ih _)

end PersistentStore

namespace VersionStore

/-- Two states differ in rows under one name only, and in blobs. -/
structure OnlyUnder (ns : String) (s s' : VersionStore) : Prop where
  store : s.tables.store.OnlyUnder ns s'.tables.store
  sequences : ∀ key, ¬ Under ns key → s'.tables.sequences[key]? = s.tables.sequences[key]?
  epochs : ∀ name, name ≠ ns → s'.tables.epochCurrent[name]? = s.tables.epochCurrent[name]?
  versions : ∀ key, ¬ textBytes (dbKey ns "") <+: key → s'.versions[key]? = s.versions[key]?

theorem OnlyUnder.refl (ns : String) (s : VersionStore) : s.OnlyUnder ns s :=
  ⟨.refl ns _, fun _ _ => rfl, fun _ _ => rfl, fun _ _ => rfl⟩

variable {ns : String}

theorem OnlyUnder.trans {s s' s'' : VersionStore} (h : s.OnlyUnder ns s')
    (h' : s'.OnlyUnder ns s'') : s.OnlyUnder ns s'' := by
  refine ⟨h.store.trans h'.store, ?_, ?_, ?_⟩
  · intro key hkey
    rw [h'.sequences key hkey, h.sequences key hkey]
  · intro name hname
    rw [h'.epochs name hname, h.epochs name hname]
  · intro key hkey
    rw [h'.versions key hkey, h.versions key hkey]

variable {s : VersionStore}

theorem OnlyUnder.of_store {store : PersistentStore} (h : s.tables.store.OnlyUnder ns store) :
    s.OnlyUnder ns { s with tables := { s.tables with store } } :=
  ⟨h, fun _ _ => rfl, fun _ _ => rfl, fun _ _ => rfl⟩

theorem OnlyUnder.of_versions {versions : Table Bytes VersionEntry}
    (h : ∀ key, ¬ textBytes (dbKey ns "") <+: key → versions[key]? = s.versions[key]?) :
    s.OnlyUnder ns { s with versions } :=
  ⟨.refl ns _, fun _ _ => rfl, fun _ _ => rfl, h⟩

theorem tagSet_onlyUnder (s : VersionStore) (ns name kappa : String) :
    s.OnlyUnder ns (s.tagSet ns name kappa) :=
  .of_store (s.tables.store.tagSet_onlyUnder ns name kappa)

theorem tagDelete_onlyUnder (s : VersionStore) (ns name : String) :
    s.OnlyUnder ns (s.tagDelete ns name) :=
  .of_store (s.tables.store.tagDelete_onlyUnder ns name)

/-! ### Version rows -/

theorem prefix_versionPrefix (ns key : String) :
    textBytes (dbKey ns "") <+: versionPrefix ns key := by
  refine ⟨textBytes key ++ [0], ?_⟩
  have hnul : textBytes (dbKey ns "") = textBytes ns ++ [0] := by
    have hchar : textBytes (String.singleton '\x00') = [0] := by decide
    have hempty : textBytes "" = [] := by decide
    rw [dbKey, joinKey, textBytes_append, textBytes_append, hchar, hempty, append_nil]
  rw [hnul, versionPrefix, append_assoc]
  rfl

variable {row : Bytes × VersionEntry}

theorem prefix_of_mem_versionRows {ns key : String}
    (h : row ∈ s.versionRows ns key) : textBytes (dbKey ns "") <+: row.1 :=
  (prefix_versionPrefix ns key).trans (mem_versionRows.mp h).2

theorem insertVersion_onlyUnder (s : VersionStore) (ns key : String) (entry : VersionEntry) :
    s.OnlyUnder ns (s.insertVersion ns key entry) := by
  apply OnlyUnder.of_versions
  intro k hk
  rw [get_insert, if_neg]
  intro heq
  exact hk (heq ▸ (prefix_versionPrefix ns key).trans (prefix_append _ _))

theorem versionRemoveNull_onlyUnder (s : VersionStore) (ns key : String) :
    s.OnlyUnder ns (s.versionRemoveNull ns key) := by
  apply OnlyUnder.of_versions
  intro k hk
  rw [get_foldl_erase, if_neg]
  intro hmem
  obtain ⟨row, hrow, rfl⟩ := mem_map.mp hmem
  exact hk (prefix_of_mem_versionRows (mem_of_mem_filter hrow))

theorem versionPut_onlyUnder (s : VersionStore) (ns key kappa : String) (etag : Option String)
    (freshId : String) (nowMs : ℕ) :
    s.OnlyUnder ns (s.versionPut ns key kappa etag freshId nowMs).2 := by
  unfold versionPut
  cases s.versioningState ns with
  | unversioned => exact s.tagSet_onlyUnder ns key kappa
  | enabled => exact (s.insertVersion_onlyUnder ns key _).trans (tagSet_onlyUnder _ ns key kappa)
  | suspended =>
    exact ((s.versionRemoveNull_onlyUnder ns key).trans (insertVersion_onlyUnder _ ns key _)).trans
      (tagSet_onlyUnder _ ns key kappa)

theorem eraseRow_onlyUnder {ns key : String} (hrow : row ∈ s.versionRows ns key) :
    s.OnlyUnder ns { s with versions := s.versions.erase row.1 } := by
  apply OnlyUnder.of_versions
  intro k hk
  rw [get_erase, if_neg]
  intro heq
  exact hk (heq ▸ prefix_of_mem_versionRows hrow)

theorem versionDelete_onlyUnder (s : VersionStore) (ns key : String) (versionId : Option String)
    (freshId : String) (nowMs : ℕ) :
    s.OnlyUnder ns (s.versionDelete ns key versionId freshId nowMs).2 := by
  apply versionDelete_induction (P := s.OnlyUnder ns)
  · exact fun _ => s.tagDelete_onlyUnder ns key
  · exact fun _ => (s.insertVersion_onlyUnder ns key _).trans (tagDelete_onlyUnder _ ns key)
  · exact fun row hrow => eraseRow_onlyUnder hrow
  · exact .refl ns s

variable (prim : Primitives) (leafBytes : EpochFields → Bytes)

/-- **A write changes rows under its own name only.** -/
theorem write_onlyUnder (s : VersionStore) (ns : String) (w : NsWrite) :
    s.OnlyUnder ns (s.write prim leafBytes ns w) := by
  cases w with
  | tagSet name kappa => exact s.tagSet_onlyUnder ns name kappa
  | tagSetBatch updates =>
    show s.OnlyUnder ns { s with tables := (s.tables.apply prim leafBytes (.tagSetBatch ns updates)).2 }
    cases hconflict : s.tables.store.casConflict ns updates with
    | some update =>
      simp only [apply, hconflict]
      exact .refl ns s
    | none =>
      simp only [apply, hconflict]
      exact .of_store (tagWrites_onlyUnder ns updates _)
  | tagDelete name => exact s.tagDelete_onlyUnder ns name
  | edgePut edge => exact .of_store (s.tables.store.edgePut_onlyUnder prim ns edge)
  | edgePutBatch edges => exact .of_store (s.tables.store.edgePutBatch_onlyUnder prim ns edges)
  | edgeDelete source target relation =>
    exact .of_store (s.tables.store.edgeDelete_onlyUnder ns source target relation)
  | sequenceNext name =>
    exact ⟨.refl ns _, fun _ hkey => get_insert_of_not_under hkey, fun _ _ => rfl, fun _ _ => rfl⟩
  | epochAdvance mutations nowMs =>
    show s.OnlyUnder ns
      { s with tables := (s.tables.apply prim leafBytes (.epochAdvance ns mutations nowMs)).2 }
    simp only [apply, epochAdvance_of_tags prim leafBytes (s.tables.store.tagList_eq ns)]
    split_ifs
    · exact .refl ns s
    refine ⟨s.tables.store.blobPut_onlyUnder ns _ _, fun _ hkey => get_insert_of_not_under hkey,
      ?_, fun _ _ => rfl⟩
    intro name hname
    rw [get_insert, if_neg (Ne.symm hname)]
  | versionPut key kappa etag freshId nowMs =>
    exact s.versionPut_onlyUnder ns key kappa etag freshId nowMs
  | versionDelete key versionId freshId nowMs =>
    exact s.versionDelete_onlyUnder ns key versionId freshId nowMs

/-! ## What another reference shows -/

section

variable {s s' : VersionStore} {ns : String} {v : NamespaceRef} {name : String}

section

variable (h : s.OnlyUnder ns s')
include h

theorem OnlyUnder.tagGet_eq (hmeet : ¬ KeysMeet ns name)
    (x : String) : s'.tables.store.tagGet name x = s.tables.store.tagGet name x := by
  unfold PersistentStore.tagGet
  rw [h.store.tags _ (not_under hmeet x)]

theorem OnlyUnder.tagPrefix_eq (hmeet : ¬ KeysMeet ns name)
    (namePrefix : String) :
    s'.tables.store.tagPrefix name namePrefix = s.tables.store.tagPrefix name namePrefix := by
  have hentries : s'.tables.store.tagEntries name = s.tables.store.tagEntries name :=
    tagEntries_eq_iff.mpr fun x => h.store.tags _ (not_under hmeet x)
  by_cases hutf8 : successorIsUtf8 (dbKey name namePrefix) = true
  · rw [PersistentStore.tagPrefix_eq hutf8, PersistentStore.tagPrefix_eq hutf8, hentries]
  · rw [PersistentStore.tagPrefix, PersistentStore.tagPrefix, if_neg hutf8, if_neg hutf8]

theorem OnlyUnder.versioningState_eq (hmeet : ¬ KeysMeet ns name) :
    s'.versioningState name = s.versioningState name := by
  unfold versioningState
  rw [h.tagGet_eq hmeet]

theorem OnlyUnder.edgeQuery_eq (hmeet : ¬ KeysMeet ns name) (q : EdgeQuery) :
    s'.tables.store.edgeQuery name q = s.tables.store.edgeQuery name q := by
  have hedge : s'.tables.store.edgeAt name = s.tables.store.edgeAt name := by
    funext kappa
    exact h.store.edges _ (not_under hmeet kappa)
  rw [PersistentStore.edgeQuery_eq, PersistentStore.edgeQuery_eq]
  unfold edgesListed
  rw [hedge, h.store.edgeFwd _ (not_under hmeet _), h.store.edgeRev _ (not_under hmeet _)]

theorem OnlyUnder.versionRows_eq (hmeet : ¬ KeysMeet ns name) (key : String) :
    s'.versionRows name key = s.versionRows name key := by
  apply filter_toList_congr (p := fun k => (versionPrefix name key).isPrefixOf k)
  intro k hk
  apply h.versions
  intro hns
  have hname := (prefix_versionPrefix name key).trans (List.isPrefixOf_iff_prefix.mp hk)
  exact hmeet (keysMeet_of_bytes hns hname)

end

/-- The sizes that an unversioned read reports are unchanged. -/
def SizesKept (s s' : VersionStore) (name : String) : Prop :=
  s.versioningState name = .unversioned → ∀ x value,
    s.tables.store.tags[dbKey name x]? = some value →
      s'.blobSize value.kappa = s.blobSize value.kappa

theorem OnlyUnder.versionGet_eq (h : s.OnlyUnder ns s') (hmeet : ¬ KeysMeet ns name)
    (hsizes : s.SizesKept s' name) (key : String)
    (versionId : Option String) : s'.versionGet name key versionId = s.versionGet name key versionId := by
  unfold versionGet
  rw [h.versioningState_eq hmeet]
  cases hs : s.versioningState name with
  | unversioned =>
    dsimp only
    rw [h.tagGet_eq hmeet]
    unfold PersistentStore.tagGet
    cases hrow : s.tables.store.tags[dbKey name key]? with
    | none => rfl
    | some value =>
      show Except.ok _ = Except.ok _
      rw [hsizes hs key value hrow]
  | enabled | suspended => rw [h.versionRows_eq hmeet]

/-- **A change under a name that shares no key** shows nothing through a reference, iff the sizes
it reports are unchanged. -/
theorem OnlyUnder.view_eq_iff (h : s.OnlyUnder ns s') (hmeet : ¬ KeysMeet ns v.asStr) :
    s'.view v = s.view v ↔ s.SizesKept s' v.asStr := by
  constructor
  · intro hview hs x value hrow
    have hget : s'.versionGet v.asStr x none = s.versionGet v.asStr x none :=
      congrFun (congrFun (congrArg NamespaceView.versionGet hview) x) none
    unfold versionGet at hget
    rw [h.versioningState_eq hmeet, hs] at hget
    dsimp only at hget
    rw [h.tagGet_eq hmeet, PersistentStore.tagGet, hrow] at hget
    exact congrArg VersionEntry.size (Except.ok.inj hget)
  · intro hsizes
    have hne : v.asStr ≠ ns := by
      intro heq
      exact hmeet (heq ▸ keysMeet_self v.asStr)
    apply NamespaceView.ext
    · funext x
      exact h.tagGet_eq hmeet x
    · funext namePrefix
      exact h.tagPrefix_eq hmeet namePrefix
    · funext q
      exact h.edgeQuery_eq hmeet q
    · exact h.epochs _ hne
    · funext x
      show (s'.tables.sequences[_]?).getD 0 = (s.tables.sequences[_]?).getD 0
      rw [h.sequences _ (not_under hmeet x)]
    · funext key versionId
      exact h.versionGet_eq hmeet hsizes key versionId
    · funext key max
      show s'.versionList v.asStr key max = s.versionList v.asStr key max
      unfold versionList
      rw [h.versioningState_eq hmeet, h.versionRows_eq hmeet]

end

/-! ## Blobs -/

def firstPut (puts : List (String × Bytes)) (kappa : String) : Option Bytes :=
  (puts.find? fun put => put.1 = kappa).map Prod.snd

theorem get_foldl_insertIfNew (puts : List (String × Bytes)) (blobs : Table String Bytes)
    (kappa : String) : (puts.foldl (fun blobs put => blobs.insertIfNew put.1 put.2) blobs)[kappa]? =
      blobs[kappa]?.or (firstPut puts kappa) := by
  induction puts generalizing blobs with
  | nil => simp [firstPut]
  | cons put puts ih =>
    rw [foldl_cons, ih, get_insertIfNew]
    unfold firstPut
    by_cases hput : put.1 = kappa
    · subst hput
      cases hblob : blobs[put.1]? with
      | none | some content => simp
    · simp [hput]

/-- The blobs that a write stores if there are none yet: edges and epoch roots. -/
def blobPuts (s : VersionStore) (ns : String) : NsWrite → List (String × Bytes)
  | .edgePut edge => [(edge.kappa prim, prim.edgeBytes edge)]
  | .edgePutBatch edges => edges.map fun edge => (edge.kappa prim, prim.edgeBytes edge)
  | .epochAdvance mutations nowMs =>
    let leaf := s.tables.epochBytes leafBytes ns (s.tables.store.tagEntries ns) mutations nowMs
    if s.tables.store.encrypted then [] else [(prim.kappaFromBytes leaf, leaf)]
  | _ => []

def blobRemoved (s : VersionStore) (ns : String) : NsWrite → Option String
  | .edgeDelete source target relation =>
    (s.tables.store.edgeToDelete ns source target relation).map Prod.fst
  | _ => none

/-- The blob under a label, after those that a write removes and stores. -/
def blobAfter (s : VersionStore) (ns : String) (w : NsWrite) (kappa : String) : Option Bytes :=
  if s.blobRemoved ns w = some kappa then none
  else s.tables.store.blobs[kappa]?.or (firstPut (s.blobPuts prim leafBytes ns w) kappa)

theorem edgeUpsert_blobs (s : PersistentStore) (ns : String) (edge : Edge) :
    (s.edgeUpsert prim ns edge).blobs = s.blobs :=
  edgeUpsert_induction prim (P := fun t => t.blobs = s.blobs) rfl (fun _ => rfl) fun _ => rfl

theorem tagWrites_blobs (ns : String) (updates : List TagUpdate) (s : PersistentStore) :
    (tagWrites ns s updates).2.blobs = s.blobs := by
  induction updates generalizing s with
  | nil => rfl
  | cons update updates ih => exact ih _

theorem edgePutBatch_blobs (s : PersistentStore) (ns : String) (edges : List Edge) :
    (s.edgePutBatch prim ns edges).blobs =
      (edges.map fun edge => (edge.kappa prim, prim.edgeBytes edge)).foldl
        (fun blobs put => blobs.insertIfNew put.1 put.2) s.blobs := by
  unfold edgePutBatch
  induction edges generalizing s with
  | nil => rfl
  | cons edge edges ih =>
    rw [foldl_cons, ih]
    rfl

/-- **What a write does to the blobs.** -/
theorem blobs_write (s : VersionStore) (ns : String) (w : NsWrite) (kappa : String) :
    (s.write prim leafBytes ns w).tables.store.blobs[kappa]? =
      s.blobAfter prim leafBytes ns w kappa := by
  -- a write that removes no blob stores a list of them
  have hputs : ∀ puts, s.blobRemoved ns w = none → s.blobPuts prim leafBytes ns w = puts →
      (s.write prim leafBytes ns w).tables.store.blobs =
        puts.foldl (fun blobs put => blobs.insertIfNew put.1 put.2) s.tables.store.blobs →
      (s.write prim leafBytes ns w).tables.store.blobs[kappa]? =
        s.blobAfter prim leafBytes ns w kappa := by
    intro puts hremoved hputs hblobs
    rw [hblobs, get_foldl_insertIfNew, blobAfter, hremoved, if_neg (by simp), hputs]
  cases w with
  | tagSet name kappa => exact hputs [] rfl rfl rfl
  | tagSetBatch updates =>
    apply hputs [] rfl rfl
    show (s.tables.apply prim leafBytes (.tagSetBatch ns updates)).2.store.blobs = _
    cases hconflict : s.tables.store.casConflict ns updates with
    | some update => simp only [apply, hconflict, foldl_nil]
    | none =>
      simp only [apply, hconflict, foldl_nil]
      exact tagWrites_blobs ns updates _
  | tagDelete name => exact hputs [] rfl rfl rfl
  | edgePut edge => exact hputs _ rfl rfl (edgeUpsert_blobs prim _ ns edge)
  | edgePutBatch edges => exact hputs _ rfl rfl (edgePutBatch_blobs prim _ ns edges)
  | edgeDelete source target relation =>
    show (s.tables.store.edgeDelete ns source target relation).blobs[kappa]? = _
    have hnone : s.blobPuts prim leafBytes ns (.edgeDelete source target relation) = [] := rfl
    rw [edgeDelete_eq, blobAfter, blobRemoved, hnone]
    cases s.tables.store.edgeToDelete ns source target relation with
    | none | some found => simp [firstPut]
  | sequenceNext name => exact hputs [] rfl rfl rfl
  | epochAdvance mutations nowMs =>
    apply hputs _ rfl rfl
    show (s.tables.apply prim leafBytes (.epochAdvance ns mutations nowMs)).2.store.blobs = _
    simp only [apply, epochAdvance_of_tags prim leafBytes (s.tables.store.tagList_eq ns), blobPuts]
    split_ifs <;> rfl
  | versionPut key kappa etag freshId nowMs =>
    exact hputs [] rfl rfl (s.versionPut_blobs ns key kappa etag freshId nowMs).2
  | versionDelete key versionId freshId nowMs =>
    exact hputs [] rfl rfl (s.versionDelete_blobs ns key versionId freshId nowMs).2

/-- A write spares the sizes that an unversioned namespace reports: no blob that one of its tags
names is stored or removed with another size than it had. -/
def SparesSizes (s : VersionStore) (ns : String) (w : NsWrite) (name : String) : Prop :=
  s.versioningState name = .unversioned → ∀ x value,
    s.tables.store.tags[dbKey name x]? = some value →
      ((s.blobAfter prim leafBytes ns w value.kappa).map List.length).getD 0 =
        s.blobSize value.kappa

variable {name : String}

theorem sizesKept_write_iff {w : NsWrite} :
    s.SizesKept (s.write prim leafBytes ns w) name ↔ s.SparesSizes prim leafBytes ns w name := by
  unfold SizesKept SparesSizes
  have hsize : ∀ kappa, (s.write prim leafBytes ns w).blobSize kappa =
      ((s.blobAfter prim leafBytes ns w kappa).map List.length).getD 0 := by
    intro kappa
    rw [blobSize, blobs_write]
  simp only [hsize]

theorem exists_write_seen (s : VersionStore) {v : NamespaceRef} (hmeet : KeysMeet ns v.asStr) :
    ∃ w, (s.write prim leafBytes ns w).view v ≠ s.view v := by
  obtain ⟨x, y, hxy⟩ := hmeet
  -- a label that the tag does not have yet
  obtain ⟨kappa, hkappa⟩ : ∃ kappa, ∀ value, s.tables.store.tags[dbKey ns x]? = some value →
      value.kappa ≠ kappa := by
    cases s.tables.store.tags[dbKey ns x]? with
    | none => exact ⟨"", by simp⟩
    | some value =>
      refine ⟨value.kappa ++ "x", ?_⟩
      intro value' hvalue heq
      cases hvalue
      have := congrArg String.length heq
      simp at this
  refine ⟨.tagSet x kappa, ?_⟩
  intro hview
  have hget : (s.tables.store.tagSet ns x kappa).tagGet v.asStr y =
      s.tables.store.tagGet v.asStr y :=
    congrFun (congrArg NamespaceView.tagGet hview) y
  unfold PersistentStore.tagGet PersistentStore.tagSet at hget
  rw [← hxy] at hget
  simp only [get_insert, if_true] at hget
  cases hrow : s.tables.store.tags[dbKey ns x]? with
  | none =>
    simp [hrow] at hget
  | some value =>
    rw [hrow] at hget
    exact hkappa value hrow (congrArg TagEntry.kappa (Except.ok.inj hget)).symm

/-! ## Deleted and created again -/

/-- Nothing stands under a name: no tags, edges, versions or epochs. -/
@[mk_iff] structure Bare (s : VersionStore) (name : String) : Prop where
  tags : s.tables.store.tagList name = .ok []
  edges : ∀ q, s.tables.store.edgeQuery name q = .ok []
  versions : ∀ key, s.versionRows name key = []
  epochs : s.tables.epochCurrent[name]? = none

theorem OnlyUnder.bare_iff {s s' : VersionStore} (h : s.OnlyUnder ns s')
    (hmeet : ¬ KeysMeet ns name) : s'.Bare name ↔ s.Bare name := by
  have htags : s'.tables.store.tagList name = s.tables.store.tagList name :=
    h.tagPrefix_eq hmeet ""
  have hepoch : s'.tables.epochCurrent[name]? = s.tables.epochCurrent[name]? := by
    apply h.epochs
    intro heq
    exact hmeet (heq ▸ keysMeet_self name)
  simp only [VersionStore.bare_iff, htags, h.edgeQuery_eq hmeet, h.versionRows_eq hmeet, hepoch]

def writes (s : VersionStore) (ws : List (String × NsWrite)) : VersionStore :=
  ws.foldl (fun s w => s.write prim leafBytes w.1 w.2) s

theorem bare_writes_iff (s : VersionStore) {ws : List (String × NsWrite)}
    (hmeet : ∀ w ∈ ws, ¬ KeysMeet w.1 name) :
    (s.writes prim leafBytes ws).Bare name ↔ s.Bare name := by
  unfold writes
  induction ws generalizing s with
  | nil => rfl
  | cons w ws ih =>
    rw [foldl_cons, ih _ fun w' hw' => hmeet w' (by simp [hw'])]
    exact (s.write_onlyUnder prim leafBytes w.1 w.2).bare_iff (hmeet w (by simp))

def withStore (s : VersionStore) (store : PersistentStore) : VersionStore :=
  { s with tables := { s.tables with store } }

/-- **How far namespaces are isolated.** -/
theorem isolation_iff (s : VersionStore) :
    (∀ (a b : String) (p q : Option String) (u v : NamespaceRef),
      s.tables.store.namespaceResolve a p = .ok u →
      s.tables.store.namespaceResolve b q = .ok v → u.uuid ≠ v.uuid →
      (¬ KeysMeet a b → ∀ w, (s.write prim leafBytes u.asStr w).view v = s.view v ↔
        s.SparesSizes prim leafBytes a w b) ∧
      (KeysMeet a b → ∃ w, (s.write prim leafBytes u.asStr w).view v ≠ s.view v)) ∧
    (∀ (name actor owner : String) (p q : Option String) (deleted created : PersistentStore)
      (ws : List (String × NsWrite)) (uuid : Uuid) (nowMs : ℕ) (ns : NamespaceRef),
      s.tables.store.namespaceDelete name actor p = .ok deleted →
      (∀ w ∈ ws, ¬ KeysMeet w.1 name) →
      ((s.withStore deleted).writes prim leafBytes ws).tables.store.namespaceCreate
        uuid nowMs name owner q = .ok (ns, created) →
      ((((s.withStore deleted).writes prim leafBytes ws).withStore created).Bare ns.asStr ↔
        s.Bare name)) := by
  constructor
  · intro a b p q u v hu hv _
    obtain ⟨uuid, -, rfl⟩ := namespaceResolve_eq_ok.mp hu
    obtain ⟨uuid', -, rfl⟩ := namespaceResolve_eq_ok.mp hv
    constructor
    · intro hmeet w
      have hkept := (s.write_onlyUnder prim leafBytes a w).view_eq_iff (v := .withName uuid' b) hmeet
      exact hkept.trans (sizesKept_write_iff prim leafBytes)
    · intro hmeet
      exact s.exists_write_seen prim leafBytes hmeet
  · intro name actor owner p q deleted created ws uuid nowMs ns hdelete hmeet hcreate
    obtain ⟨aliases, records, rfl⟩ := namespaceDelete_eq_ok hdelete
    obtain ⟨rfl, -, rfl⟩ := namespaceCreate_eq_ok hcreate
    -- neither the deletion nor the creation touches a row
    have hcreated : ∀ (s : VersionStore) aliases records,
        (s.withStore { s.tables.store with
          namespaceAliases := aliases, namespaceRecords := records }).Bare name ↔ s.Bare name := by
      intro s aliases records
      rw [bare_iff, bare_iff]
      rfl
    rw [NamespaceRef.asStr_withName, hcreated, bare_writes_iff prim leafBytes _ hmeet, hcreated]

/-- A store in which namespaces were created under the names listed, each with its protocol; the
`i`-th has UUID `i`. -/
def withNamespaces (names : List (String × Option String)) : VersionStore :=
  (new false).withStore (names.zipIdx.foldl
    (fun store (name, i) =>
      match store.namespaceCreate (Fin.ofNat _ i) 0 name.1 "alice" name.2 with
      | .ok (_, store) => store
      | .error _ => store)
    (.new false))

theorem bare_of_empty {s : VersionStore} (htags : s.tables.store.tags = ∅)
    (hfwd : s.tables.store.edgeFwd = ∅) (hrev : s.tables.store.edgeRev = ∅)
    (hversions : s.versions = ∅) (hepochs : s.tables.epochCurrent = ∅) (name : String) :
    s.Bare name := by
  refine ⟨?_, ?_, ?_, ?_⟩
  · rw [tagList_eq, tagEntries, htags]
    simp
  · intro q
    rw [edgeQuery_eq, edgesListed, edgesListed, hfwd, hrev]
    cases q.direction <;> simp
  · intro key
    rw [versionRows, hversions]
    simp
  · rw [hepochs]
    simp

def twoNames : VersionStore := withNamespaces [("a", none), ("b", none)]

/-- Two names: a tag set under one is not seen under the other, and a namespace that was deleted
empty is empty when it is created again. -/
theorem isolation_two_names :
    (twoNames.write .sample (fun _ => []) "a" (.tagSet "t" "k")).view (.withName 1 "b") =
      twoNames.view (.withName 1 "b") ∧
    ∃ deleted created ns,
      twoNames.tables.store.namespaceDelete "a" "alice" none = .ok deleted ∧
        deleted.namespaceCreate 2 0 "a" "bob" none = .ok (ns, created) ∧
        ((twoNames.withStore deleted).withStore created).Bare ns.asStr := by
  have hu : twoNames.tables.store.namespaceResolve "a" none = .ok (.withName 0 "a") := by
    decide +kernel
  have hv : twoNames.tables.store.namespaceResolve "b" none = .ok (.withName 1 "b") := by
    decide +kernel
  have hmeet : ¬ KeysMeet "a" "b" := by
    rw [keysMeet_iff_eq (by decide) (by decide)]
    decide
  have hspares : twoNames.SparesSizes .sample (fun _ => []) "a" (.tagSet "t" "k") "b" := by
    intro _ x value hrow
    have hempty : (∅ : Table String TagValue)[dbKey "b" x]? = some value := hrow
    simp at hempty
  have hok : (twoNames.tables.store.namespaceDelete "a" "alice" none >>= fun deleted =>
      deleted.namespaceCreate 2 0 "a" "bob" none).isOk = true := by decide +kernel
  constructor
  · exact (((isolation_iff .sample (fun _ => []) _).1 "a" "b" none none _ _ hu hv (by decide)).1
      hmeet (.tagSet "t" "k")).mpr hspares
  · obtain ⟨r, hr⟩ := isOk_iff.mp hok
    obtain ⟨deleted, hdelete, hcreate⟩ := bind_eq_ok.mp hr
    refine ⟨deleted, r.2, r.1, hdelete, hcreate, ?_⟩
    exact ((isolation_iff .sample (fun _ => []) _).2 "a" "alice" "bob" none none deleted r.2 []
      2 0 r.1 hdelete (by simp) hcreate).mpr (bare_of_empty rfl rfl rfl rfl rfl "a")

def sharedName : VersionStore := withNamespaces [("foo", some "oci"), ("foo", some "s3")]

/-- One name under two protocols: different UUIDs, but a tag set through one is seen through the
other. -/
theorem isolation_shared_name :
    (sharedName.tables.store.namespaceResolve "foo" (some "oci") = .ok (.withName 0 "foo") ∧
      sharedName.tables.store.namespaceResolve "foo" (some "s3") = .ok (.withName 1 "foo")) ∧
    ((sharedName.view (.withName 1 "foo")).tagGet "t" = .error (.notFound "foo/t") ∧
      ((sharedName.write .sample (fun _ => []) (NamespaceRef.withName 0 "foo").asStr
        (.tagSet "t" "k")).view (.withName 1 "foo")).tagGet "t" = .ok ⟨"t", "k", 1⟩) ∧
    (do
      let deleted ← ((withNamespaces [("a", none)]).write .sample (fun _ => []) "a"
        (.tagSet "t" "k")).tables.store.namespaceDelete "a" "alice" none
      let (ns, created) ← deleted.namespaceCreate 2 0 "a" "bob" none
      created.tagList ns.asStr) = .ok [⟨"t", "k", 1⟩] := by
  decide +kernel

end VersionStore

end KappaRegistry
