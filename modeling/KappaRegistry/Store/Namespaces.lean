import KappaRegistry.Lib.Scan
import KappaRegistry.Store.Epoch
import KappaRegistry.Store.EdgeTables

/-!
# What a Namespace Holds Under Its Names

`kappa-store-redb/src/namespace.rs`: deleting and listing namespaces, and what is left of a
namespace's content when its name changes. Renaming and aliasing move entries of the alias table
and keep the UUID. But a row is kept under the name that the reference carries, and not under the
UUID, so a namespace that is resolved under a new name shows the rows that stand under that name.

**`TableStore.contents_renamed_iff`**: the content is kept exactly if the rows under the two names
agreed before.
-/

namespace KappaRegistry

open Lib PersistentStore List

namespace PersistentStore

/-! ## Deleting and listing -/

/-- The alias table without one name of a record: the global key, and the one scoped by the
record's protocol. -/
def dropAlias (record : NamespaceRecord) (aliases : Table String Uuid) (name : String) :
    Table String Uuid :=
  match record.protocol with
  | some proto => (aliases.erase name).erase (aliasKey name (some proto))
  | none => aliases.erase name

/-- `namespace_delete`: drops the aliases and marks the record; no row of the namespace goes. -/
def namespaceDelete (s : PersistentStore) (name actor : String) (protocol : Option String) :
    Except StoreError PersistentStore := do
  let uuid ← s.aliasLookup (aliasKey name protocol)
  let record ← s.recordLookup uuid
  ensure (record.owner = actor)
    (.rejected ("only owner " ++ record.owner ++ " can delete, actor is " ++ actor))
  return { s with
    namespaceAliases := record.aliases.foldl (dropAlias record) s.namespaceAliases
    namespaceRecords := s.namespaceRecords.insert uuid { record with tombstoned := true } }

/-- The order of records by their first alias; a record without one comes first. -/
def firstAliasLe (a b : NamespaceRecord) : Bool :=
  match a.aliases.head?, b.aliases.head? with
  | none, _ => true
  | some _, none => false
  | some x, some y => decide (x ≤ y)

/-- `namespace_list`: the records that are not deleted, of one protocol if one is given. -/
def namespaceList (s : PersistentStore) (protocol : Option String) : List NamespaceRecord :=
  ((s.namespaceRecords.toList.map Prod.snd).filter fun record =>
    !record.tombstoned && protocol.all fun p => record.protocol == some p).mergeSort firstAliasLe

variable {s : PersistentStore}

theorem mem_namespaceList {record : NamespaceRecord} : record ∈ s.namespaceList none ↔
      record.tombstoned = false ∧ ∃ uuid : Uuid, s.namespaceRecords[uuid]? = some record := by
  rw [namespaceList, mem_mergeSort, mem_filter, mem_map]
  simp only [Option.all_none, Bool.and_true, Bool.not_eq_true', Prod.exists, exists_eq_right,
    Std.ExtTreeMap.mem_toList_iff_getElem?_eq_some]
  exact and_comm

/-! ## The tags of a namespace -/

def tagList (s : PersistentStore) (ns : String) : Except StoreError (List TagEntry) :=
  s.tagPrefix ns ""

theorem dbKey_eq_append (ns x : String) : dbKey ns x = dbKey ns "" ++ x := by
  apply String.ext
  simp [dbKey, joinKey]

def rowEntry (row : String × TagValue) : TagEntry :=
  { name := row.1, kappa := row.2.kappa, version := row.2.version }

def tagEntries (s : PersistentStore) (ns : String) : List TagEntry :=
  (scan s.tags (dbKey ns "")).map rowEntry

theorem successorIsUtf8_dbKey (ns p : String) :
    successorIsUtf8 (dbKey ns p) = successorIsUtf8 p := by
  unfold successorIsUtf8
  cases hp : p.toList.getLast? <;>
    simp [dbKey, joinKey, getLast?_append, getLast?_cons, hp]

theorem tagList_eq (s : PersistentStore) (ns : String) : s.tagList ns = .ok (s.tagEntries ns) := by
  rw [tagList, tagPrefix, successorIsUtf8_dbKey, if_pos (by decide), tagEntries, scan, map_map]
  rfl

theorem pairwise_tagEntries (s : PersistentStore) (ns : String) :
    (s.tagEntries ns).Pairwise fun a b => a.name < b.name := by
  rw [tagEntries, pairwise_map]
  exact pairwise_scan _ _

theorem mem_tagEntries {ns : String} {entry : TagEntry} : entry ∈ s.tagEntries ns ↔
      s.tags[dbKey ns entry.name]? = some ⟨entry.kappa, entry.version⟩ := by
  rw [tagEntries, mem_map, dbKey_eq_append ns entry.name, ← mem_scan]
  constructor
  · intro ⟨row, hrow, hentry⟩
    rwa [← hentry]
  · intro hrow
    exact ⟨_, hrow, rfl⟩

/-- `tag_prefix` filters the listing by name. -/
theorem tagPrefix_eq {ns namePrefix : String} (hutf8 : successorIsUtf8 (dbKey ns namePrefix) = true) :
    s.tagPrefix ns namePrefix = .ok ((s.tagEntries ns).filter fun t => startsWith t.name namePrefix) := by
  rw [tagPrefix, if_pos hutf8, tagEntries, scan, List.map_map, List.filter_map, List.filter_filter]
  refine congrArg (Except.ok <| List.map _ ·) (List.filter_congr fun row _ => ?_)
  rw [Bool.eq_iff_iff, Bool.and_eq_true, startsWith_iff, startsWith_iff]
  constructor
  · rintro ⟨x, hx⟩
    rw [dbKey_eq_append, String.append_assoc] at hx
    exact ⟨startsWith_iff.mpr ⟨x, drop_of_append hx⟩, _, hx⟩
  · rintro ⟨hstarts, y, hy⟩
    obtain ⟨x, hx⟩ := startsWith_iff.mp hstarts
    have hname : y = namePrefix ++ x := (drop_of_append hy).symm.trans hx
    exact ⟨x, by rw [dbKey_eq_append, String.append_assoc, ← hname, hy]⟩

variable {s' : PersistentStore}

/-- **Two listings are the same iff every name has the same row**, whichever namespace and store
each is from. -/
theorem tagEntries_eq_iff {a b : String} : s'.tagEntries b = s.tagEntries a ↔
      ∀ name, s'.tags[dbKey b name]? = s.tags[dbKey a name]? := by
  have hinj : Function.Injective rowEntry := by
    intro (name, value) (name', value') h
    obtain ⟨rfl, hkappa, hversion⟩ := TagEntry.mk.inj h
    cases value
    cases value'
    cases hkappa
    cases hversion
    rfl
  rw [tagEntries, tagEntries, hinj.list_map.eq_iff, scan_eq_iff]
  simp only [← dbKey_eq_append]

/-! ## The edges of a namespace -/

def edgesListed (s : PersistentStore) (index : Multimap String String) (ns anchor : String) :
    List Edge :=
  (index.values (dbKey ns anchor)).filterMap (s.edgeAt ns)

theorem edgeQuery_eq (s : PersistentStore) (ns : String) (q : EdgeQuery) :
    s.edgeQuery ns q = .ok ((match q.direction with
      | .outbound => s.edgesListed s.edgeFwd ns q.anchor
      | .inbound => s.edgesListed s.edgeRev ns q.anchor).filter q.admits) := by
  unfold edgeQuery edgesListed
  cases q.direction <;> rfl

theorem edgeQuery_all (s : PersistentStore) (ns anchor : String) (direction : Direction) :
    s.edgeQuery ns ⟨anchor, direction, none, none⟩ = .ok (match direction with
      | .outbound => s.edgesListed s.edgeFwd ns anchor
      | .inbound => s.edgesListed s.edgeRev ns anchor) := by
  rw [edgeQuery_eq]
  have hadmits : ∀ edge, EdgeQuery.admits ⟨anchor, direction, none, none⟩ edge = true := by
    intro edge
    rfl
  rw [filter_eq_self.mpr fun edge _ => hadmits edge]

/-! ## New names -/

variable {protocol : Option String}

/-- A renaming changes the alias table and the record, and the new name stands for the UUID that
the old one stood for. -/
theorem namespaceRename_eq_ok {a b actor : String}
    (h : s.namespaceRename a b actor protocol = .ok s') :
    ∃ uuid aliases records, s.namespaceAliases[aliasKey a protocol]? = some uuid ∧
      s' = { s with namespaceAliases := aliases, namespaceRecords := records } ∧
      aliases[aliasKey b protocol]? = some uuid := by
  simp only [namespaceRename, bind_eq_ok, pure_eq_ok, aliasLookup_eq_ok] at h
  obtain ⟨uuid, hold, _, -, record, -, _, -, rfl⟩ := h
  exact ⟨uuid, _, _, hold, rfl, by simp⟩

variable {uuid : Uuid}

theorem namespaceAddAlias_eq_ok {b actor : String}
    (h : s.namespaceAddAlias uuid b actor protocol = .ok s') :
    ∃ aliases records, s' = { s with namespaceAliases := aliases, namespaceRecords := records } ∧
      aliases[aliasKey b protocol]? = some uuid := by
  simp only [namespaceAddAlias, bind_eq_ok, pure_eq_ok] at h
  obtain ⟨record, -, _, -, _, -, rfl⟩ := h
  exact ⟨_, _, rfl, by simp⟩

theorem namespaceDelete_eq_ok {name actor : String}
    (h : s.namespaceDelete name actor protocol = .ok s') :
    ∃ aliases records,
      s' = { s with namespaceAliases := aliases, namespaceRecords := records } := by
  simp only [namespaceDelete, bind_eq_ok, pure_eq_ok] at h
  obtain ⟨uuid, -, record, -, _, -, rfl⟩ := h
  exact ⟨_, _, rfl⟩

theorem namespaceCreate_eq_ok {nowMs : ℕ} {name owner : String} {ns : NamespaceRef}
    (h : s.namespaceCreate uuid nowMs name owner protocol = .ok (ns, s')) :
    ns = .withName uuid name ∧ s.aliasCollision name protocol = none ∧ s' = { s with
        namespaceAliases := s.namespaceAliases.insert (aliasKey name protocol) uuid
        namespaceRecords := s.namespaceRecords.insert uuid
          { uuidHex := uuid.hex, owner, createdAtMs := nowMs, protocol, aliases := [name],
            tombstoned := false } } := by
  unfold namespaceCreate at h
  cases hfree : s.aliasCollision name protocol with
  | some message =>
    simp [hfree] at h
  | none =>
    rw [hfree] at h
    cases h
    exact ⟨rfl, rfl, rfl⟩

end PersistentStore

namespace TableStore

/-- What a reference shows of its namespace. -/
@[ext]
structure Contents where
  tagList : Except StoreError (List TagEntry)
  edgeQuery : EdgeQuery → Except StoreError (List Edge)
  epochCurrent : Option String

/-- `tag_list`, `edge_query` and `epoch_current` through a reference. -/
def contents (s : TableStore) (ns : NamespaceRef) : Contents where
  tagList := s.store.tagList ns.asStr
  edgeQuery q := s.store.edgeQuery ns.asStr q
  epochCurrent := s.epochCurrent[ns.asStr]?

/-- The rows under two names agree: every tag, the edges at every anchor, and the epoch. -/
structure SameRows (s : TableStore) (a b : String) : Prop where
  tags : ∀ name, s.store.tags[dbKey b name]? = s.store.tags[dbKey a name]?
  outbound : ∀ x, s.store.edgesListed s.store.edgeFwd b x = s.store.edgesListed s.store.edgeFwd a x
  inbound : ∀ x, s.store.edgesListed s.store.edgeRev b x = s.store.edgesListed s.store.edgeRev a x
  epoch : s.epochCurrent[b]? = s.epochCurrent[a]?

theorem contents_eq_iff {s : TableStore} {ra rb : NamespaceRef} :
    s.contents rb = s.contents ra ↔ s.SameRows ra.asStr rb.asStr := by
  constructor
  · intro h
    have htags : s.store.tagList rb.asStr = s.store.tagList ra.asStr :=
      congrArg Contents.tagList h
    have hedges : ∀ q, s.store.edgeQuery rb.asStr q = s.store.edgeQuery ra.asStr q :=
      congrFun (congrArg Contents.edgeQuery h)
    rw [tagList_eq, tagList_eq, Except.ok.injEq] at htags
    refine ⟨tagEntries_eq_iff.mp htags, ?_, ?_, congrArg Contents.epochCurrent h⟩
    · intro x
      have hx := hedges ⟨x, .outbound, none, none⟩
      rw [edgeQuery_all, edgeQuery_all] at hx
      exact Except.ok.inj hx
    · intro x
      have hx := hedges ⟨x, .inbound, none, none⟩
      rw [edgeQuery_all, edgeQuery_all] at hx
      exact Except.ok.inj hx
  · intro h
    have hedges : ∀ q, s.store.edgeQuery rb.asStr q = s.store.edgeQuery ra.asStr q := by
      intro q
      rw [edgeQuery_eq, edgeQuery_eq, h.outbound, h.inbound]
    apply Contents.ext
    · show s.store.tagList rb.asStr = s.store.tagList ra.asStr
      rw [tagList_eq, tagList_eq, tagEntries_eq_iff.mpr h.tags]
    · exact funext hedges
    · exact h.epoch

theorem contents_of_aliases (s : TableStore) (aliases : Table String Uuid)
    (records : Table Uuid NamespaceRecord) (ns : NamespaceRef) : ({ s with store := { s.store with
        namespaceAliases := aliases, namespaceRecords := records } } : TableStore).contents ns =
      s.contents ns := rfl

/-- **What a new name keeps.** -/
theorem contents_renamed_iff (s : TableStore) (a b actor : String) :
    (∀ (protocol : Option String) (store' : PersistentStore),
      s.store.namespaceRename a b actor protocol = .ok store' →
      ∃ ra rb, s.store.namespaceResolve a protocol = .ok ra ∧
        store'.namespaceResolve b protocol = .ok rb ∧
        (({ s with store := store' } : TableStore).contents rb = s.contents ra ↔
          s.SameRows a b)) ∧
    (∀ (protocol protocol' : Option String) (ra : NamespaceRef) (store' : PersistentStore),
      s.store.namespaceResolve a protocol = .ok ra →
      s.store.namespaceAddAlias ra.uuid b actor protocol' = .ok store' →
      ∃ rb, store'.namespaceResolve b protocol' = .ok rb ∧
        (({ s with store := store' } : TableStore).contents rb = s.contents ra ↔
          s.SameRows a b)) := by
  constructor
  · intro protocol store' h
    obtain ⟨uuid, aliases, records, hold, rfl, hnew⟩ := namespaceRename_eq_ok h
    refine ⟨.withName uuid a, .withName uuid b, namespaceResolve_eq_ok.mpr ⟨uuid, hold, rfl⟩,
      namespaceResolve_eq_ok.mpr ⟨uuid, hnew, rfl⟩, ?_⟩
    rw [contents_of_aliases]
    exact contents_eq_iff
  · intro protocol protocol' ra store' hresolve h
    obtain ⟨uuid, -, rfl⟩ := namespaceResolve_eq_ok.mp hresolve
    obtain ⟨aliases, records, rfl, hnew⟩ := namespaceAddAlias_eq_ok h
    refine ⟨.withName uuid b, namespaceResolve_eq_ok.mpr ⟨uuid, hnew, rfl⟩, ?_⟩
    rw [contents_of_aliases]
    exact contents_eq_iff

/-- A store with one namespace, `a`, and some tags set under that name. -/
def withTags (names : List String) : TableStore :=
  match (PersistentStore.new false).namespaceCreate 1 0 "a" "alice" none with
  | .ok (_, store) => ⟨names.foldl (fun store name => store.tagSet "a" name "k") store, ∅, ∅⟩
  | .error _ => .new false

/-- An empty namespace keeps its content under a new name. -/
theorem contents_renamed_empty : ∃ store' rb,
    (withTags []).store.namespaceRename "a" "b" "alice" none = .ok store' ∧
      store'.namespaceResolve "b" none = .ok rb ∧
      ({ withTags [] with store := store' } : TableStore).contents rb =
        (withTags []).contents (.withName 1 "a") := by
  have hra : (withTags []).store.namespaceResolve "a" none = .ok (.withName 1 "a") := by
    decide +kernel
  have hok : ((withTags []).store.namespaceRename "a" "b" "alice" none).isOk = true := by
    decide +kernel
  have hsame : (withTags []).SameRows "a" "b" := by
    exact ⟨fun _ => rfl, fun _ => rfl, fun _ => rfl, rfl⟩
  obtain ⟨store', hrename⟩ := isOk_iff.mp hok
  obtain ⟨ra, rb, hra', hrb, hiff⟩ :=
    (contents_renamed_iff (withTags []) "a" "b" "alice").1 none store' hrename
  obtain rfl : ra = .withName 1 "a" := Except.ok.inj (hra'.symm.trans hra)
  exact ⟨store', rb, hrename, hrb, hiff.mpr hsame⟩

/-- The tag that was set under `a` is not listed under the name that `a` is renamed to, nor under
one that is added to its namespace. -/
theorem contents_renamed_lost :
    let seen (store' : PersistentStore) := (store'.namespaceResolve "b" none,
      (({ withTags ["t"] with store := store' } : TableStore).contents (.withName 1 "b")).tagList)
    ((withTags ["t"]).contents (.withName 1 "a")).tagList = .ok [⟨"t", "k", 1⟩] ∧
      ((withTags ["t"]).store.namespaceRename "a" "b" "alice" none).map seen =
        .ok (.ok (.withName 1 "b"), .ok []) ∧
      ((withTags ["t"]).store.namespaceAddAlias 1 "b" "alice" none).map seen =
        .ok (.ok (.withName 1 "b"), .ok []) := by
  decide +kernel

end TableStore

end KappaRegistry
