import KappaRegistry.Lib.Except
import KappaRegistry.Lib.Text
import KappaRegistry.Store

/-!
# The Persistent Store

`kappa-store-redb`: every table of the database is a `Table` or a `Multimap`. Rows of a namespace
are kept under keys that start with its name and a NUL character, so two namespaces with the same
display name share their rows, whatever their UUIDs.

A table holds what reading a row back gives: an edge row is the canonical form of the edge that
was put, and a tag row is the pair its text encodes. Encryption shows in one place only:
`tag_set` looks for the version in the raw row, and an encrypted row has none (`encrypted`). Blobs
are the plaintext by label. Tables that nothing modelled here reads are left out.
-/

namespace KappaRegistry

open Lib

/-- What a tag row encodes: a label and a version. -/
structure TagValue where
  kappa : String
  version : ℕ
  deriving DecidableEq

/-- The state of a `PersistentStore`. -/
structure PersistentStore where
  /-- Whether the store has an encryption key. -/
  encrypted : Bool
  /-- Blobs by label. -/
  blobs : Table String Bytes
  tags : Table String TagValue
  edges : Table String Edge
  edgeFwd : Multimap String String
  edgeRev : Multimap String String
  assertionInbound : Multimap String String
  namespaceAliases : Table String Uuid
  namespaceRecords : Table Uuid NamespaceRecord
  identitySuccessions : Table String String

namespace PersistentStore

def new (encrypted : Bool) : PersistentStore := ⟨encrypted, ∅, ∅, ∅, ∅, ∅, ∅, ∅, ∅, ∅⟩

/-- The database key `ns`, NUL, `x`. -/
def dbKey (ns x : String) : String := joinKey '\x00' ns x

/-! ## Namespaces -/

/-- The protocols whose scoped aliases a global alias must not collide with. -/
def scopedProtocols : List String := ["oci", "s3", "git", "nix"]

variable (s : PersistentStore) (name : String) (protocol : Option String)

/-- The collision that forbids creating an alias, in the order the checks are made. -/
def aliasCollision : Option String :=
  if s.namespaceAliases.contains (aliasKey name protocol) then
    some ("namespace alias already exists: " ++ aliasKey name protocol)
  else if protocol.isSome then
    if s.namespaceAliases.contains name then
      some ("namespace alias collides with global alias: " ++ name)
    else none
  else
    (scopedProtocols.find? fun proto => s.namespaceAliases.contains (aliasKey name (some proto))).map
      fun proto => "namespace alias collides with " ++ proto ++ "-scoped alias: " ++ name

/-- `namespace_create`, with the UUID it generates and the time it reads. -/
def namespaceCreate (uuid : Uuid) (nowMs : ℕ) (name owner : String)
    (protocol : Option String) : Except StoreError (NamespaceRef × PersistentStore) :=
  match s.aliasCollision name protocol with
  | some message => .error (.conflict message)
  | none =>
    .ok (.withName uuid name,
      { s with
        namespaceAliases := s.namespaceAliases.insert (aliasKey name protocol) uuid
        namespaceRecords := s.namespaceRecords.insert uuid
          { uuidHex := uuid.hex, owner, createdAtMs := nowMs, protocol, aliases := [name],
            tombstoned := false } })

def aliasLookup (key : String) : Except StoreError Uuid :=
  match s.namespaceAliases[key]? with
  | some uuid => .ok uuid
  | none => .error (.notFound ("namespace alias: " ++ key))

def recordLookup (uuid : Uuid) : Except StoreError NamespaceRecord :=
  match s.namespaceRecords[uuid]? with
  | some record => .ok record
  | none => .error (.notFound ("namespace record: " ++ uuid.hex))

def namespaceResolve : Except StoreError NamespaceRef := do
  let uuid ← s.aliasLookup (aliasKey name protocol)
  return .withName uuid name

def namespaceInfo : Except StoreError NamespaceRecord := do
  let uuid ← s.aliasLookup (aliasKey name protocol)
  s.recordLookup uuid

variable {s : PersistentStore} {uuid : Uuid}

theorem aliasLookup_eq_ok {key : String} :
    s.aliasLookup key = .ok uuid ↔ s.namespaceAliases[key]? = some uuid := by
  unfold aliasLookup
  cases s.namespaceAliases[key]? with
  | none | some u => simp

variable {record : NamespaceRecord}

theorem recordLookup_eq_ok :
    s.recordLookup uuid = .ok record ↔ s.namespaceRecords[uuid]? = some record := by
  unfold recordLookup
  cases s.namespaceRecords[uuid]? with
  | none | some r => simp

variable {name : String} {protocol : Option String}

theorem namespaceResolve_eq_ok {r : NamespaceRef} : s.namespaceResolve name protocol = .ok r ↔
      ∃ uuid, s.namespaceAliases[aliasKey name protocol]? = some uuid ∧ .withName uuid name = r := by
  simp only [namespaceResolve, bind_eq_ok, pure_eq_ok, aliasLookup_eq_ok]

theorem namespaceInfo_eq_ok : s.namespaceInfo name protocol = .ok record ↔
      ∃ uuid, s.namespaceAliases[aliasKey name protocol]? = some uuid ∧
        s.namespaceRecords[uuid]? = some record := by
  simp only [namespaceInfo, bind_eq_ok, aliasLookup_eq_ok, recordLookup_eq_ok]

/-- `namespace_resolve_or_create`. -/
def namespaceResolveOrCreate (s : PersistentStore) (uuid : Uuid) (nowMs : ℕ) (name owner : String)
    (protocol : Option String) : Except StoreError (NamespaceRef × PersistentStore) :=
  match s.namespaceResolve name protocol with
  | .ok ns => .ok (ns, s)
  | .error (.notFound _) =>
    match s.namespaceCreate uuid nowMs name owner protocol with
    | .ok created => .ok created
    | .error (.conflict _) => (s.namespaceResolve name protocol).map fun ns => (ns, s)
    | .error e => .error e
  | .error e => .error e

variable {nowMs : ℕ} {ns : NamespaceRef}

theorem namespaceResolveOrCreate_eq_ok {s s' : PersistentStore} {name owner : String}
    (h : s.namespaceResolveOrCreate uuid nowMs name owner protocol = .ok (ns, s')) :
    ns.asStr = name ∧ ∃ aliases records,
      s' = { s with namespaceAliases := aliases, namespaceRecords := records } := by
  have hresolve : ∀ {r}, s.namespaceResolve name protocol = .ok r → r.asStr = name := by
    intro r hr
    obtain ⟨_, -, rfl⟩ := namespaceResolve_eq_ok.mp hr
    rfl
  unfold namespaceResolveOrCreate at h
  split at h
  · rename_i r hr
    cases h
    exact ⟨hresolve hr, _, _, rfl⟩
  · split at h
    · rename_i created hcreate
      cases h
      unfold namespaceCreate at hcreate
      split at hcreate
      · cases hcreate
      · cases hcreate
        exact ⟨rfl, _, _, rfl⟩
    · obtain ⟨r, hr, heq⟩ := map_eq_ok.mp h
      cases heq
      exact ⟨hresolve hr, _, _, rfl⟩
    · cases h
  · cases h

theorem namespaceResolveOrCreate_new {s s' : PersistentStore} {name owner protocol : String}
    (h : s.namespaceResolveOrCreate uuid nowMs name owner (some protocol) = .ok (ns, s'))
    (hnew : ∀ r, s.namespaceResolve name (some protocol) ≠ .ok r) :
    s.namespaceAliases[name]? = none := by
  unfold namespaceResolveOrCreate at h
  split at h
  · rename_i r hr
    exact absurd hr (hnew r)
  · split at h
    · rename_i created hcreate
      unfold namespaceCreate at hcreate
      split at hcreate
      · cases hcreate
      · rename_i hfree
        unfold aliasCollision at hfree
        split at hfree
        · cases hfree
        · split at hfree
          · split at hfree
            · cases hfree
            · rename_i hglobal
              simpa using hglobal
          · rename_i hscoped
            simp at hscoped
    · obtain ⟨r, hr, -⟩ := map_eq_ok.mp h
      exact absurd hr (hnew r)
    · cases h
  · cases h

/-- `namespace_rename`: moves an alias to a new name, under the same protocol. -/
def namespaceRename (s : PersistentStore) (oldName newName actor : String)
    (protocol : Option String) : Except StoreError PersistentStore := do
  let oldKey := aliasKey oldName protocol
  let newKey := aliasKey newName protocol
  let uuid ← s.aliasLookup oldKey
  ensure (newKey ∉ s.namespaceAliases) (.conflict ("target alias already exists: " ++ newKey))
  let record ← s.recordLookup uuid
  ensure (record.owner = actor)
    (.rejected ("only owner " ++ record.owner ++ " can rename, actor is " ++ actor))
  let aliases := record.aliases.filter (fun a => a ≠ oldName) ++ [newName]
  return { s with
    namespaceAliases := (s.namespaceAliases.erase oldKey).insert newKey uuid
    namespaceRecords := s.namespaceRecords.insert uuid { record with aliases } }

/-- `namespace_add_alias`: a further name for a namespace, under any protocol. -/
def namespaceAddAlias (s : PersistentStore) (uuid : Uuid) (newAlias actor : String)
    (protocol : Option String) : Except StoreError PersistentStore := do
  let key := aliasKey newAlias protocol
  let record ← s.recordLookup uuid
  ensure (record.owner = actor)
    (.rejected ("only owner " ++ record.owner ++ " can add alias, actor is " ++ actor))
  ensure (key ∉ s.namespaceAliases) (.conflict ("alias already exists: " ++ key))
  let aliases := if newAlias ∈ record.aliases then record.aliases else record.aliases ++ [newAlias]
  return { s with
    namespaceAliases := s.namespaceAliases.insert key uuid
    namespaceRecords := s.namespaceRecords.insert uuid { record with aliases } }

/-- Whether `actor` may transfer what `owner` owns: it is the owner, or its last successor. -/
def mayTransfer (s : PersistentStore) (owner actor : String) : Except StoreError Unit :=
  if owner = actor then .ok ()
  else do
    let resolved ← successionResolve s.identitySuccessions owner
    ensure (resolved = actor)
      (.rejected ("only owner " ++ owner ++ " (or successor) can transfer, actor is " ++ actor))

def namespaceTransfer (s : PersistentStore) (uuid : Uuid) (newOwner actor : String) :
    Except StoreError PersistentStore := do
  let record ← s.recordLookup uuid
  s.mayTransfer record.owner actor
  return { s with
    namespaceRecords := s.namespaceRecords.insert uuid { record with owner := newOwner } }

/-! ## Blobs and tags -/

/-- `blob_put`, and `ingest_verified` of a SHA-256 label. -/
def blobPut (s : PersistentStore) (kappa : String) (content : Bytes) : PersistentStore :=
  { s with blobs := s.blobs.insertIfNew kappa content }

def blobGet (s : PersistentStore) (kappa : String) : Except StoreError Bytes :=
  match s.blobs[kappa]? with
  | some content => .ok content
  | none => .error (.notFound kappa)

theorem blobGet_eq_ok {kappa : String} {content : Bytes} :
    s.blobGet kappa = .ok content ↔ s.blobs[kappa]? = some content := by
  unfold blobGet
  cases s.blobs[kappa]? with
  | none | some b => simp

def tagSet (s : PersistentStore) (ns name kappa : String) : PersistentStore :=
  let key := dbKey ns name
  let currentVersion := if s.encrypted then 0 else (s.tags[key]?.map TagValue.version).getD 0
  { s with tags := s.tags.insert key { kappa, version := currentVersion + 1 } }

def tagGet (s : PersistentStore) (ns name : String) : Except StoreError TagEntry :=
  match s.tags[dbKey ns name]? with
  | some value => .ok { name, kappa := value.kappa, version := value.version }
  | none => .error (.notFound (ns ++ "/" ++ name))

/-- Whether the byte string after all that start with `p` is text again. -/
def successorIsUtf8 (p : String) : Bool :=
  match p.toList.getLast? with
  | some c => !(decide (127 ≤ c.toNat) && c.toNat % 64 == 63)
  | none => true

/-- `tag_prefix`: the rows whose key starts with the namespace and `namePrefix`, which are those
of the range from that text to its successor. -/
def tagPrefix (s : PersistentStore) (ns namePrefix : String) : Except StoreError (List TagEntry) :=
  if successorIsUtf8 (dbKey ns namePrefix) then
    .ok ((s.tags.toList.filter fun row => startsWith row.1 (dbKey ns namePrefix)).map fun row =>
      { name := String.ofList (row.1.toList.drop (dbKey ns "").toList.length)
        kappa := row.2.kappa
        version := row.2.version })
  else .error (.io "utf8")

theorem listed_tagSet (s : PersistentStore) (ns kappa : String) {namePrefix : String}
    (hname : startsWith (dbKey ns name) (dbKey ns namePrefix) = true)
    (hutf8 : successorIsUtf8 (dbKey ns namePrefix) = true) :
    ∃ tags, (s.tagSet ns name kappa).tagPrefix ns namePrefix = .ok tags ∧
      ∀ k, (∃ tag ∈ tags, tag.kappa = k) ↔
        (∃ key value, key ≠ dbKey ns name ∧ s.tags[key]? = some value ∧
          startsWith key (dbKey ns namePrefix) = true ∧ value.kappa = k) ∨ k = kappa := by
  unfold tagPrefix
  rw [if_pos hutf8]
  refine ⟨_, rfl, ?_⟩
  intro k
  simp only [List.mem_map, List.mem_filter, Prod.exists,
    Std.ExtTreeMap.mem_toList_iff_getElem?_eq_some, tagSet, Table.get_insert]
  constructor
  · intro ⟨tag, ⟨key, value, ⟨hrow, hkey⟩, htag⟩, hk⟩
    subst htag
    split at hrow
    · cases hrow
      exact .inr hk.symm
    · rename_i hne
      exact .inl ⟨key, value, Ne.symm hne, hrow, hkey, hk⟩
  · rintro (⟨key, value, hne, hrow, hkey, hk⟩ | hk)
    · refine ⟨_, ⟨key, value, ⟨?_, hkey⟩, rfl⟩, hk⟩
      rwa [if_neg (Ne.symm hne)]
    · exact ⟨_, ⟨dbKey ns name, _, ⟨if_pos rfl, hname⟩, rfl⟩, hk.symm⟩

/-! ## Edges -/

variable (prim : Primitives)

def edgeAt (s : PersistentStore) (ns kappa : String) : Option Edge := s.edges[dbKey ns kappa]?

/-- The first label listed under the source whose row is the same logical edge. -/
def findLogical (s : PersistentStore) (ns : String) (edge : Edge) : Option String :=
  (s.edgeFwd.values (dbKey ns edge.source)).find? fun kappa =>
    (s.edgeAt ns kappa).any fun existing => sameLogicalEdge existing edge

/-- The relations that are also listed by target across namespaces. -/
def isInbound : EdgeRelation → Bool
  | .assertion | .revocation | .capability | .delegation => true
  | _ => false

/-- A new row for an edge, with its entries in the two indexes. -/
def edgeInsert (s : PersistentStore) (ns : String) (edge : Edge) : PersistentStore :=
  { s with
    edges := s.edges.insert (dbKey ns (edge.kappa prim)) (edge.canonical prim)
    edgeFwd := s.edgeFwd.add (dbKey ns edge.source) (edge.kappa prim)
    edgeRev := s.edgeRev.add (dbKey ns edge.target) (edge.kappa prim) }

/-- The transaction of `edge_put`: replaces the same logical edge in place, under the label it
already has, and otherwise adds the edge under its own label. -/
def edgeUpsert (s : PersistentStore) (ns : String) (edge : Edge) : PersistentStore :=
  match s.findLogical ns edge with
  | some kappa =>
    let unchanged := (s.edgeAt ns kappa).any fun existing =>
      existing.valueKappa == edge.valueKappa && existing.metadata == edge.metadata
    if unchanged then s
    else { s with edges := s.edges.insert (dbKey ns kappa) (edge.canonical prim) }
  | none =>
    let s := s.edgeInsert prim ns edge
    if isInbound edge.relation then
      { s with
        assertionInbound :=
          s.assertionInbound.add (dbKey edge.target edge.relation.asStr) (edge.kappa prim) }
    else s

theorem edgeUpsert_induction {P : PersistentStore → Prop} {s : PersistentStore} {ns : String}
    {edge : Edge} (hsame : P s)
    (hupdate : ∀ k, P { s with edges := s.edges.insert (dbKey ns k) (edge.canonical prim) })
    (hinsert : ∀ rows, P { s.edgeInsert prim ns edge with assertionInbound := rows }) :
    P (s.edgeUpsert prim ns edge) := by
  unfold edgeUpsert
  cases s.findLogical ns edge with
  | some kappa =>
    dsimp only
    split
    · exact hsame
    · exact hupdate kappa
  | none =>
    dsimp only
    split
    · exact hinsert _
    · exact hinsert (s.edgeInsert prim ns edge).assertionInbound

/-- `edge_put`: stores the edge as a blob, and then its row. -/
def edgePut (s : PersistentStore) (ns : String) (edge : Edge) : PersistentStore :=
  (s.blobPut (edge.kappa prim) (prim.edgeBytes edge)).edgeUpsert prim ns edge

/-- `edge_put_batch`: adds every edge under its own label, without looking for the same logical
edge. -/
def edgePutBatch (s : PersistentStore) (ns : String) (edges : List Edge) : PersistentStore :=
  edges.foldl
    (fun s edge => (s.blobPut (edge.kappa prim) (prim.edgeBytes edge)).edgeInsert prim ns edge) s

/-- `edge_delete`: removes the first edge listed under the source with this target and relation,
whoever asserts it. -/
def edgeDelete (s : PersistentStore) (ns source target : String) (relation : EdgeRelation) :
    PersistentStore :=
  let found := (s.edgeFwd.values (dbKey ns source)).findSome? fun kappa =>
    ((s.edgeAt ns kappa).filter fun edge =>
      edge.source == source && edge.target == target && edge.relation == relation).map (kappa, ·)
  match found with
  | none => s
  | some (kappa, edge) =>
    { s with
      edges := s.edges.erase (dbKey ns kappa)
      edgeFwd := s.edgeFwd.remove (dbKey ns edge.source) kappa
      edgeRev := s.edgeRev.remove (dbKey ns edge.target) kappa
      blobs := s.blobs.erase kappa }

def edgeQuery (s : PersistentStore) (ns : String) (q : EdgeQuery) : Except StoreError (List Edge) :=
  let kappas :=
    match q.direction with
    | .outbound => s.edgeFwd.values (dbKey ns q.anchor)
    | .inbound => s.edgeRev.values (dbKey ns q.anchor)
  .ok ((kappas.filterMap (s.edgeAt ns)).filter q.admits)

def toKappaStore (s : PersistentStore) : KappaStore where
  namespaceResolve := s.namespaceResolve
  namespaceInfo := s.namespaceInfo
  edgeQuery ns q := s.edgeQuery ns.asStr q

/-- The store as edge requests use it. -/
def impl : StoreImpl PersistentStore where
  view := toKappaStore
  blobExists s kappa := .ok (s.blobs.contains kappa)
  edgePut s ns edge := .ok (s.edgePut prim ns.asStr edge)
  namespaceResolveOrCreate := namespaceResolveOrCreate

end PersistentStore

end KappaRegistry
