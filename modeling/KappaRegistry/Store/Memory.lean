import KappaRegistry.Lib.Text
import KappaRegistry.Store

/-!
# The In-Memory Store

`kappa-core/src/store/memory`: namespaces, edges and tags in hash maps, blobs in files. Edges are
kept under the pair of their namespace's UUID and the hash of their label, and two indexes list
the labels of the edges out of a source and into a target, in the order they were put. The
indexes by relation and by asserter are written and never read, so they are left out.

Generated UUIDs and clock readings are arguments. Failures of the file system are not modelled, so an
operation whose only failures are of that kind returns the new state.
-/

namespace KappaRegistry

open Lib

/-- The state of an `InMemoryStore`. -/
structure InMemoryStore where
  /-- Blobs on disk, by label. -/
  blobs : Table String Bytes
  /-- Edges by namespace and hash of their label. -/
  edges : Table (Uuid × ℕ) Edge
  /-- Labels of the edges out of a source. -/
  fwdIndex : Table (Uuid × ℕ) (List String)
  /-- Labels of the edges into a target. -/
  revIndex : Table (Uuid × ℕ) (List String)
  /-- Tags by namespace and hash of their name. -/
  tags : Table (Uuid × ℕ) TagEntry
  /-- Old anchor to new anchor. -/
  identitySuccessions : Table String String
  /-- Alias key to namespace. -/
  nsAliases : Table String Uuid
  /-- Namespace to its record. -/
  nsRecords : Table Uuid NamespaceRecord

namespace InMemoryStore

def new : InMemoryStore := ⟨∅, ∅, ∅, ∅, ∅, ∅, ∅, ∅⟩

/-! ## Namespaces -/

variable (s : InMemoryStore) (ns : NamespaceRef)

/-- A record, and a global alias, for a namespace that has no record yet. -/
def ensureNamespace : InMemoryStore :=
  if s.nsRecords.contains ns.uuid then s
  else
    let name := ns.displayName.getD ""
    let record : NamespaceRecord :=
      { uuidHex := ns.uuid.hex, owner := "", createdAtMs := 0, protocol := none,
        aliases := if name.isEmpty then [] else [name], tombstoned := false }
    { s with
      nsRecords := s.nsRecords.insert ns.uuid record
      nsAliases := if name.isEmpty then s.nsAliases else s.nsAliases.insert name ns.uuid }

@[simp] theorem ensureNamespace_tags : (s.ensureNamespace ns).tags = s.tags := by
  unfold ensureNamespace
  split <;> rfl

@[simp] theorem ensureNamespace_blobs : (s.ensureNamespace ns).blobs = s.blobs := by
  unfold ensureNamespace
  split <;> rfl

/-- `namespace_create`, with the UUID it generates and the time it reads. -/
def namespaceCreate (uuid : Uuid) (nowMs : ℕ) (name owner : String)
    (protocol : Option String) : Except StoreError (NamespaceRef × InMemoryStore) :=
  let key := aliasKey name protocol
  if s.nsAliases.contains key then
    .error (.conflict ("namespace alias already exists: " ++ key))
  else
    .ok (.withName uuid name,
      { s with
        nsAliases := s.nsAliases.insert key uuid
        nsRecords := s.nsRecords.insert uuid
          { uuidHex := uuid.hex, owner, createdAtMs := nowMs, protocol, aliases := [name],
            tombstoned := false } })

def namespaceResolve (name : String) (protocol : Option String) : Except StoreError NamespaceRef :=
  match s.nsAliases[aliasKey name protocol]? with
  | some uuid => .ok (.withName uuid name)
  | none => .error (.notFound ("namespace alias: " ++ aliasKey name protocol))

def namespaceInfo (name : String) (protocol : Option String) : Except StoreError NamespaceRecord :=
  match s.nsAliases[aliasKey name protocol]? with
  | none => .error (.notFound ("namespace alias: " ++ aliasKey name protocol))
  | some uuid =>
    match s.nsRecords[uuid]? with
    | some record => .ok record
    | none => .error (.notFound ("namespace record: " ++ uuid.hex))

/-- `namespace_resolve_or_create`. The second look-up is for a namespace that another thread
created between the first look-up and the creation. -/
def namespaceResolveOrCreate (uuid : Uuid) (nowMs : ℕ) (name owner : String)
    (protocol : Option String) : Except StoreError (NamespaceRef × InMemoryStore) :=
  match s.namespaceResolve name protocol with
  | .ok ns => .ok (ns, s)
  | .error (.notFound _) =>
    match s.namespaceCreate uuid nowMs name owner protocol with
    | .ok created => .ok created
    | .error (.conflict _) => (s.namespaceResolve name protocol).map fun ns => (ns, s)
    | .error e => .error e
  | .error e => .error e

/-! ## Edges -/

variable (prim : Primitives)

def indexed (index : Table (Uuid × ℕ) (List String)) (ns : NamespaceRef) (anchor : String) :
    List String :=
  index[(ns.uuid, prim.itemHash anchor)]?.getD []

def pushIndex (index : Table (Uuid × ℕ) (List String)) (ns : NamespaceRef) (anchor kappa : String) :
    Table (Uuid × ℕ) (List String) :=
  index.insert (ns.uuid, prim.itemHash anchor) (indexed prim index ns anchor ++ [kappa])

variable (s : InMemoryStore) (ns : NamespaceRef) (name kappa : String)

def edgeAt : Option Edge :=
  s.edges[(ns.uuid, prim.itemHash kappa)]?

/-- The first label the source's index lists whose edge is the same logical edge. -/
def findLogical (edge : Edge) : Option String :=
  (indexed prim s.fwdIndex ns edge.source).find? fun kappa =>
    (s.edgeAt prim ns kappa).any fun existing => sameLogicalEdge existing edge

/-- `edge_put`: replaces the same logical edge in place, under the label it already has, and
otherwise adds the edge under its own label. -/
def edgePut (edge : Edge) : InMemoryStore :=
  let s := s.ensureNamespace ns
  let edgeKappa := edge.kappa prim
  let s := { s with blobs := s.blobs.insertIfNew edgeKappa (prim.edgeBytes edge) }
  match s.findLogical prim ns edge with
  | some kappa => { s with edges := s.edges.insert (ns.uuid, prim.itemHash kappa) edge }
  | none =>
    { s with
      edges := s.edges.insert (ns.uuid, prim.itemHash edgeKappa) edge
      fwdIndex := pushIndex prim s.fwdIndex ns edge.source edgeKappa
      revIndex := pushIndex prim s.revIndex ns edge.target edgeKappa }

def removeFrom (index : Table (Uuid × ℕ) (List String)) (ns : NamespaceRef) (anchor kappa : String) :
    Table (Uuid × ℕ) (List String) :=
  index.modify (ns.uuid, prim.itemHash anchor) fun kappas => kappas.filter (· ≠ kappa)

/-- `edge_delete`: the first edge that the source's index lists with these ends and this relation,
and the blob under its label. -/
def edgeDelete (source target : String) (relation : EdgeRelation) : InMemoryStore :=
  let found := (indexed prim s.fwdIndex ns source).findSome? fun kappa =>
    ((s.edgeAt prim ns kappa).filter fun edge =>
      edge.source == source && edge.target == target && edge.relation == relation).map (kappa, ·)
  match found with
  | none => s
  | some (kappa, edge) =>
    { s with
      edges := s.edges.erase (ns.uuid, prim.itemHash kappa)
      fwdIndex := removeFrom prim s.fwdIndex ns edge.source kappa
      revIndex := removeFrom prim s.revIndex ns edge.target kappa
      blobs := s.blobs.erase kappa }

def edgeQuery (q : EdgeQuery) : Except StoreError (List Edge) :=
  let kappas :=
    match q.direction with
    | .outbound => indexed prim s.fwdIndex ns q.anchor
    | .inbound => indexed prim s.revIndex ns q.anchor
  .ok ((kappas.filterMap (s.edgeAt prim ns)).filter q.admits)

/-! ## Blobs and tags -/

def blobGet : Except StoreError Bytes :=
  match s.blobs[kappa]? with
  | some content => .ok content
  | none => .error (.notFound kappa)

theorem blobGet_eq_ok {s : InMemoryStore} {kappa : String} {content : Bytes} :
    s.blobGet kappa = .ok content ↔ s.blobs[kappa]? = some content := by
  unfold blobGet
  cases s.blobs[kappa]? with
  | none | some b => simp

def nextTagVersion : ℕ :=
  (s.tags[(ns.uuid, prim.itemHash name)]?.map fun e => (e.version + 1) % (u64Max + 1)).getD 1

/-- The write that `tag_set` and a batch make. -/
def writeTag : InMemoryStore :=
  { s with
    tags := s.tags.insert (ns.uuid, prim.itemHash name)
      { name, kappa, version := s.nextTagVersion prim ns name } }

def tagSet : InMemoryStore :=
  (s.ensureNamespace ns).writeTag prim ns name kappa

def tagGet : Except StoreError TagEntry :=
  match s.tags[(ns.uuid, prim.itemHash name)]? with
  | some entry => .ok entry
  | none => .error (.notFound (ns.display ++ "/" ++ name))

def tagDelete : InMemoryStore :=
  { s with tags := s.tags.erase (ns.uuid, prim.itemHash name) }

theorem tagSet_tags :
    ∃ version, (s.tagSet prim ns name kappa).tags =
      s.tags.insert (ns.uuid, prim.itemHash name) { name, kappa, version } :=
  ⟨_, by rw [tagSet, writeTag, ensureNamespace_tags]⟩

@[simp] theorem tagSet_blobs : (s.tagSet prim ns name kappa).blobs = s.blobs :=
  s.ensureNamespace_blobs ns

/-- `tag_prefix`: the tags of a namespace whose name starts with `namePrefix`, by name. -/
def tagPrefix (namePrefix : String) : Except StoreError (List TagEntry) :=
  let found := s.tags.toList.filter fun row =>
    row.1.1 == ns.uuid && startsWith row.2.name namePrefix
  .ok ((found.map Prod.snd).mergeSort fun a b => decide (a.name ≤ b.name))

theorem mem_tagPrefix (namePrefix : String) :
    ∃ tags, s.tagPrefix ns namePrefix = .ok tags ∧ ∀ tag, tag ∈ tags ↔
      ∃ hash : ℕ, s.tags[(ns.uuid, hash)]? = some tag ∧ startsWith tag.name namePrefix = true := by
  refine ⟨_, rfl, ?_⟩
  intro tag
  simp only [List.mem_mergeSort, List.mem_map, List.mem_filter, Prod.exists, Bool.and_eq_true,
    beq_iff_eq, Std.ExtTreeMap.mem_toList_iff_getElem?_eq_some]
  constructor
  · intro ⟨uuid, hash, entry, ⟨hrow, huuid, hname⟩, htag⟩
    subst huuid htag
    exact ⟨hash, hrow, hname⟩
  · intro ⟨hash, hrow, hname⟩
    exact ⟨ns.uuid, hash, tag, ⟨hrow, rfl, hname⟩, rfl⟩

theorem listed_tagSet {name namePrefix : String} (hname : startsWith name namePrefix = true) :
    ∃ tags, (s.tagSet prim ns name kappa).tagPrefix ns namePrefix = .ok tags ∧
      ∀ k, (∃ tag ∈ tags, tag.kappa = k) ↔
        (∃ hash entry, hash ≠ prim.itemHash name ∧ s.tags[(ns.uuid, hash)]? = some entry ∧
          startsWith entry.name namePrefix = true ∧ entry.kappa = k) ∨ k = kappa := by
  obtain ⟨version, hset⟩ := s.tagSet_tags prim ns name kappa
  obtain ⟨tags, hlist, hmem⟩ := (s.tagSet prim ns name kappa).mem_tagPrefix ns namePrefix
  refine ⟨tags, hlist, ?_⟩
  intro k
  constructor
  · intro ⟨tag, htag, hk⟩
    obtain ⟨hash, hrow, hstarts⟩ := (hmem tag).mp htag
    rw [hset, Table.get_insert] at hrow
    split_ifs at hrow with hne
    · cases hrow
      exact .inr hk.symm
    · exact .inl ⟨hash, tag, fun heq => hne (by rw [heq]), hrow, hstarts, hk⟩
  · rintro (⟨hash, entry, hne, hrow, hstarts, hk⟩ | hk)
    · refine ⟨entry, (hmem entry).mpr ⟨hash, ?_, hstarts⟩, hk⟩
      rw [hset, Table.get_insert, if_neg]
      · exact hrow
      · intro heq
        exact hne (Prod.mk.inj heq).2.symm
    · refine ⟨⟨name, kappa, version⟩, (hmem _).mpr ⟨prim.itemHash name, ?_, hname⟩, hk.symm⟩
      rw [hset, Table.get_insert, if_pos rfl]

def toKappaStore : KappaStore where
  namespaceResolve := s.namespaceResolve
  namespaceInfo := s.namespaceInfo
  edgeQuery := s.edgeQuery prim

/-- The store as edge requests use it. -/
def impl : StoreImpl InMemoryStore where
  view := toKappaStore prim
  blobExists s kappa := .ok (s.blobs.contains kappa)
  edgePut s ns edge := .ok (s.edgePut prim ns edge)
  namespaceResolveOrCreate := namespaceResolveOrCreate

end InMemoryStore

end KappaRegistry
