import KappaRegistry.Store.Persistent

/-!
# Sequences and Epochs

`kappa-store-redb/src/namespace.rs` (sequence counters) and `epoch.rs`. An epoch root is a blob:
its bytes come from the namespace, the number of the epoch, the label of the epoch before, the tags
of the namespace and the changes the epoch records. Encoding and hashing the leaves is a parameter.
`TableStore` adds the two tables to the persistent store.
-/

namespace KappaRegistry

open Lib PersistentStore

/-- The kinds of change that an epoch records. -/
inductive MutationOp where
  | tagSet
  | tagDelete
  | edgePut
  | edgeDelete
  | assertionPublish
  | revocationPublish
  | anchorOrigin
  | blobPut
  | blobDelete
  deriving DecidableEq

/-- One change that an epoch records. -/
structure EpochMutation where
  op : MutationOp
  ns : String
  tagName : String
  oldKappa : Option String
  newKappa : Option String
  deriving DecidableEq

/-- What the leaves of an epoch root are computed from; the signer is left empty. -/
structure EpochFields where
  ns : String
  epochNumber : ℕ
  prevRootKappa : Option String
  tags : List TagEntry
  mutations : List EpochMutation
  timestampMs : ℕ

/-- The persistent store with its sequence counters and epoch pointers. -/
structure TableStore where
  store : PersistentStore
  sequences : Table String ℕ
  epochCurrent : Table String String

namespace TableStore

def new (encrypted : Bool) : TableStore := ⟨.new encrypted, ∅, ∅⟩

def nextCounter (s : TableStore) (key : String) : ℕ :=
  ((s.sequences[key]?).getD 0 + 1) % (u64Max + 1)

def sequenceNext (s : TableStore) (ns name : String) : ℕ × TableStore :=
  let value := s.nextCounter (dbKey ns name)
  (value, { s with sequences := s.sequences.insert (dbKey ns name) value })

variable (prim : Primitives) (leafBytes : EpochFields → Bytes)

/-- The bytes of the next epoch root of a namespace with the given tags. -/
def epochBytes (s : TableStore) (ns : String) (tags : List TagEntry)
    (mutations : List EpochMutation) (nowMs : ℕ) : Bytes :=
  leafBytes
    { ns
      epochNumber := s.nextCounter (dbKey ns "_epoch")
      prevRootKappa := s.epochCurrent[ns]?
      tags
      mutations
      timestampMs := nowMs }

/-- `epoch_advance`: counts the epoch, stores its root and points to it. With an encryptor the call
never returns: storing a blob then takes a write transaction, and it waits for its own to end. -/
def epochAdvance (s : TableStore) (ns : String) (mutations : List EpochMutation) (nowMs : ℕ) :
    Except StoreError (Option (String × TableStore)) := do
  let tags ← s.store.tagPrefix ns ""
  if s.store.encrypted then return none
  let leaf := s.epochBytes leafBytes ns tags mutations nowMs
  let kappa := prim.kappaFromBytes leaf
  return some (kappa,
    { store := s.store.blobPut kappa leaf
      sequences :=
        s.sequences.insert (dbKey ns "_epoch") (s.nextCounter (dbKey ns "_epoch"))
      epochCurrent := s.epochCurrent.insert ns kappa })

theorem epochAdvance_store {s s' : TableStore} {ns kappa : String} {mutations : List EpochMutation}
    {nowMs : ℕ} (h : s.epochAdvance prim leafBytes ns mutations nowMs = .ok (some (kappa, s'))) :
    ∃ leaf, s'.store = s.store.blobPut kappa leaf := by
  obtain ⟨tags, -, h⟩ := bind_eq_ok.mp h
  split at h
  · cases h
  · cases h
    exact ⟨_, rfl⟩

/-- **Advancing**, given the tags. -/
theorem epochAdvance_of_tags {s : TableStore} {ns : String} {tags : List TagEntry}
    (h : s.store.tagPrefix ns "" = .ok tags) (mutations : List EpochMutation) (nowMs : ℕ) :
    s.epochAdvance prim leafBytes ns mutations nowMs = .ok (if s.store.encrypted then none else
      let leaf := s.epochBytes leafBytes ns tags mutations nowMs
      some (prim.kappaFromBytes leaf,
        { store := s.store.blobPut (prim.kappaFromBytes leaf) leaf
          sequences := s.sequences.insert (dbKey ns "_epoch") (s.nextCounter (dbKey ns "_epoch"))
          epochCurrent := s.epochCurrent.insert ns (prim.kappaFromBytes leaf) })) := by
  simp only [epochAdvance, h]
  cases s.store.encrypted <;> rfl

end TableStore

end KappaRegistry
