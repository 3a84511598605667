import Mathlib.Algebra.Group.Nat.Defs

/-!
# Shared Types

The data the registry's crates pass between each other: namespaces and their references, typed
edges and edge queries, delegation scopes, and the errors a store answers with. They follow
`kappa-core/src/types.rs` and the `OpClass` of `kappa-server/src/ratelimit.rs`.

Machine integers are natural numbers; where a width matters the bound is written at the use
(`u32Max`, `u64Max`). The sixteen bytes of a namespace UUID are one number below `2 ^ 128`,
which orders UUIDs as the byte strings are ordered.
-/

namespace KappaRegistry

/-- A byte string (`Vec<u8>`, `&[u8]`). -/
abbrev Bytes := List UInt8

/-- The largest `u32`. -/
def u32Max : ℕ := 2 ^ 32 - 1

/-- The largest `u64`. -/
def u64Max : ℕ := 2 ^ 64 - 1

/-- The 16 bytes of a namespace UUID. -/
abbrev Uuid := Fin (2 ^ 128)

instance (priority := high) instNeZeroUuid : @NeZero ℕ Zero.ofOfNat0 (2 ^ 128) := ⟨by decide⟩

/-! ## Operations and errors -/

/-- The class every request is sorted into before it is authorised. -/
inductive OpClass where
  | exempt
  | read
  | write
  | admin
  deriving DecidableEq

def OpClass.isWrite : OpClass → Bool
  | .write | .admin => true
  | .exempt | .read => false

/-- What a store operation fails with; the text is the message it carries. -/
inductive StoreError where
  | io (message : String)
  | notFound (message : String)
  | conflict (message : String)
  | rejected (message : String)
  | canonical (message : String)
  deriving DecidableEq

/-! ## Namespaces -/

/-- A namespace as handlers carry it: its UUID, and the name it was resolved under. -/
structure NamespaceRef where
  uuid : Uuid
  displayName : Option String
  deriving DecidableEq

namespace NamespaceRef

def withName (uuid : Uuid) (name : String) : NamespaceRef := ⟨uuid, some name⟩

/-- The display name, and the empty text for a bare UUID. -/
def asStr (ns : NamespaceRef) : String := ns.displayName.getD ""

@[simp] theorem asStr_withName (uuid : Uuid) (name : String) : (withName uuid name).asStr = name :=
  rfl

end NamespaceRef

/-- The record a namespace keeps under its UUID. -/
structure NamespaceRecord where
  uuidHex : String
  owner : String
  createdAtMs : ℕ
  protocol : Option String
  aliases : List String
  tombstoned : Bool
  deriving DecidableEq

/-- What the interceptor found in a request path. -/
inductive ResolvedNamespace where
  /-- The namespace exists. -/
  | exists (ns : NamespaceRef)
  /-- The path names a namespace that does not exist; a write may create it. -/
  | notFound (name protocol : String)
  /-- The path names no namespace. -/
  | noNamespace
  deriving DecidableEq

/-- A named pointer to a blob, with the number of times it was set. -/
structure TagEntry where
  name : String
  kappa : String
  version : ℕ
  deriving DecidableEq

/-! ## Edges -/

/-- The relation an edge asserts between its source and its target. -/
inductive EdgeRelation where
  | owns
  | composedOf
  | assertion
  | revocation
  | capability
  | recoveryShare
  | epochRoot
  | akdTreeNode
  | chunkManifest
  | witnessReceipt
  | offloadReceipt
  | derivedFrom
  | certifiedBy
  | evidenceProvenance
  | sectionOf
  | refersTo
  | delegation
  deriving DecidableEq

namespace EdgeRelation

/-- Parses a relation name; two older spellings are still accepted. -/
def parse (s : String) : Option EdgeRelation :=
  match s with
  | "owns" => some owns
  | "composed-of" => some composedOf
  | "assertion" => some assertion
  | "revocation" => some revocation
  | "capability" => some capability
  | "recovery-share" => some recoveryShare
  | "epoch-root" => some epochRoot
  | "akd-tree-node" => some akdTreeNode
  | "chunk-manifest" => some chunkManifest
  | "witness-receipt" | "witness-of" => some witnessReceipt
  | "offload-receipt" => some offloadReceipt
  | "derived-from" | "derives-from" => some derivedFrom
  | "certified-by" => some certifiedBy
  | "evidence-provenance" => some evidenceProvenance
  | "section-of" => some sectionOf
  | "refers-to" => some refersTo
  | "delegation" => some delegation
  | _ => none

def asStr : EdgeRelation → String
  | owns => "owns"
  | composedOf => "composed-of"
  | assertion => "assertion"
  | revocation => "revocation"
  | capability => "capability"
  | recoveryShare => "recovery-share"
  | epochRoot => "epoch-root"
  | akdTreeNode => "akd-tree-node"
  | chunkManifest => "chunk-manifest"
  | witnessReceipt => "witness-receipt"
  | offloadReceipt => "offload-receipt"
  | derivedFrom => "derived-from"
  | certifiedBy => "certified-by"
  | evidenceProvenance => "evidence-provenance"
  | sectionOf => "section-of"
  | refersTo => "refers-to"
  | delegation => "delegation"

def isAuthority : EdgeRelation → Bool
  | capability | delegation => true
  | _ => false

end EdgeRelation

/-- A typed edge: `asserter` states that `relation` holds from `source` to `target`. -/
structure Edge where
  source : String
  target : String
  relation : EdgeRelation
  asserter : String
  valueKappa : Option String
  metadata : Option Bytes
  deriving DecidableEq

/-- Which end of an edge a query's anchor is. -/
inductive Direction where
  | outbound
  | inbound
  deriving DecidableEq

/-- A query for the edges at an anchor, optionally of one relation or by one asserter. -/
structure EdgeQuery where
  anchor : String
  direction : Direction
  relation : Option EdgeRelation
  asserter : Option String
  deriving DecidableEq

/-- The limits a Delegation edge carries in its metadata. -/
structure DelegationScope where
  /-- Namespaces this delegation covers. Empty = all namespaces. -/
  namespaces : List String
  /-- Operations permitted: "read", "write", "admin". Empty = none. -/
  operations : List String
  /-- Expiration timestamp in milliseconds. None = no expiry. -/
  expiresAtMs : Option ℕ
  /-- Re-delegation depth. 0 = delegate cannot re-delegate. -/
  delegationDepth : ℕ
  deriving DecidableEq

end KappaRegistry
