import KappaRegistry.Atproto.Mst
import KappaRegistry.Lib.Action
import KappaRegistry.Store.Sealing

/-!
# Repositories

How `kappa-module-atproto/src/xrpc.rs` starts a repository. The repository of a DID is kept in tags of
the namespace of that name: `mst/{cid}` names the block of a tree node by its identifier, and
`commit/head`, `commit/rev` and `commit/rev/{rev}` name commits.

A handler is an action on the store, which keeps what was written before a failure. Its request is the
JSON value of the body.
-/

namespace KappaRegistry.Atproto

open Lib PersistentStore Action

/-- What a request draws: an identifier for a namespace and readings of the clock. -/
structure RepoDraws where
  uuid : Uuid
  nowMs : ℕ
  /-- The time of the TID of the commit, in microseconds. -/
  revUs : ℕ

abbrev RepoAction (α : Type) := Action PersistentStore StoreError α

/-- `namespace_resolve_or_create`. -/
def resolveOrCreate (draws : RepoDraws) (name owner : String) (protocol : Option String) :
    RepoAction NamespaceRef := fun s =>
  match s.namespaceResolveOrCreate draws.uuid draws.nowMs name owner protocol with
  | .ok created => (.ok created.1, created.2)
  | .error e => (.error e, s)

section

variable (prim : Primitives) (libs : SessionLibs) (req : Json) (ns : String)

/-- Stores bytes and lets a tag name them. -/
def putNamed (name : String) (bytes : Bytes) (s : PersistentStore) : PersistentStore :=
  (s.blobPut (prim.kappaFromBytes bytes) bytes).tagSet ns name (prim.kappaFromBytes bytes)

/-- All node blocks with their tags. -/
def storeBlocks (blocks : List MstBlock) (s : PersistentStore) : PersistentStore :=
  blocks.foldl (fun s block => putNamed prim ns ("mst/" ++ hexEncode block.1) block.2 s) s

def storeCommit (commit : UnsignedCommit) (s : PersistentStore) : PersistentStore :=
  ((putNamed prim ns "commit/head" commit.toCbor s).tagSet ns "commit/rev" commit.rev).tagSet ns
    ("commit/rev/" ++ commit.rev) (prim.kappaFromBytes commit.toCbor)

/-- The store part of `create_account`: an empty tree and a first commit. -/
def initRepo (did : String) (draws : RepoDraws) : RepoAction String := do
  let ns ← resolveOrCreate draws did did (some "atproto")
  update (storeBlocks prim ns.asStr (Mst.writeToStore libs ∅).2)
  update (storeCommit prim ns.asStr
    { did
      version := 3
      data := Mst.root libs ∅
      rev := nextTid draws.revUs
      prev := none })
  return nextTid draws.revUs

/-- `create_account`: who is asked for, by name or derived from the handle. -/
def accountDid : String :=
  (textMember req "did").getD
    ("did:plc:" ++ hexEncode ((libs.sha256 (textBytes ((textMember req "handle").getD ""))).take 16))

/-- `create_account`: whether the request has what it needs. -/
def accountAsked : Prop :=
  (textMember req "handle").getD "" ≠ "" ∧ (textMember req "password").getD "" ≠ ""
  deriving Decidable

end

end KappaRegistry.Atproto
