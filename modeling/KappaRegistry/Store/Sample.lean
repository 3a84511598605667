import KappaRegistry.Json.Text
import KappaRegistry.Primitives.Instance
import KappaRegistry.Store.Memory
import KappaRegistry.Store.Persistent

/-!
# Edges and Stores for Concrete Runs

Builders for the authority edges and the stores that the concrete runs of later modules use. The
metadata is the JSON text a client sends, and a store is built by the store's own operations.
-/

namespace KappaRegistry

def Json.texts (xs : List String) : Json := .arr (xs.map .str)

/-- The metadata of a Capability edge that permits some operations. -/
def Json.capability (ops : List String) : Json := .obj [("ops", .texts ops)]

/-- The metadata of a Delegation edge without expiry. -/
def Json.delegation (namespaces ops : List String) (depth : ℕ) : Json :=
  .obj [("delegation_depth", .num (.posInt depth)), ("namespaces", .texts namespaces),
    ("operations", .texts ops)]

/-- A Capability edge that `anchor` asserts about itself. -/
def Edge.capability (anchor target : String) (ops : List String) : Edge where
  source := anchor
  target := target
  relation := .capability
  asserter := anchor
  valueKappa := none
  metadata := some (SerdeJson.text.toVec (.capability ops))

def Edge.delegation (source target : String) (namespaces ops : List String) (depth : ℕ) : Edge where
  source := source
  target := target
  relation := .delegation
  asserter := source
  valueKappa := none
  metadata := some (SerdeJson.text.toVec (.delegation namespaces ops depth))

namespace InMemoryStore

/-- A store in which namespaces were created under the names listed, each with its owner; the
`i`-th has UUID `i`. -/
def withNamespaces (names : List (String × String)) : InMemoryStore :=
  names.zipIdx.foldl
    (fun s (nameOwner, i) =>
      match s.namespaceCreate (Fin.ofNat _ i) 0 nameOwner.1 nameOwner.2 none with
      | .ok (_, s) => s
      | .error _ => s)
    new

/-- Puts edges into a namespace, in order. -/
def putEdges (s : InMemoryStore) (ns : NamespaceRef) (edges : List Edge) : InMemoryStore :=
  edges.foldl (fun s e => s.edgePut .sample ns e) s

end InMemoryStore

namespace PersistentStore

/-- A store in which namespaces were created under the global names listed, each with its owner;
the `i`-th has UUID `i`. -/
def withNamespaces (names : List (String × String)) : PersistentStore :=
  names.zipIdx.foldl
    (fun s (nameOwner, i) =>
      match s.namespaceCreate (Fin.ofNat _ i) 0 nameOwner.1 nameOwner.2 none with
      | .ok (_, s) => s
      | .error _ => s)
    (new false)

end PersistentStore

def Edge.requestBody (source target relation : String) (metadata : Json) : Bytes :=
  SerdeJson.text.toVec (.obj [("metadata", metadata), ("relation", .str relation),
    ("source", .str source), ("target", .str target)])

end KappaRegistry
