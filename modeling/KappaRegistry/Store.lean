import KappaRegistry.Lib.Table
import KappaRegistry.Primitives

/-!
# The Store Interface

What both store implementations share: the test for the same logical edge, the filters of an edge
query, and the loop that follows identity successions. `KappaStore` is the part of the `KappaStore`
trait that authorisation reads: resolving a name, reading a namespace's record, and listing edges.
The functions are those of one state of one implementation; a statement for every `KappaStore` is a
statement for every implementation in every state.
-/

namespace KappaRegistry

open Lib

instance (priority := high) instTransOrdUuid : Std.TransOrd Uuid := Fin.instTransOrd _

instance (priority := high) instTransOrdUuidPair : Std.TransOrd (Uuid × ℕ) := inferInstance

/-- Whether two edges are the same logical edge: they differ at most in value and metadata. -/
def sameLogicalEdge (a b : Edge) : Bool :=
  a.source == b.source && a.target == b.target && a.relation == b.relation &&
    a.asserter == b.asserter

/-- Whether an edge passes the filters of a query. -/
def EdgeQuery.admits (q : EdgeQuery) (edge : Edge) : Bool :=
  q.relation.all (fun rel => edge.relation == rel) && q.asserter.all (fun asr => edge.asserter == asr)

/-- The end of an edge at which a query in this direction finds it. -/
def Direction.endOf : Direction → Edge → String
  | .outbound, edge => edge.source
  | .inbound, edge => edge.target

/-- The loop of `identity_succession_resolve` at `current`, after the anchors in `visited` and
with room for `room` more. -/
def successionResolveFrom (successions : Table String String) :
    ℕ → List String → String → Except StoreError String
  | room, visited, current =>
    match successions[current]? with
    | none => .ok current
    | some next =>
      if next ∈ visited then .error (.rejected ("succession cycle detected at " ++ next))
      else
        match room with
        | 0 => .error (.rejected "succession chain exceeds 10 hops")
        | room + 1 => successionResolveFrom successions room (next :: visited) next

/-- `identity_succession_resolve`: the last successor of an anchor. -/
def successionResolve (successions : Table String String) (anchor : String) :
    Except StoreError String :=
  successionResolveFrom successions 9 [anchor] anchor

/-- The read methods of a store in one of its states. -/
structure KappaStore where
  /-- `namespace_resolve`: the namespace a name stands for, under a protocol or globally. -/
  namespaceResolve : String → Option String → Except StoreError NamespaceRef
  /-- `namespace_info`: the record of the namespace a name stands for. -/
  namespaceInfo : String → Option String → Except StoreError NamespaceRecord
  /-- `edge_query`: the edges of a namespace at an anchor, in the store's own order. -/
  edgeQuery : NamespaceRef → EdgeQuery → Except StoreError (List Edge)

namespace KappaStore

variable (store : KappaStore)

/-- The edges a query lists; a failed query lists none. -/
def edgesOf (ns : NamespaceRef) (q : EdgeQuery) : List Edge :=
  match store.edgeQuery ns q with
  | .ok edges => edges
  | .error _ => []

end KappaStore

/-- A store implementation on states `σ`: what it answers in a state, and the methods that edge
requests write with. -/
structure StoreImpl (σ : Type) where
  /-- The read methods. -/
  view : σ → KappaStore
  /-- `blob_exists`. -/
  blobExists : σ → String → Except StoreError Bool
  /-- `edge_put`. -/
  edgePut : σ → NamespaceRef → Edge → Except StoreError σ
  /-- `namespace_resolve_or_create` of a name for an owner under a protocol, with the UUID and the
  time that a creation draws. -/
  namespaceResolveOrCreate : σ → Uuid → ℕ → String → String → Option String →
    Except StoreError (NamespaceRef × σ)

end KappaRegistry
