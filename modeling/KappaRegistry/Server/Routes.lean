import KappaRegistry.Server.AuthLayer
import KappaRegistry.Store.EdgeTables

/-!
# Routes that Write Edges

Beside `PUT /v2/{*ns}/edges/`, seven endpoints put edges and one deletes them. Each of the seven puts
edges of relations that are fixed in its handler (`Endpoint.Puts`). What else the handlers do is left
open: `Writes` allows any change of the other tables and any number of the puts, in any namespace,
because the handlers go on after a put that failed, and stop in the middle when another operation fails.

All that is asked of the router is that it takes no other request for one that puts an edge.
-/

namespace KappaRegistry

open Lib PersistentStore

/-- The endpoints that write edges, and all others together. -/
inductive Endpoint where
  | edgePut
  | edgeDelete
  | compose
  | registerSchema
  | manifestPut
  | narinfoPut
  | identityAssert
  | identityRevoke
  | uploadComplete
  | other
  deriving DecidableEq

/-- The edges the handlers other than the edge handler put, for a caller whose asserter name is
`asserter`. -/
inductive Endpoint.Puts (serde : SerdeJson) (asserter : String) : Endpoint → Edge → Prop where
  | composedOf (composed operand opToken : String) : Puts serde asserter .compose
      ⟨composed, operand, .composedOf, asserter, none,
        some (serde.toVec (.obj [("operation", .str opToken)]))⟩
  | witness (witness composed : String) : Puts serde asserter .compose
      ⟨witness, composed, .witnessReceipt, asserter, none, none⟩
  | schemaEvolution (kappa old : String) : Puts serde asserter .registerSchema
      ⟨kappa, old, .derivedFrom, asserter, none, none⟩
  | referrer (kappa subject : String) : Puts serde asserter .manifestPut
      ⟨kappa, subject, .refersTo, asserter, none, none⟩
  | reference (narinfo hash : String) : Puts serde asserter .narinfoPut
      ⟨narinfo, "storepath:" ++ hash, .refersTo, "_nix", none, none⟩
  | deriver (narinfo deriver : String) : Puts serde asserter .narinfoPut
      ⟨narinfo, "deriver:" ++ deriver, .derivedFrom, "_nix", none, none⟩
  | signature (anchor narinfo : String) (metadata : Bytes) : Puts serde asserter .narinfoPut
      ⟨anchor, narinfo, .assertion, anchor, none, some metadata⟩
  | assertion (anchor subject kappa : String) : Puts serde asserter .identityAssert
      ⟨anchor, subject, .assertion, anchor, some kappa, none⟩
  | revocation (anchor assertionKappa kappa : String) : Puts serde asserter .identityRevoke
      ⟨anchor, assertionKappa, .revocation, anchor, some kappa, none⟩
  | partManifest (object manifest : String) : Puts serde asserter .uploadComplete
      ⟨object, manifest, .chunkManifest, "_system", none, none⟩

/-- **Only the edge handler puts authority edges.** -/
theorem Endpoint.Puts.not_authority {serde : SerdeJson} {asserter : String} {endpoint : Endpoint}
    {e : Edge} (h : endpoint.Puts serde asserter e) : e.relation.isAuthority = false := by
  cases h with
  | _ => rfl

section

variable (prim : Primitives) (serde : SerdeJson) (asserter : String) (endpoint : Endpoint)

/-- What the handler of an endpoint other than `edgePut` may do to the store, one operation after
another. -/
inductive Writes : PersistentStore → PersistentStore → Prop where
  | done (s : PersistentStore) : Writes s s
  | elsewhere {s s₁ s₂ : PersistentStore} (edges : s₁.edges = s.edges)
      (edgeFwd : s₁.edgeFwd = s.edgeFwd) (edgeRev : s₁.edgeRev = s.edgeRev) (rest : Writes s₁ s₂) :
      Writes s s₂
  | put {s s₂ : PersistentStore} (ns : String) {e : Edge} (puts : endpoint.Puts serde asserter e)
      (rest : Writes (s.edgePut prim ns e) s₂) : Writes s s₂
  | putBatch {s s₂ : PersistentStore} (ns : String) {edges : List Edge}
      (puts : ∀ e ∈ edges, endpoint.Puts serde asserter e)
      (rest : Writes (s.edgePutBatch prim ns edges) s₂) : Writes s s₂
  | delete {s s₂ : PersistentStore} (ns source target : String) (relation : EdgeRelation)
      (deletes : endpoint = .edgeDelete) (rest : Writes (s.edgeDelete ns source target relation) s₂) :
      Writes s s₂

variable {prim serde asserter endpoint}

section

variable {s s' : PersistentStore} {key : String} {f : Edge}
  (h : Writes prim serde asserter endpoint s s') (hrow : s'.edges[key]? = some f)
include h hrow

theorem Writes.row :
    s.edges[key]? = some f ∨ ∃ e, endpoint.Puts serde asserter e ∧ f = e.canonical prim := by
  induction h with
  | done s => exact .inl hrow
  | elsewhere edges _ _ _ ih =>
    rw [← edges]
    exact ih hrow
  | put ns puts _ ih =>
    rcases ih hrow with hmid | hput
    · rcases edgePut_row prim hmid with hbefore | ⟨heq, -⟩
      · exact .inl hbefore
      · exact .inr ⟨_, puts, heq⟩
    · exact .inr hput
  | putBatch ns puts _ ih =>
    rcases ih hrow with hmid | hput
    · rcases edgePutBatch_row prim hmid with hbefore | ⟨e, he, -, heq⟩
      · exact .inl hbefore
      · exact .inr ⟨e, puts e he, heq⟩
    · exact .inr hput
  | delete ns source target relation _ _ ih =>
    rcases ih hrow with hmid | hput
    · exact .inl (edgeDelete_row hmid)
    · exact .inr hput

theorem Writes.authority_row (hrel : f.relation.isAuthority = true) : s.edges[key]? = some f := by
  rcases h.row hrow with hbefore | ⟨e, hput, rfl⟩
  · exact hbefore
  · have hnot : e.relation.isAuthority = false := hput.not_authority
    exact absurd hrel (by simp [Edge.canonical, hnot])

end

end

/-! ## Serving a request -/

/-- The router, by what it makes of a method and a path. -/
structure Router where
  endpoint : String → String → Option Endpoint
  edgePut_path : ∀ method path, endpoint method path = some .edgePut →
    method = "PUT" ∧ startsWith path "/v2/" = true ∧ endsWith path "/edges/" = true

/-- The configuration of a server: the node's anchor if it has an identity, the token table if there
is one, the S3 base domain if it is set, and the routes. -/
structure Server where
  nodeAnchor : Option String
  bearer : Option BearerAuth
  s3BaseDomain : Option String
  router : Router

variable (prim : Primitives) (serde : SerdeJson) (server : Server)

/-- A request is dispatched as it is, or anew under the path it is rewritten to. -/
inductive Rewrites : Request → Request → Prop where
  | unchanged (r : Request) (final : rewrittenPath server.s3BaseDomain r = none) : Rewrites r r
  | again (r r₁ : Request) {r₂ : Request} (path : rewrittenPath server.s3BaseDomain r = some r₁.path)
      (method : r₁.method = r.method) (query : r₁.query.getD "" = r.query.getD "")
      (headers : r₁.headers = r.headers) (body : r₁.body = r.body) (rest : Rewrites r₁ r₂) :
      Rewrites r r₂

/-- What serving a request in its last form does to the store, with the UUID and the clock reading
that serving it draws. -/
inductive Serves (r : Request) (uuid : Uuid) (nowMs : ℕ) (s : PersistentStore) :
    PersistentStore → Prop where
  | answered : Serves r uuid nowMs s s
  | edgePut (caller : String)
      (auth : authLayer serde s.toKappaStore nowMs server.bearer r = .ok caller)
      (route : server.router.endpoint r.method r.path = some .edgePut) :
      Serves r uuid nowMs s
        (putRoute serde (impl prim) s uuid nowMs (resolvedNamespace s.toKappaStore r)
          (registryAnchor (some caller) server.nodeAnchor) r.body).2
  | handler (caller : String) (endpoint : Endpoint) {s' : PersistentStore}
      (auth : authLayer serde s.toKappaStore nowMs server.bearer r = .ok caller)
      (route : server.router.endpoint r.method r.path = some endpoint)
      (other : endpoint ≠ .edgePut)
      (writes : Writes prim serde (registryAnchor (some caller) server.nodeAnchor) endpoint s s') :
      Serves r uuid nowMs s s'

/-- One request of a run: as it was received and as it was served at last, and the store before and
after it. -/
structure Transition where
  received : Request
  served : Request
  uuid : Uuid
  nowMs : ℕ
  before : PersistentStore
  after : PersistentStore

/-- The runs of the server from `s₀`: their transitions, and the store they end in. -/
inductive ServerRun (s₀ : PersistentStore) : List Transition → PersistentStore → Prop where
  | start : ServerRun s₀ [] s₀
  | step {log : List Transition} (t : Transition) (run : ServerRun s₀ log t.before)
      (rewrites : Rewrites server t.received t.served)
      (serves : Serves prim serde server t.served t.uuid t.nowMs t.before t.after) :
      ServerRun s₀ (log ++ [t]) t.after

end KappaRegistry
