import KappaRegistry.Auth
import KappaRegistry.Store.Persistent

/-!
# The Edge Handler

`PUT /v2/{*ns}/edges/` of `kappa-module-distribution`: the handler reads an edge from a JSON body,
stamps it with the caller as its asserter, and puts it. A Delegation edge with a readable scope has
to pass the depth rule first (`checkDepth`): its depth must be below what the delegator has left,
which is without limit for the owner of the namespace and for holders of a `_root` capability, and
otherwise the depth of the first Delegation edge into the delegator that is found.

The handler is written against any store implementation.
-/

namespace KappaRegistry

open Lib

/-- An error response: its status, the code of the registry's JSON error shape if it has one, and
the message. -/
structure HttpError where
  status : ℕ
  code : Option String
  message : String
  deriving DecidableEq

def badRequest (message : String) : HttpError := ⟨400, none, message⟩

def storeErr : StoreError → HttpError
  | .notFound _ => ⟨404, none, "not found"⟩
  | .conflict message => badRequest ("conflict: " ++ message)
  | .rejected message => badRequest message
  | .io message => badRequest ("io error: " ++ message)
  | .canonical message => badRequest ("canonical error: " ++ message)

/-- Get the caller's identity for the asserter field: the authenticated caller, and the node's
anchor, or a fixed name, for a request without one. -/
def registryAnchor (caller nodeAnchor : Option String) : String :=
  match caller with
  | some anchor => if anchor ≠ "anonymous" then anchor else nodeAnchor.getD "kappa-distribution"
  | none => nodeAnchor.getD "kappa-distribution"

variable (serde : SerdeJson)

/-- The edge a body describes, as asserted by `asserter`. -/
def parseEdge (asserter : String) (body : Bytes) : Except HttpError Edge := do
  let v ← need (serde.fromSlice body) (badRequest "invalid JSON")
  let source ← need ((v.get "source").bind Json.asStr) (badRequest "missing source")
  let relationStr ← need ((v.get "relation").bind Json.asStr) (badRequest "missing relation")
  let target ← need ((v.get "target").bind Json.asStr) (badRequest "missing target")
  let relation ← need (EdgeRelation.parse relationStr)
    (badRequest ("unknown relation: " ++ relationStr))
  return { source, target, relation, asserter, valueKappa := none,
           metadata := (v.get "metadata").map serde.toVec }

/-- Relations whose source is an anchor, not the label of a blob. -/
def skipSourceCheck : EdgeRelation → Bool
  | .capability | .delegation | .assertion => true
  | _ => false

section

variable (store : KappaStore) (ns : NamespaceRef)

def firstDepth (edges : List Edge) : Option ℕ :=
  (edges.findSome? (scopeOf serde)).map DelegationScope.delegationDepth

/-- What the delegator has left by authority over `_root`: no limit for a holder of any
self-asserted Capability there, and one more than the first delegation for a delegate. -/
def rootDepth (delegator : String) : Option ℕ :=
  match store.namespaceResolve "_root" none with
  | .error _ => none
  | .ok rootNs =>
    if (store.edgesOf rootNs (.selfCapability delegator)).isEmpty then
      (firstDepth serde (store.edgesOf rootNs (.delegationsInto delegator))).map fun depth =>
        min (depth + 1) u32Max
    else some u32Max

def delegatorDepth (delegator : String) : ℕ :=
  if ownerIs store ns delegator then u32Max
  else
    match rootDepth serde store delegator with
    | some depth => depth
    | none => (firstDepth serde (store.edgesOf ns (.delegationsInto delegator))).getD 0

/-- Delegation depth enforcement at creation time. -/
def checkDepth (edge : Edge) : Except HttpError Unit :=
  if edge.relation ≠ .delegation then .ok ()
  else
    match scopeOf serde edge with
    | none => .ok ()
    | some scope => do
      let depth := delegatorDepth serde store ns edge.source
      ensure (depth ≠ 0)
        ⟨403, some "DELEGATION_DEPTH_EXCEEDED", "delegator has depth=0 and cannot re-delegate"⟩
      ensure (scope.delegationDepth < depth)
        ⟨403, some "DELEGATION_DEPTH_EXCEEDED",
          "new delegation depth " ++ toString scope.delegationDepth ++
            " exceeds delegator remaining depth " ++ toString (depth - 1)⟩

end

section

variable {σ : Type} (impl : StoreImpl σ)

/-- The source of a content edge must exist. -/
def checkSource (s : σ) (edge : Edge) : Except HttpError Unit :=
  if skipSourceCheck edge.relation then .ok ()
  else do
    let found ← (impl.blobExists s edge.source).mapError storeErr
    ensure (found = true) ⟨400, some "EDGE_SOURCE_ABSENT", "source kappa does not exist"⟩

/-- The handler, once the namespace is known. -/
def put (s : σ) (ns : NamespaceRef) (asserter : String) (body : Bytes) : Except HttpError σ := do
  let edge ← parseEdge serde asserter body
  checkSource impl s edge
  checkDepth serde (impl.view s) ns edge
  (impl.edgePut s ns edge).mapError storeErr

/-- The namespace a write goes to, created on the first write. -/
def resolveNsWrite (s : σ) (uuid : Uuid) (nowMs : ℕ) (owner : String) :
    ResolvedNamespace → Except HttpError (NamespaceRef × σ)
  | .exists ns => .ok (ns, s)
  | .notFound name protocol =>
    (impl.namespaceResolveOrCreate s uuid nowMs name owner (some protocol)).mapError storeErr
  | .noNamespace => .error (badRequest "no namespace in request path")

/-- The route: a namespace it created stays, even if the edge is then refused. -/
def putRoute (s : σ) (uuid : Uuid) (nowMs : ℕ) (ns : ResolvedNamespace) (asserter : String)
    (body : Bytes) : Except HttpError Unit × σ :=
  match resolveNsWrite impl s uuid nowMs asserter ns with
  | .error e => (.error e, s)
  | .ok (ns, s) =>
    match put serde impl s ns asserter body with
    | .error e => (.error e, s)
    | .ok s => (.ok (), s)

end

/-! ## What the handler accepts -/

section

variable {serde} {store : KappaStore} {ns : NamespaceRef}

theorem parseEdge_eq_ok {asserter : String} {body : Bytes} {edge : Edge} :
    parseEdge serde asserter body = .ok edge ↔
      ∃ v relationStr, serde.fromSlice body = some v ∧
        (v.get "source").bind Json.asStr = some edge.source ∧
        (v.get "relation").bind Json.asStr = some relationStr ∧
        (v.get "target").bind Json.asStr = some edge.target ∧
        EdgeRelation.parse relationStr = some edge.relation ∧ edge.asserter = asserter ∧
        edge.valueKappa = none ∧ edge.metadata = (v.get "metadata").map serde.toVec := by
  simp only [parseEdge, bind_eq_ok, need_eq_ok, pure_eq_ok]
  constructor
  · rintro ⟨v, hv, source, hsource, relationStr, hrel, target, htarget, relation, hparse, rfl⟩
    exact ⟨v, relationStr, hv, hsource, hrel, htarget, hparse, rfl, rfl, rfl⟩
  · rintro ⟨v, relationStr, hv, hsource, hrel, htarget, hparse, hasserter, hvalue, hmeta⟩
    refine ⟨v, hv, _, hsource, relationStr, hrel, _, htarget, _, hparse, ?_⟩
    rw [← hasserter, ← hmeta, ← hvalue]

theorem checkDepth_eq_ok {edge : Edge} {scope : DelegationScope}
    (hrel : edge.relation = .delegation) (hscope : scopeOf serde edge = some scope) :
    checkDepth serde store ns edge = .ok () ↔
      scope.delegationDepth < delegatorDepth serde store ns edge.source := by
  unfold checkDepth
  rw [if_neg (not_not.mpr hrel), hscope]
  simp only [bind_eq_ok, ensure_eq_ok, exists_const]
  omega

theorem put_eq_ok {σ : Type} {impl : StoreImpl σ} {s s' : σ} {asserter : String} {body : Bytes} :
    put serde impl s ns asserter body = .ok s' ↔
      ∃ edge, parseEdge serde asserter body = .ok edge ∧ checkSource impl s edge = .ok () ∧
        checkDepth serde (impl.view s) ns edge = .ok () ∧ impl.edgePut s ns edge = .ok s' := by
  simp only [put, bind_eq_ok, mapError_eq_ok]
  refine exists_congr fun edge => and_congr_right fun _ => ?_
  constructor
  · rintro ⟨_, hsource, _, hdepth, hput⟩
    exact ⟨hsource, hdepth, hput⟩
  · rintro ⟨hsource, hdepth, hput⟩
    exact ⟨(), hsource, (), hdepth, hput⟩

end

/-- The name of the namespace in a request path, whether it exists or not. -/
def ResolvedNamespace.name : ResolvedNamespace → String
  | .exists ns => ns.asStr
  | .notFound name _ => name
  | .noNamespace => ""

theorem resolveNsWrite_eq_ok (prim : Primitives) {s s' : PersistentStore} {uuid : Uuid} {nowMs : ℕ}
    {owner : String} {resolved : ResolvedNamespace} {ns : NamespaceRef}
    (h : resolveNsWrite (PersistentStore.impl prim) s uuid nowMs owner resolved = .ok (ns, s')) :
    ns.asStr = resolved.name ∧ s'.edges = s.edges ∧ s'.edgeRev = s.edgeRev := by
  cases resolved with
  | «exists» ns' =>
    cases h
    exact ⟨rfl, rfl, rfl⟩
  | notFound name protocol =>
    obtain ⟨hname, _, _, rfl⟩ :=
      PersistentStore.namespaceResolveOrCreate_eq_ok (mapError_eq_ok.mp h)
    exact ⟨hname, rfl, rfl⟩
  | noNamespace => cases h

end KappaRegistry
