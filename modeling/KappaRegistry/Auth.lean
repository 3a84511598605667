import KappaRegistry.Lib.Text
import KappaRegistry.Json
import KappaRegistry.Store

/-!
# Authorisation

`kappa-server/src/auth.rs`: who may do what in a namespace. `authorize` runs seven rules in
order and stops at the first that applies; two of them walk chains of Delegation edges
(`checkDelegation`). `checkAuthorityEdge` is the extra test a request that writes an edge has to
pass, because Capability and Delegation edges are themselves claims of authority.

The functions read one state of a store. `nowMs` is the clock reading; the source reads the clock
once per hop of a chain walk, and here all hops of a walk see the same reading. A hop counter
that runs up to the limit of five is a number of hops left that runs down, so that the walk is
structurally recursive.
-/

namespace KappaRegistry

open Lib

/-- Reserved namespace prefixes: all operations on these require a capability edge. -/
def reservedPrefixes : List String :=
  ["kappa/protocols", "kappa/runtimes", "kappa/os", "kappa/identity", "nix", "sesame"]

def isReserved (ns : String) : Bool := reservedPrefixes.any fun r => startsWith ns r

inductive AuthDecision where
  | allowed
  | allowCreateNew
  | allowedViaDelegation
  deriving DecidableEq

inductive AuthError where
  | forbidden (reason : String)
  | notFound
  | store (error : StoreError)
  deriving DecidableEq

/-- The name of an operation class in edge metadata. Exempt operations have none. -/
def OpClass.opStr : OpClass → Option String
  | .read => some "read"
  | .write => some "write"
  | .admin => some "admin"
  | .exempt => none

section

variable (anchor : String)

/-- The Capability edges that `anchor` asserts about itself. -/
def EdgeQuery.selfCapability : EdgeQuery :=
  { anchor, direction := .outbound, relation := some .capability, asserter := some anchor }

/-- The Capability edges out of `anchor`, whoever asserts them. -/
def EdgeQuery.capabilitiesOf : EdgeQuery :=
  { anchor, direction := .outbound, relation := some .capability, asserter := none }

/-- The Delegation edges into `anchor`, whoever asserts them. -/
def EdgeQuery.delegationsInto : EdgeQuery :=
  { anchor, direction := .inbound, relation := some .delegation, asserter := none }

end

variable (serde : SerdeJson)

/-- Check if a capability edge permits the requested operation class: its metadata is a JSON
object whose "ops" array has the operation's name. -/
def capPermits (edge : Edge) (op : OpClass) : Bool :=
  match op.opStr with
  | none => true
  | some opStr =>
    match edge.metadata.bind serde.fromSlice with
    | none => false
    | some parsed =>
      match (parsed.get "ops").bind Json.asArray with
      | none => false
      | some ops => ops.any fun v => v.asStr == some opStr

variable (store : KappaStore) (nowMs : ℕ) (ns : NamespaceRef) (op : OpClass) (asserter : String)

/-- Whether `anchor` holds a self-asserted Capability in `ns` that permits `op`. -/
def holdsCapability (anchor : String) : Bool :=
  match store.edgeQuery ns (.selfCapability anchor) with
  | .ok edges => edges.any fun e => capPermits serde e op
  | .error _ => false

/-! ## The delegation walk -/

def scopeOf (edge : Edge) : Option DelegationScope := edge.metadata.bind serde.scopeFromSlice

/-- The scope of a Delegation edge that counts towards `op` in `ns`. -/
def admittedScope (opStr : String) (edge : Edge) : Option DelegationScope :=
  match scopeOf serde edge with
  | none => none
  | some scope =>
    if !scope.namespaces.isEmpty && !(scope.namespaces.any fun n => startsWith ns.asStr n) then none
    else if !(scope.operations.any fun o => o == opStr) then none
    else if scope.expiresAtMs.any fun expires => decide (nowMs > expires) then none
    else if edge.asserter ≠ edge.source then none
    else some scope

section

variable (ns rootNs : NamespaceRef) (op : OpClass) (opStr : String)
  (recurse : String → Except AuthError (Option ℕ))

/-- The loop over the edges listed in one namespace. `recurse` is the walk from a delegator, one
hop further from the asserter. -/
def scanEdges : List Edge → Except AuthError (Option ℕ)
  | [] => .ok none
  | edge :: edges =>
    match admittedScope serde nowMs ns opStr edge with
    | none => scanEdges edges
    | some scope =>
      if [ns, rootNs].any fun capNs => holdsCapability serde store capNs op edge.source then
        .ok (some scope.delegationDepth)
      else
        match recurse edge.source with
        | .error e => .error e
        | .ok none => scanEdges edges
        | .ok (some parentDepth) =>
          if parentDepth ≥ 1 then .ok (some scope.delegationDepth) else scanEdges edges

/-- The loop over the namespaces whose edges count. A namespace whose query fails is skipped. -/
def scanNamespaces (target : String) : List NamespaceRef → Except AuthError (Option ℕ)
  | [] => .ok none
  | checkNs :: rest =>
    match store.edgeQuery checkNs (.delegationsInto target) with
    | .error _ => scanNamespaces target rest
    | .ok edges =>
      match scanEdges serde store nowMs ns rootNs op opStr recurse edges with
      | .error e => .error e
      | .ok none => scanNamespaces target rest
      | .ok (some depth) => .ok (some depth)

end

/-- `check_delegation_inner` with `hopsLeft` hops left: the `delegation_depth` of the edge that
authorises `target`, if one does. -/
def checkDelegationInner (ns : NamespaceRef) (op : OpClass) :
    ℕ → String → Except AuthError (Option ℕ)
  | 0, _ => .ok none
  | hopsLeft + 1, target =>
    match op.opStr with
    | none => .ok (some u32Max)
    | some opStr =>
      match store.namespaceResolve "_root" none with
      | .error e => .error (.store e)
      | .ok rootNs =>
        scanNamespaces serde store nowMs ns rootNs op opStr (checkDelegationInner ns op hopsLeft)
          target [ns, rootNs]

/-- Check if `target` is authorised via a delegation chain, `hop` hops into the walk. -/
def checkDelegation (target : String) (hop : ℕ) : Except AuthError Bool :=
  (checkDelegationInner serde store nowMs ns op (6 - hop) target).map Option.isSome

/-! ## The rules of `authorize` -/

/-- Rule 1: authority over `_root`, by a capability or by delegation. -/
def rootAuthority : Except AuthError Bool :=
  match store.namespaceResolve "_root" none with
  | .error _ => .ok false
  | .ok rootNs =>
    if holdsCapability serde store rootNs op asserter then .ok true
    else checkDelegation serde store nowMs rootNs op asserter 0

/-- Rule 2: the owner, as the record under the namespace's display name has it. -/
def ownerIs : Bool :=
  match store.namespaceInfo ns.asStr none with
  | .ok info => info.owner == asserter
  | .error _ => false

/-- Rule 3: an unclaimed namespace that is not reserved is open. -/
def openToAll : Bool :=
  !isReserved ns.asStr &&
    match store.edgeQuery ns (.capabilitiesOf "") with
    | .ok caps => caps.isEmpty
    | .error _ => true

/-- Rule 5: a capability in a namespace above this one. -/
def ancestorPermits : Bool :=
  (ancestors '/' ns.asStr).any fun name =>
    match store.namespaceResolve name none with
    | .ok parentNs => holdsCapability serde store parentNs op asserter
    | .error _ => false

/-- Whether a Capability edge says that its source holds the role its target names. -/
def isHoldsRole (edge : Edge) : Bool :=
  match edge.metadata.bind serde.fromSlice with
  | some parsed => (parsed.get "type").bind Json.asStr == some "holds-role"
  | none => false

/-- Rule 6: a role the asserter holds, whose own capability permits the operation. -/
def rolePermits : Bool :=
  match store.edgeQuery ns (.capabilitiesOf asserter) with
  | .ok roleEdges =>
    roleEdges.any fun e => isHoldsRole serde e && holdsCapability serde store ns op e.target
  | .error _ => false

/-- Rules 2 to 7, for a namespace that exists. -/
def authorizeExisting : Except AuthError AuthDecision :=
  if ownerIs store ns asserter then .ok .allowed
  else if openToAll store ns then .ok .allowed
  -- Rule 4: a capability in the namespace itself.
  else if holdsCapability serde store ns op asserter then .ok .allowed
  else if ancestorPermits serde store ns op asserter then .ok .allowed
  else if rolePermits serde store ns op asserter then .ok .allowed
  -- Rule 7: delegation in the namespace.
  else
    match checkDelegation serde store nowMs ns op asserter 0 with
    | .error e => .error e
    | .ok true => .ok .allowedViaDelegation
    | .ok false => .error (.forbidden "access denied")

/-- Authorise an operation on a namespace the interceptor has resolved. -/
def authorize (ns : ResolvedNamespace) (op : OpClass) (asserter : String) :
    Except AuthError AuthDecision :=
  if op = .exempt then .ok .allowed
  else
    match rootAuthority serde store nowMs op asserter with
    | .error e => .error e
    | .ok true => .ok .allowed
    | .ok false =>
      match ns with
      | .exists ns => authorizeExisting serde store nowMs ns op asserter
      | .notFound name _ =>
        if isReserved name then
          .error (.forbidden ("reserved namespace '" ++ name ++ "' requires _root authority"))
        else if op.isWrite then .ok .allowCreateNew
        else .error .notFound
      | .noNamespace => .ok .allowed

/-! ## Writing authority edges -/

/-- Whether the caller owns the namespace an edge is written to; a namespace that does not exist
yet is created by the write, with the caller as its owner. -/
def isOwner (ns : ResolvedNamespace) (asserter : String) : Bool :=
  match ns with
  | .exists ns => ownerIs store ns asserter
  | .notFound _ _ => true
  | .noNamespace => false

/-- `_root` admin: a direct admin capability on `_root`, or an admin delegation chain on it. -/
def isRootAdmin : Except AuthError Bool :=
  match store.namespaceResolve "_root" none with
  | .error e => .error (.store e)
  | .ok rootNs =>
    if holdsCapability serde store rootNs .admin asserter then .ok true
    else checkDelegation serde store nowMs rootNs .admin asserter 0

/-- The ownership test for a Capability edge; `_root` is consulted only if the caller is not the
owner. -/
def checkCapabilityEdge (ns : ResolvedNamespace) (asserter : String) : Except AuthError Unit :=
  if isOwner store ns asserter then .ok ()
  else
    match isRootAdmin serde store nowMs asserter with
    | .error e => .error e
    | .ok true => .ok ()
    | .ok false => .error (.forbidden
        "only the namespace owner or a _root admin can create capability edges")

/-- Check a request that writes an edge. Other relations pass through, and so do malformed
bodies, which the edge handler rejects. -/
def checkAuthorityEdge (ns : ResolvedNamespace) (asserter : String) (body : Bytes) :
    Except AuthError Unit :=
  match serde.fromSlice body with
  | none => .ok ()
  | some v =>
    match ((v.get "relation").bind Json.asStr).bind EdgeRelation.parse with
    | some relation =>
      if !relation.isAuthority then .ok ()
      else if asserter = "anonymous" then
        .error (.forbidden "capability and delegation edges require an authenticated caller")
      else if (v.get "source").bind Json.asStr ≠ some asserter then
        .error (.forbidden "edge source must be the caller")
      else if relation = .capability then checkCapabilityEdge serde store nowMs ns asserter
      else .ok ()
    | none => .ok ()

end KappaRegistry
