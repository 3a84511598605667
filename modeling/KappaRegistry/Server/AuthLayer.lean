import KappaRegistry.Distribution.Edge
import KappaRegistry.Server.Interceptor

/-!
# The Authorisation Layer

`kappa-server/src/layers/auth.rs` with the token table it consults: a bearer token gives the caller,
`authorize` decides about the namespace the interceptor resolved, and a request that looks like it
writes an edge has its body checked by `check_authority_edge`. The layer sees the body, the path and
the caller before the edge handler does; `checkAuthorityEdge_spec` says what its check means for the
edge that the handler then reads from the same body.
-/

namespace KappaRegistry

open Lib

/-! ## Tokens -/

/-- The token table: token to anchor. -/
structure BearerAuth where
  tokens : Table String String
  required : Bool

namespace BearerAuth

def new (tokens : List (String × String)) (required : Bool) : BearerAuth where
  tokens := tokens.foldl (fun table (token, anchor) => table.insert token anchor) ∅
  required := required

def unauthorized : HttpError := ⟨401, some "UNAUTHORIZED", "authentication required"⟩

def token (headers : List Header) : Option String :=
  (headerText headers "authorization").bind fun v => stripPrefix v "Bearer "

/-- The anchor of the caller, or a rejection. Health, status and version checks are exempt. -/
def check (auth : BearerAuth) (path : String) (headers : List Header) : Except HttpError String :=
  if !auth.required || auth.tokens.isEmpty then .ok "anonymous"
  else if path == "/_status" || path == "/v2/" || path == "/v2" ||
      startsWith path "/v2/_health/" then .ok "anonymous"
  else need ((token headers).bind fun t => auth.tokens[t]?) unauthorized

end BearerAuth

/-- The identity of the caller; without a token table everybody is anonymous. -/
def authenticate (bearer : Option BearerAuth) (r : Request) : Except HttpError String :=
  match bearer with
  | some auth => auth.check r.path r.headers
  | none => .ok "anonymous"

/-- The request presents a token that the table knows, and the token stands for `caller`. -/
def PresentsToken (bearer : Option BearerAuth) (r : Request) (caller : String) : Prop :=
  ∃ auth token, bearer = some auth ∧ BearerAuth.token r.headers = some token ∧
    auth.tokens[token]? = some caller

theorem presentsToken_of_authenticate {bearer : Option BearerAuth} {r : Request} {caller : String}
    (h : authenticate bearer r = .ok caller) (hcaller : caller ≠ "anonymous") :
    PresentsToken bearer r caller := by
  cases bearer with
  | none =>
    cases h
    exact absurd rfl hcaller
  | some auth =>
    change auth.check r.path r.headers = .ok caller at h
    unfold BearerAuth.check at h
    split at h
    · cases h
      exact absurd rfl hcaller
    · split at h
      · cases h
        exact absurd rfl hcaller
      · obtain ⟨token, htoken, hanchor⟩ := Option.bind_eq_some_iff.mp (need_eq_ok.mp h)
        exact ⟨auth, token, rfl, htoken, hanchor⟩

/-! ## Classification -/

def classifyRequest (method path : String) : OpClass :=
  if path == "/v2" || path == "/v2/" || startsWith path "/v2/_health/" || path == "/_status" then
    .exempt
  else if containsText path "/gc/pin" || containsText path "/gc/unpin" ||
      containsText path "/gc/sweep" then .admin
  else if containsText path "/_transaction/begin" || endsWith path "/commit" ||
      (containsText path "/_transaction/" && method == "DELETE") then .admin
  else if containsText path "/_reconcile" then .admin
  else if containsText path "/blobs/_cascade" then .admin
  else if containsText path "/tags/_prefix" then .admin
  else if method == "DELETE" then .admin
  else if method == "GET" || method == "HEAD" then .read
  else .write

/-- The class a request is authorised for: a read that precedes a write counts as a write. -/
def requestOp (r : Request) : OpClass :=
  if (detectedOperation r).isWrite && classifyRequest r.method r.path = .read then .write
  else classifyRequest r.method r.path

/-! ## The layer -/

/-- 403 with the registry's JSON error shape. -/
def denied (reason : String) : HttpError := ⟨403, some "DENIED", reason⟩

def internalServerError : HttpError := ⟨500, none, "internal server error"⟩

def authorizeErr : AuthError → HttpError
  | .notFound => ⟨404, none, "not found"⟩
  | .forbidden reason => denied reason
  | .store _ => internalServerError

def authorityEdgeErr : AuthError → HttpError
  | .forbidden reason => denied reason
  | .notFound | .store _ => internalServerError

def writesEdge (r : Request) : Bool :=
  r.method == "PUT" && startsWith r.path "/v2/" && endsWith r.path "/edges/"

variable (serde : SerdeJson) (store : KappaStore) (nowMs : ℕ)

/-- Authorisation, which exempt requests do without. -/
def authorizeRequest (r : Request) (caller : String) : Except HttpError AuthDecision :=
  if requestOp r = .exempt then .ok .allowed
  else (authorize serde store nowMs (resolvedNamespace store r) (requestOp r) caller).mapError
    authorizeErr

def checkEdgeBody (r : Request) (caller : String) : Except HttpError Unit :=
  if writesEdge r then
    (checkAuthorityEdge serde store nowMs (resolvedNamespace store r) caller r.body).mapError
      authorityEdgeErr
  else .ok ()

/-- The caller of a request that may go on to its handler. -/
def authLayer (bearer : Option BearerAuth) (r : Request) : Except HttpError String := do
  let caller ← authenticate bearer r
  let _ ← authorizeRequest serde store nowMs r caller
  checkEdgeBody serde store nowMs r caller
  return caller

section

variable {serde store nowMs}

theorem authLayer_eq_ok {bearer : Option BearerAuth} {r : Request} {caller : String}
    (h : authLayer serde store nowMs bearer r = .ok caller) :
    authenticate bearer r = .ok caller ∧ (writesEdge r = true →
      checkAuthorityEdge serde store nowMs (resolvedNamespace store r) caller r.body = .ok ()) := by
  unfold authLayer at h
  obtain ⟨caller', hcaller, h⟩ := bind_eq_ok.mp h
  obtain ⟨_, -, h⟩ := bind_eq_ok.mp h
  obtain ⟨_, hcheck, h⟩ := bind_eq_ok.mp h
  obtain rfl := pure_eq_ok.mp h
  refine ⟨hcaller, ?_⟩
  intro hwrites
  rw [checkEdgeBody, if_pos hwrites] at hcheck
  exact mapError_eq_ok.mp hcheck

/-- **What the check of a body guarantees** about the edge that the handler reads from it. -/
theorem checkAuthorityEdge_spec {ns : ResolvedNamespace} {caller asserter : String} {body : Bytes}
    {edge : Edge} (hcheck : checkAuthorityEdge serde store nowMs ns caller body = .ok ())
    (hparse : parseEdge serde asserter body = .ok edge) (hrel : edge.relation.isAuthority = true) :
    caller ≠ "anonymous" ∧ edge.source = caller ∧ (edge.relation = .capability →
      isOwner store ns caller = true ∨ isRootAdmin serde store nowMs caller = .ok true) := by
  obtain ⟨v, relationStr, hv, hsource, hrelation, -, hknown, -⟩ := parseEdge_eq_ok.mp hparse
  unfold checkAuthorityEdge at hcheck
  simp only [hv, hrelation, Option.bind_some, hknown, hrel, hsource] at hcheck
  split at hcheck
  · rename_i hnot
    simp at hnot
  split at hcheck
  · cases hcheck
  rename_i hcaller
  split at hcheck
  · cases hcheck
  rename_i hsame
  refine ⟨hcaller, Option.some.inj (not_not.mp hsame), ?_⟩
  intro hcap
  rw [if_pos hcap] at hcheck
  unfold checkCapabilityEdge at hcheck
  split_ifs at hcheck with howner
  · exact .inl howner
  · right
    split at hcheck
    · cases hcheck
    · assumption
    · cases hcheck

end

end KappaRegistry
