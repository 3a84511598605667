import KappaRegistry.Auth.Authorize
import KappaRegistry.Server.Routes

/-!
# Where Authority Edges Come From

Capability and Delegation edges are claims of authority, and a server should let them come only from
those they speak for: the caller is the source and the asserter of the edge, and may put a Capability
edge only as the owner of the namespace, as the one whose request creates it, or as an admin of
`_root`. No handler but the edge handler puts such edges (`Writes.authority_row`), and the edge it
stores is the one the authorisation layer checked (`Serves.authority_row`).

Two things come in between. Rows are kept under display names, so a namespace that a request creates
under one protocol shares its edges with one of the same name under another protocol. And the codec
brings every text into normal form, the caller's anchor too. In every run of requests that meet neither
(`Separate`), authority edges come only from their source (**`authorityEdges_from_source`**).
-/

namespace KappaRegistry

open Lib PersistentStore

variable (prim : Primitives) (serde : SerdeJson) (server : Server)

/-! ## The property -/

/-- There is a namespace of this name, under some protocol or under none. -/
def NamespaceNamed (s : PersistentStore) (n : String) : Prop :=
  ∃ protocol r, s.namespaceResolve n protocol = .ok r

/-- What entitles `caller` to put a Capability edge into `n`: being its owner, that there was no such
namespace, or being an admin of `_root`. -/
def MayGrant (s : PersistentStore) (nowMs : ℕ) (n caller : String) : Prop :=
  (∃ info, s.namespaceInfo n none = .ok info ∧ info.owner = caller) ∨
  ¬ NamespaceNamed s n ∨
  isRootAdmin serde s.toKappaStore nowMs caller = .ok true

/-- Every authority edge that a request adds or changes in a namespace has its authenticated caller
as source and asserter, and for a Capability edge the caller was entitled to it. -/
def AuthorityFromSource (t : Transition) : Prop :=
  ∀ n kappa e, NulFree n → t.after.edgeAt n kappa = some e → t.before.edgeAt n kappa ≠ some e →
    e.relation.isAuthority = true →
    ∃ caller, PresentsToken server.bearer t.served caller ∧ caller ≠ "anonymous" ∧
      e.source = caller ∧ e.asserter = caller ∧
      (e.relation = .capability → MayGrant serde t.before t.nowMs n caller)

/-- A request with a caller in normal form, whose namespace is not one of another protocol when it is
none of its own. -/
structure Separate (t : Transition) : Prop where
  caller_nfc : ∀ caller, PresentsToken server.bearer t.served caller → prim.nfc caller = caller
  unshared : ∀ name protocol,
    resolvedNamespace t.before.toKappaStore t.served = .notFound name protocol →
    ∀ other r, t.before.namespaceResolve name (some other) ≠ .ok r

/-! ## One request -/

section

variable {prim serde server} {s : PersistentStore} {uuid : Uuid} {nowMs : ℕ}

/-- A row after the edge handler was there before, or holds the edge the body asks for, in the
namespace of the request. -/
theorem putRoute_row {ns : ResolvedNamespace} {asserter key : String} {body : Bytes} {f : Edge}
    (h : (putRoute serde (impl prim) s uuid nowMs ns asserter body).2.edges[key]? = some f) :
    s.edges[key]? = some f ∨ ∃ edge kappa, parseEdge serde asserter body = .ok edge ∧
      f = edge.canonical prim ∧ key = dbKey ns.name kappa ∧
      ∃ found, resolveNsWrite (impl prim) s uuid nowMs asserter ns = .ok found := by
  unfold putRoute at h
  cases hres : resolveNsWrite (impl prim) s uuid nowMs asserter ns with
  | error e =>
    rw [hres] at h
    exact .inl h
  | ok found =>
    obtain ⟨ref, s₁⟩ := found
    obtain ⟨hname, hedges, -⟩ := resolveNsWrite_eq_ok prim hres
    cases hput : put serde (impl prim) s₁ ref asserter body with
    | error e =>
      simp only [hres, hput] at h
      rw [hedges] at h
      exact .inl h
    | ok s₂ =>
      simp only [hres, hput] at h
      obtain ⟨edge, hparse, -, -, hedge⟩ := put_eq_ok.mp hput
      cases hedge
      rcases edgePut_row prim h with hbefore | ⟨heq, kappa, hkey⟩
      · rw [hedges] at hbefore
        exact .inl hbefore
      · exact .inr ⟨edge, kappa, hparse, heq, hname ▸ hkey, _, rfl⟩

theorem nulFree_resolvedNamespace (s : PersistentStore) (r : Request) :
    NulFree (resolvedNamespace s.toKappaStore r).name := by
  unfold resolvedNamespace resolveFromPath
  split
  · exact (by decide : NulFree "")
  · rename_i name proto hextract
    have hname : NulFree name := by
      intro hmem
      rcases mem_path_of_extractNamespace hextract hmem with hpath | hnix
      · exact r.path_nulFree hpath
      · exact absurd hnix (by decide)
    split
    · rename_i ns hresolve
      obtain ⟨_, -, rfl⟩ := namespaceResolve_eq_ok.mp hresolve
      exact hname
    · exact hname

variable {r : Request}

/-- A namespace that the interceptor did not find, and that a write then created, was not there under
its global name either. -/
theorem resolveNsWrite_notFound {owner name protocol : String} {found : NamespaceRef × PersistentStore}
    (hresolved : resolvedNamespace s.toKappaStore r = .notFound name protocol)
    (h : resolveNsWrite (impl prim) s uuid nowMs owner (.notFound name protocol) = .ok found) :
    s.namespaceAliases[name]? = none := by
  refine namespaceResolveOrCreate_new (mapError_eq_ok.mp h) ?_
  unfold resolvedNamespace resolveFromPath at hresolved
  split at hresolved
  · cases hresolved
  · split at hresolved
    · cases hresolved
    · rename_i hmissing
      obtain ⟨rfl, rfl⟩ := ResolvedNamespace.notFound.inj hresolved
      intro r hr
      exact absurd (hmissing.symm.trans hr) nofun

/-- **One request.** -/
theorem Serves.authority_row {s' : PersistentStore}
    (h : Serves prim serde server r uuid nowMs s s') {key : String} {f : Edge}
    (hafter : s'.edges[key]? = some f) (hbefore : s.edges[key]? ≠ some f)
    (hrel : f.relation.isAuthority = true) :
    ∃ caller kappa, PresentsToken server.bearer r caller ∧ caller ≠ "anonymous" ∧
      key = dbKey (resolvedNamespace s.toKappaStore r).name kappa ∧
      resolvedNamespace s.toKappaStore r ≠ .noNamespace ∧
      (∀ name protocol, resolvedNamespace s.toKappaStore r = .notFound name protocol →
        s.namespaceAliases[name]? = none) ∧
      f.source = prim.nfc caller ∧ f.asserter = prim.nfc caller ∧ (f.relation = .capability →
        isOwner s.toKappaStore (resolvedNamespace s.toKappaStore r) caller = true ∨
        isRootAdmin serde s.toKappaStore nowMs caller = .ok true) := by
  cases h with
  | answered => exact absurd hafter hbefore
  | handler caller endpoint auth route other writes =>
    exact absurd (writes.authority_row hafter hrel) hbefore
  | edgePut caller auth route =>
    rcases putRoute_row hafter with hold | ⟨edge, kappa, hparse, rfl, hkey, found, hfound⟩
    · exact absurd hold hbefore
    -- the layer looked at this request, because of what the route matches
    obtain ⟨hmethod, hprefix, hsuffix⟩ := server.router.edgePut_path _ _ route
    have hwrites : writesEdge r = true := by
      simp [writesEdge, hmethod, hprefix, hsuffix]
    obtain ⟨hauth, hcheck⟩ := authLayer_eq_ok auth
    obtain ⟨hcaller, hsource, hgrant⟩ := checkAuthorityEdge_spec (hcheck hwrites) hparse hrel
    obtain ⟨_, _, -, -, -, -, -, hasserter, -⟩ := parseEdge_eq_ok.mp hparse
    refine ⟨caller, kappa, presentsToken_of_authenticate hauth hcaller, hcaller, hkey, ?_, ?_, ?_, ?_,
      hgrant⟩
    · intro hnone
      rw [hnone] at hfound
      cases hfound
    · intro name protocol hresolved
      rw [hresolved] at hfound
      exact resolveNsWrite_notFound hresolved hfound
    · show prim.nfc edge.source = prim.nfc caller
      rw [hsource]
    · show prim.nfc edge.asserter = prim.nfc caller
      rw [hasserter, registryAnchor, if_pos hcaller]

end

/-! ## Runs -/

section

variable {prim serde server}

/-- **One step**: a request that meets no namespace of another protocol keeps the property. -/
theorem Separate.authorityFromSource {t : Transition} (hsep : Separate prim server t)
    (hserves : Serves prim serde server t.served t.uuid t.nowMs t.before t.after) :
    AuthorityFromSource serde server t := by
  intro n kappa e hn hafter hbefore hrel
  obtain ⟨caller, kappa', htoken, hcaller, hkey, hns, hglobal, hsource, hasserter, hgrant⟩ :=
    hserves.authority_row hafter hbefore hrel
  have hnfc := hsep.caller_nfc caller htoken
  obtain ⟨hname, -⟩ := (dbKey_inj hn (nulFree_resolvedNamespace t.before t.served)).mp hkey
  refine ⟨caller, htoken, hcaller, hsource.trans hnfc, hasserter.trans hnfc, ?_⟩
  intro hcap
  rcases hgrant hcap with howner | hadmin
  · cases hresolved : resolvedNamespace t.before.toKappaStore t.served with
    | «exists» ns =>
      rw [hresolved] at howner hname
      obtain ⟨info, hinfo, heq⟩ := ownerIs_iff.mp howner
      exact .inl ⟨info, hname ▸ hinfo, heq⟩
    | notFound name protocol =>
      rw [hresolved] at hname
      obtain rfl : n = name := hname
      refine .inr (.inl ?_)
      intro ⟨other, r, hr⟩
      cases other with
      | none =>
        obtain ⟨_, halias, -⟩ := namespaceResolve_eq_ok.mp hr
        exact absurd (halias.symm.trans (hglobal n protocol hresolved)) nofun
      | some other => exact hsep.unshared n protocol hresolved other r hr
    | noNamespace => exact absurd hresolved hns
  · exact .inr (.inr hadmin)

end

/-- **Authority edges come from their source.** -/
theorem authorityEdges_from_source (s₀ s : PersistentStore) (log : List Transition)
    (hrun : ServerRun prim serde server s₀ log s) (hsep : ∀ t ∈ log, Separate prim server t) :
    ∀ t ∈ log, AuthorityFromSource serde server t := by
  induction hrun with
  | start => exact nofun
  | step t run rewrites serves ih =>
    intro u hu
    rcases List.mem_append.mp hu with hu | hu
    · exact ih (fun v hv => hsep v (List.mem_append_left _ hv)) u hu
    · obtain rfl := List.mem_singleton.mp hu
      exact (hsep u (List.mem_append_right _ hu)).authorityFromSource serves

/-! ## Concrete requests -/

def edgeRouter : Router where
  endpoint method path :=
    if method == "PUT" && startsWith path "/v2/" && endsWith path "/edges/" then some .edgePut
    else none
  edgePut_path method path h := by
    split at h
    · rename_i hmatch
      simpa [and_assoc] using hmatch
    · cases h

/-- A server with one token, which stands for `mallory`. -/
def tokenServer : Server where
  nodeAnchor := none
  bearer := some (.new [("t0ken", "mallory")] true)
  s3BaseDomain := none
  router := edgeRouter

/-- The Capability edge `mallory` asks for. -/
def malloryMayWrite : Edge := .capability "mallory" "app" ["write"]

/-- The request for it, in the namespace `app` of the OCI protocol. -/
def grantMallory : Request where
  method := "PUT"
  path := "/v2/app/edges/"
  query := none
  headers := [⟨"authorization", some "Bearer t0ken"⟩]
  body := Edge.requestBody "mallory" "app" "capability" (.capability ["write"])
  path_nulFree := by decide

/-- The transition that the request makes from `s`. -/
def grantTransition (s : PersistentStore) : Transition where
  received := grantMallory
  served := grantMallory
  uuid := 7
  nowMs := 0
  before := s
  after := (putRoute .text (impl .sample) s 7 0 (resolvedNamespace s.toKappaStore grantMallory)
    "mallory" grantMallory.body).2

theorem serverRun_grantTransition {s : PersistentStore}
    (hauth : authLayer .text s.toKappaStore 0 tokenServer.bearer grantMallory = .ok "mallory") :
    ServerRun .sample .text tokenServer s [grantTransition s] (grantTransition s).after := by
  have hfinal : rewrittenPath tokenServer.s3BaseDomain grantMallory = none := by decide +kernel
  have hroute : tokenServer.router.endpoint grantMallory.method grantMallory.path = some .edgePut := by
    decide +kernel
  exact .step (grantTransition s) .start (.unchanged _ hfinal) (.edgePut "mallory" hauth hroute)

theorem presentsToken_grantMallory {caller : String}
    (h : PresentsToken tokenServer.bearer grantMallory caller) : caller = "mallory" := by
  obtain ⟨auth, token, hauth, htoken, hanchor⟩ := h
  cases hauth
  have hpresented : BearerAuth.token grantMallory.headers = some "t0ken" := by decide +kernel
  obtain rfl := Option.some.inj (hpresented.symm.trans htoken)
  have hknown : (BearerAuth.new [("t0ken", "mallory")] true).tokens["t0ken"]? = some "mallory" := by
    decide +kernel
  exact Option.some.inj (hanchor.symm.trans hknown)

/-- A store with no namespace but `_root`. -/
def rootStore : PersistentStore := .withNamespaces [("_root", "anonymous")]

theorem namespaceResolve_rootStore (other : String) (r : NamespaceRef) :
    rootStore.namespaceResolve "app" (some other) ≠ .ok r := by
  intro hresolve
  obtain ⟨uuid, halias, -⟩ := namespaceResolve_eq_ok.mp hresolve
  have htable : rootStore.namespaceAliases = (∅ : Table String Uuid).insert "_root" 0 := rfl
  rw [htable] at halias
  rcases Table.of_get_insert halias with ⟨hkey, -⟩ | ⟨-, hnone⟩
  · have hmem : ':' ∈ "_root".toList := by
      rw [hkey]
      simp [aliasKey]
    exact absurd hmem (by decide)
  · simp at hnone

/-- **A namespace that the request creates**: `mallory` may put the first Capability edge there. -/
theorem authorityEdges_from_source_first :
    (grantTransition rootStore).after.edgeAt "app" (malloryMayWrite.kappa .sample) =
      some malloryMayWrite ∧
    (grantTransition rootStore).before.edgeAt "app" (malloryMayWrite.kappa .sample) = none ∧
    ∀ t ∈ [grantTransition rootStore], AuthorityFromSource .text tokenServer t := by
  refine ⟨by decide +kernel, by decide +kernel, ?_⟩
  refine authorityEdges_from_source .sample .text tokenServer rootStore _ _
    (serverRun_grantTransition (by decide +kernel)) ?_
  intro t ht
  obtain rfl := List.mem_singleton.mp ht
  refine ⟨fun _ _ => rfl, ?_⟩
  intro name protocol hresolved
  have happ : resolvedNamespace rootStore.toKappaStore grantMallory = .notFound "app" "oci" := by
    decide +kernel
  obtain ⟨rfl, -⟩ := ResolvedNamespace.notFound.inj (happ.symm.trans hresolved)
  exact namespaceResolve_rootStore

/-- A store in which `alice` owns `app` under the git protocol. -/
def gitStore : PersistentStore :=
  match rootStore.namespaceCreate 1 0 "app" "alice" (some "git") with
  | .ok (_, s) => s
  | .error _ => rootStore

/-- **A Capability edge lands in a namespace of another protocol**: after the same request the
namespace of `alice` lists an edge with which `mallory` grants itself the right to write there. -/
theorem authorityEdge_in_shared_namespace :
    ServerRun .sample .text tokenServer gitStore [grantTransition gitStore]
      (grantTransition gitStore).after ∧
    gitStore.namespaceResolve "app" (some "git") = .ok (.withName 1 "app") ∧
    (gitStore.namespaceRecords[(1 : Uuid)]?).map NamespaceRecord.owner = some "alice" ∧
    gitStore.edgeAt "app" (malloryMayWrite.kappa .sample) = none ∧
    malloryMayWrite ∈ (grantTransition gitStore).after.toKappaStore.edgesOf (.withName 1 "app")
      (.selfCapability "mallory") ∧
    ¬ AuthorityFromSource .text tokenServer (grantTransition gitStore) := by
  refine ⟨serverRun_grantTransition (by decide +kernel), by decide +kernel, by decide +kernel,
    by decide +kernel, by decide +kernel, ?_⟩
  intro h
  have hafter : (grantTransition gitStore).after.edgeAt "app" (malloryMayWrite.kappa .sample) =
      some malloryMayWrite := by decide +kernel
  have hbefore : (grantTransition gitStore).before.edgeAt "app" (malloryMayWrite.kappa .sample) =
      none := by decide +kernel
  obtain ⟨caller, htoken, -, -, -, hgrant⟩ := h "app" _ _ (by decide) hafter
    (by rw [hbefore]; exact nofun) rfl
  obtain rfl := presentsToken_grantMallory htoken
  rcases hgrant rfl with ⟨info, hinfo, -⟩ | hunnamed | hadmin
  · have hnone : (gitStore.namespaceInfo "app" none).toOption = none := by decide +kernel
    change gitStore.namespaceInfo "app" none = .ok info at hinfo
    rw [hinfo] at hnone
    cases hnone
  · have hgit : gitStore.namespaceResolve "app" (some "git") = .ok (.withName 1 "app") := by
      decide +kernel
    exact hunnamed ⟨some "git", _, hgit⟩
  · have hnot : isRootAdmin .text gitStore.toKappaStore 0 "mallory" = .ok false := by decide +kernel
    exact absurd (hnot.symm.trans hadmin) (by decide)

end KappaRegistry
