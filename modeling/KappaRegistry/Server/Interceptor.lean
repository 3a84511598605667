import KappaRegistry.Auth

/-!
# The Namespace Interceptor

`kappa-server/src/layers/namespace.rs`: the layer every request passes first. It guesses the
protocol from the path, the query and the headers, rewrites the addresses of some protocols to
internal ones, and otherwise resolves the namespace in the path under that protocol, without
creating it. What it resolved is what both the authorisation layer and the handlers use.

A rewritten request is dispatched anew, so a rewriting is one of the outcomes of the layer.
-/

namespace KappaRegistry

open Lib Option

/-- A header, under its name in lower case; the value is `none` if it is not visible text. -/
structure Header where
  name : String
  value : Option String
  deriving DecidableEq

/-- A request as the server receives it. A URI holds no NUL character. -/
structure Request where
  method : String
  path : String
  query : Option String
  headers : List Header
  body : Bytes
  path_nulFree : '\x00' ∉ path.toList

def headerText (headers : List Header) (name : String) : Option String :=
  (headers.find? fun h => h.name == name).bind Header.value

inductive DetectedProtocol where
  | oci
  | s3
  | git
  | nix
  | atproto
  | system
  | unknown
  deriving DecidableEq

/-- Operation intent detected from protocol signals. -/
inductive DetectedOperation where
  | read
  | write
  | writeDiscovery
  deriving DecidableEq

/-- Whether this operation modifies state or precedes a modification. -/
def DetectedOperation.isWrite : DetectedOperation → Bool
  | .write | .writeDiscovery => true
  | .read => false

/-! ## Detection -/

variable (path : String)

def detectProtocol (query : String) (headers : List Header) : DetectedProtocol :=
  if (headerText headers "content-type").any fun ct => startsWith ct "application/x-git-" then .git
  else if headers.any fun h => h.name == "x-amz-content-sha256" then .s3
  else if (headerText headers "authorization").any fun v => startsWith v "AWS4-HMAC-SHA256" then .s3
  else if containsText query "service=git-upload-pack" ||
      containsText query "service=git-receive-pack" then .git
  else if startsWith path "/v2/" || path == "/v2" || path == "/v2/" then .oci
  else if startsWith path "/_git/" then .git
  else if startsWith path "/_nix/" then .nix
  else if path == "/_status" || startsWith path "/_status/" || path == "/openapi.json" ||
      path == "/docs" || path == "/" || startsWith path "/identity/" then .system
  else if startsWith path "/xrpc/" then .atproto
  else if path == "/nix-cache-info" || startsWith path "/nix/" || endsWith path ".narinfo" ||
      startsWith path "/nar/" then .nix
  else if containsText path "/info/refs" || endsWith path "/git-upload-pack" ||
      endsWith path "/git-receive-pack" || containsText path "/git-lfs/" ||
      containsText path "/info/lfs/" then .git
  else if (endsWith path "/HEAD" || containsText path "/objects/" ||
      containsText path "/info/packs") && !startsWith path "/v2" && !startsWith path "/nix" &&
      !startsWith path "/nar" then .git
  else .unknown

/-- Detect the operation intent from protocol-specific signals. -/
def detectOperation (query method : String) (protocol : DetectedProtocol) : DetectedOperation :=
  match protocol with
  | .git =>
    if containsText query "service=git-receive-pack" then .writeDiscovery
    else if endsWith path "/git-receive-pack" || endsWith path "/git_receive_pack" then .write
    else .read
  | .nix => if method == "PUT" then .write else .read
  | _ => if method == "GET" || method == "HEAD" then .read else .write

/-! ## Rewriting -/

/-- Rewrite git protocol URLs to the internal `/_git/` prefix. The first boundary of the list that
occurs decides, and a path that starts with it has no namespace. -/
def rewriteGitToInternal : Option String := do
  let stripped ← stripPrefix path "/"
  let (ns, subPath) ← ["/info/refs", "/git-upload-pack", "/git-receive-pack",
    "/info/lfs/objects/batch", "/info/lfs/", "/HEAD", "/info/packs"].findSome? (cutText stripped)
  if ns = "" then none
  else
    let ns := (stripSuffix ns ".git").getD ns
    let subPath := replaceText (replaceText subPath "git-upload-pack" "git_upload_pack")
      "git-receive-pack" "git_receive_pack"
    some ("/_git/" ++ ns ++ subPath)

/-- Rewrite Nix protocol URLs to the internal `/_nix/` prefix. -/
def rewriteNixToInternal : Option String :=
  if path == "/nix-cache-info" then some "/_nix/nix-cache-info"
  else if endsWith path ".narinfo" then
    let stripped := (stripPrefix path "/nix/").getD ((stripPrefix path "/").getD path)
    let hash := (stripSuffix stripped ".narinfo").getD stripped
    some ("/_nix/narinfo/" ++ hash)
  else if startsWith path "/nar/" then some ("/_nix" ++ path)
  else if startsWith path "/nix/" then (stripPrefix path "/nix").map fun rest => "/_nix" ++ rest
  else none

/-- Extract the bucket name from the subdomain in the Host header. -/
def extractS3Bucket (host baseDomain : String) : Option String :=
  let hostNoPort := ((cutText host ":").map Prod.fst).getD host
  (stripSuffix hostNoPort ("." ++ baseDomain)).filter fun bucket =>
    bucket != "" && !containsText bucket "."

def rewrittenPath (s3BaseDomain : Option String) (r : Request) : Option String :=
  match detectProtocol r.path (r.query.getD "") r.headers with
  | .git => if startsWith r.path "/_git/" then none else rewriteGitToInternal r.path
  | .nix => if startsWith r.path "/_nix/" then none else rewriteNixToInternal r.path
  | .s3 => do
    let baseDomain ← s3BaseDomain.filter fun domain => domain != ""
    let host ← headerText r.headers "host"
    let bucket ← extractS3Bucket host baseDomain
    return "/" ++ bucket ++ r.path
  | _ => none

/-! ## Resolution -/

/-- The part before the first boundary of the list that has something before it. -/
def beforeBoundary (boundaries : List String) (rest : String) : Option String :=
  boundaries.findSome? fun boundary =>
    ((cutText rest boundary).map Prod.fst).filter fun ns => ns != ""

def v2Boundaries : List String :=
  ["/blobs/", "/blobs", "/manifests/", "/tags/", "/tags", "/edges/", "/edges", "/filters/",
    "/schemas/", "/gc/", "/_transaction/", "/_sequence/", "/_root", "/_events", "/_bundle/",
    "/_reconcile", "/compose/", "/witnesses/", "/referrers/", "/_crdt/", "/_namespace"]

def extractV2Namespace : Option (String × String) := do
  let rest ← stripPrefix path "/v2/"
  if startsWith rest "_health/" || startsWith rest "_uploads/" || startsWith rest "_namespaces" then
    none
  else return (← beforeBoundary v2Boundaries rest, "oci")

/-- The namespace of an internal `/_git/` path, or of a path before rewriting. -/
def extractGitNamespace : Option (String × String) :=
  match stripPrefix path "/_git/" with
  | some rest => (beforeBoundary ["/info/", "/git_upload_pack", "/git_receive_pack"] rest).map
      fun ns => (ns, "git")
  | none => do
    let stripped ← stripPrefix path "/"
    let ns ← ["/info/refs", "/git-upload-pack", "/git-receive-pack", "/git-lfs/", "/HEAD",
      "/info/packs"].findSome? fun boundary =>
        (((cutText stripped boundary).map Prod.fst).filter fun ns => ns != "").bind fun ns =>
          some ((stripSuffix ns ".git").getD ns) |>.filter fun ns => ns != ""
    return (ns, "git")

def extractS3Namespace : Option (String × String) := do
  let rest ← stripPrefix path "/"
  let bucket := ((cutText rest "/").map Prod.fst).getD rest
  if bucket = "" then none else return (bucket, "s3")

def extractNamespace : DetectedProtocol → Option (String × String)
  | .oci => extractV2Namespace path
  | .git => extractGitNamespace path
  | .nix => some ("_nix", "nix")
  | .s3 => extractS3Namespace path
  | .atproto | .system | .unknown => none

def resolveFromPath (store : KappaStore) (path : String) (protocol : DetectedProtocol) :
    ResolvedNamespace :=
  match extractNamespace path protocol with
  | none => .noNamespace
  | some (name, proto) =>
    match store.namespaceResolve name (some proto) with
    | .ok ns => .exists ns
    | .error _ => .notFound name proto

def resolvedNamespace (store : KappaStore) (r : Request) : ResolvedNamespace :=
  resolveFromPath store r.path (detectProtocol r.path (r.query.getD "") r.headers)

def detectedOperation (r : Request) : DetectedOperation :=
  detectOperation r.path (r.query.getD "") r.method
    (detectProtocol r.path (r.query.getD "") r.headers)

/-! ## Names come from paths -/

theorem mem_of_cutText {s p : String} {cut : String × String} (h : cutText s p = some cut) {c : Char}
    (hc : c ∈ cut.1.toList) : c ∈ s.toList := by
  rw [← append_of_cutText h, String.toList_append]
  exact List.mem_append_left _ hc

theorem mem_of_beforeBoundary {boundaries : List String} {rest ns : String}
    (h : beforeBoundary boundaries rest = some ns) {c : Char} (hc : c ∈ ns.toList) :
    c ∈ rest.toList := by
  obtain ⟨boundary, -, hfound⟩ := List.exists_of_findSome?_eq_some h
  obtain ⟨hmap, -⟩ := filter_eq_some_iff.mp hfound
  obtain ⟨cut, hcut, rfl⟩ := map_eq_some_iff.mp hmap
  exact mem_of_cutText hcut hc

section

variable {path name proto : String} {c : Char}

theorem mem_of_extractV2Namespace (h : extractV2Namespace path = some (name, proto))
    (hc : c ∈ name.toList) : c ∈ path.toList := by
  obtain ⟨rest, hrest, h⟩ := bind_eq_some_iff.mp h
  split at h
  · cases h
  · obtain ⟨ns, hns, heq⟩ := bind_eq_some_iff.mp h
    cases heq
    exact mem_of_stripPrefix hrest (mem_of_beforeBoundary hns hc)

theorem mem_of_getD_stripSuffix {s p : String} (hc : c ∈ ((stripSuffix s p).getD s).toList) :
    c ∈ s.toList := by
  cases hstrip : stripSuffix s p with
  | none =>
    rwa [hstrip] at hc
  | some t =>
    rw [hstrip] at hc
    exact mem_of_stripSuffix hstrip hc

theorem mem_of_extractGitNamespace (h : extractGitNamespace path = some (name, proto))
    (hc : c ∈ name.toList) : c ∈ path.toList := by
  unfold extractGitNamespace at h
  split at h
  · rename_i rest hrest
    obtain ⟨ns, hns, heq⟩ := map_eq_some_iff.mp h
    cases heq
    exact mem_of_stripPrefix hrest (mem_of_beforeBoundary hns hc)
  · obtain ⟨stripped, hstripped, h⟩ := bind_eq_some_iff.mp h
    obtain ⟨ns, hns, heq⟩ := bind_eq_some_iff.mp h
    cases heq
    obtain ⟨boundary, -, hfound⟩ := List.exists_of_findSome?_eq_some hns
    obtain ⟨whole, hwhole, hstrip⟩ := bind_eq_some_iff.mp hfound
    obtain ⟨hmap, -⟩ := filter_eq_some_iff.mp hwhole
    obtain ⟨cut, hcut, rfl⟩ := map_eq_some_iff.mp hmap
    obtain ⟨hname, -⟩ := filter_eq_some_iff.mp hstrip
    cases hname
    exact mem_of_stripPrefix hstripped (mem_of_cutText hcut (mem_of_getD_stripSuffix hc))

theorem mem_of_extractS3Namespace (h : extractS3Namespace path = some (name, proto))
    (hc : c ∈ name.toList) : c ∈ path.toList := by
  obtain ⟨rest, hrest, h⟩ := bind_eq_some_iff.mp h
  dsimp only at h
  split at h
  · cases h
  · cases h
    refine mem_of_stripPrefix hrest ?_
    cases hcut : cutText rest "/" with
    | none =>
      rwa [hcut] at hc
    | some cut =>
      rw [hcut] at hc
      exact mem_of_cutText hcut hc

/-- Every character of a namespace name comes from the path, or from the fixed name of the Nix
namespace. -/
theorem mem_path_of_extractNamespace {protocol : DetectedProtocol}
    (h : extractNamespace path protocol = some (name, proto)) (hc : c ∈ name.toList) :
    c ∈ path.toList ∨ c ∈ "_nix".toList := by
  cases protocol with
  | oci => exact .inl (mem_of_extractV2Namespace h hc)
  | git => exact .inl (mem_of_extractGitNamespace h hc)
  | s3 => exact .inl (mem_of_extractS3Namespace h hc)
  | nix =>
    cases h
    exact .inr hc
  | atproto | system | unknown => cases h

end

end KappaRegistry
