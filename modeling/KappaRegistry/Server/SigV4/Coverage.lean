import KappaRegistry.Crypto.Sample
import KappaRegistry.Server.SigV4

/-!
# What a Signature Says of the Query

The verifier and the handlers read a query differently. The verifier keeps the parts that have an
equals sign and drops `X-Amz-Signature`; what it signs is what is left, sorted. The handlers keep
every part and let the last part of a name win. So a signature fixes the covered pairs of a query up
to their order, and nothing else.

Two accepted queries under the same header agree on every name that both leave closed: each of its parts
is covered, and they all give it the same value. `verifyRequest_covers_query_iff` says that the two
parameter maps are the same exactly if they do not differ on the other names.
-/

namespace KappaRegistry

open Lib SigV4 List

/-! ## The parameter map -/

variable (query : Option String) (name : String)

def lastValue : Option String :=
  (((querySegments query).map segmentEntry).reverse.find? fun entry => entry.1 == name).map Prod.snd

theorem get_foldl_insert (entries : List (String × String)) (t : Table String String) (name : String) :
    (entries.foldl (fun map entry => map.insert entry.1 entry.2) t)[name]? =
      ((entries.reverse.find? fun entry => entry.1 == name).map Prod.snd).or t[name]? := by
  induction entries generalizing t with
  | nil => simp
  | cons e es ih =>
    rw [foldl_cons, ih, reverse_cons, find?_append, Table.get_insert]
    cases hes : es.reverse.find? fun entry => entry.1 == name with
    | some entry => simp
    | none =>
      by_cases he : e.1 = name <;> simp [he]

theorem get_parseS3Query : (parseS3Query query)[name]? = lastValue query name := by
  rw [parseS3Query, get_foldl_insert, lastValue]
  simp

/-! ## Covered and open names -/

/-- A part of the query that is not signed. -/
def Uncovered (segment : String) : Prop :=
  ∀ pair, splitOnceText '=' segment = some pair → pair.1 = "X-Amz-Signature"

/-- The signature leaves the value of the name open: a part that is not signed gives it one, or
there are several parts, whose order is not signed, and they give it different ones. -/
def OpenName : Prop :=
  (∃ segment ∈ querySegments query, Uncovered segment ∧ (segmentEntry segment).1 = name) ∨
    ∃ segment ∈ querySegments query, ∃ segment' ∈ querySegments query,
      (segmentEntry segment).1 = name ∧ (segmentEntry segment').1 = name ∧
        (segmentEntry segment).2 ≠ (segmentEntry segment').2

/-- The pairs of the query that its canonical form is built from. -/
def signedPairs : List (String × String) :=
  coveredPairs (queryParams (query.getD ""))

variable {query : Option String} {pair : String × String}

theorem mem_signedPairs : pair ∈ signedPairs query ↔
      ∃ segment ∈ querySegments query, splitOnceText '=' segment = some pair ∧
        pair.1 ≠ "X-Amz-Signature" := by
  have hsegments : query = none → queryParams (query.getD "") = [] := by
    rintro rfl
    decide
  cases query with
  | none =>
    rw [signedPairs, hsegments rfl]
    simp [coveredPairs, querySegments]
  | some q =>
    simp only [signedPairs, coveredPairs, queryParams, Option.getD_some, mem_filter,
      mem_filterMap, bne_iff_ne, ne_eq, querySegments]
    constructor
    · rintro ⟨⟨segment, ⟨hmem, -⟩, hcut⟩, hname⟩
      exact ⟨segment, hmem, hcut, hname⟩
    · rintro ⟨segment, hmem, hcut, hname⟩
      refine ⟨⟨segment, ⟨hmem, ?_⟩, hcut⟩, hname⟩
      rintro rfl
      cases hcut

variable {segment : String}

theorem segmentEntry_of_cut (h : splitOnceText '=' segment = some pair) :
    segmentEntry segment = (percentDecode pair.1, percentDecode pair.2) := by
  rw [segmentEntry, h]

theorem exists_signedPair (hmem : segment ∈ querySegments query)
    (hclosed : ¬ OpenName query (segmentEntry segment).1) :
    ∃ pair ∈ signedPairs query, segmentEntry segment = (percentDecode pair.1, percentDecode pair.2) := by
  have hcovered : ¬ Uncovered segment := fun h => hclosed (.inl ⟨segment, hmem, h, rfl⟩)
  simp only [Uncovered, not_forall] at hcovered
  obtain ⟨pair, hcut, hname⟩ := hcovered
  exact ⟨pair, mem_signedPairs.mpr ⟨segment, hmem, hcut, hname⟩, segmentEntry_of_cut hcut⟩

theorem lastValue_eq_some {name value : String} (h : lastValue query name = some value) :
    ∃ segment ∈ querySegments query, segmentEntry segment = (name, value) := by
  obtain ⟨entry, hfind, rfl⟩ := Option.map_eq_some_iff.mp h
  have hmem := mem_of_find?_eq_some hfind
  have hname : entry.1 = name := by simpa using find?_some hfind
  rw [mem_reverse] at hmem
  obtain ⟨segment, hseg, rfl⟩ := mem_map.mp hmem
  exact ⟨segment, hseg, by rw [← hname]⟩

theorem lastValue_isSome (hmem : segment ∈ querySegments query) : (lastValue query (segmentEntry segment).1).isSome = true := by
  rw [lastValue, Option.isSome_map, find?_isSome]
  exact ⟨segmentEntry segment, by simpa using ⟨segment, hmem, rfl⟩, by simp⟩

theorem lastValue_of_perm {query query' : Option String}
    (hperm : (signedPairs query).Perm (signedPairs query')) {name value : String}
    (hclosed : ¬ OpenName query name) (hclosed' : ¬ OpenName query' name)
    (h : lastValue query name = some value) : lastValue query' name = some value := by
  obtain ⟨segment, hseg, hentry⟩ := lastValue_eq_some h
  obtain ⟨pair, hpair, hpairEntry⟩ := exists_signedPair hseg (by rwa [hentry])
  obtain ⟨other, hother, hcut, -⟩ := mem_signedPairs.mp (hperm.mem_iff.mp hpair)
  have hotherEntry : segmentEntry other = (name, value) := by
    rw [segmentEntry_of_cut hcut, ← hpairEntry, hentry]
  have hsome := lastValue_isSome hother
  rw [hotherEntry] at hsome
  obtain ⟨value', hvalue'⟩ := Option.isSome_iff_exists.mp hsome
  obtain ⟨last, hlast, hlastEntry⟩ := lastValue_eq_some hvalue'
  -- the last part of the name has the value of the signed one, or the name would be open
  have hsame : value' = value := by
    by_contra hne
    exact hclosed' (.inr ⟨last, hlast, other, hother, by rw [hlastEntry], by rw [hotherEntry],
      by rw [hlastEntry, hotherEntry]; exact hne⟩)
  rw [hvalue', hsame]

variable {name : String}

theorem lastValue_eq_of_perm {query query' : Option String}
    (hperm : (signedPairs query).Perm (signedPairs query')) (hclosed : ¬ OpenName query name) (hclosed' : ¬ OpenName query' name) :
    lastValue query name = lastValue query' name := by
  cases h : lastValue query name with
  | some value => exact (lastValue_of_perm hperm hclosed hclosed' h).symm
  | none =>
    cases h' : lastValue query' name with
    | none => rfl
    | some value =>
      simp [lastValue_of_perm hperm.symm hclosed' hclosed h'] at h

/-! ## Two accepted requests -/

/-- The names that an `Authorization` header says it signs. -/
def signedHeaderNames (auth : String) : List String :=
  match parseAuthorization auth none with
  | .ok parsed => parsed.signedHeaders
  | .error _ => []

/-- Two requests that differ in nothing that a signature in the header is about, but the query. -/
structure SameSigned (auth : String) (r r' : Request) : Prop where
  method : r.method = r'.method
  path : r.path = r'.path
  authorization : headerText r.headers "authorization" = some auth
  authorization' : headerText r'.headers "authorization" = some auth
  headers : ∀ name ∈ signedHeaderNames auth,
    headerText r.headers (asciiLower name) = headerText r'.headers (asciiLower name)
  payload : statedPayloadHash r = statedPayloadHash r'

variable {auth : String} {token : Option String} {parsed : SigV4Authorization}

theorem parseAuthorization_token (h : parseAuthorization auth token = .ok parsed) (token' : Option String) :
    parseAuthorization auth token' = .ok { parsed with securityToken := token' } := by
  simp only [parseAuthorization, bind_eq_ok, need_eq_ok, pure_eq_ok] at h ⊢
  obtain ⟨rest, hrest, cred, hcred, sig, hsig, sh, hsh, scope, hscope, rfl⟩ := h
  exact ⟨rest, hrest, cred, hcred, sig, hsig, sh, hsh, scope, hscope, rfl⟩

theorem signedHeaderNames_eq (h : parseAuthorization auth token = .ok parsed) :
    signedHeaderNames auth = parsed.signedHeaders := by
  have hnone := parseAuthorization_token h none
  unfold signedHeaderNames
  rw [hnone]

/-- **Two accepted requests have the same signed pairs.** The signature is the same text, so HMAC
saw the same string and SHA-256 the same canonical request. -/
theorem signedPairs_perm_of_accepted {hash : MacHash} {ctx : SigV4Context}
    (hmac : Function.Injective2 hash.hmacSha256) (hsha : Function.Injective hash.sha256)
    {r r' : Request} (hsame : SameSigned auth r r') {p p' : S3Principal}
    (h : verifyRequest hash ctx r = .ok (some p)) (h' : verifyRequest hash ctx r' = .ok (some p')) :
    (signedPairs r.query).Perm (signedPairs r'.query) := by
  cases hstore : ctx.credStore with
  | none => simp [verifyRequest, hstore] at h
  | some lookup =>
    obtain ⟨-, hverify⟩ := (verifyRequest_of_authorization hstore hsame.authorization).mp h
    obtain ⟨-, hverify'⟩ := (verifyRequest_of_authorization hstore hsame.authorization').mp h'
    obtain ⟨a, -, hparse, -, ⟨secret, -, hsig⟩, -⟩ := verifyAuthorization_eq_ok.mp hverify
    obtain ⟨a', -, hparse', -, ⟨secret', -, hsig'⟩, -⟩ := verifyAuthorization_eq_ok.mp hverify'
    have hfields := parseAuthorization_token hparse (headerText r'.headers "x-amz-security-token")
    rw [hparse'] at hfields
    cases hfields
    have hnames := signedHeaderNames_eq hparse
    have hvalues : signedHeaderValues r.headers a.signedHeaders =
        signedHeaderValues r'.headers a.signedHeaders :=
      signedHeaderValues_congr fun n hn => hsame.headers n (by rwa [hnames])
    -- the same text was signed
    have hstring : headerStringToSign hash r a.toCredentialScope a.signedHeaders =
        headerStringToSign hash r' a.toCredentialScope a.signedHeaders :=
      textBytes_inj (hmac (hexEncode_inj (hsig.trans hsig'.symm))).2
    have hrequest := textBytes_inj (hsha (buildStringToSign_inj hstring))
    exact buildCanonicalQuery_perm (buildCanonicalRequest_query hsame.method hsame.path
      (congrArg buildCanonicalHeaders hvalues) hsame.payload hrequest)

/-! ## Requests under one header -/

namespace SampleSigning

def scope : CredentialScope := ⟨"AKID", "20130524", "us-east-1", "s3"⟩

theorem wellFormed_scope : scope.WellFormed := ⟨by decide, by decide⟩

theorem headerNames_host : HeaderNames ["host"] := ⟨by decide, by decide, by decide⟩

/-- A store that knows one access key, at the time of the date in the requests. -/
def context : SigV4Context where
  credStore := some fun key =>
    if key = "AKID" then some ⟨"wJalrXUtnFEMI", none, "anchor"⟩ else none
  region := none
  parseDatetime _ := .ok 1369353600
  nowSecs := 1369353600

def principal : S3Principal := ⟨"AKID", "anchor"⟩

/-- A request for a bucket with a query, not signed yet. -/
def bare (query : Option String) : Request where
  method := "GET"
  path := "/bucket"
  query
  headers := [⟨"host", some "kappa"⟩, ⟨"x-amz-date", some "20130524T000000Z"⟩]
  body := []
  path_nulFree := by decide

/-- The header that signs the request with a query. -/
def authorization (query : Option String) : SigV4Authorization where
  toCredentialScope := scope
  signedHeaders := ["host"]
  signature := signatureFor .sample "wJalrXUtnFEMI" scope
    (headerStringToSign .sample (bare query) scope ["host"])
  securityToken := none

/-- The header made for one query, sent with another. -/
def signed (query query' : Option String) : Request :=
  withAuthorization (authorization query) (bare query')

theorem sameSigned (query q q' : Option String) :
    SameSigned (authorization query).text (signed query q) (signed query q') where
  method := rfl
  path := rfl
  authorization := headerText_authorization _ _
  authorization' := headerText_authorization _ _
  headers _ _ := rfl
  payload := rfl

theorem signed_accepted {query query' : Option String}
    (h : buildCanonicalQuery (queryParams (query.getD "")) =
      buildCanonicalQuery (queryParams (query'.getD ""))) :
    verifyRequest .sample context (signed query query') = .ok (some principal) := by
  have hstring : headerStringToSign .sample (bare query') scope ["host"] =
      headerStringToSign .sample (bare query) scope ["host"] := by
    show buildStringToSign _ _ _ (buildCanonicalRequest _ _
      (buildCanonicalQuery (queryParams (query'.getD ""))) _ _ _) = _
    rw [← h]
    rfl
  have hlower : ∀ n ∈ ["host"], asciiLower n ≠ "authorization" := by decide
  have hsig : FieldText (authorization query).signature := fieldText_signatureFor _ _ _ _
  have hsignature : signatureFor .sample "wJalrXUtnFEMI" scope
      (headerStringToSign .sample (bare query') scope ["host"]) = (authorization query).signature := by
    rw [hstring]
    rfl
  rw [signed, verifyRequest_withAuthorization rfl wellFormed_scope headerNames_host hsig hlower]
  exact ⟨⟨"wJalrXUtnFEMI", none, "anchor"⟩, rfl, ⟨_, mem_cons_self, hsignature⟩, rfl⟩

end SampleSigning

/-! ## When the whole query is covered -/

/-- **When a signature covers the whole query.** -/
theorem verifyRequest_covers_query_iff {hash : MacHash} {ctx : SigV4Context}
    (hmac : Function.Injective2 hash.hmacSha256) (hsha : Function.Injective hash.sha256)
    {auth : String} {r r' : Request} (hsame : SameSigned auth r r') {p p' : S3Principal}
    (h : verifyRequest hash ctx r = .ok (some p)) (h' : verifyRequest hash ctx r' = .ok (some p')) :
    parseS3Query r.query = parseS3Query r'.query ↔
      ∀ name, OpenName r.query name ∨ OpenName r'.query name →
        lastValue r.query name = lastValue r'.query name := by
  have hperm := signedPairs_perm_of_accepted hmac hsha hsame h h'
  constructor
  · intro heq name _
    rw [← get_parseS3Query, ← get_parseS3Query, heq]
  · intro hopen
    apply Std.ExtTreeMap.ext_getElem?
    intro name
    rw [get_parseS3Query, get_parseS3Query]
    by_cases hname : OpenName r.query name ∨ OpenName r'.query name
    · exact hopen name hname
    · rw [not_or] at hname
      exact lastValue_eq_of_perm hperm hname.1 hname.2

open SampleSigning in
/-- The order of the parameters is not signed, and does not matter if their names differ. -/
theorem verifyRequest_covers_query_reordered :
    let q := some "a=1&b=2"
    let q' := some "b=2&a=1"
    verifyRequest .sample context (signed q q) = .ok (some principal) ∧
      verifyRequest .sample context (signed q q') = .ok (some principal) ∧
      parseS3Query q = parseS3Query q' := by
  intro q q'
  have h := @signed_accepted q q rfl
  have h' := @signed_accepted q q' (by decide +kernel)
  refine ⟨h, h', ?_⟩
  apply (verifyRequest_covers_query_iff MacHash.sample_hmac_injective
    MacHash.sample_sha256_injective (sameSigned q _ _) h h').mpr
  intro name _
  have hentries : (querySegments q).map segmentEntry = [("a", "1"), ("b", "2")] := by
    decide +kernel
  have hentries' : (querySegments q').map segmentEntry = [("b", "2"), ("a", "1")] := by
    decide +kernel
  show lastValue q name = lastValue q' name
  rw [lastValue, lastValue, hentries, hentries']
  by_cases ha : name = "a"
  · subst ha
    decide
  · by_cases hb : name = "b"
    · subst hb
      decide
    · simp [Ne.symm ha, Ne.symm hb]

open SampleSigning in
/-- **A parameter without a value is not signed**: the header that was made for a plain request is
accepted with `?acl` too. -/
theorem verifyRequest_accepts_acl :
    Function.Injective2 MacHash.sample.hmacSha256 ∧ Function.Injective MacHash.sample.sha256 ∧
      SameSigned (authorization none).text (signed none none) (signed none (some "acl")) ∧
      verifyRequest .sample context (signed none none) = .ok (some principal) ∧
      verifyRequest .sample context (signed none (some "acl")) = .ok (some principal) ∧
      parseS3Query none ≠ parseS3Query (some "acl") := by
  refine ⟨MacHash.sample_hmac_injective, MacHash.sample_sha256_injective, sameSigned _ _ _,
    signed_accepted rfl, signed_accepted (by decide +kernel), ?_⟩
  intro h
  have hget := congrArg (fun t => t["acl"]?) h
  revert hget
  decide +kernel

end KappaRegistry
