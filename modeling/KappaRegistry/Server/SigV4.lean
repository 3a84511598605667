import KappaRegistry.Crypto.SigV4
import KappaRegistry.Server.Interceptor

/-!
# Signature Verification of Requests

`kappa-server/src/layers/sigv4.rs`: `verify_request` decides whether a request is signed, in its
`Authorization` header or in the query of a presigned URL, and by whom. The body is not looked at;
what stands for it is the hash that the client states in a header. `parse_s3_query` of
`kappa-server/src/main.rs` is what the handlers read the same query with.

`verifyRequest_withAuthorization` says exactly when a request with a well-formed header is
accepted: its signature is the one computed for it, under one of the secrets of its access key.
-/

namespace KappaRegistry

open Lib SigV4

/-- An authenticated caller. -/
structure S3Principal where
  accessKeyId : String
  principalAnchor : String
  deriving DecidableEq

/-- What `verify_request` takes from the application and the clock. -/
structure SigV4Context where
  /-- The credential store, if one is configured. -/
  credStore : Option (String → Option CredentialResult)
  region : Option String
  /-- `clock::parse_datetime_to_epoch_secs`. -/
  parseDatetime : String → Except String ℕ
  nowSecs : ℕ

/-- An error response of the S3 routes; it is sent as XML. -/
structure S3Error where
  status : ℕ
  code : String
  message : String
  deriving DecidableEq

def s3ErrorResponse (code message : String) : S3Error := ⟨403, code, message⟩

/-! ## verify_request -/

/-- The signed headers that the request has, sorted by name. -/
def signedHeaderValues (headers : List Header) (names : List String) : List (String × String) :=
  (names.filterMap fun name => (headerText headers (asciiLower name)).map (Prod.mk name)).insertionSort
    fun a b => a.1 ≤ b.1

variable (hash : MacHash) (auth : SigV4Authorization) (req : Request)

def requestStringToSign (scope : CredentialScope)
    (signedHeaders : List String) (datetime payloadHash : String) : String :=
  let canonicalHeaders := buildCanonicalHeaders (signedHeaderValues req.headers signedHeaders)
  let canonicalRequest := buildCanonicalRequest req.method req.path
    (buildCanonicalQuery (queryParams (req.query.getD ""))) canonicalHeaders
    (joinText ';' signedHeaders) payloadHash
  buildStringToSign hash datetime scope.text canonicalRequest

def statedPayloadHash : String :=
  (headerText req.headers "x-amz-content-sha256").getD unsignedPayload

/-- The string to sign when the signature is in the `Authorization` header. -/
def headerStringToSign (scope : CredentialScope) (signedHeaders : List String) : String :=
  requestStringToSign hash req scope signedHeaders
    ((headerText req.headers "x-amz-date").getD "") (statedPayloadHash req)

/-- The signature of a string under a secret, for a scope. -/
def signatureFor (secret : String) (scope : CredentialScope) (stringToSign : String) : String :=
  computeSignature hash (deriveSigningKey hash secret scope.date scope.region scope.service)
    stringToSign

theorem fieldText_signatureFor (secret : String) (scope : CredentialScope)
    (stringToSign : String) : FieldText (signatureFor hash secret scope stringToSign) :=
  fieldText_hexEncode _

def verifyAuthorization (lookupCredential : String → Option CredentialResult)
    (req : Request) (auth : String) : Except S3Error S3Principal := do
  let parsed ← (parseAuthorization auth (headerText req.headers "x-amz-security-token")).mapError
    fun _ => s3ErrorResponse "InvalidSignature" "malformed Authorization header"
  let cred ← need (lookupCredential parsed.accessKey)
    (s3ErrorResponse "InvalidAccessKeyId" "access key not found")
  let scope := parsed.toCredentialScope
  let stringToSign := headerStringToSign hash req scope parsed.signedHeaders
  let accepts (secret : String) :=
    (verifySignature (signatureFor hash secret scope stringToSign) parsed.signature).isOk
  ensure (accepts cred.currentSecret = true ∨ cred.previousSecret.any accepts = true)
    (s3ErrorResponse "SignatureDoesNotMatch"
      "The request signature we calculated does not match the signature you provided.")
  return ⟨parsed.accessKey, cred.principalAnchor⟩

/-- Authentication by a presigned URL: the previous secret is not tried, and the key is derived for
the configured region and the service `s3`. -/
def verifyPresigned (ctx : SigV4Context)
    (lookupCredential : String → Option CredentialResult) (req : Request) :
    Except S3Error S3Principal := do
  let parsed ← (parsePresignedUrl (queryParams (req.query.getD ""))).mapError
    fun _ => s3ErrorResponse "InvalidSignature" "malformed presigned URL"
  (checkPresignedExpiration ctx.parseDatetime parsed.datetime parsed.expiresSecs ctx.nowSecs).mapError
    fun _ => s3ErrorResponse "ExpiredToken" "presigned URL has expired"
  let cred ← need (lookupCredential parsed.accessKey)
    (s3ErrorResponse "InvalidAccessKeyId" "access key not found")
  let signingKey := deriveSigningKey hash cred.currentSecret parsed.date
    (ctx.region.getD "us-east-1") "s3"
  let stringToSign := requestStringToSign hash req parsed.toCredentialScope parsed.signedHeaders
    parsed.datetime unsignedPayload
  ensure ((verifySignature (computeSignature hash signingKey stringToSign) parsed.signature).isOk = true)
    (s3ErrorResponse "SignatureDoesNotMatch" "presigned URL signature mismatch")
  return ⟨parsed.accessKey, cred.principalAnchor⟩

/-- `none` is a request without a signature of this kind, which passes on to the next layer. -/
def verifyRequest (ctx : SigV4Context) (req : Request) : Except S3Error (Option S3Principal) :=
  match ctx.credStore with
  | none => .ok none
  | some lookupCredential =>
    match headerText req.headers "authorization" with
    | some auth =>
      if startsWith auth "AWS4-HMAC-SHA256" then
        (verifyAuthorization hash lookupCredential req auth).map some
      else .ok none
    | none =>
      if containsText (req.query.getD "") "X-Amz-Algorithm" then
        (verifyPresigned hash ctx lookupCredential req).map some
      else .ok none

/-! ## parse_s3_query -/

def hexVal (b : UInt8) : Option UInt8 :=
  if 48 ≤ b ∧ b ≤ 57 then some (b - 48)
  else if 97 ≤ b ∧ b ≤ 102 then some (b - 97 + 10)
  else if 65 ≤ b ∧ b ≤ 70 then some (b - 65 + 10)
  else none

def escaped (b : UInt8) (rest : Bytes) : Option UInt8 :=
  match rest with
  | hi :: lo :: _ =>
    if b = 37 then
      match hexVal hi, hexVal lo with
      | some h, some l => some (h <<< 4 ||| l)
      | _, _ => none
    else none
  | _ => none

/-- The bytes of a percent-encoded text; the first argument counts the bytes of an escape that are
still to be passed over. -/
def percentDecodeBytes : ℕ → Bytes → Bytes
  | _, [] => []
  | skip + 1, _ :: rest => percentDecodeBytes skip rest
  | 0, b :: rest =>
    match escaped b rest with
    | some v => v :: percentDecodeBytes 2 rest
    | none => (if b = 43 then 32 else b) :: percentDecodeBytes 0 rest

def percentDecode (s : String) : String :=
  (fromUtf8 (percentDecodeBytes 0 (textBytes s))).getD s

def querySegments (query : Option String) : List String :=
  match query with
  | some q => splitText '&' q
  | none => []

/-- The parameter that a part of the query gives; without an equals sign its value is empty. -/
def segmentEntry (pair : String) : String × String :=
  match splitOnceText '=' pair with
  | some (k, v) => (percentDecode k, percentDecode v)
  | none => (percentDecode pair, "")

def parseS3Query (query : Option String) : Table String String :=
  ((querySegments query).map segmentEntry).foldl (fun map entry => map.insert entry.1 entry.2) ∅

/-! ## When a header is accepted -/

def secrets (cred : CredentialResult) : List String :=
  cred.currentSecret :: cred.previousSecret.toList

theorem isOk_verifySignature {computed provided : String} :
    (verifySignature computed provided).isOk = true ↔ computed = provided := by
  rw [← verifySignature_eq_ok]
  cases h : verifySignature computed provided with
  | error e | ok u => simp

section

variable {hash : MacHash} {lookup : String → Option CredentialResult} {req : Request}
  {auth : String} {p : S3Principal}

/-- **Acceptance of a header**: one of the secrets gives the signature it states. -/
theorem verifyAuthorization_eq_ok :
    verifyAuthorization hash lookup req auth = .ok p ↔
      ∃ parsed cred, parseAuthorization auth (headerText req.headers "x-amz-security-token") = .ok parsed ∧
        lookup parsed.accessKey = some cred ∧
        (∃ secret ∈ secrets cred, signatureFor hash secret parsed.toCredentialScope
          (headerStringToSign hash req parsed.toCredentialScope parsed.signedHeaders) =
            parsed.signature) ∧
        p = ⟨parsed.accessKey, cred.principalAnchor⟩ := by
  simp only [verifyAuthorization, bind_eq_ok, mapError_eq_ok, need_eq_ok, ensure_eq_ok, pure_eq_ok,
    isOk_verifySignature, Option.any_eq_true, secrets, List.mem_cons, Option.mem_toList]
  constructor
  · rintro ⟨parsed, hparse, cred, hcred, -, haccept, rfl⟩
    refine ⟨parsed, cred, hparse, hcred, ?_, rfl⟩
    rcases haccept with h | ⟨prev, hprev, h⟩
    · exact ⟨_, .inl rfl, h⟩
    · exact ⟨prev, .inr hprev, h⟩
  · rintro ⟨parsed, cred, hparse, hcred, ⟨secret, hmem, h⟩, rfl⟩
    refine ⟨parsed, hparse, cred, hcred, (), ?_, rfl⟩
    rcases hmem with rfl | hprev
    · exact .inl h
    · exact .inr ⟨secret, hprev, h⟩

theorem verifyRequest_of_authorization {ctx : SigV4Context}
    (hstore : ctx.credStore = some lookup)
    (hauth : headerText req.headers "authorization" = some auth) :
    verifyRequest hash ctx req = .ok (some p) ↔
      startsWith auth "AWS4-HMAC-SHA256" = true ∧ verifyAuthorization hash lookup req auth = .ok p := by
  unfold verifyRequest
  rw [hstore]
  simp only [hauth]
  split_ifs with hstart
  · rw [map_eq_ok]
    simp [hstart]
  · simp [hstart]

end

/-- A request with an `Authorization` header put in front. -/
def withAuthorization : Request :=
  { req with headers := ⟨"authorization", some auth.text⟩ :: req.headers }

theorem headerText_authorization :
    headerText (withAuthorization auth req).headers "authorization" = some auth.text := by
  simp [headerText, withAuthorization]

theorem headerText_withAuthorization {name : String} (h : name ≠ "authorization") :
    headerText (withAuthorization auth req).headers name = headerText req.headers name := by
  have hne : ("authorization" == name) = false := by simpa using Ne.symm h
  simp [headerText, withAuthorization, hne]

theorem signedHeaderValues_congr {headers headers' : List Header} {names : List String}
    (h : ∀ n ∈ names, headerText headers (asciiLower n) = headerText headers' (asciiLower n)) :
    signedHeaderValues headers names = signedHeaderValues headers' names := by
  have hvalues : (names.filterMap fun n => (headerText headers (asciiLower n)).map (Prod.mk n)) =
      names.filterMap fun n => (headerText headers' (asciiLower n)).map (Prod.mk n) := by
    apply List.filterMap_congr
    intro n hn
    rw [h n hn]
  rw [signedHeaderValues, signedHeaderValues, hvalues]

theorem headerStringToSign_withAuthorization {names : List String}
    (h : ∀ n ∈ names, asciiLower n ≠ "authorization")
    (scope : CredentialScope) : headerStringToSign hash (withAuthorization auth req) scope names =
      headerStringToSign hash req scope names := by
  have hvalues : signedHeaderValues (withAuthorization auth req).headers names =
      signedHeaderValues req.headers names :=
    signedHeaderValues_congr fun n hn => headerText_withAuthorization auth req (h n hn)
  unfold headerStringToSign requestStringToSign statedPayloadHash
  rw [hvalues, headerText_withAuthorization auth req (by decide),
    headerText_withAuthorization auth req (by decide)]
  rfl

/-- **A request with a well-formed header is accepted iff the signature is right.** -/
theorem verifyRequest_withAuthorization {hash : MacHash} {ctx : SigV4Context}
    {lookup : String → Option CredentialResult} (hstore : ctx.credStore = some lookup) {req : Request}
    {auth : SigV4Authorization} (hscope : auth.toCredentialScope.WellFormed)
    (hnames : HeaderNames auth.signedHeaders) (hsig : FieldText auth.signature)
    (hlower : ∀ n ∈ auth.signedHeaders, asciiLower n ≠ "authorization") {p : S3Principal} :
    verifyRequest hash ctx (withAuthorization auth req) = .ok (some p) ↔
      ∃ cred, lookup auth.accessKey = some cred ∧
        (∃ secret ∈ secrets cred, signatureFor hash secret auth.toCredentialScope
          (headerStringToSign hash req auth.toCredentialScope auth.signedHeaders) = auth.signature) ∧
        p = ⟨auth.accessKey, cred.principalAnchor⟩ := by
  have hauth := headerText_authorization auth req
  have hstart : startsWith auth.text "AWS4-HMAC-SHA256" = true := startsWith_append _ _
  have hparse (token : Option String) :
      parseAuthorization auth.text token = .ok { auth with securityToken := token } :=
    @parseAuthorization_text { auth with securityToken := token } hscope hnames hsig
  rw [verifyRequest_of_authorization hstore hauth, verifyAuthorization_eq_ok]
  simp only [hparse, Except.ok.injEq, hstart, true_and]
  constructor
  · rintro ⟨parsed, cred, rfl, hcred, hsign, rfl⟩
    rw [headerStringToSign_withAuthorization hash auth req hlower] at hsign
    exact ⟨cred, hcred, hsign, rfl⟩
  · rintro ⟨cred, hcred, hsign, rfl⟩
    rw [← headerStringToSign_withAuthorization hash auth req hlower] at hsign
    exact ⟨_, cred, rfl, hcred, hsign, rfl⟩

end KappaRegistry
