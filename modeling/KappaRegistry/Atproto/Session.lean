import KappaRegistry.Json
import KappaRegistry.Lib.Bytes
import KappaRegistry.Lib.Split
import KappaRegistry.Lib.Table
import KappaRegistry.Lib.Text

/-!
# Sessions and Proofs of Possession

`kappa-module-atproto/src/session.rs`. A session is kept under its access token. It may be bound to a
key, by the thumbprint of the key: a request then comes with a proof, a signed token that names the
request's method, its URI and the hash of the access token.

The hash, the JSON parser, the P-256 verifier and the upper-case mapping are parameters
(`SessionLibs`). The clock is read once for a call.
-/

namespace KappaRegistry.Atproto

open Lib

structure Session where
  did : String
  accessToken : String
  refreshToken : String
  dpopJkt : String
  createdAtMs : ℕ
  expiresAtMs : ℕ
  handle : String
  deriving DecidableEq

/-- The claims of a proof, with the thumbprint of the key that signed it. -/
structure DpopClaims where
  jti : String
  htm : String
  htu : String
  iat : ℕ
  ath : String
  jkt : String
  deriving DecidableEq

inductive SessionError where
  | authenticationRequired
  | invalidToken
  | expiredToken
  | replayDetected
  | methodMismatch
  | uriMismatch
  | tokenHashMismatch
  | keyMismatch
  | proofExpired
  deriving DecidableEq

namespace SessionError

def text : SessionError → String
  | authenticationRequired => "authentication required"
  | invalidToken => "invalid or expired token"
  | expiredToken => "token expired"
  | replayDetected => "DPoP proof replay detected"
  | methodMismatch => "DPoP proof method mismatch"
  | uriMismatch => "DPoP proof URI mismatch"
  | tokenHashMismatch => "DPoP proof token hash mismatch"
  | keyMismatch => "DPoP proof key mismatch"
  | proofExpired => "DPoP proof expired or too far in the future"

def xrpcError : SessionError → String
  | authenticationRequired => "AuthenticationRequired"
  | invalidToken | expiredToken => "ExpiredToken"
  | replayDetected => "InvalidToken"
  | methodMismatch | uriMismatch => "InvalidToken"
  | tokenHashMismatch | keyMismatch => "InvalidToken"
  | proofExpired => "ExpiredToken"

end SessionError

open SessionError

/-- What the module takes from other crates. -/
structure SessionLibs where
  sha256 : Bytes → Bytes
  serde : SerdeJson
  /-- Whether the P-256 verifier accepts a key, a message and a signature. -/
  verifyP256 : Bytes → Bytes → Bytes → Bool
  toUppercase : String → String

/-! ## Base64url -/

def base64urlDigit (n : ℕ) : Char :=
  ("ABCDEFGHIJKLMNOPQRSTUVWXYZabcdefghijklmnopqrstuvwxyz0123456789-_".toList).getD n 'A'

/-- The digits of the sextets of `bits` above its lowest `nbits % 6`, and that remainder. -/
def sextets (bits : ℕ) : ℕ → List Char × ℕ
  | nbits + 6 => (base64urlDigit ((bits >>> nbits) % 64) :: (sextets bits nbits).1, (sextets bits nbits).2)
  | nbits => ([], nbits)

/-- The loop of `base64url_encode`, with the bits of the 32-bit accumulator and their number. -/
def base64urlLoop (bits nbits : ℕ) : Bytes → List Char
  | [] => if 0 < nbits then [base64urlDigit ((bits <<< (6 - nbits)) % 64)] else []
  | byte :: bytes =>
    let bits := (bits <<< 8 ||| byte.toNat) % 2 ^ 32
    (sextets bits (nbits + 8)).1 ++ base64urlLoop bits (sextets bits (nbits + 8)).2 bytes

/-- `base64url_encode`. -/
def base64urlEncode (data : Bytes) : String := String.ofList (base64urlLoop 0 0 data)

def base64urlValue (b : ℕ) : Option ℕ :=
  if 65 ≤ b ∧ b ≤ 90 then some (b - 65)
  else if 97 ≤ b ∧ b ≤ 122 then some (b - 97 + 26)
  else if 48 ≤ b ∧ b ≤ 57 then some (b - 48 + 52)
  else if b = 45 then some 62
  else if b = 95 then some 63
  else none

/-- The loop of `base64url_decode`; padding is skipped wherever it stands. -/
def base64urlUnloop (bits nbits : ℕ) : Bytes → Except SessionError Bytes
  | [] => .ok []
  | b :: bytes =>
    if b = 61 then base64urlUnloop bits nbits bytes
    else do
      let value ← need (base64urlValue b.toNat) .invalidToken
      let bits := (bits <<< 6 ||| value) % 2 ^ 32
      if 8 ≤ nbits + 6 then
        let rest ← base64urlUnloop bits (nbits - 2) bytes
        return UInt8.ofNat (bits >>> (nbits - 2)) :: rest
      else base64urlUnloop bits (nbits + 6) bytes

/-- `base64url_decode`. -/
def base64urlDecode (input : String) : Except SessionError Bytes := base64urlUnloop 0 0 (textBytes input)

section

variable (libs : SessionLibs)

def base64urlSha256 (data : Bytes) : String := base64urlEncode (libs.sha256 data)

/-! ## Proofs -/

/-- `jwk_thumbprint_p256`. -/
def jwkThumbprintP256 (x y : String) : String :=
  base64urlSha256 libs (textBytes
    ("\x7b\"crv\":\"P-256\",\"kty\":\"EC\",\"x\":\"" ++ x ++ "\",\"y\":\"" ++ y ++ "\"\x7d"))

def textMember (v : Json) (name : String) : Option String := (v.get name).bind Json.asStr

def publicKey (jwk : Json) : Except SessionError Bytes := do
  let x64 ← need (textMember jwk "x") .invalidToken
  let y64 ← need (textMember jwk "y") .invalidToken
  let x ← base64urlDecode x64
  let y ← base64urlDecode y64
  ensure (x.length = 32 ∧ y.length = 32) invalidToken
  return 4 :: (x ++ y)

/-- `parse_and_verify_dpop_proof` for the three parts of a proof. -/
def verifyProofParts (header64 payload64 signature64 : String) : Except SessionError DpopClaims := do
  let headerBytes ← base64urlDecode header64
  let header ← need (libs.serde.fromSlice headerBytes) .invalidToken
  ensure (textMember header "typ" = some "dpop+jwt") invalidToken
  let jwk ← need (header.get "jwk") invalidToken
  ensure ((textMember header "alg").getD "" = "ES256" ∧ (textMember jwk "kty").getD "" = "EC" ∧
    (textMember jwk "crv").getD "" = "P-256") invalidToken
  let key ← publicKey jwk
  let signature ← base64urlDecode signature64
  ensure (libs.verifyP256 key (textBytes (header64 ++ "." ++ payload64)) signature = true)
    invalidToken
  let payloadBytes ← base64urlDecode payload64
  let payload ← need (libs.serde.fromSlice payloadBytes) .invalidToken
  let jti ← need (textMember payload "jti") .invalidToken
  let htm ← need (textMember payload "htm") .invalidToken
  let htu ← need (textMember payload "htu") .invalidToken
  let iat ← need ((payload.get "iat").bind (Json.asUnsigned u64Max)) .invalidToken
  return {
    jti, htm, htu, iat
    ath := (textMember payload "ath").getD ""
    jkt := jwkThumbprintP256 libs ((textMember jwk "x").getD "") ((textMember jwk "y").getD "") }

def parseAndVerifyDpopProof (proofJwt : String) : Except SessionError DpopClaims :=
  match splitText '.' proofJwt with
  | [header64, payload64, signature64] => verifyProofParts libs header64 payload64 signature64
  | _ => .error .invalidToken

end

/-! ## The session store -/

structure SessionStore where
  sessions : Table String Session
  refreshIndex : Table String String
  /-- The hashes of the passwords. -/
  credentials : Table String String
  seenJtis : List String
  /-- The counter behind the tokens. -/
  tokenCounter : ℕ

namespace SessionStore

def new : SessionStore := ⟨∅, ∅, ∅, [], 0⟩

section

variable (libs : SessionLibs)

def hashPassword (password : String) : String := hexEncode (libs.sha256 (textBytes password))

variable (s : SessionStore) (accessToken did : String)

def registerCredentials (password : String) : SessionStore :=
  { s with credentials := s.credentials.insert did (hashPassword libs password) }

/-- `generate_token`, for the number that the counter gave. -/
def generateToken (timestamp : ℕ) (kind : String) (seq : ℕ) : String :=
  hexEncode (libs.sha256 (textBytes
    (did ++ ":" ++ toString timestamp ++ ":" ++ kind ++ ":" ++ toString seq)))

/-- A session that begins now, and the store with it. -/
def issue (handle dpopJkt : String) (nowMs : ℕ) : Session × SessionStore :=
  let session : Session :=
    { did
      accessToken := generateToken libs did nowMs "access" s.tokenCounter
      refreshToken := generateToken libs did nowMs "refresh" ((s.tokenCounter + 1) % (u64Max + 1))
      dpopJkt
      createdAtMs := nowMs
      expiresAtMs := (nowMs + 3600 * 1000) % (u64Max + 1)
      handle }
  (session, { s with
    sessions := s.sessions.insert session.accessToken session
    refreshIndex := s.refreshIndex.insert session.refreshToken session.accessToken
    tokenCounter := (s.tokenCounter + 2) % (u64Max + 1) })

def createSession (identifier password handle dpopJkt : String) (nowMs : ℕ) :
    Except SessionError (Session × SessionStore) := do
  ensure (s.credentials[identifier]? = some (hashPassword libs password))
    authenticationRequired
  return s.issue libs identifier handle dpopJkt nowMs

/-- `refresh_session`. The refresh token is consumed also when its session is gone. -/
def refreshSession (refreshToken : String) (nowMs : ℕ) :
    Except SessionError Session × SessionStore :=
  match s.refreshIndex[refreshToken]? with
  | none => (.error .invalidToken, s)
  | some accessToken =>
    let s := { s with refreshIndex := s.refreshIndex.erase refreshToken }
    match s.sessions[accessToken]? with
    | none => (.error .invalidToken, s)
    | some old =>
      let s := { s with sessions := s.sessions.erase accessToken }
      let issued := s.issue libs old.did old.handle old.dpopJkt nowMs
      (.ok issued.1, issued.2)

def deleteSession : Except SessionError Unit × SessionStore :=
  match s.sessions[accessToken]? with
  | none => (.error .invalidToken, s)
  | some session => (.ok (), { s with
      sessions := s.sessions.erase accessToken
      refreshIndex := s.refreshIndex.erase session.refreshToken })

def getSession (nowMs : ℕ) : Except SessionError Session := do
  let session ← need s.sessions[accessToken]? .invalidToken
  ensure (nowMs ≤ session.expiresAtMs) expiredToken
  return session

def validateToken (nowMs : ℕ) : Option String :=
  (s.sessions[accessToken]?.filter fun session => nowMs ≤ session.expiresAtMs).map Session.did

def cleanUri (uri : String) : String := ((splitText '?' uri).head?).getD uri

/-- The checks of `verify_dpop_request` after that of replays. -/
def checkClaims (session : Session) (accessToken : String) (claims : DpopClaims)
    (requestMethod requestUri : String) (nowMs : ℕ) : Except SessionError String := do
  ensure (libs.toUppercase claims.htm = libs.toUppercase requestMethod) methodMismatch
  ensure (claims.htu = cleanUri requestUri) uriMismatch
  ensure (claims.ath = base64urlSha256 libs (textBytes accessToken)) tokenHashMismatch
  ensure (claims.jkt = session.dpopJkt) keyMismatch
  -- the additions wrap around
  ensure (¬ ((claims.iat + 300) % (u64Max + 1) < nowMs / 1000 ∨ nowMs / 1000 + 300 < claims.iat))
    proofExpired
  return session.did

/-- `verify_dpop_request`. The identifier of the proof is recorded whatever the later checks say. -/
def verifyDpopRequest (claims : DpopClaims)
    (requestMethod requestUri : String) (nowMs : ℕ) : Except SessionError String × SessionStore :=
  match s.getSession accessToken nowMs with
  | .error e => (.error e, s)
  | .ok session =>
    if claims.jti ∈ s.seenJtis then (.error .replayDetected, s)
    else (checkClaims libs session accessToken claims requestMethod requestUri nowMs,
      { s with seenJtis := claims.jti :: s.seenJtis })

end

end SessionStore

end KappaRegistry.Atproto
