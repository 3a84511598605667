import KappaRegistry.Lib.Percent
import KappaRegistry.Lib.Split
import KappaRegistry.Lib.Text
import KappaRegistry.Types
import Mathlib.Data.List.Perm.Basic
import Mathlib.Data.List.Sort
import Mathlib.Data.Prod.Lex

/-!
# Signature Version 4

`kappa-core/src/crypto/sigv4.rs`, without the streaming part: reading the two ways a request
carries its signature, the canonical request, and the signature itself. SHA-256 and HMAC-SHA256
are parameters.

Everything that is signed is one text, so what a signature covers is a matter of reading that text
back. The canonical query determines the pairs it was built from up to their order
(`buildCanonicalQuery_perm`), and the string to sign determines the canonical request as long as
SHA-256 does not collide on it (`buildStringToSign_inj`).
-/

namespace KappaRegistry

open List

/-- The hash functions of the scheme, from the crates `sha2` and `hmac`. -/
structure MacHash where
  sha256 : Bytes → Bytes
  /-- HMAC-SHA256 of a message under a key; any key length is accepted. -/
  hmacSha256 : Bytes → Bytes → Bytes

namespace SigV4

open Lib

/-! ## Errors and parsed forms -/

inductive SigV4Error where
  | malformedAuth (message : String)
  | missingHeader (name : String)
  | signatureMismatch
  | unsupportedAlgorithm (algorithm : String)
  | chunkParseFailed (message : String)
  | expired
  | chunkCountExceeded (max : ℕ)
  | chunkSizeExceeded (size max : ℕ)
  | trailerTooLarge (size max : ℕ)
  deriving DecidableEq

/-- What a credential store knows of an access key: the previous secret is there during the grace
period of a rotation. -/
structure CredentialResult where
  currentSecret : String
  previousSecret : Option String
  principalAnchor : String
  deriving DecidableEq

/-- The access key and the scope in the `Credential` field. -/
structure CredentialScope where
  accessKey : String
  date : String
  region : String
  service : String
  deriving DecidableEq

/-- A parsed `Authorization` header. -/
structure SigV4Authorization extends CredentialScope where
  signedHeaders : List String
  signature : String
  securityToken : Option String
  deriving DecidableEq

/-- The parsed parameters of a presigned URL. -/
structure PresignedUrl extends CredentialScope where
  datetime : String
  expiresSecs : ℕ
  signedHeaders : List String
  signature : String
  securityToken : Option String
  deriving DecidableEq

def aws4Request : String := "aws4_request"

def algorithmHmacSha256 : String := "AWS4-HMAC-SHA256"

def unsignedPayload : String := "UNSIGNED-PAYLOAD"

/-- The five parts of a credential, of which the last is fixed. -/
def parseCredential (cred message : String) : Except SigV4Error CredentialScope :=
  match splitNText '/' 5 cred with
  | [accessKey, date, region, service, terminator] =>
    if terminator = aws4Request then .ok { accessKey, date, region, service }
    else .error (.malformedAuth (message ++ cred))
  | _ => .error (.malformedAuth (message ++ cred))

/-! ## The Authorization header -/

/-- What the loop over the comma-separated parts has found; a later part replaces an earlier. -/
structure AuthFields where
  credential : Option String := none
  signedHeaders : Option String := none
  signature : Option String := none
  deriving DecidableEq

def AuthFields.read (fields : AuthFields) (part : String) : AuthFields :=
  match stripPrefix (trim part) "Credential=" with
  | some val => { fields with credential := some (trim val) }
  | none =>
    match stripPrefix (trim part) "SignedHeaders=" with
    | some val => { fields with signedHeaders := some (trim val) }
    | none =>
      match stripPrefix (trim part) "Signature=" with
      | some val => { fields with signature := some (trim val) }
      | none => fields

def parseAuthorization (authHeader : String) (securityToken : Option String) :
    Except SigV4Error SigV4Authorization := do
  let rest ← need (stripPrefix (trim authHeader) algorithmHmacSha256)
    (.unsupportedAlgorithm authHeader)
  let fields := (splitText ',' (trim rest)).foldl AuthFields.read {}
  let credStr ← need fields.credential (.malformedAuth "missing Credential")
  let sig ← need fields.signature (.malformedAuth "missing Signature")
  let sh ← need fields.signedHeaders (.malformedAuth "missing SignedHeaders")
  let scope ← parseCredential credStr "credential scope malformed: "
  return { scope with signedHeaders := splitText ';' sh, signature := sig, securityToken }

/-! ## The signature -/

section

variable (hash : MacHash)

def sha256Hex (data : Bytes) : String := hexEncode (hash.sha256 data)

def deriveSigningKey (secretKey date region service : String) : Bytes :=
  let kSecret := textBytes ("AWS4" ++ secretKey)
  let kDate := hash.hmacSha256 kSecret (textBytes date)
  let kRegion := hash.hmacSha256 kDate (textBytes region)
  let kService := hash.hmacSha256 kRegion (textBytes service)
  hash.hmacSha256 kService (textBytes aws4Request)

def buildCanonicalRequest (method canonicalUri canonicalQuery canonicalHeaders signedHeaders
    payloadHash : String) : String :=
  method ++ "\n" ++ canonicalUri ++ "\n" ++ canonicalQuery ++ "\n" ++ canonicalHeaders ++ "\n" ++
    signedHeaders ++ "\n" ++ payloadHash

def buildStringToSign (datetime credentialScope canonicalRequest : String) : String :=
  algorithmHmacSha256 ++ "\n" ++ datetime ++ "\n" ++ credentialScope ++ "\n" ++
    sha256Hex hash (textBytes canonicalRequest)

def computeSignature (signingKey : Bytes) (stringToSign : String) : String :=
  hexEncode (hash.hmacSha256 signingKey (textBytes stringToSign))

end

def buildCanonicalHeaders (headers : List (String × String)) : String :=
  headers.foldl (fun result (name, value) => result ++ asciiLower name ++ ":" ++ trim value ++ "\n") ""

/-- The bytes that `uri_encode` keeps: the unreserved ones of RFC 3986, and the slash on demand. -/
def isUnreserved (encodeSlash : Bool) (b : UInt8) : Bool :=
  (65 ≤ b && b ≤ 90) || (97 ≤ b && b ≤ 122) || (48 ≤ b && b ≤ 57) || b = 45 || b = 46 || b = 95 ||
    b = 126 || (b = 47 && !encodeSlash)

def uriEncode (input : String) (encodeSlash : Bool) : String :=
  percentEncode (isUnreserved encodeSlash) input

variable (params : List (String × String)) (pair : String × String) (s : String)

def encodePair : String × String :=
  (uriEncode pair.1 true, uriEncode pair.2 true)

def pairText : String := pair.1 ++ "=" ++ pair.2

/-- The pairs in the order of the canonical query: by name, then by value. -/
def sortPairs (pairs : List (String × String)) : List (String × String) :=
  pairs.insertionSort fun a b => toLex a ≤ toLex b

def buildCanonicalQuery : String :=
  let pairs := (params.filter fun pair => pair.1 != "X-Amz-Signature").map encodePair
  joinText '&' ((sortPairs pairs).map pairText)

/-- The comparison is constant-time; what it decides is equality. -/
def verifySignature (computed provided : String) : Except SigV4Error Unit := do
  ensure (size computed = size provided) .signatureMismatch
  ensure (textBytes computed = textBytes provided) .signatureMismatch

theorem verifySignature_eq_ok {computed provided : String} :
    verifySignature computed provided = .ok () ↔ computed = provided := by
  simp only [verifySignature, bind_eq_ok, ensure_eq_ok]
  constructor
  · rintro ⟨-, -, h⟩
    exact textBytes_inj h
  · rintro rfl
    exact ⟨(), rfl, rfl⟩

/-! ## Reading encoded texts -/

@[simp] theorem isUnreserved_percent (encodeSlash : Bool) : isUnreserved encodeSlash 37 = false := by
  cases encodeSlash <;> decide

theorem isUnreserved_ascii {encodeSlash : Bool} (b : UInt8) (h : isUnreserved encodeSlash b = true) :
    b < 128 := by
  by_contra hb
  have hle : 128 ≤ b.toNat := by
    rw [UInt8.lt_iff_toNat_lt] at hb
    simpa using hb
  simp only [isUnreserved, Bool.or_eq_true, Bool.and_eq_true, decide_eq_true_eq,
    UInt8.le_iff_toNat_le, ← UInt8.toNat_inj] at h
  simp at h
  omega

theorem uriEncode_inj {s t : String} (h : uriEncode s true = uriEncode t true) : s = t :=
  percentEncode_inj (isUnreserved_percent true) h

theorem encodePair_injective : Function.Injective encodePair := by
  intro a b h
  obtain ⟨h₁, h₂⟩ := Prod.mk.inj h
  exact Prod.ext (uriEncode_inj h₁) (uriEncode_inj h₂)

theorem amp_notMem_uriEncode : '&' ∉ (uriEncode s true).toList :=
  notMem_percentEncode 38 (by decide) (by decide) (by decide) s

theorem eq_notMem_uriEncode : '=' ∉ (uriEncode s true).toList :=
  notMem_percentEncode 61 (by decide) (by decide) (by decide) s

theorem slash_notMem_uriEncode : '/' ∉ (uriEncode s true).toList :=
  notMem_percentEncode 47 (by decide) (by decide) (by decide) s

/-! ## Queries -/

/-- The pairs that `verify_request` takes from a query: the parts with an equals sign. -/
def queryParams (query : String) : List (String × String) :=
  ((splitText '&' query).filter fun p => p != "").filterMap (splitOnceText '=')

/-- The parts of a pair that can be told apart in a query. -/
def Separable : Prop :=
  '&' ∉ pair.1.toList ∧ '=' ∉ pair.1.toList ∧ '&' ∉ pair.2.toList

theorem separable_encodePair : Separable (encodePair pair) :=
  ⟨amp_notMem_uriEncode _, eq_notMem_uriEncode _, amp_notMem_uriEncode _⟩

variable {pairs : List (String × String)}

theorem filterMap_pairText (h : ∀ pair ∈ pairs, Separable pair) :
    ((pairs.map pairText).filter fun p => p != "").filterMap (splitOnceText '=') = pairs := by
  induction pairs with
  | nil => rfl
  | cons pair pairs ih =>
    have hcut : splitOnceText '=' (pairText pair) = some pair :=
      splitOnceText_eq_some.mpr ⟨rfl, (h pair (by simp)).2.1⟩
    have hne : (pairText pair != "") = true := by
      rw [bne_iff_ne]
      intro heq
      rw [heq] at hcut
      cases hcut
    rw [map_cons, filter_cons_of_pos (by exact hne), filterMap_cons_some hcut,
      ih (fun p hp => h p (by simp [hp]))]

/-- **A query is read back as the pairs it was written from**, in their order. -/
theorem queryParams_joinText (h : ∀ pair ∈ pairs, Separable pair) :
    queryParams (joinText '&' (pairs.map pairText)) = pairs := by
  cases pairs with
  | nil => decide
  | cons pair pairs =>
    have hamp : ∀ p ∈ pair :: pairs, '&' ∉ (pairText p).toList := by
      intro p hp
      obtain ⟨h₁, -, h₂⟩ := h p hp
      simp [pairText, h₁, h₂]
    have hsplit : splitText '&' (joinText '&' ((pair :: pairs).map pairText)) =
        (pair :: pairs).map pairText := by
      apply splitText_joinText (hamp pair (by simp))
      intro q hq
      obtain ⟨p, hp, rfl⟩ := mem_map.mp hq
      exact hamp p (by simp [hp])
    rw [queryParams, hsplit, filterMap_pairText h]

def coveredPairs : List (String × String) :=
  params.filter fun pair => pair.1 != "X-Amz-Signature"

theorem sortPairs_perm (pairs : List (String × String)) : (sortPairs pairs).Perm pairs :=
  perm_insertionSort _ _

theorem queryParams_buildCanonicalQuery :
    queryParams (buildCanonicalQuery params) = sortPairs ((coveredPairs params).map encodePair) := by
  apply queryParams_joinText
  intro pair hpair
  obtain ⟨p, -, rfl⟩ := mem_map.mp ((sortPairs_perm _).mem_iff.mp hpair)
  exact separable_encodePair p

/-- **The canonical query determines its pairs** up to their order. -/
theorem buildCanonicalQuery_perm {params params' : List (String × String)}
    (h : buildCanonicalQuery params = buildCanonicalQuery params') :
    (coveredPairs params).Perm (coveredPairs params') := by
  have hsort := congrArg queryParams h
  rw [queryParams_buildCanonicalQuery, queryParams_buildCanonicalQuery] at hsort
  have hperm : ((coveredPairs params).map encodePair).Perm
      ((coveredPairs params').map encodePair) :=
    (sortPairs_perm _).symm.trans (hsort ▸ sortPairs_perm _)
  exact (map_perm_map_iff encodePair_injective).mp hperm

/-! ## What is signed -/

theorem newline_notMem_hexEncode (bytes : Bytes) : '\n' ∉ (hexEncode bytes).toList := by
  intro h
  obtain ⟨n, hn⟩ := of_mem_hexEncode h
  have hall : ∀ i : Fin 16, '\n' ≠ hexDigit i := by decide
  exact hall n hn

theorem eq_of_append_newline {a a' b b' : String} (hb : '\n' ∉ b.toList) (hb' : '\n' ∉ b'.toList)
    (h : a ++ "\n" ++ b = a' ++ "\n" ++ b') : b = b' := by
  have hcut (x y : String) (hy : '\n' ∉ y.toList) :
      rsplitOnce '\n' (x ++ "\n" ++ y).toList = some (x.toList, y.toList) :=
    rsplitOnce_eq_some.mpr ⟨by simp, hy⟩
  have hsame := hcut a b hb
  rw [h, hcut a' b' hb'] at hsame
  exact String.toList_inj.mp (Prod.mk.inj (Option.some.inj hsame)).2.symm

theorem buildStringToSign_inj {hash : MacHash} {datetime datetime' scope scope' req req' : String}
    (h : buildStringToSign hash datetime scope req = buildStringToSign hash datetime' scope' req') :
    hash.sha256 (textBytes req) = hash.sha256 (textBytes req') :=
  hexEncode_inj (eq_of_append_newline (newline_notMem_hexEncode _) (newline_notMem_hexEncode _) h)

theorem buildCanonicalRequest_query {method method' uri uri' query query' headers headers' signed
    payload payload' : String} (hmethod : method = method') (huri : uri = uri')
    (hheaders : headers = headers') (hpayload : payload = payload')
    (h : buildCanonicalRequest method uri query headers signed payload =
      buildCanonicalRequest method' uri' query' headers' signed payload') : query = query' := by
  subst hmethod huri hheaders hpayload
  have hlist := congrArg String.toList h
  simp only [buildCanonicalRequest, String.toList_append, List.append_assoc,
    List.append_cancel_left_eq, List.append_cancel_right_eq] at hlist
  simpa only [← List.append_assoc, List.append_cancel_right_eq, String.toList_inj] using hlist

/-! ## A well-formed header is read back -/

/-- A text that can stand in a field of the header. -/
def FieldText : Prop := ∀ c ∈ s.toList, isWhitespace c = false ∧ c ≠ ','

instance : Decidable (FieldText s) := List.decidableBAll _ s.toList

theorem FieldText.append {s t : String} (hs : FieldText s) (ht : FieldText t) :
    FieldText (s ++ t) := by
  intro c hc
  rw [String.toList_append, mem_append] at hc
  rcases hc with hc | hc
  · exact hs c hc
  · exact ht c hc

variable {s : String}

theorem FieldText.trim_eq (h : FieldText s) : trim s = s := by
  apply trim_eq_self
  · intro c hc
    exact (h c (mem_of_mem_head? hc)).1
  · intro c hc
    exact (h c (mem_of_mem_getLast? hc)).1

theorem FieldText.comma_notMem (h : FieldText s) : ',' ∉ s.toList :=
  fun hmem => (h ',' hmem).2 rfl

theorem FieldText.joinText {sep : Char} (hsep : isWhitespace sep = false ∧ sep ≠ ',')
    {ps : List String} (h : ∀ p ∈ ps, FieldText p) : FieldText (joinText sep ps) := by
  induction ps with
  | nil =>
    intro c hc
    simp [Lib.joinText, List.intercalate] at hc
  | cons p ps ih =>
    have hp : FieldText p := h p (by simp)
    have htail := ih (fun q hq => h q (by simp [hq]))
    cases ps with
    | nil => simpa [Lib.joinText, List.intercalate] using hp
    | cons q qs =>
      have hcons : Lib.joinText sep (p :: q :: qs) =
          p ++ String.singleton sep ++ Lib.joinText sep (q :: qs) := by
        apply String.toList_inj.mp
        simp [Lib.joinText, List.intercalate]
      rw [hcons]
      exact (hp.append (by intro c hc; simp at hc; exact hc ▸ hsep)).append htail

theorem fieldText_hexEncode (bytes : Bytes) : FieldText (hexEncode bytes) := by
  intro c hc
  obtain ⟨n, rfl⟩ := of_mem_hexEncode hc
  have hall : ∀ i : Fin 16, isWhitespace (hexDigit i) = false ∧ hexDigit i ≠ ',' := by decide
  exact hall n

/-- The scope as the string to sign has it. -/
def CredentialScope.text (scope : CredentialScope) : String :=
  scope.date ++ "/" ++ scope.region ++ "/" ++ scope.service ++ "/aws4_request"

def CredentialScope.credential (scope : CredentialScope) : String :=
  scope.accessKey ++ "/" ++ scope.text

def SigV4Authorization.fields (auth : SigV4Authorization) : String :=
  "Credential=" ++ auth.toCredentialScope.credential ++ "," ++
    (" SignedHeaders=" ++ joinText ';' auth.signedHeaders) ++ "," ++
    (" Signature=" ++ auth.signature)

/-- The header that carries these fields. -/
def SigV4Authorization.text (auth : SigV4Authorization) : String :=
  algorithmHmacSha256 ++ (" " ++ auth.fields)

/-- The texts of a credential: nothing in them ends a part of the scope or of the header. -/
structure CredentialScope.WellFormed (scope : CredentialScope) : Prop where
  field : ∀ s ∈ [scope.accessKey, scope.date, scope.region, scope.service], FieldText s
  slash : ∀ s ∈ [scope.accessKey, scope.date, scope.region, scope.service], '/' ∉ s.toList

/-- Names of headers as the specification lists them: there is one, and none holds a separator. -/
structure HeaderNames (names : List String) : Prop where
  ne_nil : names ≠ []
  field : ∀ n ∈ names, FieldText n
  semicolon : ∀ n ∈ names, ';' ∉ n.toList

variable {scope : CredentialScope}

theorem parseCredential_text (h : scope.WellFormed) (message : String) :
    parseCredential scope.credential message = .ok scope := by
  have hsplit : splitNText '/' 5 scope.credential =
      [scope.accessKey, scope.date, scope.region, scope.service, aws4Request] := by
    have hlist : scope.credential.toList = scope.accessKey.toList ++ '/' :: (scope.date.toList ++
        '/' :: (scope.region.toList ++ '/' :: (scope.service.toList ++ '/' :: aws4Request.toList))) := by
      simp [CredentialScope.credential, CredentialScope.text, aws4Request]
    rw [splitNText, hlist, splitN_append_cons (h.slash _ (by simp)),
      splitN_append_cons (h.slash _ (by simp)), splitN_append_cons (h.slash _ (by simp)),
      splitN_append_cons (h.slash _ (by simp))]
    simp [splitN]
  rw [parseCredential, hsplit]
  rfl

theorem fieldText_credential (h : scope.WellFormed) :
    FieldText scope.credential := by
  have hslash : FieldText "/" := by decide
  refine (h.field _ (by simp)).append hslash |>.append ?_
  refine ((((h.field _ (by simp)).append hslash).append (h.field _ (by simp))).append hslash).append
    (h.field _ (by simp)) |>.append ?_
  decide

variable {val : String}

theorem AuthFields.read_credential (fields : AuthFields) (h : FieldText val) :
    fields.read ("Credential=" ++ val) = { fields with credential := some val } := by
  have hpart : FieldText ("Credential=" ++ val) := FieldText.append (by decide) h
  simp [AuthFields.read, hpart.trim_eq, h.trim_eq]

theorem FieldText.trim_space {name : String} (h : FieldText (name ++ val)) :
    trim (" " ++ name ++ val) = name ++ val := by
  rw [String.append_assoc, trim_append_of_whitespace isWhitespace_space, h.trim_eq]

theorem AuthFields.read_signedHeaders (fields : AuthFields) (h : FieldText val) :
    fields.read (" SignedHeaders=" ++ val) = { fields with signedHeaders := some val } := by
  have hpart : FieldText ("SignedHeaders=" ++ val) := FieldText.append (by decide) h
  have htrim : trim (" SignedHeaders=" ++ val) = "SignedHeaders=" ++ val := hpart.trim_space
  have hother : stripPrefix ("SignedHeaders=" ++ val) "Credential=" = none :=
    stripPrefix_append_eq_none (by decide) (by decide) val
  simp [AuthFields.read, htrim, hother, h.trim_eq]

theorem AuthFields.read_signature (fields : AuthFields) (h : FieldText val) :
    fields.read (" Signature=" ++ val) = { fields with signature := some val } := by
  have hpart : FieldText ("Signature=" ++ val) := FieldText.append (by decide) h
  have htrim : trim (" Signature=" ++ val) = "Signature=" ++ val := hpart.trim_space
  have hother : stripPrefix ("Signature=" ++ val) "Credential=" = none :=
    stripPrefix_append_eq_none (by decide) (by decide) val
  have hother' : stripPrefix ("Signature=" ++ val) "SignedHeaders=" = none :=
    stripPrefix_append_eq_none (by decide) (by decide) val
  simp [AuthFields.read, htrim, hother, hother', h.trim_eq]

variable {auth : SigV4Authorization}

theorem foldl_read_fields (hscope : auth.toCredentialScope.WellFormed)
    (hnames : HeaderNames auth.signedHeaders) (hsig : FieldText auth.signature) :
    (splitText ',' auth.fields).foldl AuthFields.read {} =
      ⟨some auth.toCredentialScope.credential, some (joinText ';' auth.signedHeaders),
        some auth.signature⟩ := by
  have hcred := fieldText_credential hscope
  have hsh : FieldText (joinText ';' auth.signedHeaders) :=
    FieldText.joinText (by decide) hnames.field
  have hsplit : splitText ',' auth.fields =
      ["Credential=" ++ auth.toCredentialScope.credential,
        " SignedHeaders=" ++ joinText ';' auth.signedHeaders, " Signature=" ++ auth.signature] := by
    have hc₁ : ',' ∉ ("Credential=" ++ auth.toCredentialScope.credential).toList := by
      simp [hcred.comma_notMem]
    have hc₂ : ',' ∉ (" SignedHeaders=" ++ joinText ';' auth.signedHeaders).toList := by
      simp [hsh.comma_notMem]
    have hc₃ : ',' ∉ (" Signature=" ++ auth.signature).toList := by
      simp [hsig.comma_notMem]
    unfold SigV4Authorization.fields
    rw [show "," = String.singleton ',' from rfl, splitText_append, splitText_append,
      splitText_of_notMem hc₁, splitText_of_notMem hc₂, splitText_of_notMem hc₃]
    rfl
  rw [hsplit, foldl_cons, AuthFields.read_credential _ hcred, foldl_cons,
    AuthFields.read_signedHeaders _ hsh, foldl_cons, AuthFields.read_signature _ hsig]
  rfl

theorem getLast_signature (p : String) {sig : String} (hsig : FieldText sig) :
    ∀ c ∈ (p ++ (" Signature=" ++ sig)).toList.getLast?, isWhitespace c = false := by
  have hlist : (p ++ (" Signature=" ++ sig)).toList =
      (p.toList ++ " Signature".toList) ++ '=' :: sig.toList := by
    rw [@String.toList_append p, @String.toList_append " Signature=", List.append_assoc]
    rfl
  intro c hc
  rw [hlist, getLast?_append_cons] at hc
  rcases mem_cons.mp (mem_of_mem_getLast? hc) with rfl | hmem
  · decide
  · exact (hsig c hmem).1

/-- **A header in the form of the specification is read as the fields it was written from.** -/
theorem parseAuthorization_text (hscope : auth.toCredentialScope.WellFormed)
    (hnames : HeaderNames auth.signedHeaders)
    (hsig : FieldText auth.signature) :
    parseAuthorization auth.text auth.securityToken = .ok auth := by
  have htrim : trim auth.text = auth.text := by
    apply trim_eq_self
    · intro c hc
      have hhead : auth.text.toList.head? = some 'A' := head?_toList_append rfl _
      obtain rfl := Option.some.inj (hhead.symm.trans hc)
      decide
    · have hassoc : auth.text = algorithmHmacSha256 ++ (" " ++ ("Credential=" ++
          auth.toCredentialScope.credential ++ "," ++
          (" SignedHeaders=" ++ joinText ';' auth.signedHeaders) ++ ",")) ++
          (" Signature=" ++ auth.signature) := by
        rw [@String.append_assoc algorithmHmacSha256, @String.append_assoc " "]
        rfl
      rw [hassoc]
      exact getLast_signature _ hsig
  have hrest : trim (" " ++ auth.fields) = auth.fields := by
    rw [trim_append_of_whitespace isWhitespace_space]
    apply trim_eq_self
    · intro c hc
      have hhead : auth.fields.toList.head? = some 'C' := by
        iterate 5 apply head?_toList_append
        rfl
      obtain rfl := Option.some.inj (hhead.symm.trans hc)
      decide
    · exact getLast_signature _ hsig
  have hsplit : splitText ';' (joinText ';' auth.signedHeaders) = auth.signedHeaders := by
    cases hcase : auth.signedHeaders with
    | nil => exact absurd hcase hnames.ne_nil
    | cons n ns =>
      apply splitText_joinText
      · exact hnames.semicolon n (by simp [hcase])
      · intro q hq
        exact hnames.semicolon q (by simp [hcase, hq])
  simp only [parseAuthorization, bind_eq_ok, need_eq_ok, pure_eq_ok]
  refine ⟨" " ++ auth.fields, by rw [htrim, SigV4Authorization.text, stripPrefix_append], ?_⟩
  rw [hrest, foldl_read_fields hscope hnames hsig]
  exact ⟨_, rfl, _, rfl, _, rfl, _, parseCredential_text hscope _, by rw [hsplit]⟩

/-! ## Presigned URLs -/

/-- The parameter of a name; a later one replaces an earlier. -/
def lastParam (name : String) : Option String :=
  (params.findRev? fun pair => pair.1 == name).map Prod.snd

def parsePresignedUrl : Except SigV4Error PresignedUrl := do
  let algo ← need (lastParam params "X-Amz-Algorithm") (.missingHeader "X-Amz-Algorithm")
  ensure (algo = algorithmHmacSha256) (.unsupportedAlgorithm algo)
  let cred ← need (lastParam params "X-Amz-Credential") (.missingHeader "X-Amz-Credential")
  let scope ← parseCredential cred "presigned credential malformed: "
  let datetime ← need (lastParam params "X-Amz-Date") (.missingHeader "X-Amz-Date")
  let expStr ← need (lastParam params "X-Amz-Expires") (.missingHeader "X-Amz-Expires")
  let expiresSecs ← (parseRadix 10 (2 ^ 64 - 1) expStr).mapError fun _ =>
    .malformedAuth ("X-Amz-Expires not integer: " ++ expStr)
  let sh ← need (lastParam params "X-Amz-SignedHeaders") (.missingHeader "X-Amz-SignedHeaders")
  let sig ← need (lastParam params "X-Amz-Signature") (.missingHeader "X-Amz-Signature")
  return { scope with
    datetime, expiresSecs, signedHeaders := splitText ';' sh, signature := sig,
    securityToken := lastParam params "X-Amz-Security-Token" }

/-- The sum is one of machine integers. `parseDatetime` is `clock::parse_datetime_to_epoch_secs`. -/
def checkPresignedExpiration (parseDatetime : String → Except String ℕ) (signingDatetime : String)
    (expiresSecs nowSecs : ℕ) : Except SigV4Error Unit := do
  let signingEpoch ← (parseDatetime signingDatetime).mapError .malformedAuth
  ensure (nowSecs ≤ (signingEpoch + expiresSecs) % 2 ^ 64) .expired

end SigV4

end KappaRegistry
