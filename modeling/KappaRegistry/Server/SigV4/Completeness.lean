import KappaRegistry.Server.SigV4.Coverage

/-!
# Which Signed Requests Are Accepted

A client that signs by the specification takes the parameters as they are meant, encodes each name and
value once, and builds both the query and the canonical query from the encoded pairs.

The server builds its canonical query from the pairs of the query as it was sent, which are encoded
already, and encodes them again. For a header this is harmless exactly if there was nothing to
encode (`plain_of_accepted`, `accepted_of_plain`). In a presigned URL the credential always holds
slashes, so it is always encoded, and the server does not find its parts
(`presigned_not_accepted`).
-/

namespace KappaRegistry

open Lib SigV4 List

/-! ## The client of the specification -/

/-- Who signs. -/
structure Client where
  scope : CredentialScope
  secret : String
  wellFormed : scope.WellFormed

/-- What is to be sent: the path and the parameters are not encoded yet. -/
structure ClientRequest where
  method : String
  path : String
  params : List (String × String)
  headers : List Header
  body : Bytes
  datetime : String
  signedHeaders : List String
  headerNames : HeaderNames signedHeaders
  sorted : signedHeaders.Pairwise (· < ·)
  lower : ∀ n ∈ signedHeaders, asciiLower n = n
  present : ∀ n ∈ signedHeaders, (headerText headers n).isSome = true
  unsigned : headerText headers "authorization" = none

namespace ClientRequest

variable (hash : MacHash) (c : Client) (r : ClientRequest) (params : List (String × String))

/-- The query: every pair encoded once, in the order given. -/
def specQuery : Option String :=
  if params = [] then none else some (joinText '&' ((params.map encodePair).map pairText))

/-- The canonical query: every pair encoded once, sorted. -/
def specCanonicalQuery : String :=
  joinText '&' ((sortPairs (params.map encodePair)).map pairText)

/-- The canonical headers: one line for each signed header, its value trimmed. -/
def specCanonicalHeaders (headers : List Header) : List String → String
  | [] => ""
  | n :: ns =>
    n ++ ":" ++ trim ((headerText headers n).getD "") ++ "\n" ++ specCanonicalHeaders headers ns

def specStringToSign (scope : CredentialScope)
    (params : List (String × String)) (payloadHash : String) : String :=
  buildStringToSign hash r.datetime scope.text
    (buildCanonicalRequest r.method (uriEncode r.path false) (specCanonicalQuery params)
      (specCanonicalHeaders r.headers r.signedHeaders) (joinText ';' r.signedHeaders) payloadHash)

def bare : Request where
  method := r.method
  path := uriEncode r.path false
  query := specQuery params
  headers := r.headers
  body := r.body
  path_nulFree := notMem_percentEncode 0 (by decide) (by decide) (by decide) r.path

def authorization : SigV4Authorization where
  toCredentialScope := c.scope
  signedHeaders := r.signedHeaders
  signature := signatureFor hash c.secret c.scope
    (specStringToSign hash r c.scope r.params (statedPayloadHash (r.bare r.params)))
  securityToken := none

def presignedParams (expiresSecs : ℕ) : List (String × String) :=
  r.params ++ [("X-Amz-Algorithm", algorithmHmacSha256), ("X-Amz-Credential", c.scope.credential),
    ("X-Amz-Date", r.datetime), ("X-Amz-Expires", toString expiresSecs),
    ("X-Amz-SignedHeaders", joinText ';' r.signedHeaders)]

def presignedSignature (expiresSecs : ℕ) : String :=
  signatureFor hash c.secret c.scope
    (specStringToSign hash r c.scope (presignedParams c r expiresSecs) unsignedPayload)

end ClientRequest

open ClientRequest

/-- The two places for a signature. -/
inductive SigningMode where
  | header
  | presigned (expiresSecs : ℕ)

def Client.send (hash : MacHash) (c : Client) (r : ClientRequest) : SigningMode → Request
  | .header => withAuthorization (r.authorization hash c) (r.bare r.params)
  | .presigned expiresSecs =>
    r.bare (r.presignedParams c expiresSecs ++
      [("X-Amz-Signature", r.presignedSignature hash c expiresSecs)])

/-! ## What the server makes of it -/

namespace ClientRequest

theorem queryParams_specQuery (params : List (String × String)) :
    queryParams ((specQuery params).getD "") = params.map encodePair := by
  have hread : queryParams (joinText '&' ((params.map encodePair).map pairText)) =
      params.map encodePair := by
    apply queryParams_joinText
    intro pair hpair
    obtain ⟨p, -, rfl⟩ := mem_map.mp hpair
    exact separable_encodePair p
  by_cases hnil : params = []
  · subst hnil
    decide
  · rw [specQuery, if_neg hnil, Option.getD_some, hread]

theorem buildCanonicalHeaders_cons (result : String) (headers : List (String × String)) :
    headers.foldl (fun result (name, value) =>
      result ++ asciiLower name ++ ":" ++ trim value ++ "\n") result =
      result ++ buildCanonicalHeaders headers := by
  induction headers generalizing result with
  | nil => simp [buildCanonicalHeaders]
  | cons h hs ih =>
    rw [buildCanonicalHeaders, foldl_cons, ih, foldl_cons, ih]
    simp [String.append_assoc]

theorem buildCanonicalHeaders_map (headers : List Header) {names : List String}
    (hlower : ∀ n ∈ names, asciiLower n = n) :
    buildCanonicalHeaders (names.map fun n => (n, (headerText headers n).getD "")) =
      specCanonicalHeaders headers names := by
  induction names with
  | nil => rfl
  | cons n ns ih =>
    rw [map_cons, buildCanonicalHeaders, foldl_cons, buildCanonicalHeaders_cons,
      ih (fun m hm => hlower m (by simp [hm])), specCanonicalHeaders]
    show "" ++ asciiLower n ++ _ ++ _ ++ _ ++ _ = _
    rw [hlower n (by simp), String.empty_append]

theorem buildCanonicalHeaders_signed (r : ClientRequest) :
    buildCanonicalHeaders (signedHeaderValues r.headers r.signedHeaders) =
      specCanonicalHeaders r.headers r.signedHeaders := by
  have hvalues : signedHeaderValues r.headers r.signedHeaders =
      r.signedHeaders.map fun n => (n, (headerText r.headers n).getD "") := by
    have hfilter : (r.signedHeaders.filterMap fun n =>
        (headerText r.headers (asciiLower n)).map (Prod.mk n)) =
        r.signedHeaders.map fun n => (n, (headerText r.headers n).getD "") := by
      rw [← filterMap_eq_map]
      apply filterMap_congr
      intro n hn
      obtain ⟨v, hv⟩ := Option.isSome_iff_exists.mp (r.present n hn)
      simp [r.lower n hn, hv]
    rw [signedHeaderValues, hfilter]
    apply List.Pairwise.insertionSort_eq
    rw [pairwise_map]
    exact r.sorted.imp fun h => le_of_lt h
  rw [hvalues, buildCanonicalHeaders_map r.headers r.lower]

theorem headerStringToSign_bare (hash : MacHash) (r : ClientRequest) (scope : CredentialScope) :
    headerStringToSign hash (r.bare r.params) scope r.signedHeaders =
      buildStringToSign hash ((headerText r.headers "x-amz-date").getD "") scope.text
        (buildCanonicalRequest r.method (uriEncode r.path false)
          (buildCanonicalQuery (r.params.map encodePair))
          (specCanonicalHeaders r.headers r.signedHeaders) (joinText ';' r.signedHeaders)
          (statedPayloadHash (r.bare r.params))) := by
  unfold headerStringToSign requestStringToSign
  rw [show (r.bare r.params).query = specQuery r.params from rfl, queryParams_specQuery,
    show (r.bare r.params).headers = r.headers from rfl, buildCanonicalHeaders_signed]
  rfl

end ClientRequest

/-! ## The canonical queries compared -/

variable (pair : String × String)

/-- Nothing in the pair has to be encoded, and the server does not drop it. -/
def PlainPair : Prop :=
  Plain (isUnreserved true) pair.1 ∧ Plain (isUnreserved true) pair.2 ∧ pair.1 ≠ "X-Amz-Signature"
  deriving Decidable

def pairSize : ℕ := size pair.1 + size pair.2

theorem encodePair_of_plain {pair : String × String} (h : PlainPair pair) : encodePair pair = pair :=
  Prod.ext (percentEncode_of_plain isUnreserved_ascii h.1)
    (percentEncode_of_plain isUnreserved_ascii h.2.1)

theorem pairSize_le_encodePair : pairSize pair ≤ pairSize (encodePair pair) :=
  Nat.add_le_add (size_le_percentEncode isUnreserved_ascii _)
    (size_le_percentEncode isUnreserved_ascii _)

section

variable {α : Type} {f g : α → ℕ} {l : List α} (hle : ∀ x ∈ l, f x ≤ g x)
include hle

theorem sum_map_le :
    (l.map f).sum ≤ (l.map g).sum := by
  induction l with
  | nil => simp
  | cons a l ih =>
    have htail := ih fun x hx => hle x (by simp [hx])
    have hhead := hle a (by simp)
    simp only [map_cons, sum_cons]
    omega

theorem eq_of_sum_eq (hsum : (l.map g).sum = (l.map f).sum) : ∀ x ∈ l, f x = g x := by
  induction l with
  | nil => simp
  | cons a l ih =>
    have htail := sum_map_le fun x hx => hle x (mem_cons_of_mem a hx)
    have hhead := hle a (by simp)
    simp only [map_cons, sum_cons] at hsum
    intro x hx
    rcases mem_cons.mp hx with rfl | hx
    · omega
    · exact ih (fun y hy => hle y (by simp [hy])) (by omega) x hx

end

variable {params : List (String × String)}

/-- **The server's canonical query is the client's iff there is nothing to encode.** Encoding twice
makes the pairs longer otherwise, and a dropped pair would be missing. -/
theorem buildCanonicalQuery_encoded_iff :
    buildCanonicalQuery (params.map encodePair) = specCanonicalQuery params ↔
      ∀ pair ∈ params, PlainPair pair := by
  constructor
  · intro h
    have hread : queryParams (specCanonicalQuery params) =
        sortPairs (params.map encodePair) := by
      apply queryParams_joinText
      intro pair hpair
      obtain ⟨p, -, rfl⟩ := mem_map.mp ((sortPairs_perm _).mem_iff.mp hpair)
      exact separable_encodePair p
    have hsort := congrArg queryParams h
    rw [queryParams_buildCanonicalQuery, hread] at hsort
    have hperm : ((coveredPairs (params.map encodePair)).map encodePair).Perm
        (params.map encodePair) :=
      (sortPairs_perm _).symm.trans (hsort ▸ sortPairs_perm _)
    -- nothing was dropped
    have hall : coveredPairs (params.map encodePair) = params.map encodePair := by
      apply filter_eq_self.mpr
      have hlen := hperm.length_eq
      rw [length_map] at hlen
      exact length_filter_eq_length_iff.mp hlen
    rw [hall] at hperm
    -- and nothing became longer
    have hsize := (hperm.map pairSize).sum_nat
    rw [map_map] at hsize
    have hequal := eq_of_sum_eq (fun x _ => pairSize_le_encodePair x) hsize
    intro pair hpair
    have hmem : encodePair pair ∈ params.map encodePair := mem_map_of_mem hpair
    have hpairSize : pairSize (encodePair pair) = pairSize (encodePair (encodePair pair)) :=
      hequal _ hmem
    have hle₁ := @size_le_percentEncode (isUnreserved true) isUnreserved_ascii
      (uriEncode pair.1 true)
    have hle₂ := @size_le_percentEncode (isUnreserved true) isUnreserved_ascii
      (uriEncode pair.2 true)
    simp only [pairSize, encodePair] at hpairSize
    have hplain₁ : Plain (isUnreserved true) pair.1 :=
      size_percentEncode_twice isUnreserved_ascii (isUnreserved_percent true)
        (by simp only [uriEncode] at hpairSize hle₁ hle₂ ⊢; omega)
    have hplain₂ : Plain (isUnreserved true) pair.2 :=
      size_percentEncode_twice isUnreserved_ascii (isUnreserved_percent true)
        (by simp only [uriEncode] at hpairSize hle₁ hle₂ ⊢; omega)
    have hname : (encodePair pair).1 ≠ "X-Amz-Signature" := by
      rw [← hall] at hmem
      simpa using (mem_filter.mp hmem).2
    refine ⟨hplain₁, hplain₂, ?_⟩
    rwa [encodePair, uriEncode, percentEncode_of_plain isUnreserved_ascii hplain₁] at hname
  · intro h
    have hmap : params.map encodePair = params := by
      rw [map_congr_left (fun pair hpair => encodePair_of_plain (h pair hpair)), map_id']
    have hfilter : (params.filter fun pair => pair.1 != "X-Amz-Signature") = params :=
      filter_eq_self.mpr fun pair hpair => by simpa using (h pair hpair).2.2
    rw [buildCanonicalQuery, specCanonicalQuery, hmap, hfilter, hmap]

/-! ## Acceptance -/

variable {hash : MacHash} {ctx : SigV4Context} {lookup : String → Option CredentialResult}
  {c : Client} {r : ClientRequest} {p : S3Principal}

theorem verifyRequest_header_iff (hstore : ctx.credStore = some lookup) :
    verifyRequest hash ctx (c.send hash r .header) = .ok (some p) ↔
      ∃ cred, lookup c.scope.accessKey = some cred ∧
        (∃ secret ∈ secrets cred, signatureFor hash secret c.scope
          (headerStringToSign hash (r.bare r.params) c.scope r.signedHeaders) =
            (r.authorization hash c).signature) ∧
        p = ⟨c.scope.accessKey, cred.principalAnchor⟩ := by
  have hlower : ∀ n ∈ r.signedHeaders, asciiLower n ≠ "authorization" := by
    intro n hn hauth
    have hpresent := r.present n hn
    rw [← r.lower n hn, hauth, r.unsigned] at hpresent
    cases hpresent
  exact @verifyRequest_withAuthorization _ _ _ hstore _ (r.authorization hash c) c.wellFormed
    r.headerNames (fieldText_signatureFor _ _ _ _) hlower p

theorem accepted_of_plain (hstore : ctx.credStore = some lookup) {cred : CredentialResult}
    (hcred : lookup c.scope.accessKey = some cred) (hsecret : c.secret ∈ secrets cred)
    (hdate : headerText r.headers "x-amz-date" = some r.datetime)
    (hplain : ∀ pair ∈ r.params, PlainPair pair) :
    verifyRequest hash ctx (c.send hash r .header) =
      .ok (some ⟨c.scope.accessKey, cred.principalAnchor⟩) := by
  rw [verifyRequest_header_iff hstore]
  refine ⟨cred, hcred, ⟨c.secret, hsecret, ?_⟩, rfl⟩
  rw [headerStringToSign_bare, hdate, buildCanonicalQuery_encoded_iff.mpr hplain]
  rfl

theorem plain_of_accepted (hmac : Function.Injective2 hash.hmacSha256)
    (hsha : Function.Injective hash.sha256) (h : verifyRequest hash ctx (c.send hash r .header) = .ok (some p)) :
    ∀ pair ∈ r.params, PlainPair pair := by
  cases hstore : ctx.credStore with
  | none => simp [verifyRequest, hstore] at h
  | some lookup =>
    obtain ⟨cred, -, ⟨secret, -, hsig⟩, -⟩ := (verifyRequest_header_iff hstore).mp h
    have hstring := textBytes_inj (hmac (hexEncode_inj hsig)).2
    rw [headerStringToSign_bare] at hstring
    have hrequest := textBytes_inj (hsha (buildStringToSign_inj hstring))
    exact buildCanonicalQuery_encoded_iff.mp
      (buildCanonicalRequest_query rfl rfl rfl rfl hrequest)

theorem mem_of_lastParam {name value : String}
    (h : lastParam params name = some value) : (name, value) ∈ params := by
  obtain ⟨pair, hfind, rfl⟩ := Option.map_eq_some_iff.mp h
  rw [findRev?_eq_find?_reverse] at hfind
  have hname : pair.1 = name := by simpa using find?_some hfind
  have hmem := mem_of_find?_eq_some hfind
  rw [← hname]
  simpa using hmem

theorem parseCredential_encoded (s message : String) : parseCredential (uriEncode s true) message =
      .error (.malformedAuth (message ++ uriEncode s true)) := by
  have hsplit : splitNText '/' 5 (uriEncode s true) = [uriEncode s true] := by
    rw [splitNText, splitN_of_notMem (slash_notMem_uriEncode s)]
    simp
  rw [parseCredential, hsplit]

/-- **No presigned URL of the specification is accepted.** -/
theorem presigned_not_accepted (hash : MacHash) (ctx : SigV4Context) (c : Client) (r : ClientRequest)
    (expiresSecs : ℕ) (p : S3Principal) :
    verifyRequest hash ctx (c.send hash r (.presigned expiresSecs)) ≠ .ok (some p) := by
  intro h
  cases hstore : ctx.credStore with
  | none => simp [verifyRequest, hstore] at h
  | some lookup =>
    have hauth : headerText (c.send hash r (.presigned expiresSecs)).headers "authorization" = none :=
      r.unsigned
    unfold verifyRequest at h
    simp only [hstore, hauth] at h
    split_ifs at h
    · rw [map_eq_ok] at h
      obtain ⟨q, hverify, -⟩ := h
      simp only [verifyPresigned, bind_eq_ok, mapError_eq_ok, parsePresignedUrl, need_eq_ok] at hverify
      obtain ⟨parsed, ⟨algo, -, -, -, cred, hcred, scope, hscope, -⟩, -⟩ := hverify
      have hmem := mem_of_lastParam hcred
      rw [Client.send, bare, queryParams_specQuery] at hmem
      obtain ⟨pair, -, hpair⟩ := mem_map.mp hmem
      obtain rfl : uriEncode pair.2 true = cred := congrArg Prod.snd hpair
      simp [parseCredential_encoded] at hscope
    · cases h

namespace SampleSigning

def client : Client := ⟨scope, "wJalrXUtnFEMI", wellFormed_scope⟩

def listing (params : List (String × String)) : ClientRequest where
  method := "GET"
  path := "/bucket"
  params
  headers := [⟨"host", some "kappa"⟩, ⟨"x-amz-date", some "20130524T000000Z"⟩]
  body := []
  datetime := "20130524T000000Z"
  signedHeaders := ["host"]
  headerNames := headerNames_host
  sorted := List.pairwise_singleton _ _
  lower := by decide
  present := by decide
  unsigned := rfl

end SampleSigning

end KappaRegistry
