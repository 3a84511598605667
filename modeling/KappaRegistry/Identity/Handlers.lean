import KappaRegistry.Akd
import KappaRegistry.Distribution.Edge
import KappaRegistry.Identity.Succession
import KappaRegistry.Store.Epoch

/-!
# The Identity Handlers

The seven writes of `kappa-module-identity/src/lib.rs`: assertions, revocations, watermarks,
successions, anchor specs, and bindings that are put and deleted. A handler reads a JSON body,
checks what it asks for, and then writes to the store; an assertion is also published in the
transparency directory if there is one.

`verified_signer` is the check that "every identity write that speaks for an anchor must be signed
by that anchor's key". The handlers for anchor specs and for bindings do not make it.

Signature schemes, hashes and codecs are parameters (`IdentityLibs`).
-/

namespace KappaRegistry

open Lib PersistentStore

/-- Ties an external identifier (`source`) to an anchor (`target`). -/
structure IdentityBinding where
  source : String
  target : String
  method : String
  trustLevel : UInt64
  verifiedAtMs : UInt64
  deriving DecidableEq

structure SignableAssertion where
  asserter : String
  subject : String
  facet : String
  value : Bytes
  basis : String
  validFromMs : UInt64
  validUntilMs : Option UInt64
  deriving DecidableEq

def IdentityAssertion.signable (a : IdentityAssertion) : SignableAssertion :=
  { asserter := a.asserter, subject := a.subject, facet := a.facet, value := a.value,
    basis := a.basis, validFromMs := a.validFromMs, validUntilMs := a.validUntilMs }

/-- What the handlers take from other crates. -/
structure IdentityLibs (D P : Type) where
  prim : Primitives
  codec : IdentityCodec
  serde : SerdeJson
  akd : Akd D P
  /-- `verifier_for(algorithm)?.verify(public_key, message, signature)`, with the texts of errors. -/
  verify : String → Bytes → Bytes → Bytes → Except String Bool
  /-- `canonical_bytes` of an `AnchorInput`: an algorithm and a public key. -/
  anchorBytes : String → Bytes → Bytes
  signableBytes : SignableAssertion → Bytes
  revocationBytes : Revocation → Bytes
  bindingBytes : IdentityBinding → Bytes
  /-- `serde_json::to_string` of a binding. -/
  bindingText : IdentityBinding → String
  /-- The member `target` of the JSON value that a text holds. -/
  bindingTarget : String → Option String
  leafBytes : EpochFields → Bytes
  /-- `derive_audience_label` of a subject and an audience. -/
  audienceLabel : String → String → String
  bindingTarget_text : ∀ binding, bindingTarget (bindingText binding) = some binding.target

/-- The state the handlers share. -/
structure IdentityApp (D : Type) where
  table : TableStore
  /-- `IDENTITY_BINDINGS`: JSON texts by source. -/
  bindings : Multimap String String
  /-- The transparency directory, if one is registered. -/
  directory : Option D

/-- A response to a request that succeeded. -/
structure Reply where
  status : ℕ
  body : Option Json

variable {D P : Type}

namespace IdentityApp

def store (app : IdentityApp D) : PersistentStore := app.table.store

def withStore (app : IdentityApp D) (s : PersistentStore) : IdentityApp D :=
  { app with table := { app.table with store := s } }

end IdentityApp

/-! ## Reading a request -/

variable (v : Json) (field : String)

/-- `v[field].as_str()`. -/
def strField : Option String := (v.get field).bind Json.asStr

/-- `v[field].as_u64()`. -/
def u64Field : Option UInt64 :=
  ((v.get field).bind (Json.asUnsigned u64Max)).map UInt64.ofNat

def needField : Except String String :=
  need (strField v field) ("missing " ++ field)

def hexField : Except String Bytes := do
  let hex ← needField v field
  (hexDecode hex).mapError fun _ => "invalid " ++ field ++ " hex"

def identityStoreErr : StoreError → HttpError
  | .notFound _ => ⟨404, none, "not found"⟩
  | .conflict message => badRequest ("conflict: " ++ message)
  | .rejected message => badRequest ("rejected: " ++ message)
  | .io message => badRequest ("io error: " ++ message)
  | .canonical message => badRequest ("canonical error: " ++ message)

def PersistentStore.assertionIndexPut (s : PersistentStore) (subject facet kappa : String) :
    PersistentStore :=
  { s with assertionInbound := s.assertionInbound.add (dbKey subject facet) kappa }

namespace IdentityLibs

variable (L : IdentityLibs D P)

/-! ## Signers -/

def computeAnchor (algorithm : String) (publicKey : Bytes) : String :=
  L.prim.kappaFromBytes (L.anchorBytes algorithm publicKey)

/-- `asserter_from_signature`: the anchor of the key, if the signature is valid. -/
def asserterFromSignature (algorithm : String) (publicKey message signature : Bytes) :
    Except String String := do
  let valid ← L.verify algorithm publicKey message signature
  ensure (valid = true) "invalid signature"
  return L.computeAnchor algorithm publicKey

variable (app : IdentityApp D) (body : Bytes) (nowMs : UInt64) (v : Json) (spec : AnchorSpec)

/-- `verified_signer`: the anchor of the key in `keyField` and the signature in `signatureField`,
if that is one of `message`. -/
def verifiedSigner (keyField signatureField : String) (message : Bytes) :
    Except String (String × Bytes) := do
  let algorithm ← needField v "algorithm"
  let publicKey ← hexField v keyField
  let signature ← hexField v signatureField
  let anchor ← (L.asserterFromSignature algorithm publicKey message signature).mapError fun e =>
    "signature verification failed: " ++ e
  return (anchor, signature)

def jsonBody : Except HttpError Json :=
  need (L.serde.fromSlice body) (badRequest "invalid JSON")

/-! ## Writes -/

/-- Records a change in the epochs of a namespace, after the writes that led to `s`. If the epoch never
ends, neither does the request, and the answer is not sent. -/
def advance (s : PersistentStore) (ns : String) (mutation : EpochMutation)
    (nowMs : ℕ) : Except StoreError Unit × IdentityApp D :=
  match { app.table with store := s }.epochAdvance L.prim L.leafBytes ns [mutation] nowMs with
  | .error e => (.error e, app.withStore s)
  | .ok none => (.ok (), app.withStore s)
  | .ok (some (_, table)) => (.ok (), { app with table })

def akdNamespace : String := "_akd/identity"

/-- Publishes a label in the directory; a failure is only logged. -/
def publishLabel (label kappa : String) : IdentityApp D :=
  match app.directory with
  | none => app
  | some directory =>
    let manager : AkdManager D := { directory, store := app.store, ns := akdNamespace }
    let manager := (manager.publish L.akd L.prim [(textBytes label, textBytes kappa)]).2
    { app.withStore manager.store with directory := some manager.directory }

/-- Runs a write on what a body was read as, and turns its outcome into a response. -/
def respond {α : Type} (app : IdentityApp D) (plan : Except HttpError α)
    (write : α → Except StoreError Reply × IdentityApp D) :
    Except HttpError Reply × IdentityApp D :=
  match plan with
  | .error e => (.error e, app)
  | .ok a => ((write a).1.mapError identityStoreErr, (write a).2)

/-- `201 Created` with one text. -/
def created (field value : String) : Reply := ⟨201, some (.obj [(field, .str value)])⟩


/-! ## Assert -/

/-- The algorithm, the public key and the assertion of a request, which does not say who asserts. -/
def assertionOf : Except String (String × Bytes × IdentityAssertion) := do
  let algorithm ← needField v "algorithm"
  let publicKey ← hexField v "public_key"
  let subject ← needField v "subject"
  let facet ← needField v "facet"
  let text := (strField v "value").getD ""
  let signature ← hexField v "signature"
  return (algorithm, publicKey,
    { asserter := ""
      subject
      facet
      -- a value that is not hexadecimal is taken as it is
      value := (hexDecode text).toOption.getD (textBytes text)
      basis := (strField v "basis").getD "self-asserted"
      validFromMs := (u64Field v "valid_from_ms").getD 0
      validUntilMs := u64Field v "valid_until_ms"
      signature })

/-- The directory's label of an assertion: under its subject, or under the pseudonym that the
subject has for an audience. -/
def akdLabel (assertion : IdentityAssertion) : String :=
  match strField v "audience" with
  | some audience => L.audienceLabel assertion.subject audience ++ "/" ++ assertion.facet
  | none => assertion.subject ++ "/" ++ assertion.facet

def assertPlan : Except HttpError (IdentityAssertion × String) := do
  let v ← L.jsonBody body
  let (algorithm, publicKey, assertion) ← (assertionOf v).mapError badRequest
  let asserter ← (L.asserterFromSignature algorithm publicKey
    (L.signableBytes assertion.signable) assertion.signature).mapError fun e =>
      badRequest ("signature verification failed: " ++ e)
  return ({ assertion with asserter }, L.akdLabel v assertion)

def assertWrite (assertion : IdentityAssertion)
    (label : String) : Except StoreError Reply × IdentityApp D :=
  let bytes := L.codec.assertion.bytes assertion
  let kappa := L.prim.kappaFromBytes bytes
  let ns := (NamespaceRef.deterministic L.prim assertion.asserter).asStr
  let tagName := "assertion/" ++ kappa
  let s := app.store.blobPut kappa bytes
  let s := s.tagSet ns tagName kappa
  let s := s.assertionIndexPut assertion.subject assertion.facet kappa
  let s := s.edgePut L.prim ns
    { source := ns, target := assertion.subject, relation := .assertion, asserter := ns,
      valueKappa := some kappa, metadata := none }
  let (result, app) := L.advance app s ns
    { op := .assertionPublish, ns, tagName, oldKappa := none, newKappa := some kappa } nowMs.toNat
  match result with
  | .error e => (.error e, app)
  | .ok () => (.ok (created "kappa" kappa), L.publishLabel app label kappa)

def assertHandler (body : Bytes) : Except HttpError Reply × IdentityApp D :=
  respond app (L.assertPlan body) fun plan => L.assertWrite app nowMs plan.1 plan.2

/-! ## Revoke -/

def revocationReason (text : String) : RevocationReason :=
  match text with
  | "key-compromise" => .keyCompromise
  | "erroneous" => .erroneous
  | "privilege-withdrawn" => .privilegeWithdrawn
  | "cessation-of-operation" => .cessationOfOperation
  | _ => .superseded

/-- The revocation of a request, without its asserter and its signature. -/
def revocationOf : Except String Revocation := do
  let assertionKappa ← needField v "assertion_kappa"
  return {
    asserter := ""
    assertionKappa
    reason := revocationReason ((strField v "reason").getD "superseded")
    revokedAtMs := (u64Field v "revoked_at_ms").getD 0
    signature := [] }

/-- The asserter that a request states, if it states one, has to be the signer. -/
def checkAsserter (asserter : String) : Except String Unit :=
  ensure (∀ stated ∈ strField v "asserter", stated = asserter)
    "asserter does not match signing key"

def revokePlan : Except HttpError Revocation := do
  let v ← L.jsonBody body
  let revocation ← (revocationOf v).mapError badRequest
  let (asserter, signature) ← (L.verifiedSigner v "public_key" "signature"
    (L.revocationBytes revocation)).mapError badRequest
  (checkAsserter v asserter).mapError badRequest
  return { revocation with asserter, signature }

def revokeWrite (revocation : Revocation) : Except StoreError Reply × IdentityApp D :=
  let bytes := L.revocationBytes revocation
  let kappa := L.prim.kappaFromBytes bytes
  let ns := (NamespaceRef.deterministic L.prim revocation.asserter).asStr
  let tagName := "revocation/" ++ kappa
  let s := app.store.blobPut kappa bytes
  let s := s.tagSet ns tagName kappa
  let s := s.edgePut L.prim ns
    { source := ns, target := revocation.assertionKappa, relation := .revocation, asserter := ns,
      valueKappa := some kappa, metadata := none }
  let (result, app) := L.advance app s ns
    { op := .revocationPublish, ns, tagName, oldKappa := none, newKappa := some kappa } nowMs.toNat
  (result.map fun () => created "kappa" kappa, app)

def revokeHandler (body : Bytes) : Except HttpError Reply × IdentityApp D :=
  respond app (L.revokePlan body) (L.revokeWrite app nowMs)

/-! ## Watermark -/

/-- The watermark of a request, without its asserter. -/
def watermarkOf : Except String Watermark := do
  let invalidateBeforeMs ← need (u64Field v "invalidate_before_ms") "missing invalidate_before_ms"
  return {
    asserter := ""
    invalidateBeforeMs
    reason := (strField v "reason").getD "unspecified"
    setAtMs := (u64Field v "set_at_ms").getD 0 }

def watermarkPlan : Except HttpError Watermark := do
  let v ← L.jsonBody body
  let watermark ← (watermarkOf v).mapError badRequest
  let (asserter, _) ← (L.verifiedSigner v "public_key" "signature"
    (L.codec.watermark.bytes watermark)).mapError badRequest
  (checkAsserter v asserter).mapError badRequest
  return { watermark with asserter }

def watermarkWrite (watermark : Watermark) : Except StoreError Reply × IdentityApp D :=
  let bytes := L.codec.watermark.bytes watermark
  let kappa := L.prim.kappaFromBytes bytes
  let ns := (NamespaceRef.deterministic L.prim watermark.asserter).asStr
  let tagName := watermarkTag kappa
  let s := app.store.blobPut kappa bytes
  let s := s.tagSet ns tagName kappa
  let (result, app) := L.advance app s ns
    { op := .revocationPublish, ns, tagName, oldKappa := none, newKappa := some kappa } nowMs.toNat
  (result.map fun () => created "kappa" kappa, app)

def watermarkHandler (body : Bytes) : Except HttpError Reply × IdentityApp D :=
  respond app (L.watermarkPlan body) (L.watermarkWrite app nowMs)

/-! ## Succession -/

/-- The succession of a request, without its signatures. -/
def successionOf : Except String IdentitySuccession := do
  let oldAnchor ← needField v "old_anchor"
  let newAnchor ← needField v "new_anchor"
  return {
    oldAnchor
    newAnchor
    reason := (strField v "reason").getD "rotation"
    effectiveAtMs := (u64Field v "effective_at_ms").getD 0
    oldSignature := []
    newSignature := [] }

/-- Both keys sign: the old one approves, the new one accepts. -/
def successionPlan : Except HttpError IdentitySuccession := do
  let v ← L.jsonBody body
  let succession ← (successionOf v).mapError badRequest
  let message := L.codec.successionBytes succession
  let (oldSigner, oldSignature) ← (L.verifiedSigner v "old_public_key" "old_signature"
    message).mapError badRequest
  let (newSigner, newSignature) ← (L.verifiedSigner v "new_public_key" "new_signature"
    message).mapError badRequest
  ensure (oldSigner = succession.oldAnchor) (badRequest "old_signature is not from old_anchor")
  ensure (newSigner = succession.newAnchor) (badRequest "new_signature is not from new_anchor")
  return { succession with oldSignature, newSignature }

def successionWrite (succession : IdentitySuccession) : Except StoreError Reply × IdentityApp D :=
  match app.store.identitySuccessionPut L.prim L.codec nowMs succession with
  | .error e => (.error e, app)
  | .ok (kappa, s) => (.ok (created "kappa" kappa), app.withStore s)

def successionPutHandler (body : Bytes) : Except HttpError Reply × IdentityApp D :=
  respond app (L.successionPlan body) (L.successionWrite app nowMs)

/-! ## Anchor registration -/

/-- The algorithm, the key and the endpoint that a request registers. -/
structure AnchorSpec where
  algorithm : String
  publicKeyHex : String
  publicKey : Bytes
  endpoint : String

def anchorSpecOf : Except String AnchorSpec := do
  let algorithm ← needField v "algorithm"
  let publicKeyHex ← needField v "public_key"
  let publicKey ← hexField v "public_key"
  return { algorithm, publicKeyHex, publicKey, endpoint := (strField v "endpoint").getD "" }

def anchorPlan : Except HttpError AnchorSpec := do
  let v ← L.jsonBody body
  (anchorSpecOf v).mapError badRequest

/-- `anchor_from_key_str`. -/
def anchorOfSpec : String := L.computeAnchor spec.algorithm spec.publicKey

/-- The blob of a spec; the members of a JSON value are in the order of their names. -/
def specBytes : Bytes :=
  L.serde.toVec (.obj [("algorithm", .str spec.algorithm), ("anchor", .str (L.anchorOfSpec spec)),
    ("endpoint", .str spec.endpoint), ("public_key", .str spec.publicKeyHex)])

def specKappa : String := L.prim.kappaFromBytes (L.specBytes spec)

def anchorWrite : Except StoreError Reply × IdentityApp D :=
  let anchor := L.anchorOfSpec spec
  let kappa := L.specKappa spec
  let ns := (NamespaceRef.deterministic L.prim anchor).asStr
  let s := app.store.blobPut kappa (L.specBytes spec)
  let s := s.tagSet ns "anchor/spec" kappa
  let s := if spec.endpoint ≠ "" then s.tagSet ns "anchor/endpoint" kappa else s
  (.ok (created "anchor" anchor), app.withStore s)

def anchorHandler : Except HttpError Reply × IdentityApp D :=
  respond app (L.anchorPlan body) (L.anchorWrite app)

/-! ## Bindings -/

def bindingOf : Except String IdentityBinding := do
  let source ← needField v "source"
  let target ← needField v "target"
  return {
    source
    target
    method := (strField v "method").getD "self-asserted"
    trustLevel := (u64Field v "trust_level").getD 1
    verifiedAtMs := (u64Field v "verified_at_ms").getD 0 }

def bindingPlan : Except HttpError IdentityBinding := do
  let v ← L.jsonBody body
  (bindingOf v).mapError badRequest

def bindsTo (target text : String) : Bool := L.bindingTarget text == some target

def bindingsTo (source target : String) : List String :=
  (app.bindings.values source).filter (L.bindsTo target)

/-- `identity_binding_put`: the first text with the same source and target is replaced. -/
def identityBindingPut (binding : IdentityBinding) : IdentityApp D :=
  let text := L.bindingText binding
  match (app.bindings.values binding.source).find? (L.bindsTo binding.target) with
  | some old =>
    if old = text then app
    else { app with bindings := (app.bindings.remove binding.source old).add binding.source text }
  | none => { app with bindings := app.bindings.add binding.source text }

/-- `identity_binding_delete`: all texts with the source and the target go. -/
def identityBindingDelete (source target : String) : IdentityApp D :=
  { app with
    bindings := (L.bindingsTo app source target).foldl (fun m text => m.remove source text)
      app.bindings }

def bindingPutHandler : Except HttpError Reply × IdentityApp D :=
  respond app (L.bindingPlan body) fun binding =>
    (.ok (created "kappa" (L.prim.kappaFromBytes (L.bindingBytes binding))),
      L.identityBindingPut app binding)

def unbindPlan : Except HttpError (String × String) := do
  let v ← L.jsonBody body
  let source ← (needField v "source").mapError badRequest
  let target ← (needField v "target").mapError badRequest
  return (source, target)

def bindingDeleteHandler : Except HttpError Reply × IdentityApp D :=
  respond app (L.unbindPlan body) fun plan =>
    (.ok ⟨204, none⟩, L.identityBindingDelete app plan.1 plan.2)

end IdentityLibs

/-! ## Requests -/

/-- The writes of the identity module. -/
inductive IdentityRequest where
  | assert
  | revoke
  | watermark
  | succession
  | anchor
  | bindingPut
  | bindingDelete
  deriving DecidableEq

def IdentityRequest.handle (request : IdentityRequest) (L : IdentityLibs D P) (app : IdentityApp D)
    (nowMs : UInt64) (body : Bytes) : Except HttpError Reply × IdentityApp D :=
  match request with
  | .assert => L.assertHandler app nowMs body
  | .revoke => L.revokeHandler app nowMs body
  | .watermark => L.watermarkHandler app nowMs body
  | .succession => L.successionPutHandler app nowMs body
  | .anchor => L.anchorHandler app body
  | .bindingPut => L.bindingPutHandler app body
  | .bindingDelete => L.bindingDeleteHandler app body

end KappaRegistry
