import KappaRegistry.Identity.Frame
import KappaRegistry.Json.Text

/-!
# Whose Signature an Identity Write Carries

A request that changes what is stored for an anchor should carry a signature of that anchor's key.
A request touches one anchor at most. For assertions, revocations, watermarks and successions that
anchor is the one that `verified_signer` returned. The other three handlers take it from the
request: **`identityWrite_signed_iff`** says for every request when the property holds.
-/

namespace KappaRegistry

open Lib PersistentStore

variable {D P : Type}

namespace IdentityLibs

variable (L : IdentityLibs D P)

/-! ## Signers -/

/-- The message that a request of this kind has to be signed over; some kinds have none. -/
def signedMessage (request : IdentityRequest) (v : Json) : Option Bytes :=
  match request with
  | .assert => (assertionOf v).toOption.map fun parts => L.signableBytes parts.2.2.signable
  | .revoke => (revocationOf v).toOption.map L.revocationBytes
  | .watermark => (watermarkOf v).toOption.map L.codec.watermark.bytes
  | .succession => (successionOf v).toOption.map L.codec.successionBytes
  | .anchor | .bindingPut | .bindingDelete => none

/-- The body carries a signature that verifies under a public key whose anchor is `anchor`: of the
message that the request has to be signed over, and of any message if it has none. -/
def Signs (request : IdentityRequest) (body : Bytes) (anchor : String) : Prop :=
  ∃ v keyField signatureField message signature, L.serde.fromSlice body = some v ∧
    (∀ m, L.signedMessage request v = some m → message = m) ∧
    L.verifiedSigner v keyField signatureField message = .ok (anchor, signature)

variable {L} {anchor : String} {message signature : Bytes}

theorem asserterFromSignature_eq_ok {algorithm : String} {publicKey : Bytes} :
    L.asserterFromSignature algorithm publicKey message signature = .ok anchor ↔
      L.verify algorithm publicKey message signature = .ok true ∧
        L.computeAnchor algorithm publicKey = anchor := by
  simp only [asserterFromSignature, bind_eq_ok, ensure_eq_ok, pure_eq_ok]
  constructor
  · rintro ⟨valid, hverify, u, rfl, heq⟩
    exact ⟨hverify, heq⟩
  · intro h
    exact ⟨true, h.1, (), rfl, h.2⟩

theorem verifiedSigner_isAnchor {v : Json} {keyField signatureField : String}
    (h : L.verifiedSigner v keyField signatureField message = .ok (anchor, signature)) :
    L.IsAnchor anchor := by
  simp only [verifiedSigner, bind_eq_ok, mapError_eq_ok, asserterFromSignature_eq_ok, pure_eq_ok,
    Prod.mk.injEq] at h
  obtain ⟨algorithm, -, publicKey, -, sig, -, signer, ⟨-, hsigner⟩, rfl, -⟩ := h
  exact ⟨algorithm, publicKey, hsigner.symm⟩

variable {request : IdentityRequest} {body : Bytes}

theorem Signs.isAnchor (h : L.Signs request body anchor) : L.IsAnchor anchor := by
  obtain ⟨v, keyField, signatureField, message, signature, -, -, hsigner⟩ := h
  exact verifiedSigner_isAnchor hsigner

theorem jsonBody_eq_ok {v : Json} : L.jsonBody body = .ok v ↔ L.serde.fromSlice body = some v :=
  need_eq_ok

/-! ## The requests that are signed -/

theorem assertPlan_signs {assertion : IdentityAssertion} {label : String}
    (h : L.assertPlan body = .ok (assertion, label)) : L.Signs .assert body assertion.asserter := by
  simp only [assertPlan, bind_eq_ok, jsonBody_eq_ok, mapError_eq_ok, pure_eq_ok, Prod.mk.injEq] at h
  obtain ⟨v, hv, ⟨algorithm, publicKey, unsigned⟩, hparts, asserter, hasserter, rfl, -⟩ := h
  refine ⟨v, "public_key", "signature", L.signableBytes unsigned.signable, unsigned.signature, hv,
    ?_, ?_⟩
  · intro m hm
    simp only [signedMessage, hparts] at hm
    exact Option.some.inj hm
  · -- the handler reads the fields that `verifiedSigner` reads
    simp only [assertionOf, bind_eq_ok, pure_eq_ok, Prod.mk.injEq] at hparts
    obtain ⟨alg, halg, key, hkey, _, -, _, -, signature, hsignature, rfl, rfl, rfl⟩ := hparts
    simp only [verifiedSigner, bind_eq_ok, mapError_eq_ok, pure_eq_ok, Prod.mk.injEq]
    exact ⟨alg, halg, key, hkey, signature, hsignature, asserter, hasserter, rfl, rfl⟩

theorem revokePlan_signs {revocation : Revocation}
    (h : L.revokePlan body = .ok revocation) : L.Signs .revoke body revocation.asserter := by
  simp only [revokePlan, bind_eq_ok, jsonBody_eq_ok, mapError_eq_ok, pure_eq_ok] at h
  obtain ⟨v, hv, unsigned, hparts, ⟨asserter, signature⟩, hsigner, u, -, rfl⟩ := h
  refine ⟨v, "public_key", "signature", L.revocationBytes unsigned, signature, hv, ?_, hsigner⟩
  intro m hm
  simp only [signedMessage, hparts] at hm
  exact Option.some.inj hm

theorem watermarkPlan_signs {watermark : Watermark}
    (h : L.watermarkPlan body = .ok watermark) : L.Signs .watermark body watermark.asserter := by
  simp only [watermarkPlan, bind_eq_ok, jsonBody_eq_ok, mapError_eq_ok, pure_eq_ok] at h
  obtain ⟨v, hv, unsigned, hparts, ⟨asserter, signature⟩, hsigner, u, -, rfl⟩ := h
  refine ⟨v, "public_key", "signature", L.codec.watermark.bytes unsigned, signature, hv, ?_, hsigner⟩
  intro m hm
  simp only [signedMessage, hparts] at hm
  exact Option.some.inj hm

theorem successionPlan_signs {succession : IdentitySuccession}
    (h : L.successionPlan body = .ok succession) : L.Signs .succession body succession.oldAnchor := by
  simp only [successionPlan, bind_eq_ok, jsonBody_eq_ok, mapError_eq_ok, ensure_eq_ok,
    pure_eq_ok] at h
  obtain ⟨v, hv, unsigned, hparts, ⟨oldSigner, oldSignature⟩, hsigner, new, -, u, hold, u', -, rfl⟩ := h
  refine ⟨v, "old_public_key", "old_signature", L.codec.successionBytes unsigned, oldSignature, hv,
    ?_, ?_⟩
  · intro m hm
    simp only [signedMessage, hparts] at hm
    exact Option.some.inj hm
  · rwa [← hold]

/-! ## All requests -/

variable {app : IdentityApp D}

/-- A request that can touch one anchor only is signed by the anchors it touches iff it is signed by
that one, or does not touch it. -/
theorem signed_iff_of_owner {app' : IdentityApp D} {owner : String}
    (hothers : ∀ anchor, L.IsAnchor anchor → owner ≠ anchor → L.Untouched anchor app app') :
    (∀ anchor, L.IsAnchor anchor → ¬ L.Untouched anchor app app' → L.Signs request body anchor) ↔
      ¬ L.IsAnchor owner ∨ L.Untouched owner app app' ∨ L.Signs request body owner := by
  constructor
  · intro h
    by_cases howner : L.IsAnchor owner
    · by_cases huntouched : L.Untouched owner app app'
      · exact .inr (.inl huntouched)
      · exact .inr (.inr (h owner howner huntouched))
    · exact .inl howner
  · intro h anchor hanchor htouched
    by_cases howner : owner = anchor
    · subst howner
      exact (h.resolve_left (not_not_intro hanchor)).resolve_left htouched
    · exact absurd (hothers anchor hanchor howner) htouched

section

variable {α : Type} {plan : Except HttpError α}
  {write : α → Except StoreError Reply × IdentityApp D} (owner : α → String)

theorem respond_signed_iff
    (hothers : ∀ a, plan = .ok a → ∀ anchor, L.IsAnchor anchor → owner a ≠ anchor →
      L.Untouched anchor app (write a).2) :
    (∀ anchor, L.IsAnchor anchor → ¬ L.Untouched anchor app (respond app plan write).2 →
        L.Signs request body anchor) ↔
      ∀ a, plan = .ok a → ¬ L.IsAnchor (owner a) ∨ L.Untouched (owner a) app (write a).2 ∨
        L.Signs request body (owner a) := by
  cases plan with
  | error e =>
    refine iff_of_true ?_ (fun a hplan => nomatch hplan)
    intro anchor _ htouched
    exact absurd (.refl anchor app) htouched
  | ok a =>
    refine (signed_iff_of_owner (hothers a rfl)).trans ⟨?_, fun h => h a rfl⟩
    intro h a' hplan
    cases hplan
    exact h

theorem respond_signed (hsigns : ∀ a, plan = .ok a → L.Signs request body (owner a))
    (hothers : ∀ a, plan = .ok a → ∀ anchor, L.IsAnchor anchor → owner a ≠ anchor →
      L.Untouched anchor app (write a).2) (anchor : String) (hanchor : L.IsAnchor anchor)
    (htouched : ¬ L.Untouched anchor app (respond app plan write).2) :
    L.Signs request body anchor :=
  (respond_signed_iff owner hothers).mpr (fun a hplan => .inr (.inr (hsigns a hplan))) anchor hanchor
    htouched

end

variable (L) in
/-- The request of an unsigned kind is refused, or it is not about an anchor, or all is stored as it
asks, or it happens to carry a signature of the anchor it is about. -/
def SignedOrIdle (request : IdentityRequest) (body : Bytes) (app : IdentityApp D) : Prop :=
  match request with
  | .assert | .revoke | .watermark | .succession => True
  | .anchor => ∀ spec, L.anchorPlan body = .ok spec →
      L.HoldsSpec app spec ∨ L.Signs .anchor body (L.anchorOfSpec spec)
  | .bindingPut => ∀ binding, L.bindingPlan body = .ok binding →
      ¬ L.IsAnchor binding.target ∨
        (app.bindings.values binding.source).find? (L.bindsTo binding.target) =
          some (L.bindingText binding) ∨
        L.Signs .bindingPut body binding.target
  | .bindingDelete => ∀ source target, L.unbindPlan body = .ok (source, target) →
      ¬ L.IsAnchor target ∨ L.bindingsTo app source target = [] ∨
        L.Signs .bindingDelete body target

end IdentityLibs

open IdentityLibs in
/-- **When an identity write is signed by the anchors it speaks for.** -/
theorem identityWrite_signed_iff {L : IdentityLibs D P} (hlabel : LabelShape L.prim)
    (request : IdentityRequest) (app : IdentityApp D) (nowMs : UInt64) (body : Bytes) :
    (∀ anchor, L.IsAnchor anchor →
        ¬ L.Untouched anchor app (request.handle L app nowMs body).2 →
        L.Signs request body anchor) ↔
      L.SignedOrIdle request body app := by
  cases request with
  | assert =>
    refine iff_of_true (respond_signed (fun plan => plan.1.asserter) ?_ ?_) trivial
    · intro plan hplan
      exact assertPlan_signs hplan
    · intro plan hplan anchor hanchor hne
      exact assertWrite_untouched hlabel hanchor nowMs (assertPlan_signs hplan).isAnchor hne plan.2
  | revoke =>
    refine iff_of_true (respond_signed Revocation.asserter ?_ ?_) trivial
    · intro revocation hplan
      exact revokePlan_signs hplan
    · intro revocation hplan anchor hanchor hne
      exact revokeWrite_untouched hlabel hanchor nowMs (revokePlan_signs hplan).isAnchor hne
  | watermark =>
    refine iff_of_true (respond_signed Watermark.asserter ?_ ?_) trivial
    · intro watermark hplan
      exact watermarkPlan_signs hplan
    · intro watermark hplan anchor hanchor hne
      exact watermarkWrite_untouched hlabel hanchor nowMs (watermarkPlan_signs hplan).isAnchor hne
  | succession =>
    refine iff_of_true (respond_signed IdentitySuccession.oldAnchor ?_ ?_) trivial
    · intro succession hplan
      exact successionPlan_signs hplan
    · intro succession hplan anchor hanchor hne
      exact successionWrite_untouched hlabel hanchor nowMs (successionPlan_signs hplan).isAnchor hne
  | anchor =>
    refine (respond_signed_iff L.anchorOfSpec ?_).trans ?_
    · intro spec _ anchor hanchor hne
      exact anchorWrite_untouched hlabel hanchor hne
    · refine forall₂_congr ?_
      intro spec _
      rw [anchorWrite_untouched_iff hlabel, or_iff_right (not_not_intro (isAnchor_anchorOfSpec spec))]
  | bindingPut =>
    refine (respond_signed_iff IdentityBinding.target ?_).trans ?_
    · intro binding _ anchor _ hne
      exact identityBindingPut_untouched_iff.mpr (.inl hne)
    · refine forall₂_congr ?_
      intro binding _
      rw [identityBindingPut_untouched_iff, or_iff_right (not_not_intro rfl)]
  | bindingDelete =>
    refine (respond_signed_iff Prod.snd ?_).trans ?_
    · intro plan _ anchor _ hne
      exact identityBindingDelete_untouched_iff.mpr (.inl hne)
    · refine Prod.forall.trans (forall₃_congr ?_)
      intro source target _
      rw [identityBindingDelete_untouched_iff, or_iff_right (not_not_intro rfl)]

/-! ## Concrete requests -/

open SampleCodec in
/-- The toy signature of a message: a checksum of the public key and the message. -/
def sampleSignature (publicKey message : Bytes) : Bytes :=
  putNat 8 (checksum ((publicKey ++ message).map UInt8.toNat))

open SampleCodec in
def IdentityLibs.sample : IdentityLibs (List (Bytes × Bytes)) (Bytes × Bytes) where
  prim := .sample
  codec := .sample
  serde := .text
  akd := .sample
  verify _ publicKey message signature := .ok (signature == sampleSignature publicKey message)
  anchorBytes algorithm publicKey := putText algorithm ++ publicKey
  signableBytes a := putAssertion
    { asserter := a.asserter, subject := a.subject, facet := a.facet, value := a.value,
      basis := a.basis, validFromMs := a.validFromMs, validUntilMs := a.validUntilMs,
      signature := [] }
  revocationBytes r := putText r.asserter ++ (putText r.assertionKappa ++
    (putText (reprStr r.reason) ++ (putU64 r.revokedAtMs ++ putBytes r.signature)))
  bindingBytes b := putText b.target ++ (putText b.source ++ (putText b.method ++
    (putU64 b.trustLevel ++ putU64 b.verifiedAtMs)))
  bindingText b := hexEncode (putText b.target ++ (putText b.source ++ (putText b.method ++
    (putU64 b.trustLevel ++ putU64 b.verifiedAtMs))))
  bindingTarget text := (hexDecode text).toOption.bind fun bytes => (getText bytes).map Prod.fst
  leafBytes fields := putText fields.ns ++ putNat 8 fields.epochNumber
  audienceLabel subject audience := subject ++ ":" ++ audience
  bindingTarget_text b := by
    rw [hexDecode_hexEncode]
    show (getText (putText b.target ++ _)).map Prod.fst = some b.target
    rw [getText_putText]
    rfl

theorem labelShape_sample : LabelShape .sample := by
  intro bytes
  refine ⟨_, rfl, ?_⟩
  show '\x00' ∉ (toString _).toList
  rw [Nat.toString_eq_ofList_toDigits, String.toList_ofList]
  intro hmem
  have hdigit := Nat.isDigit_of_mem_toDigits (by decide) (by decide) hmem
  revert hdigit
  decide

namespace SampleIdentity

def alice : String := IdentityLibs.sample.computeAnchor "ed25519" [1, 2, 3]

def empty : IdentityApp (List (Bytes × Bytes)) := ⟨.new false, ∅, none⟩

/-- A request that binds an address to an anchor, and says nothing about a key. -/
def unsignedBinding : Bytes :=
  textBytes ("\x7b\"source\":\"mallory@example.org\",\"target\":\"" ++ alice ++ "\"\x7d")

def signedWatermark : Bytes :=
  textBytes ("\x7b\"invalidate_before_ms\":5,\"algorithm\":\"ed25519\",\"public_key\":\"0102\"," ++
    "\"signature\":\"" ++ hexEncode (sampleSignature [1, 2]
      (SampleCodec.putWatermark ⟨"", 5, "unspecified", 0⟩)) ++ "\"\x7d")

end SampleIdentity

open SampleIdentity in
/-- A watermark that its asserter signed. -/
theorem identityWrite_signed_watermark :
    (∀ anchor, IdentityLibs.sample.IsAnchor anchor →
      ¬ IdentityLibs.sample.Untouched anchor empty
        (IdentityRequest.watermark.handle .sample empty 7 signedWatermark).2 →
      IdentityLibs.sample.Signs .watermark signedWatermark anchor) ∧
    (IdentityRequest.watermark.handle .sample empty 7 signedWatermark).1.isOk = true :=
  ⟨(identityWrite_signed_iff labelShape_sample .watermark empty 7 signedWatermark).mpr trivial,
    by decide +kernel⟩

theorem bindingPut_state {L : IdentityLibs D P} {app : IdentityApp D} {nowMs : UInt64} {body : Bytes}
    {binding : IdentityBinding} (h : L.bindingPlan body = .ok binding) :
    (IdentityRequest.bindingPut.handle L app nowMs body).2 = L.identityBindingPut app binding := by
  show (IdentityLibs.respond app (L.bindingPlan body) _).2 = _
  rw [h]
  rfl

open SampleIdentity in
/-- **Anyone can bind an identifier to someone's anchor**: the request carries no signature. -/
theorem bindingPut_unsigned :
    IdentityLibs.sample.IsAnchor alice ∧
      ¬ IdentityLibs.sample.Untouched alice empty
        (IdentityRequest.bindingPut.handle .sample empty 0 unsignedBinding).2 ∧
      ¬ IdentityLibs.sample.Signs .bindingPut unsignedBinding alice := by
  refine ⟨⟨"ed25519", [1, 2, 3], rfl⟩, ?_, ?_⟩
  · intro h
    have hread : (IdentityLibs.sample.bindingPlan unsignedBinding).toOption.map
        IdentityBinding.target = some alice := by
      decide +kernel
    obtain ⟨binding, hbinding, htarget⟩ := Option.map_eq_some_iff.mp hread
    have hplan : IdentityLibs.sample.bindingPlan unsignedBinding = .ok binding :=
      toOption_eq_some.mp hbinding
    rw [bindingPut_state hplan, IdentityLibs.identityBindingPut_untouched_iff] at h
    have hfound := h.resolve_left (not_not_intro htarget)
    simp [show empty.bindings = ∅ from rfl, Multimap.values_empty] at hfound
  · rintro ⟨v, keyField, signatureField, message, signature, hv, -, hsigner⟩
    have halgorithm : (IdentityLibs.sample.serde.fromSlice unsignedBinding).bind
        (strField · "algorithm") = none := by
      decide +kernel
    rw [hv] at halgorithm
    simp only [IdentityLibs.verifiedSigner, bind_eq_ok, needField, need_eq_ok] at hsigner
    obtain ⟨algorithm, hsome, -⟩ := hsigner
    simp [Option.bind_some, hsome] at halgorithm

end KappaRegistry
