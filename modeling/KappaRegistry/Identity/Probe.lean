import KappaRegistry.Identity.Signed

/-!
# Probing Peers

`kappa-core/src/identity/probe.rs`. A peer answers with the root of its current epoch, a signature
over the namespace, the root and the number of the epoch, the public key for it, and an anchor. The
probe verifies the signature under the key of the answer and reports the anchor of the answer; that
the anchor is the one of the key is not looked at.

**`probePeer_binds_iff`**: what a probe reports is bound to the key exactly if the answer does not
verify or names the anchor of its own key.
-/

namespace KappaRegistry

open Lib

variable {D P : Type}

structure PeerEpochResponse where
  anchor : String
  algorithm : String
  epochNumber : ℕ
  rootKappa : String
  signature : Bytes
  publicKey : Bytes
  deriving DecidableEq

/-- Why a peer could not be asked; an error of the verification is its text. -/
inductive ProbeError where
  | transport (message : String)
  | verification (message : String)
  deriving DecidableEq

/-- What is kept about a peer. -/
structure PeerRecord where
  endpoint : String
  asserterAnchor : String
  lastEpoch : ℕ
  stateRoot : String
  deriving DecidableEq

inductive ProbeResult where
  | verified (peer : PeerRecord)
  | signatureInvalid (message : String)
  | equivocation (peer : String) (epoch : ℕ) (localRoot remoteRoot : String)
  | unreachable (message : String)
  deriving DecidableEq

/-- The anchor that a report names as that of a peer who signed. -/
def ProbeResult.names : ProbeResult → Option String
  | .verified peer => some peer.asserterAnchor
  | .equivocation peer .. => some peer
  | .signatureInvalid _ | .unreachable _ => none

/-- An epoch root of this node: its number and its serialised leaves. -/
structure LocalEpoch where
  epochNumber : ℕ
  leafBytes : Bytes

/-- The algorithms that `verifier_for` knows. -/
def verifierAlgorithms : List String :=
  ["ed25519", "frost-ed25519", "p256", "k256", "frost-p256", "frost-secp256k1"]

namespace IdentityLibs

variable (L : IdentityLibs D P)

def epochKappa (epoch : LocalEpoch) : String := L.prim.kappaFromBytes epoch.leafBytes

def probeMessage (ns : String) (response : PeerEpochResponse) : Bytes :=
  textBytes (ns ++ "\n" ++ response.rootKappa ++ "\n" ++ toString response.epochNumber)

/-- The report about an answer whose signature is valid. -/
def report (endpoint : String) (epoch : Option LocalEpoch) (response : PeerEpochResponse) :
    ProbeResult :=
  match epoch.filter fun own =>
      own.epochNumber = response.epochNumber ∧ L.epochKappa own ≠ response.rootKappa with
  | some own =>
    .equivocation response.anchor response.epochNumber (L.epochKappa own) response.rootKappa
  | none =>
    .verified { endpoint, asserterAnchor := response.anchor, lastEpoch := response.epochNumber,
                stateRoot := response.rootKappa }

def probePeer (transport : String → String → Except ProbeError PeerEpochResponse)
    (endpoint ns : String) (epoch : Option LocalEpoch) : ProbeResult :=
  match transport endpoint ns with
  | .error (.transport message) => .unreachable message
  | .error (.verification message) => .signatureInvalid message
  | .ok response =>
    if response.algorithm ∈ verifierAlgorithms then
      match L.verify response.algorithm response.publicKey (probeMessage ns response)
          response.signature with
      | .ok true => L.report endpoint epoch response
      | .ok false => .signatureInvalid response.anchor
      | .error message => .signatureInvalid message
    else .signatureInvalid ("unsupported algorithm: " ++ response.algorithm)

/-- The signature of an answer verifies under its key. -/
def Signed (ns : String) (response : PeerEpochResponse) : Prop :=
  response.algorithm ∈ verifierAlgorithms ∧
    L.verify response.algorithm response.publicKey (probeMessage ns response) response.signature =
      .ok true

variable {L}

theorem names_report (endpoint : String) (epoch : Option LocalEpoch) (response : PeerEpochResponse) :
    (L.report endpoint epoch response).names = some response.anchor := by
  unfold report
  cases epoch.filter fun own =>
      own.epochNumber = response.epochNumber ∧ L.epochKappa own ≠ response.rootKappa with
  | some own => rfl
  | none => rfl

/-- **A probe names an anchor** only for an answer that is signed, and then the anchor it states. -/
theorem names_probePeer {transport : String → String → Except ProbeError PeerEpochResponse}
    {endpoint ns : String} {epoch : Option LocalEpoch} {anchor : String} :
    (L.probePeer transport endpoint ns epoch).names = some anchor ↔
      ∃ response, transport endpoint ns = .ok response ∧ L.Signed ns response ∧
        response.anchor = anchor := by
  unfold probePeer Signed
  cases transport endpoint ns with
  | error e => cases e <;> simp [ProbeResult.names]
  | ok response =>
    simp only [Except.ok.injEq, exists_eq_left']
    by_cases halgorithm : response.algorithm ∈ verifierAlgorithms
    · rw [if_pos halgorithm]
      cases L.verify response.algorithm response.publicKey (probeMessage ns response)
          response.signature with
      | error message => simp [ProbeResult.names]
      | ok valid =>
        cases valid with
        | false => simp [ProbeResult.names]
        | true => simp [names_report, halgorithm]
    · simp [ProbeResult.names, halgorithm]

/-- **A probe binds the anchor to the key** exactly if an answer that verifies names the anchor of
its own algorithm and key. -/
theorem probePeer_binds_iff (L : IdentityLibs D P)
    (transport : String → String → Except ProbeError PeerEpochResponse) (endpoint ns : String)
    (epoch : Option LocalEpoch) :
    (∀ anchor, (L.probePeer transport endpoint ns epoch).names = some anchor →
      ∃ response, transport endpoint ns = .ok response ∧
        L.verify response.algorithm response.publicKey (probeMessage ns response)
          response.signature = .ok true ∧
        L.computeAnchor response.algorithm response.publicKey = anchor) ↔
      ∀ response, transport endpoint ns = .ok response → L.Signed ns response →
        response.anchor = L.computeAnchor response.algorithm response.publicKey := by
  constructor
  · intro hbinds response hfetch hsigned
    obtain ⟨response', hfetch', -, hanchor⟩ :=
      hbinds response.anchor (names_probePeer.mpr ⟨response, hfetch, hsigned, rfl⟩)
    obtain rfl : response = response' := Except.ok.inj (hfetch.symm.trans hfetch')
    exact hanchor.symm
  · intro hown anchor hnames
    obtain ⟨response, hfetch, hsigned, rfl⟩ := names_probePeer.mp hnames
    exact ⟨response, hfetch, hsigned.2, (hown response hfetch hsigned).symm⟩

end IdentityLibs

/-- An answer that is signed with the key `[1]` and states the anchor of the key `[2]`. -/
def SampleIdentity.forgedResponse : PeerEpochResponse where
  anchor := IdentityLibs.sample.computeAnchor "ed25519" [2]
  algorithm := "ed25519"
  epochNumber := 5
  rootKappa := "r"
  signature := sampleSignature [1] (textBytes "n\nr\n5")
  publicKey := [1]

open SampleIdentity in
/-- The peer is recorded under an anchor whose key signed nothing. -/
theorem probePeer_forged :
    IdentityLibs.sample.probePeer (fun _ _ => .ok forgedResponse) "e" "n" none =
      .verified ⟨"e", IdentityLibs.sample.computeAnchor "ed25519" [2], 5, "r"⟩ ∧
    IdentityLibs.sample.computeAnchor "ed25519" [1] ≠
      IdentityLibs.sample.computeAnchor "ed25519" [2] ∧
    IdentityLibs.sample.verify "ed25519" [2] (IdentityLibs.probeMessage "n" forgedResponse)
      forgedResponse.signature = .ok false := by
  decide +kernel

end KappaRegistry
