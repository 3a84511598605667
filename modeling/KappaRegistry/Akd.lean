import KappaRegistry.Json
import KappaRegistry.Lib.Bytes
import KappaRegistry.Primitives.Instance
import KappaRegistry.Store.Persistent

/-!
# The Transparency Directory

`kappa-akd/src/lib.rs` wraps a directory of the crate `akd`: publishing adds label-value pairs in a
new epoch, and a lookup asks the directory for a proof and verifies it before it is returned. The
absence endpoint of the identity module reads a failed lookup as a proof that the label was never
published.

The directory is a parameter; `Akd.Answers` is what the crate promises. `AkdManager::lookup` hands the
verifier the value in the place of the label, so a published label is found exactly if its latest value
is the label itself (`lookup_answers_iff`).
-/

namespace KappaRegistry

open Lib

/-! ## The directory of the crate -/

structure EpochHash where
  epoch : ℕ
  hash : Bytes
  deriving DecidableEq

/-- What a verified lookup says. -/
structure VerifyResult where
  epoch : ℕ
  version : ℕ
  value : Bytes
  deriving DecidableEq

/-- The functions of the crate `akd`, over its directories and lookup proofs. -/
structure Akd (D P : Type) where
  publish : D → List (Bytes × Bytes) → Except String (EpochHash × D)
  lookup : D → Bytes → Except String (P × EpochHash)
  getPublicKey : D → Except String Bytes
  /-- `client::lookup_verify` with a public key, a root hash, its epoch, a label and a proof. -/
  lookupVerify : Bytes → Bytes → ℕ → Bytes → P → Except String VerifyResult
  /-- `proof.value`. -/
  proofValue : P → Bytes
  /-- `serde_json::to_value` of a proof. -/
  proofJson : P → Except String Json
  /-- The records of a directory, as `postcard` writes them. -/
  checkpointBytes : D → Except String Bytes

variable {D P : Type}

/-- Publications that succeed, in their order. -/
inductive Akd.Publishes (akd : Akd D P) (d₀ : D) : List (List (Bytes × Bytes)) → D → Prop where
  | start : Publishes akd d₀ [] d₀
  | publish {history : List (List (Bytes × Bytes))} {d d' : D} {entries : List (Bytes × Bytes)}
    {epochHash : EpochHash} : Publishes akd d₀ history d →
    akd.publish d entries = .ok (epochHash, d') → Publishes akd d₀ (history ++ [entries]) d'

/-- The value that was published last for a label. -/
def latest (history : List (List (Bytes × Bytes))) (label : Bytes) : Option Bytes :=
  (history.flatten.reverse.find? fun entry => entry.1 == label).map Prod.snd

/-- What the crate promises of the proof for a label with a latest value. -/
structure Akd.Proves (akd : Akd D P) (d : D) (label value : Bytes) (proof : P) (epochHash : EpochHash)
    (publicKey : Bytes) : Prop where
  found : akd.lookup d label = .ok (proof, epochHash)
  key : akd.getPublicKey d = .ok publicKey
  carries : akd.proofValue proof = value
  /-- The verifier accepts the proof for the label it was made for, and no other. -/
  verifies : ∀ l, (akd.lookupVerify publicKey epochHash.hash epochHash.epoch l proof).isOk = true ↔
    l = label
  verified : ∀ result, akd.lookupVerify publicKey epochHash.hash epochHash.epoch label proof =
    .ok result → result.value = value
  json : ∃ j, akd.proofJson proof = .ok j

/-- **The promise of the crate**, for every run of publications. -/
def Akd.Answers (akd : Akd D P) (d₀ : D) : Prop :=
  ∀ history d, akd.Publishes d₀ history d → ∀ label value, latest history label = some value →
    ∃ proof epochHash publicKey, akd.Proves d label value proof epochHash publicKey

/-! ## The manager -/

inductive AkdManagerError where
  | akd (message : String)
  | store (e : StoreError)
  | serialization (message : String)

/-- The directory with the store that its checkpoints go to. -/
structure AkdManager (D : Type) where
  directory : D
  store : PersistentStore
  ns : String

structure LookupResult where
  epoch : ℕ
  version : ℕ
  value : Bytes
  proofJson : Json

namespace AkdManager

variable (akd : Akd D P) (prim : Primitives)

/-- `checkpoint`: the records as one blob, and a tag for it. -/
def checkpoint (m : AkdManager D) : Except StoreError PersistentStore := do
  let bytes ← (akd.checkpointBytes m.directory).mapError fun e =>
    .rejected ("checkpoint serialize: " ++ e)
  let kappa := prim.kappaFromBytes bytes
  return (m.store.blobPut kappa bytes).tagSet (NamespaceRef.deterministic prim m.ns).asStr
    "_akd/checkpoint" kappa

/-- The directory keeps a publication whose checkpoint fails. -/
def publish (m : AkdManager D) (entries : List (Bytes × Bytes)) :
    Except AkdManagerError EpochHash × AkdManager D :=
  match akd.publish m.directory entries with
  | .error e => (.error (.akd e), m)
  | .ok (epochHash, directory) =>
    let m := { m with directory }
    match m.checkpoint akd prim with
    | .error e => (.error (.store e), m)
    | .ok store => (.ok epochHash, { m with store })

/-- The proof is verified before it is returned, with the value it carries for a label. -/
def lookup (m : AkdManager D) (label : Bytes) : Except AkdManagerError LookupResult := do
  let (proof, epochHash) ← (akd.lookup m.directory label).mapError .akd
  let publicKey ← (akd.getPublicKey m.directory).mapError .akd
  let result ← (akd.lookupVerify publicKey epochHash.hash epochHash.epoch (akd.proofValue proof)
    proof).mapError fun e => .serialization ("verification error: " ++ e)
  let proofJson ← (akd.proofJson proof).mapError .serialization
  return { epoch := result.epoch, version := result.version, value := result.value, proofJson }

/-- `publish` calls that succeed, in their order. -/
inductive Publishes (m₀ : AkdManager D) : List (List (Bytes × Bytes)) → AkdManager D → Prop where
  | start : Publishes m₀ [] m₀
  | publish {history : List (List (Bytes × Bytes))} {m m' : AkdManager D}
    {entries : List (Bytes × Bytes)} {epochHash : EpochHash} : Publishes m₀ history m →
    m.publish akd prim entries = (.ok epochHash, m') → Publishes m₀ (history ++ [entries]) m'

end AkdManager

open AkdManager

def absenceHandler (akd : Akd D P) (manager : Option (AkdManager D)) (subject facet : String) :
    ℕ × Json :=
  match manager with
  | none =>
    (503, .obj [("subject", .str subject), ("facet", .str facet), ("proof_available", .bool false),
      ("reason", .str "AKD directory not initialized")])
  | some m =>
    match m.lookup akd (textBytes (subject ++ "/" ++ facet)) with
    | .ok result =>
      (200, .obj [("subject", .str subject), ("facet", .str facet), ("exists", .bool true),
        ("epoch", .num (.posInt result.epoch)), ("proof", result.proofJson)])
    | .error _ =>
      (200, .obj [("subject", .str subject), ("facet", .str facet), ("exists", .bool false),
        ("proof", .str "nonmembership")])

/-- The endpoint says that the label was never published. -/
def ReportsAbsence (response : ℕ × Json) : Prop := response.2.get "exists" = some (.bool false)

/-! ## Lookups after publications -/

section

variable {akd : Akd D P} {prim : Primitives}

theorem AkdManager.publish_directory {m m' : AkdManager D} {entries : List (Bytes × Bytes)}
    {epochHash : EpochHash} (h : m.publish akd prim entries = (.ok epochHash, m')) :
    akd.publish m.directory entries = .ok (epochHash, m'.directory) := by
  unfold publish at h
  cases hpublish : akd.publish m.directory entries with
  | error e =>
    simp [hpublish] at h
  | ok published =>
    obtain ⟨hash, directory⟩ := published
    rw [hpublish] at h
    dsimp only at h
    cases hcheckpoint : checkpoint akd prim { m with directory } with
    | error e =>
      simp [hcheckpoint] at h
    | ok store =>
      rw [hcheckpoint] at h
      cases h
      rfl

theorem AkdManager.Publishes.directory {m₀ m : AkdManager D} {history : List (List (Bytes × Bytes))}
    (h : m₀.Publishes akd prim history m) : akd.Publishes m₀.directory history m.directory := by
  induction h with
  | start => exact .start
  | publish _ hpublish ih => exact .publish ih (publish_directory hpublish)

theorem AkdManager.lookup_eq_ok_iff {m : AkdManager D} {label value : Bytes} {proof : P}
    {epochHash : EpochHash} {publicKey : Bytes}
    (h : akd.Proves m.directory label value proof epochHash publicKey) :
    (∃ result, m.lookup akd label = .ok result ∧ result.value = value) ↔ value = label := by
  constructor
  · rintro ⟨result, hresult, -⟩
    simp only [lookup, bind_eq_ok, mapError_eq_ok, h.found, Except.ok.injEq, h.key] at hresult
    obtain ⟨pair, rfl, key, rfl, r, hverify, -⟩ := hresult
    rw [← h.carries]
    apply (h.verifies _).mp
    show (akd.lookupVerify publicKey epochHash.hash epochHash.epoch (akd.proofValue proof)
      proof).isOk = true
    rw [hverify]
    rfl
  · intro heq
    obtain ⟨j, hj⟩ := h.json
    have haccept := (h.verifies label).mpr rfl
    cases hverify : akd.lookupVerify publicKey epochHash.hash epochHash.epoch label proof with
    | error e =>
      simp [hverify] at haccept
    | ok r =>
      have hvalue : akd.proofValue proof = label := h.carries.trans heq
      refine ⟨⟨r.epoch, r.version, r.value, j⟩, ?_, h.verified r hverify⟩
      simp only [lookup, bind_eq_ok, mapError_eq_ok, pure_eq_ok]
      exact ⟨(proof, epochHash), h.found, publicKey, h.key, r, by rw [hvalue]; exact hverify, j, hj, rfl⟩

theorem not_reportsAbsence {m : AkdManager D} {subject facet : String} {result : LookupResult}
    (h : m.lookup akd (textBytes (subject ++ "/" ++ facet)) = .ok result) :
    ¬ ReportsAbsence (absenceHandler akd (some m) subject facet) := by
  intro habsent
  simp only [ReportsAbsence, absenceHandler, h, Json.get] at habsent
  simp at habsent

/-- **When the directory answers for what was published.** -/
theorem lookup_answers_iff {m₀ : AkdManager D} (hakd : akd.Answers m₀.directory)
    {history : List (List (Bytes × Bytes))} {m : AkdManager D}
    (hrun : m₀.Publishes akd prim history m) {label value : Bytes}
    (hlatest : latest history label = some value) :
    ((∃ result, m.lookup akd label = .ok result ∧ result.value = value) ∧
      ∀ subject facet, textBytes (subject ++ "/" ++ facet) = label →
        ¬ ReportsAbsence (absenceHandler akd (some m) subject facet)) ↔ value = label := by
  obtain ⟨proof, epochHash, publicKey, hproves⟩ := hakd history m.directory hrun.directory label
    value hlatest
  constructor
  · intro h
    exact (lookup_eq_ok_iff hproves).mp h.1
  · intro heq
    have hfound := (lookup_eq_ok_iff hproves).mpr heq
    refine ⟨hfound, ?_⟩
    intro subject facet hlabel
    obtain ⟨result, hresult, -⟩ := hfound
    rw [← hlabel] at hresult
    exact not_reportsAbsence hresult

end

/-! ## A directory -/

/-- A directory that is the list of what was published; a proof is an entry of it. -/
def Akd.sample : Akd (List (Bytes × Bytes)) (Bytes × Bytes) where
  publish d entries := .ok (⟨d.length + entries.length, []⟩, d ++ entries)
  lookup d label :=
    match d.reverse.find? fun entry => entry.1 == label with
    | some entry => .ok (entry, ⟨d.length, []⟩)
    | none => .error "not found"
  getPublicKey _ := .ok []
  lookupVerify _ _ epoch label proof :=
    if label = proof.1 then .ok ⟨epoch, 1, proof.2⟩ else .error "wrong label"
  proofValue := Prod.snd
  proofJson _ := .ok .null
  checkpointBytes _ := .ok []

theorem Akd.sample_directory {history : List (List (Bytes × Bytes))} {d : List (Bytes × Bytes)}
    (h : Akd.sample.Publishes [] history d) : d = history.flatten := by
  induction h with
  | start => rfl
  | publish _ hpublish ih =>
    obtain ⟨-, rfl⟩ := Prod.mk.inj (Except.ok.inj hpublish)
    rw [ih]
    simp

theorem Akd.sample_answers : Akd.sample.Answers [] := by
  intro history d hrun label value hlatest
  obtain ⟨entry, hfind, rfl⟩ := Option.map_eq_some_iff.mp hlatest
  have hlabel : entry.1 = label := by simpa using List.find?_some hfind
  refine ⟨entry, ⟨d.length, []⟩, [], ?_, rfl, rfl, ?_, ?_, .null, rfl⟩
  · simp only [Akd.sample, Akd.sample_directory hrun, hfind]
  · intro l
    by_cases hl : l = entry.1
    · simp [Akd.sample, hl, hlabel]
    · simp [Akd.sample, hl, ← hlabel]
  · intro result hresult
    simp only [Akd.sample, hlabel, if_true, Except.ok.injEq] at hresult
    rw [← hresult]

namespace SampleDirectory

def start : AkdManager (List (Bytes × Bytes)) := ⟨[], .new false, "akd"⟩

def published (entries : List (Bytes × Bytes)) : AkdManager (List (Bytes × Bytes)) :=
  (start.publish .sample .sample entries).2

theorem publishes (entries : List (Bytes × Bytes)) :
    start.Publishes .sample .sample [entries] (published entries) :=
  .publish .start rfl

end SampleDirectory

open SampleDirectory in
/-- A label that was published with itself for a value is found. -/
theorem lookup_answers_own_label :
    let label := textBytes "alice/email"
    latest [[(label, label)]] label = some label ∧
      ∃ result, (published [(label, label)]).lookup .sample label = .ok result ∧
        result.value = label := by
  intro label
  have hlatest : latest [[(label, label)]] label = some label := by
    decide +kernel
  exact ⟨hlatest, ((lookup_answers_iff Akd.sample_answers (publishes _) hlatest).mpr rfl).1⟩

open SampleDirectory in
/-- **A published label is reported absent**: its value is not the label, so the proof does not
verify. -/
theorem absence_of_published :
    Akd.sample.Answers start.directory ∧
      latest [[(textBytes "alice/email", textBytes "a@b")]] (textBytes "alice/email") =
        some (textBytes "a@b") ∧
      start.Publishes .sample .sample [[(textBytes "alice/email", textBytes "a@b")]]
        (published [(textBytes "alice/email", textBytes "a@b")]) ∧
      ReportsAbsence (absenceHandler .sample
        (some (published [(textBytes "alice/email", textBytes "a@b")])) "alice" "email") :=
  ⟨Akd.sample_answers, by decide +kernel, publishes _, rfl⟩

end KappaRegistry
