import KappaRegistry.Kappa.Path
import KappaRegistry.Lib.Bytes

/-!
# Labels and Verified Content

`kappa-core/src/kappa/label.rs`, `compute.rs` and `verified.rs`. A label names an axis (a hash
algorithm) and a digest of the length the axis has. Content is verified against a label by hashing
it again under the label's axis. The hash functions are a parameter (`Hashes`); SHA-1 comes with a check
for collision attacks, and content that it finds is refused. An incremental hasher returns the digest of
all bytes it was fed, so the streaming functions are written over the bytes of the file.
-/

namespace KappaRegistry

open Lib List

/-! ## Axes -/

/-- Recognized digest algorithms. -/
inductive Axis where
  | sha1
  | sha256
  | blake3
  | sha512
  | sha3_256
  | keccak256
  deriving DecidableEq

namespace Axis

def asStr : Axis → String
  | sha1 => "sha1"
  | sha256 => "sha256"
  | blake3 => "blake3"
  | sha512 => "sha512"
  | sha3_256 => "sha3-256"
  | keccak256 => "keccak256"

def hexDigits : Axis → ℕ
  | sha1 => 40
  | sha256 | blake3 | sha3_256 | keccak256 => 64
  | sha512 => 128

variable (axis : Axis)

def digestBytes : ℕ := axis.hexDigits / 2

def parse (s : String) : Option Axis :=
  match s with
  | "sha1" => some sha1
  | "sha256" => some sha256
  | "blake3" => some blake3
  | "sha512" => some sha512
  | "sha3-256" => some sha3_256
  | "keccak256" => some keccak256
  | _ => none

theorem parse_asStr : parse axis.asStr = some axis := by
  cases axis <;> rfl

theorem eq_of_parse {s : String} {axis : Axis} (h : parse s = some axis) : axis.asStr = s := by
  unfold parse at h
  split at h <;> cases h <;> rfl

theorem asStr_plain : ':' ∉ axis.asStr.toList ∧ '/' ∉ axis.asStr.toList ∧
    axis.asStr ≠ "" ∧ axis.asStr ≠ "." ∧ axis.asStr ≠ ".." := by
  cases axis <;> decide

theorem length_bounds :
    45 ≤ byteLen axis.asStr + 1 + axis.hexDigits ∧ byteLen axis.asStr + 1 + axis.hexDigits ≤ 135 := by
  cases axis <;> decide

theorem two_mul_digestBytes : 2 * axis.digestBytes = axis.hexDigits := by
  cases axis <;> rfl

end Axis

/-! ## Labels -/

/-- Errors from label parsing and computation. -/
inductive LabelError where
  | badLength (got : ℕ)
  | noColon
  | unknownAxis
  | badHex (position : ℕ) (byte : UInt8)
  | wrongDigitCount (expected got : ℕ)
  | collisionDetected
  | digestMismatch (expected computed axis : String)
  deriving DecidableEq

def LabelError.display : LabelError → String
  | badLength got => "length " ++ toString got ++ " not in 45..=135"
  | noColon => "no colon separator"
  | unknownAxis => "unrecognized axis token"
  | badHex position byte =>
    "non-hex byte 0x" ++ hexEncode [byte] ++ " at position " ++ toString position
  | wrongDigitCount expected got =>
    "expected " ++ toString expected ++ " hex digits, got " ++ toString got
  | collisionDetected => "SHA-1 collision detected, content rejected"
  | digestMismatch expected computed axis =>
    "digest mismatch on axis " ++ axis ++ ": expected " ++ expected ++ ", computed " ++ computed

structure KappaLabel where
  axis : Axis
  hexDigest : String
  digits : hexDigest.toList.all isLowerHex = true
  length_eq : byteLen hexDigest = axis.hexDigits
  deriving DecidableEq

namespace KappaLabel

def asStr (k : KappaLabel) : String := k.axis.asStr ++ ":" ++ k.hexDigest

/-- The first byte of a digest that is no lowercase digit, and where it is. -/
def firstBadByte (hex : String) : ℕ × UInt8 :=
  let bytes := textBytes hex
  let i := bytes.findIdx fun b => !isLowerHex (Char.ofNat b.toNat)
  (i, bytes.getD i 0)

def parse (s : String) : Except LabelError KappaLabel :=
  if byteLen s < 45 ∨ 135 < byteLen s then .error (.badLength (byteLen s))
  else
    match splitOnceText ':' s with
    | none => .error .noColon
    | some (axisStr, hexPart) =>
      match Axis.parse axisStr with
      | none => .error .unknownAxis
      | some axis =>
        if hlength : byteLen hexPart = axis.hexDigits then
          if hdigits : hexPart.toList.all isLowerHex = true then
            .ok ⟨axis, hexPart, hdigits, hlength⟩
          else
            .error (.badHex (byteLen axisStr + 1 + (firstBadByte hexPart).1)
              (firstBadByte hexPart).2)
        else .error (.wrongDigitCount axis.hexDigits (byteLen hexPart))

theorem byteLen_append (s t : String) : byteLen (s ++ t) = byteLen s + byteLen t := by
  simp [byteLen]

theorem notMem_asStr {c : Char} (haxis : ∀ axis : Axis, c ∉ axis.asStr.toList)
    (hhex : isLowerHex c = false) (hc : c ≠ ':') (k : KappaLabel) : c ∉ k.asStr.toList := by
  have hdigits : c ∉ k.hexDigest.toList := by
    intro hmem
    exact absurd (all_eq_true.mp k.digits c hmem) (by simp [hhex])
  simp [asStr, haxis k.axis, hdigits, hc]

theorem splitOnceText_asStr (k : KappaLabel) :
    splitOnceText ':' k.asStr = some (k.axis.asStr, k.hexDigest) :=
  splitOnceText_eq_some.mpr ⟨rfl, k.axis.asStr_plain.1⟩

theorem byteLen_asStr (k : KappaLabel) :
    byteLen k.asStr = byteLen k.axis.asStr + 1 + k.axis.hexDigits := by
  rw [asStr, byteLen_append, byteLen_append, k.length_eq]
  rfl

variable {k : KappaLabel}

/-- **The texts that parse are those of labels.** -/
theorem parse_eq_ok {s : String} : parse s = .ok k ↔ k.asStr = s := by
  constructor
  · intro h
    unfold parse at h
    by_cases hlen : byteLen s < 45 ∨ 135 < byteLen s
    · simp [if_pos hlen] at h
    · rw [if_neg hlen] at h
      cases hsplit : splitOnceText ':' s with
      | none =>
        simp [hsplit] at h
      | some parts =>
        obtain ⟨axisStr, hexPart⟩ := parts
        rw [hsplit] at h
        dsimp only at h
        cases haxis : Axis.parse axisStr with
        | none =>
          simp [haxis] at h
        | some axis =>
          rw [haxis] at h
          dsimp only at h
          by_cases hlength : byteLen hexPart = axis.hexDigits
          · rw [dif_pos hlength] at h
            by_cases hdigits : hexPart.toList.all isLowerHex = true
            · rw [dif_pos hdigits] at h
              cases h
              rw [(splitOnceText_eq_some.mp hsplit).1, asStr, Axis.eq_of_parse haxis]
              rfl
            · rw [dif_neg hdigits] at h
              cases h
          · simp [dif_neg hlength] at h
  · rintro rfl
    have hbounds := k.axis.length_bounds
    rw [← k.byteLen_asStr] at hbounds
    unfold parse
    rw [if_neg (by omega), splitOnceText_asStr]
    dsimp only
    rw [Axis.parse_asStr]
    dsimp only
    rw [dif_pos k.length_eq, dif_pos k.digits]

theorem asStr_inj {k k' : KappaLabel} (h : k.asStr = k'.asStr) : k = k' := by
  have hparse : parse k'.asStr = .ok k := parse_eq_ok.mpr h
  rw [parse_eq_ok.mpr rfl] at hparse
  exact (Except.ok.inj hparse).symm

/-! ## Where the blob of a label is -/

variable (root : String)

def location (k : KappaLabel) : Location :=
  (normalise root).descend (k.axis.asStr :: shards k.hexDigest)

theorem splitKappa_asStr (k : KappaLabel) : splitKappa k.asStr = some (k.axis.asStr, k.hexDigest) := by
  have hsplit : splitOnce ':' k.asStr.toList = some (k.axis.asStr.toList, k.hexDigest.toList) := by
    rw [splitOnce_eq_some]
    exact ⟨by simp [asStr], k.axis.asStr_plain.1⟩
  have haxis : k.axis.asStr.toList ≠ [] := by simpa using k.axis.asStr_plain.2.2.1
  have hhex : k.hexDigest.toList ≠ [] := by
    intro hnil
    have hlength := k.length_eq
    rw [byteLen_of_digits k.digits, hnil] at hlength
    revert hlength
    cases k.axis <;> decide
  unfold splitKappa
  rw [hsplit]
  dsimp only
  rw [if_neg (not_or.mpr ⟨haxis, hhex⟩), String.ofList_toList, String.ofList_toList]

theorem four_le_hexDigits (axis : Axis) : 4 ≤ axis.hexDigits := by
  cases axis <;> decide

theorem blobPathFor_asStr (k : KappaLabel) :
    ∃ path, blobPathFor root k.asStr = .ok path ∧ normalise path = k.location root := by
  have hpath : blobPathFor root k.asStr = .ok _ := blobPathFor_eq_ok.mpr
    ⟨k.axis.asStr, k.hexDigest, k.splitKappa_asStr, by rw [k.length_eq]; exact four_le_hexDigits _,
      k.digits, rfl⟩
  refine ⟨_, hpath, ?_⟩
  rw [normalise_blobPathFor hpath k.splitKappa_asStr,
    normalise_pathJoin_name root k.axis.asStr_plain.2.1 k.axis.asStr_plain.2.2]
  simp [location]

theorem location_inj {root : String} {k k' : KappaLabel} (h : k.location root = k'.location root) :
    k = k' := by
  have hnames : (normalise root).names ++ (k.axis.asStr :: shards k.hexDigest) =
      (normalise root).names ++ (k'.axis.asStr :: shards k'.hexDigest) := congrArg Location.names h
  have hparts := append_cancel_left hnames
  simp only [shards, cons.injEq, and_true] at hparts
  apply asStr_inj
  rw [asStr, asStr, hparts.1, hparts.2.2.2]

theorem fileName_location (k : KappaLabel) : (k.location root).fileName = some k.hexDigest :=
  Location.fileName_descend _ rfl

end KappaLabel

open KappaLabel

/-- The file has a name as blobs have it, of hex digits only. -/
def IsBlobName (l : Location) : Prop :=
  ∃ name, l.fileName = some name ∧ name.toList.all isLowerHex = true

theorem KappaLabel.isBlobName (root : String) (k : KappaLabel) : IsBlobName (k.location root) :=
  ⟨k.hexDigest, k.fileName_location root, k.digits⟩

variable {l : Location} {name : String}

theorem not_isBlobName {c : Char} (h : l.fileName = some name)
    (hmem : c ∈ name.toList) (hc : isLowerHex c = false) : ¬ IsBlobName l := by
  rintro ⟨name', hname, hall⟩
  rw [h] at hname
  cases hname
  have hdigit := all_eq_true.mp hall c hmem
  simp [hc] at hdigit

theorem not_isBlobName_withExtension (h : l.fileName = some name)
    (extension : String) : ¬ IsBlobName (l.withExtension extension) := by
  refine not_isBlobName (Location.fileName_withExtension h extension) (c := '.') ?_ (by decide)
  simp

/-! ## Hashing -/

/-- The hash functions of the axes, and the collision check of SHA-1. -/
structure Hashes where
  digest : Axis → Bytes → Bytes
  /-- `has_collision` of the checked SHA-1. -/
  sha1Collision : Bytes → Bool
  length_digest : ∀ axis content, (digest axis content).length = axis.digestBytes

theorem all_isLowerHex_hexEncode (bytes : Bytes) :
    (hexEncode bytes).toList.all isLowerHex = true := by
  rw [all_eq_true]
  intro c hc
  have hdigit : ∀ n : Fin 16, isLowerHex (hexDigit n) = true := by decide
  obtain ⟨n, rfl⟩ := of_mem_hexEncode hc
  exact hdigit n

namespace Hashes

variable (H : Hashes)

def label (axis : Axis) (content : Bytes) : KappaLabel where
  axis
  hexDigest := hexEncode (H.digest axis content)
  digits := all_isLowerHex_hexEncode _
  length_eq := by
    rw [byteLen_of_digits (all_isLowerHex_hexEncode _), length_hexEncode, H.length_digest,
      axis.two_mul_digestBytes]

/-- The label of content, unless it is refused. -/
def compute (axis : Axis) (content : Bytes) : Except LabelError KappaLabel :=
  if axis = .sha1 ∧ H.sha1Collision content = true then .error .collisionDetected
  else .ok (H.label axis content)

def computeKappa (axis : String) (content : Bytes) : Except LabelError KappaLabel := do
  let axis ← need (Axis.parse axis) .unknownAxis
  H.compute axis content

/-- `verify_kappa`: whether content hashes to a label under its own axis. -/
def verifyKappa (kappa : String) (content : Bytes) : Except LabelError Bool := do
  let parsed ← parse kappa
  let computed ← H.computeKappa parsed.axis.asStr content
  return computed.asStr == kappa

/-- The content has this label, and is not refused under its axis. -/
def Verifies (k : KappaLabel) (content : Bytes) : Prop := H.compute k.axis content = .ok k

/-- No two of these contents verify against the same label. -/
def CollisionFree (contents : List Bytes) : Prop :=
  ∀ c ∈ contents, ∀ c' ∈ contents, ∀ k, H.Verifies k c → H.Verifies k c' → c = c'

variable {H} {axis : Axis} {content : Bytes} {k : KappaLabel}

theorem compute_eq_ok : H.compute axis content = .ok k ↔
      ¬ (axis = .sha1 ∧ H.sha1Collision content = true) ∧ H.label axis content = k := by
  unfold compute
  split_ifs with hrefused
  · exact ⟨fun h => (nomatch h), fun h => absurd hrefused h.1⟩
  · exact ⟨fun h => ⟨hrefused, Except.ok.inj h⟩, fun h => congrArg _ h.2⟩

theorem verifies_of_compute (h : H.compute axis content = .ok k) : H.Verifies k content := by
  have haxis : k.axis = axis := by
    rw [← (compute_eq_ok.mp h).2]
    rfl
  rwa [Verifies, haxis]

theorem Verifies.label_eq (h : H.Verifies k content) : H.label k.axis content = k :=
  (compute_eq_ok.mp h).2

theorem digest_eq_of_label_eq {axis' : Axis} {c c' : Bytes}
    (h : H.label axis c = H.label axis' c') : axis = axis' ∧ H.digest axis c = H.digest axis c' := by
  have haxis : axis = axis' := congrArg KappaLabel.axis h
  subst haxis
  exact ⟨rfl, hexEncode_inj (congrArg hexDigest h)⟩

theorem verifyKappa_eq_true : H.verifyKappa k.asStr content = .ok true ↔ H.Verifies k content := by
  simp only [verifyKappa, computeKappa, bind_eq_ok, need_eq_ok, pure_eq_ok]
  constructor
  · rintro ⟨parsed, hparsed, computed, ⟨axis, haxis, hcompute⟩, heq⟩
    obtain rfl := asStr_inj (parse_eq_ok.mp hparsed)
    obtain rfl := asStr_inj (beq_iff_eq.mp heq)
    rw [Axis.parse_asStr] at haxis
    cases haxis
    exact hcompute
  · intro h
    exact ⟨k, parse_eq_ok.mpr rfl, k, ⟨k.axis, Axis.parse_asStr _, h⟩, beq_self_eq_true _⟩

variable {contents : List Bytes}

theorem collisionFree_of_digest (h : ∀ c ∈ contents, ∀ c' ∈ contents, ∀ axis, H.digest axis c = H.digest axis c' → c = c') :
    H.CollisionFree contents := by
  intro c hc c' hc' k hk hk'
  exact h c hc c' hc' k.axis (digest_eq_of_label_eq (hk.label_eq.trans hk'.label_eq.symm)).2

theorem CollisionFree.mono {contents' : List Bytes} (hfree : H.CollisionFree contents')
    (h : ∀ c ∈ contents, c ∈ contents') : H.CollisionFree contents :=
  fun c hc c' hc' => hfree c (h c hc) c' (h c' hc')

end Hashes

/-! ## Proofs of verification -/

/-- Content that has been verified against its label; there is no other way to build one. -/
structure VerifiedContent (H : Hashes) where
  label : KappaLabel
  content : Bytes
  verified : H.Verifies label content

namespace VerifiedContent

variable (H : Hashes)

def compute (axis : Axis) (content : Bytes) : Except LabelError (VerifiedContent H) :=
  match h : H.compute axis content with
  | .ok label => .ok ⟨label, content, Hashes.verifies_of_compute h⟩
  | .error e => .error e

def verify (claimed : String) (content : Bytes) : Except LabelError (VerifiedContent H) :=
  match parse claimed with
  | .error e => .error e
  | .ok label =>
    match h : H.compute label.axis content with
    | .error e => .error e
    | .ok computed =>
      if heq : computed = label then .ok ⟨label, content, heq ▸ h⟩
      else .error (.digestMismatch claimed computed.asStr label.axis.asStr)

variable {H} {content : Bytes} {v : VerifiedContent H}

theorem content_of_compute {axis : Axis}
    (h : compute H axis content = .ok v) : v.content = content ∧ v.label = H.label axis content := by
  unfold compute at h
  split at h
  · rename_i label hlabel
    cases h
    exact ⟨rfl, (Hashes.compute_eq_ok.mp hlabel).2.symm⟩
  · cases h

theorem content_of_verify {claimed : String}
    (h : verify H claimed content = .ok v) : v.content = content := by
  unfold verify at h
  split at h
  · cases h
  · split at h
    · cases h
    · split at h
      · cases h
        rfl
      · cases h

end VerifiedContent

/-- What a streaming hash computation found: the label of the first axis that was asked for, and
those of the others. -/
structure StreamingVerificationProof where
  primary : KappaLabel
  additional : List KappaLabel

namespace Hashes

variable (H : Hashes)

def hasherOrder : List Axis := [.sha256, .sha512, .blake3, .sha3_256, .keccak256, .sha1]

/-- `streaming_compute_multi`, by what the hasher of an axis gives in the end. -/
def streamingComputeWith (finalize : Axis → Except LabelError KappaLabel) (axes : List String) :
    Except LabelError StreamingVerificationProof := do
  let parsed ← axes.mapM fun axis => need (Axis.parse axis) LabelError.unknownAxis
  let results ← (hasherOrder.filter (· ∈ parsed)).mapM finalize
  -- results are in the order of the hashers, and the primary is looked up in them
  let index := (results.findIdx? fun k => some k.axis == parsed.head?).getD 0
  match results[index]? with
  | none => .error .unknownAxis
  | some primary => .ok ⟨primary, results.eraseIdx index⟩

/-- `streaming_compute_multi`, of the bytes that its reader returns. -/
def streamingComputeMulti (axes : List String) (content : Bytes) :
    Except LabelError StreamingVerificationProof :=
  streamingComputeWith (H.compute · content) axes

variable {H} {content : Bytes}

theorem verifies_of_mem_mapM {axes : List Axis} {results : List KappaLabel}
    (h : (axes.mapM fun axis => H.compute axis content) = .ok results) :
    ∀ k ∈ results, H.Verifies k content := by
  induction axes generalizing results with
  | nil =>
    cases h
    nofun
  | cons axis axes ih =>
    simp only [mapM_cons, bind_eq_ok, pure_eq_ok] at h
    obtain ⟨k, hk, ks, hks, rfl⟩ := h
    intro k' hk'
    rcases mem_cons.mp hk' with rfl | hk'
    · exact verifies_of_compute hk
    · exact ih hks k' hk'

/-- **Every label of a streaming computation is a label of the content.** -/
theorem streamingComputeMulti_verifies {axes : List String} {proof : StreamingVerificationProof}
    (h : H.streamingComputeMulti axes content = .ok proof) :
    ∀ k ∈ proof.primary :: proof.additional, H.Verifies k content := by
  simp only [streamingComputeMulti, streamingComputeWith, bind_eq_ok] at h
  obtain ⟨parsed, -, results, hresults, h⟩ := h
  have hverifies := verifies_of_mem_mapM hresults
  split at h
  · cases h
  · rename_i primary hprimary
    cases h
    intro k hk
    rcases mem_cons.mp hk with rfl | hk
    · exact hverifies _ (mem_of_getElem? hprimary)
    · exact hverifies k (mem_of_mem_eraseIdx hk)

end Hashes

end KappaRegistry
