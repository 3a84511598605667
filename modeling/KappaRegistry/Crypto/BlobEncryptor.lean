import KappaRegistry.Crypto.Sample

/-!
# Blobs in Encrypted Frames

`kappa-core/src/crypto/aead.rs`. A blob is sealed in frames of 64 KiB, each with a nonce made of the
blob's random base nonce and the number of the frame, and with the blob's label as associated data.
On disk a frame is its tag and then its ciphertext. An empty blob has one frame.

Frames that were sealed open again: **`decryptAll_encryptStreaming`**. Two facts hold whatever the
cipher does: the frames are longer than the blob (`length_encryptStreaming`), and what is decrypted
has the size it was recorded with (`length_of_decryptAll`).
-/

namespace KappaRegistry

open Lib List

def frameSize : ℕ := 65536

/-- Per-frame on-disk overhead. -/
def frameTagSize : ℕ := 16

/-- The errors of this module, by their texts. -/
def signingFailed (message : String) : String := "signing failed: " ++ message

namespace BlobEncryptor

variable (key : Aead) (sigma : String) (baseNonce : Bytes)

/-- `frame_nonce`: the base nonce, and the number of the frame in four bytes. -/
def frameNonce (frameIndex : ℕ) : Bytes := baseNonce ++ bigEndian 4 frameIndex

def encryptFrame (frameIndex : ℕ) (plaintext : Bytes) : Except String Bytes :=
  match key.sealDetached (frameNonce baseNonce frameIndex) (textBytes sigma) plaintext with
  | some (ciphertext, tag) => .ok (tag ++ ciphertext)
  | none => .error (signingFailed ("frame " ++ toString frameIndex ++ " seal"))

/-- The loop of `encrypt_streaming`, from a frame on. Each round but the last one reads a full
frame, so that `fuel` is above the number of rounds if it is above the number of bytes. -/
def encryptFrom : ℕ → ℕ → Bytes → Except String Bytes
  | 0, _, _ => .ok []
  | fuel + 1, frameIndex, plaintext =>
    let frame := plaintext.take frameSize
    if frame = [] ∧ 0 < frameIndex then .ok []
    else do
      let sealed ← encryptFrame key sigma baseNonce frameIndex frame
      if frame.length < frameSize then return sealed
      else
        let rest ← encryptFrom fuel (frameIndex + 1) (plaintext.drop frameSize)
        return sealed ++ rest

/-- `encrypt_streaming` with a base nonce; `encrypt` seals the same frames. -/
def encryptStreaming (plaintext : Bytes) : Except String Bytes :=
  encryptFrom key sigma baseNonce (plaintext.length + 1) 0 plaintext

def decryptFrame (frameIndex : ℕ) (frameData : Bytes) : Except String Bytes := do
  ensure (frameTagSize ≤ frameData.length) (signingFailed "frame too short for tag")
  need (key.openDetached (frameNonce baseNonce frameIndex) (textBytes sigma)
      (frameData.drop frameTagSize) (frameData.take frameTagSize))
    (signingFailed ("frame " ++ toString frameIndex ++ " decrypt"))

/-- The loop of `decrypt_all`, with the bytes of the disk and of the plaintext that are left. -/
def decryptFrom : ℕ → ℕ → Bytes → ℕ → Except String Bytes
  | 0, _, _, _ => .ok []
  | fuel + 1, frameIndex, diskBytes, remaining =>
    if diskBytes = [] then .ok []
    else do
      let frameDiskLen := frameTagSize + min frameSize remaining
      ensure (frameDiskLen ≤ diskBytes.length) (signingFailed "truncated frame")
      let frame ← decryptFrame key sigma baseNonce frameIndex (diskBytes.take frameDiskLen)
      let rest ← decryptFrom fuel (frameIndex + 1) (diskBytes.drop frameDiskLen)
        (remaining - frame.length)
      return frame ++ rest

def decryptAll (diskBytes : Bytes) (plaintextSize : ℕ) : Except String Bytes := do
  let plaintext ← decryptFrom key sigma baseNonce diskBytes.length 0 diskBytes plaintextSize
  ensure (plaintext.length = plaintextSize)
    (signingFailed ("decrypted " ++ toString plaintext.length ++ " bytes but expected " ++
      toString plaintextSize))
  return plaintext

variable {key sigma baseNonce}

theorem length_of_decryptAll {diskBytes : Bytes} {plaintextSize : ℕ} {plaintext : Bytes}
    (h : decryptAll key sigma baseNonce diskBytes plaintextSize = .ok plaintext) :
    plaintext.length = plaintextSize := by
  simp only [decryptAll, bind_eq_ok, ensure_eq_ok, pure_eq_ok] at h
  obtain ⟨bytes, -, u, hlength, rfl⟩ := h
  exact hlength

theorem decryptFrom_nil (fuel frameIndex remaining : ℕ) :
    decryptFrom key sigma baseNonce fuel frameIndex [] remaining = .ok [] := by
  cases fuel with
  | zero => rfl
  | succ fuel => simp [decryptFrom]

theorem decryptFrom_append {fuel frameIndex remaining : ℕ} {sealed disk frame rest : Bytes}
    (hlength : sealed.length = frameTagSize + min frameSize remaining)
    (hframe : decryptFrame key sigma baseNonce frameIndex sealed = .ok frame)
    (hrest : decryptFrom key sigma baseNonce fuel (frameIndex + 1) disk (remaining - frame.length) =
      .ok rest) :
    decryptFrom key sigma baseNonce (fuel + 1) frameIndex (sealed ++ disk) remaining =
      .ok (frame ++ rest) := by
  have hne : sealed ++ disk ≠ [] := by
    intro hnil
    rw [(append_eq_nil_iff.mp hnil).1] at hlength
    have hzero : 0 = frameTagSize + min frameSize remaining := hlength
    simp [frameTagSize] at hzero
    omega
  have htake : (sealed ++ disk).take (frameTagSize + min frameSize remaining) = sealed := by
    rw [← hlength]
    simp
  have hdrop : (sealed ++ disk).drop (frameTagSize + min frameSize remaining) = disk := by
    rw [← hlength]
    simp
  have hbound : frameTagSize + min frameSize remaining ≤ (sealed ++ disk).length := by
    rw [← hlength, length_append]
    omega
  unfold decryptFrom
  rw [if_neg hne]
  simp only [bind_eq_ok, ensure_eq_ok, pure_eq_ok, htake, hdrop]
  exact ⟨(), hbound, frame, hframe, rest, hrest, rfl⟩

section

variable (hlaw : key.Lawful) (sigma : String) (baseNonce : Bytes)

include hlaw

theorem encryptFrame_eq_ok (frameIndex : ℕ) (plaintext : Bytes) :
    ∃ sealed, encryptFrame key sigma baseNonce frameIndex plaintext = .ok sealed ∧
      sealed.length = frameTagSize + plaintext.length ∧
      decryptFrame key sigma baseNonce frameIndex sealed = .ok plaintext := by
  obtain ⟨ciphertext, tag, hseal, htag, hlength, hopen⟩ :=
    hlaw.open_seal (frameNonce baseNonce frameIndex) (textBytes sigma) plaintext
  have htagLength : tag.length = frameTagSize := htag
  refine ⟨tag ++ ciphertext, ?_, ?_, ?_⟩
  · rw [encryptFrame, hseal]
  · rw [length_append, hlength, htagLength]
  · have hdrop : (tag ++ ciphertext).drop frameTagSize = ciphertext := by simp [← htagLength]
    have htake : (tag ++ ciphertext).take frameTagSize = tag := by simp [← htagLength]
    simp only [decryptFrame, bind_eq_ok, ensure_eq_ok, need_eq_ok, hdrop, htake]
    exact ⟨(), by simp [htagLength], hopen⟩

theorem encryptFrom_spec {fuel : ℕ} (frameIndex : ℕ) {plaintext : Bytes}
    (hfuel : plaintext.length < fuel) :
    ∃ sealed, encryptFrom key sigma baseNonce fuel frameIndex plaintext = .ok sealed ∧
      plaintext.length ≤ sealed.length ∧
      (plaintext ≠ [] ∨ frameIndex = 0 → plaintext.length < sealed.length) ∧
      ∀ fuel', sealed.length ≤ fuel' →
        decryptFrom key sigma baseNonce fuel' frameIndex sealed plaintext.length = .ok plaintext := by
  induction fuel generalizing frameIndex plaintext with
  | zero => exact absurd hfuel (Nat.not_lt_zero _)
  | succ fuel ih =>
    obtain ⟨sealed, hseal, hlength, hopen⟩ :=
      encryptFrame_eq_ok hlaw sigma baseNonce frameIndex (plaintext.take frameSize)
    unfold encryptFrom
    by_cases hdone : plaintext.take frameSize = [] ∧ 0 < frameIndex
    · -- nothing is left after the frames before
      obtain rfl := (take_eq_nil_iff.mp hdone.1).resolve_left (by decide)
      dsimp only
      rw [if_pos hdone]
      refine ⟨[], rfl, Nat.le_refl _, ?_, ?_⟩
      · rintro (h | h)
        · exact absurd rfl h
        · omega
      · intro fuel' _
        exact decryptFrom_nil fuel' frameIndex _
    · dsimp only
      rw [if_neg hdone]
      by_cases hshort : (plaintext.take frameSize).length < frameSize
      · -- the last frame: it holds all that is left
        have hframe : plaintext.take frameSize = plaintext := by
          rw [length_take] at hshort
          exact take_of_length_le (by omega)
        rw [hframe] at hseal hlength hopen hshort
        refine ⟨sealed, ?_, by omega, fun _ => by simp [frameTagSize] at hlength; omega, ?_⟩
        · simp only [bind_eq_ok, hframe, if_pos hshort, pure_eq_ok]
          exact ⟨sealed, hseal, rfl⟩
        · intro fuel' hfuel'
          simp only [frameTagSize] at hlength
          obtain ⟨fuel'', rfl⟩ : ∃ n, fuel' = n + 1 := ⟨fuel' - 1, by omega⟩
          have hround : decryptFrom key sigma baseNonce (fuel'' + 1) frameIndex (sealed ++ [])
              plaintext.length = .ok (plaintext ++ []) :=
            decryptFrom_append (by rw [hlength]; congr 1; omega) hopen
              (decryptFrom_nil fuel'' (frameIndex + 1) _)
          simpa using hround
      · -- a full frame, and then the others
        have hfull : frameSize ≤ plaintext.length := by
          rw [length_take] at hshort
          omega
        have hframeLength : (plaintext.take frameSize).length = frameSize := by
          rw [length_take]
          omega
        have hpositive : 0 < frameSize := by decide
        have hleft : (plaintext.drop frameSize).length < fuel := by
          rw [length_drop]
          omega
        obtain ⟨rest, hrest, hle, -, hround⟩ := ih (frameIndex + 1) hleft
        rw [length_drop] at hle hround
        rw [hframeLength] at hlength
        refine ⟨sealed ++ rest, ?_, ?_, ?_, ?_⟩
        · simp only [bind_eq_ok, if_neg hshort, pure_eq_ok]
          exact ⟨sealed, hseal, rest, hrest, rfl⟩
        · rw [length_append]
          omega
        · intro _
          rw [length_append]
          simp [frameTagSize] at hlength
          omega
        · intro fuel' hfuel'
          rw [length_append] at hfuel'
          obtain ⟨fuel'', rfl⟩ : ∃ n, fuel' = n + 1 := ⟨fuel' - 1, by omega⟩
          have htail : decryptFrom key sigma baseNonce fuel'' (frameIndex + 1) rest
              (plaintext.length - (plaintext.take frameSize).length) =
                .ok (plaintext.drop frameSize) := by
            rw [hframeLength]
            exact hround fuel'' (by omega)
          have hjoined := decryptFrom_append (by rw [hlength]; congr 1; omega) hopen htail
          rwa [take_append_drop] at hjoined

/-- **Sealed frames open again**, under the same label and base nonce. -/
theorem decryptAll_encryptStreaming (plaintext : Bytes) :
    ∃ disk, encryptStreaming key sigma baseNonce plaintext = .ok disk ∧
      decryptAll key sigma baseNonce disk plaintext.length = .ok plaintext := by
  obtain ⟨disk, hdisk, -, -, hopen⟩ :=
    encryptFrom_spec hlaw sigma baseNonce 0 (Nat.lt_succ_self plaintext.length)
  refine ⟨disk, hdisk, ?_⟩
  simp only [decryptAll, bind_eq_ok, ensure_eq_ok, pure_eq_ok]
  exact ⟨plaintext, hopen _ (Nat.le_refl _), (), rfl, rfl⟩

omit hlaw in
theorem decryptAll_encryptStreaming_two : ∃ disk, encryptStreaming .sample "s" [7] [1, 2] = .ok disk ∧
    decryptAll .sample "s" [7] disk 2 = .ok [1, 2] :=
  decryptAll_encryptStreaming Aead.lawful_sample "s" [7] [1, 2]

variable {sigma baseNonce}

theorem length_encryptStreaming {plaintext disk : Bytes}
    (h : encryptStreaming key sigma baseNonce plaintext = .ok disk) :
    plaintext.length < disk.length := by
  obtain ⟨disk', hdisk, -, hlonger, -⟩ :=
    encryptFrom_spec hlaw sigma baseNonce 0 (Nat.lt_succ_self plaintext.length)
  rw [encryptStreaming, hdisk] at h
  cases h
  exact hlonger (.inr rfl)

end

end BlobEncryptor

end KappaRegistry
