import KappaRegistry.Lib.Bytes
import KappaRegistry.Types

/-!
# Sealing Table Rows

`kappa-store-redb/src/encrypted.rs`. A row's value is sealed under the store's key, with the row's
plaintext key as associated data, and with a nonce that is derived from the row's key alone. The
cipher and the keyed hash come from other crates and are parameters; `Aead.Lawful` is what the
cipher promises.
-/

namespace KappaRegistry

open Lib

/-- An authenticated cipher under a fixed key (`BulkAead`), with the tag kept apart. -/
structure Aead where
  /-- `nonce_len`. -/
  nonceLen : ℕ
  /-- `seal_detached` of a nonce, associated data and a plaintext: ciphertext and tag. -/
  sealDetached : Bytes → Bytes → Bytes → Option (Bytes × Bytes)
  /-- `open_detached` of a nonce, associated data, a ciphertext and its tag. -/
  openDetached : Bytes → Bytes → Bytes → Bytes → Option Bytes

/-- Opening undoes sealing under the same nonce and associated data, and a tag is 16 bytes long. -/
structure Aead.Lawful (aead : Aead) : Prop where
  open_seal : ∀ nonce aad plaintext, ∃ ciphertext tag,
    aead.sealDetached nonce aad plaintext = some (ciphertext, tag) ∧ tag.length = 16 ∧
      ciphertext.length = plaintext.length ∧
      aead.openDetached nonce aad ciphertext tag = some plaintext

/-- What sealing and opening fail with. -/
inductive EncryptionError where
  | keyInit
  | sealFailed
  | authFailed
  | truncatedValue
  deriving DecidableEq

def EncryptionError.display : EncryptionError → String
  | keyInit => "AEAD key initialization failed"
  | sealFailed => "AEAD seal failed"
  | authFailed => "AEAD authentication failed"
  | truncatedValue => "stored value too short for tag"

/-- A cipher and BLAKE3, both keyed with the store's key. -/
structure TableEncryptor where
  key : Aead
  keyedHash : Bytes → Bytes

namespace TableEncryptor

variable (enc : TableEncryptor) (plaintextKey : String)

def nonceForKey : Bytes :=
  (enc.keyedHash (textBytes "nonce:" ++ textBytes plaintextKey)).take 16

def rowNonce : Bytes := (enc.nonceForKey plaintextKey).take enc.key.nonceLen

/-- `encrypt_value`: the tag, and then the ciphertext. -/
def encryptValue (value : Bytes) : Except EncryptionError Bytes :=
  match enc.key.sealDetached (enc.rowNonce plaintextKey) (textBytes plaintextKey) value with
  | some (ciphertext, tag) => .ok (tag ++ ciphertext)
  | none => .error .sealFailed

def decryptValue (stored : Bytes) : Except EncryptionError Bytes := do
  ensure (16 ≤ stored.length) .truncatedValue
  need (enc.key.openDetached (enc.rowNonce plaintextKey) (textBytes plaintextKey) (stored.drop 16)
    (stored.take 16)) .authFailed

variable {enc}

/-- **A sealed value opens under its own key.** -/
theorem decryptValue_encryptValue (hlaw : enc.key.Lawful) (plaintextKey : String) (value : Bytes) :
    ∃ stored, enc.encryptValue plaintextKey value = .ok stored ∧
      enc.decryptValue plaintextKey stored = .ok value := by
  obtain ⟨ciphertext, tag, hseal, htag, -, hopen⟩ :=
    hlaw.open_seal (enc.rowNonce plaintextKey) (textBytes plaintextKey) value
  refine ⟨tag ++ ciphertext, by simp [encryptValue, hseal], ?_⟩
  have hdrop : (tag ++ ciphertext).drop 16 = ciphertext := by simp [← htag]
  have htake : (tag ++ ciphertext).take 16 = tag := by simp [← htag]
  simp only [decryptValue, bind_eq_ok, ensure_eq_ok, need_eq_ok, hdrop, htake]
  exact ⟨(), by simp [htag], hopen⟩

end TableEncryptor

end KappaRegistry
