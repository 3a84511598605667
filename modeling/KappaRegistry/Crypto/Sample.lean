import KappaRegistry.Crypto.SigV4
import KappaRegistry.Crypto.TableEncryptor
import KappaRegistry.Primitives.Instance

/-!
# A Cipher and a Hash for Concrete Runs

The cipher that concrete runs use leaves the text as it is and authenticates it with a checksum
of nonce, associated data and text. It keeps the promise of `Aead.Lawful`. The hash functions of
the signature scheme are injective ones that write their arguments out.
-/

namespace KappaRegistry

open SampleCodec

/-- A digest of a given length, one checksum a byte. -/
def sampleDigest (len : ℕ) (bytes : Bytes) : Bytes :=
  (List.range len).map fun i => UInt8.ofNat (checksum (i :: bytes.map UInt8.toNat))

@[simp] theorem length_sampleDigest (len : ℕ) (bytes : Bytes) :
    (sampleDigest len bytes).length = len := by
  simp [sampleDigest]

def sampleTag (nonce aad text : Bytes) : Bytes :=
  sampleDigest 16 (putBytes nonce ++ putBytes aad ++ text)

def Aead.sample : Aead where
  nonceLen := 12
  sealDetached nonce aad text := some (text, sampleTag nonce aad text)
  openDetached nonce aad text tag := if tag = sampleTag nonce aad text then some text else none

theorem Aead.lawful_sample : Aead.sample.Lawful where
  open_seal nonce aad plaintext :=
    ⟨plaintext, sampleTag nonce aad plaintext, rfl, by simp [sampleTag], rfl, if_pos rfl⟩

def TableEncryptor.sample : TableEncryptor where
  key := .sample
  keyedHash := sampleDigest 32

/-- Hash functions with short results that do not look at their arguments. -/
def MacHash.constant : MacHash where
  sha256 _ := [0xe3]
  hmacSha256 _ _ := [0xab]

/-- Hash functions that forget nothing. -/
def MacHash.sample : MacHash where
  sha256 data := data
  hmacSha256 key data := key.flatMap (fun b => [1, b]) ++ 0 :: data

theorem MacHash.sample_sha256_injective : Function.Injective MacHash.sample.sha256 :=
  fun _ _ h => h

theorem MacHash.sample_hmac_injective : Function.Injective2 MacHash.sample.hmacSha256 := by
  intro k k' m m' h
  simp only [MacHash.sample] at h
  induction k generalizing k' with
  | nil =>
    cases k' with
    | nil => simpa using h
    | cons b k' => simp at h
  | cons a k ih =>
    cases k' with
    | nil => simp at h
    | cons b k' =>
      simp only [List.flatMap_cons, List.cons_append, List.nil_append, List.cons.injEq,
        true_and] at h
      obtain ⟨rfl, hrest⟩ := h
      obtain ⟨rfl, rfl⟩ := ih hrest
      exact ⟨rfl, rfl⟩

end KappaRegistry
