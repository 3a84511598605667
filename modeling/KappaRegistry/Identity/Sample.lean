import KappaRegistry.Identity.Types
import KappaRegistry.Primitives.Instance

/-!
# A Concrete Codec for Identity Types

The codec of assertions and watermarks for concrete runs, on the self-delimiting fields of the
edge codec.
-/

namespace KappaRegistry

namespace SampleCodec

/-- `k` bytes of a number, least significant first. -/
def putNat : ℕ → ℕ → Bytes
  | 0, _ => []
  | k + 1, n => UInt8.ofNat (n % 256) :: putNat k (n / 256)

def getNat : ℕ → Bytes → Option (ℕ × Bytes)
  | 0, bytes => some (0, bytes)
  | k + 1, b :: bytes => (getNat k bytes).map fun (n, rest) => (b.toNat + 256 * n, rest)
  | _ + 1, [] => none

theorem getNat_putNat {k n : ℕ} (h : n < 256 ^ k) (rest : Bytes) :
    getNat k (putNat k n ++ rest) = some (n, rest) := by
  induction k generalizing n with
  | zero =>
    obtain rfl : n = 0 := by simpa using h
    rfl
  | succ k ih =>
    have hdiv : n / 256 < 256 ^ k := by
      rwa [Nat.div_lt_iff_lt_mul (by decide), ← Nat.pow_succ]
    have hsum : n % 256 + 256 * (n / 256) = n := Nat.mod_add_div n 256
    simp [putNat, getNat, ih hdiv, hsum]

def putU64 (n : UInt64) : Bytes := putNat 8 n.toNat

def getU64 (bytes : Bytes) : Option (UInt64 × Bytes) :=
  (getNat 8 bytes).map fun (n, rest) => (UInt64.ofNat n, rest)

@[simp] theorem getU64_putU64 (n : UInt64) (rest : Bytes) :
    getU64 (putU64 n ++ rest) = some (n, rest) := by
  have hlt : n.toNat < 256 ^ 8 := n.toNat_lt
  simp [getU64, putU64, getNat_putNat hlt]

def putWatermark (w : Watermark) : Bytes :=
  putText w.asserter ++ (putU64 w.invalidateBeforeMs ++ (putText w.reason ++ putU64 w.setAtMs))

def getWatermark (bytes : Bytes) : Option Watermark := do
  let (asserter, bytes) ← getText bytes
  let (invalidateBeforeMs, bytes) ← getU64 bytes
  let (reason, bytes) ← getText bytes
  let (setAtMs, _) ← getU64 bytes
  return { asserter, invalidateBeforeMs, reason, setAtMs }

theorem getWatermark_putWatermark (w : Watermark) : getWatermark (putWatermark w) = some w := by
  have hlast : getU64 (putU64 w.setAtMs) = some (w.setAtMs, []) := by
    simpa using getU64_putU64 w.setAtMs []
  simp [getWatermark, putWatermark, hlast]

def putAssertion (a : IdentityAssertion) : Bytes :=
  putText a.asserter ++ (putText a.subject ++ (putText a.facet ++ (putBytes a.value ++
    (putText a.basis ++ (putU64 a.validFromMs ++ (putOption putU64 a.validUntilMs ++
      putBytes a.signature))))))

def getAssertion (bytes : Bytes) : Option IdentityAssertion := do
  let (asserter, bytes) ← getText bytes
  let (subject, bytes) ← getText bytes
  let (facet, bytes) ← getText bytes
  let (value, bytes) ← getBytes bytes
  let (basis, bytes) ← getText bytes
  let (validFromMs, bytes) ← getU64 bytes
  let (validUntilMs, bytes) ← getOption getU64 bytes
  let (signature, _) ← getBytes bytes
  return { asserter, subject, facet, value, basis, validFromMs, validUntilMs, signature }

def putSuccession (s : IdentitySuccession) : Bytes :=
  putText s.oldAnchor ++ (putText s.newAnchor ++ (putText s.reason ++ (putU64 s.effectiveAtMs ++
    (putBytes s.oldSignature ++ putBytes s.newSignature))))

end SampleCodec

open SampleCodec

def IdentityCodec.sample : IdentityCodec where
  assertion := ⟨putAssertion, getAssertion⟩
  watermark := ⟨putWatermark, getWatermark⟩
  successionBytes := putSuccession
  watermark_time w w' h := by
    have hw : some w = some w' := (getWatermark_putWatermark w).symm.trans h
    rw [Option.some.inj hw]

end KappaRegistry
