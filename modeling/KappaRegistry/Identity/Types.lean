import KappaRegistry.Primitives

/-!
# Identity Types

The records of `kappa-core/src/identity`. An anchor asserts facets of a subject; it may revoke
single assertions, set a watermark that voids all its assertions from before some time, and hand
over to a successor. Timestamps are 64-bit, as in the source.
-/

namespace KappaRegistry

/-- `asserter` states `value` for a facet of `subject`. -/
structure IdentityAssertion where
  asserter : String
  subject : String
  facet : String
  value : Bytes
  basis : String
  validFromMs : UInt64
  validUntilMs : Option UInt64
  signature : Bytes
  deriving DecidableEq

inductive RevocationReason where
  | keyCompromise
  | superseded
  | erroneous
  | privilegeWithdrawn
  | cessationOfOperation
  deriving DecidableEq, Repr

/-- `asserter` withdraws the assertion with a given label. -/
structure Revocation where
  asserter : String
  assertionKappa : String
  reason : RevocationReason
  revokedAtMs : UInt64
  signature : Bytes
  deriving DecidableEq

/-- `asserter` withdraws all its assertions from before some time. -/
structure Watermark where
  asserter : String
  invalidateBeforeMs : UInt64
  reason : String
  setAtMs : UInt64
  deriving DecidableEq

/-- Whether an assertion's start is before the watermark. -/
def Watermark.invalidates (w : Watermark) (validFromMs : UInt64) : Bool :=
  decide (validFromMs < w.invalidateBeforeMs)

/-- `oldAnchor` hands over to `newAnchor`. -/
structure IdentitySuccession where
  oldAnchor : String
  newAnchor : String
  reason : String
  effectiveAtMs : UInt64
  oldSignature : Bytes
  newSignature : Bytes
  deriving DecidableEq

/-- The canonical codecs of the identity types. Reading a watermark back may change its texts,
which dCBOR brings into normal form, but never its time. -/
structure IdentityCodec where
  assertion : Canonical IdentityAssertion
  watermark : Canonical Watermark
  successionBytes : IdentitySuccession → Bytes
  watermark_time : ∀ w w', watermark.decode (watermark.bytes w) = some w' →
    w'.invalidateBeforeMs = w.invalidateBeforeMs

end KappaRegistry
