import KappaRegistry.Identity.Sample
import Mathlib.Data.List.Count

/-!
# Resolving Identity Assertions

`kappa-core/src/identity`: an anchor asserts facets of a subject, may revoke single assertions, and
may set a watermark that voids all its assertions from before some time. `resolveAt` sorts a list of
assertions into the valid, the revoked and the watermarked at a given time, and passes over those
whose validity interval does not contain that time.

`resolveAll` is documented to filter "without time bounds". It runs `resolveAt` at the last
representable time, where every assertion with an expiry has expired, so it drops them.
`resolveAll_places_iff` is the exact extent: every assertion is accounted for iff none of them
expires before the end of time.
-/

namespace KappaRegistry

open List Revocation Watermark

/-! ## Resolution -/

/-- The assertions about a subject, sorted. -/
structure ResolutionResult where
  valid : List IdentityAssertion
  revoked : List (IdentityAssertion × Revocation)
  watermarked : List (IdentityAssertion × Watermark)
  deriving DecidableEq

/-- Where one round of the loop puts an assertion. -/
inductive Fate where
  | skipped
  | revoked (r : Revocation)
  | watermarked (w : Watermark)
  | valid

variable (prim : Primitives) (codec : IdentityCodec) (revocations : List Revocation)
  (watermarks : List Watermark)
  (assertions : List IdentityAssertion) (a : IdentityAssertion) (atMs : UInt64)

def kappaOfAssertion : String :=
  prim.kappaFromBytes (codec.assertion.bytes a)

/-- A revocation by the same asserter that names the assertion's label. -/
def Revocation.voids (r : Revocation) : Bool :=
  r.assertionKappa == kappaOfAssertion prim codec a && r.asserter == a.asserter

/-- A watermark by the same asserter that invalidates the assertion's start. -/
def Watermark.voids (w : Watermark) : Bool :=
  w.asserter == a.asserter && w.invalidates a.validFromMs

/-- The body of the loop, as far as deciding where the assertion goes. -/
def fate (a : IdentityAssertion) : Fate :=
  if a.validFromMs > atMs then .skipped
  else if a.validUntilMs.any fun expiry => decide (expiry < atMs) then .skipped
  else
    match revocations.find? (voids prim codec a) with
    | some r => .revoked r
    | none =>
      match watermarks.find? (voids a) with
      | some w => .watermarked w
      | none => .valid

def resolveStep (acc : ResolutionResult) (a : IdentityAssertion) : ResolutionResult :=
  match fate prim codec revocations watermarks atMs a with
  | .skipped => acc
  | .revoked r => { acc with revoked := acc.revoked ++ [(a, r)] }
  | .watermarked w => { acc with watermarked := acc.watermarked ++ [(a, w)] }
  | .valid => { acc with valid := acc.valid ++ [a] }

/-- Resolve assertions about a subject at a specific timestamp. -/
def resolveAt : ResolutionResult :=
  assertions.foldl (resolveStep prim codec revocations watermarks atMs) ⟨[], [], []⟩

/-- `u64::MAX`. -/
def endOfTime : UInt64 := 0xFFFFFFFFFFFFFFFF

/-- Resolve all assertions about a subject across all asserters. -/
def resolveAll : ResolutionResult :=
  resolveAt prim codec revocations watermarks assertions endOfTime

/-! ## The loop -/

def Fate.ifValid : Fate → Option IdentityAssertion
  | .valid => some a
  | _ => none

def Fate.ifRevoked : Fate → Option (IdentityAssertion × Revocation)
  | .revoked r => some (a, r)
  | _ => none

def Fate.ifWatermarked : Fate → Option (IdentityAssertion × Watermark)
  | .watermarked w => some (a, w)
  | _ => none

theorem resolveAt_eq : resolveAt prim codec revocations watermarks assertions atMs =
      let fateOf := fate prim codec revocations watermarks atMs
      { valid := assertions.filterMap fun a => (fateOf a).ifValid a
        revoked := assertions.filterMap fun a => (fateOf a).ifRevoked a
        watermarked := assertions.filterMap fun a => (fateOf a).ifWatermarked a } := by
  suffices h : ∀ acc : ResolutionResult,
      assertions.foldl (resolveStep prim codec revocations watermarks atMs) acc =
        let fateOf := fate prim codec revocations watermarks atMs
        { valid := acc.valid ++ assertions.filterMap fun a => (fateOf a).ifValid a
          revoked := acc.revoked ++ assertions.filterMap fun a => (fateOf a).ifRevoked a
          watermarked :=
            acc.watermarked ++ assertions.filterMap fun a => (fateOf a).ifWatermarked a } by
    simpa [resolveAt] using h ⟨[], [], []⟩
  induction assertions with
  | nil => intro acc; simp
  | cons a as ih =>
    intro acc
    rw [foldl_cons, ih]
    cases hf : fate prim codec revocations watermarks atMs a <;>
      simp [resolveStep, hf, Fate.ifValid, Fate.ifRevoked, Fate.ifWatermarked]

/-! ## Where assertions go -/

/-- The three lists of a result. -/
inductive Place where
  | valid
  | revoked
  | watermarked
  deriving DecidableEq

/-- The assertions assigned to one of the lists, in order. -/
def assigned (p : Place) (assertions : List IdentityAssertion) (places : List Place) :
    List IdentityAssertion :=
  ((assertions.zip places).filter fun x => x.2 == p).map Prod.fst

/-- A result places every assertion of the input: there is one list for each position of the input
such that the lists of the result are, in order and with multiplicity, the assertions assigned to
them, and an assertion is assigned to the valid ones iff no revocation and no watermark of its
asserter voids it. -/
def PlacesEvery (result : ResolutionResult) : Prop :=
  ∃ places : List Place, places.length = assertions.length ∧
    result.valid = assigned .valid assertions places ∧
    result.revoked.map Prod.fst = assigned .revoked assertions places ∧
    result.watermarked.map Prod.fst = assigned .watermarked assertions places ∧
    ∀ x ∈ assertions.zip places, x.2 = .valid ↔
      (∀ r ∈ revocations, voids prim codec x.1 r = false) ∧
      ∀ w ∈ watermarks, voids x.1 w = false

@[simp] theorem assigned_cons (p q : Place) (a : IdentityAssertion) (as : List IdentityAssertion)
    (ps : List Place) : assigned p (a :: as) (q :: ps) =
      if q = p then a :: assigned p as ps else assigned p as ps := by
  by_cases h : q = p <;> simp [assigned, h]

theorem length_assigned (places : List Place) (h : places.length = assertions.length) :
    (assigned .valid assertions places).length + (assigned .revoked assertions places).length +
      (assigned .watermarked assertions places).length = assertions.length := by
  induction assertions generalizing places with
  | nil => simp [assigned]
  | cons a as ih =>
    cases places with
    | nil => simp at h
    | cons p ps =>
      have hlen := ih ps (by simpa using h)
      cases p <;> simp <;> omega

theorem filterMap_eq_assigned {p : Place} {placeOf : IdentityAssertion → Place}
    {select : IdentityAssertion → Option IdentityAssertion} {assertions : List IdentityAssertion}
    (h : ∀ a ∈ assertions, select a = if placeOf a = p then some a else none) :
    assertions.filterMap select = assigned p assertions (assertions.map placeOf) := by
  induction assertions with
  | nil => rfl
  | cons a as ih =>
    rw [map_cons, assigned_cons, ← ih fun b hb => h b (mem_cons_of_mem _ hb),
      filterMap_cons, h a mem_cons_self]
    split_ifs <;> rfl

/-- The list an assertion is put into, once it is not skipped. -/
def Fate.place : Fate → Place
  | .skipped | .valid => .valid
  | .revoked _ => .revoked
  | .watermarked _ => .watermarked

section

variable {prim codec revocations watermarks} {atMs : UInt64} {assertions : List IdentityAssertion}
  {a : IdentityAssertion}

theorem fate_eq_valid_iff (h : fate prim codec revocations watermarks atMs a ≠ .skipped) :
    (fate prim codec revocations watermarks atMs a).place = .valid ↔
      (∀ r ∈ revocations, voids prim codec a r = false) ∧
      ∀ w ∈ watermarks, voids a w = false := by
  unfold fate at h ⊢
  split_ifs at h ⊢
  · exact absurd rfl h
  · exact absurd rfl h
  · cases hr : revocations.find? (voids prim codec a) with
    | some r =>
      have hvoid := find?_some hr
      have hmem := mem_of_find?_eq_some hr
      simp only [Fate.place, reduceCtorEq, false_iff]
      intro hnone
      simp [hnone.1 r hmem] at hvoid
    | none =>
      have hrev : ∀ r ∈ revocations, voids prim codec a r = false := by
        simpa using find?_eq_none.mp hr
      cases hw : watermarks.find? (voids a) with
      | some w =>
        have hvoid := find?_some hw
        have hmem := mem_of_find?_eq_some hw
        simp only [Fate.place, reduceCtorEq, false_iff]
        intro hnone
        simp [hnone.2 w hmem] at hvoid
      | none =>
        have hwm : ∀ w ∈ watermarks, voids a w = false := by
          simpa using find?_eq_none.mp hw
        simp only [Fate.place, true_iff]
        exact ⟨hrev, hwm⟩

theorem resolveAt_placesEvery
    (h : ∀ a ∈ assertions, fate prim codec revocations watermarks atMs a ≠ .skipped) :
    PlacesEvery prim codec revocations watermarks assertions
      (resolveAt prim codec revocations watermarks assertions atMs) := by
  rw [resolveAt_eq]
  refine ⟨assertions.map fun a => (fate prim codec revocations watermarks atMs a).place,
    by simp, ?_, ?_, ?_, ?_⟩
  · refine filterMap_eq_assigned fun a ha => ?_
    have hne := h a ha
    cases hf : fate prim codec revocations watermarks atMs a <;> simp_all [Fate.ifValid, Fate.place]
  · rw [map_filterMap]
    refine filterMap_eq_assigned fun a _ => ?_
    cases fate prim codec revocations watermarks atMs a <;> rfl
  · rw [map_filterMap]
    refine filterMap_eq_assigned fun a _ => ?_
    cases fate prim codec revocations watermarks atMs a <;> rfl
  · intro x hx
    obtain ⟨i, hi, rfl⟩ := mem_iff_getElem.mp hx
    simp only [getElem_zip, getElem_map]
    exact fate_eq_valid_iff (h _ (getElem_mem _))

theorem length_resolveAt :
    (resolveAt prim codec revocations watermarks assertions atMs).valid.length +
      (resolveAt prim codec revocations watermarks assertions atMs).revoked.length +
      (resolveAt prim codec revocations watermarks assertions atMs).watermarked.length =
    assertions.countP fun a =>
      match fate prim codec revocations watermarks atMs a with
      | .skipped => false
      | _ => true := by
  rw [resolveAt_eq]
  induction assertions with
  | nil => rfl
  | cons a as ih =>
    cases hf : fate prim codec revocations watermarks atMs a <;>
      simp [hf, Fate.ifValid, Fate.ifRevoked, Fate.ifWatermarked] at ih ⊢ <;> omega

theorem fate_endOfTime_eq_skipped :
    fate prim codec revocations watermarks endOfTime a = .skipped ↔
      ∃ expiry, a.validUntilMs = some expiry ∧ expiry ≠ endOfTime := by
  have hle : ∀ t : UInt64, t ≤ endOfTime := fun t =>
    UInt64.le_iff_toNat_le.mpr (Nat.le_of_lt_succ t.toNat_lt)
  have hfrom : ¬ a.validFromMs > endOfTime := UInt64.not_lt.mpr (hle _)
  unfold fate
  rw [if_neg hfrom]
  cases hexp : a.validUntilMs with
  | none =>
    simp only [Option.any_none, Bool.false_eq_true, if_false, reduceCtorEq, false_and,
      exists_false, iff_false]
    split
    · simp
    · split <;> simp
  | some expiry =>
    by_cases hend : expiry = endOfTime
    · subst hend
      simp only [Option.any_some, UInt64.lt_irrefl, decide_false, Bool.false_eq_true, if_false]
      split
      · simp
      · split <;> simp
    · have hlt : expiry < endOfTime := UInt64.lt_of_le_of_ne (hle _) hend
      simp [hlt, hend]

theorem mem_valid_resolveAll :
    a ∈ (resolveAll prim codec revocations watermarks assertions).valid ↔
      a ∈ assertions ∧ (¬ ∃ expiry, a.validUntilMs = some expiry ∧ expiry ≠ endOfTime) ∧
        (∀ r ∈ revocations, voids prim codec a r = false) ∧
        ∀ w ∈ watermarks, voids a w = false := by
  have hskip : fate prim codec revocations watermarks endOfTime a = .skipped ↔ _ :=
    fate_endOfTime_eq_skipped
  rw [resolveAll, resolveAt_eq, ← hskip, mem_filterMap]
  constructor
  · intro ⟨b, hb, hvalid⟩
    cases hf : fate prim codec revocations watermarks endOfTime b with
    | valid =>
      rw [hf] at hvalid
      obtain rfl : b = a := Option.some.inj hvalid
      have hne : fate prim codec revocations watermarks endOfTime b ≠ .skipped := by simp [hf]
      exact ⟨hb, hne, (fate_eq_valid_iff hne).mp (by rw [hf]; rfl)⟩
    | skipped | revoked r | watermarked w => simp [hf, Fate.ifValid] at hvalid
  · intro ⟨ha, hne, hfree⟩
    refine ⟨a, ha, ?_⟩
    have hplace := (fate_eq_valid_iff hne).mpr hfree
    cases hf : fate prim codec revocations watermarks endOfTime a with
    | valid => rfl
    | skipped => exact absurd hf hne
    | revoked r | watermarked w => simp [hf, Fate.place] at hplace

end

/-- **The extent of `resolveAll`.** -/
theorem resolveAll_places_iff (assertions : List IdentityAssertion) :
    PlacesEvery prim codec revocations watermarks assertions
        (resolveAll prim codec revocations watermarks assertions) ↔
      ∀ a ∈ assertions, ∀ expiry, a.validUntilMs = some expiry → expiry = endOfTime := by
  constructor
  · intro ⟨places, hlen, hvalid, hrevoked, hwatermarked, _⟩ a ha
    -- the lists together are as long as the input, so the loop skipped nothing
    have hcount := length_assigned assertions places hlen
    rw [← hvalid, ← hrevoked, ← hwatermarked, List.length_map, List.length_map, resolveAll,
      length_resolveAt, List.countP_eq_length] at hcount
    by_contra hexp
    push Not at hexp
    have hskip : fate prim codec revocations watermarks endOfTime a = .skipped :=
      fate_endOfTime_eq_skipped.mpr hexp
    simpa [hskip] using hcount a ha
  · intro h
    refine resolveAt_placesEvery fun a ha hskip => ?_
    obtain ⟨expiry, hsome, hne⟩ := fate_endOfTime_eq_skipped.mp hskip
    exact hne (h a ha expiry hsome)

/-- An assertion that expires in 2030, and that nothing voids. -/
def expiringAssertion : IdentityAssertion where
  asserter := "sha256:a1"
  subject := "sha256:b2"
  facet := "key/signing"
  value := [1, 2, 3]
  basis := "self"
  validFromMs := 1700000000000
  validUntilMs := some 1893456000000
  signature := []

/-- `resolveAll` loses it. -/
theorem resolveAll_drops_expiring :
    resolveAll .sample .sample [] [] [expiringAssertion] = ⟨[], [], []⟩ ∧
      ¬ PlacesEvery .sample .sample [] [] [expiringAssertion]
        (resolveAll .sample .sample [] [] [expiringAssertion]) := by
  have hempty : resolveAll .sample .sample [] [] [expiringAssertion] = ⟨[], [], []⟩ := by decide
  refine ⟨hempty, ?_⟩
  rw [hempty]
  intro ⟨places, hlen, hvalid, hrevoked, hwatermarked, _⟩
  have hcount := length_assigned [expiringAssertion] places hlen
  rw [← hvalid, ← hrevoked, ← hwatermarked] at hcount
  simp at hcount

end KappaRegistry
