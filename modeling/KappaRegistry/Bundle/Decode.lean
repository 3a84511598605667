import KappaRegistry.Bundle.Delta
import KappaRegistry.Lib.BigEndian
import KappaRegistry.Store.ContentAddressing

/-!
# Decoding Bundles

`decode` of `kappa-core/src/bundle.rs`: a header, entries that carry an object or a delta against an
earlier or an outside object, and a hash of everything before. Lengths are read from the wire, with
up to 64 bits, and flow into additions of `usize`, slices and requests of memory.

`usizeAdd` is an addition in an index computation: beyond 64 bits it panics in a debug build, and in a
release build it wraps to an index before the start of the next slice, which panics. `reserve` asks for
memory: `Vec` panics beyond `isize::MAX`, and a request for more than the allowance is an outcome of its
own. The allowance is `DECODE_MAX_BYTES`, the size of the input, and the sizes of the bases that the
resolver has given so far.

**`decode_safe_iff`**: a decoder that returns returns verified objects. It returns exactly if every
length that it reaches stays in 64 bits, and every delta that it applies stays within the allowance.
-/

namespace KappaRegistry

open Lib List

inductive BundleError where
  | truncated (what : String)
  | trailerMismatch
  | kappaMismatch (kappa : String)
  | deltaInNoDeltaBundle
  | decodeLimitExceeded
  | unsupportedEntryType (entryType : UInt8)
  | unresolvableBase (kappa : String)
  | delta (e : DeltaError)
  | label (e : LabelError)
  | invalid (message : String)
  deriving DecidableEq

/-- How a computation ends: with a value, with an error, with a panic, or at a request for too much
memory. -/
inductive Outcome (α : Type) where
  | ok (value : α)
  | err (e : BundleError)
  | panic
  | excess
  deriving DecidableEq

namespace Outcome

variable {α β : Type}

def bind (x : Outcome α) (f : α → Outcome β) : Outcome β :=
  match x with
  | .ok a => f a
  | .err e => .err e
  | .panic => .panic
  | .excess => .excess

instance : Monad Outcome where
  pure := .ok
  bind := bind

def Safe (x : Outcome α) : Prop := x ≠ .panic ∧ x ≠ .excess

instance [DecidableEq α] (x : Outcome α) : Decidable x.Safe := inferInstanceAs (Decidable (_ ∧ _))

@[simp] theorem safe_ok (a : α) : (ok a).Safe := ⟨nofun, nofun⟩

@[simp] theorem safe_err (e : BundleError) : (err e : Outcome α).Safe := ⟨nofun, nofun⟩

@[simp] theorem not_safe_panic : ¬ (panic : Outcome α).Safe := fun h => h.1 rfl

@[simp] theorem not_safe_excess : ¬ (excess : Outcome α).Safe := fun h => h.2 rfl

theorem ok_bind (a : α) (f : α → Outcome β) : (ok a >>= f) = f a := rfl

theorem safe_bind {x : Outcome α} {f : α → Outcome β} :
    (x >>= f).Safe ↔ x.Safe ∧ ∀ a, x = .ok a → (f a).Safe := by
  cases x with
  | ok a =>
    show (f a).Safe ↔ _
    simp
  | err e =>
    show (err e : Outcome β).Safe ↔ _
    simp
  | panic =>
    show (panic : Outcome β).Safe ↔ _
    simp
  | excess =>
    show (excess : Outcome β).Safe ↔ _
    simp

theorem bind_eq_ok {x : Outcome α} {f : α → Outcome β} {b : β} :
    (x >>= f) = .ok b ↔ ∃ a, x = .ok a ∧ f a = .ok b := by
  cases x with
  | ok a =>
    show f a = .ok b ↔ _
    simp
  | err e =>
    show Outcome.err e = .ok b ↔ _
    simp
  | panic =>
    show Outcome.panic = .ok b ↔ _
    simp
  | excess =>
    show Outcome.excess = .ok b ↔ _
    simp

end Outcome

def decodeMaxBytes : ℕ := 268435456

/-- An addition of `usize` in an index computation. -/
def usizeAdd (a b : ℕ) : Outcome ℕ := if 2 ^ 64 ≤ a + b then .panic else .ok (a + b)

def reserve (allowance n : ℕ) : Outcome Unit :=
  if 2 ^ 63 ≤ n then .panic else if allowance < n then .excess else .ok ()

theorem safe_usizeAdd {a b : ℕ} : (usizeAdd a b).Safe ↔ a + b < 2 ^ 64 := by
  unfold usizeAdd
  split
  · simp
    omega
  · simp
    omega

theorem usizeAdd_eq_ok {a b c : ℕ} : usizeAdd a b = .ok c ↔ a + b < 2 ^ 64 ∧ c = a + b := by
  unfold usizeAdd
  split
  · simp
    omega
  · simp
    omega

theorem safe_reserve {allowance n : ℕ} : (reserve allowance n).Safe ↔ n < 2 ^ 63 ∧ n ≤ allowance := by
  unfold reserve
  split
  · simp
    omega
  · split
    · simp
      omega
    · simp
      omega

open Outcome

/-! ## Fields -/

variable (p : Bytes) (pos : ℕ)

/-- `&p[pos..pos + len]`, within bounds. -/
def slice (len : ℕ) : Bytes := (p.drop pos).take len

/-- `parse_kappa_field`: the text, and the position after it. -/
def parseKappaField : Outcome (String × ℕ) := do
  let start ← usizeAdd pos 2
  if p.length < start then .err (.truncated "kappa length")
  else
    let kl := fromBigEndian (slice p pos 2)
    let stop ← usizeAdd start kl
    if p.length < stop then .err (.truncated "kappa")
    else
      match fromUtf8 (slice p start kl) with
      | none => .err (.invalid "kappa not UTF-8")
      | some kappa => .ok (kappa, stop)

/-- `parse_content_field`: the bytes, and the position after them. -/
def parseContentField (allowance : ℕ) (p : Bytes) (pos : ℕ) : Outcome (Bytes × ℕ) := do
  let start ← usizeAdd pos 8
  if p.length < start then .err (.truncated "content length")
  else
    let cl := fromBigEndian (slice p pos 8)
    let stop ← usizeAdd start cl
    if p.length < stop then .err (.truncated "content")
    else do
      reserve allowance cl
      .ok (slice p start cl, stop)

/-- A length field at a position stays in 64 bits with what is before it. -/
def LengthFits : Prop :=
  pos + 8 ≤ p.length → pos + 8 + fromBigEndian (slice p pos 8) < 2 ^ 64

theorem length_slice {p : Bytes} {pos len : ℕ}
    (h : pos + len ≤ p.length) : (slice p pos len).length = len := by
  rw [slice, length_take, length_drop]
  omega

section

variable {p : Bytes} {pos : ℕ}

theorem kappaLength_lt (h : pos + 2 ≤ p.length) : fromBigEndian (slice p pos 2) < 65536 := by
  have hlt := fromBigEndian_lt (slice p pos 2)
  rwa [length_slice h] at hlt

theorem safe_parseKappaField (hp : p.length < 2 ^ 63) (hpos : pos ≤ p.length) :
    (parseKappaField p pos).Safe := by
  unfold parseKappaField
  rw [safe_bind, safe_usizeAdd]
  refine ⟨by omega, ?_⟩
  intro start hstart
  obtain ⟨-, rfl⟩ := usizeAdd_eq_ok.mp hstart
  split_ifs with hlen
  · exact safe_err _
  · have hkl : fromBigEndian (slice p pos 2) < 65536 := kappaLength_lt (by omega)
    rw [safe_bind, safe_usizeAdd]
    refine ⟨by omega, ?_⟩
    intro stop _
    split
    · exact safe_err _
    · split
      · exact safe_err _
      · exact safe_ok _

theorem parseKappaField_pos {kappa : String} {stop : ℕ} (h : parseKappaField p pos = .ok (kappa, stop)) :
    stop ≤ p.length := by
  obtain ⟨start, -, h⟩ := bind_eq_ok.mp h
  split at h
  · cases h
  · obtain ⟨stop', -, h⟩ := bind_eq_ok.mp h
    split at h
    · cases h
    · rename_i hstop
      split at h
      · cases h
      · cases h
        omega

theorem safe_parseContentField {allowance : ℕ} (hp : p.length < 2 ^ 63) (hallow : p.length ≤ allowance)
    (hpos : pos ≤ p.length) : (parseContentField allowance p pos).Safe ↔ LengthFits p pos := by
  unfold parseContentField LengthFits
  rw [safe_bind, safe_usizeAdd]
  constructor
  · rintro ⟨-, h⟩ hlen
    have h := h (pos + 8) (usizeAdd_eq_ok.mpr ⟨by omega, rfl⟩)
    rw [if_neg (by omega)] at h
    exact safe_usizeAdd.mp (safe_bind.mp h).1
  · intro h
    refine ⟨by omega, ?_⟩
    intro start hstart
    obtain ⟨-, rfl⟩ := usizeAdd_eq_ok.mp hstart
    split_ifs with hlen
    · exact safe_err _
    · rw [safe_bind, safe_usizeAdd]
      refine ⟨h (by omega), ?_⟩
      intro stop hstop
      obtain ⟨-, rfl⟩ := usizeAdd_eq_ok.mp hstop
      split
      · exact safe_err _
      · rw [safe_bind, safe_reserve]
        exact ⟨by omega, fun _ _ => safe_ok _⟩

theorem parseContentField_pos {allowance : ℕ} {content : Bytes} {stop : ℕ}
    (h : parseContentField allowance p pos = .ok (content, stop)) :
    stop ≤ p.length ∧ content.length ≤ p.length := by
  obtain ⟨start, -, h⟩ := bind_eq_ok.mp h
  split at h
  · cases h
  · obtain ⟨stop', -, h⟩ := bind_eq_ok.mp h
    split at h
    · cases h
    · rename_i hstop
      obtain ⟨-, -, h⟩ := bind_eq_ok.mp h
      cases h
      refine ⟨by omega, ?_⟩
      rw [slice, length_take, length_drop]
      omega

end

/-! ## Deltas -/

def deltaSizes (delta : Bytes) : Except DeltaError (ℕ × ℕ × Bytes) := do
  let (baseSize, rest) ← decodeVarint delta
  let (resultSize, rest) ← decodeVarint rest
  return (baseSize, resultSize, rest)

/-- The memory that `apply_delta` asks for: the declared size of the result, and what the result
grows to. -/
def reserveDelta (allowance : ℕ) (base delta : Bytes) : Outcome Unit :=
  match deltaSizes delta with
  | .error _ => .ok ()
  | .ok (baseSize, resultSize, rest) =>
    if base.length ≠ baseSize then .ok ()
    else do
      reserve allowance resultSize
      reserve allowance (emitted base rest.length rest)

def Outcome.ofDelta : Except DeltaError Bytes → Outcome Bytes
  | .error e => .err (.delta e)
  | .ok content => .ok content

theorem Outcome.safe_ofDelta (result : Except DeltaError Bytes) : (ofDelta result).Safe := by
  cases result with
  | error e => exact safe_err _
  | ok content => exact safe_ok _

/-- `apply_delta` as `decode` calls it. -/
def applyDeltaIn (allowance : ℕ) (base delta : Bytes) : Outcome Bytes := do
  reserveDelta allowance base delta
  .ofDelta (applyDelta base delta)

/-- A delta for this base declares and emits no more than the allowance. -/
def DeltaFits (allowance : ℕ) (base delta : Bytes) : Prop :=
  ∀ resultSize rest, deltaSizes delta = .ok (base.length, resultSize, rest) →
    (resultSize < 2 ^ 63 ∧ resultSize ≤ allowance) ∧
      emitted base rest.length rest < 2 ^ 63 ∧ emitted base rest.length rest ≤ allowance

theorem reserve_eq_ok {allowance n : ℕ}
    (h : n < 2 ^ 63 ∧ n ≤ allowance) : reserve allowance n = .ok () := by
  rw [reserve, if_neg (by omega), if_neg (by omega)]

theorem safe_applyDeltaIn {allowance : ℕ} {base delta : Bytes} :
    (applyDeltaIn allowance base delta).Safe ↔ DeltaFits allowance base delta := by
  unfold applyDeltaIn
  rw [safe_bind]
  refine (and_iff_left fun _ _ => safe_ofDelta _).trans ?_
  unfold reserveDelta DeltaFits
  cases hsizes : deltaSizes delta with
  | error e => simp
  | ok sizes =>
    obtain ⟨baseSize, resultSize, rest⟩ := sizes
    dsimp only
    by_cases hbase : base.length = baseSize
    · subst hbase
      rw [if_neg (by simp), safe_bind, safe_reserve]
      constructor
      · rintro ⟨hresult, hgrow⟩ _ _ heq
        cases heq
        exact ⟨hresult, safe_reserve.mp (hgrow () (reserve_eq_ok hresult))⟩
      · intro h
        obtain ⟨hresult, hgrow⟩ := h resultSize rest rfl
        exact ⟨hresult, fun _ _ => safe_reserve.mpr hgrow⟩
    · rw [if_pos hbase]
      refine ⟨?_, fun _ => safe_ok _⟩
      intro _ _ _ heq
      cases heq
      exact absurd rfl hbase

/-! ## Entries -/

structure BundleEntry where
  kappa : String
  content : Bytes
  deriving DecidableEq

/-- The local variables of `decode`. -/
structure DecodeState where
  pos : ℕ
  entries : List BundleEntry
  index : Table String Bytes
  totalBytes : ℕ
  /-- The sizes of the bases that the resolver has given. -/
  resolved : ℕ

/-- What the loop of `decode` does not change. -/
structure DecodeInput where
  hashes : Hashes
  data : Bytes
  resolveBase : String → Option Bytes

namespace DecodeInput

variable (d : DecodeInput) (st : DecodeState) (pos : ℕ)

def payload : Bytes := d.data.take (d.data.length - 32)

def flags : UInt8 := d.data.getD 5 0

def entryCount : ℕ := fromBigEndian (slice d.data 6 4)

def allowance (resolved : ℕ) : ℕ := decodeMaxBytes + d.data.length + resolved

def verifyEntryKappa (kappa : String) (content : Bytes) : Outcome Unit :=
  match d.hashes.verifyKappa kappa content with
  | .ok true => .ok ()
  | .ok false => .err (.kappaMismatch kappa)
  | .error e => .err (.label e)

/-- The end of either branch: the limit, the label, and the entry. The content is copied for the
index. -/
def accept (kappa : String) (content : Bytes) : Outcome DecodeState := do
  let totalBytes := min (st.totalBytes + content.length) (2 ^ 64 - 1)
  if decodeMaxBytes < totalBytes then .err .decodeLimitExceeded
  else do
    d.verifyEntryKappa kappa content
    reserve (d.allowance st.resolved) content.length
    .ok { st with
      pos := pos
      entries := st.entries ++ [⟨kappa, content⟩]
      index := st.index.insert kappa content
      totalBytes := totalBytes }

/-- The base of a delta: an entry before it, which is copied, or what the resolver gives. -/
def findBase (baseKappa : String) : Option (Bytes × ℕ) :=
  match st.index[baseKappa]? with
  | some base => some (base, 0)
  | none => (d.resolveBase baseKappa).map fun base => (base, base.length)

/-- A full entry, after its type. -/
def decodeFull : Outcome DecodeState := do
  let (kappa, pos) ← parseKappaField d.payload pos
  let (content, pos) ← parseContentField (d.allowance st.resolved) d.payload pos
  d.accept st pos kappa content

/-- A delta entry, after its type. -/
def decodeDelta : Outcome DecodeState := do
  let (kappa, pos) ← parseKappaField d.payload pos
  let (baseKappa, pos) ← parseKappaField d.payload pos
  let (delta, pos) ← parseContentField (d.allowance st.resolved) d.payload pos
  match d.findBase st baseKappa with
  | none => .err (.unresolvableBase baseKappa)
  | some (base, size) => do
    reserve (d.allowance st.resolved) (base.length - size)
    let st := { st with resolved := st.resolved + size }
    let content ← applyDeltaIn (d.allowance st.resolved) base delta
    d.accept st pos kappa content

def decodeEntry : Outcome DecodeState :=
  match d.payload[st.pos]? with
  | none => .err (.truncated "entry")
  | some entryType => do
    let pos ← usizeAdd st.pos 1
    if entryType = 1 then d.decodeFull st pos
    else if entryType = 2 then
      if d.flags.toNat % 2 = 0 then .err .deltaInNoDeltaBundle else d.decodeDelta st pos
    else .err (.unsupportedEntryType entryType)

def decodeEntries (d : DecodeInput) : ℕ → DecodeState → Outcome DecodeState
  | 0, st => .ok st
  | n + 1, st => do
    let st ← d.decodeEntry st
    d.decodeEntries n st

def start : DecodeState := { pos := 10, entries := [], index := ∅, totalBytes := 0, resolved := 0 }

/-- The checks of `decode` before the loop. -/
def checkHeader : Option BundleError :=
  if d.data.length < 10 + 32 then some (.truncated "header+trailer")
  else if d.hashes.digest .sha256 d.payload ≠ d.data.drop (d.data.length - 32) then some .trailerMismatch
  else if d.data.take 4 ≠ [75, 66, 78, 68] then some (.invalid "bad bundle magic")
  else if d.data.getD 4 0 ≠ 1 then some (.invalid "unsupported bundle version")
  else none

end DecodeInput

open DecodeInput in
/-- `decode`. An entry in the result vector takes 48 bytes. -/
def decode (hashes : Hashes) (data : Bytes) (resolveBase : String → Option Bytes) :
    Outcome (List BundleEntry) :=
  let d : DecodeInput := ⟨hashes, data, resolveBase⟩
  match d.checkHeader with
  | some e => .err e
  | none => do
    reserve (d.allowance 0) (48 * min d.entryCount (d.payload.length / 56))
    let st ← d.decodeEntries d.entryCount start
    .ok st.entries

/-! ## What the loop keeps -/

namespace DecodeInput

variable {d : DecodeInput} {st st' : DecodeState}

/-- The position is inside the payload, the objects of the index are under the limit, and the entries
are verified. -/
structure Sound (d : DecodeInput) (st : DecodeState) : Prop where
  pos : st.pos ≤ d.payload.length
  index : ∀ (kappa : String) (content : Bytes), st.index[kappa]? = some content →
    content.length ≤ decodeMaxBytes
  verified : ∀ entry ∈ st.entries, d.hashes.verifyKappa entry.kappa entry.content = .ok true

theorem Sound.resolve (h : d.Sound st) (resolved : ℕ) : d.Sound { st with resolved := resolved } :=
  ⟨h.pos, h.index, h.verified⟩

theorem Sound.accept (h : d.Sound st) {pos : ℕ} (hpos : pos ≤ d.payload.length) {kappa : String}
    {content : Bytes} (hok : d.accept st pos kappa content = .ok st') : d.Sound st' := by
  unfold DecodeInput.accept at hok
  dsimp only at hok
  split at hok
  · cases hok
  · rename_i hlimit
    obtain ⟨_, hverify, hok⟩ := bind_eq_ok.mp hok
    obtain ⟨_, -, hok⟩ := bind_eq_ok.mp hok
    cases hok
    refine ⟨hpos, ?_, ?_⟩
    · intro k bytes hget
      have hmax : decodeMaxBytes < 2 ^ 64 - 1 := by decide
      rcases Table.of_get_insert hget with ⟨-, rfl⟩ | ⟨-, hold⟩
      · omega
      · exact h.index k bytes hold
    intro entry hentry
    rcases mem_append.mp hentry with hold | hnew
    · exact h.verified entry hold
    · rw [mem_singleton] at hnew
      subst hnew
      unfold verifyEntryKappa at hverify
      split at hverify
      · rename_i htrue
        exact htrue
      · cases hverify
      · cases hverify

theorem decodeEntry_eq {entryType : UInt8} (hdata : d.payload.length < 2 ^ 63)
    (htype : d.payload[st.pos]? = some entryType) : d.decodeEntry st =
      if entryType = 1 then d.decodeFull st (st.pos + 1) else if entryType = 2 then
        if d.flags.toNat % 2 = 0 then .err .deltaInNoDeltaBundle else d.decodeDelta st (st.pos + 1)
      else .err (.unsupportedEntryType entryType) := by
  obtain ⟨hpos, -⟩ := List.getElem?_eq_some_iff.mp htype
  have hnext : usizeAdd st.pos 1 = .ok (st.pos + 1) := usizeAdd_eq_ok.mpr ⟨by omega, rfl⟩
  unfold decodeEntry
  rw [htype]
  dsimp only
  rw [hnext, ok_bind]

theorem accept_of_decodeEntry (hok : d.decodeEntry st = .ok st') :
    ∃ resolved pos kappa content, pos ≤ d.payload.length ∧
      d.accept { st with resolved := resolved } pos kappa content = .ok st' := by
  unfold DecodeInput.decodeEntry at hok
  split at hok
  · cases hok
  · obtain ⟨pos, -, hok⟩ := bind_eq_ok.mp hok
    split at hok
    · obtain ⟨⟨kappa, pos₁⟩, -, hok⟩ := bind_eq_ok.mp hok
      obtain ⟨⟨content, pos₂⟩, hcontent, hok⟩ := bind_eq_ok.mp hok
      exact ⟨st.resolved, pos₂, kappa, content, (parseContentField_pos hcontent).1, hok⟩
    · split at hok
      · split at hok
        · cases hok
        · obtain ⟨⟨kappa, pos₁⟩, -, hok⟩ := bind_eq_ok.mp hok
          obtain ⟨⟨baseKappa, pos₂⟩, -, hok⟩ := bind_eq_ok.mp hok
          obtain ⟨⟨delta, pos₃⟩, hdelta, hok⟩ := bind_eq_ok.mp hok
          dsimp only at hok
          split at hok
          · cases hok
          · obtain ⟨_, -, hok⟩ := bind_eq_ok.mp hok
            obtain ⟨content, -, hok⟩ := bind_eq_ok.mp hok
            exact ⟨_, pos₃, kappa, content, (parseContentField_pos hdelta).1, hok⟩
      · cases hok

theorem Sound.decodeEntry (h : d.Sound st) (hok : d.decodeEntry st = .ok st') : d.Sound st' := by
  obtain ⟨resolved, pos, kappa, content, hpos, haccept⟩ := accept_of_decodeEntry hok
  exact (h.resolve resolved).accept hpos haccept

theorem Sound.decodeEntries (h : d.Sound st) {n : ℕ} (hok : d.decodeEntries n st = .ok st') :
    d.Sound st' := by
  induction n generalizing st with
  | zero =>
    cases hok
    exact h
  | succ n ih =>
    obtain ⟨st₁, hstep, hrest⟩ := bind_eq_ok.mp hok
    exact ih (h.decodeEntry hstep) hrest

/-! ## When it returns -/

/-- What the next entry asks for: the length field of a full entry, or of a delta entry, and the
delta if its base is there. -/
structure EntryFits (d : DecodeInput) (st : DecodeState) : Prop where
  full : d.payload[st.pos]? = some 1 → ∀ kappa pos,
    parseKappaField d.payload (st.pos + 1) = .ok (kappa, pos) → LengthFits d.payload pos
  delta : d.payload[st.pos]? = some 2 → d.flags.toNat % 2 ≠ 0 → ∀ kappa pos baseKappa pos',
    parseKappaField d.payload (st.pos + 1) = .ok (kappa, pos) →
    parseKappaField d.payload pos = .ok (baseKappa, pos') →
    LengthFits d.payload pos' ∧
      ∀ content stop base size, parseContentField (d.allowance st.resolved) d.payload pos' = .ok (content, stop) →
        d.findBase st baseKappa = some (base, size) →
        DeltaFits (d.allowance (st.resolved + size)) base content

theorem payload_le_allowance (resolved : ℕ) : d.payload.length ≤ d.allowance resolved := by
  rw [payload, allowance, length_take]
  omega

theorem safe_verifyEntryKappa (kappa : String)
    (content : Bytes) : (d.verifyEntryKappa kappa content).Safe := by
  unfold verifyEntryKappa
  split
  · exact safe_ok _
  · exact safe_err _
  · exact safe_err _

theorem safe_accept (pos : ℕ) (kappa : String)
    (content : Bytes) : (d.accept st pos kappa content).Safe := by
  unfold accept
  dsimp only
  split_ifs with hlimit
  · exact safe_err _
  · rw [safe_bind]
    refine ⟨safe_verifyEntryKappa kappa content, fun _ _ => ?_⟩
    rw [safe_bind, safe_reserve]
    refine ⟨?_, fun _ _ => safe_ok _⟩
    have hmax : decodeMaxBytes < 2 ^ 63 := by decide
    have hallow : decodeMaxBytes ≤ d.allowance st.resolved := by
      rw [allowance]
      omega
    omega

theorem safe_decodeFull (hdata : d.payload.length < 2 ^ 63) (hpos : st.pos + 1 ≤ d.payload.length) :
    (d.decodeFull st (st.pos + 1)).Safe ↔ ∀ kappa pos,
      parseKappaField d.payload (st.pos + 1) = .ok (kappa, pos) → LengthFits d.payload pos := by
  unfold decodeFull
  rw [safe_bind, and_iff_right (safe_parseKappaField hdata hpos)]
  constructor
  · intro h kappa pos hkappa
    have hrest := h (kappa, pos) hkappa
    exact (safe_parseContentField hdata (payload_le_allowance _) (parseKappaField_pos hkappa)).mp
      (safe_bind.mp hrest).1
  · rintro h ⟨kappa, pos⟩ hkappa
    rw [safe_bind, safe_parseContentField hdata (payload_le_allowance _) (parseKappaField_pos hkappa)]
    exact ⟨h kappa pos hkappa, fun _ _ => safe_accept _ _ _⟩

theorem Sound.safe_copy (h : d.Sound st) {baseKappa : String} {base : Bytes} {size : ℕ}
    (hfound : d.findBase st baseKappa = some (base, size)) :
    (reserve (d.allowance st.resolved) (base.length - size)).Safe := by
  have hmax : decodeMaxBytes < 2 ^ 63 := by decide
  have hallow : decodeMaxBytes ≤ d.allowance st.resolved := by
    rw [allowance]
    omega
  have hle : base.length - size ≤ decodeMaxBytes := by
    unfold findBase at hfound
    split at hfound
    · rename_i content hindex
      cases hfound
      exact (Nat.sub_le _ _).trans (h.index _ _ hindex)
    · obtain ⟨content, -, heq⟩ := Option.map_eq_some_iff.mp hfound
      cases heq
      rw [Nat.sub_self]
      exact Nat.zero_le _
  rw [safe_reserve]
  omega

section

variable (hs : d.Sound st) (hdata : d.payload.length < 2 ^ 63)
include hs hdata

theorem safe_decodeDelta (hpos : st.pos + 1 ≤ d.payload.length) :
    (d.decodeDelta st (st.pos + 1)).Safe ↔ ∀ kappa pos baseKappa pos',
      parseKappaField d.payload (st.pos + 1) = .ok (kappa, pos) →
      parseKappaField d.payload pos = .ok (baseKappa, pos') → LengthFits d.payload pos' ∧
        ∀ content stop base size, parseContentField (d.allowance st.resolved) d.payload pos' = .ok (content, stop) →
          d.findBase st baseKappa = some (base, size) →
          DeltaFits (d.allowance (st.resolved + size)) base content := by
  unfold decodeDelta
  rw [safe_bind, and_iff_right (safe_parseKappaField hdata hpos)]
  constructor
  · intro h kappa pos baseKappa pos' hkappa hbase
    have hrest := (safe_bind.mp (h (kappa, pos) hkappa)).2 (baseKappa, pos') hbase
    obtain ⟨hlength, hrest⟩ := safe_bind.mp hrest
    refine ⟨(safe_parseContentField hdata (payload_le_allowance _) (parseKappaField_pos hbase)).mp hlength, ?_⟩
    intro content stop base size hcontent hfound
    have hrest := hrest (content, stop) hcontent
    rw [hfound] at hrest
    have hcopy : reserve (d.allowance st.resolved) (base.length - size) = .ok () :=
      reserve_eq_ok (safe_reserve.mp (hs.safe_copy hfound))
    have hrest := (safe_bind.mp hrest).2 () hcopy
    exact safe_applyDeltaIn.mp (safe_bind.mp hrest).1
  · rintro h ⟨kappa, pos⟩ hkappa
    rw [safe_bind]
    refine ⟨safe_parseKappaField hdata (parseKappaField_pos hkappa), ?_⟩
    rintro ⟨baseKappa, pos'⟩ hbase
    obtain ⟨hlength, hdelta⟩ := h kappa pos baseKappa pos' hkappa hbase
    rw [safe_bind, safe_parseContentField hdata (payload_le_allowance _) (parseKappaField_pos hbase)]
    refine ⟨hlength, ?_⟩
    rintro ⟨content, stop⟩ hcontent
    cases hfound : d.findBase st baseKappa with
    | none => exact safe_err _
    | some found =>
      obtain ⟨base, size⟩ := found
      rw [safe_bind]
      refine ⟨hs.safe_copy hfound, fun _ _ => ?_⟩
      rw [safe_bind, safe_applyDeltaIn]
      exact ⟨hdelta content stop base size hcontent hfound, fun _ _ => safe_accept _ _ _⟩

theorem safe_decodeEntry :
    (d.decodeEntry st).Safe ↔ d.EntryFits st := by
  cases htype : d.payload[st.pos]? with
  | none =>
    unfold decodeEntry
    rw [htype]
    refine ⟨fun _ => ⟨?_, ?_⟩, fun _ => safe_err _⟩
    · intro hfull
      simp [htype] at hfull
    · intro hdelta
      simp [htype] at hdelta
  | some entryType =>
    obtain ⟨hpos, -⟩ := List.getElem?_eq_some_iff.mp htype
    rw [decodeEntry_eq hdata htype]
    by_cases hone : entryType = 1
    · subst hone
      rw [if_pos rfl, safe_decodeFull hdata hpos]
      refine ⟨fun h => ⟨fun _ => h, ?_⟩, fun h => h.full htype⟩
      intro hdelta
      simp [htype] at hdelta
    · rw [if_neg hone]
      have hnotFull : d.payload[st.pos]? ≠ some 1 := by
        rw [htype]
        exact fun h => hone (Option.some.inj h)
      by_cases htwo : entryType = 2
      · subst htwo
        rw [if_pos rfl]
        split_ifs with hflag
        · exact ⟨fun _ => ⟨fun h => absurd h hnotFull, fun _ h => absurd hflag h⟩, fun _ => safe_err _⟩
        · rw [safe_decodeDelta hs hdata hpos]
          exact ⟨fun h => ⟨fun h' => absurd h' hnotFull, fun _ _ => h⟩, fun h => h.delta htype hflag⟩
      · rw [if_neg htwo]
        refine ⟨fun _ => ⟨fun h => absurd h hnotFull, ?_⟩, fun _ => safe_err _⟩
        intro hdelta
        rw [htype] at hdelta
        exact absurd (Option.some.inj hdelta) htwo

theorem safe_decodeEntries (n : ℕ) :
    (d.decodeEntries n st).Safe ↔
      ∀ i < n, ∀ st', d.decodeEntries i st = .ok st' → d.EntryFits st' := by
  induction n generalizing st with
  | zero => exact ⟨fun _ => nofun, fun _ => safe_ok _⟩
  | succ n ih =>
    show (d.decodeEntry st >>= d.decodeEntries n).Safe ↔ _
    rw [safe_bind, safe_decodeEntry hs hdata]
    constructor
    · rintro ⟨hfirst, hrest⟩ i hi st' hst'
      cases i with
      | zero =>
        cases hst'
        exact hfirst
      | succ i =>
        obtain ⟨st₁, hstep, hreached⟩ := bind_eq_ok.mp hst'
        exact ((ih (hs.decodeEntry hstep)).mp (hrest st₁ hstep)) i (by omega) st' hreached
    · intro h
      refine ⟨h 0 (by omega) st rfl, ?_⟩
      intro st₁ hstep
      refine (ih (hs.decodeEntry hstep)).mpr fun i hi st' hst' => h (i + 1) (by omega) st' ?_
      exact bind_eq_ok.mpr ⟨st₁, hstep, hst'⟩

end

/-- Every entry of a bundle with a right header and trailer that the decoder reaches fits. -/
def WireFits (d : DecodeInput) : Prop :=
  d.checkHeader = none → ∀ i < d.entryCount, ∀ st, d.decodeEntries i start = .ok st → d.EntryFits st

end DecodeInput

/-- **Decoding is safe exactly on bundles that fit.** -/
theorem decode_safe_iff (hashes : Hashes) (data : Bytes) (resolveBase : String → Option Bytes)
    (hdata : data.length < 2 ^ 63) :
    ((decode hashes data resolveBase).Safe ∧ ∀ entries, decode hashes data resolveBase = .ok entries →
        ∀ entry ∈ entries, hashes.verifyKappa entry.kappa entry.content = .ok true) ↔
      DecodeInput.WireFits ⟨hashes, data, resolveBase⟩ := by
  have hpayload : (DecodeInput.payload ⟨hashes, data, resolveBase⟩).length < 2 ^ 63 := by
    show (data.take (data.length - 32)).length < 2 ^ 63
    rw [List.length_take]
    omega
  unfold decode DecodeInput.WireFits
  dsimp only
  cases hheader : DecodeInput.checkHeader ⟨hashes, data, resolveBase⟩ with
  | some e =>
    constructor
    · intro _ h
      cases h
    · intro _
      refine ⟨safe_err _, ?_⟩
      intro entries h
      cases h
  | none =>
    have hreserve : reserve (DecodeInput.allowance ⟨hashes, data, resolveBase⟩ 0)
        (48 * min (DecodeInput.entryCount ⟨hashes, data, resolveBase⟩)
          ((DecodeInput.payload ⟨hashes, data, resolveBase⟩).length / 56)) = .ok () := by
      have hle := DecodeInput.payload_le_allowance (d := ⟨hashes, data, resolveBase⟩) 0
      refine reserve_eq_ok ⟨?_, ?_⟩ <;> omega
    have hlong : 42 ≤ data.length := by
      by_contra hshort
      rw [DecodeInput.checkHeader, if_pos (by
        show data.length < 10 + 32
        omega)] at hheader
      cases hheader
    have hstart : DecodeInput.Sound ⟨hashes, data, resolveBase⟩ DecodeInput.start := by
      refine ⟨?_, nofun, nofun⟩
      show 10 ≤ (data.take (data.length - 32)).length
      rw [List.length_take]
      omega
    rw [hreserve]
    constructor
    · rintro ⟨hsafe, -⟩ _
      have hloop := (safe_bind.mp hsafe).2 () rfl
      exact (DecodeInput.safe_decodeEntries hstart hpayload _).mp (safe_bind.mp hloop).1
    · intro h
      constructor
      · show (DecodeInput.decodeEntries _ _ _ >>= _).Safe
        rw [safe_bind, DecodeInput.safe_decodeEntries hstart hpayload]
        exact ⟨h rfl, fun _ _ => safe_ok _⟩
      · intro entries hok
        obtain ⟨st, hst, hentries⟩ := bind_eq_ok.mp
          (show (DecodeInput.decodeEntries _ _ _ >>= _) = _ from hok)
        cases hentries
        exact (hstart.decodeEntries hst).verified

def withTrailer (payload : Bytes) : Bytes := payload ++ Hashes.sample.digest .sha256 payload

def labelField (content : Bytes) : Bytes := [0, 71] ++ textBytes (Hashes.sample.label .sha256 content).asStr

/-- A full entry, and a delta entry that copies a byte of it and inserts one. -/
def deltaBundle : Bytes :=
  withTrailer ([75, 66, 78, 68, 1, 1, 0, 0, 0, 2] ++
    1 :: labelField [1, 2] ++ [0, 0, 0, 0, 0, 0, 0, 2, 1, 2] ++
    2 :: labelField [2, 9] ++ labelField [1, 2] ++ [0, 0, 0, 0, 0, 0, 0, 7, 2, 2, 0x91, 1, 1, 1, 9])

def deltaEntries : List BundleEntry :=
  [[1, 2], [2, 9]].map fun content => ⟨(Hashes.sample.label .sha256 content).asStr, content⟩

theorem decode_safe_delta : decode .sample deltaBundle (fun _ => none) = .ok deltaEntries ∧
    DecodeInput.WireFits ⟨.sample, deltaBundle, fun _ => none⟩ := by
  have hdecode : decode .sample deltaBundle (fun _ => none) = .ok deltaEntries := by decide +kernel
  refine ⟨hdecode, (decode_safe_iff .sample deltaBundle (fun _ => none) (by decide +kernel)).mp ?_⟩
  rw [hdecode]
  refine ⟨safe_ok _, ?_⟩
  rintro entries ⟨⟩
  decide +kernel

/-- One full entry with an empty label and a content of 2^64 - 1 bytes. -/
def endlessContent : Bytes :=
  withTrailer ([75, 66, 78, 68, 1, 0, 0, 0, 0, 1] ++ [1, 0, 0] ++ List.replicate 8 255)

/-- One delta entry against a base of one byte, with a result of 2^56 bytes. -/
def endlessResult : Bytes :=
  withTrailer ([75, 66, 78, 68, 1, 1, 0, 0, 0, 1] ++ [2, 0, 0, 0, 0] ++ [0, 0, 0, 0, 0, 0, 0, 10] ++
    1 :: (List.replicate 8 128 ++ [1]))

/-- The first bundle makes the decoder panic, and the second makes it ask for 64 PiB. -/
theorem decode_unsafe : ¬ (decode .sample endlessContent fun _ => none).Safe ∧
    ¬ (decode .sample endlessResult fun _ => some [0]).Safe := by
  constructor <;> decide +kernel

end KappaRegistry
