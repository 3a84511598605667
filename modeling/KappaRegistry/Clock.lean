import Mathlib.Data.List.Chain
import KappaRegistry.Types

/-!
# The NTP-Lamport Clock

`kappa-core/src/clock/ntp_lamport.rs`: a timestamp holds the last physical reading in its upper 48
bits and, below, the lower 16 bits of a counter of the readings since that did not advance. The
counter is wider than its field, so the timestamps increase exactly for the readings that never
stand still, or run behind, for 65536 calls.
-/

namespace KappaRegistry

/-- The state behind the lock of `NtpLamportClock`. -/
structure ClockState where
  lastPhysicalMs : ℕ
  logical : ℕ

namespace ClockState

def new : ClockState := ⟨0, 0⟩

def encode (state : ClockState) : ℕ :=
  (state.lastPhysicalMs <<< 16) % 2 ^ 64 ||| (state.logical &&& 0xFFFF)

/-- The state that `now_ms` leaves when the system clock reads `physical`. -/
def tick (state : ClockState) (physical : ℕ) : ClockState :=
  if state.lastPhysicalMs < physical then ⟨physical, 0⟩
  else { state with logical := (state.logical + 1) % 2 ^ 32 }

/-- `now_ms`, for a reading of the system clock. -/
def nowMs (state : ClockState) (physical : ℕ) : ℕ × ClockState :=
  ((state.tick physical).encode, state.tick physical)

def nowMsAll (state : ClockState) : List ℕ → List ℕ
  | [] => []
  | physical :: readings => (state.nowMs physical).1 :: nowMsAll (state.nowMs physical).2 readings

/-- After a largest reading of `last` and `idle` more that did not exceed it, no 65536 readings in a
row fail to exceed the largest before them. -/
def Advances (last idle : ℕ) : List ℕ → Prop
  | [] => True
  | r :: readings =>
    if last < r then Advances r 0 readings else idle + 1 < 65536 ∧ Advances last (idle + 1) readings

theorem encode_mk {last : ℕ} (h : last < 2 ^ 48) (logical : ℕ) :
    (ClockState.mk last logical).encode = last * 65536 + logical % 65536 := by
  have hmask : logical &&& 0xFFFF = logical % 2 ^ 16 := Nat.and_two_pow_sub_one_eq_mod _ 16
  have hfit : last <<< 16 < 2 ^ 64 := by
    rw [Nat.shiftLeft_eq]
    omega
  unfold encode
  rw [hmask, Nat.mod_eq_of_lt hfit, ← Nat.shiftLeft_add_eq_or_of_lt (Nat.mod_lt _ (by decide)),
    Nat.shiftLeft_eq]

theorem isChain_nowMsAll_iff (readings : List ℕ) {last idle : ℕ} (hlast : last < 2 ^ 48)
    (hidle : idle < 65536) (h : ∀ r ∈ readings, r < 2 ^ 48) :
    List.IsChain (· < ·) (encode ⟨last, idle⟩ :: nowMsAll ⟨last, idle⟩ readings) ↔
      Advances last idle readings := by
  induction readings generalizing last idle with
  | nil => simp [nowMsAll, Advances]
  | cons r readings ih =>
    have hr := h r List.mem_cons_self
    have hrest : ∀ r ∈ readings, r < 2 ^ 48 := fun p hp => h p (List.mem_cons_of_mem r hp)
    rw [nowMsAll, List.isChain_cons_cons, Advances]
    dsimp only [nowMs, tick]
    split_ifs with hadvance
    · rw [ih hr (by decide) hrest, encode_mk hlast, encode_mk hr]
      exact and_iff_right (by omega)
    · rw [Nat.mod_eq_of_lt (by omega), encode_mk hlast, encode_mk hlast]
      by_cases hroom : idle + 1 < 65536
      · rw [← encode_mk hlast (idle + 1), ih hlast hroom hrest, encode_mk hlast]
        exact and_congr_left fun _ => ⟨fun _ => hroom, fun _ => by omega⟩
      · -- The field of the counter is full: the timestamp falls back.
        exact ⟨fun hlt => by omega, fun hlt => absurd hlt.1 hroom⟩

theorem length_lt_of_advances {last r : ℕ} (hr : r ≤ last) (n idle : ℕ)
    (h : Advances last idle (List.replicate (n + 1) r)) : idle + n + 1 < 65536 := by
  induction n generalizing idle with
  | zero =>
    rw [List.replicate_succ, Advances, if_neg (Nat.not_lt.mpr hr)] at h
    exact h.1
  | succ n ih =>
    rw [List.replicate_succ, Advances, if_neg (Nat.not_lt.mpr hr)] at h
    have := ih (idle + 1) h.2
    omega

/-- **Monotonicity.** The timestamps increase exactly when the readings never stand still, or run
behind, for 65536 calls. -/
theorem pairwise_nowMsAll_iff {readings : List ℕ} (h : ∀ r ∈ readings, r < 2 ^ 48) :
    (new.nowMsAll readings).Pairwise (· < ·) ↔ Advances 0 0 readings := by
  rw [← isChain_nowMsAll_iff readings (by decide) (by decide) h, ← List.isChain_iff_pairwise]
  cases readings with
  | nil => simp [nowMsAll]
  | cons r readings =>
    rw [nowMsAll, nowMsAll, List.isChain_cons_cons]
    refine ⟨fun hchain => ⟨?_, hchain⟩, And.right⟩
    show encode ⟨0, 0⟩ < encode (tick ⟨0, 0⟩ r)
    unfold tick
    split_ifs with hr
    · rw [encode_mk (h r List.mem_cons_self), encode_mk (by decide)]
      dsimp only at hr
      omega
    · decide

/-- A clock that stands still twice and steps back once. -/
theorem pairwise_nowMsAll_back :
    (new.nowMsAll [5, 5, 5, 3]).Pairwise (· < ·) ↔ Advances 0 0 [5, 5, 5, 3] :=
  pairwise_nowMsAll_iff (by decide)

/-- After 65537 readings of one millisecond the timestamp is the first one again. -/
theorem not_pairwise_nowMsAll_replicate :
    ¬ (new.nowMsAll (List.replicate 65537 1)).Pairwise (· < ·) := by
  intro h
  rw [List.replicate_succ, nowMsAll, ← List.isChain_iff_pairwise] at h
  have hadvances := (isChain_nowMsAll_iff (List.replicate 65536 1) (by decide) (by decide)
    fun r hr => by rw [List.eq_of_mem_replicate hr]; decide).mp h
  exact absurd (length_lt_of_advances (le_refl 1) 65535 0 hadvances) (by decide)

end ClockState

end KappaRegistry
