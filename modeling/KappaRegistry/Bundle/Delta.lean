import KappaRegistry.Lib.Bytes
import KappaRegistry.Types

/-!
# Deltas

The delta codec of `kappa-core/src/delta.rs`: a delta gives the sizes of its base and of its
result as variable-length integers, and then instructions that copy a range of the base or
insert bytes of the delta. `applyDelta` reads one.

`usize` has 64 bits. The reader advances over the delta byte by byte, so it is written on the bytes
that are left; an offset has at most 32 bits and a size at most 24, so their sum does not
overflow.
-/

namespace KappaRegistry

open Lib

inductive DeltaError where
  | truncated (what : String)
  | varintOverflow
  | baseSizeMismatch (expected got : ℕ)
  | copyOutOfBounds (offset size baseLen : ℕ)
  | reservedOpcode
  | resultSizeMismatch (expected got : ℕ)
  deriving DecidableEq

/-! ## Variable-length integers -/

/-- `decode_varint` from a shift on: seven bits a byte, low ones first, and the high bit for more to
come. What is shifted out of 64 bits is lost. -/
def decodeVarintFrom (shift value : ℕ) : Bytes → Except DeltaError (ℕ × Bytes)
  | [] => .error (.truncated "varint")
  | byte :: rest =>
    let value := value ||| (byte.toNat % 128) <<< shift % 2 ^ 64
    if byte.toNat < 128 then .ok (value, rest)
    else if 63 < shift + 7 then .error .varintOverflow
    else decodeVarintFrom (shift + 7) value rest

/-- `decode_varint`, with the bytes after it. -/
def decodeVarint (bytes : Bytes) : Except DeltaError (ℕ × Bytes) := decodeVarintFrom 0 0 bytes

/-! ## Instructions -/

/-- The bytes of a number that an opcode announces, by bit and shift, with the bytes after them. -/
def readFields (cmd : UInt8) (what : String) :
    List (ℕ × ℕ) → ℕ → Bytes → Except DeltaError (ℕ × Bytes)
  | [], value, rest => .ok (value, rest)
  | (bit, shift) :: fields, value, rest =>
    if cmd.toNat.testBit bit then
      match rest with
      | [] => .error (.truncated what)
      | byte :: rest => readFields cmd what fields (value ||| byte.toNat <<< shift) rest
    else readFields cmd what fields value rest

def offsetFields : List (ℕ × ℕ) := [(0, 0), (1, 8), (2, 16), (3, 24)]

def sizeFields : List (ℕ × ℕ) := [(4, 0), (5, 8), (6, 16)]

/-- A size of zero stands for 64 KiB. -/
def copySize (size : ℕ) : ℕ := if size = 0 then 0x10000 else size

/-- One instruction: what it adds to the result, and the bytes after it. -/
def applyInstruction (base : Bytes) (cmd : UInt8) (rest : Bytes) : Except DeltaError (Bytes × Bytes) :=
  if cmd = 0 then .error .reservedOpcode
  else if 128 ≤ cmd.toNat then do
    let (offset, rest) ← readFields cmd "copy offset" offsetFields 0 rest
    let (size, rest) ← readFields cmd "copy size" sizeFields 0 rest
    if base.length < offset + copySize size then
      .error (.copyOutOfBounds offset (copySize size) base.length)
    else .ok ((base.drop offset).take (copySize size), rest)
  else if rest.length < cmd.toNat then .error (.truncated "insert data")
  else .ok (rest.take cmd.toNat, rest.drop cmd.toNat)

/-- The loop of `apply_delta`: the result so far when the instructions end or one is wrong. -/
def applyInstructions (base : Bytes) : ℕ → Bytes → Bytes → Option DeltaError × Bytes
  | _, [], out => (none, out)
  | 0, _ :: _, out => (none, out)
  | fuel + 1, cmd :: rest, out =>
    match applyInstruction base cmd rest with
    | .error e => (some e, out)
    | .ok (chunk, rest) => applyInstructions base fuel rest (out ++ chunk)

def applyDelta (base delta : Bytes) : Except DeltaError Bytes := do
  let (baseSize, rest) ← decodeVarint delta
  let (resultSize, rest) ← decodeVarint rest
  if base.length ≠ baseSize then .error (.baseSizeMismatch baseSize base.length)
  else
    match applyInstructions base rest.length rest [] with
    | (some e, _) => .error e
    | (none, out) =>
      if out.length ≠ resultSize then .error (.resultSizeMismatch resultSize out.length) else .ok out

/-- The number of bytes that instructions emit, up to the first one that is wrong. -/
def emitted (base : Bytes) : ℕ → Bytes → ℕ
  | _, [] => 0
  | 0, _ :: _ => 0
  | fuel + 1, cmd :: rest =>
    match applyInstruction base cmd rest with
    | .error _ => 0
    | .ok (chunk, rest) => chunk.length + emitted base fuel rest

theorem length_applyInstructions (base : Bytes) (fuel : ℕ) (bytes out : Bytes) :
    (applyInstructions base fuel bytes out).2.length = out.length + emitted base fuel bytes := by
  induction fuel generalizing bytes out with
  | zero => cases bytes <;> rfl
  | succ fuel ih =>
    cases bytes with
    | nil => rfl
    | cons cmd rest =>
      rw [applyInstructions, emitted]
      cases applyInstruction base cmd rest with
      | error e => rfl
      | ok result =>
        dsimp only
        rw [ih, List.length_append, Nat.add_assoc]

end KappaRegistry
