import KappaRegistry.Lib.Bytes

/-!
# Reading Big-Endian Numbers

`fromBigEndian` reads what `bigEndian` writes, up to the width of the field.
-/

namespace KappaRegistry.Lib

/-- The number that bytes stand for, highest first. -/
def fromBigEndian (bytes : List UInt8) : ℕ := bytes.foldl (fun n b => n * 256 + b.toNat) 0

theorem fromBigEndian_concat (bytes : List UInt8) (b : UInt8) :
    fromBigEndian (bytes ++ [b]) = fromBigEndian bytes * 256 + b.toNat := by
  simp [fromBigEndian]

theorem fromBigEndian_bigEndian (len n : ℕ) : fromBigEndian (bigEndian len n) = n % 256 ^ len := by
  induction len generalizing n with
  | zero =>
    rw [pow_zero, Nat.mod_one]
    rfl
  | succ len ih =>
    rw [bigEndian, fromBigEndian_concat, ih, UInt8.toNat_ofNat_of_lt' (Nat.mod_lt n (by decide)), pow_succ,
      Nat.mul_comm (256 ^ len) 256, Nat.mod_mul]
    ring

theorem fromBigEndian_lt (bytes : List UInt8) : fromBigEndian bytes < 256 ^ bytes.length := by
  induction bytes using List.reverseRecOn with
  | nil => decide
  | append_singleton bytes b ih =>
    rw [fromBigEndian_concat, List.length_append, List.length_singleton, pow_succ]
    have hb := b.toNat_lt
    omega

end KappaRegistry.Lib
