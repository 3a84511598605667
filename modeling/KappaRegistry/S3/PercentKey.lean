import KappaRegistry.Oci.TagList
import KappaRegistry.Server.SigV4

/-!
# Percent Coding of Keys

`percent_encode_key` of `kappa-module-s3/src/xml.rs` and the two functions that undo it. The server
collects the bytes and reads them as UTF-8, so it gets every key back. The OCI module makes a
character of each byte, so it gets ASCII keys back and no others.
-/

namespace KappaRegistry

open Lib SigV4 List UInt8

/-- `percent_encode_key` keeps the unreserved bytes and the slash. -/
def percentEncodeKey (key : String) : String := percentEncode (isUnreserved false) key

theorem hexVal_upperDigit {n : ℕ} (hn : n < 16) : hexVal (upperDigit n) = some (ofNat n) := by
  have hall : ∀ i : Fin 16, hexVal (upperDigit i) = some (ofNat i) := by decide
  exact hall ⟨n, hn⟩

theorem digits_eq (b : UInt8) :
    ofNat (b.toNat / 16) <<< 4 ||| ofNat (b.toNat % 16) = b := by
  have hall : ∀ i : Fin 256, ofNat (i / 16) <<< 4 ||| ofNat (i % 16) = ofNat i := by
    decide +kernel
  simpa using hall ⟨b.toNat, b.toNat_lt⟩

theorem hexVal_digits (b : UInt8) :
    hexVal (upperDigit (b.toNat / 16)) = some (ofNat (b.toNat / 16)) ∧
      hexVal (upperDigit (b.toNat % 16)) = some (ofNat (b.toNat % 16)) := by
  have hb := b.toNat_lt
  exact ⟨hexVal_upperDigit (by omega), hexVal_upperDigit (by omega)⟩

theorem percentDecodeBytes_percentByte (b : UInt8) (rest : Bytes) :
    percentDecodeBytes 0 (percentByte (isUnreserved false) b ++ rest) =
      b :: percentDecodeBytes 0 rest := by
  unfold percentByte
  split_ifs with hkeep
  · have h37 : b ≠ 37 := by rintro rfl; cases hkeep
    have h43 : b ≠ 43 := by rintro rfl; cases hkeep
    have hnone : escaped b rest = none := by
      unfold escaped
      split <;> simp [h37]
    simp [percentDecodeBytes, hnone, h43]
  · obtain ⟨hhi, hlo⟩ := hexVal_digits b
    simp [percentDecodeBytes, escaped, hhi, hlo, digits_eq]

theorem percentChars_percentByte (b : UInt8) (rest : Bytes) :
    Oci.percentChars (percentByte (isUnreserved false) b ++ rest) =
      Char.ofUInt8 b :: Oci.percentChars rest := by
  unfold percentByte
  split_ifs with hkeep
  · have h37 : b ≠ 37 := by rintro rfl; cases hkeep
    have h43 : b ≠ 43 := by rintro rfl; cases hkeep
    rw [singleton_append, Oci.percentChars.eq_def]
    simp [h37, h43]
  · obtain ⟨hhi, hlo⟩ := hexVal_digits b
    have heq : Oci.hexVal = hexVal := rfl
    simp [Oci.percentChars, heq, hhi, hlo, digits_eq]

theorem percentDecode_percentEncodeKey (s : String) : percentDecode (percentEncodeKey s) = s := by
  have hbytes : ∀ bytes : Bytes,
      percentDecodeBytes 0 (bytes.flatMap (percentByte (isUnreserved false))) = bytes := by
    intro bytes
    induction bytes with
    | nil => rfl
    | cons b bytes ih => rw [flatMap_cons, percentDecodeBytes_percentByte, ih]
  rw [percentDecode, percentEncodeKey, textBytes_percentEncode isUnreserved_ascii, hbytes,
    fromUtf8_textBytes]
  rfl

theorem oci_percentDecode_percentEncodeKey (s : String) :
    Oci.percentDecode (percentEncodeKey s) = byteText (textBytes s) := by
  have hchars : ∀ bytes : Bytes,
      Oci.percentChars (bytes.flatMap (percentByte (isUnreserved false))) = bytes.map Char.ofUInt8 := by
    intro bytes
    induction bytes with
    | nil => rfl
    | cons b bytes ih => rw [flatMap_cons, percentChars_percentByte, ih, map_cons]
  rw [Oci.percentDecode, percentEncodeKey, textBytes_percentEncode isUnreserved_ascii, hchars]
  rfl

/-- A byte that is no ASCII character takes two bytes. -/
theorem length_byteText (bytes : Bytes) : bytes.length ≤ (textBytes (byteText bytes)).length ∧
    ((textBytes (byteText bytes)).length ≤ bytes.length → ∀ b ∈ bytes, b < 128) := by
  induction bytes with
  | nil => simp
  | cons b bytes ih =>
    have hpos := Char.utf8Size_pos (Char.ofUInt8 b)
    simp only [textBytes, byteText, String.toList_ofList, map_cons, flatMap_cons,
      length_append, String.length_utf8EncodeChar, length_cons] at ih ⊢
    refine ⟨by omega, fun h => forall_mem_cons.mpr ⟨?_, ih.2 (by omega)⟩⟩
    have hone := Char.utf8Size_eq_one_iff.mp (show (Char.ofUInt8 b).utf8Size = 1 by omega)
    have hval : (Char.ofUInt8 b).val.toNat = b.toNat := toNat_toUInt32 b
    have hle := UInt32.le_iff_toNat_le.mp hone
    rw [hval] at hle
    exact lt_iff_toNat_lt.mpr (Nat.lt_succ_of_le hle)

/-- **Keys come back from both decoders iff they are ASCII.** -/
theorem percentDecode_key_iff (s : String) :
    Oci.percentDecode (percentEncodeKey s) = s ∧ percentDecode (percentEncodeKey s) = s ↔
      ∀ b ∈ textBytes s, b < 128 := by
  rw [oci_percentDecode_percentEncodeKey, and_iff_left (percentDecode_percentEncodeKey s)]
  constructor
  · intro h
    apply (length_byteText _).2
    rw [h]
  · intro h
    exact textBytes_inj (textBytes_byteText h)

theorem percentDecode_key_accent : Oci.percentDecode (percentEncodeKey "é") ≠ "é" := by
  decide

end KappaRegistry
