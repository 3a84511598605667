import KappaRegistry.Lib.Bytes

/-!
# Percent Encoding

A text is percent-encoded byte by byte: the bytes that are kept stand for themselves, and every
other byte is written `%` and two hexadecimal digits in upper case. Which bytes are kept is a
parameter; the results ask that they are ASCII and that the percent sign is not one of them.

The code is uniquely readable (`percentEncode_inj`). Encoding never shortens a text, and it leaves
alone exactly the texts all of whose bytes are kept; encoding twice is therefore longer than
encoding once unless the text was such a text to begin with (`size_percentEncode_twice`).
-/

namespace KappaRegistry.Lib

open List

/-! ## ASCII texts -/

def byteText (bytes : List UInt8) : String := String.ofList (bytes.map Char.ofUInt8)

theorem utf8EncodeChar_ofUInt8 {b : UInt8} (h : b < 128) :
    String.utf8EncodeChar (Char.ofUInt8 b) = [b] := by
  have hb : b.toNat < 128 := UInt8.lt_iff_toNat_lt.mp h
  have hval : (Char.ofUInt8 b).val.toNat = b.toNat := UInt8.toNat_toUInt32 b
  simp only [String.utf8EncodeChar, hval]
  rw [if_pos (by omega)]
  simp

theorem textBytes_byteText {bytes : List UInt8} (h : ∀ b ∈ bytes, b < 128) :
    textBytes (byteText bytes) = bytes := by
  unfold textBytes byteText
  rw [String.toList_ofList]
  induction bytes with
  | nil => rfl
  | cons b bytes ih =>
    rw [map_cons, flatMap_cons, utf8EncodeChar_ofUInt8 (h b (by simp)),
      ih (fun c hc => h c (by simp [hc]))]
    rfl

theorem ofUInt8_inj {a b : UInt8} (h : Char.ofUInt8 a = Char.ofUInt8 b) : a = b := by
  have hval : a.toUInt32.toNat = b.toUInt32.toNat := congrArg (fun c : Char => c.val.toNat) h
  rw [UInt8.toNat_toUInt32, UInt8.toNat_toUInt32] at hval
  exact UInt8.toNat_inj.mp hval

theorem byteText_inj {as bs : List UInt8} (h : byteText as = byteText bs) : as = bs := by
  have hlist := congrArg String.toList h
  simp only [byteText, String.toList_ofList] at hlist
  exact map_injective_iff.mpr (fun _ _ => ofUInt8_inj) hlist

/-! ## The code of a byte -/

/-- The hexadecimal digit of a number below sixteen, in upper case. -/
def upperDigit (n : ℕ) : UInt8 := if n < 10 then UInt8.ofNat (48 + n) else UInt8.ofNat (55 + n)

theorem upperDigit_inj {m n : ℕ} (hm : m < 16) (hn : n < 16) (h : upperDigit m = upperDigit n) :
    m = n := by
  have hall : ∀ i j : Fin 16, upperDigit i = upperDigit j → i = j := by decide
  exact congrArg Fin.val (hall ⟨m, hm⟩ ⟨n, hn⟩ h)

def percentByte (keep : UInt8 → Bool) (b : UInt8) : List UInt8 :=
  if keep b then [b] else [37, upperDigit (b.toNat / 16), upperDigit (b.toNat % 16)]

def percentEncode (keep : UInt8 → Bool) (s : String) : String :=
  byteText ((textBytes s).flatMap (percentByte keep))

section

variable {keep : UInt8 → Bool}

theorem percentByte_append_inj (hpercent : keep 37 = false) {a b : UInt8} {as bs : List UInt8}
    (h : percentByte keep a ++ as = percentByte keep b ++ bs) : a = b ∧ as = bs := by
  unfold percentByte at h
  by_cases ha : keep a = true
  · by_cases hb : keep b = true
    · simpa [ha, hb] using h
    · simp only [ha, hb, if_true, Bool.false_eq_true, if_false, cons_append,
        nil_append, cons.injEq] at h
      simp [h.1, hpercent] at ha
  · by_cases hb : keep b = true
    · simp only [ha, hb, if_true, Bool.false_eq_true, if_false, cons_append,
        nil_append, cons.injEq] at h
      rw [← h.1, hpercent] at hb
      cases hb
    · simp only [ha, hb, Bool.false_eq_true, if_false, cons_append, nil_append,
        cons.injEq, true_and] at h
      obtain ⟨hhi, hlo, hrest⟩ := h
      have hla := a.toNat_lt
      have hlb := b.toNat_lt
      have hhi' := upperDigit_inj (by omega) (by omega) hhi
      have hlo' := upperDigit_inj (by omega) (by omega) hlo
      exact ⟨UInt8.toNat_inj.mp (by omega), hrest⟩

theorem flatMap_percentByte_inj (hpercent : keep 37 = false) {as bs : List UInt8}
    (h : as.flatMap (percentByte keep) = bs.flatMap (percentByte keep)) : as = bs := by
  have hne (b : UInt8) (rest : List UInt8) : percentByte keep b ++ rest ≠ [] := by
    unfold percentByte
    by_cases hb : keep b = true <;> simp [hb]
  induction as generalizing bs with
  | nil =>
    cases bs with
    | nil => rfl
    | cons b bs => exact absurd h.symm (hne b _)
  | cons a as ih =>
    cases bs with
    | nil => exact absurd h (hne a _)
    | cons b bs =>
      obtain ⟨rfl, hrest⟩ := percentByte_append_inj hpercent h
      rw [ih hrest]

/-- **Percent encoding is uniquely readable.** -/
theorem percentEncode_inj (hpercent : keep 37 = false) {s t : String}
    (h : percentEncode keep s = percentEncode keep t) : s = t :=
  textBytes_inj (flatMap_percentByte_inj hpercent (byteText_inj h))

theorem of_mem_flatMap_percentByte {bytes : List UInt8} {c : UInt8}
    (h : c ∈ bytes.flatMap (percentByte keep)) :
    keep c = true ∨ c = 37 ∨ ∃ n < 16, c = upperDigit n := by
  obtain ⟨b, -, hc⟩ := mem_flatMap.mp h
  have hb := b.toNat_lt
  unfold percentByte at hc
  split_ifs at hc with hkeep
  · rw [mem_singleton] at hc
    exact .inl (hc ▸ hkeep)
  · simp only [mem_cons, not_mem_nil, or_false] at hc
    rcases hc with hc | hc | hc
    · exact .inr (.inl hc)
    · exact .inr (.inr ⟨_, by omega, hc⟩)
    · exact .inr (.inr ⟨_, by omega, hc⟩)

theorem notMem_percentEncode (sep : UInt8) (hkeep : keep sep = false) (hpercent : sep ≠ 37)
    (hdigit : ∀ n : Fin 16, sep ≠ upperDigit n) (s : String) :
    Char.ofUInt8 sep ∉ (percentEncode keep s).toList := by
  intro hmem
  rw [percentEncode, byteText, String.toList_ofList] at hmem
  obtain ⟨c, hc, heq⟩ := mem_map.mp hmem
  obtain rfl := ofUInt8_inj heq
  rcases of_mem_flatMap_percentByte hc with h | h | ⟨n, hn, h⟩
  · simp [hkeep] at h
  · exact hpercent h
  · exact hdigit ⟨n, hn⟩ h

/-! ## Size -/

/-- All bytes of the text are kept. -/
def Plain (keep : UInt8 → Bool) (s : String) : Prop := ∀ b ∈ textBytes s, keep b = true
  deriving Decidable

theorem textBytes_percentEncode (hascii : ∀ b, keep b = true → b < 128) (s : String) :
    textBytes (percentEncode keep s) = (textBytes s).flatMap (percentByte keep) := by
  apply textBytes_byteText
  intro b hb
  rcases of_mem_flatMap_percentByte hb with h | rfl | ⟨n, hn, rfl⟩
  · exact hascii b h
  · decide
  · have hall : ∀ i : Fin 16, upperDigit i < 128 := by decide
    exact hall ⟨n, hn⟩

theorem flatMap_percentByte_plain {bytes : List UInt8} (h : ∀ b ∈ bytes, keep b = true) :
    bytes.flatMap (percentByte keep) = bytes := by
  induction bytes with
  | nil => rfl
  | cons b bytes ih =>
    rw [flatMap_cons, percentByte, if_pos (h b (by simp)), ih (fun c hc => h c (by simp [hc]))]
    rfl

theorem percentEncode_of_plain (hascii : ∀ b, keep b = true → b < 128) {s : String}
    (h : Plain keep s) : percentEncode keep s = s := by
  apply textBytes_inj
  rw [textBytes_percentEncode hascii, flatMap_percentByte_plain h]

theorem length_flatMap_percentByte (bytes : List UInt8) :
    (bytes.flatMap (percentByte keep)).length =
      bytes.length + 2 * (bytes.countP fun b => !keep b) := by
  induction bytes with
  | nil => rfl
  | cons b bytes ih =>
    rw [flatMap_cons, length_append, ih, countP_cons, percentByte]
    by_cases hb : keep b = true
    · simp [hb]
      omega
    · simp [hb]
      omega

def size (s : String) : ℕ := (textBytes s).length

section

variable (hascii : ∀ b, keep b = true → b < 128)
include hascii

theorem size_percentEncode (s : String) :
    size (percentEncode keep s) = size s + 2 * ((textBytes s).countP fun b => !keep b) := by
  rw [size, textBytes_percentEncode hascii, length_flatMap_percentByte]
  rfl

theorem size_le_percentEncode (s : String) :
    size s ≤ size (percentEncode keep s) := by
  rw [size_percentEncode hascii]
  omega

/-- An encoded text consists of kept bytes only if nothing had to be escaped. -/
theorem plain_of_plain_percentEncode
    (hpercent : keep 37 = false) {s : String} (h : Plain keep (percentEncode keep s)) :
    Plain keep s := by
  intro b hb
  by_contra hkeep
  have hmem : (37 : UInt8) ∈ textBytes (percentEncode keep s) := by
    rw [textBytes_percentEncode hascii]
    exact mem_flatMap.mpr ⟨b, hb, by simp [percentByte, hkeep]⟩
  simp [h 37 hmem] at hpercent

/-- **Encoding twice is encoding once only for plain texts.** -/
theorem size_percentEncode_twice (hpercent : keep 37 = false)
    {s : String} (h : size (percentEncode keep (percentEncode keep s)) = size (percentEncode keep s)) :
    Plain keep s := by
  apply plain_of_plain_percentEncode hascii hpercent
  rw [size_percentEncode hascii (percentEncode keep s)] at h
  have hzero : (textBytes (percentEncode keep s)).countP (fun b => !keep b) = 0 := by omega
  intro b hb
  have := countP_eq_zero.mp hzero b hb
  simpa using this

end

end

end KappaRegistry.Lib
