import KappaRegistry.Lib.Except
import Mathlib.Data.List.Infix
import Mathlib.Data.Nat.Digits.Defs

/-!
# Texts, Bytes and Numbers

How texts, byte strings and numbers are written as each other: UTF-8 (`textBytes`, `fromUtf8`),
hexadecimal (`hexEncode`, `hexDecode`), and unsigned integers in a given radix (`parseRadix`, with
the errors in the order the digits are read).

Each reader inverts its writer: `fromUtf8_eq_some`, `hexDecode_hexEncode`, `parseRadix_decimal`.
Everything runs in the kernel.
-/

namespace KappaRegistry.Lib

open List UInt8 String

/-! ## UTF-8 -/

def textBytes (s : String) : List UInt8 := s.toList.flatMap utf8EncodeChar

/-- The body of a request; one that is too long is read as an empty one. -/
def bodyBytes (limit : ℕ) (body : List UInt8) : List UInt8 := if body.length ≤ limit then body else []

def bodyText (limit : ℕ) (body : String) : String := if (textBytes body).length ≤ limit then body else ""

/-- `String::from_utf8`. -/
def fromUtf8 (bytes : List UInt8) : Option String :=
  bytes.toByteArray.utf8Decode?.map fun cs => ofList cs.toList

@[simp] theorem textBytes_append (s t : String) :
    textBytes (s ++ t) = textBytes s ++ textBytes t := by
  simp [textBytes]

variable {as bs : List UInt8}

theorem toByteArray_inj (h : as.toByteArray = bs.toByteArray) : as = bs := by
  have := congrArg (fun b : ByteArray => b.data.toList) h
  simpa using this

variable {bytes : List UInt8} {s : String}

/-- **A byte string reads as a text iff it is the text's bytes.** -/
theorem fromUtf8_eq_some : fromUtf8 bytes = some s ↔ textBytes s = bytes := by
  unfold fromUtf8
  rw [Option.map_eq_some_iff]
  constructor
  · rintro ⟨cs, hdecode, rfl⟩
    have hsome : bytes.toByteArray.utf8Decode?.isSome = true := by simp [hdecode]
    have henc := ByteArray.utf8Encode_get_utf8Decode? (h := hsome)
    simp only [hdecode, Option.get_some] at henc
    apply toByteArray_inj
    rwa [textBytes, toList_ofList]
  · rintro rfl
    exact ⟨s.toList.toArray, utf8Decode?_utf8Encode, by simp⟩

@[simp] theorem fromUtf8_textBytes (s : String) : fromUtf8 (textBytes s) = some s :=
  fromUtf8_eq_some.mpr rfl

theorem textBytes_inj {s t : String} (h : textBytes s = textBytes t) : s = t := by
  have := fromUtf8_textBytes s
  rw [h, fromUtf8_textBytes] at this
  exact (Option.some.inj this).symm

variable {c : Char}

theorem utf8EncodeChar_append_inj {d : Char}
    (h : utf8EncodeChar c ++ as = utf8EncodeChar d ++ bs) : c = d ∧ as = bs := by
  have hdecode : ∀ (c : Char) (as : List UInt8),
      (utf8EncodeChar c ++ as).toByteArray.utf8DecodeChar? 0 = some c := by
    intro c as
    have hsplit : (utf8EncodeChar c ++ as).toByteArray =
        [c].utf8Encode ++ as.toByteArray := by
      rw [List.toByteArray_append]
      simp [List.utf8Encode]
    rw [hsplit, utf8DecodeChar?_utf8Encode_singleton_append]
  obtain rfl : c = d := by
    have hc := hdecode c as
    rw [h, hdecode d bs] at hc
    exact (Option.some.inj hc).symm
  exact ⟨rfl, append_cancel_left h⟩

theorem isPrefix_of_textBytes {s t : String} (h : textBytes s <+: textBytes t) :
    s.toList <+: t.toList := by
  unfold textBytes at h
  generalize s.toList = cs at h ⊢
  generalize t.toList = ds at h ⊢
  induction cs generalizing ds with
  | nil => exact List.nil_prefix
  | cons c cs ih =>
    obtain ⟨rest, hrest⟩ := h
    cases ds with
    | nil =>
      have hlen := congrArg List.length hrest
      have hpos : 0 < (utf8EncodeChar c).length := by
        rw [length_utf8EncodeChar]
        exact c.utf8Size_pos
      simp only [List.flatMap_cons, List.length_append, List.flatMap_nil, List.length_nil] at hlen
      omega
    | cons d ds =>
      simp only [List.flatMap_cons, List.append_assoc] at hrest
      obtain ⟨rfl, htail⟩ := utf8EncodeChar_append_inj hrest
      exact (List.prefix_cons_inj c).mpr (ih ds ⟨rest, htail⟩)

/-! ## Hexadecimal -/

def hexDigit (n : ℕ) : Char := "0123456789abcdef".toList.getD n '0'

/-- The value of a digit in a radix of at most 16; either case is read. -/
def digitValue (radix : ℕ) (c : Char) : Option ℕ :=
  let value :=
    if '0' ≤ c ∧ c ≤ '9' then some (c.toNat - 48)
    else if 'a' ≤ c ∧ c ≤ 'f' then some (c.toNat - 87)
    else if 'A' ≤ c ∧ c ≤ 'F' then some (c.toNat - 55)
    else none
  value.filter (· < radix)

/-- `hex::encode`. -/
def hexEncode (bytes : List UInt8) : String :=
  ofList (bytes.flatMap fun b => [hexDigit (b.toNat / 16), hexDigit (b.toNat % 16)])

inductive FromHexError where
  | invalidHexCharacter (c : Char) (index : ℕ)
  | oddLength
  deriving DecidableEq

def FromHexError.display : FromHexError → String
  | invalidHexCharacter c index =>
    "Invalid character " ++ c.quote ++ " at position " ++ toString index
  | oddLength => "Odd number of digits"

def hexPairs : ℕ → List Char → Except FromHexError (List UInt8)
  | _, [] => .ok []
  | _, [_] => .error .oddLength
  | index, a :: b :: rest => do
    let hi ← need (digitValue 16 a) (.invalidHexCharacter a index)
    let lo ← need (digitValue 16 b) (.invalidHexCharacter b (index + 1))
    let bytes ← hexPairs (index + 2) rest
    return UInt8.ofNat (hi * 16 + lo) :: bytes

/-- `hex::decode`: an odd number of digits is reported before any of them is read. -/
def hexDecode (s : String) : Except FromHexError (List UInt8) :=
  if s.toList.length % 2 = 1 then .error .oddLength else hexPairs 0 s.toList

theorem hexPairs_of_digits {cs : List Char} (hdigits : ∀ c ∈ cs, (digitValue 16 c).isSome)
    (heven : cs.length % 2 = 0) (index : ℕ) :
    ∃ bytes, hexPairs index cs = .ok bytes ∧ 2 * bytes.length = cs.length := by
  match cs with
  | [] => exact ⟨[], rfl, rfl⟩
  | [_] => simp at heven
  | a :: b :: rest =>
    obtain ⟨hi, hhi⟩ := Option.isSome_iff_exists.mp (hdigits a (by simp))
    obtain ⟨lo, hlo⟩ := Option.isSome_iff_exists.mp (hdigits b (by simp))
    have hrest : ∀ c ∈ rest, (digitValue 16 c).isSome := fun c hc => hdigits c (by simp [hc])
    obtain ⟨bytes, hbytes, hlen⟩ := hexPairs_of_digits hrest (by simp at heven; omega) (index + 2)
    refine ⟨ofNat (hi * 16 + lo) :: bytes, ?_, ?_⟩
    · rw [hexPairs, hhi, hlo, hbytes]
      rfl
    · simp
      omega

variable {n : ℕ}

theorem digitValue_hexDigit (h : n < 16) : digitValue 16 (hexDigit n) = some n := by
  have hall : ∀ m : Fin 16, digitValue 16 (hexDigit m) = some m.val := by decide
  exact hall ⟨n, h⟩

theorem length_hexEncode (bytes : List UInt8) :
    (hexEncode bytes).toList.length = 2 * bytes.length := by
  induction bytes with
  | nil => rfl
  | cons b bytes ih =>
    simp only [hexEncode, toList_ofList, List.flatMap_cons, List.length_append] at ih ⊢
    rw [ih]
    simp
    omega

theorem hexPairs_encode (index : ℕ) (bytes : List UInt8) :
    hexPairs index (bytes.flatMap fun b => [hexDigit (b.toNat / 16), hexDigit (b.toNat % 16)]) =
      .ok bytes := by
  induction bytes generalizing index with
  | nil => rfl
  | cons b bytes ih =>
    have hb := b.toNat_lt
    have hhi := digitValue_hexDigit (n := b.toNat / 16) (by omega)
    have hlo := digitValue_hexDigit (n := b.toNat % 16) (by omega)
    have hval : ofNat (b.toNat / 16 * 16 + b.toNat % 16) = b := by
      rw [show b.toNat / 16 * 16 + b.toNat % 16 = b.toNat by omega]
      simp
    show hexPairs index (hexDigit _ :: hexDigit _ :: _) = _
    simp only [hexPairs, bind_eq_ok, need_eq_ok, pure_eq_ok]
    exact ⟨_, hhi, _, hlo, bytes, ih (index + 2), by rw [hval]⟩

@[simp] theorem hexDecode_hexEncode (bytes : List UInt8) :
    hexDecode (hexEncode bytes) = .ok bytes := by
  unfold hexDecode
  rw [if_neg (by rw [length_hexEncode]; omega)]
  simp only [hexEncode, toList_ofList]
  exact hexPairs_encode 0 bytes

theorem hexEncode_inj (h : hexEncode as = hexEncode bs) : as = bs := by
  have := hexDecode_hexEncode as
  rw [h, hexDecode_hexEncode] at this
  exact (Except.ok.inj this).symm

theorem of_mem_hexEncode (h : c ∈ (hexEncode bytes).toList) :
    ∃ n : Fin 16, c = hexDigit n := by
  simp only [hexEncode, toList_ofList, mem_flatMap, mem_cons, not_mem_nil,
    or_false] at h
  obtain ⟨b, -, h⟩ := h
  have hb := b.toNat_lt
  rcases h with rfl | rfl
  · exact ⟨⟨b.toNat / 16, by omega⟩, rfl⟩
  · exact ⟨⟨b.toNat % 16, by omega⟩, rfl⟩

theorem isSome_digitValue_of_mem_hexEncode (h : c ∈ (hexEncode bytes).toList) : (digitValue 16 c).isSome = true := by
  obtain ⟨n, rfl⟩ := of_mem_hexEncode h
  rw [digitValue_hexDigit n.isLt]
  rfl

/-! ## Big-endian numbers -/

/-- The `len` lowest bytes of a number, highest first. -/
def bigEndian : ℕ → ℕ → List UInt8
  | 0, _ => []
  | len + 1, n => bigEndian len (n / 256) ++ [UInt8.ofNat (n % 256)]

@[simp] theorem length_bigEndian (len n : ℕ) : (bigEndian len n).length = len := by
  induction len generalizing n with
  | zero => rfl
  | succ len ih => rw [bigEndian, List.length_append, ih, List.length_singleton]

theorem compare_append_left (p xs ys : List UInt8) : compare (p ++ xs) (p ++ ys) = compare xs ys := by
  induction p with
  | nil => rfl
  | cons x p ih =>
    rw [List.cons_append, List.cons_append, List.compare_eq_compareLex, List.compareLex_cons_cons,
      Std.compare_self, Ordering.eq_then, ← List.compare_eq_compareLex, ih]

theorem compare_concat {xs ys : List UInt8} (h : xs.length = ys.length) (a b : UInt8) :
    compare (xs ++ [a]) (ys ++ [b]) = (compare xs ys).then (compare a b) := by
  induction xs generalizing ys with
  | nil =>
    obtain rfl : ys = [] := List.eq_nil_of_length_eq_zero h.symm
    rw [List.nil_append, List.nil_append, List.compare_eq_compareLex, List.compareLex_cons_cons]
    show (compare a b).then .eq = Ordering.eq.then (compare a b)
    rw [Ordering.then_eq, Ordering.eq_then]
  | cons x xs ih =>
    cases ys with
    | nil => cases h
    | cons y ys =>
      have hlen : xs.length = ys.length := Nat.succ.inj h
      rw [List.cons_append, List.cons_append, List.compare_eq_compareLex, List.compareLex_cons_cons,
        List.compareLex_cons_cons, ← List.compare_eq_compareLex, ih hlen, Ordering.then_assoc]

/-- The range from a key that ends in a zero byte to its successor. -/
theorem compare_range_iff (q k : List UInt8) :
    (compare (q ++ [0]) k ≠ .gt ∧ compare k (q ++ [1]) = .lt) ↔ q ++ [0] <+: k := by
  induction q generalizing k with
  | nil =>
    cases k with
    | nil => decide
    | cons x k =>
      have hlt : compare x 1 = .lt ↔ x = 0 := by
        refine compareOfLessAndEq_eq_lt.trans ?_
        rw [UInt8.lt_iff_toNat_lt, ← UInt8.toNat_inj]
        exact Nat.lt_one_iff
      have hnil : compare k [] ≠ .lt := by cases k <;> simp
      by_cases hx : x = 0
      · subst hx
        cases k <;> simp [hlt.mpr rfl]
      · simp [Ordering.then_eq_lt, hlt, hx, hnil, Ne.symm hx]
  | cons y q ih =>
    cases k with
    | nil => simp
    | cons x k =>
      cases hc : compare y x with
      | lt => simp [hc, Std.OrientedCmp.gt_of_lt hc, show y ≠ x by rintro rfl; simp at hc]
      | eq =>
        obtain rfl := Std.LawfulEqCmp.eq_of_compare hc
        simpa using ih k
      | gt => simp [hc, show y ≠ x by rintro rfl; simp at hc]

theorem compare_bigEndian {len m : ℕ} (h : n < m) (hm : m < 256 ^ len) :
    compare (bigEndian len n) (bigEndian len m) = .lt := by
  induction len generalizing n m with
  | zero =>
    rw [pow_zero] at hm
    omega
  | succ len ih =>
    rw [bigEndian, bigEndian, compare_concat (by simp), Ordering.then_eq_lt]
    rw [pow_succ] at hm
    by_cases hdiv : n / 256 = m / 256
    · right
      refine ⟨by rw [hdiv, Std.compare_self], ?_⟩
      have hmod : n % 256 < m % 256 := by omega
      apply compareOfLessAndEq_eq_lt.mpr
      rw [UInt8.lt_iff_toNat_lt, toNat_ofNat_of_lt' (Nat.mod_lt n (by decide)),
        toNat_ofNat_of_lt' (Nat.mod_lt m (by decide))]
      exact hmod
    · left
      exact ih (by omega) (by omega)

/-! ## Unsigned integers -/

/-- `std::num::IntErrorKind`, for unsigned types. -/
inductive ParseIntError where
  | empty
  | invalidDigit
  | posOverflow
  deriving DecidableEq

def ParseIntError.display : ParseIntError → String
  | empty => "cannot parse integer from empty string"
  | invalidDigit => "invalid digit found in string"
  | posOverflow => "number too large to fit in target type"

/-- The digits after a value that was read so far; the first bad digit or overflow stops. -/
def parseDigits (radix bound : ℕ) : ℕ → List Char → Except ParseIntError ℕ
  | acc, [] => .ok acc
  | acc, c :: cs => do
    let digit ← need (digitValue radix c) .invalidDigit
    ensure (acc * radix + digit ≤ bound) .posOverflow
    parseDigits radix bound (acc * radix + digit) cs

/-- `from_str_radix` of an unsigned type with largest value `bound`: a plus sign may stand in
front of the digits. -/
def parseRadix (radix bound : ℕ) (s : String) : Except ParseIntError ℕ :=
  match s.toList with
  | [] => .error .empty
  | ['+'] => .error .invalidDigit
  | '+' :: cs => parseDigits radix bound 0 cs
  | cs => parseDigits radix bound 0 cs

theorem digitValue_digitChar (h : n < 10) : digitValue 10 (Nat.digitChar n) = some n := by
  have hall : ∀ m : Fin 10, digitValue 10 (Nat.digitChar m) = some m.val := by decide
  exact hall ⟨n, h⟩

theorem parseDigits_cons {radix bound acc d : ℕ} (hd : digitValue radix c = some d)
    (hle : acc * radix + d ≤ bound) (cs : List Char) :
    parseDigits radix bound acc (c :: cs) = parseDigits radix bound (acc * radix + d) cs := by
  show ((need _ _) >>= _) = _
  rw [hd]
  show ((ensure _ _) >>= _) = _
  rw [ensure, if_pos hle]
  rfl

theorem parseDigits_append {radix bound acc v : ℕ} {as bs : List Char}
    (h : parseDigits radix bound acc as = .ok v) :
    parseDigits radix bound acc (as ++ bs) = parseDigits radix bound v bs := by
  induction as generalizing acc with
  | nil =>
    cases h
    rfl
  | cons a as ih =>
    simp only [parseDigits, bind_eq_ok, need_eq_ok, ensure_eq_ok] at h
    obtain ⟨d, hd, -, hle, hrest⟩ := h
    rw [List.cons_append, parseDigits_cons hd hle]
    exact ih hrest

variable {bound : ℕ}

theorem parseDigits_toDigits (h : n ≤ bound) :
    parseDigits 10 bound 0 (Nat.toDigits 10 n) = .ok n := by
  induction n using Nat.strong_induction_on with
  | _ n ih =>
    by_cases hlt : n < 10
    · rw [Nat.toDigits_of_lt_base hlt, parseDigits_cons (digitValue_digitChar hlt) (by omega)]
      simp [parseDigits]
    · rw [Nat.toDigits_of_base_le (by omega) (by omega),
        parseDigits_append (ih (n / 10) (by omega) (by omega)),
        parseDigits_cons (digitValue_digitChar (n := n % 10) (by omega)) (by omega), parseDigits]
      congr 1
      omega

theorem parseRadix_le {radix bound n : ℕ} (h : parseRadix radix bound s = .ok n) : n ≤ bound := by
  have hdigits : ∀ (cs : List Char) (acc : ℕ), acc ≤ bound →
      parseDigits radix bound acc cs = .ok n → n ≤ bound := by
    intro cs
    induction cs with
    | nil =>
      intro acc hacc hok
      exact Except.ok.inj hok ▸ hacc
    | cons c cs ih =>
      intro acc _ hok
      simp only [parseDigits, bind_eq_ok, ensure_eq_ok] at hok
      obtain ⟨d, -, -, hle, hrest⟩ := hok
      exact ih _ hle hrest
  unfold parseRadix at h
  split at h
  · cases h
  · cases h
  · exact hdigits _ 0 (Nat.zero_le _) h
  · exact hdigits _ 0 (Nat.zero_le _) h

/-- **A number in decimal reads as itself.** -/
theorem parseRadix_decimal (h : n ≤ bound) : parseRadix 10 bound (toString n) = .ok n := by
  have hdigits := parseDigits_toDigits h
  have hlist : (toString n).toList = Nat.toDigits 10 n := by
    rw [Nat.toString_eq_ofList_toDigits, toList_ofList]
  cases hcs : Nat.toDigits 10 n with
  | nil => exact absurd hcs Nat.toDigits_ne_nil
  | cons c cs =>
    have hmem : c ∈ Nat.toDigits 10 n := by simp [hcs]
    have hc : c.isDigit = true := Nat.isDigit_of_mem_toDigits (by decide) (by decide) hmem
    have hplus : ¬ c = '+' := by
      rintro rfl
      simp [Char.isDigit] at hc
    unfold parseRadix
    rw [hlist, hcs]
    rw [hcs] at hdigits
    split
    · cases ‹_ = _›
    · rename_i heq
      cases heq
      exact absurd rfl hplus
    · rename_i heq
      cases heq
      exact absurd rfl hplus
    · exact hdigits

end KappaRegistry.Lib
