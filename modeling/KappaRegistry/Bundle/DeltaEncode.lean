import KappaRegistry.Bundle.Delta
import Mathlib.Data.Nat.Bitwise

/-!
# Computing Deltas

`compute_delta` of `kappa-core/src/delta.rs`: the base is indexed by fingerprints of its blocks of
16 bytes, the target is scanned, and where a block of the base is found the longest match becomes a
copy; other bytes are collected into inserts of at most 127 bytes.

`deltaInstructions` gives the instructions, `execInstructions` says what they stand for, and
`emitInstruction` writes one. No proof depends on the fingerprints: the scan is right because a copy is
taken from where the base and the target agree (`exec_deltaInstructions`).

A size has 24 bits on the wire. **`applyDelta_computeDelta`**: applying a computed delta gives the
target back if no copy in it is longer, and is an error otherwise.
-/

namespace KappaRegistry

open Lib List
open UInt8 hiding size

inductive Instruction where
  | copy (offset size : ℕ)
  | insert (bytes : Bytes)

/-! ## The scan -/

/-- `fnv1a`. -/
def fnv1a (block : Bytes) : UInt64 :=
  block.foldl (fun hash b => (hash ^^^ b.toUInt64) * 0x100000001b3) 0xcbf29ce484222325

def blockSize : ℕ := 16

variable (value : ℕ) (base rest start target : Bytes)

/-- The offsets that the index of the base holds for a fingerprint, in order. -/
def indexedOffsets (fingerprint : UInt64) : List ℕ :=
  if base.length < blockSize then []
  else (List.range (base.length - blockSize + 1)).filter fun i =>
    fnv1a ((base.drop i).take blockSize) = fingerprint

/-- The number of bytes that two byte strings share from the start. -/
def commonLength : Bytes → Bytes → ℕ
  | a :: as, b :: bs => if a = b then commonLength as bs + 1 else 0
  | _, _ => 0

/-- The length of the match of the rest of the target with the base from an offset on, if a whole block
matches. -/
def matchAt (offset : ℕ) : Option ℕ :=
  if (base.drop offset).take blockSize = rest.take blockSize then
    some (blockSize + commonLength (base.drop (offset + blockSize)) (rest.drop blockSize))
  else none

def betterMatch (best : ℕ × ℕ) (offset : ℕ) : ℕ × ℕ :=
  match matchAt base rest offset with
  | some len => if best.2 < len then (offset, len) else best
  | none => best

/-- The offset and the length of the longest match, the first one if there are several. -/
def bestMatch : ℕ × ℕ :=
  if rest.length < blockSize then (0, 0)
  else (indexedOffsets base (fnv1a (rest.take blockSize))).foldl (betterMatch base rest) (0, 0)

/-- `flush_inserts`, of a buffer of at most 127 bytes. -/
def flushInserts (buf : Bytes) : List Instruction := if buf = [] then [] else [.insert buf]

/-- The loop of `compute_delta` over the rest of the target. The fuel is at least its length. -/
def deltaInstructions (base : Bytes) : ℕ → Bytes → Bytes → List Instruction
  | _, [], buf => flushInserts buf
  | 0, _ :: _, buf => flushInserts buf
  | fuel + 1, byte :: rest, buf =>
    let best := bestMatch base (byte :: rest)
    if blockSize ≤ best.2 then
      flushInserts buf ++ .copy best.1 best.2 :: deltaInstructions base fuel ((byte :: rest).drop best.2) []
    else if (buf ++ [byte]).length = 127 then
      flushInserts (buf ++ [byte]) ++ deltaInstructions base fuel rest []
    else deltaInstructions base fuel rest (buf ++ [byte])

/-! ## The writer -/

def encodeVarint (value : ℕ) : Bytes :=
  if value < 128 then [UInt8.ofNat value]
  else UInt8.ofNat (value % 128 + 128) :: encodeVarint (value / 128)
  termination_by value
  decreasing_by omega

/-- A byte of a number, given by its shift, that is not zero. -/
def hasField (field : ℕ × ℕ) : Bool := value / 2 ^ field.2 % 256 ≠ 0

/-- The bytes of a number that are not zero. -/
def emitFields (fields : List (ℕ × ℕ)) : Bytes :=
  (fields.filter (hasField value)).map fun field => UInt8.ofNat (value / 2 ^ field.2 % 256)

def fieldBits (fields : List (ℕ × ℕ)) : ℕ :=
  (fields.map fun field => (hasField value field).toNat * 2 ^ field.1).sum

def copyOpcode (off sz : ℕ) : ℕ := 0x80 + fieldBits off offsetFields + fieldBits sz sizeFields

/-- `emit_copy`: the offset and the size are cut to 32 bits, and of the size the lowest 24 are
written. -/
def emitCopy (offset size : ℕ) : Bytes :=
  let off := offset % 2 ^ 32
  let sz := if size = 0x10000 then 0 else size % 2 ^ 32
  UInt8.ofNat (copyOpcode off sz) :: (emitFields off offsetFields ++ emitFields sz sizeFields)

def emitInstruction : Instruction → Bytes
  | .copy offset size => emitCopy offset size
  | .insert bytes => UInt8.ofNat bytes.length :: bytes

def computeDelta : Option Bytes :=
  if base = [] ∨ target = [] ∨ target.length < blockSize then none
  else
    let delta := encodeVarint base.length ++ (encodeVarint target.length ++
      (deltaInstructions base target.length target []).flatMap emitInstruction)
    if target.length * 75 / 100 ≤ delta.length then none else some delta

/-! ## What instructions stand for -/

def execInstructions (base : Bytes) : List Instruction → Bytes
  | [] => []
  | .copy offset size :: rest => (base.drop offset).take size ++ execInstructions base rest
  | .insert bytes :: rest => bytes ++ execInstructions base rest

/-- A copy of a piece that is there, or an insert with a length that fits its opcode. -/
def Instruction.Valid : Instruction → Prop
  | .copy offset size => 0 < size ∧ offset + size ≤ base.length
  | .insert bytes => bytes ≠ [] ∧ bytes.length < 128

theorem exec_append (is js : List Instruction) :
    execInstructions base (is ++ js) = execInstructions base is ++ execInstructions base js := by
  induction is with
  | nil => rfl
  | cons i is ih =>
    cases i with
    | copy offset size | insert bytes => rw [cons_append, execInstructions, ih, execInstructions, append_assoc]

theorem exec_flushInserts (buf : Bytes) : execInstructions base (flushInserts buf) = buf := by
  unfold flushInserts
  split_ifs with hbuf
  · rw [hbuf]
    rfl
  · simp [execInstructions]

/-! ## Matches -/

theorem take_commonLength (as bs : Bytes) :
    as.take (commonLength as bs) = bs.take (commonLength as bs) ∧ commonLength as bs ≤ as.length ∧
      commonLength as bs ≤ bs.length := by
  induction as generalizing bs with
  | nil =>
    cases bs <;> simp [commonLength]
  | cons a as ih =>
    cases bs with
    | nil => simp [commonLength]
    | cons b bs =>
      rw [commonLength]
      split_ifs with heq
      · obtain ⟨htake, has, hbs⟩ := ih bs
        subst heq
        simp [htake, has, hbs]
      · simp

variable {base rest : Bytes} {offset len : ℕ}

theorem matchAt_spec (hrest : blockSize ≤ rest.length)
    (hoffset : offset + blockSize ≤ base.length) (h : matchAt base rest offset = some len) :
    (base.drop offset).take len = rest.take len ∧ offset + len ≤ base.length ∧ len ≤ rest.length := by
  unfold matchAt at h
  split at h
  · rename_i hblock
    cases h
    obtain ⟨htake, hbase, hlen⟩ := take_commonLength (base.drop (offset + blockSize)) (rest.drop blockSize)
    rw [length_drop] at hbase hlen
    refine ⟨?_, by omega, by omega⟩
    rw [take_add, take_add, hblock, drop_drop, htake]
  · cases h

theorem bestMatch_spec (h : bestMatch base rest = (offset, len)) (hlen : blockSize ≤ len) :
    (base.drop offset).take len = rest.take len ∧ offset + len ≤ base.length ∧ len ≤ rest.length := by
  have hpos : 0 < blockSize := by decide
  unfold bestMatch at h
  split_ifs at h with hrest
  · cases h
    omega
  · -- the best match so far is a match, or there is none yet
    have hfold : ∀ (offsets : List ℕ) (best : ℕ × ℕ), (∀ i ∈ offsets, i + blockSize ≤ base.length) →
        (best.2 = 0 ∨ (base.drop best.1).take best.2 = rest.take best.2 ∧ best.1 + best.2 ≤ base.length ∧
          best.2 ≤ rest.length) →
        offsets.foldl (betterMatch base rest) best = (offset, len) →
        (base.drop offset).take len = rest.take len ∧ offset + len ≤ base.length ∧ len ≤ rest.length := by
      intro offsets
      induction offsets with
      | nil =>
        intro best _ hbest heq
        rw [foldl_nil] at heq
        subst heq
        rcases hbest with hzero | hmatch
        · dsimp only at hzero
          omega
        · exact hmatch
      | cons i offsets ih =>
        intro best hin hbest heq
        rw [foldl_cons] at heq
        refine ih _ (fun j hj => hin j (mem_cons_of_mem _ hj)) ?_ heq
        unfold betterMatch
        cases hmatch : matchAt base rest i with
        | none => exact hbest
        | some l =>
          dsimp only
          split
          · exact .inr (matchAt_spec (by omega) (hin i mem_cons_self) hmatch)
          · exact hbest
    refine hfold _ (0, 0) ?_ (.inl rfl) h
    intro i hi
    unfold indexedOffsets at hi
    split at hi
    · cases hi
    · have hrange := mem_range.mp (mem_filter.mp hi).1
      omega

/-! ## The scan is right -/

variable {fuel : ℕ}

/-- **The instructions of the scan stand for the target.** -/
theorem exec_deltaInstructions (base buf : Bytes) (hfuel : rest.length ≤ fuel) :
    execInstructions base (deltaInstructions base fuel rest buf) = buf ++ rest := by
  induction fuel generalizing rest buf with
  | zero =>
    obtain rfl := eq_nil_of_length_eq_zero (Nat.le_zero.mp hfuel)
    rw [deltaInstructions, exec_flushInserts, append_nil]
  | succ fuel ih =>
    cases rest with
    | nil => rw [deltaInstructions, exec_flushInserts, append_nil]
    | cons byte rest =>
      rw [length_cons] at hfuel
      rw [deltaInstructions]
      split
      · rename_i hlen
        obtain ⟨hmatch, -, -⟩ := bestMatch_spec (Prod.mk.eta (p := bestMatch base (byte :: rest))).symm hlen
        have hpos : 0 < blockSize := by decide
        have hdrop : ((byte :: rest).drop (bestMatch base (byte :: rest)).2).length ≤ fuel := by
          rw [length_drop, length_cons]
          omega
        rw [exec_append, exec_flushInserts, execInstructions, ih [] hdrop, nil_append, hmatch,
          take_append_drop]
      · split
        · rw [exec_append, exec_flushInserts, ih [] (by omega), nil_append, append_assoc]
          rfl
        · rw [ih _ (by omega), append_assoc]
          rfl

theorem valid_flushInserts {buf : Bytes} (hbuf : buf.length < 128) :
    ∀ i ∈ flushInserts buf, i.Valid base := by
  intro i hi
  unfold flushInserts at hi
  split_ifs at hi with hne
  · cases hi
  · rw [mem_singleton] at hi
    subst hi
    exact ⟨hne, hbuf⟩

theorem valid_deltaInstructions (base : Bytes) (fuel : ℕ) (rest buf : Bytes) (hbuf : buf.length < 127) :
    ∀ i ∈ deltaInstructions base fuel rest buf, i.Valid base := by
  induction fuel generalizing rest buf with
  | zero =>
    cases rest <;> exact valid_flushInserts (by omega)
  | succ fuel ih =>
    cases rest with
    | nil => exact valid_flushInserts (by omega)
    | cons byte rest =>
      intro i hi
      rw [deltaInstructions] at hi
      have hlength : (buf ++ [byte]).length < 128 := by
        rw [length_append, length_singleton]
        omega
      split at hi
      · rename_i hlen
        obtain ⟨-, hbase, -⟩ := bestMatch_spec (Prod.mk.eta (p := bestMatch base (byte :: rest))).symm hlen
        rcases mem_append.mp hi with hflush | hi
        · exact valid_flushInserts (by omega) i hflush
        · rcases mem_cons.mp hi with rfl | hi
          · have hpos : 0 < blockSize := by decide
            exact ⟨by omega, hbase⟩
          · exact ih _ [] (by decide) i hi
      · split at hi
        · rcases mem_append.mp hi with hflush | hi
          · exact valid_flushInserts hlength i hflush
          · exact ih _ [] (by decide) i hi
        · exact ih _ _ (by omega) i hi

/-! ## Reading what was written -/

variable {n : ℕ}

theorem toNat_byte (h : n < 256) : (ofNat n).toNat = n := by
  rw [toNat_ofNat']
  omega

theorem byte_ne_zero (hpos : 0 < n) (h : n < 256) : ofNat n ≠ 0 := by
  intro heq
  have hzero := congrArg toNat heq
  rw [toNat_byte h] at hzero
  exact hpos.ne' hzero

theorem or_shiftLeft {value n shift : ℕ} (h : value < 2 ^ shift) :
    value ||| n <<< shift = value + n * 2 ^ shift := by
  rw [Nat.or_comm, ← Nat.shiftLeft_add_eq_or_of_lt h, Nat.shiftLeft_eq, Nat.add_comm]

theorem decodeVarintFrom_encodeVarint (n : ℕ) {shift value : ℕ} (rest : Bytes) (hvalue : value < 2 ^ shift)
    (hn : n * 2 ^ shift < 2 ^ 63) :
    decodeVarintFrom shift value (encodeVarint n ++ rest) = .ok (value + n * 2 ^ shift, rest) := by
  induction n using Nat.strong_induction_on generalizing shift value with
  | _ n ih =>
    rw [encodeVarint]
    split
    · rename_i hsmall
      have hbyte : (ofNat n).toNat = n := toNat_byte (by omega)
      rw [singleton_append, decodeVarintFrom, hbyte, Nat.mod_eq_of_lt hsmall]
      rw [if_pos hsmall, Nat.shiftLeft_eq, Nat.mod_eq_of_lt (by omega), ← Nat.shiftLeft_eq, or_shiftLeft hvalue,
        Nat.shiftLeft_eq]
    · rename_i hlarge
      have hbyte : (ofNat (n % 128 + 128)).toNat = n % 128 + 128 := toNat_byte (by omega)
      have hsplit : n * 2 ^ shift = n % 128 * 2 ^ shift + n / 128 * 2 ^ (shift + 7) := by
        have hdiv : n % 128 + n / 128 * 128 = n := Nat.mod_add_div' n 128
        calc n * 2 ^ shift = (n % 128 + n / 128 * 128) * 2 ^ shift := by rw [hdiv]
          _ = n % 128 * 2 ^ shift + n / 128 * 2 ^ (shift + 7) := by ring
      have hpow : 2 ^ (shift + 7) ≤ n / 128 * 2 ^ (shift + 7) :=
        Nat.le_mul_of_pos_left _ (by omega)
      have hshift : shift + 7 < 63 := by
        refine (Nat.pow_lt_pow_iff_right (by decide : 1 < 2)).mp ?_
        omega
      have hmod : (n % 128 + 128) % 128 = n % 128 := by omega
      rw [cons_append, decodeVarintFrom, hbyte, hmod]
      rw [if_neg (by omega), if_neg (by omega), Nat.shiftLeft_eq, Nat.mod_eq_of_lt (by omega),
        ← Nat.shiftLeft_eq, or_shiftLeft hvalue]
      have hnext : value + n % 128 * 2 ^ shift < 2 ^ (shift + 7) := by
        have hle : n % 128 * 2 ^ shift ≤ 127 * 2 ^ shift := Nat.mul_le_mul_right _ (by omega)
        have hpow' : (2 : ℕ) ^ (shift + 7) = 128 * 2 ^ shift := by ring
        omega
      rw [ih (n / 128) (by omega) hnext (by omega), hsplit, Nat.add_assoc]

theorem decodeVarint_encodeVarint (rest : Bytes) (hn : n < 2 ^ 63) :
    decodeVarint (encodeVarint n ++ rest) = .ok (n, rest) := by
  rw [decodeVarint, decodeVarintFrom_encodeVarint n rest (by decide) (by omega)]
  simp

theorem readFields_emitFields {cmd : UInt8} (what : String) (value : ℕ) (rest : Bytes)
    {fields : List (ℕ × ℕ)} (acc : ℕ) (h : ∀ field ∈ fields, cmd.toNat.testBit field.1 = hasField value field) :
    readFields cmd what fields acc (emitFields value fields ++ rest) =
      .ok (fields.foldl (fun acc field => acc ||| (value / 2 ^ field.2 % 256) <<< field.2) acc, rest) := by
  induction fields generalizing acc with
  | nil => rfl
  | cons field fields ih =>
    have hfield := h field mem_cons_self
    have hrest := fun f hf => h f (mem_cons_of_mem field hf)
    obtain ⟨bit, shift⟩ := field
    rw [readFields.eq_def, foldl_cons]
    dsimp only at hfield ⊢
    rw [hfield]
    by_cases hhas : hasField value (bit, shift) = true
    · have hbyte := toNat_byte (Nat.mod_lt (value / 2 ^ shift) (by decide : 0 < 256))
      rw [if_pos hhas, emitFields, filter_cons_of_pos hhas, map_cons, cons_append]
      dsimp only
      rw [hbyte]
      exact ih _ hrest
    · have hzero : value / 2 ^ shift % 256 = 0 := by
        simpa [hasField] using hhas
      rw [if_neg hhas, emitFields, filter_cons_of_neg hhas, hzero, Nat.zero_shiftLeft, Nat.or_zero]
      exact ih _ hrest

theorem or_byte (shift : ℕ) :
    value % 2 ^ shift ||| (value / 2 ^ shift % 256) <<< shift = value % 2 ^ (shift + 8) := by
  rw [or_shiftLeft (Nat.mod_lt _ (Nat.two_pow_pos shift)), Nat.pow_add, Nat.mod_mul, Nat.mul_comm (2 ^ shift)]

theorem offsetFields_value :
    offsetFields.foldl (fun acc field => acc ||| (value / 2 ^ field.2 % 256) <<< field.2) 0 = value % 2 ^ 32 := by
  have hstart : 0 = value % 2 ^ 0 := by simp [Nat.mod_one]
  rw [hstart]
  simp only [offsetFields, foldl_cons, foldl_nil, or_byte, Nat.reduceAdd]

theorem sizeFields_value :
    sizeFields.foldl (fun acc field => acc ||| (value / 2 ^ field.2 % 256) <<< field.2) 0 = value % 2 ^ 24 := by
  have hstart : 0 = value % 2 ^ 0 := by simp [Nat.mod_one]
  rw [hstart]
  simp only [sizeFields, foldl_cons, foldl_nil, or_byte, Nat.reduceAdd]

/-- A byte with its high bit, by its bits. -/
def BitsOf (n : ℕ) (b₀ b₁ b₂ b₃ b₄ b₅ b₆ : Bool) : Prop :=
  (128 ≤ n ∧ n < 256) ∧ (n.testBit 0 = b₀ ∧ n.testBit 1 = b₁ ∧ n.testBit 2 = b₂ ∧ n.testBit 3 = b₃) ∧
    n.testBit 4 = b₄ ∧ n.testBit 5 = b₅ ∧ n.testBit 6 = b₆
  deriving Decidable

theorem copyOpcode_bits (off sz : ℕ) : (128 ≤ copyOpcode off sz ∧ copyOpcode off sz < 256) ∧
      (∀ field ∈ offsetFields, (copyOpcode off sz).testBit field.1 = hasField off field) ∧
      ∀ field ∈ sizeFields, (copyOpcode off sz).testBit field.1 = hasField sz field := by
  have hbits : ∀ o₀ o₁ o₂ o₃ s₀ s₁ s₂ : Bool, BitsOf (0x80 + (o₀.toNat * 2 ^ 0 + (o₁.toNat * 2 ^ 1 +
      (o₂.toNat * 2 ^ 2 + (o₃.toNat * 2 ^ 3 + 0)))) + (s₀.toNat * 2 ^ 4 + (s₁.toNat * 2 ^ 5 +
      (s₂.toNat * 2 ^ 6 + 0)))) o₀ o₁ o₂ o₃ s₀ s₁ s₂ := by
    decide +kernel
  obtain ⟨hrange, ⟨h0, h1, h2, h3⟩, h4, h5, h6⟩ := hbits (hasField off (0, 0)) (hasField off (1, 8))
    (hasField off (2, 16)) (hasField off (3, 24)) (hasField sz (4, 0)) (hasField sz (5, 8)) (hasField sz (6, 16))
  refine ⟨hrange, ?_, ?_⟩
  · intro field hfield
    simp only [offsetFields, mem_cons, not_mem_nil, or_false] at hfield
    rcases hfield with rfl | rfl | rfl | rfl
    · exact h0
    · exact h1
    · exact h2
    · exact h3
  · intro field hfield
    simp only [sizeFields, mem_cons, not_mem_nil, or_false] at hfield
    rcases hfield with rfl | rfl | rfl
    · exact h4
    · exact h5
    · exact h6

def wireSize (size : ℕ) : ℕ := copySize (if size = 0x10000 then 0 else size % 2 ^ 24)

variable {size : ℕ}

theorem wireSize_spec (h : 0 < size) :
    wireSize size ≤ size ∧ (wireSize size = size ↔ size < 2 ^ 24) := by
  unfold wireSize copySize
  split_ifs <;> omega

/-- An instruction as the reader sees it. -/
def Instruction.onWire : Instruction → Instruction
  | .copy offset size => .copy offset (wireSize size)
  | .insert bytes => .insert bytes

theorem applyInstruction_emitInstruction {i : Instruction} (h : i.Valid base)
    (hbase : base.length ≤ 2 ^ 32) :
    ∃ cmd extra, emitInstruction i = cmd :: extra ∧
      ∀ rest, applyInstruction base cmd (extra ++ rest) = .ok (execInstructions base [i.onWire], rest) := by
  cases i with
  | copy offset size =>
    obtain ⟨hpos, hin⟩ := h
    refine ⟨_, _, rfl, ?_⟩
    intro rest
    have hoff : offset % 2 ^ 32 = offset := Nat.mod_eq_of_lt (by omega)
    rw [hoff]
    generalize hsz : (if size = 0x10000 then 0 else size % 2 ^ 32) = sz
    obtain ⟨⟨hlow, hhigh⟩, hoffset, hsize⟩ := copyOpcode_bits offset sz
    have hcmd := toNat_byte hhigh
    have hne := byte_ne_zero (by omega) hhigh
    have hwire : copySize (sz % 2 ^ 24) = wireSize size := by
      rw [wireSize, ← hsz]
      by_cases hmax : size = 0x10000
      · rw [if_pos hmax, if_pos hmax, Nat.zero_mod]
      · rw [if_neg hmax, if_neg hmax, Nat.mod_mod_of_dvd _ (by decide)]
    have hle := (wireSize_spec hpos).1
    rw [applyInstruction, if_neg hne, hcmd, if_pos hlow, append_assoc,
      readFields_emitFields _ offset _ 0 (by rw [hcmd]; exact hoffset), offsetFields_value, hoff]
    show (readFields _ "copy size" sizeFields 0 _ >>= _) = _
    rw [readFields_emitFields _ sz _ 0 (by rw [hcmd]; exact hsize), sizeFields_value]
    show (if base.length < offset + copySize (sz % 2 ^ 24) then _ else _) = _
    rw [hwire, if_neg (by omega), Instruction.onWire, execInstructions, execInstructions, append_nil]
  | insert bytes =>
    obtain ⟨hne, hlen⟩ := h
    have hpos : 0 < bytes.length := length_pos_iff.mpr hne
    have hcmd := toNat_byte (show bytes.length < 256 by omega)
    have hcmdne := byte_ne_zero hpos (by omega)
    refine ⟨_, _, rfl, ?_⟩
    intro rest
    rw [applyInstruction, if_neg hcmdne, hcmd, if_neg (by omega), if_neg (by simp), take_left, drop_left,
      Instruction.onWire, execInstructions, execInstructions, append_nil]

variable {is : List Instruction}

theorem applyInstructions_emit (hbase : base.length ≤ 2 ^ 32) (hvalid : ∀ i ∈ is, i.Valid base)
    (hfuel : (is.flatMap emitInstruction).length ≤ fuel)
    (out : Bytes) : applyInstructions base fuel (is.flatMap emitInstruction) out =
      (none, out ++ execInstructions base (is.map Instruction.onWire)) := by
  induction is generalizing fuel out with
  | nil =>
    rw [flatMap_nil, map_nil, execInstructions, append_nil]
    cases fuel <;> rfl
  | cons i is ih =>
    obtain ⟨cmd, extra, hemit, happly⟩ :=
      applyInstruction_emitInstruction (hvalid i mem_cons_self) hbase
    rw [flatMap_cons, hemit, cons_append] at hfuel ⊢
    rw [length_cons, length_append] at hfuel
    obtain ⟨fuel, rfl⟩ := Nat.exists_eq_add_of_le' (Nat.succ_le_of_lt (Nat.lt_of_lt_of_le (Nat.succ_pos _) hfuel))
    rw [applyInstructions, happly]
    dsimp only
    rw [ih (fun j hj => hvalid j (mem_cons_of_mem _ hj)) (by omega), append_assoc, ← exec_append]
    rfl

/-! ## Round trip -/

/-- No copy is longer than the wire can say. -/
def ShortCopies (base target : Bytes) : Prop :=
  ∀ offset size, Instruction.copy offset size ∈ deltaInstructions base target.length target [] → size < 2 ^ 24

theorem map_onWire (hvalid : ∀ i ∈ is, i.Valid base)
    (hshort : ∀ offset size, Instruction.copy offset size ∈ is → size < 2 ^ 24) :
    is.map Instruction.onWire = is := by
  refine (map_congr_left ?_).trans (map_id is)
  intro i hi
  cases i with
  | copy offset size =>
    rw [Instruction.onWire, (wireSize_spec (hvalid _ hi).1).2.mpr (hshort offset size hi), id]
  | insert bytes => rfl

theorem length_exec_onWire (hvalid : ∀ i ∈ is, i.Valid base) :
    (execInstructions base (is.map Instruction.onWire)).length ≤ (execInstructions base is).length ∧
      ((execInstructions base (is.map Instruction.onWire)).length = (execInstructions base is).length →
        ∀ offset size, Instruction.copy offset size ∈ is → size < 2 ^ 24) := by
  induction is with
  | nil =>
    refine ⟨le_rfl, fun _ _ _ hmem => ?_⟩
    cases hmem
  | cons i is ih =>
    obtain ⟨hle, hshort⟩ := ih fun j hj => hvalid j (mem_cons_of_mem _ hj)
    have hi := hvalid i mem_cons_self
    rw [map_cons]
    cases i with
    | copy offset size =>
      obtain ⟨hpos, hin⟩ := hi
      obtain ⟨hwire, hcut⟩ := wireSize_spec hpos
      simp only [Instruction.onWire, execInstructions, length_append, length_take, length_drop]
      rw [Nat.min_eq_left (by omega), Nat.min_eq_left (by omega)]
      refine ⟨by omega, ?_⟩
      intro heq offset' size' hmem
      rcases mem_cons.mp hmem with hhead | htail
      · cases hhead
        exact hcut.mp (by omega)
      · exact hshort (by omega) offset' size' htail
    | insert bytes =>
      simp only [Instruction.onWire, execInstructions, length_append]
      refine ⟨by omega, ?_⟩
      intro heq offset size hmem
      rcases mem_cons.mp hmem with hhead | htail
      · cases hhead
      · exact hshort (by omega) offset size htail

theorem computeDelta_eq_some {base target delta : Bytes} (h : computeDelta base target = some delta) :
    delta = encodeVarint base.length ++ (encodeVarint target.length ++
      (deltaInstructions base target.length target []).flatMap emitInstruction) ∧
      delta.length < target.length := by
  unfold computeDelta at h
  split at h
  · cases h
  · dsimp only at h
    split at h
    · cases h
    · rename_i hworth
      cases h
      exact ⟨rfl, by omega⟩

section

variable {base target delta : Bytes} (hdelta : computeDelta base target = some delta)
  (hbase : base.length ≤ 2 ^ 32) (htarget : target.length < 2 ^ 63)
include hdelta hbase htarget

theorem read_computeDelta :
    ∃ rest out, decodeVarint delta = .ok (base.length, encodeVarint target.length ++ rest) ∧
      decodeVarint (encodeVarint target.length ++ rest) = .ok (target.length, rest) ∧
      applyInstructions base rest.length rest [] = (none, out) ∧ out.length ≤ target.length ∧
      (out.length = target.length → ShortCopies base target) ∧ (ShortCopies base target → out = target) := by
  obtain ⟨rfl, -⟩ := computeDelta_eq_some hdelta
  have hvalid := valid_deltaInstructions base target.length target [] (by decide)
  have hexec := exec_deltaInstructions base [] (le_refl target.length)
  obtain ⟨hle, hshort⟩ := length_exec_onWire hvalid
  rw [hexec, nil_append] at hle hshort
  refine ⟨_, _, decodeVarint_encodeVarint _ (by omega), decodeVarint_encodeVarint _ htarget,
    applyInstructions_emit hbase hvalid le_rfl [], ?_⟩
  rw [nil_append]
  refine ⟨hle, hshort, ?_⟩
  intro hcopies
  rw [map_onWire hvalid hcopies, hexec, nil_append]

/-- **A computed delta gives the target back if no copy in it has more than 24 bits**, and is an error
otherwise. -/
theorem applyDelta_computeDelta : (ShortCopies base target → applyDelta base delta = .ok target) ∧
      (¬ ShortCopies base target → ∃ e, applyDelta base delta = .error e) := by
  obtain ⟨rest, out, hsize, hresult, happly, -, hcut, hback⟩ := read_computeDelta hdelta hbase htarget
  have hrun : applyDelta base delta =
      if out.length ≠ target.length then .error (.resultSizeMismatch target.length out.length) else .ok out := by
    rw [applyDelta, hsize]
    show (decodeVarint (encodeVarint target.length ++ rest) >>= _) = _
    rw [hresult]
    show (if base.length ≠ base.length then _ else _) = _
    rw [if_neg (by simp), happly]
  rw [hrun]
  constructor
  · intro h
    rw [hback h, if_neg (by simp)]
  · intro h
    rw [if_pos fun heq => h (hcut heq)]
    exact ⟨_, rfl⟩

end

/-! ## Short and long copies -/

theorem length_copy_le (hvalid : ∀ i ∈ is, i.Valid base)
    (h : Instruction.copy offset size ∈ is) : size ≤ (execInstructions base is).length := by
  obtain ⟨before, after, rfl⟩ := append_of_mem h
  obtain ⟨-, hin⟩ := hvalid _ h
  rw [exec_append, execInstructions, length_append, length_append, length_take, length_drop]
  omega

theorem shortCopies_of_length {base target : Bytes}
    (h : target.length < 2 ^ 24) : ShortCopies base target := by
  intro offset size hmem
  have hle := length_copy_le (valid_deltaInstructions base target.length target [] (by decide)) hmem
  rw [exec_deltaInstructions base [] le_rfl, nil_append] at hle
  omega

/-- The round trip of targets below 16 MiB. -/
theorem applyDelta_computeDelta_of_length {base target delta : Bytes}
    (hbase : base.length ≤ 2 ^ 32) (htarget : target.length < 2 ^ 24)
    (hdelta : computeDelta base target = some delta) : applyDelta base delta = .ok target :=
  (applyDelta_computeDelta hdelta hbase (by omega)).1 (shortCopies_of_length htarget)

theorem applyDelta_computeDelta_zeros : ∃ delta,
    computeDelta (replicate 33 0) (replicate 32 0) = some delta ∧
      applyDelta (replicate 33 0) delta = .ok (replicate 32 0) := by
  have hdelta : computeDelta (replicate 33 0) (replicate 32 0) = some [33, 32, 0x90, 32] := by
    decide +kernel
  exact ⟨_, hdelta, applyDelta_computeDelta_of_length (by simp) (by simp) hdelta⟩

theorem commonLength_self (bytes : Bytes) : commonLength bytes bytes = bytes.length := by
  induction bytes with
  | nil => rfl
  | cons b bytes ih => rw [commonLength, if_pos rfl, ih, length_cons]

theorem le_betterMatch (base rest : Bytes) (best : ℕ × ℕ) (offset : ℕ) :
    best.2 ≤ (betterMatch base rest best offset).2 ∧
      ∀ len, matchAt base rest offset = some len → len ≤ (betterMatch base rest best offset).2 := by
  unfold betterMatch
  cases matchAt base rest offset with
  | none => exact ⟨le_rfl, nofun⟩
  | some l =>
    dsimp only
    split
    · rename_i hlt
      refine ⟨hlt.le, ?_⟩
      intro len heq
      cases heq
      exact le_rfl
    · rename_i hge
      refine ⟨le_rfl, ?_⟩
      intro len heq
      cases heq
      omega

theorem le_foldl_betterMatch {offsets : List ℕ} (best : ℕ × ℕ)
    (hmatch : matchAt base rest offset = some len) (h : len ≤ best.2 ∨ offset ∈ offsets) :
    len ≤ (offsets.foldl (betterMatch base rest) best).2 := by
  induction offsets generalizing best with
  | nil =>
    rcases h with hle | hmem
    · exact hle
    · cases hmem
  | cons i offsets ih =>
    rw [foldl_cons]
    obtain ⟨hkeep, hnew⟩ := le_betterMatch base rest best i
    rcases h with hle | hmem
    · exact ih _ (.inl (hle.trans hkeep))
    · rcases mem_cons.mp hmem with rfl | htail
      · exact ih _ (.inl (hnew len hmatch))
      · exact ih _ (.inr htail)

theorem deltaInstructions_suffix (h : blockSize ≤ target.length) :
    ∃ offset, deltaInstructions (start ++ target) target.length target [] = [.copy offset target.length] := by
  have hmatch : matchAt (start ++ target) target start.length = some target.length := by
    rw [matchAt, drop_left, if_pos rfl, ← drop_drop, drop_left, commonLength_self, length_drop]
    congr 1
    omega
  have hindexed : start.length ∈ indexedOffsets (start ++ target) (fnv1a (target.take blockSize)) := by
    rw [indexedOffsets, length_append, if_neg (by omega), mem_filter, mem_range, drop_left]
    exact ⟨by omega, decide_eq_true rfl⟩
  have hle : target.length ≤ (bestMatch (start ++ target) target).2 := by
    rw [bestMatch, if_neg (by omega)]
    exact le_foldl_betterMatch _ hmatch (.inr hindexed)
  obtain ⟨-, -, hge⟩ := bestMatch_spec (Prod.mk.eta (p := bestMatch (start ++ target) target)).symm (h.trans hle)
  have heq : (bestMatch (start ++ target) target).2 = target.length := le_antisymm hge hle
  refine ⟨(bestMatch (start ++ target) target).1, ?_⟩
  cases target with
  | nil =>
    have hpos : ¬ blockSize ≤ 0 := by decide
    exact absurd h hpos
  | cons byte rest =>
    rw [length_cons, deltaInstructions, ← length_cons (a := byte), heq, if_pos h, drop_length,
      deltaInstructions]
    rfl

theorem length_encodeVarint_le {k : ℕ} (h : n < 128 ^ (k + 1)) : (encodeVarint n).length ≤ k + 1 := by
  induction k generalizing n with
  | zero =>
    rw [Nat.zero_add, Nat.pow_one] at h
    rw [encodeVarint, if_pos h]
    exact le_rfl
  | succ k ih =>
    rw [encodeVarint]
    split
    · exact Nat.succ_le_succ (Nat.zero_le _)
    · rw [length_cons]
      refine Nat.succ_le_succ (ih (Nat.div_lt_of_lt_mul ?_))
      rwa [← Nat.pow_succ']

theorem length_emitCopy_le (offset size : ℕ) : (emitCopy offset size).length ≤ 8 := by
  have hfields : ∀ (value : ℕ) (fields : List (ℕ × ℕ)), (emitFields value fields).length ≤ fields.length := by
    intro value fields
    rw [emitFields, length_map]
    exact length_filter_le _ _
  have hoff := hfields (offset % 2 ^ 32) offsetFields
  have hsize := hfields (if size = 0x10000 then 0 else size % 2 ^ 32) sizeFields
  rw [emitCopy, length_cons, length_append]
  change _ ≤ 4 at hoff
  change _ ≤ 3 at hsize
  omega

theorem computeDelta_suffix (htarget : 32 ≤ target.length)
    (hbase : (start ++ target).length < 128 ^ 5) : ∃ delta, computeDelta (start ++ target) target = some delta := by
  have hblock : blockSize = 16 := rfl
  obtain ⟨offset, hinstr⟩ := deltaInstructions_suffix start target (by omega)
  have hlength := hbase
  rw [length_append] at hlength
  have hsizes := length_encodeVarint_le hbase
  have hsizes' := length_encodeVarint_le (show target.length < 128 ^ (4 + 1) by omega)
  have hcopy := length_emitCopy_le offset target.length
  have hne : target ≠ [] := length_pos_iff.mp (by omega)
  rw [computeDelta, if_neg, hinstr]
  · dsimp only
    rw [if_neg]
    · exact ⟨_, rfl⟩
    · rw [length_append] at hsizes
      simp only [flatMap_singleton, length_append, emitInstruction]
      omega
  · rintro (hnil | hnil | hshort)
    · exact hne (append_eq_nil_iff.mp hnil).2
    · exact hne hnil
    · omega

theorem not_shortCopies_suffix (h : 2 ^ 24 ≤ target.length) :
    ¬ ShortCopies (start ++ target) target := by
  have hblock : blockSize = 16 := rfl
  obtain ⟨offset, hinstr⟩ := deltaInstructions_suffix start target (by omega)
  intro hshort
  have hlt := hshort offset target.length (by rw [hinstr]; exact mem_singleton_self _)
  omega

end KappaRegistry
