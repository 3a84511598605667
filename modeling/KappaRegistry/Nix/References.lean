import KappaRegistry.Nix.NarStore
import Mathlib.Data.List.Dedup

/-!
# References in NARs

What the scanner of `kappa-module-nix/src/refs.rs` finds: the candidates of 32 bytes that occur in the
data and start and end with a byte of the base-32 alphabet (`mem_scanReferences`).

`scan_references_chunked` keeps the last 31 bytes of a chunk for the next one, but only of that chunk.
It finds what lies in two neighbouring chunks, and a hash that reaches over a short chunk is lost
(**`scanChunks_eq_iff`**). `decompress_and_verify` looks for the references that it can take apart and
drops the others (**`verified_references_iff`**).
-/

namespace KappaRegistry.Nix

open Lib List

/-- What the scanner looks at before it compares. -/
def HashShaped (s : String) : Prop :=
  (textBytes s).length = storePathHashLen ∧ (textBytes s).head?.any isNixbase32Byte = true ∧
    (textBytes s).getLast?.any isNixbase32Byte = true

theorem mem_windows {data window : Bytes} (hdata : storePathHashLen ≤ data.length) :
    window ∈ (range (data.length - storePathHashLen + 1)).map
        (fun start => (data.drop start).take storePathHashLen) ↔
      window.length = storePathHashLen ∧ window <:+: data := by
  rw [mem_map]
  constructor
  · rintro ⟨start, hstart, rfl⟩
    rw [mem_range] at hstart
    exact ⟨by simp; omega, ( take_prefix _ _).isInfix.trans (drop_suffix _ _).isInfix⟩
  · rintro ⟨hlength, before, after, rfl⟩
    simp only [length_append] at hdata ⊢
    exact ⟨before.length, mem_range.mpr (by omega), by simp [← hlength]⟩

theorem mem_scanReferences {data : Bytes} {candidates : List String} {s : String} :
    s ∈ scanReferences data candidates ↔
      s ∈ candidates ∧ HashShaped s ∧ textBytes s <:+: data := by
  unfold scanReferences
  split_ifs with hnone
  · refine iff_of_false not_mem_nil ?_
    rintro ⟨hmem, ⟨hlength, -⟩, hinfix⟩
    rw [Bool.or_eq_true, List.isEmpty_iff, decide_eq_true_iff] at hnone
    rcases hnone with rfl | hshort
    · cases hmem
    · exact absurd hinfix.length_le (by omega)
  · have hdata : storePathHashLen ≤ data.length := by simp at hnone; omega
    rw [mem_insertionSort, mem_dedup, mem_filterMap]
    constructor
    · rintro ⟨window, hwindow, hfound⟩
      unfold windowReference at hfound
      split_ifs at hfound with hends
      obtain ⟨hutf8, hmem⟩ := Option.filter_eq_some_iff.mp hfound
      obtain rfl := fromUtf8_eq_some.mp hutf8
      obtain ⟨hlength, hinfix⟩ := (mem_windows hdata).mp hwindow
      exact ⟨by simpa using hmem, ⟨hlength, Bool.and_eq_true_iff.mp hends⟩, hinfix⟩
    · rintro ⟨hmem, ⟨hlength, hends⟩, hinfix⟩
      refine ⟨textBytes s, (mem_windows hdata).mpr ⟨hlength, hinfix⟩, ?_⟩
      rw [windowReference, if_pos (Bool.and_eq_true_iff.mpr hends), fromUtf8_textBytes]
      simp [hmem]

/-! ## Chunks -/

def scanReferencesChunked (chunk tail : Bytes) (candidates : List String) : List String × Bytes :=
  let overlapFound :=
    if !tail.isEmpty && !chunk.isEmpty then
      scanReferences (tail ++ chunk.take (storePathHashLen - 1)) candidates
    else []
  (((scanReferences chunk candidates ++ overlapFound).insertionSort (· ≤ ·)).dedup,
    chunk.rtake (storePathHashLen - 1))

/-- The chunks one after the other, with the tail of the chunk before. -/
def scanChunks (candidates : List String) : Bytes → List Bytes → List String
  | _, [] => []
  | tail, chunk :: chunks =>
    let (found, newTail) := scanReferencesChunked chunk tail candidates
    found ++ scanChunks candidates newTail chunks

/-- The bytes occur in a chunk together with the chunk before it. -/
def Near (w : Bytes) : Bytes → List Bytes → Prop
  | _, [] => False
  | before, chunk :: chunks => w <:+: before ++ chunk ∨ Near w chunk chunks

variable {candidates : List String} {s : String} {w a b : Bytes} {n : ℕ}

/-- What lies in two lists lies in one of them, or in a part around the border. -/
theorem infix_append_iff (hw : w.length = n + 1) :
    w <:+: a ++ b ↔ w <:+: a ∨ w <:+: b ∨ w <:+: a.rtake n ++ b.take n := by
  constructor
  · rintro ⟨x, y, h⟩
    rcases append_eq_append_iff.mp h with ⟨z, rfl, -⟩ | ⟨z, hxw, rfl⟩
    · exact .inl ⟨x, z, rfl⟩
    rcases append_eq_append_iff.mp hxw with ⟨u, rfl, rfl⟩ | ⟨u, -, rfl⟩
    · -- `u` ends the first list and `z` starts the second
      rw [length_append] at hw
      rcases Nat.lt_or_ge n u.length with hu | hu
      · obtain rfl := length_eq_zero_iff.mp (show z.length = 0 by omega)
        exact .inl ⟨x, [], by simp⟩
      rcases Nat.lt_or_ge n z.length with hz | hz
      · obtain rfl := length_eq_zero_iff.mp (show u.length = 0 by omega)
        exact .inr (.inl ⟨[], y, by simp⟩)
      refine .inr (.inr ⟨x.drop (x.length + u.length - n), y.take (n - z.length), ?_⟩)
      rw [rtake, length_append, drop_append_of_le_length (by omega), take_append, take_of_length_le hz]
      simp
    · exact .inr (.inl ⟨u, y, by simp⟩)
  · rintro (h | h | h)
    · exact h.trans (prefix_append a b).isInfix
    · exact h.trans (suffix_append a b).isInfix
    · refine h.trans ⟨a.take (a.length - n), b.drop n, ?_⟩
      rw [rtake, append_assoc, append_assoc, take_append_drop, ← append_assoc, take_append_drop]

theorem mem_scanReferencesChunked (before chunk : Bytes) :
    s ∈ (scanReferencesChunked chunk (before.rtake (storePathHashLen - 1)) candidates).1 ↔
      s ∈ candidates ∧ HashShaped s ∧ (textBytes s <:+: chunk ∨
        textBytes s <:+: before.rtake (storePathHashLen - 1) ++ chunk.take (storePathHashLen - 1)) := by
  rw [scanReferencesChunked, mem_dedup, mem_insertionSort, mem_append]
  split_ifs with hboth
  · simp only [mem_scanReferences, ← and_or_left]
  · rw [mem_scanReferences, or_iff_left not_mem_nil]
    refine and_congr_right fun _ => and_congr_right fun hshape => (or_iff_left ?_).symm
    -- one of the two parts is empty, and the other one too short
    intro hinfix
    have hlength := hinfix.length_le
    rw [hshape.1, length_append, length_take] at hlength
    have htail : (before.rtake (storePathHashLen - 1)).length ≤ storePathHashLen - 1 := by
      rw [rtake, length_drop]
      omega
    have hempty : before.rtake (storePathHashLen - 1) = [] ∨ chunk = [] := by
      simpa [or_iff_not_imp_left] using hboth
    rcases hempty with hempty | hempty <;> rw [hempty] at hlength <;>
      simp only [storePathHashLen, length_nil] at hlength htail <;> omega

/-- The chunked scanner finds what is in two neighbouring chunks. -/
theorem mem_scanChunks (before : Bytes) (chunks : List Bytes) :
    s ∈ scanChunks candidates (before.rtake (storePathHashLen - 1)) chunks ∨
        (s ∈ candidates ∧ HashShaped s) ∧ textBytes s <:+: before ↔
      (s ∈ candidates ∧ HashShaped s) ∧ (textBytes s <:+: before ∨ Near (textBytes s) before chunks) := by
  induction chunks generalizing before with
  | nil => simp [scanChunks, Near]
  | cons chunk chunks ih =>
    have ih := ih chunk
    have hfound := @mem_scanReferencesChunked candidates s before chunk
    have hnew : (scanReferencesChunked chunk (before.rtake (storePathHashLen - 1)) candidates).2 =
      chunk.rtake (storePathHashLen - 1) := rfl
    have hborder : HashShaped s → _ := fun h =>
      infix_append_iff (a := before) (b := chunk) (n := storePathHashLen - 1) h.1
    rw [scanChunks, mem_append, hfound, hnew, Near]
    grind

theorem isInfix_of_near (before : Bytes) (chunks : List Bytes) (h : Near w before chunks) :
    w <:+: before ++ chunks.flatten := by
  induction chunks generalizing before with
  | nil => exact h.elim
  | cons chunk chunks ih =>
    rw [flatten_cons]
    rcases h with h | h
    · exact h.trans ⟨[], chunks.flatten, by simp⟩
    · exact (ih chunk h).trans (suffix_append _ _).isInfix

/-- **Chunked scanning equals whole scanning iff every reference is in two neighbouring chunks.** -/
theorem scanChunks_eq_iff (candidates : List String) (chunks : List Bytes) :
    (∀ s, s ∈ scanChunks candidates [] chunks ↔ s ∈ scanReferences chunks.flatten candidates) ↔
      ∀ s ∈ candidates, HashShaped s → textBytes s <:+: chunks.flatten →
        Near (textBytes s) [] chunks := by
  refine forall_congr' fun s => ?_
  have hnil : HashShaped s → ¬ textBytes s <:+: [] := by
    intro hshape hinfix
    exact absurd (hshape.1.symm.trans (congrArg length (infix_nil.mp hinfix))) (by decide)
  have hfound := @mem_scanChunks candidates s [] chunks
  have hinfix := @isInfix_of_near (textBytes s) [] chunks
  rw [mem_scanReferences]
  change s ∈ scanChunks candidates [] chunks ∨ _ ↔ _ at hfound
  grind

/-- The hash reaches over the second chunk. -/
theorem scanChunks_misses :
    let hash := "00000000000000000000000000000000"
    let chunks := [replicate 12 48, replicate 8 48, replicate 12 48]
    scanReferences chunks.flatten [hash] = [hash] ∧ scanChunks [hash] [] chunks = [] := by
  decide +kernel

/-! ## Verification -/

/-- The reference is a hash part of 32 characters, a dash and a name. -/
def HasHashPart (ref hash : String) : Prop :=
  hash.length = storePathHashLen ∧ ∃ name, ref = hash ++ "-" ++ name

variable {libs : NarLibs} {data nar : Bytes} {compression narHash : String} {references : List String}

theorem referenceHash_of_hasHashPart {ref hash : String} (h : HasHashPart ref hash)
    (hbytes : (textBytes hash).length = storePathHashLen) : referenceHash ref = some hash := by
  obtain ⟨-, name, rfl⟩ := h
  have htext : textBytes (hash ++ "-" ++ name) = textBytes hash ++ 45 :: textBytes name := by
    rw [textBytes_append, textBytes_append, append_assoc]
    rfl
  rw [referenceHash, htext, ← hbytes, getElem?_append_right le_rfl, Nat.sub_self, take_left]
  simp

theorem infix_of_verify {hash : String}
    (h : decompressAndVerify libs data compression narHash references = .ok ())
    (hnar : decompress libs data compression = .ok nar)
    (hmem : hash ∈ references.filterMap referenceHash) : textBytes hash <:+: nar := by
  obtain ⟨nar', hnar', hrest⟩ := bind_eq_ok.mp h
  obtain rfl := Except.ok.inj (hnar.symm.trans hnar')
  obtain ⟨-, -, hall⟩ := bind_eq_ok.mp hrest
  have hclaimed : hash ∈ (references.filterMap referenceHash).dedup.insertionSort (· ≤ ·) :=
    (mem_insertionSort _).mpr (mem_dedup.mpr hmem)
  have hscanned := all_eq_true.mp (ensure_eq_ok.mp hall) hash hclaimed
  exact (mem_scanReferences.mp (by simpa using hscanned)).2.2

/-- **Verified references are in the NAR iff none was dropped.** A reference is dropped unless its hash
part is of 32 bytes too. -/
theorem verified_references_iff
    (h : decompressAndVerify libs data compression narHash references = .ok ()) :
    ∃ nar, decompress libs data compression = .ok nar ∧
      ((libs.narHash nar = narHash ∧
          ∀ ref ∈ references, ∃ hash, HasHashPart ref hash ∧ textBytes hash <:+: nar) ↔
        ∀ ref ∈ references, ∃ hash, HasHashPart ref hash ∧
          ((textBytes hash).length = storePathHashLen ∨ textBytes hash <:+: nar)) := by
  obtain ⟨nar, hnar, hrest⟩ := bind_eq_ok.mp h
  obtain ⟨_, hhash, -⟩ := bind_eq_ok.mp hrest
  refine ⟨nar, hnar, ?_⟩
  rw [and_iff_right (ensure_eq_ok.mp hhash)]
  refine forall₂_congr fun ref href => exists_congr fun hash => and_congr_right fun hpart => ?_
  refine ⟨.inr, fun hocc => hocc.elim (fun hbytes => ?_) id⟩
  exact infix_of_verify h hnar
    (mem_filterMap.mpr ⟨ref, href, referenceHash_of_hasHashPart hpart hbytes⟩)

def zeros : String := "00000000000000000000000000000000"

theorem verified_references_zeros :
    ∃ nar, decompress .sample (textBytes zeros) "none" = .ok nar ∧
      ((NarLibs.sample.narHash nar = NarLibs.sample.narHash (textBytes zeros) ∧
          ∀ ref ∈ [zeros ++ "-x"], ∃ hash, HasHashPart ref hash ∧ textBytes hash <:+: nar) ↔
        ∀ ref ∈ [zeros ++ "-x"], ∃ hash, HasHashPart ref hash ∧
          ((textBytes hash).length = storePathHashLen ∨ textBytes hash <:+: nar)) :=
  verified_references_iff (by decide +kernel)

/-- The reference `x` has no hash part, and the empty NAR is accepted with it. -/
theorem verified_references_dropped :
    decompressAndVerify .sample [] "none" (NarLibs.sample.narHash []) ["x"] = .ok () ∧
      ∀ hash, ¬ HasHashPart "x" hash := by
  refine ⟨by decide +kernel, ?_⟩
  rintro hash ⟨hlength, name, h⟩
  have hsize := congrArg String.length h
  rw [String.length_append, String.length_append, hlength] at hsize
  have hone : "x".length = 1 := rfl
  simp only [storePathHashLen] at hsize
  omega

end KappaRegistry.Nix
