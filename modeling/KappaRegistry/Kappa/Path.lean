import KappaRegistry.Lib.Except
import KappaRegistry.Lib.Path
import KappaRegistry.Types
import Mathlib.Algebra.GroupWithZero.Nat

/-!
# Blob Paths

`kappa-core/src/kappa/path.rs`: the file a blob is kept in, `{root}/{algo}/{aa}/{bb}/{hex}`, for
the label `algo:hex`. The digest is checked digit by digit so that no special component can get
into the path; the algorithm in front of it is not.

The digest's three components only ever descend, so the path ends up inside the root iff the
algorithm's own path leads back into it (`LeadsBack`): **`blobPathFor_inside_iff`**. An algorithm
without a slash that is not `..` always does (`leadsBack_of_plain`).
-/

namespace KappaRegistry

open Lib Location List

/-! ## The path of a label -/

/-- `split_kappa`: algorithm and digest, neither of them empty. -/
def splitKappa (kappa : String) : Option (String × String) :=
  match splitOnce ':' kappa.toList with
  | none => none
  | some (algo, hex) =>
    if algo = [] ∨ hex = [] then none else some (String.ofList algo, String.ofList hex)

def isLowerHex (c : Char) : Bool := ('0' ≤ c && c ≤ '9') || ('a' ≤ c && c ≤ 'f')

def byteLen (s : String) : ℕ := (s.toList.map Char.utf8Size).sum

/-- The first characters of a digest. Its digits are single bytes, so these are its first bytes. -/
def hexSlice (hex : String) (start stop : ℕ) : String :=
  String.ofList ((hex.toList.take stop).drop start)

def blobPathFor (root kappa : String) : Except StoreError String := do
  let (algo, hex) ← need (splitKappa kappa) (.rejected ("invalid kappa-label: " ++ kappa))
  ensure (4 ≤ byteLen hex) (.rejected ("kappa digest too short: " ++ kappa))
  ensure (hex.toList.all isLowerHex = true)
    (.rejected ("non-hex character in digest: " ++ kappa))
  return pathJoin (pathJoin (pathJoin (pathJoin root algo) (hexSlice hex 0 2)) (hexSlice hex 2 4)) hex

/-- The components a digest adds to the path. -/
def shards (hex : String) : List String := [hexSlice hex 0 2, hexSlice hex 2 4, hex]

theorem blobPathFor_eq_ok {root kappa path : String} :
    blobPathFor root kappa = .ok path ↔ ∃ algo hex, splitKappa kappa = some (algo, hex) ∧
      4 ≤ byteLen hex ∧ hex.toList.all isLowerHex = true ∧
      pathJoin (pathJoin (pathJoin (pathJoin root algo) (hexSlice hex 0 2)) (hexSlice hex 2 4)) hex
        = path := by
  simp only [blobPathFor, bind_eq_ok, need_eq_ok, ensure_eq_ok, pure_eq_ok, Prod.exists,
    exists_and_left, exists_const]

/-! ## A digest only descends -/

/-- A non-empty text of digits. -/
def IsDigits (s : String) : Prop := s ≠ "" ∧ s.toList.all isLowerHex = true

variable {s : String}

theorem IsDigits.notMem (h : IsDigits s) {c : Char} (hc : isLowerHex c = false) :
    c ∉ s.toList := by
  intro hmem
  have := all_eq_true.mp h.2 c hmem
  simp [hc] at this

theorem IsDigits.relative (h : IsDigits s) : isAbsolute s = false :=
  isAbsolute_of_notMem (h.notMem (by decide))

theorem IsDigits.name (h : IsDigits s) : s ≠ "" ∧ s ≠ "." ∧ s ≠ ".." := by
  have hdot : '.' ∉ s.toList := h.notMem (by decide)
  refine ⟨h.1, ?_, ?_⟩
  · rintro rfl
    simp at hdot
  · rintro rfl
    simp at hdot

theorem IsDigits.components (h : IsDigits s) : components s = [s] :=
  components_of_notMem (h.notMem (by decide))

variable {hex : String}

theorem isDigits_hexSlice (hall : hex.toList.all isLowerHex = true) {start stop : ℕ}
    (hlt : start < stop) (hlen : stop ≤ hex.toList.length) : IsDigits (hexSlice hex start stop) := by
  constructor
  · intro hempty
    have : (hexSlice hex start stop).toList.length = 0 := by simp [hempty]
    simp [hexSlice] at this
    omega
  · rw [all_eq_true] at hall ⊢
    intro c hc
    apply hall c
    simp only [hexSlice, String.toList_ofList] at hc
    exact mem_of_mem_take (mem_of_mem_drop hc)

theorem byteLen_of_digits (hall : hex.toList.all isLowerHex = true) :
    byteLen hex = hex.toList.length := by
  have hone : ∀ c ∈ hex.toList, Char.utf8Size c = 1 := by
    intro c hc
    have hdigit := all_eq_true.mp hall c hc
    have hval : c.val ≤ 0x7f := by
      simp only [isLowerHex, Bool.or_eq_true, Bool.and_eq_true, decide_eq_true_eq] at hdigit
      rcases hdigit with ⟨-, h⟩ | ⟨-, h⟩ <;> exact UInt32.le_trans h (by decide)
    simp [Char.utf8Size, hval]
  rw [byteLen, map_congr_left hone]
  simp

theorem isDigits_of_mem_shards (hlen : 4 ≤ byteLen hex)
    (hall : hex.toList.all isLowerHex = true) {name : String} (h : name ∈ shards hex) :
    IsDigits name := by
  rw [byteLen_of_digits hall] at hlen
  have hne : hex ≠ "" := by
    rintro rfl
    simp at hlen
  simp only [shards, mem_cons, not_mem_nil, or_false] at h
  rcases h with rfl | rfl | rfl
  · exact isDigits_hexSlice hall (by omega) (by omega)
  · exact isDigits_hexSlice hall (by omega) (by omega)
  · exact ⟨hne, hall⟩

theorem normalise_blobPathFor {root kappa path algo hex : String}
    (h : blobPathFor root kappa = .ok path) (hsplit : splitKappa kappa = some (algo, hex)) :
    normalise path = (normalise (pathJoin root algo)).descend (shards hex) := by
  obtain ⟨algo', hex', hsplit', hlen, hall, rfl⟩ := blobPathFor_eq_ok.mp h
  obtain ⟨rfl, rfl⟩ : algo = algo' ∧ hex = hex' := by simpa [hsplit] using hsplit'
  have hdigits : ∀ name ∈ shards hex, IsDigits name := fun name hname =>
    isDigits_of_mem_shards hlen hall hname
  have h₁ := hdigits (hexSlice hex 0 2) (by simp [shards])
  have h₂ := hdigits (hexSlice hex 2 4) (by simp [shards])
  have h₃ := hdigits hex (by simp [shards])
  rw [normalise_pathJoin h₃.relative, normalise_pathJoin h₂.relative,
    normalise_pathJoin h₁.relative, h₁.components, h₂.components, h₃.components,
    ← walk_append, ← walk_append]
  exact walk_names _ fun name hname => (hdigits name hname).name

/-! ## Staying inside the root -/

/-- The algorithm's path leads back into the root. -/
def LeadsBack (root algo hex : String) : Prop :=
  if isAbsolute algo then
    (normalise root).absolute = true ∧
      GoesThrough (normalise root).names ((normalise algo).names ++ shards hex)
  else
    let rel := (start false).walk (components algo)
    ClimbsWithin (normalise root) rel ∧
      GoesThrough (leftBehind (normalise root) rel) (rel.names ++ shards hex)

theorem leadsBack_of_plain {algo : String} (root hex : String) (hslash : '/' ∉ algo.toList)
    (hup : algo ≠ "..") : LeadsBack root algo hex := by
  have hups : ((start false).walk (components algo)).ups = 0 := by
    rw [components_of_notMem hslash]
    show ((start false).enter algo).ups = 0
    by_cases hskip : algo = "" ∨ algo = "."
    · rw [enter, if_pos hskip, start]
    · rw [enter, if_neg hskip, if_neg hup, descend_ups, start]
  rw [LeadsBack, if_neg (by simp [isAbsolute_of_notMem hslash])]
  refine ⟨.inr (by omega), ((start false).walk (components algo)).names ++ shards hex, ?_, ?_⟩
  · simp [shards]
  · simp [leftBehind, hups]

/-- **A blob path is inside the root iff its algorithm leads back into the root.** -/
theorem blobPathFor_inside_iff {root kappa path : String} (h : blobPathFor root kappa = .ok path) :
    Inside (normalise root) (normalise path) ↔
      ∀ algo hex, splitKappa kappa = some (algo, hex) → LeadsBack root algo hex := by
  obtain ⟨algo, hex, hsplit, -⟩ := blobPathFor_eq_ok.mp h
  have hone : (∀ algo' hex', splitKappa kappa = some (algo', hex') → LeadsBack root algo' hex') ↔
      LeadsBack root algo hex := by
    refine ⟨fun hall => hall algo hex hsplit, ?_⟩
    intro hback algo' hex' hsplit'
    obtain ⟨rfl, rfl⟩ : algo = algo' ∧ hex = hex' := by simpa [hsplit] using hsplit'
    exact hback
  rw [hone, normalise_blobPathFor h hsplit]
  by_cases habs : isAbsolute algo = true
  · rw [LeadsBack, if_pos habs, normalise_pathJoin_absolute habs]
    have halgo : (normalise algo).absolute = true := by
      rw [normalise, walk_absolute, start, habs]
    have hups := (normalise algo).root_top halgo
    constructor
    · rintro ⟨hsame, _, hnames⟩
      exact ⟨hsame.symm.trans halgo, hnames⟩
    · rintro ⟨hroot, hnames⟩
      exact ⟨halgo.trans hroot.symm, hups.trans ((normalise root).root_top hroot).symm, hnames⟩
  · -- the shards only add to the names that the algorithm walks down
    have hfollow : ∀ dir rel : Location, (dir.follow rel).descend (shards hex) =
        dir.follow (rel.descend (shards hex)) := by
      intro dir rel
      simp [Location.follow]
    rw [LeadsBack, if_neg habs, normalise_pathJoin (by simpa using habs), walk_eq, hfollow]
    exact inside_follow_iff _ _

/-- The SHA-256 blobs of a store are inside it. -/
theorem blobPathFor_inside_sha256 :
    blobPathFor "/data/blobs" "sha256:0123abcd" = .ok "/data/blobs/sha256/01/23/0123abcd" ∧
      Inside (normalise "/data/blobs") (normalise "/data/blobs/sha256/01/23/0123abcd") := by
  have hpath : blobPathFor "/data/blobs" "sha256:0123abcd" =
      .ok "/data/blobs/sha256/01/23/0123abcd" := by decide +kernel
  refine ⟨hpath, (blobPathFor_inside_iff hpath).mpr ?_⟩
  intro algo hex hsplit
  obtain ⟨rfl, rfl⟩ : "sha256" = algo ∧ "0123abcd" = hex := by
    have : splitKappa "sha256:0123abcd" = some ("sha256", "0123abcd") := by decide +kernel
    simpa [this] using hsplit
  exact leadsBack_of_plain _ _ (by decide) (by decide)

/-- An algorithm that climbs names a file outside the store, and so does an absolute one. -/
theorem blobPathFor_escapes :
    blobPathFor "/data/blobs" "../../etc:abcd" = .ok "/data/blobs/../../etc/ab/cd/abcd" ∧
      ¬ Inside (normalise "/data/blobs") (normalise "/data/blobs/../../etc/ab/cd/abcd") ∧
      blobPathFor "/data/blobs" "/etc:abcd" = .ok "/etc/ab/cd/abcd" ∧
      ¬ Inside (normalise "/data/blobs") (normalise "/etc/ab/cd/abcd") := by
  have hroot : (normalise "/data/blobs").names = ["data", "blobs"] := by decide +kernel
  have hup : (normalise "/data/blobs/../../etc/ab/cd/abcd").names = ["etc", "ab", "cd", "abcd"] := by
    decide +kernel
  have habs : (normalise "/etc/ab/cd/abcd").names = ["etc", "ab", "cd", "abcd"] := by
    decide +kernel
  refine ⟨by decide +kernel, ?_, by decide +kernel, ?_⟩
  · rintro ⟨-, -, rest, -, hnames⟩
    simp [hroot, hup] at hnames
  · rintro ⟨-, -, rest, -, hnames⟩
    simp [hroot, habs] at hnames

end KappaRegistry
