import KappaRegistry.Lib.Bytes
import KappaRegistry.Lib.Split
import KappaRegistry.Lib.Text
import KappaRegistry.Types

/-!
# Path Infos and Their Fingerprints

`kappa-module-nix/src/narinfo.rs`: the text of a path info, line by line, and the fingerprint that is
signed, `1;{store path};{NAR hash};{NAR size};{references}`. The references are written as full paths
with commas between them; the parser takes any text without a space as a reference.

Store paths and hashes come from another crate. A store path prints as text that reads back as the
path, and neither its text nor that of a hash holds a character outside their alphabets.

**`fingerprint_binds_iff`**: a fingerprint determines path, hash and size. It determines the references
among those that do not hold the text `,/nix/store/`, and no others.
-/

namespace KappaRegistry.Nix

open Lib List Except

def isNixChar (c : Char) : Bool :=
  c.isAlphanum || ['/', '-', '.', '_', '+', '=', '?', ':'].contains c

/-- What is taken from the crate for store paths and hashes. -/
structure NixLibs where
  StorePath : Type
  pathFromStr : String → Except String StorePath
  /-- The text of a store path. -/
  pathText : StorePath → String
  /-- The check of `NixHash::parse`. -/
  hashParse : String → Except String Unit
  pathFromStr_text : ∀ path, pathFromStr (pathText path) = .ok path
  pathText_chars : ∀ path, ∀ c ∈ (pathText path).toList, isNixChar c = true
  hashParse_chars : ∀ text, hashParse text = .ok () → ∀ c ∈ text.toList, isNixChar c = true

inductive NarInfoError where
  | missingField (field : String)
  | invalidStorePath (message : String)
  | invalidHash (message : String)
  | invalidNarSize (message : String)
  | invalidFileSize (message : String)
  | duplicateField (field : String)
  | parse (message : String)
  /-- The value would start inside a character, where the source panics. -/
  | boundary
  deriving DecidableEq

/-- A parsed path info. -/
structure NarInfo (L : NixLibs) where
  storePath : L.StorePath
  url : String
  compression : String
  fileHash : Option String
  fileSize : Option ℕ
  narHash : String
  narSize : ℕ
  references : List String
  deriver : Option String
  signatures : List String
  ca : Option String

inductive FieldKey where
  | storePath
  | url
  | compression
  | fileHash
  | fileSize
  | narHash
  | narSize
  | references
  | deriver
  | sig
  | ca
  deriving DecidableEq

namespace FieldKey

def all : List FieldKey :=
  [storePath, url, compression, fileHash, fileSize, narHash, narSize, references, deriver, sig, ca]

def text : FieldKey → String
  | storePath => "StorePath"
  | url => "URL"
  | compression => "Compression"
  | fileHash => "FileHash"
  | fileSize => "FileSize"
  | narHash => "NarHash"
  | narSize => "NarSize"
  | references => "References"
  | deriver => "Deriver"
  | sig => "Sig"
  | ca => "CA"

def ofText (name : String) : Option FieldKey := all.find? fun key => key.text = name

theorem ofText_text (key : FieldKey) : ofText key.text = some key := by
  cases key <;> decide

theorem colon_notMem (key : FieldKey) : ':' ∉ key.text.toList ∧ '\n' ∉ key.text.toList ∧
    '\r' ∉ key.text.toList := by
  cases key <;> decide

end FieldKey

/-- What was read so far. -/
structure Fields (L : NixLibs) where
  storePath : Option L.StorePath := none
  url : Option String := none
  compression : Option String := none
  fileHash : Option String := none
  fileSize : Option ℕ := none
  narHash : Option String := none
  narSize : ℕ := 0
  references : Option (List String) := none
  deriver : Option String := none
  signatures : List String := []
  ca : Option String := none

/-! ## Parsing -/

/-- `str::lines`: a carriage return goes with the newline after it, and the last line needs none. -/
def lines (text : String) : List String :=
  (splitText '\n' text).dropLast.map (fun line => (stripSuffix line "\r").getD line) ++
    (splitText '\n' text).getLast?.toList.filter (· ≠ "")

/-- The value of a line, from what is after the colon: one byte is passed over if more follow. -/
def lineValue (rest : String) : Option String :=
  match rest.toList with
  | [] => some ""
  | [c] => if c.utf8Size = 1 then some (if isWhitespace c then "" else rest) else none
  | c :: cs => if c.utf8Size = 1 then some (String.ofList cs) else none

section

variable (L : NixLibs)

def lineReferences (value : String) : List String := if value = "" then [] else splitText ' ' value

def lineCompression (value : String) : String := if value = "" then "bzip2" else value

def lineDeriver (value : String) : Option String :=
  if value = "unknown-deriver" then none else some value

/-- One field. Some must not be given twice, and of the others the last one counts. -/
def setField (f : Fields L) (value : String) : FieldKey → Except NarInfoError (Fields L)
  | .storePath => do
    let path ← (L.pathFromStr value).mapError .invalidStorePath
    return { f with storePath := some path }
  | .url => .ok { f with url := some value }
  | .compression => .ok { f with compression := some (lineCompression value) }
  | .fileHash => do
    (L.hashParse value).mapError .invalidHash
    return { f with fileHash := some value }
  | .fileSize => do
    let size ← (parseRadix 10 u64Max value).mapError fun e => .invalidFileSize e.display
    return { f with fileSize := some size }
  | .narHash => do
    (L.hashParse value).mapError .invalidHash
    return { f with narHash := some value }
  | .narSize => do
    let size ← (parseRadix 10 u64Max value).mapError fun e => .invalidNarSize e.display
    return { f with narSize := size }
  | .references => do
    ensure (f.references = none) (.duplicateField "References")
    return { f with references := some (lineReferences value) }
  | .deriver => .ok { f with deriver := lineDeriver value }
  | .sig => .ok { f with signatures := f.signatures ++ [value] }
  | .ca => do
    ensure (f.ca = none) (.duplicateField "CA")
    return { f with ca := some value }

def readLine (f : Fields L) (line : String) : Except NarInfoError (Fields L) :=
  if line = "" then .ok f
  else do
    let (key, rest) ← need (splitOnceText ':' line) (.parse ("no colon in line: " ++ line))
    let value ← need (lineValue rest) .boundary
    match FieldKey.ofText key with
    | some key => setField L f value key
    | none => .ok f

def NarInfo.parse (text : String) : Except NarInfoError (NarInfo L) := do
  let f ← (lines text).foldlM (readLine L) {}
  let storePath ← need f.storePath (.missingField "StorePath")
  let narHash ← need f.narHash (.missingField "NarHash")
  let url ← need f.url (.missingField "URL")
  ensure (url ≠ "") (.missingField "URL")
  ensure (f.narSize ≠ 0) (.missingField "NarSize")
  return { storePath, url, compression := f.compression.getD "bzip2", fileHash := f.fileHash,
           fileSize := f.fileSize, narHash, narSize := f.narSize,
           references := f.references.getD [], deriver := f.deriver, signatures := f.signatures,
           ca := f.ca }

end

variable {L : NixLibs}

def referencesText (references : List String) : String :=
  joinText ',' (references.map fun basename => "/nix/store/" ++ basename)

def NarInfo.fingerprint (n : NarInfo L) : String :=
  "1;" ++ L.pathText n.storePath ++ ";" ++ n.narHash ++ ";" ++ toString n.narSize ++ ";" ++
    referencesText n.references

/-! ## What the parser lets through -/

/-- References that a line can give: no spaces and line ends, and not the empty one alone. -/
def Listable (references : List String) : Prop :=
  references ≠ [""] ∧ ∀ r ∈ references, ' ' ∉ r.toList ∧ '\n' ∉ r.toList

/-- What holds of the fields at any time. -/
structure Fields.Valid (f : Fields L) : Prop where
  narHash : ∀ text ∈ f.narHash, L.hashParse text = .ok ()
  narSize : f.narSize ≤ u64Max
  references : ∀ rs ∈ f.references, Listable rs

theorem listable_lineReferences {value : String} (h : '\n' ∉ value.toList) :
    Listable (lineReferences value) := by
  unfold lineReferences
  split_ifs with hempty
  · exact ⟨by simp, by simp⟩
  · constructor
    · intro heq
      have hjoin : joinText ' ' (splitText ' ' value) = value := joinText_splitText value
      rw [heq] at hjoin
      exact hempty (hjoin.symm.trans (by decide))
    · intro r hr
      refine ⟨?_, fun hc => h (of_mem_splitText hr hc)⟩
      obtain ⟨cs, hcs, rfl⟩ := mem_map.mp hr
      rw [String.toList_ofList]
      exact notMem_of_mem_pieces hcs

theorem setField_valid {f f' : Fields L} {key : FieldKey} {value : String} (hf : f.Valid)
    (hvalue : '\n' ∉ value.toList) (h : setField L f value key = .ok f') : f'.Valid := by
  cases key with
  | storePath =>
    obtain ⟨path, -, ⟨⟩⟩ := bind_eq_ok.mp h
    exact ⟨hf.narHash, hf.narSize, hf.references⟩
  | narHash =>
    obtain ⟨_, hhash, ⟨⟩⟩ := bind_eq_ok.mp h
    refine ⟨?_, hf.narSize, hf.references⟩
    intro text htext
    cases htext
    exact mapError_eq_ok.mp hhash
  | narSize =>
    obtain ⟨size, hsize, ⟨⟩⟩ := bind_eq_ok.mp h
    exact ⟨hf.narHash, parseRadix_le (mapError_eq_ok.mp hsize), hf.references⟩
  | references =>
    obtain ⟨_, -, ⟨⟩⟩ := bind_eq_ok.mp h
    refine ⟨hf.narHash, hf.narSize, ?_⟩
    intro rs hrs
    cases hrs
    exact listable_lineReferences hvalue
  | url | compression | deriver | sig =>
    cases h
    exact ⟨hf.narHash, hf.narSize, hf.references⟩
  | fileHash | fileSize | ca =>
    obtain ⟨_, -, ⟨⟩⟩ := bind_eq_ok.mp h
    exact ⟨hf.narHash, hf.narSize, hf.references⟩

theorem of_mem_lineValue {rest value : String} {c : Char} (h : lineValue rest = some value)
    (hc : c ∈ value.toList) : c ∈ rest.toList := by
  unfold lineValue at h
  split at h
  · cases h
    simp at hc
  · split_ifs at h
    · cases h
      simp at hc
    · cases h
      exact hc
  · rename_i c' cs _ hlist
    split_ifs at h
    cases h
    rw [String.toList_ofList] at hc
    rw [hlist]
    exact mem_cons_of_mem _ hc

theorem readLine_valid {f f' : Fields L} {line : String} (hf : f.Valid) (hline : '\n' ∉ line.toList)
    (h : readLine L f line = .ok f') : f'.Valid := by
  unfold readLine at h
  split_ifs at h
  · cases h
    exact hf
  · simp only [bind_eq_ok, need_eq_ok] at h
    obtain ⟨⟨key, rest⟩, hsplit, value, hvalue, hset⟩ := h
    cases hkey : FieldKey.ofText key with
    | none =>
      simp only [hkey] at hset
      cases hset
      exact hf
    | some field =>
      simp only [hkey] at hset
      refine setField_valid hf ?_ hset
      intro hc
      apply hline
      rw [(splitOnceText_eq_some.mp hsplit).1, String.toList_append]
      exact mem_append_right _ (of_mem_lineValue hvalue hc)

theorem notMem_of_mem_lines {text line : String} (h : line ∈ lines text) : '\n' ∉ line.toList := by
  have hpiece : ∀ p ∈ splitText '\n' text, '\n' ∉ p.toList := by
    intro p hp
    obtain ⟨cs, hcs, rfl⟩ := mem_map.mp hp
    rw [String.toList_ofList]
    exact notMem_of_mem_pieces hcs
  rcases mem_append.mp h with h | h
  · obtain ⟨p, hp, rfl⟩ := mem_map.mp h
    have hmem := hpiece p (mem_of_mem_dropLast hp)
    cases hstrip : stripSuffix p "\r" with
    | none => exact hmem
    | some q => exact fun hc => hmem (mem_of_stripSuffix hstrip hc)
  · have hlast := Option.mem_toList.mp (mem_of_mem_filter h)
    exact hpiece line (mem_of_getLast? hlast)

theorem foldlM_valid {ls : List String} {f f' : Fields L} (hf : f.Valid)
    (hls : ∀ line ∈ ls, '\n' ∉ line.toList) (h : ls.foldlM (readLine L) f = .ok f') : f'.Valid := by
  induction ls generalizing f with
  | nil => exact ok.inj h ▸ hf
  | cons line ls ih =>
    rw [foldlM_cons] at h
    obtain ⟨f₁, hline, hrest⟩ := bind_eq_ok.mp h
    exact ih (readLine_valid hf (hls line (by simp)) hline) (fun l hl => hls l (by simp [hl])) hrest

/-- **What is accepted**: a checked hash, a size that fits, and references from a line. -/
structure NarInfo.Accepted (n : NarInfo L) : Prop where
  narHash : L.hashParse n.narHash = .ok ()
  narSize : n.narSize ≤ u64Max
  size_ne : n.narSize ≠ 0
  references : Listable n.references

theorem accepted_of_parse {text : String} {n : NarInfo L} (h : NarInfo.parse L text = .ok n) :
    n.Accepted := by
  simp only [NarInfo.parse, bind_eq_ok, need_eq_ok, ensure_eq_ok, pure_eq_ok] at h
  obtain ⟨f, hfold, path, -, hash, hhash, url, -, -, -, -, hsize, rfl⟩ := h
  have hvalid : f.Valid := by
    refine foldlM_valid ⟨?_, Nat.zero_le _, ?_⟩ (fun line hline => notMem_of_mem_lines hline) hfold
    · intro text htext
      cases htext
    · intro rs hrs
      cases hrs
  refine ⟨hvalid.narHash hash hhash, hvalid.narSize, hsize, ?_⟩
  cases href : f.references with
  | none => exact ⟨by simp, by simp⟩
  | some rs => exact hvalid.references rs href

/-! ## A text for given fields -/

def fieldLine (key : FieldKey) (value : String) : String := key.text ++ String.singleton ':' ++ (" " ++ value)

theorem lineValue_space (value : String) : lineValue (" " ++ value) = some value := by
  unfold lineValue
  rw [String.toList_append]
  cases hvalue : value.toList with
  | nil =>
    obtain rfl : value = "" := String.ext hvalue
    rfl
  | cons c cs =>
    show some (String.ofList (c :: cs)) = some value
    rw [← hvalue, String.ofList_toList]

theorem readLine_fieldLine (f : Fields L) (key : FieldKey) (value : String) :
    readLine L f (fieldLine key value) = setField L f value key := by
  have hsplit : splitOnceText ':' (fieldLine key value) = some (key.text, " " ++ value) :=
    splitOnceText_eq_some.mpr ⟨rfl, key.colon_notMem.1⟩
  have hne : fieldLine key value ≠ "" := by
    intro heq
    rw [heq] at hsplit
    cases hsplit
  unfold readLine
  rw [if_neg hne, hsplit]
  show (need (lineValue (" " ++ value)) NarInfoError.boundary >>= fun value =>
    match FieldKey.ofText key.text with
    | some key => setField L f value key
    | none => .ok f) = _
  rw [lineValue_space, FieldKey.ofText_text]
  rfl

/-- A text with the given fields; the references come last, without a line end. -/
def narInfoText (L : NixLibs) (path : L.StorePath) (hash : String) (size : ℕ) (refs : List String) :
    String :=
  joinText '\n' [fieldLine .storePath (L.pathText path), fieldLine .url "u", fieldLine .narHash hash,
    fieldLine .narSize (toString size), fieldLine .references (joinText ' ' refs)]

/-- What has neither of the two characters that end lines. -/
def OneLine (s : String) : Prop := '\n' ∉ s.toList ∧ '\r' ∉ s.toList

theorem notMem_of_chars {p : Char → Bool} {s : String} (h : ∀ c ∈ s.toList, p c = true) {c : Char}
    (hc : p c = false) : c ∉ s.toList := by
  intro hmem
  simp [h c hmem] at hc

theorem oneLine_of_nixChar {s : String} (h : ∀ c ∈ s.toList, isNixChar c = true) : OneLine s :=
  ⟨notMem_of_chars h (by decide), notMem_of_chars h (by decide)⟩

theorem isDigit_decimal (n : ℕ) : ∀ c ∈ (toString n).toList, c.isDigit = true := by
  intro c hc
  rw [Nat.toString_eq_ofList_toDigits, String.toList_ofList] at hc
  exact Nat.isDigit_of_mem_toDigits (by decide) (by decide) hc

theorem oneLine_decimal (n : ℕ) : OneLine (toString n) :=
  ⟨notMem_of_chars (isDigit_decimal n) (by decide), notMem_of_chars (isDigit_decimal n) (by decide)⟩

theorem oneLine_fieldLine {key : FieldKey} {value : String} (h : OneLine value) :
    OneLine (fieldLine key value) := by
  obtain ⟨-, hn, hr⟩ := key.colon_notMem
  constructor
  · simp [fieldLine, hn, h.1]
  · simp [fieldLine, hr, h.2]

theorem stripCr_of_oneLine {s : String} (h : OneLine s) : (stripSuffix s "\r").getD s = s := by
  cases hstrip : stripSuffix s "\r" with
  | none => rfl
  | some q =>
    exfalso
    apply h.2
    unfold stripSuffix at hstrip
    split at hstrip
    · rename_i hends
      obtain ⟨pre, hpre⟩ := isSuffixOf_iff_suffix.mp hends
      rw [← hpre]
      exact mem_append_right _ (by decide)
    · cases hstrip

theorem lines_narInfoText {path : L.StorePath} {hash : String} (hhash : OneLine hash) (size : ℕ)
    {refs : List String} (hrefs : '\n' ∉ (joinText ' ' refs).toList) :
    lines (narInfoText L path hash size refs) =
      [fieldLine .storePath (L.pathText path), fieldLine .url "u", fieldLine .narHash hash,
        fieldLine .narSize (toString size), fieldLine .references (joinText ' ' refs)] := by
  have hpath : OneLine (fieldLine .storePath (L.pathText path)) :=
    oneLine_fieldLine (oneLine_of_nixChar (L.pathText_chars path))
  have hurl : OneLine (fieldLine .url "u") := ⟨by decide, by decide⟩
  have hnar : OneLine (fieldLine .narHash hash) := oneLine_fieldLine hhash
  have hsize : OneLine (fieldLine .narSize (toString size)) := oneLine_fieldLine (oneLine_decimal size)
  have hlast : '\n' ∉ (fieldLine .references (joinText ' ' refs)).toList := by
    simp [fieldLine, FieldKey.text, hrefs]
  have hne : fieldLine .references (joinText ' ' refs) ≠ "" := by
    intro heq
    have := congrArg (fun s => s.toList.length) heq
    simp [fieldLine] at this
  unfold lines narInfoText
  rw [splitText_joinText hpath.1]
  · generalize toString size = digits at hsize ⊢
    simp [stripCr_of_oneLine hpath, stripCr_of_oneLine hurl, stripCr_of_oneLine hnar,
      stripCr_of_oneLine hsize, hne]
  · intro q hq
    simp only [mem_cons, not_mem_nil, or_false] at hq
    rcases hq with rfl | rfl | rfl | rfl
    · exact hurl.1
    · exact hnar.1
    · exact hsize.1
    · exact hlast

theorem lineReferences_joinText {refs : List String} (hrefs : Listable refs) (hne : refs ≠ []) :
    lineReferences (joinText ' ' refs) = refs := by
  cases refs with
  | nil => exact absurd rfl hne
  | cons r rs =>
    have hsplit : splitText ' ' (joinText ' ' (r :: rs)) = r :: rs :=
      splitText_joinText (hrefs.2 r (by simp)).1 fun q hq => (hrefs.2 q (by simp [hq])).1
    unfold lineReferences
    rw [if_neg, hsplit]
    intro hempty
    rw [hempty] at hsplit
    exact hrefs.1 hsplit.symm

/-- **Fields that can be accepted are**: there is a text with these references. -/
theorem exists_parse {n : NarInfo L} (hn : n.Accepted) {refs : List String} (hrefs : Listable refs)
    (hne : refs ≠ []) :
    ∃ text m, NarInfo.parse L text = .ok m ∧ m.storePath = n.storePath ∧ m.narHash = n.narHash ∧
      m.narSize = n.narSize ∧ m.references = refs := by
  have hline : '\n' ∉ (joinText ' ' refs).toList := by
    intro hc
    rw [joinText, String.toList_ofList] at hc
    rcases of_mem_intercalate hc with h | ⟨cs, hcs, hc⟩
    · revert h
      decide
    · obtain ⟨r, hr, rfl⟩ := mem_map.mp hcs
      exact (hrefs.2 r hr).2 hc
  have hlines := @lines_narInfoText L n.storePath n.narHash
    (oneLine_of_nixChar (L.hashParse_chars _ hn.narHash)) n.narSize refs hline
  refine ⟨narInfoText L n.storePath n.narHash n.narSize refs,
    { storePath := n.storePath, url := "u", compression := "bzip2", fileHash := none,
      fileSize := none, narHash := n.narHash, narSize := n.narSize, references := refs,
      deriver := none, signatures := [], ca := none }, ?_, rfl, rfl, rfl, rfl⟩
  unfold NarInfo.parse
  rw [hlines]
  simp only [foldlM_cons, foldlM_nil, readLine_fieldLine, setField, L.pathFromStr_text,
    hn.narHash, parseRadix_decimal hn.narSize, lineReferences_joinText hrefs hne]
  have hsize : ensure (n.narSize ≠ 0) (NarInfoError.missingField "NarSize") = .ok () :=
    ensure_eq_ok.mpr hn.size_ne
  show (do
    ensure (n.narSize ≠ 0) (NarInfoError.missingField "NarSize")
    return _ : Except NarInfoError (NarInfo L)) = _
  rw [hsize]
  rfl

/-! ## Fingerprints -/

/-- What stands between two references of a fingerprint. -/
def refSeparator : List Char := ",/nix/store/".toList

theorem toList_referencesText (r : String) (rs : List String) : (referencesText (r :: rs)).toList =
      "/nix/store/".toList ++ refSeparator.intercalate ((r :: rs).map String.toList) := by
  have hmap : ((r :: rs).map fun basename => "/nix/store/" ++ basename).map String.toList =
      ((r :: rs).map String.toList).map ("/nix/store/".toList ++ ·) := by
    simp
  rw [referencesText, joinText, String.toList_ofList, hmap, map_cons,
    intercalate_map_append]
  rfl

/-- No reference holds what stands between two of them. -/
def NarInfo.Plain (n : NarInfo L) : Prop := ∀ r ∈ n.references, ¬ refSeparator <:+: r.toList

instance (n : NarInfo L) : Decidable n.Plain := List.decidableBAll _ n.references

theorem semicolon_notMem {s : String} (h : ∀ c ∈ s.toList, isNixChar c = true) : ';' ∉ s.toList :=
  notMem_of_chars h (by decide)

theorem decimal_inj {m n : ℕ} (hm : m ≤ u64Max) (hn : n ≤ u64Max) (h : toString m = toString n) :
    m = n := by
  have hparse := parseRadix_decimal hm
  rw [h, parseRadix_decimal hn] at hparse
  exact (ok.inj hparse).symm

theorem pathText_inj {p q : L.StorePath} (h : L.pathText p = L.pathText q) : p = q := by
  have hparse := L.pathFromStr_text p
  rw [h, L.pathFromStr_text q] at hparse
  exact (ok.inj hparse).symm

/-- **The fields of a fingerprint**, the text of the references included. -/
theorem fields_of_fingerprint {n m : NarInfo L} (hn : n.Accepted) (hm : m.Accepted)
    (h : n.fingerprint = m.fingerprint) :
    n.storePath = m.storePath ∧ n.narHash = m.narHash ∧ n.narSize = m.narSize ∧
      referencesText n.references = referencesText m.references := by
  have hlist : (L.pathText n.storePath).toList ++ (';' :: (n.narHash.toList ++ ';' ::
      ((toString n.narSize).toList ++ ';' :: (referencesText n.references).toList))) =
      (L.pathText m.storePath).toList ++ (';' :: (m.narHash.toList ++ ';' ::
      ((toString m.narSize).toList ++ ';' :: (referencesText m.references).toList))) := by
    have hchars := congrArg String.toList h
    simpa [NarInfo.fingerprint, append_assoc] using hchars
  obtain ⟨hpath, hlist⟩ := append_cons_inj (semicolon_notMem (L.pathText_chars _))
    (semicolon_notMem (L.pathText_chars _)) hlist
  obtain ⟨hhash, hlist⟩ := append_cons_inj (semicolon_notMem (L.hashParse_chars _ hn.narHash))
    (semicolon_notMem (L.hashParse_chars _ hm.narHash)) hlist
  obtain ⟨hsize, hrefs⟩ := append_cons_inj (notMem_of_chars (isDigit_decimal _) (by decide))
    (notMem_of_chars (isDigit_decimal _) (by decide)) hlist
  exact ⟨pathText_inj (String.ext hpath), String.ext hhash,
    decimal_inj hn.narSize hm.narSize (String.ext hsize), String.ext hrefs⟩

theorem fingerprint_congr {n m : NarInfo L} (hpath : n.storePath = m.storePath)
    (hhash : n.narHash = m.narHash) (hsize : n.narSize = m.narSize)
    (hrefs : referencesText n.references = referencesText m.references) :
    n.fingerprint = m.fingerprint := by
  rw [NarInfo.fingerprint, NarInfo.fingerprint, hpath, hhash, hsize, hrefs]

theorem eq_of_referencesText {rs qs : List String} (hr : ∀ r ∈ rs, ¬ refSeparator <:+: r.toList)
    (hq : ∀ q ∈ qs, ¬ refSeparator <:+: q.toList) (h : referencesText rs = referencesText qs) :
    rs = qs := by
  have hchars := congrArg String.toList h
  have hempty : (referencesText []).toList = [] := by decide
  cases rs with
  | nil =>
    cases qs with
    | nil => rfl
    | cons q qs =>
      rw [hempty, toList_referencesText] at hchars
      simp at hchars
  | cons r rs =>
    cases qs with
    | nil =>
      rw [hempty, toList_referencesText] at hchars
      simp at hchars
    | cons q qs =>
      rw [toList_referencesText, toList_referencesText] at hchars
      have hinter := append_cancel_left hchars
      have hlists : (r :: rs).map String.toList = (q :: qs).map String.toList := by
        refine intercalate_inj (s := "/nix/store/".toList) (by decide) (by simp) (by simp) ?_ ?_ hinter
        · intro p hp
          obtain ⟨x, hx, rfl⟩ := mem_map.mp hp
          exact hr x hx
        · intro p hp
          obtain ⟨x, hx, rfl⟩ := mem_map.mp hp
          exact hq x hx
      exact map_injective_iff.mpr (fun _ _ heq => String.ext heq) hlists

theorem exists_plain {rs : List String} (hrs : Listable rs)
    (hplain : ¬ ∀ r ∈ rs, ¬ refSeparator <:+: r.toList) :
    ∃ qs, qs ≠ [] ∧ Listable qs ∧ (∀ q ∈ qs, ¬ refSeparator <:+: q.toList) ∧
      referencesText qs = referencesText rs := by
  cases rs with
  | nil => simp at hplain
  | cons r rs =>
    obtain ⟨ps, hps, hparts, hjoin⟩ : ∃ ps, ps ≠ [] ∧ (∀ p ∈ ps, ¬ refSeparator <:+: p) ∧
        refSeparator.intercalate ps = refSeparator.intercalate ((r :: rs).map String.toList) :=
      exists_parts (by decide) _
    have hchars : ∀ p ∈ ps, ' ' ∉ p ∧ '\n' ∉ p := by
      have hall : ∀ c : Char, c ∉ refSeparator → (∀ x ∈ r :: rs, c ∉ x.toList) → ∀ p ∈ ps, c ∉ p := by
        intro c hsep hnone p hp hc
        have hmem : c ∈ refSeparator.intercalate ps := mem_intercalate_of_mem hp hc
        rw [hjoin] at hmem
        rcases of_mem_intercalate hmem with h | ⟨cs, hcs, hc⟩
        · exact hsep h
        · obtain ⟨x, hx, rfl⟩ := mem_map.mp hcs
          exact hnone x hx hc
      intro p hp
      exact ⟨hall ' ' (by decide) (fun x hx => (hrs.2 x hx).1) p hp,
        hall '\n' (by decide) (fun x hx => (hrs.2 x hx).2) p hp⟩
    have hmap : (ps.map String.ofList).map String.toList = ps := by
      rw [map_map]
      exact (map_congr_left fun p _ => String.toList_ofList).trans (map_id ps)
    have htext : referencesText (ps.map String.ofList) = referencesText (r :: rs) := by
      cases ps with
      | nil => exact absurd rfl hps
      | cons p ps =>
        apply String.ext
        rw [map_cons, toList_referencesText, toList_referencesText, ← map_cons, hmap, hjoin]
    refine ⟨ps.map String.ofList, by simp [hps], ⟨?_, ?_⟩, ?_, htext⟩
    · -- the empty reference alone has no separator in its text
      intro hone
      rw [hone] at hmap
      obtain ⟨x, hx, hinside⟩ : ∃ x ∈ r :: rs, refSeparator <:+: x.toList := by
        by_contra hno
        exact hplain fun x hx hinside => hno ⟨x, hx, hinside⟩
      have hcomma : ',' ∈ refSeparator.intercalate ((r :: rs).map String.toList) :=
        mem_intercalate_of_mem (mem_map_of_mem hx) (hinside.subset (by decide))
      rw [← hjoin, ← hmap] at hcomma
      simp at hcomma
    · intro q hq
      obtain ⟨p, hp, rfl⟩ := mem_map.mp hq
      rw [String.toList_ofList]
      exact hchars p hp
    · intro q hq
      obtain ⟨p, hp, rfl⟩ := mem_map.mp hq
      rw [String.toList_ofList]
      exact hparts p hp

/-- **A fingerprint binds the path info.** -/
theorem fingerprint_binds_iff {text₁ : String} {n₁ : NarInfo L}
    (h₁ : NarInfo.parse L text₁ = .ok n₁) :
    (∀ text₂ n₂, NarInfo.parse L text₂ = .ok n₂ → n₁.fingerprint = n₂.fingerprint →
      n₁.storePath = n₂.storePath ∧ n₁.narHash = n₂.narHash ∧ n₁.narSize = n₂.narSize) ∧
    ((∀ text₂ n₂, NarInfo.parse L text₂ = .ok n₂ → n₂.Plain → n₁.fingerprint = n₂.fingerprint →
      n₁.references = n₂.references) ↔ n₁.Plain) := by
  have hn₁ := accepted_of_parse h₁
  refine ⟨?_, ?_, ?_⟩
  · intro text₂ n₂ h₂ heq
    obtain ⟨hpath, hhash, hsize, -⟩ := fields_of_fingerprint hn₁ (accepted_of_parse h₂) heq
    exact ⟨hpath, hhash, hsize⟩
  · intro hbinds
    by_contra hplain
    obtain ⟨qs, hne, hlistable, hparts, htext⟩ := exists_plain hn₁.references hplain
    obtain ⟨text₂, n₂, h₂, hpath, hhash, hsize, hrefs⟩ := exists_parse hn₁ hlistable hne
    have hplain₂ : n₂.Plain := by
      rwa [NarInfo.Plain, hrefs]
    have hsame := hbinds text₂ n₂ h₂ hplain₂
      (fingerprint_congr hpath.symm hhash.symm hsize.symm (by rw [hrefs, htext]))
    rw [hrefs] at hsame
    apply hplain
    rwa [NarInfo.Plain, hsame]
  · intro hplain text₂ n₂ h₂ hplain₂ heq
    obtain ⟨-, -, -, hrefs⟩ := fields_of_fingerprint hn₁ (accepted_of_parse h₂) heq
    exact eq_of_referencesText hplain hplain₂ hrefs

/-- Store paths that are any text of the alphabet, for concrete runs. -/
def NixLibs.sample : NixLibs where
  StorePath := { text : String // text.toList.all isNixChar = true }
  pathFromStr text :=
    if h : text.toList.all isNixChar = true then .ok ⟨text, h⟩ else .error "invalid"
  pathText := Subtype.val
  hashParse text := if text.toList.all isNixChar then .ok () else .error "invalid"
  pathFromStr_text path := dif_pos path.2
  pathText_chars path := List.all_eq_true.mp path.2
  hashParse_chars text h := by
    split_ifs at h with hall
    exact List.all_eq_true.mp hall

def samplePath : String := "/nix/store/aaaaaaaaaaaaaaaaaaaaaaaaaaaaaaaa-test"

def sampleHash : String := "sha256:0000000000000000000000000000000000000000000000000000"

/-- A path info with the given line of references. -/
def sampleNarInfo (references : String) : String :=
  "StorePath: " ++ samplePath ++ "\nURL: nar/test.nar\nNarHash: " ++ sampleHash ++
    "\nNarSize: 100\nReferences: " ++ references

theorem fingerprint_binds_two : ∃ n₁, NarInfo.parse .sample (sampleNarInfo "a b") = .ok n₁ ∧
    (∀ text₂ n₂, NarInfo.parse .sample text₂ = .ok n₂ → n₂.Plain → n₁.fingerprint = n₂.fingerprint →
      n₁.references = n₂.references) := by
  have hrun : (NarInfo.parse .sample (sampleNarInfo "a b")).toOption.any
      (fun n => decide n.Plain) = true := by decide +kernel
  cases hparse : (NarInfo.parse .sample (sampleNarInfo "a b")).toOption with
  | none =>
    simp [hparse] at hrun
  | some n₁ =>
    rw [hparse] at hrun
    have h₁ := toOption_eq_some.mp hparse
    exact ⟨n₁, h₁, (fingerprint_binds_iff h₁).2.mpr (of_decide_eq_true hrun)⟩

/-- Two references, and one with a comma in it, have one fingerprint. -/
theorem fingerprint_shared :
    let parsed (refs : String) := (NarInfo.parse .sample (sampleNarInfo refs)).toOption.map
      fun n => (n.fingerprint, n.references)
    let shared := "1;" ++ samplePath ++ ";" ++ sampleHash ++ ";100;/nix/store/a,/nix/store/b"
    parsed "a b" = some (shared, ["a", "b"]) ∧
      parsed "a,/nix/store/b" = some (shared, ["a,/nix/store/b"]) := by
  decide +kernel

end KappaRegistry.Nix
