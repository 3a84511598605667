import KappaRegistry.Lib.Action
import KappaRegistry.Nix.NarInfo
import KappaRegistry.Primitives.Distinct
import KappaRegistry.Store.Isolation

/-!
# Uploads and Downloads of NARs

The binary cache of `kappa-server/src/main.rs` (`nix_narinfo_put`, `nix_nar_put`, `nix_nar_get`), with
`kappa-module-nix/src/refs.rs` and the compression records of `kappa-store-redb/src/blob.rs`.

The tag `nar:{path}` names a NAR. After an upload it is the label of the uploaded bytes, and once a path
info vouches for them it is the hash of the NAR they decompress to; the record of that hash says which
bytes to serve. There is one record for each NAR, whatever the path and the namespace: bytes that
decompress to the same NAR in another way take the place of the earlier ones under every path.

**`nar_served`**: where no other path is bound to a NAR that comes in other bytes, a download gives the
last upload or nothing.
-/

namespace KappaRegistry.Nix

open Lib PersistentStore Table List

/-! ## Verification -/

/-- What is taken from other crates: decompressors, hashes and the wording of errors. -/
structure NarLibs where
  nix : NixLibs
  sha256 : Bytes → Bytes
  /-- `nixbase32::encode`. -/
  nixbase32 : Bytes → String
  /-- The digest in a store path. -/
  digest : nix.StorePath → Bytes
  zstd : Bytes → Except String Bytes
  xz : Bytes → Except String Bytes
  bzip2 : Bytes → Except String Bytes
  /-- The `Debug` form of a list of texts. -/
  debugTexts : List String → String
  /-- The `Display` form of an error of the parser. -/
  displayNarInfoError : NarInfoError → String

inductive VerifyError where
  | narHashMismatch (expected computed : String)
  | referencesMismatch (narinfo scanned : List String)
  | decompression (message : String)
  deriving DecidableEq

def storePathHashLen : ℕ := 32

/-- `is_nixbase32_byte`: digits and lower-case letters without `e`, `o`, `t` and `u`. -/
def isNixbase32Byte (b : UInt8) : Bool :=
  (48 ≤ b && b ≤ 57) || (97 ≤ b && b ≤ 100) || (102 ≤ b && b ≤ 110) || (112 ≤ b && b ≤ 115) ||
    (118 ≤ b && b ≤ 122)

def windowReference (candidates : List String) (window : Bytes) : Option String :=
  if window.head?.any isNixbase32Byte && window.getLast?.any isNixbase32Byte then
    (fromUtf8 window).filter candidates.contains
  else none

/-- `scan_references`: the candidates that occur in the data, sorted. -/
def scanReferences (data : Bytes) (candidates : List String) : List String :=
  if candidates.isEmpty || data.length < storePathHashLen then []
  else
    (((range (data.length - storePathHashLen + 1)).map fun start =>
      (data.drop start).take storePathHashLen).filterMap (windowReference candidates)).dedup.insertionSort
        (· ≤ ·)

/-- The hash part of a reference, which is followed by a dash. -/
def referenceHash (basename : String) : Option String :=
  if (textBytes basename)[storePathHashLen]? = some 45 then
    fromUtf8 ((textBytes basename).take storePathHashLen)
  else none

section

variable (libs : NarLibs)

def VerifyError.display : VerifyError → String
  | .narHashMismatch expected computed =>
    "NarHash mismatch: expected " ++ expected ++ ", computed " ++ computed
  | .referencesMismatch narinfo scanned =>
    "references mismatch: narinfo claims " ++ libs.debugTexts narinfo ++ ", scan found " ++
      libs.debugTexts scanned
  | .decompression message => "decompression error: " ++ message

def NarLibs.narHash (nar : Bytes) : String := "sha256:" ++ libs.nixbase32 (libs.sha256 nar)

def decompress (data : Bytes) (compression : String) : Except VerifyError Bytes :=
  if compression = "none" then .ok data
  else if compression = "zstd" then (libs.zstd data).mapError fun e => .decompression ("zstd: " ++ e)
  else if compression = "xz" ∨ compression = "lzma" then
    (libs.xz data).mapError fun e => .decompression ("xz: " ++ e)
  else if compression = "bzip2" then (libs.bzip2 data).mapError fun e => .decompression ("bzip2: " ++ e)
  else .error (.decompression ("unsupported compression: " ++ compression))

def decompressAndVerify (compressedData : Bytes) (compression expectedNarHash : String)
    (claimedReferences : List String) : Except VerifyError Unit := do
  let decompressed ← decompress libs compressedData compression
  ensure (libs.narHash decompressed = expectedNarHash)
    (.narHashMismatch expectedNarHash (libs.narHash decompressed))
  let claimedHashes := (claimedReferences.filterMap referenceHash).dedup.insertionSort (· ≤ ·)
  let scanned := scanReferences decompressed claimedHashes
  ensure (claimedHashes.all scanned.contains) (.referencesMismatch claimedHashes scanned)

end

/-! ## The store -/

structure CompressionRecord where
  kappa : String
  algorithm : String
  uncompressedSize : ℕ
  deriving DecidableEq

/-- A store with compression records. -/
structure NixStore where
  store : PersistentStore
  compressionRecords : Table String CompressionRecord
  /-- The files of compressed bytes that an encrypted store has beside its sealed blobs. -/
  plainFiles : Table String Bytes
  blobMeta : Table String Bytes

namespace NixStore

def new (encrypted : Bool) : NixStore := ⟨.new encrypted, ∅, ∅, ∅⟩

variable (s : NixStore)

/-- The file at the path of a label. Blobs are such files unless the store is encrypted. -/
def fileAt (kappa : String) : Option Bytes :=
  if s.store.encrypted then s.plainFiles[kappa]? else s.store.blobs[kappa]?

/-- `blob_open_compressed`, read to the end. -/
def blobOpenCompressed (uncompressedHash : String) : Except StoreError Bytes := do
  let record ← need s.compressionRecords[uncompressedHash]? (.notFound uncompressedHash)
  need (s.fileAt record.kappa) (.notFound uncompressedHash)

/-- A file at the path of its label, unless there is one. -/
def writeFile (kappa : String) (content : Bytes) : NixStore :=
  if s.store.encrypted then { s with plainFiles := s.plainFiles.insertIfNew kappa content }
  else { s with store := s.store.blobPut kappa content }

def insertRecord (uncompressedHash : String) (record : CompressionRecord) : NixStore :=
  { s with compressionRecords := s.compressionRecords.insert uncompressedHash record }

def tagSet (s : NixStore) (ns name kappa : String) : NixStore :=
  { s with store := s.store.tagSet ns name kappa }

def tagDelete (s : NixStore) (ns name : String) : NixStore :=
  { s with store := s.store.tagDelete ns name }

/-- `ingest_verified` and `ingest_compute` with the SHA-256 label. -/
def blobPut (s : NixStore) (kappa : String) (content : Bytes) : NixStore :=
  { s with store := s.store.blobPut kappa content }

end NixStore

/-- `nar:{path}`. -/
def narTag (path : String) : String := "nar:" ++ path

/-- `narinfo:{hash}`. -/
def narInfoTag (hash : String) : String := "narinfo:" ++ hash

def NarInfo.narPath {L : NixLibs} (n : NarInfo L) : String := (stripPrefix n.url "nar/").getD n.url

def narLimit : ℕ := 10 * 1024 * 1024 * 1024

def narInfoLimit : ℕ := 64 * 1024

section

variable (prim : Primitives) (libs : NarLibs)

def ingestCompressed (uncompressedHash : String) (content : Bytes) (compression : String) (size : ℕ)
    (s : NixStore) : NixStore :=
  (s.writeFile (prim.kappaFromBytes content) content).insertRecord uncompressedHash
    ⟨prim.kappaFromBytes content, compression, size⟩

variable (ns path kappa : String) (n : NarInfo libs.nix) (s : NixStore) (content : Bytes)

/-- What follows a check that passed: a record of the bytes, and the tag of the path names the NAR. -/
def bindNar (s : NixStore) : NixStore :=
  (ingestCompressed prim n.narHash content n.compression n.narSize s).tagSet ns (narTag path) n.narHash

/-! ## Requests -/

/-- `nix_nar_get`; every failure is answered with 404. -/
def narGet : Except StoreError Bytes := do
  let entry ← s.store.tagGet ns (narTag path)
  s.blobOpenCompressed entry.kappa

def storedNarInfo (kappa : String) : Option (NarInfo libs.nix) :=
  (s.store.blobs[kappa]?).bind fun bytes =>
    (fromUtf8 bytes).bind fun text => (NarInfo.parse libs.nix text).toOption

/-- The outcome of the check of one waiting path info: a path info that does not fit is removed. -/
def settle (name : String) (n : NarInfo libs.nix) (s : NixStore) : NixStore :=
  if n.narPath = path then
    if (decompressAndVerify libs content n.compression n.narHash n.references).isOk then
      bindNar prim libs ns path n content s
    else s.tagDelete ns name
  else s

/-- The loop of `nix_nar_put` over the tags. -/
def deferredCheck (s : NixStore) (tag : TagEntry) : NixStore :=
  if startsWith tag.name "narinfo:" then
    (storedNarInfo libs s tag.kappa).elim s fun n => settle prim libs ns path content tag.name n s
  else s

/-- The bytes of an upload, with the tag of the path. -/
def storeNar (s : NixStore) : NixStore :=
  (s.blobPut (prim.kappaFromBytes content) content).tagSet ns (narTag path)
    (prim.kappaFromBytes content)

/-- `nix_nar_put`, which succeeds whatever the checks say. -/
def narPut (body : Bytes) (s : NixStore) : NixStore :=
  let content := bodyBytes narLimit body
  let stored := storeNar prim ns path content s
  ((stored.store.tagList ns).toOption.getD []).foldl (deferredCheck prim libs ns path content) stored

/-- The path info in the body of a request for `{hash}.narinfo`. -/
def readNarInfo (urlHash : String) (bytes : Bytes) : Except StoreError (NarInfo libs.nix) := do
  let text ← need (fromUtf8 bytes) (.rejected "narinfo is not valid UTF-8: invalid utf-8 sequence")
  let n ← (NarInfo.parse libs.nix text).mapError fun e =>
    .rejected ("narinfo parse error: " ++ libs.displayNarInfoError e)
  let storeHash := libs.nixbase32 (libs.digest n.storePath)
  ensure (urlHash = storeHash)
    (.rejected ("URL hash " ++ urlHash ++ " does not match store path hash " ++ storeHash))
  return n

def checkStoredNar : Except StoreError NixStore :=
  match s.store.tagGet ns (narTag n.narPath) with
  | .error _ => .ok s
  | .ok entry => do
    let narBytes ← s.store.blobGet entry.kappa
    (decompressAndVerify libs narBytes n.compression n.narHash n.references).mapError fun e =>
      .rejected ("NAR verification failed: " ++ e.display libs)
    return bindNar prim libs ns n.narPath n narBytes s

def referenceEdges : List Edge :=
  (n.references.filterMap referenceHash).map fun hash =>
    { source := kappa, target := "storepath:" ++ hash, relation := .refersTo, asserter := "_nix",
      valueKappa := none, metadata := none }

def deriverEdge (deriver : String) : Edge :=
  { source := kappa, target := "deriver:" ++ deriver, relation := .derivedFrom, asserter := "_nix",
    valueKappa := none, metadata := none }

def putEdges (store : PersistentStore) : PersistentStore :=
  let store := store.edgePutBatch prim ns (referenceEdges libs kappa n)
  n.deriver.elim store fun deriver => store.edgePut prim ns (deriverEdge kappa deriver)

def putSignatures (signatures : List String) (s : NixStore) : NixStore :=
  { s with
    blobMeta := signatures.zipIdx.foldl
      (fun rows sig => rows.insert (dbKey kappa ("_nix_sig_" ++ toString sig.2)) (textBytes sig.1))
      s.blobMeta }

/-- The text of a path info as a blob, with its tag, its edges and its signatures. -/
def storeNarInfo (bytes : Bytes) (s : NixStore) : NixStore :=
  let kappa := prim.kappaFromBytes bytes
  let tagged := (s.blobPut kappa bytes).tagSet ns (narInfoTag (libs.nixbase32 (libs.digest n.storePath)))
    kappa
  putSignatures kappa n.signatures { tagged with store := putEdges prim libs ns kappa n tagged.store }

/-- `nix_narinfo_put`: the store after it, or the reason why it was refused. -/
def narInfoPut (urlHash : String) (body : Bytes) (s : NixStore) : Except StoreError NixStore := do
  let bytes := bodyBytes narInfoLimit body
  let n ← readNarInfo libs urlHash bytes
  let checked ← checkStoredNar prim libs ns n s
  return storeNarInfo prim libs ns n bytes checked

inductive NixRequest where
  | narPut (ns path : String) (body : Bytes)
  | narInfoPut (ns urlHash : String) (body : Bytes)

/-- The store after a request; a path info that is refused leaves it as it was. -/
def step : NixRequest → NixStore
  | .narPut ns path body => narPut prim libs ns path body s
  | .narInfoPut ns urlHash body => (narInfoPut prim libs ns urlHash body s).toOption.getD s

def run (reqs : List NixRequest) : NixStore := reqs.foldl (step prim libs) s

end

/-- The last upload to each path, after one more request. -/
def note (last : String → String → Option Bytes) : NixRequest → String → String → Option Bytes
  | .narPut ns path body => fun ns' path' => if ns' = ns ∧ path' = path then some body else last ns' path'
  | .narInfoPut _ _ _ => last

def lastPut (reqs : List NixRequest) : String → String → Option Bytes := reqs.foldl note fun _ _ => none

/-! ## The condition -/

section

variable (prim : Primitives) (libs : NarLibs)

/-- The hash is that of a NAR to which the bytes decompress. -/
def Unpacks (content : Bytes) (hash : String) : Prop :=
  ∃ compression nar, decompress libs content compression = .ok nar ∧ hash = libs.narHash nar

variable (s : NixStore)

/-- No other path is bound to a NAR of these bytes that is kept as other bytes. -/
def Alone (ns path : String) (content : Bytes) : Prop :=
  ∀ hash : String, Unpacks libs content hash → ∀ (ns' path' : String) (value : TagValue),
    dbKey ns' (narTag path') ≠ dbKey ns (narTag path) →
    s.store.tags[dbKey ns' (narTag path')]? = some value → value.kappa = hash →
    ∀ record, s.compressionRecords[hash]? = some record → record.kappa = prim.kappaFromBytes content

/-- The condition on a request: names of namespaces without NUL, bodies within the limit, and bytes that
take the place of no others. -/
def Orderly : NixRequest → Prop
  | .narPut ns path body => NulFree ns ∧ body.length ≤ narLimit ∧ Alone prim libs s ns path body
  | .narInfoPut ns urlHash body => NulFree ns ∧
    ∀ n, readNarInfo libs urlHash (bodyBytes narInfoLimit body) = .ok n → ∀ entry content,
      s.store.tagGet ns (narTag n.narPath) = .ok entry → s.store.blobGet entry.kappa = .ok content →
      Alone prim libs s ns n.narPath content

/-- Every request meets the condition in the state it finds. -/
def OrderlyRun (s : NixStore) : List NixRequest → Prop
  | [] => True
  | req :: reqs => Orderly prim libs s req ∧ OrderlyRun (step prim libs s req) reqs

/-- Everything in the table is under its own label. -/
def OwnLabels (t : Table String Bytes) : Prop :=
  ∀ (kappa : String) (bytes : Bytes), t[kappa]? = some bytes → kappa = prim.kappaFromBytes bytes

structure Labelled (s : NixStore) : Prop where
  blobs : OwnLabels prim s.store.blobs
  files : OwnLabels prim s.plainFiles

/-- A label serves some bytes: it is their own, or the record under it names them. -/
def Serves (kappa : String) (content : Bytes) : Prop :=
  kappa = prim.kappaFromBytes content ∨
    ∃ record, s.compressionRecords[kappa]? = some record ∧ record.kappa = prim.kappaFromBytes content

/-- The path is bound, and to these bytes. -/
def BoundTo (ns path : String) (content : Bytes) : Prop :=
  ∃ value, s.store.tags[dbKey ns (narTag path)]? = some value ∧ Serves prim s value.kappa content

/-- What holds between requests, with the last uploads. -/
structure NixInv (s : NixStore) (last : String → String → Option Bytes) : Prop where
  labelled : Labelled prim s
  hashes : ∀ (hash : String) (record : CompressionRecord), s.compressionRecords[hash]? = some record → ∃ nar, hash = libs.narHash nar
  bound : ∀ (ns path : String) (value : TagValue), NulFree ns →
    s.store.tags[dbKey ns (narTag path)]? = some value →
    ∃ content, last ns path = some content ∧ Serves prim s value.kappa content

/-- What a request may do that handles the bytes `content` for the row `own`: new records are of these
bytes and for their NARs, and no other path is bound anew. -/
structure Rebinds (own : String) (content : Bytes) (s s' : NixStore) : Prop where
  labelled : Labelled prim s → Labelled prim s'
  records : ∀ (hash : String) (record : CompressionRecord), s'.compressionRecords[hash]? = some record →
    s.compressionRecords[hash]? = some record ∨
      record.kappa = prim.kappaFromBytes content ∧ Unpacks libs content hash
  kept : ∀ hash : String, (s.compressionRecords[hash]?).isSome → (s'.compressionRecords[hash]?).isSome
  rows : ∀ ns path, dbKey ns (narTag path) ≠ own → NulFree ns →
    s'.store.tags[dbKey ns (narTag path)]? = s.store.tags[dbKey ns (narTag path)]?

end

variable {prim : Primitives} {libs : NarLibs} {s s' s'' : NixStore} {own ns path : String} {content : Bytes}

/-! ## What requests do -/

theorem Rebinds.trans (h : Rebinds prim libs own content s s') (h' : Rebinds prim libs own content s' s'') :
    Rebinds prim libs own content s s'' := by
  refine ⟨fun hl => h'.labelled (h.labelled hl), ?_, fun hash hs => h'.kept hash (h.kept hash hs), ?_⟩
  · intro hash record hrecord
    rcases h'.records hash record hrecord with hold | hnew
    · exact h.records hash record hold
    · exact .inr hnew
  · intro ns path hne hns
    exact (h'.rows ns path hne hns).trans (h.rows ns path hne hns)

theorem narTag_ne_narInfoTag (path hash : String) : narTag path ≠ narInfoTag hash := by
  intro heq
  have hchar := congrArg (fun text : String => text.toList[3]?) heq
  simp [narTag, narInfoTag] at hchar

theorem narTag_inj {path path' : String} (h : narTag path = narTag path') : path = path' := by
  have hlist := congrArg String.toList h
  simp only [narTag, String.toList_append, append_cancel_left_eq] at hlist
  exact String.ext hlist

theorem OwnLabels.insertIfNew {t : Table String Bytes} (h : OwnLabels prim t) (content : Bytes) :
    OwnLabels prim (t.insertIfNew (prim.kappaFromBytes content) content) := by
  intro kappa bytes hrow
  rcases of_get_insertIfNew hrow with ⟨hkappa, rfl⟩ | hold
  · exact hkappa.symm
  · exact h kappa bytes hold

theorem Labelled.blobPut (h : Labelled prim s) (content : Bytes) :
    Labelled prim (s.blobPut (prim.kappaFromBytes content) content) :=
  ⟨h.blobs.insertIfNew content, h.files⟩

theorem Labelled.writeFile (h : Labelled prim s) (content : Bytes) :
    Labelled prim (s.writeFile (prim.kappaFromBytes content) content) := by
  unfold NixStore.writeFile
  split_ifs
  · exact ⟨h.blobs, h.files.insertIfNew content⟩
  · exact h.blobPut content

theorem writeFile_frame (s : NixStore) (kappa : String) (content : Bytes) :
    (s.writeFile kappa content).compressionRecords = s.compressionRecords ∧
      (s.writeFile kappa content).store.tags = s.store.tags := by
  unfold NixStore.writeFile
  split_ifs <;> exact ⟨rfl, rfl⟩

theorem Rebinds.of_store (hlabelled : Labelled prim s → Labelled prim s')
    (hrecords : s'.compressionRecords = s.compressionRecords)
    (hrows : ∀ ns path, dbKey ns (narTag path) ≠ own → NulFree ns →
      s'.store.tags[dbKey ns (narTag path)]? = s.store.tags[dbKey ns (narTag path)]?) :
    Rebinds prim libs own content s s' := by
  refine ⟨hlabelled, ?_, ?_, hrows⟩
  · intro hash record hrecord
    rw [hrecords] at hrecord
    exact .inl hrecord
  · intro hash hsome
    rwa [hrecords]

theorem rebinds_tagSet (s : NixStore) (name kappa : String) :
    Rebinds prim libs (dbKey ns name) content s (s.tagSet ns name kappa) := by
  refine .of_store (fun h => ⟨h.blobs, h.files⟩) rfl ?_
  intro ns' path' hne _
  show (s.store.tags.insert (dbKey ns name) _)[_]? = _
  rw [get_insert, if_neg (Ne.symm hne)]

theorem narRow_ne (hns : NulFree ns) {ns' : String} (hns' : NulFree ns') (path hash : String) :
    dbKey ns (narInfoTag hash) ≠ dbKey ns' (narTag path) := by
  intro heq
  exact narTag_ne_narInfoTag path hash ((PersistentStore.dbKey_inj hns hns').mp heq).2.symm

theorem rebinds_tagDelete (hns : NulFree ns) (s : NixStore) (hash : String) :
    Rebinds prim libs own content s (s.tagDelete ns (narInfoTag hash)) := by
  refine .of_store (fun h => ⟨h.blobs, h.files⟩) rfl ?_
  intro ns' path' _ hns'
  show (s.store.tags.erase (dbKey ns (narInfoTag hash)))[_]? = _
  rw [get_erase, if_neg (narRow_ne hns hns' path' hash)]

theorem compressionRecords_ingestCompressed (hash : String) (content : Bytes) (compression : String)
    (size : ℕ) (s : NixStore) :
    (ingestCompressed prim hash content compression size s).compressionRecords =
      s.compressionRecords.insert hash ⟨prim.kappaFromBytes content, compression, size⟩ := by
  rw [← (writeFile_frame s (prim.kappaFromBytes content) content).1]
  rfl

theorem rebinds_ingestCompressed {hash : String} (hunpacks : Unpacks libs content hash)
    (compression : String) (size : ℕ) (s : NixStore) :
    Rebinds prim libs own content s (ingestCompressed prim hash content compression size s) := by
  refine ⟨?_, ?_, ?_, ?_⟩
  · intro hl
    exact ⟨(hl.writeFile content).blobs, (hl.writeFile content).files⟩
  · intro hash' record hrecord
    rw [compressionRecords_ingestCompressed, get_insert] at hrecord
    split_ifs at hrecord with heq
    · cases hrecord
      exact .inr ⟨rfl, heq ▸ hunpacks⟩
    · exact .inl hrecord
  · intro hash' hsome
    rw [compressionRecords_ingestCompressed, get_insert]
    split_ifs
    · rfl
    · exact hsome
  · intro ns' path' _ _
    exact congrArg (·[_]?) (writeFile_frame s (prim.kappaFromBytes content) content).2

theorem unpacks_of_verify {compression hash : String} {references : List String}
    (h : decompressAndVerify libs content compression hash references = .ok ()) :
    Unpacks libs content hash := by
  obtain ⟨nar, hnar, hrest⟩ := bind_eq_ok.mp h
  obtain ⟨_, hhash, -⟩ := bind_eq_ok.mp hrest
  exact ⟨compression, nar, hnar, (ensure_eq_ok.mp hhash).symm⟩

variable {n : NarInfo libs.nix}

theorem rebinds_bindNar (hunpacks : Unpacks libs content n.narHash) (s : NixStore) :
    Rebinds prim libs (dbKey ns (narTag path)) content s (bindNar prim libs ns path n content s) :=
  (rebinds_ingestCompressed hunpacks n.compression n.narSize s).trans (rebinds_tagSet _ _ _)

theorem row_tagSet (s : NixStore) (ns name kappa : String) :
    ∃ value : TagValue, (s.tagSet ns name kappa).store.tags[dbKey ns name]? = some value ∧
      value.kappa = kappa :=
  ⟨⟨kappa, _⟩, (get_insert _ _ _ _).trans (if_pos rfl), rfl⟩

theorem boundTo_bindNar (n : NarInfo libs.nix) (s : NixStore) :
    BoundTo prim (bindNar prim libs ns path n content s) ns path content := by
  obtain ⟨value, hvalue, hkappa⟩ := row_tagSet
    (ingestCompressed prim n.narHash content n.compression n.narSize s) ns (narTag path) n.narHash
  refine ⟨value, hvalue, .inr ⟨⟨prim.kappaFromBytes content, n.compression, n.narSize⟩, ?_, rfl⟩⟩
  rw [hkappa]
  exact (congrArg (·[_]?) (compressionRecords_ingestCompressed ..)).trans
    ((get_insert ..).trans (if_pos rfl))

theorem boundTo_storeNar (s : NixStore) : BoundTo prim (storeNar prim ns path content s) ns path content := by
  obtain ⟨value, hvalue, hkappa⟩ := row_tagSet (s.blobPut (prim.kappaFromBytes content) content) ns
    (narTag path) (prim.kappaFromBytes content)
  exact ⟨value, hvalue, .inl hkappa⟩

theorem rebinds_storeNar (s : NixStore) :
    Rebinds prim libs (dbKey ns (narTag path)) content s (storeNar prim ns path content s) :=
  .trans (.of_store (fun h => h.blobPut content) rfl fun _ _ _ _ => rfl) (rebinds_tagSet _ _ _)

section

variable (prim : Primitives) (ns path : String) (content : Bytes)

theorem settle_cases (name : String)
    (n : NarInfo libs.nix) (s : NixStore) : settle prim libs ns path content name n s = s ∨
      (Unpacks libs content n.narHash ∧
        settle prim libs ns path content name n s = bindNar prim libs ns path n content s) ∨
      settle prim libs ns path content name n s = s.tagDelete ns name := by
  unfold settle
  by_cases hpath : n.narPath = path
  swap
  · rw [if_neg hpath]
    exact .inl rfl
  rw [if_pos hpath]
  cases hverify : decompressAndVerify libs content n.compression n.narHash n.references with
  | ok u => exact .inr (.inl ⟨unpacks_of_verify hverify, rfl⟩)
  | error e => exact .inr (.inr rfl)

theorem deferredCheck_cases (s : NixStore)
    (tag : TagEntry) : deferredCheck prim libs ns path content s tag = s ∨
      (∃ n : NarInfo libs.nix, Unpacks libs content n.narHash ∧
        deferredCheck prim libs ns path content s tag = bindNar prim libs ns path n content s) ∨
      ∃ hash, deferredCheck prim libs ns path content s tag = s.tagDelete ns (narInfoTag hash) := by
  unfold deferredCheck
  by_cases hstarts : startsWith tag.name "narinfo:" = true
  swap
  · rw [if_neg hstarts]
    exact .inl rfl
  obtain ⟨hash, hname⟩ := startsWith_iff.mp hstarts
  rw [if_pos hstarts]
  cases storedNarInfo libs s tag.kappa with
  | none => exact .inl rfl
  | some n =>
    rw [Option.elim_some]
    rcases settle_cases prim ns path content tag.name n s with heq | ⟨hunpacks, heq⟩ | heq
    · exact .inl heq
    · exact .inr (.inl ⟨n, hunpacks, heq⟩)
    · refine .inr (.inr ⟨hash, ?_⟩)
      rw [heq, hname]
      rfl

end

theorem BoundTo.tagDelete (h : BoundTo prim s ns path content) (hash : String) :
    BoundTo prim (s.tagDelete ns (narInfoTag hash)) ns path content := by
  obtain ⟨value, hvalue, hserves⟩ := h
  refine ⟨value, ?_, hserves⟩
  show (s.store.tags.erase (dbKey ns (narInfoTag hash)))[_]? = _
  rw [get_erase, if_neg]
  · exact hvalue
  · intro heq
    exact narTag_ne_narInfoTag path hash (dbKey_cancel heq).symm

theorem foldl_deferredCheck (libs : NarLibs) {s s' : NixStore} (hns : NulFree ns) (tags : List TagEntry)
    (hrebinds : Rebinds prim libs (dbKey ns (narTag path)) content s s')
    (hbound : BoundTo prim s' ns path content) :
    Rebinds prim libs (dbKey ns (narTag path)) content s
        (tags.foldl (deferredCheck prim libs ns path content) s') ∧
      BoundTo prim (tags.foldl (deferredCheck prim libs ns path content) s') ns path content := by
  induction tags generalizing s' with
  | nil => exact ⟨hrebinds, hbound⟩
  | cons tag tags ih =>
    rw [foldl_cons]
    rcases deferredCheck_cases prim ns path content s' tag with
      heq | ⟨n, hunpacks, heq⟩ | ⟨hash, heq⟩
    · rw [heq]
      exact ih hrebinds hbound
    · rw [heq]
      exact ih (hrebinds.trans (rebinds_bindNar hunpacks s')) (boundTo_bindNar n s')
    · rw [heq]
      exact ih (hrebinds.trans (rebinds_tagDelete hns s' hash)) (hbound.tagDelete hash)

/-! ## Storing path infos -/

variable {store : PersistentStore}

theorem OwnLabels.edgePut (h : OwnLabels prim store.blobs) (edge : Edge) :
    OwnLabels prim (store.edgePut prim ns edge).blobs := by
  rw [PersistentStore.edgePut, VersionStore.edgeUpsert_blobs]
  exact h.insertIfNew (prim.edgeBytes edge)

theorem OwnLabels.edgePutBatch (h : OwnLabels prim store.blobs) (edges : List Edge) :
    OwnLabels prim (store.edgePutBatch prim ns edges).blobs := by
  unfold PersistentStore.edgePutBatch
  induction edges generalizing store with
  | nil => exact h
  | cons edge edges ih =>
    rw [foldl_cons]
    exact ih (h.insertIfNew (prim.edgeBytes edge))

theorem tags_edgePutBatch (store : PersistentStore) (edges : List Edge) :
    (store.edgePutBatch prim ns edges).tags = store.tags := by
  unfold edgePutBatch
  induction edges generalizing store with
  | nil => rfl
  | cons edge edges ih =>
    rw [foldl_cons]
    exact ih _

theorem tags_putEdges (kappa : String) (n : NarInfo libs.nix) (store : PersistentStore) :
    (putEdges prim libs ns kappa n store).tags = store.tags := by
  unfold putEdges
  cases n.deriver with
  | none => exact tags_edgePutBatch store _
  | some deriver => exact (edgePut_others prim _ ns _).1.trans (tags_edgePutBatch store _)

theorem OwnLabels.putEdges (h : OwnLabels prim store.blobs) (kappa : String) (n : NarInfo libs.nix) :
    OwnLabels prim (putEdges prim libs ns kappa n store).blobs := by
  unfold Nix.putEdges
  cases n.deriver with
  | none => exact h.edgePutBatch _
  | some deriver => exact (h.edgePutBatch _).edgePut _

theorem storeNarInfo_frame (prim : Primitives) (ns : String) (n : NarInfo libs.nix) (bytes : Bytes)
    (s : NixStore) :
    (Labelled prim s → Labelled prim (storeNarInfo prim libs ns n bytes s)) ∧
      (storeNarInfo prim libs ns n bytes s).compressionRecords = s.compressionRecords ∧
      ∀ ns' path', NulFree ns → NulFree ns' →
        (storeNarInfo prim libs ns n bytes s).store.tags[dbKey ns' (narTag path')]? =
          s.store.tags[dbKey ns' (narTag path')]? := by
  refine ⟨?_, rfl, ?_⟩
  · intro hl
    refine ⟨OwnLabels.putEdges ?_ _ n, hl.files⟩
    exact (hl.blobPut bytes).blobs
  · intro ns' path' hns hns'
    show (putEdges prim libs ns _ n _).tags[_]? = _
    rw [tags_putEdges]
    show (s.store.tags.insert (dbKey ns (narInfoTag _)) _)[_]? = _
    rw [get_insert, if_neg (narRow_ne hns hns' path' _)]

theorem step_narInfoPut (s : NixStore) {urlHash : String} {body : Bytes}
    (hread : readNarInfo libs urlHash (bodyBytes narInfoLimit body) = .ok n) :
    step prim libs s (.narInfoPut ns urlHash body) = ((checkStoredNar prim libs ns n s).map
        (storeNarInfo prim libs ns n (bodyBytes narInfoLimit body))).toOption.getD s := by
  show (narInfoPut prim libs ns urlHash body s).toOption.getD s = _
  unfold narInfoPut
  dsimp only
  rw [hread]
  show (checkStoredNar prim libs ns n s >>= fun checked =>
    pure (storeNarInfo prim libs ns n (bodyBytes narInfoLimit body) checked)).toOption.getD s = _
  cases checkStoredNar prim libs ns n s with
  | error e | ok checked => rfl

/-! ## The invariant -/

variable {last last' : String → String → Option Bytes}

theorem nixInv_new (encrypted : Bool) : NixInv prim libs (.new encrypted) fun _ _ => none := by
  exact ⟨⟨nofun, nofun⟩, nofun, nofun⟩

theorem NixInv.frame (h : NixInv prim libs s last) (hlabelled : Labelled prim s → Labelled prim s')
    (hrecords : s'.compressionRecords = s.compressionRecords) (hrows : ∀ ns path, NulFree ns →
      s'.store.tags[dbKey ns (narTag path)]? = s.store.tags[dbKey ns (narTag path)]?) :
    NixInv prim libs s' last := by
  refine ⟨hlabelled h.labelled, ?_, ?_⟩
  · intro hash record hrecord
    rw [hrecords] at hrecord
    exact h.hashes hash record hrecord
  · intro ns path value hns hrow
    rw [hrows ns path hns] at hrow
    unfold Serves
    rw [hrecords]
    exact h.bound ns path value hns hrow

theorem NixInv.rebind (h : NixInv prim libs s last) (hns : NulFree ns)
    (hrebinds : Rebinds prim libs (dbKey ns (narTag path)) content s s')
    (hbound : BoundTo prim s' ns path content) (halone : Alone prim libs s ns path content)
    (hown : last' ns path = some content)
    (hothers : ∀ ns' path', ¬ (ns' = ns ∧ path' = path) → last' ns' path' = last ns' path') :
    NixInv prim libs s' last' := by
  refine ⟨hrebinds.labelled h.labelled, ?_, ?_⟩
  · intro hash record hrecord
    rcases hrebinds.records hash record hrecord with hold | ⟨-, compression, nar, -, hhash⟩
    · exact h.hashes hash record hold
    · exact ⟨nar, hhash⟩
  intro ns' path' value hns' hrow
  by_cases hsame : dbKey ns' (narTag path') = dbKey ns (narTag path)
  · obtain ⟨rfl, htag⟩ := (PersistentStore.dbKey_inj hns' hns).mp hsame
    obtain rfl := narTag_inj htag
    obtain ⟨value', hvalue', hserves⟩ := hbound
    rw [hvalue'] at hrow
    cases hrow
    exact ⟨content, hown, hserves⟩
  · have hdiffers : ¬ (ns' = ns ∧ path' = path) := by
      rintro ⟨rfl, rfl⟩
      exact hsame rfl
    rw [hrebinds.rows ns' path' hsame hns'] at hrow
    obtain ⟨content', hlast, hserves⟩ := h.bound ns' path' value hns' hrow
    refine ⟨content', (hothers ns' path' hdiffers).trans hlast, ?_⟩
    rcases hserves with hlabel | ⟨record, hrecord, hkappa⟩
    · exact .inl hlabel
    -- the record may be a new one, but then it is of the same bytes
    obtain ⟨record', hrecord'⟩ := Option.isSome_iff_exists.mp
      (hrebinds.kept value.kappa (Option.isSome_iff_exists.mpr ⟨record, hrecord⟩))
    refine .inr ⟨record', hrecord', ?_⟩
    rcases hrebinds.records value.kappa record' hrecord' with hold | ⟨hnew, hunpacks⟩
    · rw [hrecord] at hold
      rwa [← Option.some.inj hold]
    · rwa [hnew, ← halone value.kappa hunpacks ns' path' value hsame hrow rfl record hrecord]

theorem tagGet_eq_ok {store : PersistentStore} {name : String} {entry : TagEntry}
    (h : store.tagGet ns name = .ok entry) :
    ∃ value : TagValue, store.tags[dbKey ns name]? = some value ∧ value.kappa = entry.kappa := by
  unfold PersistentStore.tagGet at h
  cases hrow : store.tags[dbKey ns name]? with
  | none =>
    simp [hrow] at h
  | some value =>
    rw [hrow] at h
    cases h
    exact ⟨value, rfl, rfl⟩

section

variable (hinj : Function.Injective prim.kappaFromBytes)
  (hform : ∀ content nar, prim.kappaFromBytes content ≠ libs.narHash nar)
include hinj hform

theorem NixInv.last_eq (h : NixInv prim libs s last) (hns : NulFree ns) {value : TagValue}
    (hrow : s.store.tags[dbKey ns (narTag path)]? = some value)
    (hblob : s.store.blobs[value.kappa]? = some content) : last ns path = some content := by
  obtain ⟨content', hlast, hserves⟩ := h.bound ns path value hns hrow
  have hlabel := h.labelled.blobs value.kappa content hblob
  rcases hserves with hown | ⟨record, hrecord, -⟩
  · rw [hlast, hinj (hown.symm.trans hlabel)]
  · obtain ⟨nar, hnar⟩ := h.hashes value.kappa record hrecord
    exact absurd (hlabel.symm.trans hnar) (hform content nar)

theorem NixInv.checkStoredNar (h : NixInv prim libs s last) (hns : NulFree ns) {n : NarInfo libs.nix}
    (halone : ∀ entry content, s.store.tagGet ns (narTag n.narPath) = .ok entry →
      s.store.blobGet entry.kappa = .ok content → Alone prim libs s ns n.narPath content)
    (hcheck : checkStoredNar prim libs ns n s = .ok s') : NixInv prim libs s' last := by
  unfold Nix.checkStoredNar at hcheck
  cases hget : s.store.tagGet ns (narTag n.narPath) with
  | error e =>
    rw [hget] at hcheck
    cases hcheck
    exact h
  | ok entry =>
    rw [hget] at hcheck
    obtain ⟨narBytes, hbytes, hrest⟩ := bind_eq_ok.mp hcheck
    obtain ⟨_, hverify, heq⟩ := bind_eq_ok.mp hrest
    cases heq
    obtain ⟨value, hrow, hkappa⟩ := tagGet_eq_ok hget
    have hblob : s.store.blobs[value.kappa]? = some narBytes := by
      rw [hkappa]
      exact blobGet_eq_ok.mp hbytes
    exact h.rebind hns (rebinds_bindNar (unpacks_of_verify (mapError_eq_ok.mp hverify)) s)
      (boundTo_bindNar n s) (halone entry narBytes hget hbytes) (h.last_eq hinj hform hns hrow hblob)
      (fun _ _ _ => rfl)

theorem NixInv.step (h : NixInv prim libs s last) {req : NixRequest} (horderly : Orderly prim libs s req) :
    NixInv prim libs (step prim libs s req) (note last req) := by
  cases req with
  | narPut ns path body =>
    obtain ⟨hns, hlimit, halone⟩ := horderly
    have hbody : bodyBytes narLimit body = body := if_pos hlimit
    show NixInv prim libs (narPut prim libs ns path body s) _
    unfold Nix.narPut
    rw [hbody]
    obtain ⟨hrebinds, hbound⟩ := foldl_deferredCheck libs hns
      (((storeNar prim ns path body s).store.tagList ns).toOption.getD []) (rebinds_storeNar s)
      (boundTo_storeNar s)
    exact h.rebind hns hrebinds hbound halone (if_pos ⟨rfl, rfl⟩) (fun _ _ hne => if_neg hne)
  | narInfoPut ns urlHash body =>
    obtain ⟨hns, halone⟩ := horderly
    show NixInv prim libs ((narInfoPut prim libs ns urlHash body s).toOption.getD s) last
    cases hput : narInfoPut prim libs ns urlHash body s with
    | error e => exact h
    | ok s' =>
      obtain ⟨n, hread, hrest⟩ := bind_eq_ok.mp hput
      obtain ⟨checked, hcheck, heq⟩ := bind_eq_ok.mp hrest
      cases heq
      have hchecked := h.checkStoredNar hinj hform hns (halone n hread) hcheck
      obtain ⟨hlabelled, hrecords, hrows⟩ := storeNarInfo_frame prim ns n
        (bodyBytes narInfoLimit body) checked
      exact hchecked.frame hlabelled hrecords fun ns' path' hns' => hrows ns' path' hns hns'

theorem NixInv.run (reqs : List NixRequest) (h : NixInv prim libs s last)
    (horderly : OrderlyRun prim libs s reqs) : NixInv prim libs (run prim libs s reqs) (reqs.foldl note last) := by
  induction reqs generalizing s last with
  | nil => exact h
  | cons req reqs ih => exact ih (h.step hinj hform horderly.1) horderly.2

theorem NixInv.narGet (h : NixInv prim libs s last) (hns : NulFree ns)
    (hget : narGet ns path s = .ok content) : last ns path = some content := by
  obtain ⟨entry, hentry, hopen⟩ := bind_eq_ok.mp hget
  obtain ⟨record, hrecord, hfile⟩ := bind_eq_ok.mp hopen
  have hrecord := need_eq_ok.mp hrecord
  have hfile := need_eq_ok.mp hfile
  obtain ⟨value, hrow, hkappa⟩ := tagGet_eq_ok hentry
  obtain ⟨content', hlast, hserves⟩ := h.bound ns path value hns hrow
  have hlabel : record.kappa = prim.kappaFromBytes content := by
    unfold NixStore.fileAt at hfile
    split_ifs at hfile
    · exact h.labelled.files _ _ hfile
    · exact h.labelled.blobs _ _ hfile
  rw [← hkappa] at hrecord
  rcases hserves with hown | ⟨record', hrecord', hkappa'⟩
  · obtain ⟨nar, hnar⟩ := h.hashes value.kappa record hrecord
    exact absurd (hown.symm.trans hnar) (hform content' nar)
  · rw [hrecord] at hrecord'
    cases hrecord'
    rw [hlast, hinj (hlabel.symm.trans hkappa')]

end

/-! ## Whole runs -/

/-- **A download gives the last upload or nothing**, after every run of requests that meet the
condition. -/
theorem nar_served (prim : Primitives) (libs : NarLibs) (hinj : Function.Injective prim.kappaFromBytes)
    (hform : ∀ content nar, prim.kappaFromBytes content ≠ libs.narHash nar) (encrypted : Bool)
    (reqs : List NixRequest) (horderly : OrderlyRun prim libs (.new encrypted) reqs) (ns path : String)
    (hns : NulFree ns) :
    (∃ e, narGet ns path (run prim libs (.new encrypted) reqs) = .error e) ∨
      ∃ content, lastPut reqs ns path = some content ∧
        narGet ns path (run prim libs (.new encrypted) reqs) = .ok content := by
  have hinv := (nixInv_new encrypted).run hinj hform reqs horderly
  cases hget : narGet ns path (run prim libs (.new encrypted) reqs) with
  | error e => exact .inl ⟨e, rfl⟩
  | ok content => exact .inr ⟨content, hinv.narGet hinj hform hns hget, rfl⟩

/-- Labels that tell all byte strings apart, for concrete runs: one character for each byte. -/
def samplePrimitives : Primitives :=
  { Primitives.sample with
    kappaFromBytes := fun bytes => String.ofList ('k' :: bytes.map fun b => Char.ofNat b.toNat) }

/-- A compression that puts one byte in front, for concrete runs. -/
def NarLibs.sample : NarLibs where
  nix := .sample
  sha256 := id
  nixbase32 := hexEncode
  digest _ := [0]
  zstd data := .ok (data.drop 1)
  xz _ := .error "corrupt"
  bzip2 _ := .error "corrupt"
  debugTexts _ := ""
  displayNarInfoError _ := ""

/-- A path info of the NAR `01`. -/
def infoText (path compression : String) : Bytes :=
  textBytes ("StorePath: /\nURL: " ++ path ++ "\nCompression: " ++ compression ++
    "\nNarHash: sha256:01\nNarSize: 1")

def infoOf (path compression : String) : NarInfo NarLibs.sample.nix where
  storePath := ⟨"/", by decide⟩
  url := path
  compression := compression
  fileHash := none
  fileSize := none
  narHash := "sha256:01"
  narSize := 1
  references := []
  deriver := none
  signatures := []
  ca := none

instance : DecidableEq NarLibs.sample.nix.StorePath :=
  inferInstanceAs (DecidableEq { text : String // text.toList.all isNixChar = true })

instance : DecidableEq (NarInfo NarLibs.sample.nix)
  | .mk .., .mk .. => decidable_of_iff' _ (NarInfo.mk.injEq ..).to_iff

theorem readNarInfo_none : readNarInfo .sample "00" (bodyBytes narInfoLimit (infoText "a" "none")) =
    .ok (infoOf "a" "none") :=
  toOption_eq_some.mp (by decide +kernel)

theorem readNarInfo_zstd : readNarInfo .sample "00" (bodyBytes narInfoLimit (infoText "b" "zstd")) =
    .ok (infoOf "b" "zstd") :=
  toOption_eq_some.mp (by decide +kernel)

/-- A NAR, and then its path info. -/
def uploadOnce : List NixRequest := [.narPut "n" "a" [1], .narInfoPut "n" "00" (infoText "a" "none")]

theorem kappa_ne_narHash (content nar : Bytes) :
    samplePrimitives.kappaFromBytes content ≠ NarLibs.sample.narHash nar := by
  intro heq
  have hchar := congrArg (fun text : String => text.toList[0]?) heq
  simp [samplePrimitives, NarLibs.narHash] at hchar

theorem nar_served_once :
    let served := narGet "n" "a" (run samplePrimitives .sample (.new false) uploadOnce)
    served.toOption = some [1] ∧ ((∃ e, served = .error e) ∨
      ∃ content, lastPut uploadOnce "n" "a" = some content ∧ served = .ok content) := by
  refine ⟨?_, nar_served samplePrimitives .sample SampleCodec.byteLabel_injective kappa_ne_narHash false
    uploadOnce ⟨⟨by decide, by decide, nofun⟩, ⟨by decide, ?_⟩, trivial⟩ "n" "a" (by decide)⟩
  · unfold run uploadOnce
    rw [foldl_cons, foldl_cons, foldl_nil, step_narInfoPut _ readNarInfo_none]
    decide +kernel
  · -- the upload alone makes no record
    have hrecords : (step samplePrimitives .sample (.new false)
        (.narPut "n" "a" [1])).compressionRecords.isEmpty = true := by decide +kernel
    intro n _ entry content _ _ hash _ ns' path' value _ _ _ record hrecord
    simp [Std.ExtTreeMap.isEmpty_iff.mp hrecords] at hrecord

def uploadTwice : List NixRequest :=
  [.narPut "n" "a" [1], .narPut "n" "b" [7, 1], .narInfoPut "n" "00" (infoText "a" "none"),
    .narInfoPut "n" "00" (infoText "b" "zstd")]

/-- The download of the first form gives the second. -/
theorem nar_replaced :
    lastPut uploadTwice "n" "a" = some [1] ∧
      (narGet "n" "a" (run samplePrimitives .sample (.new false) uploadTwice)).toOption = some [7, 1] := by
  refine ⟨by decide, ?_⟩
  unfold run uploadTwice
  rw [foldl_cons, foldl_cons, foldl_cons, foldl_cons, foldl_nil,
    step_narInfoPut _ readNarInfo_none, step_narInfoPut _ readNarInfo_zstd]
  decide +kernel

end KappaRegistry.Nix
