import KappaRegistry.Crypto.Sample

/-!
# Signed Chunk Streams

The streaming part of `kappa-core/src/crypto/sigv4.rs`: an upload arrives as a sequence of chunks,
each with a signature that covers its data and the signature before it, then a chunk of length
zero, and then trailing headers with a signature of their own. The source is the bytes it gives before
it ends, in an end of file or in an error.

What a run of `next_chunk` calls returned is `Authentic` if the stream was a chain of signed chunks with
these data, closed by a signed chunk of length zero, and the trailers, if any, were signed. The parser
also takes the end of the stream for the end of the chain, and trailers without a signature for
signed ones; `nextChunk_authentic_iff` says that these are the only gaps.
-/

namespace KappaRegistry.SigV4

open Lib

/-! ## Signatures of chunks and trailers -/

/-- The inputs that all signatures of a stream share. -/
structure StreamKeys where
  signingKey : Bytes
  datetime : String
  date : String
  region : String
  service : String

def algorithmChunk : String := "AWS4-HMAC-SHA256-PAYLOAD"

def algorithmTrailer : String := "AWS4-HMAC-SHA256-TRAILER"

def maxChunkSize : ℕ := 5 * 1024 * 1024 * 1024

def maxChunkCount : ℕ := 100000

def maxTrailerBytes : ℕ := 16 * 1024

section

variable (hash : MacHash) (keys : StreamKeys)

def emptySha256 : String := sha256Hex hash []

def StreamKeys.scope : String :=
  keys.date ++ "/" ++ keys.region ++ "/" ++ keys.service ++ "/" ++ aws4Request

variable (prevSignature : String) (chunkData : Bytes)

def createChunkStringToSign : String :=
  let chunkHash := if chunkData.isEmpty then emptySha256 hash else sha256Hex hash chunkData
  algorithmChunk ++ "\n" ++ keys.datetime ++ "\n" ++ keys.scope ++ "\n" ++ prevSignature ++ "\n" ++
    emptySha256 hash ++ "\n" ++ chunkHash

def computeChunkSignature : String :=
  computeSignature hash keys.signingKey (createChunkStringToSign hash keys prevSignature chunkData)

def verifyChunkSignature (claimedSignature : String) : Except SigV4Error Unit :=
  verifySignature (computeChunkSignature hash keys prevSignature chunkData) claimedSignature

def createTrailerStringToSign (canonicalTrailers : Bytes) : String :=
  algorithmTrailer ++ "\n" ++ keys.datetime ++ "\n" ++ keys.scope ++ "\n" ++ prevSignature ++ "\n" ++
    sha256Hex hash canonicalTrailers

def computeTrailerSignature (canonicalTrailers : Bytes) : String :=
  computeSignature hash keys.signingKey
    (createTrailerStringToSign hash keys prevSignature canonicalTrailers)

def verifyTrailerSignature (canonicalTrailers : Bytes)
    (claimedSignature : String) : Except SigV4Error Unit :=
  verifySignature (computeTrailerSignature hash keys prevSignature canonicalTrailers) claimedSignature

end

/-! ## The line in front of a chunk -/

structure ChunkMeta where
  size : ℕ
  signature : Option String
  deriving DecidableEq

variable (line stream : Bytes) (r : Reader)

def stripCrlf : Except SigV4Error Bytes :=
  if [13, 10] <:+ line then .ok (line.take (line.length - 2))
  else .error (.chunkParseFailed "missing CRLF")

/-- The size and the extension, which a semicolon separates. -/
def cutExtension : Bytes × Option Bytes :=
  match splitOnce 59 line with
  | some (size, ext) => (size, some ext)
  | none => (line, none)

def parseChunkSize (sizePart : Bytes) : Except SigV4Error ℕ := do
  let sizeStr ← need (fromUtf8 sizePart) (.chunkParseFailed "size not utf8")
  let size ← (parseRadix 16 (2 ^ 64 - 1) sizeStr).mapError fun e =>
    .chunkParseFailed ("invalid hex size '" ++ sizeStr ++ "': " ++ e.display)
  ensure (size ≤ maxChunkSize) (.chunkSizeExceeded size maxChunkSize)
  return size

def parseChunkExtension (ext : Bytes) : Except SigV4Error String := do
  let extStr ← need (fromUtf8 ext) (.chunkParseFailed "extension not utf8")
  let sig ← need ((stripPrefix extStr "chunk-signature=").or
    (stripPrefix extStr "chunk-signature-sha256="))
    (.chunkParseFailed ("unknown chunk extension: " ++ extStr))
  ensure (sig.toList.all (fun c => (digitValue 16 c).isSome) = true)
    (.chunkParseFailed "signature not hex")
  return sig

def parseChunkMeta : Except SigV4Error ChunkMeta := do
  let line ← stripCrlf line
  let size ← parseChunkSize (cutExtension line).1
  match (cutExtension line).2 with
  | some ext =>
    let sig ← parseChunkExtension ext
    return ⟨size, some sig⟩
  | none => return ⟨size, none⟩

/-! ## The parser -/

/-- An error of the source of bytes. -/
structure IoError where
  unexpectedEof : Bool
  text : String
  deriving DecidableEq

/-- A source of bytes: what it gives, and how it ends. -/
structure Reader where
  bytes : Bytes
  failure : Option IoError
  deriving DecidableEq

/-- The source after some bytes were taken from it. -/
def Reader.advance (rest : Bytes) : Reader := { r with bytes := rest }

structure ChunkStreamParser where
  reader : Reader
  keys : StreamKeys
  prevSignature : String
  signed : Bool
  chunkCount : ℕ
  finished : Bool

def ChunkStreamParser.new (reader : Reader) (keys : StreamKeys) (seedSignature : String)
    (signed : Bool) : ChunkStreamParser where
  reader
  keys
  prevSignature := seedSignature
  signed
  chunkCount := 0
  finished := false

/-- How the reading of a line ends. -/
inductive LineRead where
  | line (line rest : Bytes)
  | eof (line : Bytes)
  | tooLong (rest : Bytes)
  | failed (e : IoError)

/-- The line is read byte by byte; the first argument is what was read of it. -/
def readLine (failure : Option IoError) : Bytes → Bytes → LineRead
  | lineBuf, [] =>
    match failure with
    | none => .eof lineBuf
    | some e => .failed e
  | lineBuf, b :: rest =>
    if b = 10 then .line (lineBuf ++ [b]) rest
    else if (lineBuf ++ [b]).length > 1024 then .tooLong rest
    else readLine failure (lineBuf ++ [b]) rest

/-- `read_exact`: what was read, and the rest. -/
def Reader.readExact (n : ℕ) : Except String (Bytes × Bytes) :=
  if n ≤ r.bytes.length then .ok (r.bytes.take n, r.bytes.drop n)
  else .error ((r.failure.map IoError.text).getD "failed to fill whole buffer")

namespace ChunkStreamParser

variable (hash : MacHash) (p : ChunkStreamParser)

/-- The signature to chain on, after the one of a chunk was checked. -/
def checkChunk (signature : Option String) (data : Bytes) : Except SigV4Error String :=
  if p.signed then do
    let claimed ← need signature (.chunkParseFailed "signed mode requires chunk signature")
    verifyChunkSignature hash p.keys p.prevSignature data claimed
    return claimed
  else .ok p.prevSignature

/-- The data of a chunk, up to the line end behind it, and the rest. -/
def readData (size : ℕ) : Except SigV4Error Bytes × Bytes :=
  match p.reader.readExact size with
  | .error e => (.error (.chunkParseFailed ("reading chunk data: " ++ e)), [])
  | .ok (data, rest) =>
    match (p.reader.advance rest).readExact 2 with
    | .error e => (.error (.chunkParseFailed ("reading chunk CRLF: " ++ e)), [])
    | .ok (crlf, rest) =>
      if crlf = [13, 10] then (.ok data, rest)
      else (.error (.chunkParseFailed "missing CRLF after chunk data"), rest)

/-- What follows the line of a chunk; the parser stands behind the line. -/
def finishChunk (info : ChunkMeta) : Except SigV4Error (Option Bytes) × ChunkStreamParser :=
  if info.size = 0 then
    let p := { p with finished := true }
    match p.checkChunk hash info.signature [] with
    | .error e => (.error e, p)
    | .ok prev => (.ok none, { p with prevSignature := prev })
  else
    let (result, rest) := p.readData info.size
    let p := { p with reader := p.reader.advance rest }
    match result with
    | .error e => (.error e, p)
    | .ok data =>
      match p.checkChunk hash info.signature data with
      | .error e => (.error e, p)
      | .ok prev => (.ok (some data), { p with prevSignature := prev })

/-- The next data chunk, or `none` at the end. -/
def nextChunk : Except SigV4Error (Option Bytes) × ChunkStreamParser :=
  if p.finished then (.ok none, p)
  else
    let p := { p with chunkCount := p.chunkCount + 1 }
    if p.chunkCount > maxChunkCount then (.error (.chunkCountExceeded maxChunkCount), p)
    else
      match readLine p.reader.failure [] p.reader.bytes with
      | .eof line =>
        let p := { p with reader := p.reader.advance [], finished := true }
        if line.isEmpty then (.ok none, p)
        else (.error (.chunkParseFailed "unexpected EOF in chunk meta"), p)
      | .failed e => (.error (.chunkParseFailed e.text), { p with reader := p.reader.advance [] })
      | .tooLong rest =>
        (.error (.chunkParseFailed "chunk meta line too long"),
          { p with reader := p.reader.advance rest })
      | .line line rest =>
        let p := { p with reader := p.reader.advance rest }
        match parseChunkMeta line with
        | .error e => (.error e, p)
        | .ok info => p.finishChunk hash info

end ChunkStreamParser

open ChunkStreamParser

/-! ## Trailers -/

def Reader.readRest : Except SigV4Error Bytes :=
  if r.bytes.length > maxTrailerBytes then
    .error (.trailerTooLarge (maxTrailerBytes + 1) maxTrailerBytes)
  else
    match r.failure with
    | none => .ok r.bytes
    | some e => if e.unexpectedEof then .ok r.bytes else .error (.chunkParseFailed e.text)

/-- A line without a carriage return at its end. -/
def stripCr : Bytes := if [13] <:+ line then line.take (line.length - 1) else line

def parseTrailer : Except SigV4Error (String × String) := do
  let (name, value) ← need (splitOnce 58 line) (.chunkParseFailed "trailer header missing colon")
  let name ← need (fromUtf8 name) (.chunkParseFailed "trailer name not utf8")
  let value ← need (fromUtf8 value) (.chunkParseFailed "trailer value not utf8")
  return (asciiLower name, trim value)

/-- The headers and the signature of a block of header lines; the last signature counts. -/
def parseTrailers (buf : Bytes) : Except SigV4Error (List (String × String) × Option String) := do
  let headers ← (((pieces 10 buf).map stripCr).filter fun line => !line.isEmpty).mapM parseTrailer
  let signatures := headers.filter fun header => header.1 == "x-amz-trailer-signature"
  return (headers.filter fun header => header.1 != "x-amz-trailer-signature",
    signatures.getLast?.map Prod.snd)

def canonicalTrailers (entries : List (String × String)) : Bytes :=
  entries.flatMap fun (n, v) => textBytes n ++ 58 :: textBytes v ++ [10]

/-- The headers in the order in which they are signed. -/
def sortTrailers (entries : List (String × String)) : List (String × String) :=
  entries.insertionSort fun a b => a.1 ≤ b.1

/-- The trailing headers, after `next_chunk` returned `none`. -/
def ChunkStreamParser.readTrailers (hash : MacHash) (p : ChunkStreamParser) :
    Except SigV4Error (List (String × String)) := do
  let buf ← p.reader.readRest
  if buf.isEmpty || buf = [13, 10] then return []
  else
    let (entries, trailerSignature) ← parseTrailers buf
    match trailerSignature with
    | none => return entries
    | some claimed =>
      verifyTrailerSignature hash p.keys p.prevSignature (canonicalTrailers (sortTrailers entries))
        claimed
      return sortTrailers entries

/-! ## The format of a stream -/

/-- A line, up to and with its line feed. -/
def IsLine : Prop := ∃ l, line = l ++ [10] ∧ 10 ∉ l

/-- The stream starts with a chunk of these data. -/
def ChunkAt (info : ChunkMeta) (data rest : Bytes) : Prop :=
  ∃ line, IsLine line ∧ parseChunkMeta line = .ok info ∧ info.size = data.length ∧ data ≠ [] ∧
    stream = line ++ (data ++ 13 :: 10 :: rest)

/-- The stream starts with a chunk of length zero. -/
def FinalAt (signature : Option String) (rest : Bytes) : Prop :=
  ∃ line, IsLine line ∧ parseChunkMeta line = .ok ⟨0, signature⟩ ∧ stream = line ++ rest

/-- The stream starts with chunks of these data, whatever their signatures are. -/
inductive Chunks : Bytes → List Bytes → Bytes → Prop where
  | nil {stream : Bytes} : Chunks stream [] stream
  | cons {stream data rest stream' : Bytes} {info : ChunkMeta} {ds : List Bytes} :
    ChunkAt stream info data rest → Chunks rest ds stream' → Chunks stream (data :: ds) stream'

/-- The stream ends behind a chunk of data, or is empty. -/
def Truncated : Prop := ∃ ds, Chunks stream ds []

/-- What follows the chunk of length zero. -/
def TrailersAt (block : Bytes) : Prop :=
  ∃ ds rest signature, Chunks stream ds rest ∧ FinalAt rest signature block

def SignedIfAny (block : Bytes) : Prop :=
  ∀ entries signature, parseTrailers block = .ok (entries, signature) → entries ≠ [] →
    signature ≠ none

section

variable (hash : MacHash) (keys : StreamKeys)

/-- The stream starts with a chain of signed chunks: each signature is the one computed from the
data and the signature before. -/
inductive Chain : String → Bytes → List Bytes → String → Bytes → Prop where
  | nil {prev : String} {stream : Bytes} : Chain prev stream [] prev stream
  | cons {prev signature prev' : String} {stream data rest stream' : Bytes} {ds : List Bytes} :
    ChunkAt stream ⟨data.length, some signature⟩ data rest →
    signature = computeChunkSignature hash keys prev data →
    Chain signature rest ds prev' stream' → Chain prev stream (data :: ds) prev' stream'

/-- The stream is the chain of these chunks and a signed chunk of length zero, and goes on with a
block of trailers. -/
def Complete (seed : String) (stream : Bytes) (chunks : List Bytes) : Prop :=
  ∃ prev rest signature block, Chain hash keys seed stream chunks prev rest ∧
    FinalAt rest (some signature) block ∧ signature = computeChunkSignature hash keys prev []

/-- **What a run should have seen**: the chain of the chunks it returned, a signed chunk of length
zero, and a signature for the trailers it returned. -/
def Authentic (seed : String) (stream : Bytes) (chunks : List Bytes)
    (trailers : List (String × String)) : Prop :=
  ∃ prev rest signature block, Chain hash keys seed stream chunks prev rest ∧
    FinalAt rest (some signature) block ∧ signature = computeChunkSignature hash keys prev [] ∧
    (trailers = [] ∨ ∃ entries claimed, parseTrailers block = .ok (entries, some claimed) ∧
      trailers = sortTrailers entries ∧
      claimed = computeTrailerSignature hash keys signature (canonicalTrailers trailers))

end

/-! ## The format can be read in one way -/

variable {line rest rest' : Bytes}

theorem line_append_inj {line' : Bytes} (h : IsLine line) (h' : IsLine line')
    (heq : line ++ rest = line' ++ rest') : line = line' ∧ rest = rest' := by
  obtain ⟨l, rfl, hl⟩ := h
  obtain ⟨l', rfl, hl'⟩ := h'
  have hcut := splitOnce_eq_some.mpr (⟨rfl, hl⟩ : l ++ 10 :: rest = l ++ 10 :: rest ∧ 10 ∉ l)
  have hcut' := splitOnce_eq_some.mpr (⟨rfl, hl'⟩ : l' ++ 10 :: rest' = l' ++ 10 :: rest' ∧ 10 ∉ l')
  have hsame : l ++ 10 :: rest = l' ++ 10 :: rest' := by simpa using heq
  rw [hsame, hcut'] at hcut
  obtain ⟨rfl, rfl⟩ := Prod.mk.inj (Option.some.inj hcut)
  exact ⟨rfl, rfl⟩

variable {stream data : Bytes} {info : ChunkMeta}

theorem ChunkAt.unique {data' : Bytes} {info' : ChunkMeta}
    (h : ChunkAt stream info data rest) (h' : ChunkAt stream info' data' rest') : rest = rest' := by
  obtain ⟨line, hline, hmeta, hsize, -, rfl⟩ := h
  obtain ⟨line', hline', hmeta', hsize', -, heq⟩ := h'
  obtain ⟨rfl, hrest⟩ := line_append_inj hline hline' heq
  obtain rfl := Except.ok.inj (hmeta.symm.trans hmeta')
  obtain ⟨-, htail⟩ := List.append_inj hrest (hsize.symm.trans hsize')
  simpa using htail

theorem FinalAt.unique {sig sig' : Option String}
    (h : FinalAt stream sig rest) (h' : FinalAt stream sig' rest') : rest = rest' := by
  obtain ⟨line, hline, -, rfl⟩ := h
  obtain ⟨line', hline', -, heq⟩ := h'
  exact (line_append_inj hline hline' heq).2

variable {sig : Option String}

theorem ChunkAt.not_finalAt (h : ChunkAt stream info data rest) : ¬ FinalAt stream sig rest' := by
  rintro ⟨line', hline', hmeta', heq⟩
  obtain ⟨line, hline, hmeta, hsize, hne, rfl⟩ := h
  obtain ⟨rfl, -⟩ := line_append_inj hline hline' heq
  obtain rfl := Except.ok.inj (hmeta.symm.trans hmeta')
  exact hne (List.eq_nil_of_length_eq_zero hsize.symm)

theorem FinalAt.ne_nil (h : FinalAt stream sig rest) : stream ≠ [] := by
  obtain ⟨line, ⟨l, rfl, -⟩, -, rfl⟩ := h
  simp

theorem ChunkAt.ne_nil (h : ChunkAt stream info data rest) : stream ≠ [] := by
  obtain ⟨line, ⟨l, rfl, -⟩, -, -, -, rfl⟩ := h
  simp

variable {block : Bytes} {ds : List Bytes}

theorem Chunks.final_unique {block' : Bytes} {ds' : List Bytes}
    {sig sig' : Option String} (h : Chunks stream ds rest) (hfinal : FinalAt rest sig block)
    (h' : Chunks stream ds' rest') (hfinal' : FinalAt rest' sig' block') : block = block' := by
  induction h generalizing ds' with
  | nil =>
    cases h' with
    | nil => exact hfinal.unique hfinal'
    | cons hchunk _ => exact absurd hfinal hchunk.not_finalAt
  | cons hchunk _ ih =>
    cases h' with
    | nil => exact absurd hfinal' hchunk.not_finalAt
    | cons hchunk' hrest' =>
      rw [← hchunk.unique hchunk'] at hrest'
      exact ih hfinal hrest'

theorem Chunks.not_truncated (h : Chunks stream ds rest)
    (hfinal : FinalAt rest sig block) : ¬ Truncated stream := by
  rintro ⟨ds', h'⟩
  induction h generalizing ds' with
  | nil =>
    cases h' with
    | nil => exact hfinal.ne_nil rfl
    | cons hchunk _ => exact hchunk.not_finalAt hfinal
  | cons hchunk _ ih =>
    cases h' with
    | nil => exact hchunk.ne_nil rfl
    | cons hchunk' hrest' =>
      rw [← hchunk.unique hchunk'] at hrest'
      exact ih hfinal _ hrest'

variable {hash : MacHash}

theorem Chain.chunks {keys : StreamKeys} {prev prev' : String}
    (h : Chain hash keys prev stream ds prev' rest) : Chunks stream ds rest := by
  induction h with
  | nil => exact .nil
  | cons hchunk _ _ ih => exact .cons hchunk ih

/-! ## One call -/

variable {failure : Option IoError}

theorem readLine_eq_line {lineBuf bytes line rest : Bytes}
    (hbuf : 10 ∉ lineBuf) (h : readLine failure lineBuf bytes = .line line rest) :
    IsLine line ∧ lineBuf ++ bytes = line ++ rest := by
  induction bytes generalizing lineBuf with
  | nil => cases failure <;> simp [readLine] at h
  | cons b bytes ih =>
    rw [readLine] at h
    by_cases hb : b = 10
    · rw [if_pos hb] at h
      obtain ⟨rfl, rfl⟩ := LineRead.line.inj h
      exact ⟨⟨lineBuf, by rw [hb], hbuf⟩, by simp⟩
    · rw [if_neg hb] at h
      by_cases hlong : (lineBuf ++ [b]).length > 1024
      · rw [if_pos hlong] at h
        cases h
      · rw [if_neg hlong] at h
        have hnot : 10 ∉ lineBuf ++ [b] := by simp [hbuf, Ne.symm hb]
        obtain ⟨hline, happend⟩ := ih hnot h
        exact ⟨hline, by rw [← happend]; simp⟩

theorem readLine_eq_eof {lineBuf bytes line : Bytes}
    (h : readLine failure lineBuf bytes = .eof line) : line = lineBuf ++ bytes := by
  induction bytes generalizing lineBuf with
  | nil =>
    cases failure with
    | none => simpa [readLine, eq_comm] using h
    | some e => simp [readLine] at h
  | cons b bytes ih =>
    rw [readLine] at h
    by_cases hb : b = 10
    · simp [if_pos hb] at h
    · rw [if_neg hb] at h
      by_cases hlong : (lineBuf ++ [b]).length > 1024
      · rw [if_pos hlong] at h
        cases h
      · rw [if_neg hlong] at h
        rw [ih h]
        simp

theorem Reader.readExact_eq_ok {r : Reader} {n : ℕ}
    (h : r.readExact n = .ok (data, rest)) : r.bytes = data ++ rest ∧ data.length = n := by
  unfold Reader.readExact at h
  by_cases hn : n ≤ r.bytes.length
  · rw [if_pos hn] at h
    obtain ⟨rfl, rfl⟩ := Prod.mk.inj (Except.ok.inj h)
    exact ⟨(List.take_append_drop n r.bytes).symm, by simp [hn]⟩
  · simp [if_neg hn] at h

namespace ChunkStreamParser

variable {hash : MacHash} {p p' : ChunkStreamParser} {data : Bytes}

theorem checkChunk_eq_ok (hsigned : p.signed = true) {signature : Option String} {prev : String}
    (h : p.checkChunk hash signature data = .ok prev) :
    signature = some prev ∧ prev = computeChunkSignature hash p.keys p.prevSignature data := by
  simp only [checkChunk, hsigned, if_true, bind_eq_ok, need_eq_ok, verifyChunkSignature,
    pure_eq_ok] at h
  obtain ⟨claimed, hclaimed, u, hverify, rfl⟩ := h
  exact ⟨hclaimed, (verifySignature_eq_ok.mp hverify).symm⟩

theorem readData_eq_ok {size : ℕ} {rest : Bytes} (h : p.readData size = (.ok data, rest)) :
    p.reader.bytes = data ++ 13 :: 10 :: rest ∧ data.length = size := by
  unfold readData at h
  cases hdata : p.reader.readExact size with
  | error e => simp [hdata] at h
  | ok taken =>
    obtain ⟨d, r⟩ := taken
    obtain ⟨hbytes, hlen⟩ := Reader.readExact_eq_ok hdata
    cases hcrlf : (p.reader.advance r).readExact 2 with
    | error e => simp [hdata, hcrlf] at h
    | ok taken' =>
      obtain ⟨crlf, r'⟩ := taken'
      obtain ⟨hr, -⟩ := Reader.readExact_eq_ok hcrlf
      simp only [hdata, hcrlf] at h
      split_ifs at h with heq
      · obtain ⟨hd, rfl⟩ := Prod.mk.inj h
        cases hd
        refine ⟨?_, hlen⟩
        rw [hbytes, show r = crlf ++ r' from hr, heq]
        rfl
      · cases (Prod.mk.inj h).1

variable {info : ChunkMeta}

theorem finishChunk_eq_ok (hsigned : p.signed = true) {r : Option Bytes}
    (h : p.finishChunk hash info = (.ok r, p')) :
    ∃ signature, info = ⟨(r.getD []).length, some signature⟩ ∧
      signature = computeChunkSignature hash p.keys p.prevSignature (r.getD []) ∧
      (r = none ∧ p' = { p with finished := true, prevSignature := signature } ∨
        ∃ data rest, r = some data ∧ data ≠ [] ∧ p.reader.bytes = data ++ 13 :: 10 :: rest ∧
          p' = { p with reader := p.reader.advance rest, prevSignature := signature }) := by
  unfold finishChunk at h
  split_ifs at h with hzero
  · cases hcheck : checkChunk hash { p with finished := true } info.signature [] with
    | error e => simp [hcheck] at h
    | ok prev =>
      obtain ⟨hsig, hprev⟩ := checkChunk_eq_ok hsigned hcheck
      simp only [hcheck, Prod.mk.injEq, Except.ok.injEq] at h
      obtain ⟨rfl, rfl⟩ := h
      refine ⟨prev, ?_, hprev, .inl ⟨rfl, rfl⟩⟩
      cases info
      simp_all
  · rcases hread : p.readData info.size with ⟨result, rest⟩
    cases result with
    | error e => simp [hread] at h
    | ok d =>
      obtain ⟨hbytes, hlen⟩ := readData_eq_ok hread
      simp only [hread] at h
      cases hcheck : checkChunk hash { p with reader := p.reader.advance rest } info.signature d with
      | error e => simp [hcheck] at h
      | ok prev =>
        obtain ⟨hsig, hprev⟩ := checkChunk_eq_ok hsigned hcheck
        simp only [hcheck, Prod.mk.injEq, Except.ok.injEq] at h
        obtain ⟨rfl, rfl⟩ := h
        refine ⟨prev, ?_, hprev, .inr ⟨d, rest, rfl, ?_, hbytes, rfl⟩⟩
        · cases info
          simp_all
        · rintro rfl
          exact hzero hlen.symm

/-- A call either finds the stream at its end, or reads a line and what it announces. -/
theorem nextChunk_eq_ok {r : Option Bytes} (hfin : p.finished = false)
    (h : p.nextChunk hash = (.ok r, p')) : (r = none ∧ p.reader.bytes = [] ∧ p'.reader.bytes = []) ∨
      ∃ line rest info, IsLine line ∧ p.reader.bytes = line ++ rest ∧
        parseChunkMeta line = .ok info ∧
        finishChunk hash { p with chunkCount := p.chunkCount + 1, reader := p.reader.advance rest,
                                  finished := false } info = (.ok r, p') := by
  unfold nextChunk at h
  simp only [hfin, Bool.false_eq_true, if_false] at h
  by_cases hcount : p.chunkCount + 1 > maxChunkCount
  · simp [hcount] at h
  · simp only [if_neg hcount] at h
    cases hline : readLine p.reader.failure [] p.reader.bytes with
    | failed e | tooLong rest => simp [hline] at h
    | eof line =>
      have hall : line = p.reader.bytes := readLine_eq_eof hline
      by_cases hl : line.isEmpty = true
      · simp only [hline, hl, if_true, Prod.mk.injEq, Except.ok.injEq] at h
        obtain ⟨rfl, rfl⟩ := h
        rw [List.isEmpty_iff] at hl
        exact .inl ⟨rfl, hall.symm.trans hl, rfl⟩
      · simp [hline, hl] at h
    | line line rest =>
      obtain ⟨hisline, hbytes⟩ := readLine_eq_line (by simp) hline
      cases hmeta : parseChunkMeta line with
      | error e => simp [hline, hmeta] at h
      | ok info =>
        simp only [hline, hmeta] at h
        exact .inr ⟨line, rest, info, hisline, hbytes, hmeta, h⟩

theorem nextChunk_eq_some (hsigned : p.signed = true) (h : p.nextChunk hash = (.ok (some data), p')) :
    ∃ signature rest, ChunkAt p.reader.bytes ⟨data.length, some signature⟩ data rest ∧
      signature = computeChunkSignature hash p.keys p.prevSignature data ∧
      p'.reader.bytes = rest ∧ p'.prevSignature = signature ∧ p'.keys = p.keys ∧
      p'.signed = true ∧ p'.finished = false := by
  have hfin : p.finished = false := by
    rw [← Bool.not_eq_true]
    intro hfin
    simp [nextChunk, hfin] at h
  obtain ⟨hnone, -⟩ | ⟨line, rest, info, hisline, hbytes, hmeta, hfinish⟩ := nextChunk_eq_ok hfin h
  · cases hnone
  obtain ⟨sig, rfl, hsig, ⟨hnone, -⟩ | ⟨data', rest', hdata, hne, hrest, rfl⟩⟩ :=
    finishChunk_eq_ok (by exact hsigned) hfinish
  · cases hnone
  · cases hdata
    refine ⟨sig, rest', ⟨line, hisline, hmeta, rfl, hne, ?_⟩, hsig, rfl, rfl, rfl, hsigned, rfl⟩
    rw [hbytes, ← hrest]
    rfl

theorem nextChunk_eq_none (hsigned : p.signed = true) (hfin : p.finished = false)
    (h : p.nextChunk hash = (.ok none, p')) : (p.reader.bytes = [] ∧ p'.reader.bytes = []) ∨
      ∃ signature block, FinalAt p.reader.bytes (some signature) block ∧
        signature = computeChunkSignature hash p.keys p.prevSignature [] ∧
        p'.reader.bytes = block ∧ p'.prevSignature = signature ∧ p'.keys = p.keys := by
  obtain ⟨-, hend⟩ | ⟨line, rest, info, hisline, hbytes, hmeta, hfinish⟩ := nextChunk_eq_ok hfin h
  · exact .inl hend
  obtain ⟨sig, rfl, hsig, ⟨-, rfl⟩ | ⟨_, _, hdata, -⟩⟩ :=
    finishChunk_eq_ok (by exact hsigned) hfinish
  · exact .inr ⟨sig, rest, ⟨line, hisline, hmeta, hbytes⟩, hsig, rfl, rfl, rfl⟩
  · cases hdata

/-- The headers that are returned are those of the block, and if the block has a signature, it is
the right one. -/
theorem readTrailers_eq_ok {trailers : List (String × String)} (h : p.readTrailers hash = .ok trailers) :
    ∃ entries signature, parseTrailers p.reader.bytes = .ok (entries, signature) ∧
      ((signature = none ∧ trailers = entries) ∨
        ∃ claimed, signature = some claimed ∧ trailers = sortTrailers entries ∧
          claimed = computeTrailerSignature hash p.keys p.prevSignature (canonicalTrailers trailers)) := by
  simp only [readTrailers, bind_eq_ok] at h
  obtain ⟨buf, hbuf, h⟩ := h
  have hbytes : p.reader.bytes = buf := by
    unfold Reader.readRest at hbuf
    by_cases hlong : p.reader.bytes.length > maxTrailerBytes
    · simp [if_pos hlong] at hbuf
    · rw [if_neg hlong] at hbuf
      cases hfail : p.reader.failure with
      | none => simpa [hfail] using hbuf
      | some e =>
        by_cases heof : e.unexpectedEof = true
        · simpa [hfail, heof] using hbuf
        · simp [hfail, heof] at hbuf
  rw [hbytes]
  by_cases hempty : (buf.isEmpty || decide (buf = [13, 10])) = true
  · rw [if_pos hempty, pure_eq_ok] at h
    refine ⟨[], none, ?_, .inl ⟨rfl, h.symm⟩⟩
    rw [Bool.or_eq_true, List.isEmpty_iff, decide_eq_true_eq] at hempty
    rcases hempty with rfl | rfl <;> rfl
  · rw [if_neg hempty, bind_eq_ok] at h
    obtain ⟨⟨entries, signature⟩, hparse, h⟩ := h
    refine ⟨entries, signature, hparse, ?_⟩
    cases signature with
    | none => exact .inl ⟨rfl, (pure_eq_ok.mp h).symm⟩
    | some claimed =>
      simp only [bind_eq_ok, verifyTrailerSignature, pure_eq_ok] at h
      obtain ⟨u, hverify, rfl⟩ := h
      exact .inr ⟨claimed, rfl, rfl, (verifySignature_eq_ok.mp hverify).symm⟩

end ChunkStreamParser

/-! ## A run -/

/-- Calls of `next_chunk` that return these chunks. -/
inductive Yields (hash : MacHash) : ChunkStreamParser → List Bytes → ChunkStreamParser → Prop where
  | nil {p : ChunkStreamParser} : Yields hash p [] p
  | cons {p p' p'' : ChunkStreamParser} {data : Bytes} {ds : List Bytes} :
    p.nextChunk hash = (.ok (some data), p') → Yields hash p' ds p'' → Yields hash p (data :: ds) p''

variable {p p' : ChunkStreamParser}

/-- **The data that a signed run returned are a chain of signed chunks.** -/
theorem Yields.chain (h : Yields hash p ds p') (hsigned : p.signed = true) (hfin : p.finished = false) :
    Chain hash p.keys p.prevSignature p.reader.bytes ds p'.prevSignature p'.reader.bytes ∧
      p'.keys = p.keys ∧ p'.signed = true ∧ p'.finished = false := by
  induction h with
  | nil => exact ⟨.nil, rfl, hsigned, hfin⟩
  | cons hnext _ ih =>
    obtain ⟨sig, rest, hchunk, hsig, hrest, hprev, hkeys, hsigned', hfin'⟩ :=
      nextChunk_eq_some hsigned hnext
    obtain ⟨hchain, hkeys', hs, hf⟩ := ih hsigned' hfin'
    rw [hrest, hprev, hkeys] at hchain
    exact ⟨.cons hchunk hsig hchain, hkeys'.trans hkeys, hs, hf⟩

variable {reader : Reader} {seed : String} {chunks : List Bytes}

section

variable {keys : StreamKeys} (hyields : Yields hash (.new reader keys seed true) chunks p)
  (hend : p.nextChunk hash = (.ok none, p'))
include hyields hend

/-- A run that ended in `Ok(None)` saw the chunk of length zero, unless the stream ends behind a chunk
of data. -/
theorem complete_iff :
    Complete hash keys seed reader.bytes chunks ↔ ¬ Truncated reader.bytes := by
  obtain ⟨hchain, hkeys, hsigned, hfin⟩ := hyields.chain rfl rfl
  constructor
  · rintro ⟨prev, rest, sig, block, hauth, hfinal, -⟩
    exact hauth.chunks.not_truncated hfinal
  · intro htrunc
    rcases nextChunk_eq_none hsigned hfin hend with
      ⟨hnil, -⟩ | ⟨sig, block, hfinal, hsig, -⟩
    · exact absurd ⟨chunks, hnil ▸ hchain.chunks⟩ htrunc
    · rw [hkeys] at hsig
      exact ⟨p.prevSignature, p.reader.bytes, sig, block, hchain, hfinal, hsig⟩

theorem trailersAt_unique (h : TrailersAt reader.bytes block) :
    p'.reader.bytes = block := by
  obtain ⟨hchain, -, hsigned, hfin⟩ := hyields.chain rfl rfl
  obtain ⟨ds, rest, sig, hchunks, hfinal⟩ := h
  rcases nextChunk_eq_none hsigned hfin hend with ⟨hnil, -⟩ | ⟨s, b, hb, -, hrest, -⟩
  · have htrunc : Truncated reader.bytes := ⟨chunks, hnil ▸ hchain.chunks⟩
    exact absurd htrunc (hchunks.not_truncated hfinal)
  · rw [hrest]
    exact hchain.chunks.final_unique hb hchunks hfinal

end

/-- **When a signed upload cannot be cut short or extended.** -/
theorem nextChunk_authentic_iff {hash : MacHash} {reader : Reader} {keys : StreamKeys} {seed : String}
    {chunks : List Bytes} {p p' : ChunkStreamParser}
    (hyields : Yields hash (.new reader keys seed true) chunks p)
    (hend : p.nextChunk hash = (.ok none, p')) :
    (Complete hash keys seed reader.bytes chunks ↔ ¬ Truncated reader.bytes) ∧
      ∀ trailers, p'.readTrailers hash = .ok trailers →
        (Authentic hash keys seed reader.bytes chunks trailers ↔
          ¬ Truncated reader.bytes ∧ ∀ block, TrailersAt reader.bytes block → SignedIfAny block) := by
  refine ⟨complete_iff hyields hend, ?_⟩
  intro trailers htrailers
  obtain ⟨hchain, hkeys, hsigned, hfin⟩ := hyields.chain rfl rfl
  obtain ⟨entries, signature, hparse, hcases⟩ := readTrailers_eq_ok htrailers
  constructor
  · rintro ⟨prev, rest, sig, block, hauth, hfinal, -, hts⟩
    refine ⟨hauth.chunks.not_truncated hfinal, ?_⟩
    rintro block' hblock es s hes hne rfl
    have hhere : TrailersAt reader.bytes block := ⟨_, _, _, hauth.chunks, hfinal⟩
    rw [trailersAt_unique hyields hend hblock, hes] at hparse
    obtain ⟨rfl, rfl⟩ := Prod.mk.inj (Except.ok.inj hparse)
    rcases hts with rfl | ⟨es', claimed, hparse', -, -⟩
    · rcases hcases with ⟨-, rfl⟩ | ⟨claimed, hsome, -, -⟩
      · exact hne rfl
      · cases hsome
    · rw [← trailersAt_unique hyields hend hhere, trailersAt_unique hyields hend hblock, hes] at hparse'
      cases (Prod.mk.inj (Except.ok.inj hparse')).2
  · rintro ⟨htrunc, hblock⟩
    rcases nextChunk_eq_none hsigned hfin hend with
      ⟨hnil, -⟩ | ⟨sig, block, hfinal, hsig, hrest, hprev, hkeys'⟩
    · exact absurd ⟨chunks, hnil ▸ hchain.chunks⟩ htrunc
    · rw [hkeys] at hsig hkeys'
      refine ⟨p.prevSignature, p.reader.bytes, sig, block, hchain, hfinal, hsig, ?_⟩
      rw [hrest] at hparse
      rw [hprev, hkeys'] at hcases
      rcases hcases with ⟨rfl, rfl⟩ | ⟨claimed, rfl, rfl, hclaimed⟩
      · by_cases hne : trailers = []
        · exact .inl hne
        · exact absurd rfl
            (hblock block ⟨chunks, _, _, hchain.chunks, hfinal⟩ trailers none hparse hne)
      · exact .inr ⟨entries, claimed, hparse, rfl, hclaimed⟩

/-! ## An upload -/

namespace SampleStream

def keys : StreamKeys := ⟨[1, 2, 3], "20130524T000000Z", "20130524", "us-east-1", "s3"⟩

def hello : Bytes := textBytes "hello"

def helloSignature : String := computeChunkSignature .constant keys "seed" hello

def first : Bytes := textBytes ("5;chunk-signature=" ++ helloSignature ++ "\r\nhello\r\n")

def finalSignature : String := computeChunkSignature .constant keys helloSignature []

/-- The chunk of length zero, with its signature. -/
def final : Bytes := textBytes ("0;chunk-signature=" ++ finalSignature ++ "\r\n")

def trailers : List (String × String) := [("x-amz-checksum-crc32c", "AAAA")]

def trailer : Bytes := textBytes "x-amz-checksum-crc32c:AAAA\r\n"

def trailerSignature : Bytes :=
  textBytes ("x-amz-trailer-signature:" ++
    computeTrailerSignature .constant keys finalSignature (canonicalTrailers trailers) ++ "\r\n")

def start (stream : Bytes) : ChunkStreamParser := .new ⟨stream, none⟩ keys "seed" true

def after (stream : Bytes) : ℕ → ChunkStreamParser
  | 0 => start stream
  | n + 1 => ((after stream n).nextChunk .constant).2

variable {stream : Bytes}

theorem nextChunk_after {n : ℕ} {result : Except SigV4Error (Option Bytes)}
    (h : ((after stream n).nextChunk .constant).1 = result) :
    (after stream n).nextChunk .constant = (result, after stream (n + 1)) :=
  Prod.ext h rfl

theorem yields_hello (h : ((after stream 0).nextChunk .constant).1 = .ok (some hello)) :
    Yields .constant (after stream 0) [hello] (after stream 1) :=
  .cons (nextChunk_after h) .nil

end SampleStream

open SampleStream in
/-- An upload of one chunk with a signed trailer is read as it was signed. -/
theorem nextChunk_authentic_upload :
    let upload := first ++ final ++ trailer ++ trailerSignature
    (after upload 2).readTrailers .constant = .ok trailers ∧
      (Authentic .constant keys "seed" upload [hello] trailers ↔
        ¬ Truncated upload ∧ ∀ block, TrailersAt upload block → SignedIfAny block) := by
  intro upload
  have hread : (after upload 2).readTrailers .constant = .ok trailers := by
    decide +kernel
  have hend : ((after upload 1).nextChunk .constant).1 = .ok none := by
    decide +kernel
  exact ⟨hread, (nextChunk_authentic_iff (yields_hello (by decide +kernel))
    (nextChunk_after hend)).2 trailers hread⟩

open SampleStream in
/-- **An upload that breaks off is taken for a complete one**: the stream ends behind its first
chunk, the next call returns `Ok(None)`, and the trailers are empty. -/
theorem nextChunk_accepts_truncated :
    ((after first 0).nextChunk .constant).1 = .ok (some hello) ∧
      ((after first 1).nextChunk .constant).1 = .ok none ∧
      (after first 2).readTrailers .constant = .ok [] ∧
      ¬ Authentic .constant keys "seed" first [hello] [] := by
  have hfirst : ((after first 0).nextChunk .constant).1 = .ok (some hello) := by decide +kernel
  refine ⟨hfirst, by decide +kernel, by decide +kernel, ?_⟩
  rintro ⟨prev, rest, signature, block, hchain, hfinal, -, -⟩
  have hread := ((yields_hello hfirst).chain rfl rfl).1.chunks
  have hnil : (after first 1).reader.bytes = [] := by decide +kernel
  rw [hnil] at hread
  exact hchain.chunks.not_truncated hfinal ⟨[hello], hread⟩

end KappaRegistry.SigV4
