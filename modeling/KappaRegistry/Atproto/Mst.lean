import KappaRegistry.Atproto.Session

/-!
# Merkle Search Trees

`kappa-module-atproto/src/mst.rs`, `cid.rs`, `commit.rs` and `tid.rs`. A repository is a map from keys
`collection/rkey` to content identifiers. Its tree has a layer for each number of leading zeros of the
hashed keys: a node holds the keys of its layer, and the keys of lower layers between two of them are in
the subtree between them. A node is a block of DAG-CBOR, identified by its hash.

`write_to_store` walks over one sorted array of keys with two indices; here the keys of a node are a
list that `splitLayer` cuts at the keys of the layer.
-/

namespace KappaRegistry.Atproto

open Lib

/-- The identifier of a block, 36 bytes. -/
abbrev Cid := Bytes

/-! ## CBOR -/

/-- The head of a text, byte string or array of a length below `2 ^ 16`. -/
def cborHead (major length : ℕ) : Bytes :=
  if length < 24 then [UInt8.ofNat (32 * major + length)]
  else if length < 256 then [UInt8.ofNat (32 * major + 24), UInt8.ofNat length]
  else [UInt8.ofNat (32 * major + 25), UInt8.ofNat (length / 256), UInt8.ofNat length]

def encodeText (s : String) : Bytes := cborHead 3 (textBytes s).length ++ textBytes s

def encodeBytes (data : Bytes) : Bytes := cborHead 2 data.length ++ data

/-- Tag 42 and a byte string with the identity multibase prefix. -/
def encodeCid (cid : Cid) : Bytes := [0xD8, 42] ++ cborHead 2 (1 + cid.length) ++ 0 :: cid

def encodeNullableCid : Option Cid → Bytes
  | some cid => encodeCid cid
  | none => [0xF6]

/-- `encode_uint` and `encode_cbor_uint`, which differ in the width of the largest numbers. -/
def encodeUint (wide : ℕ × UInt8) (n : ℕ) : Bytes :=
  if n < 24 then [UInt8.ofNat n]
  else if n < 256 then [0x18, UInt8.ofNat n]
  else if n < 65536 then [0x19, UInt8.ofNat (n / 256), UInt8.ofNat n]
  else wide.2 :: bigEndian wide.1 n

/-! ## Nodes -/

structure MstEntry where
  prefixLen : ℕ
  keySuffix : Bytes
  value : Cid
  tree : Option Cid
  deriving DecidableEq

/-- `encode_tree_entry`: the members `k`, `p`, `t` and `v`. -/
def encodeTreeEntry (entry : MstEntry) : Bytes :=
  [0xA4, 0x61, 107] ++ encodeBytes entry.keySuffix ++
    [0x61, 112] ++ encodeUint (8, 0x1B) entry.prefixLen ++
    [0x61, 116] ++ encodeNullableCid entry.tree ++
    [0x61, 118] ++ encodeCid entry.value

/-- `encode_node`: the members `e` and `l`. -/
def encodeNode (left : Option Cid) (entries : List MstEntry) : Bytes :=
  [0xA2, 0x61, 101] ++ cborHead 4 entries.length ++ entries.flatMap encodeTreeEntry ++
    [0x61, 108] ++ encodeNullableCid left

/-! ## Keys -/

/-- The leading zeros of a hash, in steps of two bits. -/
def leadingZeroPairs : Bytes → ℕ
  | [] => 0
  | byte :: bytes =>
    if 64 ≤ byte then 0
    else if 16 ≤ byte then 1
    else if 4 ≤ byte then 2
    else if byte ≠ 0 then 3
    else 4 + leadingZeroPairs bytes

/-- The length of the common prefix of two keys, in bytes. -/
def countPrefixLen (a b : String) : ℕ :=
  (((textBytes a).zip (textBytes b)).takeWhile fun pair => pair.1 == pair.2).length

/-! ## Trees -/

/-- A key with its value and its layer. -/
structure MstKey where
  key : String
  value : Cid
  layer : ℕ
  deriving DecidableEq

abbrev MstBlock := Cid × Bytes

/-- The keys below the layer before its first key, and each key of the layer with those below it up to
the next. A key above the layer, which the caller does not pass, is skipped with what follows it. -/
def splitLayer (layer : ℕ) : List MstKey → List MstKey × List (MstKey × List MstKey)
  | [] => ([], [])
  | k :: ks =>
    if k.layer < layer then (k :: (splitLayer layer ks).1, (splitLayer layer ks).2)
    else if k.layer = layer then ([], (k, (splitLayer layer ks).1) :: (splitLayer layer ks).2)
    else ([], (splitLayer layer ks).2)

/-- The entries of a node, each key with what it shares with the one before it. -/
def entriesOf (prevKey : String) : List (MstKey × Option Cid) → List MstEntry
  | [] => []
  | (k, tree) :: rest =>
    { prefixLen := countPrefixLen prevKey k.key
      keySuffix := (textBytes k.key).drop (countPrefixLen prevKey k.key)
      value := k.value
      tree } :: entriesOf k.key rest

section

variable (libs : SessionLibs)

def cidForCbor (data : Bytes) : Cid := [0x01, 0x71, 0x12, 0x20] ++ libs.sha256 data

def leadingZeros (key : String) : ℕ := leadingZeroPairs (libs.sha256 (textBytes key))

/-- The node over some keys, given how the keys below its layer are stored, and all blocks of it. -/
def buildNode (below : List MstKey → Option Cid × List MstBlock) (layer : ℕ) (keys : List MstKey) :
    Cid × List MstBlock :=
  let left := below (splitLayer layer keys).1
  let rights := (splitLayer layer keys).2.map fun group => (group.1, below group.2)
  let bytes := encodeNode left.1 (entriesOf "" (rights.map fun right => (right.1, right.2.1)))
  (cidForCbor libs bytes,
    left.2 ++ (rights.flatMap fun right => right.2.2) ++ [(cidForCbor libs bytes, bytes)])

def subtreeOf (build : List MstKey → Cid × List MstBlock) (keys : List MstKey) :
    Option Cid × List MstBlock :=
  if keys.isEmpty then (none, []) else (some (build keys).1, (build keys).2)

def buildSubtree : ℕ → List MstKey → Cid × List MstBlock
  | 0 => buildNode libs (fun _ => (none, [])) 0
  | layer + 1 => buildNode libs (subtreeOf (buildSubtree layer)) (layer + 1)

end

/-- `Mst`: the keys and values of a tree. -/
abbrev Mst := Table String Cid

namespace Mst

/-- `write_to_store`: the identifier of the root and all blocks. -/
def writeToStore (libs : SessionLibs) (mst : Mst) : Cid × List MstBlock :=
  if mst.isEmpty then
    (cidForCbor libs (encodeNode none []),
      [(cidForCbor libs (encodeNode none []), encodeNode none [])])
  else
    let keyed := mst.toList.map fun row => ⟨row.1, row.2, leadingZeros libs row.1⟩
    buildSubtree libs ((keyed.map MstKey.layer).foldl max 0) keyed

def root (libs : SessionLibs) (mst : Mst) : Cid := (mst.writeToStore libs).1

end Mst

/-! ## Commits -/

structure UnsignedCommit where
  did : String
  version : ℕ
  data : Cid
  rev : String
  prev : Option Cid
  deriving DecidableEq

/-- `encode_commit_cbor` without a signature. -/
def UnsignedCommit.toCbor (commit : UnsignedCommit) : Bytes :=
  0xA5 :: (encodeText "data" ++ encodeCid commit.data ++ encodeText "did" ++ encodeText commit.did ++
    encodeText "prev" ++ encodeNullableCid commit.prev ++ encodeText "rev" ++ encodeText commit.rev ++
    encodeText "version" ++ encodeUint (4, 0x1A) commit.version)

def s32Char (n : ℕ) : Char := ("234567abcdefghijklmnopqrstuvwxyz".toList).getD n '2'

/-- The digits of a number to the base 32, the lowest first. A 64-bit number has at most thirteen. -/
def s32Digits : ℕ → ℕ → List Char
  | 0, _ => []
  | fuel + 1, n => if n = 0 then [] else s32Char (n % 32) :: s32Digits fuel (n / 32)

/-- `s32_encode`, padded with zeros. -/
def s32Padded (width n : ℕ) : List Char :=
  let digits := (s32Digits 13 n).reverse
  List.replicate (width - digits.length) '2' ++ digits

/-- The first TID of a new generator with clock 0. -/
def nextTid (nowUs : ℕ) : String :=
  String.ofList (s32Padded 11 (if 0 < nowUs then nowUs else 1) ++ s32Padded 2 0)

end KappaRegistry.Atproto
