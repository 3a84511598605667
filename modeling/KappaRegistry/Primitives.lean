import KappaRegistry.Types

/-!
# Hashes and the Canonical Codec

The hash functions and the dCBOR codec come from other crates, so they are parameters of the
model: arbitrary functions, with what a result needs of them stated as a hypothesis of that
result.
-/

namespace KappaRegistry

/-- The canonical codec at one type: `canonical_bytes` and `from_canonical`. -/
structure Canonical (α : Type) where
  bytes : α → Bytes
  decode : Bytes → Option α

/-- The functions the stores take from other crates. -/
structure Primitives where
  /-- `item_hash`: the first eight bytes of BLAKE3. -/
  itemHash : String → ℕ
  /-- `kappa_from_bytes`: the SHA-256 label of a byte string. -/
  kappaFromBytes : Bytes → String
  /-- The UUID of `NamespaceRef::deterministic`: keyed BLAKE3 of the name. -/
  deterministicUuid : String → Uuid
  /-- `canonical_bytes` of an edge. -/
  edgeBytes : Edge → Bytes
  /-- Unicode normal form C, into which dCBOR brings every text it writes. -/
  nfc : String → String

/-- The edge that reading the canonical bytes of `edge` back gives. -/
def Edge.canonical (prim : Primitives) (edge : Edge) : Edge :=
  { edge with
    source := prim.nfc edge.source
    target := prim.nfc edge.target
    asserter := prim.nfc edge.asserter
    valueKappa := edge.valueKappa.map prim.nfc }

def Edge.kappa (prim : Primitives) (edge : Edge) : String :=
  prim.kappaFromBytes (prim.edgeBytes edge)

/-- The namespace of a well-known name, the same on every node. -/
def NamespaceRef.deterministic (prim : Primitives) (name : String) : NamespaceRef :=
  .withName (prim.deterministicUuid name) name

/-- `hex::encode` of a UUID. -/
def Uuid.hex (uuid : Uuid) : String :=
  String.ofList ((List.range 32).map fun i =>
    "0123456789abcdef".toList.getD (uuid.val / 16 ^ (31 - i) % 16) '0')

def NamespaceRef.display (ns : NamespaceRef) : String := ns.displayName.getD ("ns:" ++ ns.uuid.hex)

/-- The key of a name in the alias table: scoped by protocol, or global. -/
def aliasKey (name : String) (protocol : Option String) : String :=
  match protocol with
  | some p => p ++ ":" ++ name
  | none => name

end KappaRegistry
