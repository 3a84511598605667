import KappaRegistry.Primitives.Instance

/-!
# Labels Without Collisions

Parameters for concrete runs under which no two edges have the same label: the codec of edges can
be read back, and a label spells the bytes out, one character for each.
-/

namespace KappaRegistry

namespace SampleCodec

def getEdge : Bytes → Option Edge
  | [] => none
  | code :: rest => do
    let relation ← relations[code.toNat]?
    let (source, rest) ← getText rest
    let (target, rest) ← getText rest
    let (asserter, rest) ← getText rest
    let (valueKappa, rest) ← getOption getText rest
    let (metadata, _) ← getOption getBytes rest
    some ⟨source, target, relation, asserter, valueKappa, metadata⟩

theorem relations_idxOf (relation : EdgeRelation) :
    relations[(UInt8.ofNat (relations.idxOf relation)).toNat]? = some relation := by
  cases relation <;> rfl

theorem getEdge_putEdge (edge : Edge) : getEdge (putEdge edge) = some edge := by
  have hmeta := getOption_putOption putBytes getBytes getBytes_putBytes edge.metadata []
  rw [List.append_nil] at hmeta
  simp only [putEdge, getEdge, relations_idxOf, getText_putText,
    getOption_putOption putText getText getText_putText, hmeta, Option.bind_eq_bind, Option.bind_some]

def byteLabel (bytes : Bytes) : String :=
  String.ofList ('k' :: bytes.map fun b => Char.ofNat b.toNat)

theorem byteLabel_injective : Function.Injective byteLabel := by
  intro a b hab
  have hlist := congrArg String.toList hab
  simp only [byteLabel, String.toList_ofList, List.cons.injEq, true_and] at hlist
  refine List.map_injective_iff.mpr ?_ hlist
  intro x y hxy
  have hchar : ∀ b : UInt8, (Char.ofNat b.toNat).toNat = b.toNat := by
    intro b
    have hvalid : b.toNat.isValidChar := .inl (Nat.lt_trans b.toNat_lt (by decide))
    rw [Char.ofNat, dif_pos hvalid]
    rfl
  have hnat : (Char.ofNat x.toNat).toNat = (Char.ofNat y.toNat).toNat := congrArg Char.toNat hxy
  rw [hchar, hchar] at hnat
  exact UInt8.toNat_inj.mp hnat

end SampleCodec

open SampleCodec

variable (nfc : String → String)

/-- Parameters with labels that tell all edges apart, over any normal form. -/
def Primitives.distinct : Primitives :=
  let texts : Primitives := { Primitives.sample with nfc := nfc }
  { texts with
    kappaFromBytes := byteLabel
    edgeBytes := fun edge => putEdge (edge.canonical texts) }

theorem getEdge_edgeBytes_distinct (edge : Edge) :
    getEdge ((Primitives.distinct nfc).edgeBytes edge) = some (edge.canonical (.distinct nfc)) :=
  getEdge_putEdge _

theorem canonical_eq_of_kappa_distinct (e e' : Edge)
    (h : e.kappa (.distinct nfc) = e'.kappa (.distinct nfc)) :
    e.canonical (.distinct nfc) = e'.canonical (.distinct nfc) := by
  have hbytes := congrArg getEdge (byteLabel_injective h)
  rw [getEdge_edgeBytes_distinct, getEdge_edgeBytes_distinct] at hbytes
  exact Option.some.inj hbytes

theorem canonical_distinct_id (edge : Edge) : edge.canonical (.distinct id) = edge := by
  cases edge
  simp [Edge.canonical, Primitives.distinct]

end KappaRegistry
