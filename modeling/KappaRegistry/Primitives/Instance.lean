import KappaRegistry.Primitives
import Mathlib.Data.List.Basic

/-!
# A Concrete Codec

An instance of the hash and codec parameters that runs. `Primitives.sample` is what concrete runs
of the stores use: its codec writes every field so that it delimits itself, and takes text as it
is, as dCBOR does for text in normal form. Its hashes are polynomial checksums.
-/

namespace KappaRegistry

open UInt8

namespace SampleCodec

/-! ## Self-delimiting fields -/

/-- Three bytes a character, the first of them not zero, and a zero at the end. -/
def putChars : List Char → Bytes
  | [] => [0]
  | c :: cs => UInt8.ofNat (c.toNat / 65536 + 1) :: UInt8.ofNat (c.toNat / 256 % 256) ::
      UInt8.ofNat (c.toNat % 256) :: putChars cs

def getChars : Bytes → Option (List Char × Bytes)
  | a :: b :: c :: rest =>
    if a = 0 then some ([], b :: c :: rest)
    else (getChars rest).map fun (cs, rest) =>
      (Char.ofNat ((a.toNat - 1) * 65536 + b.toNat * 256 + c.toNat) :: cs, rest)
  | a :: rest => if a = 0 then some ([], rest) else none
  | [] => none

theorem char_toNat_lt (c : Char) : c.toNat < 1114112 := by
  rcases c.valid with h | ⟨_, h⟩
  · exact Nat.lt_trans h (by decide)
  · exact h

theorem getChars_zero (rest : Bytes) : getChars (0 :: rest) = some ([], rest) := by
  match rest with
  | [] => rfl
  | [_] => rfl
  | _ :: _ :: _ => rfl

theorem getChars_putChars (cs : List Char) (rest : Bytes) :
    getChars (putChars cs ++ rest) = some (cs, rest) := by
  induction cs with
  | nil => exact getChars_zero rest
  | cons c cs ih =>
    have hc := char_toNat_lt c
    have ha : (ofNat (c.toNat / 65536 + 1)).toNat = c.toNat / 65536 + 1 := by
      simp only [toNat_ofNat']
      omega
    have hb : (ofNat (c.toNat / 256 % 256)).toNat = c.toNat / 256 % 256 := by
      simp only [toNat_ofNat']
      omega
    have hd : (ofNat (c.toNat % 256)).toNat = c.toNat % 256 := by
      simp only [toNat_ofNat']
      omega
    have hne : ¬ ofNat (c.toNat / 65536 + 1) = 0 := by
      intro h
      rw [h] at ha
      simp at ha
    have hsum : (c.toNat / 65536 + 1 - 1) * 65536 + c.toNat / 256 % 256 * 256 + c.toNat % 256
        = c.toNat := by omega
    simp only [putChars, List.cons_append, getChars, if_neg hne, ih, Option.map_some, ha, hb, hd,
      hsum, Char.ofNat_toNat]

def putText (s : String) : Bytes := putChars s.toList

def getText (bytes : Bytes) : Option (String × Bytes) :=
  (getChars bytes).map fun (cs, rest) => (String.ofList cs, rest)

@[simp] theorem getText_putText (s : String) (rest : Bytes) :
    getText (putText s ++ rest) = some (s, rest) := by
  simp [getText, putText, getChars_putChars]

/-- A byte string: a one in front of every byte, and a zero at the end. -/
def putBytes : Bytes → Bytes
  | [] => [0]
  | b :: bs => 1 :: b :: putBytes bs

def getBytes : Bytes → Option (Bytes × Bytes)
  | a :: b :: rest =>
    if a = 0 then some ([], b :: rest)
    else (getBytes rest).map fun (bs, rest) => (b :: bs, rest)
  | [a] => if a = 0 then some ([], []) else none
  | [] => none

@[simp] theorem getBytes_putBytes (bs rest : Bytes) :
    getBytes (putBytes bs ++ rest) = some (bs, rest) := by
  induction bs with
  | nil => cases rest <;> rfl
  | cons b bs ih => simp [putBytes, getBytes, ih]

section

variable {α : Type} (put : α → Bytes) (get : Bytes → Option (α × Bytes))

def putOption : Option α → Bytes
  | none => [0]
  | some x => 1 :: put x

def getOption : Bytes → Option (Option α × Bytes)
  | a :: rest =>
    if a = 0 then some (none, rest) else (get rest).map fun (x, rest) => (some x, rest)
  | [] => none

theorem getOption_putOption (h : ∀ x rest, get (put x ++ rest) = some (x, rest)) (o : Option α)
    (rest : Bytes) : getOption get (putOption put o ++ rest) = some (o, rest) := by
  cases o with
  | none => rfl
  | some x => simp [putOption, getOption, h]

end

/-! ## Edges -/

/-- The relations in the order of their CBOR numbers. -/
def relations : List EdgeRelation :=
  [.owns, .composedOf, .assertion, .revocation, .capability, .recoveryShare, .epochRoot,
    .akdTreeNode, .chunkManifest, .witnessReceipt, .offloadReceipt, .derivedFrom, .certifiedBy,
    .evidenceProvenance, .sectionOf, .refersTo, .delegation]

def putEdge (e : Edge) : Bytes :=
  UInt8.ofNat (relations.idxOf e.relation) :: (putText e.source ++ (putText e.target ++
    (putText e.asserter ++ (putOption putText e.valueKappa ++ putOption putBytes e.metadata))))

def checksum (ns : List ℕ) : ℕ := ns.foldl (fun h n => (h * 1114119 + n + 1) % (2 ^ 61 - 1)) 7

end SampleCodec

open SampleCodec

/-- Parameters that run: checksums for hashes, and the self-delimiting codec. -/
def Primitives.sample : Primitives where
  itemHash s := checksum (s.toList.map Char.toNat)
  kappaFromBytes bytes := "sha256:" ++ toString (checksum (bytes.map UInt8.toNat))
  deterministicUuid name := Fin.ofNat _ (checksum (name.toList.map Char.toNat))
  edgeBytes := putEdge
  nfc := id

theorem canonical_sample (edge : Edge) : edge.canonical .sample = edge := by
  cases edge
  simp [Edge.canonical, Primitives.sample]

end KappaRegistry
