import KappaRegistry.Types

/-!
# JSON Bodies and Metadata

Request bodies and edge metadata are JSON read by `serde_json`, whose parser is a parameter
(`SerdeJson`). A text read as a `Value` keeps the last of several members with one name (`Json.get`); a
text read as a `DelegationScope` is rejected if it repeats a field of the struct, ignores members it
does not know, treats a missing or null `expires_at_ms` as no expiry, and may also be the array of the
four fields in order.
-/

namespace KappaRegistry

/-- A JSON number token: integers as `serde_json` classifies them, anything else by its text. -/
inductive JsonNumber where
  | posInt (n : ℕ)
  | negInt (n : ℕ)
  | float (text : String)

/-- A JSON text, with the members of an object in the order they are written. -/
inductive Json where
  | null
  | bool (b : Bool)
  | num (n : JsonNumber)
  | str (s : String)
  | arr (xs : List Json)
  | obj (members : List (String × Json))

/-- `serde_json::from_slice` up to the syntax tree, and `serde_json::to_vec`. -/
structure SerdeJson where
  fromSlice : Bytes → Option Json
  toVec : Json → Bytes

namespace Json

/-- `Value::get`: the member of an object, the last one if the name is repeated. -/
def get (k : String) : Json → Option Json
  | .obj members => (members.reverse.find? fun m => m.1 == k).map Prod.snd
  | _ => none

def asStr : Json → Option String
  | .str s => some s
  | _ => none

def asArray : Json → Option (List Json)
  | .arr xs => some xs
  | _ => none

/-- An unsigned integer of at most `bound`. -/
def asUnsigned (bound : ℕ) : Json → Option ℕ
  | .num (.posInt n) => if n ≤ bound then some n else none
  | _ => none

/-- A `Vec<String>`. -/
def asStringVec : Json → Option (List String)
  | .arr xs => xs.mapM asStr
  | _ => none

/-- An `Option<u64>` that is present. -/
def asOptionU64 : Json → Option (Option ℕ)
  | .null => some none
  | v => (v.asUnsigned u64Max).map some

/-- The member of a struct read from an object: `none` if it is repeated. -/
def structField (k : String) (members : List (String × Json)) : Option (Option Json) :=
  match members.filter fun m => m.1 == k with
  | [] => some none
  | [m] => some (some m.2)
  | _ => none

end Json

namespace DelegationScope

/-- The scope from its four field values, as the derived `Deserialize` reads them. -/
def ofFields (namespaces operations expiresAtMs delegationDepth : Json) :
    Option DelegationScope := do
  let namespaces ← namespaces.asStringVec
  let operations ← operations.asStringVec
  let expiresAtMs ← expiresAtMs.asOptionU64
  let delegationDepth ← delegationDepth.asUnsigned u32Max
  return { namespaces, operations, expiresAtMs, delegationDepth }

/-- `Deserialize for DelegationScope`. -/
def ofJson : Json → Option DelegationScope
  | .obj members => do
    let namespaces ← Json.structField "namespaces" members
    let operations ← Json.structField "operations" members
    let expiresAtMs ← Json.structField "expires_at_ms" members
    let delegationDepth ← Json.structField "delegation_depth" members
    ofFields (← namespaces) (← operations) (expiresAtMs.getD .null) (← delegationDepth)
  | .arr [namespaces, operations, expiresAtMs, delegationDepth] =>
    ofFields namespaces operations expiresAtMs delegationDepth
  | _ => none

end DelegationScope

namespace SerdeJson

variable (serde : SerdeJson)

/-- `serde_json::from_slice::<DelegationScope>`. -/
def scopeFromSlice (bytes : Bytes) : Option DelegationScope :=
  (serde.fromSlice bytes).bind DelegationScope.ofJson

end SerdeJson

end KappaRegistry
